import PrReviewer.Model.Phases

/-!
# The cap on findings

`_assemble_findings` cuts the findings of the agent, the secrets and the findings of the
compliance report off at a hundred, in this order and without a look at their severities.
`cap_keeps_severe_iff` says on which findings that keeps the most severe ones.
-/

set_option autoImplicit false

namespace PrReviewer.Model

open Library

/-- `SEVERITY_ORDER` -/
def Severity.order : Severity → Nat
  | .high => 0
  | .medium => 1
  | .low => 2

/-- The finding is at least as severe as the other one. -/
def ParsedFinding.AtLeast (a b : ParsedFinding) : Prop :=
  a.severity.order ≤ b.severity.order

/-- What the cap is to do: at most a hundred findings stay, all of them found, and none that is
dropped is more severe than one that stays. -/
structure KeepsSevere (findings : List ParsedFinding) (sec : SecReport)
    (report : ComplianceReport) : Prop where
  length : (capFindings findings sec report).length ≤ 100
  sources : ∀ f ∈ capFindings findings sec report,
    f ∈ findings ∨ f ∈ sec.secrets.map Secret.finding ∨ f ∈ report.toFindings
  severe : ∀ a ∈ capFindings findings sec report,
    ∀ b ∈ (allFindings findings sec report).drop 100, a.AtLeast b

/-- The first hundred findings of the agent leave nothing more severe behind: neither one of its
own, nor a secret, nor a module without tests, where these do not fit. -/
structure FitsCap (findings : List ParsedFinding) (sec : SecReport)
    (report : ComplianceReport) : Prop where
  own : ∀ a ∈ findings.take 100, ∀ b ∈ findings.drop 100, a.AtLeast b
  secrets : sec.secrets ≠ [] → 100 < findings.length + sec.secrets.length →
    ∀ a ∈ findings.take 100, a.severity = .high
  missing : report.missingCoverage ≠ [] →
    100 < findings.length + sec.secrets.length + report.missingCoverage.length →
      ∀ a ∈ findings.take 100, a.severity ≠ .low

/-- Every finding is at least as severe as a low one. -/
theorem ParsedFinding.atLeast_of_low {a b : ParsedFinding} (h : b.severity = .low) :
    a.AtLeast b := by
  rw [AtLeast, h]
  cases a.severity <;> decide

/-- A high finding is at least as severe as every other. -/
theorem ParsedFinding.atLeast_of_high {a b : ParsedFinding} (h : a.severity = .high) :
    a.AtLeast b := by
  rw [AtLeast, h]
  exact Nat.zero_le _

/-- Only high findings are as severe as a high one. -/
theorem ParsedFinding.atLeast_high_iff {a b : ParsedFinding} (h : b.severity = .high) :
    a.AtLeast b ↔ a.severity = .high := by
  rw [AtLeast, h]
  cases a.severity <;> decide

/-- All but low findings are as severe as a medium one. -/
theorem ParsedFinding.atLeast_medium_iff {a b : ParsedFinding} (h : b.severity = .medium) :
    a.AtLeast b ↔ a.severity ≠ .low := by
  rw [AtLeast, h]
  cases a.severity <;> decide

/-- A secret's finding is high. -/
theorem severity_of_secret {sec : SecReport} {f : ParsedFinding}
    (h : f ∈ sec.secrets.map Secret.finding) : f.severity = .high := by
  obtain ⟨s, -, rfl⟩ := List.mem_map.mp h
  rfl

/-- The findings of the modules without tests. -/
def ComplianceReport.missing (report : ComplianceReport) : List ParsedFinding :=
  { report with violations := [] }.toFindings

/-- The findings of the violations. -/
def ComplianceReport.violated (report : ComplianceReport) : List ParsedFinding :=
  { report with missingCoverage := [] }.toFindings

/-- The report's findings are the missing tests and then the violations. -/
theorem ComplianceReport.toFindings_eq (report : ComplianceReport) :
    report.toFindings = report.missing ++ report.violated := by
  simp [toFindings, missing, violated]

/-- Each missing test is one finding. -/
theorem ComplianceReport.length_missing (report : ComplianceReport) :
    report.missing.length = report.missingCoverage.length := by
  simp [toFindings, missing]

/-- A missing test's finding is medium. -/
theorem ComplianceReport.severity_of_missing {report : ComplianceReport} {f : ParsedFinding}
    (h : f ∈ report.missing) : f.severity = .medium := by
  rw [missing, toFindings, List.map_nil, List.append_nil] at h
  obtain ⟨m, -, rfl⟩ := List.mem_map.mp h
  rfl

/-- A violation's finding is low. -/
theorem ComplianceReport.severity_of_violated {report : ComplianceReport} {f : ParsedFinding}
    (h : f ∈ report.violated) : f.severity = .low := by
  rw [violated, toFindings, List.map_nil, List.nil_append] at h
  obtain ⟨m, -, rfl⟩ := List.mem_map.mp h
  rfl

section Cut

variable {findings : List ParsedFinding} {sec : SecReport} {report : ComplianceReport}
  {f : ParsedFinding}

/-- What stays, by its source. -/
theorem mem_capFindings_iff :
    f ∈ capFindings findings sec report ↔
      f ∈ findings.take 100 ∨
      f ∈ (sec.secrets.map Secret.finding).take (100 - findings.length) ∨
      f ∈ report.missing.take (100 - findings.length - sec.secrets.length) ∨
      f ∈ report.violated.take (100 - findings.length - sec.secrets.length -
        report.missingCoverage.length) := by
  rw [capFindings, allFindings, report.toFindings_eq, List.append_assoc, List.take_append,
    List.take_append, List.take_append, List.mem_append, List.mem_append, List.mem_append,
    List.length_map, report.length_missing]

/-- What is dropped, by its source. -/
theorem mem_dropped_iff :
    f ∈ (allFindings findings sec report).drop 100 ↔
      f ∈ findings.drop 100 ∨
      f ∈ (sec.secrets.map Secret.finding).drop (100 - findings.length) ∨
      f ∈ report.missing.drop (100 - findings.length - sec.secrets.length) ∨
      f ∈ report.violated.drop (100 - findings.length - sec.secrets.length -
        report.missingCoverage.length) := by
  rw [allFindings, report.toFindings_eq, List.append_assoc, List.drop_append, List.drop_append,
    List.drop_append, List.mem_append, List.mem_append, List.mem_append, List.length_map,
    report.length_missing]

end Cut

/-- A list that is longer than what may stay of it drops something. -/
theorem exists_mem_drop {α : Type} {l : List α} {n : ℕ} (h : n < l.length) : ∃ a, a ∈ l.drop n :=
  ⟨l[n], by rw [List.drop_eq_getElem_cons h]; exact List.mem_cons_self⟩

/-- Something is dropped only from a longer list. -/
theorem lt_length_of_mem_drop {α : Type} {l : List α} {n : ℕ} {a : α} (h : a ∈ l.drop n) :
    n < l.length := by
  have hpos := List.length_pos_of_mem h
  rw [List.length_drop] at hpos
  omega

/-- Nothing stays of a list that begins after the cap. -/
theorem pos_of_mem_take {α : Type} {l : List α} {n : ℕ} {a : α} (h : a ∈ l.take n) : 0 < n := by
  cases n with
  | zero => exact absurd h (by simp)
  | succ n => exact Nat.succ_pos n

/-- At most 100 findings are kept. -/
theorem capFindings_length_le (findings : List ParsedFinding) (sec : SecReport)
    (report : ComplianceReport) : (capFindings findings sec report).length ≤ 100 := by
  rw [capFindings, List.length_take]
  exact Nat.min_le_left _ _

/-- Every kept finding comes from one of the three sources. -/
theorem mem_of_mem_capFindings {findings : List ParsedFinding} {sec : SecReport}
    {report : ComplianceReport} {f : ParsedFinding} (h : f ∈ capFindings findings sec report) :
    f ∈ findings ∨ f ∈ sec.secrets.map Secret.finding ∨ f ∈ report.toFindings := by
  have hall := List.mem_of_mem_take h
  rw [allFindings, List.mem_append, List.mem_append, or_assoc] at hall
  exact hall

section Severe

variable {findings : List ParsedFinding} {sec : SecReport} {report : ComplianceReport}
  {a b : ParsedFinding}

/-- Findings that stay, with one of each source that is dropped. -/
theorem KeepsSevere.fitsCap (h : KeepsSevere findings sec report) :
    FitsCap findings sec report := by
  have hkept : ∀ a ∈ findings.take 100, a ∈ capFindings findings sec report :=
    fun a ha => mem_capFindings_iff.mpr (Or.inl ha)
  refine ⟨?_, ?_, ?_⟩
  · exact fun a ha b hb => h.severe a (hkept a ha) b (mem_dropped_iff.mpr (Or.inl hb))
  · intro hne hover a ha
    have hpos := List.length_pos_iff.mpr hne
    have hlong : 100 - findings.length < (sec.secrets.map Secret.finding).length := by
      rw [List.length_map]
      omega
    obtain ⟨b, hb⟩ := exists_mem_drop hlong
    have hab := h.severe a (hkept a ha) b (mem_dropped_iff.mpr (Or.inr (Or.inl hb)))
    exact (ParsedFinding.atLeast_high_iff (severity_of_secret (List.mem_of_mem_drop hb))).mp hab
  · intro hne hover a ha
    have hpos := List.length_pos_iff.mpr hne
    have hlong : 100 - findings.length - sec.secrets.length < report.missing.length := by
      rw [report.length_missing]
      omega
    obtain ⟨b, hb⟩ := exists_mem_drop hlong
    have hab := h.severe a (hkept a ha) b (mem_dropped_iff.mpr (Or.inr (Or.inr (Or.inl hb))))
    exact (ParsedFinding.atLeast_medium_iff
      (ComplianceReport.severity_of_missing (List.mem_of_mem_drop hb))).mp hab

/-- What stays is at least as severe as what is dropped, by the source of the latter. -/
theorem FitsCap.atLeast (h : FitsCap findings sec report) (ha : a ∈ capFindings findings sec report)
    (hb : b ∈ (allFindings findings sec report).drop 100) : a.AtLeast b := by
  rw [mem_capFindings_iff] at ha
  rcases mem_dropped_iff.mp hb with hb | hb | hb | hb
  · -- a finding of the agent is dropped, so nothing but its findings stays
    have hlong := lt_length_of_mem_drop hb
    rcases ha with ha | ha | ha | ha
    · exact h.own a ha b hb
    all_goals
      have hroom := pos_of_mem_take ha
      omega
  · have hlong := lt_length_of_mem_drop hb
    rw [List.length_map] at hlong
    have hne : sec.secrets ≠ [] := List.length_pos_iff.mp (by omega)
    apply ParsedFinding.atLeast_of_high
    rcases ha with ha | ha | ha | ha
    · exact h.secrets hne (by omega) a ha
    · exact severity_of_secret (List.mem_of_mem_take ha)
    all_goals
      have hroom := pos_of_mem_take ha
      omega
  · have hlong := lt_length_of_mem_drop hb
    rw [report.length_missing] at hlong
    have hne : report.missingCoverage ≠ [] := List.length_pos_iff.mp (by omega)
    apply (ParsedFinding.atLeast_medium_iff
      (ComplianceReport.severity_of_missing (List.mem_of_mem_drop hb))).mpr
    rcases ha with ha | ha | ha | ha
    · exact h.missing hne (by omega) a ha
    · simp [severity_of_secret (List.mem_of_mem_take ha)]
    · simp [ComplianceReport.severity_of_missing (List.mem_of_mem_take ha)]
    · have hroom := pos_of_mem_take ha
      omega
  · exact ParsedFinding.atLeast_of_low
      (ComplianceReport.severity_of_violated (List.mem_of_mem_drop hb))

end Severe

/-- **The cap keeps the most severe findings** exactly if the agent's first hundred leave nothing
more severe behind. -/
theorem cap_keeps_severe_iff (findings : List ParsedFinding) (sec : SecReport)
    (report : ComplianceReport) :
    KeepsSevere findings sec report ↔ FitsCap findings sec report := by
  constructor
  · exact KeepsSevere.fitsCap
  · intro h
    have hlength := capFindings_length_le findings sec report
    exact ⟨hlength, fun f hf => mem_of_mem_capFindings hf, fun a ha b hb => h.atLeast ha hb⟩

/-- A remark of the agent on a style of naming. -/
def remark : ParsedFinding where
  path := "src/app.py"
  line := .scalar .null
  severity := .low
  title := "Naming"
  detail := ""
  type := "review"

/-- A key in the checkout. -/
def leakedKey : Secret where
  path := "src/secrets.py"
  line := .scalar (.int 1)
  detail := "AWS key"

/-- After a hundred remarks the secret is dropped, and the remarks stay. -/
theorem secret_dropped :
    ¬ KeepsSevere (List.replicate 100 remark) { secrets := [leakedKey] } {} ∧
      (allFindings (List.replicate 100 remark) { secrets := [leakedKey] } {}).drop 100 =
        [leakedKey.finding] ∧
      remark ∈ capFindings (List.replicate 100 remark) { secrets := [leakedKey] } {} := by
  have hdrop : (allFindings (List.replicate 100 remark) { secrets := [leakedKey] } {}).drop 100 =
      [leakedKey.finding] := by
    rw [allFindings, List.append_assoc, List.drop_append_of_le_length (by simp)]
    rfl
  have hstays : remark ∈ capFindings (List.replicate 100 remark) { secrets := [leakedKey] } {} :=
    mem_capFindings_iff.mpr (Or.inl (by simp))
  refine ⟨?_, hdrop, hstays⟩
  intro h
  have hab := h.severe remark hstays leakedKey.finding (by rw [hdrop]; exact List.mem_singleton_self _)
  have hhigh : remark.severity = .high := (ParsedFinding.atLeast_high_iff rfl).mp hab
  cases hhigh

end PrReviewer.Model
