import PrReviewer.Analysis.TextSearch
import PrReviewer.Model.Compliance

/-!
# Where compliance findings point

A violation reaches `to_findings` as a sentence about its file, and the sentence becomes the path
of the finding. The sentence is never the path of a file that breaks the convention, since it
says "test" itself; so the findings are right exactly where there is no violation.
-/

set_option autoImplicit false

namespace PrReviewer.Model

open PrReviewer.Library

/-! ## The two kinds of file -/

/-- A changed module without a test among the added ones. -/
def lacksTest (diffFiles : List String) (f : String) : Bool :=
  !(isTestFile f || !isModuleFile f) &&
    !((diffFiles.filter isTestFile).any fun t => hasText (moduleName f) t.toList)

/-- A test file whose name does not match the conventions. -/
def breaksConventions (conventions : List String) (f : String) : Bool :=
  (isTestFile f && !conventions.isEmpty) && !namedAsTest f

/-- The findings of `validate`. -/
def complianceFindings (checkout : CheckoutFiles) (diffFiles : List String) :
    List ParsedFinding :=
  (validate checkout ⟨diffFiles⟩).toFindings

/-- The missing coverage lists the files of the diff that lack a test, in order. -/
theorem missingCoverage_eq (checkout : CheckoutFiles) (diffFiles : List String) :
    (validate checkout ⟨diffFiles⟩).missingCoverage = diffFiles.filter (lacksTest diffFiles) :=
  rfl

/-- The violations list the files of the diff that break a convention, in order. -/
theorem violations_eq (checkout : CheckoutFiles) (diffFiles : List String) :
    (validate checkout ⟨diffFiles⟩).violations =
      (diffFiles.filter (breaksConventions (inferConventions checkout))).map violationText :=
  rfl

/-- The paths of the findings: the modules, and the sentences about the test files. -/
theorem map_path_complianceFindings (checkout : CheckoutFiles) (diffFiles : List String) :
    (complianceFindings checkout diffFiles).map ParsedFinding.path =
      diffFiles.filter (lacksTest diffFiles) ++
        (diffFiles.filter (breaksConventions (inferConventions checkout))).map violationText := by
  rw [complianceFindings, ComplianceReport.toFindings, List.map_append, List.map_map, List.map_map,
    missingCoverage_eq, violations_eq]
  have hid : ∀ (mk : String → ParsedFinding), (∀ p, (mk p).path = p) → ∀ l : List String,
      l.map (ParsedFinding.path ∘ mk) = l := by
    intro mk hmk l
    exact (List.map_congr_left fun p _ => hmk p).trans (List.map_id l)
  rw [hid _ fun _ => rfl, hid _ fun _ => rfl]

/-- `validate_compliance` finds the same files, by the same test. -/
theorem validateCompliance_paths (checkout : CheckoutFiles) (diffFiles : List String) :
    (validateCompliance (validate checkout ⟨diffFiles⟩).addedTestFiles
        (validate checkout ⟨diffFiles⟩).conventions).map ParsedFinding.path =
      diffFiles.filter (breaksConventions (inferConventions checkout)) := by
  rw [validateCompliance, List.map_map]
  show ((diffFiles.filter isTestFile).filter _).map _ = _
  have hid : ∀ l : List String, l.map (ParsedFinding.path ∘ fun f =>
      { path := f, line := .scalar .null, severity := .low,
        title := "Test file name violates repo conventions", detail := "",
        type := "compliance" }) = l :=
    fun l => (List.map_congr_left fun _ _ => rfl).trans (List.map_id l)
  rw [hid, List.filter_filter]
  refine List.filter_congr fun f _ => ?_
  show ((!(inferConventions checkout).isEmpty && !namedAsTest f) && isTestFile f) =
    ((isTestFile f && !(inferConventions checkout).isEmpty) && !namedAsTest f)
  rw [Bool.and_comm, ← Bool.and_assoc]

/-! ## The name of a sentence -/

/-- The last part of a path, where the filter of `Path` keeps it. -/
theorem getLastD_filter {α : Type} {p : α → Bool} {l : List α} {d : α} (hne : l ≠ [])
    (h : p (l.getLastD d) = true) : (l.filter p).getLastD d = l.getLastD d := by
  obtain ⟨init, x, rfl⟩ := (List.eq_nil_or_concat l).resolve_left hne
  rw [List.concat_eq_append] at h ⊢
  have hlast : (init ++ [x]).getLastD d = x := by simp
  rw [hlast] at h ⊢
  rw [List.filter_append, List.filter_cons_of_pos h, List.filter_nil]
  simp

/-- The sentence ends with the word itself. -/
theorem namedAsTest_violationText (f : String) : namedAsTest (violationText f) = true := by
  obtain ⟨rest, hrest⟩ : ∃ rest, " test file name does not match inferred conventions".toList =
      rest := ⟨_, rfl⟩
  have hsep : (['/'] : List Char) ≠ [] := List.cons_ne_nil _ _
  have hcolon : ':' ∉ (['/'] : List Char) := by decide
  have habsent : ¬ (['/'] : List Char) <:+: rest := by
    intro h
    have hmem : '/' ∈ rest := h.subset (List.mem_singleton_self _)
    rw [← hrest] at hmem
    revert hmem
    decide
  have hlist : (violationText f).toList = f.toList ++ ':' :: rest := by
    rw [violationText, String.toList_append, ← hrest]
    rfl
  have hne : pieces ['/'] (violationText f).toList ≠ [] := pieces_ne_nil hsep _
  have hlast : (pieces ['/'] (violationText f).toList).getLastD [] =
      lastPiece ['/'] (f.toList ++ [':']) ++ rest := by
    rw [hlist]
    exact lastPiece_append_cons hsep hcolon habsent
  have hlong : 2 ≤ (lastPiece ['/'] (f.toList ++ [':']) ++ rest).length := by
    have hlen : 2 ≤ rest.length := by
      rw [← hrest]
      decide
    rw [List.length_append]
    omega
  have hkept : ((pieces ['/'] (violationText f).toList).getLastD [] ≠ [] &&
      (pieces ['/'] (violationText f).toList).getLastD [] ≠ ['.']) = true := by
    rw [hlast, Bool.and_eq_true, decide_eq_true_iff, decide_eq_true_iff]
    constructor
    · intro h
      rw [h] at hlong
      exact absurd hlong (by decide)
    · intro h
      rw [h] at hlong
      exact absurd hlong (by decide)
  have hname : pathName (violationText f) = lastPiece ['/'] (f.toList ++ [':']) ++ rest := by
    rw [pathName, getLastD_filter hne hkept, hlast]
  have htest : "test".toList <:+: pathName (violationText f) := by
    have hword : "test".toList <:+: rest := by
      rw [← hrest]
      exact ⟨[' '], " file name does not match inferred conventions".toList, by decide⟩
    rw [hname]
    exact hword.trans (List.suffix_append _ _).isInfix
  rw [namedAsTest, List.any_eq_true]
  exact ⟨"test", by simp, hasText_iff.mpr htest⟩

/-! ## Where the findings point -/

/-- Every finding points at a file of the diff, every changed module without a test and every
test file that breaks the conventions has one finding for each occurrence, and the violations are
about the files `validate_compliance` reports. -/
structure PointsAtDiff (checkout : CheckoutFiles) (diffFiles : List String) : Prop where
  inDiff : ∀ f ∈ complianceFindings checkout diffFiles, f.path ∈ diffFiles
  once : ∀ p, ((complianceFindings checkout diffFiles).map ParsedFinding.path).count p =
    (diffFiles.filter fun f =>
      lacksTest diffFiles f || breaksConventions (inferConventions checkout) f).count p
  agrees : (validate checkout ⟨diffFiles⟩).violations =
    ((validateCompliance (validate checkout ⟨diffFiles⟩).addedTestFiles
      (validate checkout ⟨diffFiles⟩).conventions).map ParsedFinding.path).map violationText

/-- **When compliance findings point at changed files.** For every checkout and every list of
diff files: every finding of the report has the path of a diff file, every changed module without
a test and every non-compliant test file has exactly one per occurrence, and the non-compliant
files are those of `validate_compliance`, if and only if no convention is inferred or every test
file of the diff has "test", "spec" or "Test" in its name. -/
theorem compliance_points_at_diff_iff (checkout : CheckoutFiles) (diffFiles : List String) :
    PointsAtDiff checkout diffFiles ↔
      inferConventions checkout = [] ∨
        ∀ f ∈ diffFiles, isTestFile f = true → namedAsTest f = true := by
  have hnone : (∀ f ∈ diffFiles, breaksConventions (inferConventions checkout) f = false) ↔
      inferConventions checkout = [] ∨
        ∀ f ∈ diffFiles, isTestFile f = true → namedAsTest f = true := by
    cases hconv : inferConventions checkout with
    | nil => simp [breaksConventions]
    | cons c cs => simp [breaksConventions]
  rw [← hnone]
  constructor
  · intro h f hf
    by_contra hbreaks
    rw [Bool.not_eq_false] at hbreaks
    -- the file has an occurrence, and no finding has its path
    have hoccurs : 0 < (diffFiles.filter fun f => lacksTest diffFiles f ||
        breaksConventions (inferConventions checkout) f).count f := by
      rw [List.count_pos_iff, List.mem_filter, hbreaks, Bool.or_true]
      exact ⟨hf, rfl⟩
    rw [← h.once f, List.count_pos_iff, map_path_complianceFindings] at hoccurs
    simp only [breaksConventions, Bool.and_eq_true, Bool.not_eq_true'] at hbreaks
    rcases List.mem_append.mp hoccurs with hmem | hmem
    · have hlacks := (List.mem_filter.mp hmem).2
      simp [lacksTest, hbreaks.1.1] at hlacks
    · obtain ⟨g, -, heq⟩ := List.mem_map.mp hmem
      have hnamed := namedAsTest_violationText g
      rw [heq, hbreaks.2] at hnamed
      cases hnamed
  · intro hall
    have hempty : diffFiles.filter (breaksConventions (inferConventions checkout)) = [] := by
      rw [List.filter_eq_nil_iff]
      intro f hf
      rw [hall f hf]
      exact Bool.false_ne_true
    have hpaths : (complianceFindings checkout diffFiles).map ParsedFinding.path =
        diffFiles.filter (lacksTest diffFiles) := by
      rw [map_path_complianceFindings, hempty, List.map_nil, List.append_nil]
    refine ⟨fun f hf => ?_, fun p => ?_, ?_⟩
    · have hmem : f.path ∈ (complianceFindings checkout diffFiles).map ParsedFinding.path :=
        List.mem_map_of_mem hf
      rw [hpaths] at hmem
      exact (List.mem_filter.mp hmem).1
    · rw [hpaths]
      congr 1
      refine List.filter_congr fun f hf => ?_
      rw [hall f hf, Bool.or_false]
    · rw [validateCompliance_paths, violations_eq]

/-- The finding about a test helper points at a sentence. -/
theorem test_helper_misplaced :
    ((complianceFindings (fun name => if name = "AGENTS.md" then .text "Run pytest." else .absent)
        ["tests/helpers.py"]).map ParsedFinding.path =
      ["tests/helpers.py: test file name does not match inferred conventions"]) ∧
      ¬ PointsAtDiff (fun name => if name = "AGENTS.md" then .text "Run pytest." else .absent)
        ["tests/helpers.py"] := by
  have hpaths : (complianceFindings
      (fun name => if name = "AGENTS.md" then .text "Run pytest." else .absent)
        ["tests/helpers.py"]).map ParsedFinding.path =
      ["tests/helpers.py: test file name does not match inferred conventions"] := by
    decide +kernel
  refine ⟨hpaths, fun h => ?_⟩
  have hpath : "tests/helpers.py: test file name does not match inferred conventions" ∈
      (complianceFindings
        (fun name => if name = "AGENTS.md" then .text "Run pytest." else .absent)
          ["tests/helpers.py"]).map ParsedFinding.path := by
    rw [hpaths]
    exact List.mem_singleton_self _
  obtain ⟨f, hf, heq⟩ := List.mem_map.mp hpath
  have hin := h.inDiff f hf
  rw [heq] at hin
  revert hin
  decide

end PrReviewer.Model
