import PrReviewer.Analysis.TextSearch
import PrReviewer.Model.RunLog

/-!
# Secrets in the run log

`_redact` looks at the keys and the string values of the fields themselves, and the line is made
of the keys and scalars at every depth. What the line shows of the fields is what one of these
shows, so the exact condition under which no secret is shown is about them one by one.
-/

set_option autoImplicit false

namespace PrReviewer.Model

open PrReviewer.Library

/-! ## What a line shows -/

section Line

variable {pat : List Char}

/-- A masked field exposes nothing. -/
theorem not_exposes_masked (hpat : pat ≠ []) (rules : DumpRules) :
    ¬ Exposes pat (Redacted.masked.write rules) :=
  not_exposes_quoted hpat _

/-- An entry exposes what its key or its value exposes. -/
theorem exposes_writeEntry (hpat : pat ≠ []) (key value : Marked) :
    Exposes pat (writeEntry key value) ↔ Exposes pat key ∨ Exposes pat value :=
  exposes_append_plain_append hpat (List.cons_ne_nil _ _) key value

/-- The values of a list of fields stand under distinct keys. -/
theorem find?_eq_of_mem {redacted : List (String × Redacted)}
    (hnodup : (redacted.map Prod.fst).Nodup) {f : String × Redacted} (hf : f ∈ redacted) :
    (redacted.find? fun g => g.1 = f.1) = some f := by
  induction redacted with
  | nil => exact absurd hf List.not_mem_nil
  | cons g redacted ih =>
    rw [List.map_cons, List.nodup_cons] at hnodup
    rcases List.mem_cons.mp hf with rfl | hf
    · exact List.find?_cons_of_pos (by simp)
    · have hne : ¬ g.1 = f.1 := fun heq => hnodup.1 (heq ▸ List.mem_map_of_mem hf)
      rw [List.find?_cons_of_neg (by simpa using hne)]
      exact ih hnodup.2 hf

/-- An entry of the header shows what the field of its name shows. -/
theorem exposes_headerEntry (hpat : pat ≠ []) (rules : DumpRules)
    {redacted : List (String × Redacted)} (hnodup : (redacted.map Prod.fst).Nodup)
    {e : String × Marked} (hvalue : ¬ Exposes pat e.2) :
    Exposes pat (headerEntry rules redacted e) ↔
      ∃ f ∈ redacted, f.1 = e.1 ∧ Exposes pat (f.2.write rules) := by
  rw [headerEntry, exposes_writeEntry hpat, or_iff_right (not_exposes_quoted hpat _)]
  constructor
  · intro h
    cases hfind : redacted.find? fun f => f.1 = e.1 with
    | none =>
      rw [hfind] at h
      exact absurd h hvalue
    | some f =>
      rw [hfind] at h
      have hkey : f.1 = e.1 := by simpa using List.find?_some hfind
      exact ⟨f, List.mem_of_find?_eq_some hfind, hkey, h⟩
  · rintro ⟨f, hf, hkey, h⟩
    rw [← hkey, find?_eq_of_mem hnodup hf]
    exact h

/-- A field exposes what its name or what is written of it exposes. -/
theorem exposes_fieldEntry (hpat : pat ≠ []) (rules : DumpRules) (f : String × Redacted) :
    Exposes pat (fieldEntry rules f) ↔
      pat <:+: escape f.1.toList ∨ Exposes pat (f.2.write rules) := by
  rw [fieldEntry, exposes_writeEntry hpat, exposes_quoted hpat]

namespace RunLogger

variable (logger : RunLogger)

/-- Redacting leaves the names of the fields. -/
theorem map_fst_redact (u : Unicode) (fields : List (String × Value)) :
    (logger.redact u fields).map Prod.fst = fields.map Prod.fst := by
  rw [redact, List.map_map]
  rfl

/-- A redacted field is a field, masked or kept. -/
theorem exists_mem_redact {p : String × Redacted → Prop} {u : Unicode}
    {fields : List (String × Value)} : (∃ g ∈ logger.redact u fields, p g) ↔
      ∃ f ∈ fields, p (f.1, if logger.masks u f.1 f.2 then .masked else .kept f.2) := by
  constructor
  · rintro ⟨g, hg, hp⟩
    obtain ⟨f, hf, rfl⟩ := List.mem_map.mp hg
    exact ⟨f, hf, hp⟩
  · rintro ⟨f, hf, hp⟩
    exact ⟨_, List.mem_map_of_mem hf, hp⟩

/-- A field shows the pattern in its value, where it is not masked. -/
def ValueShows (env : LogEnv) (pat : List Char) (f : String × Value) : Prop :=
  logger.masks env.unicode f.1 f.2 = false ∧ ∃ leaf ∈ f.2.leaves env.json, pat <:+: leaf

/-- What is written of a field exposes a secret exactly when its value shows it. -/
theorem exposes_redacted (hpat : pat ≠ []) (env : LogEnv) (f : String × Value) :
    Exposes pat (Redacted.write env.json
        (if logger.masks env.unicode f.1 f.2 then .masked else .kept f.2)) ↔
      logger.ValueShows env pat f := by
  unfold ValueShows
  cases hmask : logger.masks env.unicode f.1 f.2 with
  | true =>
    refine iff_of_false (not_exposes_masked hpat env.json) ?_
    rintro ⟨h, -⟩
    cases h
  | false =>
    rw [if_neg Bool.false_ne_true, eq_self_iff_true, true_and]
    exact f.2.exposes_write hpat env.json

/-- The header exposes nothing. -/
theorem not_exposes_header (hpat : pat ≠ []) (env : LogEnv) (call : LogCall) :
    ∀ e ∈ header env call, ¬ Exposes pat e.2 := by
  simp only [header, List.forall_mem_cons, List.not_mem_nil, false_implies, implies_true, and_true]
  refine ⟨not_exposes_plain hpat _, ?_, not_exposes_quoted hpat _, not_exposes_quoted hpat _⟩
  cases call.runId with
  | none => exact not_exposes_plain hpat _
  | some id => exact not_exposes_quoted hpat _

/-- What the header shows is what the fields of its names show. -/
theorem exposes_headerEntries (hpat : pat ≠ []) (env : LogEnv) (call : LogCall) :
    (∃ t ∈ (header env call).map
        (headerEntry env.json (logger.redact env.unicode call.fields.entries)), Exposes pat t) ↔
      ∃ f ∈ call.fields.entries, f.1 ∈ headerKeys ∧ logger.ValueShows env pat f := by
  have hnodup : ((logger.redact env.unicode call.fields.entries).map Prod.fst).Nodup := by
    rw [map_fst_redact]
    exact call.fields.nodup
  constructor
  · rintro ⟨t, ht, hshows⟩
    obtain ⟨e, he, rfl⟩ := List.mem_map.mp ht
    rw [exposes_headerEntry hpat env.json hnodup (not_exposes_header hpat env call e he),
      exists_mem_redact] at hshows
    obtain ⟨f, hf, hkey, hshows⟩ := hshows
    have hheader : e.1 ∈ headerKeys := List.mem_map_of_mem he
    exact ⟨f, hf, hkey ▸ hheader, (logger.exposes_redacted hpat env f).mp hshows⟩
  · rintro ⟨f, hf, hkey, hshows⟩
    obtain ⟨e, he, hekey⟩ : ∃ e ∈ header env call, e.1 = f.1 := List.mem_map.mp hkey
    refine ⟨_, List.mem_map_of_mem he, ?_⟩
    rw [exposes_headerEntry hpat env.json hnodup (not_exposes_header hpat env call e he),
      exists_mem_redact]
    exact ⟨f, hf, hekey.symm, (logger.exposes_redacted hpat env f).mpr hshows⟩

/-- What the entries of the other fields show. -/
theorem exposes_fieldEntries (hpat : pat ≠ []) (env : LogEnv) (fields : List (String × Value)) :
    (∃ t ∈ ((logger.redact env.unicode fields).filter fun g => g.1 ∉ headerKeys).map
        (fieldEntry env.json), Exposes pat t) ↔
      ∃ f ∈ fields, f.1 ∉ headerKeys ∧
        (pat <:+: escape f.1.toList ∨ logger.ValueShows env pat f) := by
  constructor
  · rintro ⟨t, ht, hshows⟩
    obtain ⟨g, hg, rfl⟩ := List.mem_map.mp ht
    obtain ⟨hmem, hkey⟩ := List.mem_filter.mp hg
    obtain ⟨f, hf, rfl⟩ := List.mem_map.mp hmem
    rw [exposes_fieldEntry hpat] at hshows
    exact ⟨f, hf, of_decide_eq_true hkey, hshows.imp_right (logger.exposes_redacted hpat env f).mp⟩
  · rintro ⟨f, hf, hkey, h⟩
    refine ⟨_, List.mem_map_of_mem (List.mem_filter.mpr
      ⟨List.mem_map_of_mem hf, decide_eq_true hkey⟩), ?_⟩
    rw [exposes_fieldEntry hpat]
    exact h.imp_right (logger.exposes_redacted hpat env f).mpr

/-- **What a line shows** of its fields is a key that has a place of its own, or a key or scalar
of a value that is not masked. -/
theorem exposes_line (hpat : pat ≠ []) (env : LogEnv) (call : LogCall) :
    Exposes pat (logger.line env call) ↔ ∃ f ∈ call.fields.entries,
      (f.1 ∉ headerKeys ∧ pat <:+: escape f.1.toList) ∨ logger.ValueShows env pat f := by
  rw [line, exposes_plain_append hpat, exposes_append_plain hpat,
    exposes_joined hpat (List.cons_ne_nil _ _), Value.exists_mem_append,
    exposes_headerEntries _ hpat,
    exposes_fieldEntries _ hpat]
  constructor
  · rintro (⟨f, hf, -, hvalue⟩ | ⟨f, hf, hkey, hshows | hvalue⟩)
    · exact ⟨f, hf, Or.inr hvalue⟩
    · exact ⟨f, hf, Or.inl ⟨hkey, hshows⟩⟩
    · exact ⟨f, hf, Or.inr hvalue⟩
  · rintro ⟨f, hf, ⟨hkey, hshows⟩ | hvalue⟩
    · exact Or.inr ⟨f, hf, hkey, Or.inl hshows⟩
    · by_cases hkey : f.1 ∈ headerKeys
      · exact Or.inl ⟨f, hf, hkey, hvalue⟩
      · exact Or.inr ⟨f, hf, hkey, Or.inr hvalue⟩

/-! ## What a call writes -/

/-- The line of a call with fields that can be serialised is written: to the stream, or to
`run.jsonl` after a log record. -/
def writes (env : LogEnv) (call : LogCall) : Bool :=
  env.stream || (env.logs call.level && (truthy call.runId && env.appends))

/-- Redacted fields are serialisable if the fields are. -/
theorem serialisable_redact {u : Unicode} {fields : List (String × Value)}
    (h : ∀ f ∈ fields, f.2.serialisable = true) :
    ((logger.redact u fields).all fun f => f.2.serialisable) = true := by
  rw [List.all_eq_true]
  intro g hg
  obtain ⟨f, hf, rfl⟩ := List.mem_map.mp hg
  show Redacted.serialisable (if logger.masks u f.1 f.2 then .masked else .kept f.2) = true
  split
  · rfl
  · exact h f hf

/-- A call writes its line and nothing else. -/
theorem log_writes {env : LogEnv} {call : LogCall}
    (hser : ∀ f ∈ call.fields.entries, f.2.serialisable = true) (text : Marked) :
    (logger.log env call).printed = some text ∨ (logger.log env call).appended = some text ↔
      writes env call = true ∧ text = logger.line env call := by
  unfold log writes
  rw [if_pos (logger.serialisable_redact hser)]
  cases env.stream with
  | true =>
    cases truthy call.runId && env.appends <;> simp [eq_comm]
  | false =>
    cases env.logs call.level with
    | true => cases truthy call.runId && env.appends <;> simp [eq_comm]
    | false => simp

/-- The text contains the secret, raw or escaped, among what comes from the fields. -/
def Leaks (secret : String) (text : Marked) : Prop :=
  Exposes secret.toList text ∨ Exposes (escape secret.toList) text

/-- No secret reaches what a call writes. -/
def Unleaked (o : LogOutcome) : Prop :=
  ∀ text, o.printed = some text ∨ o.appended = some text →
    ∀ secret ∈ logger.secrets, ¬ Leaks secret text

/-- No key of the fields, but those the header has already, and no key or scalar of a value that
is not masked, contains a secret as it is written. -/
def Clean (env : LogEnv) (fields : List (String × Value)) : Prop :=
  ∀ secret ∈ logger.secrets, ∀ pat ∈ [secret.toList, escape secret.toList], ∀ f ∈ fields,
    (f.1 ∉ headerKeys → ¬ pat <:+: escape f.1.toList) ∧
      (logger.masks env.unicode f.1 f.2 = false → ∀ leaf ∈ f.2.leaves env.json, ¬ pat <:+: leaf)

/-- A line leaks no secret exactly if its fields are clean. -/
theorem not_leaks_line_iff (env : LogEnv) (call : LogCall) :
    (∀ secret ∈ logger.secrets, ¬ Leaks secret (logger.line env call)) ↔
      logger.Clean env call.fields.entries := by
  refine forall_congr' fun secret => forall_congr' fun hsecret => ?_
  have hraw : secret.toList ≠ [] := by
    intro h
    exact logger.nonempty secret hsecret (String.toList_eq_nil_iff.mp h)
  have hpat : ∀ pat ∈ [secret.toList, escape secret.toList], pat ≠ [] := by
    intro pat hmem
    rcases List.mem_pair.mp hmem with rfl | rfl
    · exact hraw
    · exact escape_ne_nil hraw
  have hleaks : (¬ Leaks secret (logger.line env call)) ↔
      ∀ pat ∈ [secret.toList, escape secret.toList], ¬ Exposes pat (logger.line env call) := by
    simp [Leaks]
  rw [hleaks]
  refine forall_congr' fun pat => forall_congr' fun hmem => ?_
  rw [logger.exposes_line (hpat pat hmem)]
  constructor
  · intro h f hf
    refine ⟨fun hkey hshows => h ⟨f, hf, Or.inl ⟨hkey, hshows⟩⟩, fun hmask leaf hleaf hshows => ?_⟩
    exact h ⟨f, hf, Or.inr ⟨hmask, leaf, hleaf, hshows⟩⟩
  · rintro h ⟨f, hf, ⟨hkey, hshows⟩ | ⟨hmask, leaf, hleaf, hshows⟩⟩
    · exact (h f hf).1 hkey hshows
    · exact (h f hf).2 hmask leaf hleaf hshows

/-- **When no secret reaches the run log.** For every list of secrets, every call with fields
that can be serialised and wherever it writes: what is printed and what is appended contain no
secret, raw or escaped, that comes from a key or value of a field at any depth, if and only if
nothing is written or the fields are clean. -/
theorem log_unleaked_iff (secrets : Option (List String)) (env : LogEnv) (call : LogCall)
    (hser : ∀ f ∈ call.fields.entries, f.2.serialisable = true) :
    (new secrets).Unleaked ((new secrets).log env call) ↔
      writes env call = false ∨ (new secrets).Clean env call.fields.entries := by
  generalize new secrets = logger
  rw [← logger.not_leaks_line_iff]
  constructor
  · intro h
    cases hwrites : writes env call with
    | false => exact Or.inl rfl
    | true => exact Or.inr (h _ ((logger.log_writes hser _).mpr ⟨hwrites, rfl⟩))
  · intro h text htext
    obtain ⟨hwrites, rfl⟩ := (logger.log_writes hser text).mp htext
    rw [hwrites] at h
    exact h.resolve_left fun heq => by cases heq

/-- A logger with a stream and a directory to write to. -/
def bothSinks : LogEnv where
  unicode := .ascii
  json := { floatText := fun _ => "0.5" }
  nowMs := 0
  stream := true
  logs := fun _ => true
  appends := true

/-- A call with one field. -/
def oneField (key : String) (v : Value) (h : key ∉ ["self", "run_id", "phase", "level"]) :
    LogCall where
  runId := some "run1"
  phase := "publish"
  level := "info"
  fields :=
    { entries := [(key, v)]
      nodup := by simp
      fresh := fun f hf => by
        rw [List.mem_singleton.mp hf]
        exact h }

/-- A secret in a nested value. -/
def nestedSecret : LogCall :=
  oneField "extra" (.map [(.str "t", .ofText "supersecret")]) (by decide)

/-- The two sides for a secret that is nested in a field. -/
theorem log_unleaked_iff_nested :
    (new (some ["supersecret"])).Unleaked
        ((new (some ["supersecret"])).log bothSinks nestedSecret) ↔
      writes bothSinks nestedSecret = false ∨
        (new (some ["supersecret"])).Clean bothSinks nestedSecret.fields.entries :=
  log_unleaked_iff (some ["supersecret"]) bothSinks nestedSecret (by decide +kernel)

/-- It is printed and appended as it is. -/
theorem nested_secret_logged :
    (∀ f ∈ nestedSecret.fields.entries, f.2.serialisable = true) ∧
      ¬ (new (some ["supersecret"])).Unleaked
        ((new (some ["supersecret"])).log bothSinks nestedSecret) := by
  refine ⟨by decide +kernel, fun h => ?_⟩
  have hshows : Exposes "supersecret".toList
      ((new (some ["supersecret"])).line bothSinks nestedSecret) := by
    unfold Exposes
    decide +kernel
  exact h _ (Or.inl rfl) "supersecret" (by decide +kernel) (Or.inl hshows)

end RunLogger

end Line

end PrReviewer.Model
