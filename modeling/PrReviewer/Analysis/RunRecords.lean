import PrReviewer.Analysis.SecretRedaction

/-!
# The records of a run

The lines `log` appends to `run.jsonl`, call after call, and what a reader of the file gets back:
one dictionary a call, in the order of the calls, with the fields as they were redacted.
-/

set_option autoImplicit false

namespace PrReviewer.Model

open PrReviewer.Library

/-! ## The dictionary of a line -/

section Overlay

/-- Entries as a dictionary has them. -/
def asEntries (dict : List (String × Value)) : List (Scalar × Value) :=
  dict.map fun e => (.str e.1, e.2)

/-- A key that is there keeps its place. -/
theorem assign_asEntries_of_mem {dict : List (String × Value)} {key : String} {v : Value}
    (hdict : (dict.map Prod.fst).Nodup) (h : key ∈ dict.map Prod.fst) :
    assign (asEntries dict) (.str key) v =
      asEntries (dict.map fun e => (e.1, if e.1 = key then v else e.2)) := by
  induction dict with
  | nil => cases h
  | cons e dict ih =>
    rw [List.map_cons, List.nodup_cons] at hdict
    rw [asEntries, List.map_cons, assign]
    by_cases hkey : e.1 = key
    · have hrest : ∀ e' ∈ dict, e'.1 ≠ key := by
        rintro e' he' rfl
        exact hdict.1 (hkey ▸ List.mem_map_of_mem he')
      have hsame : (dict.map fun e' => (e'.1, if e'.1 = key then v else e'.2)) = dict := by
        refine (List.map_congr_left fun e' he' => ?_).trans (List.map_id dict)
        rw [if_neg (hrest e' he')]
        rfl
      rw [if_pos (by rw [hkey]), List.map_cons, hsame, if_pos hkey, hkey]
      rfl
    · have hmem : key ∈ dict.map Prod.fst :=
        (List.mem_cons.mp h).resolve_left fun heq => hkey heq.symm
      rw [if_neg (by simpa using hkey), List.map_cons, if_neg hkey]
      exact congrArg _ (ih hdict.2 hmem)

/-- Assigning a new key adds it at the end. -/
theorem assign_asEntries_of_notMem {dict : List (String × Value)} {key : String} {v : Value}
    (h : key ∉ dict.map Prod.fst) :
    assign (asEntries dict) (.str key) v = asEntries (dict ++ [(key, v)]) := by
  have hmem : Scalar.str key ∉ (asEntries dict).map Prod.fst := by
    simpa [asEntries] using h
  rw [assign_of_notMem hmem]
  simp [asEntries]

/-- The value under a key of the header: that of the field of its name, if there is one. -/
def overlaid (redacted : List (String × Redacted)) (e : String × Value) : Value :=
  match redacted.find? fun f => f.1 = e.1 with
  | some f => f.2.value
  | none => e.2

/-- The fields are laid over an entry one after the other. -/
theorem overlaid_cons (f : String × Redacted) (redacted : List (String × Redacted))
    (e : String × Value) :
    overlaid (f :: redacted) e = if f.1 = e.1 then f.2.value else overlaid redacted e := by
  unfold overlaid
  rw [List.find?_cons]
  by_cases h : f.1 = e.1 <;> simp [h]

/-- An entry that no field names stays. -/
theorem overlaid_of_notMem {redacted : List (String × Redacted)} {e : String × Value}
    (h : e.1 ∉ redacted.map Prod.fst) : overlaid redacted e = e.2 := by
  have hfind : redacted.find? (fun f => f.1 = e.1) = none := by
    rw [List.find?_eq_none]
    intro f hf hkey
    exact h (of_decide_eq_true hkey ▸ List.mem_map_of_mem hf)
  rw [overlaid, hfind]

/-- Fields laid over a dictionary: those of its keys are in the places of these, the others after
it. -/
def overlay (dict : List (String × Value)) (redacted : List (String × Redacted)) :
    List (String × Value) :=
  (dict.map fun e => (e.1, overlaid redacted e)) ++
    (redacted.filter fun f => f.1 ∉ dict.map Prod.fst).map fun f => (f.1, f.2.value)

/-- **One entry after the other** lays the fields over the dictionary. -/
theorem foldl_assign_asEntries {redacted : List (String × Redacted)}
    (hnodup : (redacted.map Prod.fst).Nodup) {dict : List (String × Value)}
    (hdict : (dict.map Prod.fst).Nodup) :
    redacted.foldl (fun entries f => assign entries (.str f.1) f.2.value) (asEntries dict) =
      asEntries (overlay dict redacted) := by
  unfold overlay
  induction redacted generalizing dict with
  | nil => simp [overlaid]
  | cons f redacted ih =>
    rw [List.map_cons, List.nodup_cons] at hnodup
    rw [List.foldl_cons]
    by_cases hmem : f.1 ∈ dict.map Prod.fst
    · have hkeys : ((dict.map fun e => (e.1, if e.1 = f.1 then f.2.value else e.2)).map
          Prod.fst) = dict.map Prod.fst := by
        rw [List.map_map]
        rfl
      have hplace : ∀ e : String × Value,
          overlaid redacted (e.1, if e.1 = f.1 then f.2.value else e.2) =
            overlaid (f :: redacted) e := by
        intro e
        rw [overlaid_cons]
        by_cases heq : e.1 = f.1
        · rw [if_pos heq, if_pos heq.symm]
          exact overlaid_of_notMem (heq ▸ hnodup.1)
        · rw [if_neg heq, if_neg (Ne.symm heq)]
      rw [assign_asEntries_of_mem hdict hmem, ih hnodup.2 (by rw [hkeys]; exact hdict), hkeys,
        List.filter_cons_of_neg (by simpa using hmem), List.map_map]
      simp only [Function.comp_def, hplace]
    · have hdict' : ((dict ++ [(f.1, f.2.value)]).map Prod.fst).Nodup := by
        rw [List.map_append]
        exact List.nodup_append'.mpr
          ⟨hdict, List.nodup_singleton _, List.disjoint_singleton.mpr hmem⟩
      have hplace : ∀ e ∈ dict, overlaid redacted e = overlaid (f :: redacted) e := by
        rintro e he
        rw [overlaid_cons, if_neg]
        rintro heq
        exact hmem (heq ▸ List.mem_map_of_mem he)
      have hrest : (redacted.filter fun g => g.1 ∉ (dict ++ [(f.1, f.2.value)]).map Prod.fst) =
          redacted.filter fun g => g.1 ∉ dict.map Prod.fst := by
        refine List.filter_congr fun g hg => ?_
        have hne : g.1 ≠ f.1 := fun heq => hnodup.1 (heq ▸ List.mem_map_of_mem hg)
        simp [hne]
      rw [assign_asEntries_of_notMem hmem, ih hnodup.2 hdict', hrest,
        List.filter_cons_of_pos (by simpa using hmem), List.map_append, List.map_singleton,
        overlaid_of_notMem hnodup.1, List.append_assoc, List.map_cons,
        List.map_congr_left fun e he => congrArg (Prod.mk e.1) (hplace e he)]
      rfl

/-- Laying distinct fields over distinct keys leaves them distinct. -/
theorem overlay_nodup {redacted : List (String × Redacted)}
    (hnodup : (redacted.map Prod.fst).Nodup) {dict : List (String × Value)}
    (hdict : (dict.map Prod.fst).Nodup) : ((overlay dict redacted).map Prod.fst).Nodup := by
  unfold overlay
  rw [List.map_append, List.map_map, List.map_map]
  refine List.nodup_append'.mpr ⟨hdict, ?_, ?_⟩
  · exact hnodup.sublist (List.Sublist.map _ List.filter_sublist)
  · intro key hkey hmem
    obtain ⟨f, hf, rfl⟩ := List.mem_map.mp hmem
    exact of_decide_eq_true (List.mem_filter.mp hf).2 hkey

/-- What is true of the dictionary and of the fields is true of the fields laid over it. -/
theorem forall_overlay {P : Value → Prop} {dict : List (String × Value)}
    {redacted : List (String × Redacted)} (hdict : ∀ e ∈ dict, P e.2)
    (hfields : ∀ f ∈ redacted, P f.2.value) : ∀ e ∈ overlay dict redacted, P e.2 := by
  intro e he
  rcases List.mem_append.mp he with he | he
  · obtain ⟨e', he', rfl⟩ := List.mem_map.mp he
    show P (overlaid _ e')
    unfold overlaid
    cases hfind : redacted.find? fun f => f.1 = e'.1 with
    | none => exact hdict e' he'
    | some f => exact hfields f (List.mem_of_find?_eq_some hfind)
  · obtain ⟨f, hf, rfl⟩ := List.mem_map.mp he
    exact hfields f (List.mem_of_mem_filter hf)

/-- Every field is there. -/
theorem mem_overlay {redacted : List (String × Redacted)} (hnodup : (redacted.map Prod.fst).Nodup)
    {f : String × Redacted} (hf : f ∈ redacted) (dict : List (String × Value)) :
    (f.1, f.2.value) ∈ overlay dict redacted := by
  by_cases hkey : f.1 ∈ dict.map Prod.fst
  · obtain ⟨e, he, hekey⟩ := List.mem_map.mp hkey
    refine List.mem_append_left _ (List.mem_map.mpr ⟨e, he, ?_⟩)
    rw [overlaid, hekey, find?_eq_of_mem hnodup hf]
  · exact List.mem_append_right _ (List.mem_map_of_mem
      (List.mem_filter.mpr ⟨hf, decide_eq_true hkey⟩))

end Overlay

namespace RunLogger

variable (logger : RunLogger)

/-- The entries of the header. -/
def headerValues (env : LogEnv) (call : LogCall) : List (String × Value) :=
  [("ts", .scalar (.int env.nowMs)),
    ("runId", (call.runId.map Value.ofText).getD (.scalar .null)),
    ("phase", .ofText call.phase),
    ("level", .ofText call.level)]

/-- The keys of the header are distinct. -/
theorem headerKeys_nodup (env : LogEnv) (call : LogCall) :
    ((headerValues env call).map Prod.fst).Nodup := by
  show headerKeys.Nodup
  decide

/-- The entries of a line, under the keys they are written with. -/
def recordFields (env : LogEnv) (call : LogCall) : List (String × Value) :=
  overlay (headerValues env call) (logger.redact env.unicode call.fields.entries)

/-- The keys of the redacted fields are distinct. -/
theorem redact_nodup (env : LogEnv) (call : LogCall) :
    ((logger.redact env.unicode call.fields.entries).map Prod.fst).Nodup := by
  rw [map_fst_redact]
  exact call.fields.nodup

/-- A record is the entries of its fields. -/
theorem record_eq (env : LogEnv) (call : LogCall) :
    logger.record env call = asEntries (logger.recordFields env call) :=
  foldl_assign_asEntries (logger.redact_nodup env call) (headerKeys_nodup env call)

end RunLogger

/-! ## The text of a line -/

/-- Joining depends on the characters only. -/
theorem chars_joined_congr {sep : List Char} {texts texts' : List Marked}
    (h : texts.map chars = texts'.map chars) :
    chars (joined sep texts) = chars (joined sep texts') := by
  cases texts with
  | nil =>
    cases texts' with
    | nil => rfl
    | cons y texts' => cases h
  | cons x texts =>
    cases texts' with
    | nil => cases h
    | cons y texts' =>
      rw [List.map_cons, List.map_cons, List.cons.injEq] at h
      have hflat : ∀ l : List Marked, (l.flatMap fun t => sep ++ chars t) =
          (l.map chars).flatMap fun cs => sep ++ cs := by
        intro l
        rw [List.flatMap_map]
      rw [chars_joined_cons, chars_joined_cons, h.1, hflat, hflat, h.2]

/-- Quoting writes the same characters whether they are marked or not. -/
theorem chars_quoted_eq (m : Bool) (cs : List Char) :
    chars (quoted m cs) = chars (quoted true cs) := by
  rw [chars_quoted, chars_quoted]

/-- A redacted field is written as its value. -/
theorem Redacted.chars_write (rules : DumpRules) (r : Redacted) :
    chars (r.write rules) = chars (r.value.write rules) := by
  cases r with
  | masked => exact chars_quoted_eq false _
  | kept v => rfl

/-- The entries are written one after the other. -/
theorem writeEntries_eq_map (rules : DumpRules) (entries : List (Scalar × Value)) :
    Value.writeEntries rules entries = entries.map fun e =>
      quoted true (e.1.jsonText rules) ++ (mark false [':', ' '] ++ e.2.write rules) := by
  induction entries with
  | nil => rfl
  | cons e entries ih => rw [Value.writeEntries, ih, List.map_cons]

namespace RunLogger

variable (logger : RunLogger)

/-- The header is written as its values are. -/
theorem chars_header (rules : DumpRules) (env : LogEnv) (call : LogCall) :
    (header env call).map (fun e => (e.1, chars e.2)) =
      (headerValues env call).map fun e => (e.1, chars (e.2.write rules)) := by
  have hts : chars (mark false (toString env.nowMs).toList) =
      chars ((Value.scalar (.int env.nowMs)).write rules) := by
    rw [chars_mark]
    exact (chars_mark true _).symm
  have hphase := chars_quoted_eq false call.phase.toList
  have hlevel := chars_quoted_eq false call.level.toList
  unfold header headerValues
  cases call.runId with
  | none =>
    simp only [List.map_cons, List.map_nil, hts, hphase, hlevel]
    rfl
  | some id =>
    have hid := chars_quoted_eq false id.toList
    simp only [List.map_cons, List.map_nil, hts, hphase, hlevel, hid]
    rfl

/-- How an entry of the header is written, from how its own value would be. -/
def headerText (rules : DumpRules) (redacted : List (String × Redacted))
    (e : String × List Char) : List Char :=
  chars (quoted true e.1.toList) ++ ([':', ' '] ++
    match redacted.find? fun f => f.1 = e.1 with
    | some f => chars (f.2.value.write rules)
    | none => e.2)

/-- The characters of an entry of the header. -/
theorem chars_headerEntry (rules : DumpRules) (redacted : List (String × Redacted))
    (e : String × Marked) :
    chars (headerEntry rules redacted e) = headerText rules redacted (e.1, chars e.2) := by
  unfold headerEntry headerText writeEntry
  rw [chars_append, chars_append, chars_mark, chars_quoted_eq]
  cases redacted.find? fun f => f.1 = e.1 with
  | none => rfl
  | some f => exact congrArg _ (congrArg _ (f.2.chars_write rules))

/-- An entry is written with the field laid over it. -/
theorem chars_overlaid (rules : DumpRules) (redacted : List (String × Redacted))
    (e : String × Value) :
    chars (quoted true e.1.toList ++ (mark false [':', ' '] ++ (overlaid redacted e).write rules)) =
      headerText rules redacted (e.1, chars (e.2.write rules)) := by
  unfold overlaid headerText
  rw [chars_append, chars_append, chars_mark]
  cases redacted.find? fun f => f.1 = e.1 with
  | none => rfl
  | some f => rfl

/-- **A line is the text of its dictionary.** -/
theorem chars_line (env : LogEnv) (call : LogCall) :
    chars (logger.line env call) = chars ((Value.map (logger.record env call)).write env.json) := by
  have hheader : ((header env call).map
      (headerEntry env.json (logger.redact env.unicode call.fields.entries))).map chars =
        ((headerValues env call).map fun e => headerText env.json
          (logger.redact env.unicode call.fields.entries) (e.1, chars (e.2.write env.json))) := by
    have hlists := congrArg
      (List.map (headerText env.json (logger.redact env.unicode call.fields.entries)))
      (chars_header env.json env call)
    rw [List.map_map, List.map_map] at hlists
    rw [List.map_map, ← Function.comp_def, ← hlists]
    exact List.map_congr_left fun e _ => chars_headerEntry env.json _ e
  have hfields : ∀ f : String × Redacted, chars (fieldEntry env.json f) =
      chars (quoted true f.1.toList ++ (mark false [':', ' '] ++ f.2.value.write env.json)) := by
    intro f
    rw [fieldEntry, writeEntry, chars_append, chars_append, chars_append, chars_append,
      f.2.chars_write]
  rw [line, Value.write, chars_append, chars_append, chars_append, chars_append, record_eq,
    writeEntries_eq_map]
  congr 2
  apply chars_joined_congr
  rw [List.map_append, hheader, asEntries, recordFields, overlay, List.map_append,
    List.map_append, List.map_append]
  simp only [List.map_map, Function.comp_def, Scalar.jsonText, hfields, chars_overlaid]
  rfl

/-! ## What a reader gets -/

/-- What is true of the fields and of a mask is true of the redacted fields. -/
theorem forall_redact {P : Value → Prop} {u : Unicode} {fields : List (String × Value)}
    (hmask : P (.ofText "[REDACTED]")) (hfields : ∀ f ∈ fields, P f.2) :
    ∀ g ∈ logger.redact u fields, P g.2.value := by
  intro g hg
  obtain ⟨f, hf, rfl⟩ := List.mem_map.mp hg
  show P (Redacted.value (if logger.masks u f.1 f.2 then .masked else .kept f.2))
  split_ifs
  · exact hmask
  · exact hfields f hf

/-- The keys of a record are distinct. -/
theorem recordFields_nodup (env : LogEnv) (call : LogCall) :
    ((logger.recordFields env call).map Prod.fst).Nodup :=
  overlay_nodup (logger.redact_nodup env call) (headerKeys_nodup env call)

end RunLogger

section Entries

variable {dict : List (String × Value)}

/-- A dictionary of serialisable values is serialisable. -/
theorem serialisable_asEntries (h : ∀ e ∈ dict, e.2.serialisable = true) :
    Value.serialisableEntries (asEntries dict) = true := by
  induction dict with
  | nil => rfl
  | cons e dict ih =>
    rw [List.forall_mem_cons] at h
    rw [asEntries, List.map_cons, Value.serialisableEntries, h.1]
    exact ih h.2

/-- A dictionary of values that read back reads back. -/
theorem readsBack_asEntries {dump : DumpRules} {rules : JsonRules}
    (h : ∀ e ∈ dict, e.2.readsBack dump rules) : readsBackEntries dump rules (asEntries dict) := by
  induction dict with
  | nil => trivial
  | cons e dict ih =>
    rw [List.forall_mem_cons] at h
    exact ⟨h.1, ih h.2⟩

/-- A dictionary nests no deeper than its values. -/
theorem nesting_asEntries {n : Nat} (h : ∀ e ∈ dict, e.2.nesting ≤ n) :
    nestingEntries (asEntries dict) ≤ n := by
  induction dict with
  | nil => exact Nat.zero_le n
  | cons e dict ih =>
    rw [List.forall_mem_cons] at h
    exact Nat.max_le.mpr ⟨h.1, ih h.2⟩

/-- A dictionary of plain values under distinct keys is plain. -/
theorem plain_asEntries (hnodup : (dict.map Prod.fst).Nodup) (h : ∀ e ∈ dict, e.2.plain) :
    (Value.map (asEntries dict)).plain := by
  refine ⟨?_, ?_, ?_⟩
  · intro e he
    obtain ⟨f, hf, rfl⟩ := List.mem_map.mp he
    exact ⟨f.1, rfl⟩
  · rw [asEntries, List.map_map]
    have hinj : Function.Injective Scalar.str := fun _ _ heq => Scalar.str.inj heq
    have hkeys := hnodup.map hinj
    rwa [List.map_map] at hkeys
  · induction dict with
    | nil => trivial
    | cons e dict ih =>
      rw [List.forall_mem_cons] at h
      exact ⟨h.1, ih (List.nodup_cons.mp hnodup).2 h.2⟩

end Entries

/-- What a reader of the files can read of a call: the clock is no monstrous number, the finite
numbers of the fields read back, and the fields nest no deeper than the reader goes. -/
structure Rereads (rules : JsonRules) (env : LogEnv) (call : LogCall) : Prop where
  clock : (Scalar.int env.nowMs).printable = true
  floats : ∀ f ∈ call.fields.entries, f.2.readsBack env.json rules
  deep : 0 < rules.depth ∧ ∀ f ∈ call.fields.entries, f.2.nesting < rules.depth

namespace RunLogger

variable (logger : RunLogger)

/-- The values of the header are the clock, nulls and texts. -/
theorem forall_headerValues {P : Value → Prop} {env : LogEnv} {call : LogCall}
    (hclock : P (.scalar (.int env.nowMs))) (hnull : P (.scalar .null))
    (htext : ∀ s, P (.ofText s)) : ∀ e ∈ headerValues env call, P e.2 := by
  simp only [headerValues, List.forall_mem_cons, List.not_mem_nil, false_implies, implies_true,
    and_true]
  refine ⟨hclock, ?_, htext _, htext _⟩
  cases call.runId with
  | none => exact hnull
  | some id => exact htext id

/-- **A line reads back** as the dictionary it was written from. -/
theorem loads_line {rules : JsonRules} (hnames : ReadsNames rules) {env : LogEnv} {call : LogCall}
    (hread : Rereads rules env call)
    (hser : ((logger.redact env.unicode call.fields.entries).all
      fun f => f.2.serialisable) = true) :
    rules.loads (chars (logger.line env call)) =
        .ok ((Value.map (logger.record env call)).reread env.json) ∧
      Inline (chars (logger.line env call)) := by
  rw [chars_line]
  have hserial : (Value.map (logger.record env call)).serialisable = true := by
    rw [logger.record_eq]
    refine serialisable_asEntries (forall_overlay (P := fun v => v.serialisable = true)
      (forall_headerValues (P := fun v => v.serialisable = true) hread.clock rfl fun _ => rfl)
      fun g hg => ?_)
    have hg := List.all_eq_true.mp hser g hg
    revert hg
    cases g.2 with
    | masked => exact fun _ => rfl
    | kept v => exact id
  have hback : (Value.map (logger.record env call)).readsBack env.json rules := by
    rw [logger.record_eq]
    exact readsBack_asEntries (forall_overlay
      (P := fun v => v.readsBack env.json rules)
      (forall_headerValues trivial trivial fun _ => trivial)
      (logger.forall_redact trivial hread.floats))
  have hdeep : (Value.map (logger.record env call)).nesting ≤ rules.depth := by
    have hpos := hread.deep.1
    have hfields : ∀ f ∈ call.fields.entries, f.2.nesting ≤ rules.depth - 1 := fun f hf => by
      have := hread.deep.2 f hf
      omega
    have hentries : nestingEntries (logger.record env call) ≤ rules.depth - 1 := by
      rw [logger.record_eq]
      exact nesting_asEntries (forall_overlay
        (P := fun v => v.nesting ≤ rules.depth - 1)
        (forall_headerValues (P := fun v => v.nesting ≤ rules.depth - 1) (Nat.zero_le _)
          (Nat.zero_le _) fun _ => Nat.zero_le _)
        (logger.forall_redact (P := fun v => v.nesting ≤ rules.depth - 1) (Nat.zero_le _) hfields))
    rw [Value.nesting]
    omega
  exact ⟨JsonRules.loads_write hnames hserial hback hdeep, Value.inline_write _ hback⟩

/-! ## Calls after calls -/

section Files

variable {π : Type} [DecidableEq π] (path : String → π)

/-- A call appends its line to the file at a path. -/
def appendsTo (p : π) (c : LogEnv × LogCall) : Bool :=
  ((logger.redact c.1.unicode c.2.fields.entries).all fun f => f.2.serialisable) &&
    (c.1.stream || c.1.logs c.2.level) && c.1.appends && truthy c.2.runId &&
      decide (c.2.runId.map path = some p)

/-- When a call appends a line to its run's file. -/
theorem appended_eq (env : LogEnv) (call : LogCall) :
    (logger.log env call).appended =
      if ((logger.redact env.unicode call.fields.entries).all fun f => f.2.serialisable) &&
        (env.stream || env.logs call.level) && env.appends && truthy call.runId then
      some (logger.line env call) else none := by
  unfold log
  cases (logger.redact env.unicode call.fields.entries).all fun f => f.2.serialisable with
  | false => rfl
  | true =>
    cases env.stream <;> cases env.logs call.level <;> cases truthy call.runId <;>
      cases env.appends <;> rfl

/-- **One call.** -/
theorem append_eq (files : π → List Char) (c : LogEnv × LogCall) (p : π) :
    logger.append path files c p = files p ++
      (if logger.appendsTo path p c then chars (logger.line c.1 c.2) ++ ['\n'] else []) := by
  unfold append appendsTo
  rw [logger.appended_eq]
  generalize (((logger.redact c.1.unicode c.2.fields.entries).all fun f => f.2.serialisable) &&
    (c.1.stream || c.1.logs c.2.level) && c.1.appends && truthy c.2.runId) = written
  cases hid : c.2.runId with
  | none => cases written <;> simp
  | some id =>
    cases written with
    | false => simp
    | true =>
      by_cases hp : path id = p
      · subst hp
        simp
      · simp [Function.update_of_ne (Ne.symm hp), hp]

/-- **All calls.** -/
theorem files_eq (calls : List (LogEnv × LogCall)) (p : π) :
    logger.files path calls p = ((calls.filter (logger.appendsTo path p)).map fun c =>
      chars (logger.line c.1 c.2)).flatMap fun line => line ++ ['\n'] := by
  have hrun : ∀ files : π → List Char, calls.foldl (logger.append path) files p =
      files p ++ ((calls.filter (logger.appendsTo path p)).map fun c =>
        chars (logger.line c.1 c.2)).flatMap fun line => line ++ ['\n'] := by
    induction calls with
    | nil => simp
    | cons c calls ih =>
      intro files
      rw [List.foldl_cons, ih, append_eq, List.append_assoc]
      cases hc : logger.appendsTo path p c with
      | true => simp [List.filter_cons_of_pos hc]
      | false => simp [hc]
  exact hrun fun _ => []

/-- **The records of a run read back.** For every sequence of calls of `log`, whatever they are
about and wherever they write, the file at a path holds a line for each call that appends there,
in their order, and the line read by itself is the dictionary of the call: the header and the
redacted fields, with the keys of nested dictionaries as they are written, and exactly as they
were if these keys are distinct strings. -/
theorem files_read_back {rules : JsonRules} (hnames : ReadsNames rules)
    (calls : List (LogEnv × LogCall)) (hcalls : ∀ c ∈ calls, Rereads rules c.1 c.2) (p : π) :
    rules.loadLines (logger.files path calls p) =
        ((calls.filter (logger.appendsTo path p)).map fun c =>
          .ok ((Value.map (logger.record c.1 c.2)).reread c.1.json)) ∧
      ∀ c ∈ calls, (∀ f ∈ c.2.fields.entries, f.2.plain) →
        (Value.map (logger.record c.1 c.2)).reread c.1.json =
          .map (logger.record c.1 c.2) := by
  have hser : ∀ c ∈ calls.filter (logger.appendsTo path p),
      ((logger.redact c.1.unicode c.2.fields.entries).all fun f => f.2.serialisable) = true := by
    intro c hc
    have hto := (List.mem_filter.mp hc).2
    simp only [appendsTo, Bool.and_eq_true] at hto
    exact hto.1.1.1.1
  constructor
  · rw [files_eq, JsonRules.loadLines_flatMap, List.map_map]
    · refine List.map_congr_left fun c hc => ?_
      exact (logger.loads_line hnames (hcalls c (List.mem_of_mem_filter hc)) (hser c hc)).1
    · intro line hline
      obtain ⟨c, hc, rfl⟩ := List.mem_map.mp hline
      exact (logger.loads_line hnames (hcalls c (List.mem_of_mem_filter hc)) (hser c hc)).2
  · intro c _ hplain
    rw [Value.reread_eq_self_iff, logger.record_eq]
    exact plain_asEntries (logger.recordFields_nodup c.1 c.2) (forall_overlay
      (forall_headerValues trivial trivial fun _ => trivial)
      (logger.forall_redact trivial hplain))

end Files

/-- A reader for which there is one number with a fraction. -/
def halfRules : JsonRules where
  lone := fun _ => ' '
  readFloat := fun text =>
    if text = "0.5" then .finite (1 / 2) else if text = "NaN" then .nan
    else .infinite (decide (text = "-Infinity"))
  depth := 1000

/-- The reader of the example reads the names of the values that are no numbers. -/
theorem halfRules_names : ReadsNames halfRules :=
  ⟨by decide +kernel, by decide +kernel, by decide +kernel⟩

/-- One half is read back by it. -/
theorem readsBack_half : ReadsBack bothSinks.json halfRules (1 / 2) where
  spells := by
    unfold Spells
    decide +kernel
  reads := by decide +kernel
  inline := by
    have hinline : Inline (bothSinks.json.floatText (1 / 2)).toList := by decide +kernel
    exact hinline

/-- A field with an integer for a key and a number with a fraction. -/
def ratioCall : LogCall :=
  oneField "ratio" (.map [(.int 1, .scalar (.float (.finite (1 / 2))))]) (by decide)

/-- The two calls of the example are read back by it. -/
theorem rereads_calls :
    ∀ c ∈ [(bothSinks, nestedSecret), (bothSinks, ratioCall)], Rereads halfRules c.1 c.2 := by
  simp only [List.forall_mem_cons, List.not_mem_nil, false_implies, implies_true, and_true]
  refine ⟨⟨by decide +kernel, ?_, by decide, ?_⟩, ⟨by decide +kernel, ?_, by decide, ?_⟩⟩
  · intro f hf
    rw [List.mem_singleton.mp hf]
    exact ⟨trivial, trivial⟩
  · intro f hf
    rw [List.mem_singleton.mp hf]
    decide
  · intro f hf
    rw [List.mem_singleton.mp hf]
    exact ⟨readsBack_half, trivial⟩
  · intro f hf
    rw [List.mem_singleton.mp hf]
    decide

/-- The lines of the two calls are read back. -/
theorem files_read_back_two :
    halfRules.loadLines ((new none).files id [(bothSinks, nestedSecret), (bothSinks, ratioCall)]
        "run1") =
      (([(bothSinks, nestedSecret), (bothSinks, ratioCall)].filter
        ((new none).appendsTo id "run1")).map fun c =>
          .ok ((Value.map ((new none).record c.1 c.2)).reread c.1.json)) ∧
      ∀ c ∈ [(bothSinks, nestedSecret), (bothSinks, ratioCall)],
        (∀ f ∈ c.2.fields.entries, f.2.plain) →
          (Value.map ((new none).record c.1 c.2)).reread c.1.json =
            .map ((new none).record c.1 c.2) :=
  files_read_back (new none) id halfRules_names _ rereads_calls "run1"

end RunLogger

end PrReviewer.Model
