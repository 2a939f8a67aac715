import PrReviewer.Analysis.RunRecords
import PrReviewer.Model.ServiceLog

/-!
# The log of the service

A record in the JSON format is left out where its message raises or an attribute cannot be
written; otherwise it is one line, which reads back as the header with the attributes laid over it.
What an attribute with a sensitive key holds makes no difference to what either
formatter writes.
-/

set_option autoImplicit false

namespace PrReviewer.Model

open PrReviewer.Library

namespace LogRecord

variable (record : LogRecord) (env : FormatEnv)

/-! ## The dictionary of a record -/

/-- The attributes as they are written. -/
def written : List (String × Redacted) :=
  (record.extras env).map fun e => (e.1, .kept (Value.orText env.text e.2.value))

/-- The header of a record. -/
def headerFields (message : String) : List (String × Value) :=
  [("ts", .ofText (env.time record.created)), ("level", .ofText record.levelname),
    ("service", .ofText record.name), ("event", .ofText message)]

/-- The keys of the header are distinct. -/
theorem headerFields_nodup (message : String) :
    ((record.headerFields env message).map Prod.fst).Nodup := by
  show ["ts", "level", "service", "event"].Nodup
  decide

/-- Masking keeps the keys. -/
theorem map_fst_extras : (record.extras env).map Prod.fst =
    (record.attributes.filter fun a => isExtra a.1).map Prod.fst := by
  rw [extras, List.map_map]
  rfl

/-- No key is written twice. -/
theorem written_nodup : ((record.written env).map Prod.fst).Nodup := by
  have hkeys : (record.written env).map Prod.fst = (record.extras env).map Prod.fst := by
    rw [written, List.map_map]
    rfl
  rw [hkeys, map_fst_extras]
  exact record.nodup.sublist (List.Sublist.map _ List.filter_sublist)

/-- The dictionary is the header with the attributes laid over it. -/
theorem object_eq (message : String) : record.object env message =
    asEntries (overlay (record.headerFields env message) (record.written env)) := by
  rw [← foldl_assign_asEntries (record.written_nodup env) (record.headerFields_nodup env message),
    written, List.foldl_map]
  rfl

/-! ## Whether a record is written -/

/-- What can be written of the attributes makes a dictionary that can be written. -/
theorem serialisable_object (message : String)
    (h : ∀ e ∈ record.extras env, (Value.orText env.text e.2.value).serialisable = true) :
    (Value.map (record.object env message)).serialisable = true := by
  rw [object_eq]
  refine serialisable_asEntries (forall_overlay (P := fun v => v.serialisable = true) ?_ ?_)
  · simp [headerFields, Value.ofText, Value.serialisable, Scalar.serialisable]
  · intro f hf
    obtain ⟨e, he, rfl⟩ := List.mem_map.mp hf
    exact h e he

/-- A value cannot be dumped if a part is not serialisable or it nests too deep. -/
theorem undumpable_iff {env : FormatEnv} {v : Value} : undumpable env v = true ↔
    (Value.orText env.text v).serialisable = false ∨
      env.depth < Value.levels env.strLevels v := by
  rw [undumpable, Bool.or_eq_true, Bool.not_eq_true', decide_eq_true_iff]

/-- The mask can be dumped. -/
theorem not_undumpable_mask : undumpable env (.ofText "[REDACTED]") = false := by
  rw [← Bool.not_eq_true, undumpable_iff]
  rintro (h | h)
  · cases h
  · exact Nat.not_lt_zero _ h

/-- An attribute is not written: it is logged and not masked, and `json.dumps` raises on it. -/
theorem any_undumpable_iff : ((record.extras env).any fun e => undumpable env e.2.value) = true ↔
    ∃ a ∈ record.attributes, isExtra a.1 = true ∧ isRedacted env.unicode a.1 = false ∧
      undumpable env a.2 = true := by
  rw [List.any_eq_true]
  constructor
  · rintro ⟨e, he, hbad⟩
    obtain ⟨a, ha, rfl⟩ := List.mem_map.mp he
    obtain ⟨ha, hextra⟩ := List.mem_filter.mp ha
    cases hred : isRedacted env.unicode a.1 with
    | true =>
      simp only [hred] at hbad
      change undumpable env (.ofText "[REDACTED]") = true at hbad
      rw [not_undumpable_mask] at hbad
      cases hbad
    | false =>
      simp only [hred] at hbad
      exact ⟨a, ha, hextra, hred, hbad⟩
  · rintro ⟨a, ha, hextra, hred, hbad⟩
    refine ⟨_, List.mem_map_of_mem (List.mem_filter.mpr ⟨ha, hextra⟩), ?_⟩
    simp only [hred]
    exact hbad

/-- **When a record is not written**: its message raises, or `json.dumps` raises on an attribute
that is not masked. -/
theorem formatJson_eq_none_iff : record.formatJson env = none ↔ ¬ Runs record.message ∨
    ∃ a ∈ record.attributes, isExtra a.1 = true ∧ isRedacted env.unicode a.1 = false ∧
      undumpable env a.2 = true := by
  rw [← any_undumpable_iff]
  unfold formatJson
  cases record.message with
  | error e => exact iff_of_true rfl (Or.inl (not_runs_error e))
  | ok message =>
    rw [or_iff_right (not_not_intro (runs_ok message))]
    simp only
    split_ifs with hbad
    · exact iff_of_true rfl hbad
    · exact iff_of_false (by simp) hbad

/-- A record that is written has a message and nothing in it that `json.dumps` raises on. -/
theorem formatJson_eq_some {text : List Char} (h : record.formatJson env = some text) :
    ∃ message, record.message = .ok message ∧
      (Value.map (record.object env message)).serialisable = true ∧
      text = chars ((Value.map (record.object env message)).write env.json) := by
  unfold formatJson at h
  cases hmessage : record.message with
  | error e =>
    rw [hmessage] at h
    cases h
  | ok message =>
    rw [hmessage] at h
    simp only at h
    split_ifs at h with hbad
    cases h
    refine ⟨message, rfl, record.serialisable_object env message fun e he => ?_, rfl⟩
    by_contra hser
    refine hbad (List.any_eq_true.mpr ⟨e, he, undumpable_iff.mpr (Or.inl ?_)⟩)
    exact Bool.eq_false_iff.mpr hser

end LogRecord

/-! ## What a reader gets -/

/-- What a reader can read of a record: the finite numbers read back, and the attributes nest no
deeper than the reader goes. -/
structure ReadableRecord (rules : JsonRules) (env : FormatEnv) (record : LogRecord) : Prop where
  floats : ∀ a ∈ record.attributes, (Value.orText env.text a.2).readsBack env.json rules
  deep : 0 < rules.depth ∧
    ∀ a ∈ record.attributes, (Value.orText env.text a.2).nesting < rules.depth

namespace LogRecord

/-- What is true of the attributes and of a mask is true of what is written of them. -/
theorem forall_written {P : Value → Prop} {record : LogRecord} {env : FormatEnv}
    (hmask : P (.ofText "[REDACTED]"))
    (hfields : ∀ a ∈ record.attributes, P (Value.orText env.text a.2)) :
    ∀ f ∈ record.written env, P f.2.value := by
  intro f hf
  obtain ⟨e, he, rfl⟩ := List.mem_map.mp hf
  obtain ⟨a, ha, rfl⟩ := List.mem_map.mp he
  show P (Value.orText env.text
    (Redacted.value (if isRedacted env.unicode a.1 then .masked else .kept a.2)))
  split_ifs
  · exact hmask
  · exact hfields a (List.mem_of_mem_filter ha)

/-- The dictionary of a record reads back from its line. -/
theorem loads_object {rules : JsonRules} (hnames : ReadsNames rules) {record : LogRecord}
    {env : FormatEnv} (hread : ReadableRecord rules env record) {message : String}
    (hser : (Value.map (record.object env message)).serialisable = true) :
    rules.loads (chars ((Value.map (record.object env message)).write env.json)) =
        .ok ((Value.map (record.object env message)).reread env.json) ∧
      Inline (chars ((Value.map (record.object env message)).write env.json)) := by
  have hback : (Value.map (record.object env message)).readsBack env.json rules := by
    rw [object_eq]
    refine readsBack_asEntries (forall_overlay (P := fun v => v.readsBack env.json rules) ?_
      (forall_written (P := fun v => v.readsBack env.json rules) trivial hread.floats))
    simp [headerFields, Value.ofText, Value.readsBack, Scalar.readsBack]
  have hdeep : (Value.map (record.object env message)).nesting ≤ rules.depth := by
    have hpos := hread.deep.1
    have hfields : ∀ a ∈ record.attributes,
        (Value.orText env.text a.2).nesting ≤ rules.depth - 1 := fun a ha => by
      have := hread.deep.2 a ha
      omega
    have hentries : nestingEntries (record.object env message) ≤ rules.depth - 1 := by
      rw [object_eq]
      refine nesting_asEntries (forall_overlay (P := fun v => v.nesting ≤ rules.depth - 1) ?_
        (forall_written (P := fun v => v.nesting ≤ rules.depth - 1) (Nat.zero_le _) hfields))
      simp [headerFields, Value.ofText, Value.nesting]
    rw [Value.nesting]
    omega
  exact ⟨JsonRules.loads_write hnames hser hback hdeep, Value.inline_write _ hback⟩

/-! ## What makes no difference -/

/-- Two records that a reader may not tell apart: they differ at most in attributes that are not
logged or have a sensitive key. -/
structure Alike (u : Unicode) (r r' : LogRecord) : Prop where
  created : r.created = r'.created
  levelname : r.levelname = r'.levelname
  name : r.name = r'.name
  message : r.message = r'.message
  attributes : List.Forall₂ (fun a a' => a.1 = a'.1 ∧
    (isExtra a.1 = true → isRedacted u a.1 = false → a.2 = a'.2)) r.attributes r'.attributes

/-- Records that are alike have the same extra attributes. -/
theorem extras_eq_of_alike {env : FormatEnv} {r r' : LogRecord} (h : Alike env.unicode r r') :
    r.extras env = r'.extras env := by
  unfold extras
  have hall := h.attributes
  generalize r.attributes = as at hall
  generalize r'.attributes = as' at hall
  induction hall with
  | nil => rfl
  | @cons a a' as as' hhead _ ih =>
    obtain ⟨hkey, hvalue⟩ := hhead
    cases hextra : isExtra a.1 with
    | false =>
      have hextra' : isExtra a'.1 = false := hkey ▸ hextra
      simp only [List.filter_cons, hextra, hextra', Bool.false_eq_true, if_false]
      exact ih
    | true =>
      simp only [List.filter_cons, hextra, if_true, List.map_cons, ih, ← hkey]
      cases hred : isRedacted env.unicode a.1 with
      | true => rfl
      | false => rw [hvalue hextra hred]

/-- **What a sensitive attribute holds is not written**, in either format. -/
theorem format_congr {env : FormatEnv} {r r' : LogRecord} (h : Alike env.unicode r r') :
    r.formatJson env = r'.formatJson env ∧ r.formatText env = r'.formatText env := by
  have hextras := extras_eq_of_alike h
  have hobject : r.object env = r'.object env := by
    unfold object
    rw [hextras, h.created, h.levelname, h.name]
  constructor
  · unfold formatJson
    rw [hobject, hextras, h.message]
  · unfold formatText
    rw [hextras, h.created, h.levelname, h.name, h.message]

end LogRecord

/-! ## The entries read -/

/-- A dictionary with distinct keys reads back with each value read back. -/
theorem reread_asEntries (dump : DumpRules) {dict : List (String × Value)}
    (hnodup : (dict.map Prod.fst).Nodup) : (Value.map (asEntries dict)).reread dump =
      .map (asEntries (dict.map fun e => (e.1, e.2.reread dump))) := by
  have hstr : ∀ e ∈ asEntries dict, ∃ k, e.1 = .str k := by
    intro e he
    obtain ⟨f, hf, rfl⟩ := List.mem_map.mp he
    exact ⟨f.1, rfl⟩
  have hkeys : (([] ++ asEntries dict).map Prod.fst).Nodup := by
    have hinj : Function.Injective Scalar.str := fun _ _ heq => Scalar.str.inj heq
    have hmap := hnodup.map hinj
    rw [List.map_map] at hmap
    rw [List.nil_append, asEntries, List.map_map]
    exact hmap
  rw [Value.reread, @rereadEntries_of_nodup dump [] _ hstr hkeys, List.nil_append, asEntries,
    asEntries, List.map_map, List.map_map]
  rfl

/-- A dictionary with distinct keys has each of its entries. -/
theorem pair?_asEntries {dict : List (String × Value)} (hnodup : (dict.map Prod.fst).Nodup)
    {e : String × Value} (he : e ∈ dict) :
    Value.pair? (asEntries dict) (.str e.1) = some e.2 := by
  induction dict with
  | nil => cases he
  | cons d dict ih =>
    rw [List.map_cons, List.nodup_cons] at hnodup
    rw [asEntries, List.map_cons, Value.pair?_cons, Scalar.same_str]
    rcases List.mem_cons.mp he with rfl | he
    · simp
    · have hne : d.1 ≠ e.1 := fun heq => hnodup.1 (heq ▸ List.mem_map_of_mem he)
      rw [decide_eq_false hne, if_neg Bool.false_ne_true]
      exact ih hnodup.2 he

/-- The entry read under a key. -/
theorem getD_reread_asEntries (dump : DumpRules) {dict : List (String × Value)}
    (hnodup : (dict.map Prod.fst).Nodup) {e : String × Value} (he : e ∈ dict) (d : Value) :
    ((Value.map (asEntries dict)).reread dump).getD e.1 d = e.2.reread dump := by
  have hkeys : ((dict.map fun e => (e.1, e.2.reread dump)).map Prod.fst).Nodup := by
    rw [List.map_map]
    exact hnodup
  have hpair := @pair?_asEntries _ hkeys (e.1, e.2.reread dump) (List.mem_map_of_mem he)
  rw [reread_asEntries dump hnodup, Value.getD, hpair]
  rfl

namespace LogRecord

/-- The header reads back as it is. -/
theorem reread_headerFields (record : LogRecord) (env : FormatEnv) (message : String) :
    ∀ e ∈ record.headerFields env message, e.2.reread env.json = e.2 := by
  simp [headerFields, Value.ofText, Value.reread]

/-- **The service log in the JSON format.** A record is left out exactly if its message raises, or
an attribute that is logged and not masked has a part that cannot be written or nests deeper than
the recursion limit allows. Otherwise it is one line, which reads back as a dictionary with every
logged attribute under its key, masked where the key is sensitive, and with the header under the
keys that no attribute has; and another record whose sensitive attributes hold something else gives
the same line in either format. -/
theorem json_lines {rules : JsonRules} (hnames : ReadsNames rules) {env : FormatEnv}
    {record : LogRecord} (hread : ReadableRecord rules env record) :
    (record.formatJson env = none ↔ ¬ Runs record.message ∨
      ∃ a ∈ record.attributes, isExtra a.1 = true ∧ isRedacted env.unicode a.1 = false ∧
        ((Value.orText env.text a.2).serialisable = false ∨
          env.depth < Value.levels env.strLevels a.2)) ∧
    (∀ text, record.formatJson env = some text → Inline text ∧
      ∃ v message, rules.loads text = .ok v ∧ record.message = .ok message ∧
        (∀ a ∈ record.attributes, isExtra a.1 = true → v.getD a.1 (.scalar .null) =
          if isRedacted env.unicode a.1 then .ofText "[REDACTED]"
          else (Value.orText env.text a.2).reread env.json) ∧
        ∀ e ∈ record.headerFields env message, (∀ a ∈ record.attributes, a.1 ≠ e.1) →
          v.getD e.1 (.scalar .null) = e.2) ∧
    ∀ other, Alike env.unicode record other →
      other.formatJson env = record.formatJson env ∧
        other.formatText env = record.formatText env := by
  refine ⟨?_, ?_, fun other h => ?_⟩
  · rw [formatJson_eq_none_iff]
    simp only [undumpable_iff]
  · intro text htext
    obtain ⟨message, hmessage, hser, rfl⟩ := record.formatJson_eq_some env htext
    obtain ⟨hloads, hinline⟩ := loads_object hnames hread hser
    have hkeys := overlay_nodup (record.written_nodup env) (record.headerFields_nodup env message)
    refine ⟨hinline, _, message, hloads, hmessage, ?_, ?_⟩
    · intro a ha hextra
      have hmem : (a.1, Redacted.kept (Value.orText env.text (Redacted.value
          (if isRedacted env.unicode a.1 then .masked else .kept a.2)))) ∈ record.written env :=
        List.mem_map_of_mem (List.mem_map_of_mem (List.mem_filter.mpr ⟨ha, hextra⟩))
      have hoverlay := mem_overlay (record.written_nodup env) hmem (record.headerFields env message)
      have hget := getD_reread_asEntries env.json hkeys hoverlay (.scalar .null)
      rw [object_eq, hget]
      split_ifs <;> rfl
    · intro e he hfree
      have hmem : e.1 ∉ (record.written env).map Prod.fst := by
        intro hkey
        obtain ⟨f, hf, hfe⟩ := List.mem_map.mp hkey
        obtain ⟨x, hx, rfl⟩ := List.mem_map.mp hf
        obtain ⟨a, ha, rfl⟩ := List.mem_map.mp hx
        exact hfree a (List.mem_of_mem_filter ha) hfe
      have hoverlay : (e.1, e.2) ∈
          overlay (record.headerFields env message) (record.written env) :=
        List.mem_append_left _ (List.mem_map.mpr ⟨e, he, by rw [overlaid_of_notMem hmem]⟩)
      have hget := getD_reread_asEntries env.json hkeys hoverlay (.scalar .null)
      rw [object_eq, hget]
      exact reread_headerFields record env message e he
  · obtain ⟨hjson, htext⟩ := format_congr h
    exact ⟨hjson.symm, htext.symm⟩

/-- Formatters that know one date and one time. -/
def smallFormat : FormatEnv where
  unicode := .ascii
  json := RunLogger.bothSinks.json
  text :=
    { floatText := fun _ => "0.5"
      bytesText := fun _ => "b'\\x00'"
      stampText := fun _ => "2026-01-02"
      containerText := fun _ => "[]"
      readInt := fun _ => none
      readBytes := fun _ => none
      encodes := fun _ => true
      floatText_ne := fun _ => by decide
      bytesText_ne := fun _ => by decide
      stampText_ne := fun _ => by decide
      containerText_ne := fun _ => by decide }
  depth := 900
  strLevels := fun _ => 2
  shallow := fun _ => true
  time := fun _ => "2026-01-01 05:30:00 IST"

/-- A record with a date, a sensitive attribute and one of its own that takes a key of the
header. -/
def smallRecord : LogRecord where
  created := 0
  levelname := "INFO"
  name := "pr_reviewer.test"
  message := .ok "job_enqueued"
  attributes := [("lineno", .scalar (.int 10)), ("since", .list [.scalar (.stamp 0)]),
    ("github_token", .ofText "ghp"), ("event", .scalar (.float (.finite (1 / 2))))]
  nodup := by decide

/-- The record of the example is readable. -/
theorem smallRecord_readable : ReadableRecord RunLogger.halfRules smallFormat smallRecord where
  floats := by
    simp only [smallRecord, List.forall_mem_cons, List.not_mem_nil, false_implies, implies_true,
      and_true]
    exact ⟨trivial, ⟨trivial, trivial⟩, trivial, RunLogger.readsBack_half⟩
  deep := ⟨by decide, by decide⟩

/-- What holds of the line of the example. -/
theorem json_lines_small :
    (smallRecord.formatJson smallFormat = none ↔ ¬ Runs smallRecord.message ∨
      ∃ a ∈ smallRecord.attributes, isExtra a.1 = true ∧
        isRedacted smallFormat.unicode a.1 = false ∧
        ((Value.orText smallFormat.text a.2).serialisable = false ∨
          smallFormat.depth < Value.levels smallFormat.strLevels a.2)) ∧
    (∀ text, smallRecord.formatJson smallFormat = some text →
      Inline text ∧ ∃ v message, RunLogger.halfRules.loads text = .ok v ∧
        smallRecord.message = .ok message ∧
        (∀ a ∈ smallRecord.attributes, isExtra a.1 = true → v.getD a.1 (.scalar .null) =
          if isRedacted smallFormat.unicode a.1 then .ofText "[REDACTED]"
          else (Value.orText smallFormat.text a.2).reread smallFormat.json) ∧
        ∀ e ∈ smallRecord.headerFields smallFormat message,
          (∀ a ∈ smallRecord.attributes, a.1 ≠ e.1) → v.getD e.1 (.scalar .null) = e.2) ∧
    ∀ other, Alike smallFormat.unicode smallRecord other →
      other.formatJson smallFormat = smallRecord.formatJson smallFormat ∧
        other.formatText smallFormat = smallRecord.formatText smallFormat :=
  json_lines RunLogger.halfRules_names smallRecord_readable

end LogRecord

end PrReviewer.Model
