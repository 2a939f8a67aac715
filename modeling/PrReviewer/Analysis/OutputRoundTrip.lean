import PrReviewer.Analysis.FenceStripping
import PrReviewer.Analysis.OutputShapes

/-!
# When the agent's output comes back

A review written as a JSON document, alone or in a fence, and what `_parse_result` reads of it.
Stripping the fences looks at backticks only, so it takes a document apart that has three of
them inside a string. What it then decodes starts inside that string, or ends inside it. If it
decodes at all, its strings are what stands between the strings of the document, so it has
neither a summary nor findings.
-/

set_option autoImplicit false

namespace PrReviewer.Model

open Library

/-! ## Documents -/

/-- The line of a finding. -/
def lineDocument : Option Int → Json
  | some n => .int n
  | none => .null

/-- The entries of a finding in a document. -/
def Finding.entries (f : Finding) : List (String × Json) :=
  [("path", .str f.path), ("line", lineDocument f.line), ("severity", .str f.severity.value),
    ("title", .str f.title), ("detail", .str f.detail), ("type", .str f.type)]

/-- The document of a finding, its entries in any order. -/
def IsFinding (v : Json) (f : Finding) : Prop :=
  ∃ entries, v = .obj entries ∧ entries.Perm f.entries

/-- The document of a review, its entries in any order. -/
def IsReview (v : Json) (summary : String) (findings : List Finding) : Prop :=
  ∃ items entries, v = .obj entries ∧ List.Forall₂ IsFinding items findings ∧
    entries.Perm [("summary", .str summary), ("findings", .arr items)]

/-- A text is the JSON document of a review, spelled in any way. -/
def IsDocument (rules : JsonRules) (doc summary : String) (findings : List Finding) : Prop :=
  ∃ v, readJson rules.lone .free doc.toList = .ok v ∧ IsReview v summary findings

/-- The finding `_parse_result` is to return. -/
def Finding.parsed (f : Finding) : ParsedFinding where
  path := f.path
  line := f.line.elim (.scalar .null) fun n => .scalar (.int n)
  severity := f.severity
  title := f.title
  detail := f.detail
  type := f.type

/-- The result `_parse_result` is to return. -/
def reviewResult (summary : String) (findings : List Finding) : ParsedResult where
  summary := summary
  findings := findings.map Finding.parsed

/-! ## Output -/

/-- How the agent writes a document. -/
inductive Wrapping
  | alone
  | jsonFence (before after : String)
  | plainFence (before after : String)

namespace Wrapping

/-- The agent's text around a document. -/
def wrap (doc : String) : Wrapping → String
  | alone => doc
  | jsonFence before after => before ++ "```json" ++ doc ++ "```" ++ after
  | plainFence before after => before ++ "```" ++ doc ++ "```" ++ after

/-- The prose around a fence has no backticks. -/
def Prose : Wrapping → Prop
  | alone => True
  | jsonFence before after => tick ∉ before.toList ∧ tick ∉ after.toList
  | plainFence before after => tick ∉ before.toList ∧ tick ∉ after.toList

end Wrapping

/-- `int` reads every line number: none has more than 4300 digits. -/
def ReadableLines (findings : List Finding) : Prop :=
  ∀ f ∈ findings, ∀ n, f.line = some n → (Scalar.int n).printable = true

/-- The text is JSON that is read as the review. -/
def Restates (env : RunnerEnv) (summary : String) (findings : List Finding)
    (text : List Char) : Prop :=
  ∃ data, env.json.loads (strip text) = .ok data ∧
    buildResult env.text data = .ok (reviewResult summary findings)

/-- The document comes through: it has no three backticks in a row. After a plain fence it never
does, and the prose would have to say the same again; so it would where the prose makes the
closing fence another opening one. -/
def ComesThrough (env : RunnerEnv) (doc summary : String) (findings : List Finding) :
    Wrapping → Prop
  | .alone => ¬ fence <:+: doc.toList ∧ ReadableLines findings
  | .jsonFence _ after =>
    if jsonName <+: after.toList then
      Restates env summary findings (after.toList.drop 4)
    else ¬ fence <:+: doc.toList ∧ ReadableLines findings
  | .plainFence _ after =>
    if jsonName <+: after.toList then
      Restates env summary findings (after.toList.drop 4)
    else ¬ jsonFence <:+: doc.toList ∧ Restates env summary findings after.toList

/-! ## The value of a document -/

section Values

variable {rules : TextRules} {readFloat : String → Floating}

/-- The entry of a document under a key that it has once. -/
theorem getD_document {entries es : List (String × Json)} (hperm : entries.Perm es)
    (hkeys : (es.map Prod.fst).Nodup) {name : String} {v : Json} (h : (name, v) ∈ es) (d : Value) :
    ((Json.obj entries).value readFloat).getD name d = v.value readFloat := by
  have hnodup : (entries.map Prod.fst).Nodup := (hperm.map Prod.fst).nodup_iff.mpr hkeys
  have hpair : Value.pair? (entryValues readFloat [] entries) (.str name) =
      some (v.value readFloat) := pair?_entryValues [] hnodup (hperm.mem_iff.mpr h)
  show (Value.pair? (entryValues readFloat [] entries) (.str name)).getD d = _
  rw [hpair]
  rfl

/-- A key of a document with distinct keys gives its value. -/
theorem get_document {entries es : List (String × Json)} (hperm : entries.Perm es)
    (hkeys : (es.map Prod.fst).Nodup) {name : String} {v : Json} (h : (name, v) ∈ es) (d : Value) :
    ((Json.obj entries).value readFloat).get name d = .ok (v.value readFloat) :=
  Value.get_eq_ok.mpr ⟨rfl, getD_document hperm hkeys h d⟩

/-- A text of a document with distinct keys is read as it stands. -/
theorem readText_document {entries es : List (String × Json)} (hperm : entries.Perm es)
    (hkeys : (es.map Prod.fst).Nodup) {name t : String} (h : (name, .str t) ∈ es)
    (default : String) :
    readText rules ((Json.obj entries).value readFloat) name default = .ok t :=
  bind_eq_ok.mpr ⟨_, get_document hperm hkeys h _, rfl⟩

/-- A severity is read back from its name. -/
theorem parseSeverity_value (s : Severity) : parseSeverity (.ofText s.value) = s := by
  cases s <;> decide +kernel

/-- The keys of a finding are distinct. -/
theorem Finding.nodup_entries (f : Finding) : (f.entries.map Prod.fst).Nodup := by
  show ["path", "line", "severity", "title", "detail", "type"].Nodup
  decide

/-- The value of a finding's line. -/
theorem lineDocument_value (line : Option Int) : (lineDocument line).value readFloat =
    line.elim (.scalar .null) fun n => .scalar (.int n) := by
  cases line <;> rfl

/-- **A finding comes back.** -/
theorem parseFinding_document {v : Json} {f : Finding} (h : IsFinding v f) :
    parseFinding rules (v.value readFloat) = .ok f.parsed := by
  obtain ⟨entries, rfl, hperm⟩ := h
  have hkeys := f.nodup_entries
  have hpath : ("path", .str f.path) ∈ f.entries := by simp [Finding.entries]
  have hline : ("line", lineDocument f.line) ∈ f.entries := by simp [Finding.entries]
  have hseverity : ("severity", .str f.severity.value) ∈ f.entries := by simp [Finding.entries]
  have htitle : ("title", .str f.title) ∈ f.entries := by simp [Finding.entries]
  have hdetail : ("detail", .str f.detail) ∈ f.entries := by simp [Finding.entries]
  have htype : ("type", .str f.type) ∈ f.entries := by simp [Finding.entries]
  unfold parseFinding
  refine bind_eq_ok.mpr ⟨_, readText_document hperm hkeys hpath _, ?_⟩
  refine bind_eq_ok.mpr ⟨_, get_document hperm hkeys hline _, ?_⟩
  refine bind_eq_ok.mpr ⟨_, get_document hperm hkeys hseverity _, ?_⟩
  refine bind_eq_ok.mpr ⟨_, readText_document hperm hkeys htitle _, ?_⟩
  refine bind_eq_ok.mpr ⟨_, readText_document hperm hkeys hdetail _, ?_⟩
  refine bind_eq_ok.mpr ⟨_, readText_document hperm hkeys htype _, ?_⟩
  have hparsed : parseSeverity ((Json.str f.severity.value).value readFloat) = f.severity :=
    parseSeverity_value f.severity
  rw [hparsed, lineDocument_value]
  rfl

/-- **A review comes back.** -/
theorem buildResult_document {v : Json} {summary : String} {findings : List Finding}
    (h : IsReview v summary findings) :
    buildResult rules (v.value readFloat) = .ok (reviewResult summary findings) := by
  obtain ⟨items, entries, rfl, hitems, hperm⟩ := h
  have hkeys : ([("summary", Json.str summary), ("findings", .arr items)].map Prod.fst).Nodup := by
    show ["summary", "findings"].Nodup
    decide
  have hfindings : (items.map (Json.value readFloat)).mapM (parseFinding rules) =
      .ok (findings.map Finding.parsed) := by
    rw [mapM_eq_ok, List.forall₂_map_left_iff, List.forall₂_map_right_iff]
    exact hitems.imp fun _ _ hf => parseFinding_document hf
  have hsummary : ("summary", .str summary) ∈
      [("summary", Json.str summary), ("findings", .arr items)] := by simp
  have hlist : ("findings", .arr items) ∈
      [("summary", Json.str summary), ("findings", .arr items)] := by simp
  unfold buildResult
  refine bind_eq_ok.mpr ⟨_, get_document hperm hkeys hlist _, ?_⟩
  refine bind_eq_ok.mpr ⟨items.map (Json.value readFloat), ?_, ?_⟩
  · show Value.iterate (.list (itemValues readFloat items)) = _
    rw [itemValues_eq_map]
    rfl
  refine bind_eq_ok.mpr ⟨_, hfindings, ?_⟩
  exact bind_eq_ok.mpr ⟨_, readText_document hperm hkeys hsummary _, rfl⟩

end Values

/-! ## What a document holds -/

section Contents

variable {v : Json} {summary : String} {findings : List Finding}

/-- The tokens of a finding are its keys and those of its values. -/
theorem mem_tokens_finding {f : Finding} (h : IsFinding v f) {t : Token} :
    t ∈ v.tokens ↔ ∃ e ∈ f.entries, t = .str e.1 ∨ t ∈ e.2.tokens := by
  obtain ⟨entries, rfl, hperm⟩ := h
  rw [Json.tokens, mem_entryTokens]
  exact exists_congr fun e => and_congr_left' hperm.mem_iff

/-- The only number of a finding is its line. -/
theorem int_mem_finding {f : Finding} (h : IsFinding v f) {n : Int} :
    Token.int n ∈ v.tokens ↔ f.line = some n := by
  rw [mem_tokens_finding h]
  cases hline : f.line <;> simp [Finding.entries, lineDocument, Json.tokens, hline, eq_comm]

/-- The tokens of a review are its two keys, its summary and those of its findings. -/
theorem mem_tokens_review (h : IsReview v summary findings) {t : Token} :
    ∃ items, List.Forall₂ IsFinding items findings ∧ (t ∈ v.tokens ↔
      t = .str "summary" ∨ t = .str summary ∨ t = .str "findings" ∨ ∃ w ∈ items, t ∈ w.tokens) := by
  obtain ⟨items, entries, rfl, hitems, hperm⟩ := h
  refine ⟨items, hitems, ?_⟩
  rw [Json.tokens, mem_entryTokens]
  have hmem : (∃ e ∈ entries, t = .str e.1 ∨ t ∈ e.2.tokens) ↔
      ∃ e ∈ [("summary", Json.str summary), ("findings", .arr items)],
        t = .str e.1 ∨ t ∈ e.2.tokens := exists_congr fun e => and_congr_left' hperm.mem_iff
  rw [hmem]
  simp [Json.tokens, mem_itemTokens, or_assoc]

/-- The integers of a review are its line numbers. -/
theorem int_mem_review (h : IsReview v summary findings) {n : Int} :
    Token.int n ∈ v.tokens ↔ ∃ f ∈ findings, f.line = some n := by
  obtain ⟨items, hitems, hmem⟩ := mem_tokens_review h (t := .int n)
  rw [hmem]
  simp only [reduceCtorEq, false_or]
  clear hmem h
  induction hitems with
  | nil => simp
  | @cons w f items findings hf _ ih => simp [int_mem_finding hf, ih]

/-- The summary is among the texts of the review. -/
theorem summary_mem_review (h : IsReview v summary findings) : summary ∈ texts v.tokens := by
  obtain ⟨items, -, hmem⟩ := mem_tokens_review h (t := .str summary)
  exact mem_texts.mpr (hmem.mpr (.inr (.inl rfl)))

/-- A review with a backtick in it has findings, or has it in its summary. -/
theorem rich_of_tick (h : IsReview v summary findings) {s : String} (hs : s ∈ texts v.tokens)
    (htick : tick ∈ s.toList) : findings ≠ [] ∨ tick ∈ summary.toList := by
  obtain ⟨items, hitems, hmem⟩ := mem_tokens_review h (t := .str s)
  rcases hmem.mp (mem_texts.mp hs) with heq | heq | heq | ⟨w, hw, -⟩
  · cases heq
    exact absurd htick (by decide)
  · cases heq
    exact .inr htick
  · cases heq
    exact absurd htick (by decide)
  · refine .inl ?_
    rintro rfl
    cases hitems
    cases hw

/-- A finding nests at most once. -/
theorem depth_finding {f : Finding} (h : IsFinding v f) : v.depth ≤ 1 := by
  obtain ⟨entries, rfl, hperm⟩ := h
  have hentries : entryDepth entries ≤ 0 := by
    rw [entryDepth_le]
    intro e he
    have hmem := hperm.mem_iff.mp he
    simp only [Finding.entries, List.mem_cons, List.not_mem_nil, or_false] at hmem
    rcases hmem with rfl | rfl | rfl | rfl | rfl | rfl <;>
      first | rfl | (cases f.line <;> rfl)
  rw [Json.depth]
  omega

/-- A review nests three containers. -/
theorem depth_review (h : IsReview v summary findings) : v.depth ≤ 3 := by
  obtain ⟨items, entries, rfl, hitems, hperm⟩ := h
  have hitem : itemDepth items ≤ 1 := by
    rw [itemDepth_le]
    clear hperm
    induction hitems with
    | nil => simp
    | cons hf _ ih => exact List.forall_mem_cons.mpr ⟨depth_finding hf, ih⟩
  have hentries : entryDepth entries ≤ 2 := by
    rw [entryDepth_le]
    intro e he
    have hmem := hperm.mem_iff.mp he
    simp only [List.mem_cons, List.not_mem_nil, or_false] at hmem
    rcases hmem with rfl | rfl
    · exact Nat.zero_le _
    · rw [Json.depth]
      omega
  rw [Json.depth]
  omega

end Contents

/-! ## A document taken apart -/

/-- If the text is JSON, its strings hold nothing but what stands outside strings. -/
def Stray (lone : Nat → Char) (text : List Char) : Prop :=
  (lex lone text).2 = true → ∀ s ∈ texts (lex lone text).1, ∀ c ∈ s.toList, isOuter c = true

section Stray

variable {lone : Nat → Char} {doc : List Char}

/-- A tick stands inside strings only. -/
theorem quotedOnly_tick : quotedOnly tick = true := by
  decide

/-- What follows the last fence of a document starts inside a string. -/
theorem stray_lastPiece {rest : List Char} (hplain : ∀ c ∈ rest, c ≠ '"' ∧ c ≠ '\\')
    (hdoc : (lex lone doc).2 = true) (hocc : tick :: rest <:+: doc) :
    Stray lone (strip (firstPiece fence (lastPiece (tick :: rest) doc))) := by
  obtain ⟨before, hbefore⟩ := exists_eq_append_lastPiece (by simp) hocc
  obtain ⟨tail, htail⟩ := exists_eq_firstPiece_append fence_ne_nil (lastPiece (tick :: rest) doc)
  obtain ⟨front, back, hstrip, hfront, -⟩ :=
    exists_eq_strip (firstPiece fence (lastPiece (tick :: rest) doc))
  generalize firstPiece fence (lastPiece (tick :: rest) doc) = piece at htail hstrip ⊢
  have hshape : doc = before ++ tick :: ((rest ++ front) ++ (strip piece ++ (back ++ tail))) := by
    rw [htail, hstrip] at hbefore
    simpa using hbefore
  intro htext
  rw [hshape] at hdoc
  refine texts_of_inside quotedOnly_tick (fun c hc => ?_) hdoc htext
  rcases List.mem_append.mp hc with hc | hc
  · exact hplain c hc
  · have hspace := hfront c hc
    constructor <;>
    · rintro rfl
      revert hspace
      decide

/-- A document cut off at its first fence ends inside a string. -/
theorem stray_firstPiece (hdoc : (lex lone doc).2 = true) (hocc : fence <:+: doc) :
    Stray lone (strip (firstPiece fence doc)) := by
  obtain ⟨rest, hrest, -⟩ := exists_pieces_eq fence_ne_nil hocc
  obtain ⟨front, back, hstrip, hfront, hback⟩ := exists_eq_strip (firstPiece fence doc)
  have hshape : doc = front ++ strip (firstPiece fence doc) ++ back ++
      tick :: (tick :: tick :: rest) := by
    conv_lhs => rw [hrest, hstrip]
    rfl
  intro htext
  rw [hshape] at hdoc
  have hcut := lex_cut (fun c hc => inert_of_isSpace (hfront c hc))
    (fun c hc => inert_of_isSpace (hback c hc)) quotedOnly_tick hdoc
  rw [hcut] at htext
  cases htext

/-- **A document with a fence in it is taken apart.** -/
theorem stray_fenced (hdoc : (lex lone doc).2 = true) (hocc : fence <:+: doc) :
    Stray lone (fenced doc) := by
  by_cases hjson : jsonFence <:+: doc
  · exact stray_lastPiece (by simp [tick]) hdoc hjson
  · rw [fenced, lastPiece_of_absent hjson]
    exact stray_firstPiece hdoc hocc

end Stray

/-! ## What is read of the parts -/

section Parts

variable {env : RunnerEnv} {stdout summary : String} {findings : List Finding}

/-- `json.loads` succeeds exactly where the reader does, with the value of what it reads. -/
theorem loads_eq_ok {rules : JsonRules} {text : List Char} {data : Value} :
    rules.loads text = .ok data ↔
      ∃ v, readJson rules.lone rules.limits text = .ok v ∧ data = v.value rules.readFloat := by
  unfold JsonRules.loads
  cases readJson rules.lone rules.limits text with
  | error e => simp [Except.map]
  | ok v => simp [Except.map, eq_comm]

/-- **A stray text has no summary and no findings.** -/
theorem buildResult_stray {rules : TextRules} {json : JsonRules} {text : List Char} {data : Value}
    {result : ParsedResult} (hstray : Stray json.lone text) (hloads : json.loads text = .ok data)
    (h : buildResult rules data = .ok result) :
    result.summary = defaultSummary ∧ result.findings = [] := by
  obtain ⟨v, hread, rfl⟩ := loads_eq_ok.mp hloads
  have htexts := hstray (readJson_eq_ok.mp hread).1
  rw [← texts_of_readJson hread] at htexts
  obtain ⟨list, hlist, h⟩ := bind_eq_ok.mp h
  obtain ⟨hmap, rfl⟩ := Value.get_eq_ok.mp hlist
  obtain ⟨entries, rfl⟩ : ∃ entries, v = .obj entries := by
    cases v with
    | obj entries => exact ⟨entries, rfl⟩
    | null => cases hmap
    | bool b => cases hmap
    | int n => cases hmap
    | float t => cases hmap
    | str s => cases hmap
    | arr items => cases hmap
  have habsent {name : String} (hname : ∃ c ∈ name.toList, isOuter c = false) (d : Value) :
      ((Json.obj entries).value json.readFloat).getD name d = d := by
    have hnot : name ∉ entries.map Prod.fst := by
      intro hmem
      obtain ⟨e, he, rfl⟩ := List.mem_map.mp hmem
      obtain ⟨c, hc, houter⟩ := hname
      have hkey : Token.str e.1 ∈ (Json.obj entries).tokens :=
        mem_entryTokens.mpr ⟨e, he, .inl rfl⟩
      rw [htexts _ (mem_texts.mpr hkey) c hc] at houter
      cases houter
    show (Value.pair? (entryValues json.readFloat [] entries) (.str name)).getD d = d
    rw [pair?_entryValues_of_notMem [] hnot]
    rfl
  rw [habsent ⟨'g', by decide, by decide⟩] at h
  obtain ⟨items, hitems, h⟩ := bind_eq_ok.mp h
  cases hitems
  obtain ⟨parsed, hparsed, h⟩ := bind_eq_ok.mp h
  cases hparsed
  obtain ⟨text, htext, h⟩ := bind_eq_ok.mp h
  obtain ⟨t, ht, htext⟩ := bind_eq_ok.mp htext
  obtain ⟨-, rfl⟩ := Value.get_eq_ok.mp ht
  rw [habsent ⟨'m', by decide, by decide⟩] at htext
  cases htext
  cases h
  exact ⟨rfl, rfl⟩

/-- The summary of a text that is not JSON is the text. -/
theorem fallback_ne (hlong : summary.length < (strip stdout.toList).length) :
    fallbackSummary stdout.toList ≠ summary := by
  rintro rfl
  have hne : strip stdout.toList ≠ [] := List.ne_nil_of_length_pos (by omega)
  rw [fallbackSummary, if_neg hne, String.length_ofList] at hlong
  exact lt_irrefl _ hlong

/-- The result is the review exactly if the text is decoded and read as it. -/
theorem parseResult_eq_iff (hlong : summary.length < (strip stdout.toList).length) :
    env.parseResult stdout = .ok (reviewResult summary findings) ↔
      ∃ data, env.json.loads (cleanOutput stdout.toList) = .ok data ∧
        buildResult env.text data = .ok (reviewResult summary findings) := by
  unfold RunnerEnv.parseResult
  cases env.json.loads (cleanOutput stdout.toList) with
  | ok data =>
    show (buildResult env.text data).mapError _ = _ ↔ _
    cases hbuild : buildResult env.text data with
    | ok result => simp [Except.mapError, hbuild]
    | error e => simp [Except.mapError, hbuild]
  | error e =>
    refine iff_of_false ?_ (by simp)
    cases e with
    | malformed =>
      intro h
      have hresult := Except.ok.inj h
      exact fallback_ne hlong (congrArg ParsedResult.summary hresult)
    | longInt => simp
    | tooDeep => simp

/-- **A document taken apart does not come back.** -/
theorem parseResult_stray (hlong : summary.length < (strip stdout.toList).length)
    (hrich : findings ≠ [] ∨ tick ∈ summary.toList)
    (hstray : Stray env.json.lone (cleanOutput stdout.toList)) :
    env.parseResult stdout ≠ .ok (reviewResult summary findings) := by
  rw [Ne, parseResult_eq_iff hlong]
  rintro ⟨data, hloads, hbuild⟩
  obtain ⟨hsummary, hfindings⟩ := buildResult_stray hstray hloads hbuild
  rcases hrich with hrich | hrich
  · exact hrich (List.map_eq_nil_iff.mp hfindings)
  · rw [show summary = defaultSummary from hsummary] at hrich
    revert hrich
    decide +kernel

end Parts

/-! ## The document of a review -/

section Review

variable {env : RunnerEnv} {doc : List Char} {v : Json} {stdout summary : String}
  {findings : List Finding}

/-- What is used of the document of a review. -/
structure Spelled (rules : JsonRules) (doc : List Char) (v : Json) (summary : String)
    (findings : List Finding) : Prop where
  read : readJson rules.lone .free doc = .ok v
  review : IsReview v summary findings

namespace Spelled

variable (h : Spelled env.json doc v summary findings)

include h

/-- The document is lexed to its end. -/
theorem complete : (lex env.json.lone doc).2 = true :=
  (readJson_eq_ok.mp h.read).1

/-- The summary is shorter than its document. -/
theorem length_summary : summary.length < doc.length := by
  refine length_lt_of_lex h.complete ?_
  rw [← texts_of_readJson h.read]
  exact summary_mem_review h.review

/-- A document with a tick has findings or a tick in its summary. -/
theorem rich (htick : tick ∈ doc) : findings ≠ [] ∨ tick ∈ summary.toList := by
  obtain ⟨s, hs, hmem⟩ := exists_text_of_lex quotedOnly_tick h.complete htick
  rw [← texts_of_readJson h.read] at hs
  exact rich_of_tick h.review hs hmem

/-- A document is delimited. -/
theorem delimited : Delimited doc := by
  have hlength := h.length_summary
  constructor
  · cases doc with
    | nil => cases hlength
    | cons c rest =>
      refine ⟨c, rfl, ?_⟩
      rcases startsToken_of_lex h.complete with rfl | houter
      · decide
      · constructor <;>
        · rintro rfl
          revert houter
          decide
  · cases doc using List.reverseRec with
    | nil => cases hlength
    | append_singleton front c =>
      refine ⟨front, c, rfl, fun hmem => ?_⟩
      have hend := endsToken_of_lex h.complete
      have hlist : jsonFence.all (fun d => !endsToken d) = true := by decide
      have hnot := List.all_eq_true.mp hlist c hmem
      simp [hend] at hnot

/-- The document without the white space around it. -/
theorem strip : Spelled env.json (strip doc) v summary findings := by
  obtain ⟨before, after, heq, hbefore, hafter⟩ := exists_eq_strip doc
  have hcomplete := h.complete
  rw [heq] at hcomplete
  have hlex := lex_inert (fun c hc => inert_of_isSpace (hbefore c hc))
    (fun c hc => inert_of_isSpace (hafter c hc)) hcomplete
  rw [← heq] at hlex
  exact ⟨(readJson_congr hlex).trans h.read, h.review⟩

/-- **A document that is decoded whole** is read as the review, if its line numbers are. -/
theorem restates_iff (hdepth : 3 ≤ env.json.depth) :
    Restates env summary findings doc ↔ ReadableLines findings := by
  constructor
  · rintro ⟨data, hloads, -⟩ f hf n hn
    obtain ⟨w, hread, -⟩ := loads_eq_ok.mp hloads
    obtain ⟨hfree, hint⟩ := readJson_free hread
    rw [h.strip.read] at hfree
    cases hfree
    exact hint n ((int_mem_review h.review).mpr ⟨f, hf, hn⟩)
  · intro hlines
    refine ⟨v.value env.json.readFloat, loads_eq_ok.mpr ⟨v, ?_, rfl⟩, buildResult_document h.review⟩
    refine readJson_of_free h.strip.read (fun n hn => ?_) (fun k hk => ?_)
    · obtain ⟨f, hf, hline⟩ := (int_mem_review h.review).mp hn
      exact hlines f hf n hline
    · have hv := depth_review h.review
      exact decide_eq_true (by omega)

/-- **Alone.** -/
theorem parseResult_alone (hdepth : 3 ≤ env.json.depth) (hstdout : stdout.toList = doc) :
    env.parseResult stdout = .ok (reviewResult summary findings) ↔
      ¬ fence <:+: doc ∧ ReadableLines findings := by
  have hstrip := h.strip
  have hlong : summary.length < (Model.strip stdout.toList).length := by
    rw [hstdout]
    exact hstrip.length_summary
  have hfence : fence <:+: doc ↔ fence <:+: Model.strip doc := by
    obtain ⟨before, after, heq, hbefore, hafter⟩ := exists_eq_strip doc
    obtain ⟨front, c, hc, hlast⟩ := hstrip.delimited.last
    have hspace : isSpace tick = false := by decide
    have hb : tick ∉ before := fun hmem => by simp [hbefore tick hmem] at hspace
    have ha : ¬ fence <:+: after := absent_of_notMem fun hmem => by
      simp [hafter tick hmem] at hspace
    have hcfence : c ∉ fence := fun hmem => hlast (List.mem_append_left ['j', 's', 'o', 'n'] hmem)
    conv_lhs => rw [heq, List.append_assoc]
    have hback : fence <:+: Model.strip doc ++ after ↔ fence <:+: Model.strip doc := by
      rw [hc, List.append_assoc, List.singleton_append, occurs_append_cons fence_ne_nil hcfence,
        occurs_append_cons fence_ne_nil hcfence]
      simp [ha, fence_ne_nil]
    exact (occurs_append_of_head hb).trans hback
  have htick (hocc : fence <:+: Model.strip doc) : tick ∈ Model.strip doc :=
    hocc.subset List.mem_cons_self
  rw [hfence]
  by_cases hocc : fence <:+: Model.strip doc
  · refine iff_of_false ?_ fun hno => hno.1 hocc
    refine parseResult_stray hlong (hstrip.rich (htick hocc)) ?_
    rw [hstdout, cleanOutput]
    split_ifs with hjson hplain
    · exact stray_fenced hstrip.complete hocc
    · exact stray_lastPiece (by simp [tick]) hstrip.complete hocc
    · exact absurd (hasText_iff.mpr hocc) hplain
  · have hjson : ¬ jsonFence <:+: Model.strip doc := fun hjson =>
      hocc ((List.prefix_append fence jsonName).isInfix.trans hjson)
    have hclean : cleanOutput doc = Model.strip doc := by
      rw [cleanOutput, if_neg (by rwa [hasText_iff]), if_neg (by rwa [hasText_iff])]
    rw [parseResult_eq_iff hlong, hstdout, hclean, and_iff_right hocc]
    exact h.restates_iff hdepth

/-- **In a JSON fence.** -/
theorem parseResult_jsonFence {before after : List Char} (hdepth : 3 ≤ env.json.depth)
    (hbefore : tick ∉ before) (hafter : tick ∉ after)
    (hstdout : stdout.toList = before ++ (jsonFence ++ (doc ++ (fence ++ after)))) :
    env.parseResult stdout = .ok (reviewResult summary findings) ↔
      if jsonName <+: after then Restates env summary findings (after.drop 4)
      else ¬ fence <:+: doc ∧ ReadableLines findings := by
  have hlong : summary.length < (Model.strip stdout.toList).length := by
    rw [hstdout, strip_jsonFence]
    have hlength := h.length_summary
    simp only [List.length_append]
    omega
  have hclean := cleanOutput_jsonFence h.delimited hbefore hafter
  by_cases hname : jsonName <+: after
  · rw [if_pos hname] at hclean ⊢
    rw [parseResult_eq_iff hlong, hstdout, hclean]
    rfl
  rw [if_neg hname] at hclean ⊢
  by_cases hocc : fence <:+: doc
  · refine iff_of_false ?_ fun hno => hno.1 hocc
    refine parseResult_stray hlong (h.rich (hocc.subset List.mem_cons_self)) ?_
    rw [hstdout, hclean]
    exact stray_fenced h.complete hocc
  · have hjson : ¬ jsonFence <:+: doc := fun hjson =>
      hocc ((List.prefix_append fence jsonName).isInfix.trans hjson)
    rw [fenced, lastPiece_of_absent hjson, firstPiece_of_absent hocc] at hclean
    rw [parseResult_eq_iff hlong, hstdout, hclean, and_iff_right hocc]
    exact h.restates_iff hdepth

/-- **In a plain fence.** -/
theorem parseResult_plainFence {before after : List Char} (hbefore : tick ∉ before)
    (hafter : tick ∉ after)
    (hstdout : stdout.toList = before ++ (fence ++ (doc ++ (fence ++ after)))) :
    env.parseResult stdout = .ok (reviewResult summary findings) ↔
      if jsonName <+: after then Restates env summary findings (after.drop 4)
      else ¬ jsonFence <:+: doc ∧ Restates env summary findings after := by
  have hlong : summary.length < (Model.strip stdout.toList).length := by
    rw [hstdout, strip_fence]
    have hlength := h.length_summary
    simp only [List.length_append]
    omega
  have hclean := cleanOutput_fence h.delimited hbefore hafter
  by_cases hname : jsonName <+: after
  · rw [if_pos hname] at hclean ⊢
    rw [parseResult_eq_iff hlong, hstdout, hclean]
    rfl
  rw [if_neg hname] at hclean ⊢
  by_cases hjson : jsonFence <:+: doc
  · rw [if_pos hjson] at hclean
    have hocc : fence <:+: doc := (List.prefix_append fence jsonName).isInfix.trans hjson
    refine iff_of_false ?_ fun hno => hno.1 hjson
    refine parseResult_stray hlong (h.rich (hocc.subset List.mem_cons_self)) ?_
    rw [hstdout, hclean]
    exact stray_fenced h.complete hocc
  · rw [if_neg hjson] at hclean
    rw [parseResult_eq_iff hlong, hstdout, hclean, and_iff_right hjson]
    rfl

end Spelled

end Review

/-- **When the agent's output comes back**: the result is the review that was written exactly if
the document comes through the stripping of the fences. -/
theorem RunnerEnv.parseResult_comesThrough {env : RunnerEnv} {doc summary : String}
    {findings : List Finding} {w : Wrapping} (hdepth : 3 ≤ env.json.depth)
    (hdoc : IsDocument env.json doc summary findings) (hw : w.Prose) :
    env.parseResult (w.wrap doc) = .ok (reviewResult summary findings) ↔
      ComesThrough env doc summary findings w := by
  obtain ⟨v, hread, hreview⟩ := hdoc
  have hspelled : Spelled env.json doc.toList v summary findings := ⟨hread, hreview⟩
  have hjson : "```json".toList = jsonFence := by decide
  have hplain : "```".toList = fence := by decide
  cases w with
  | alone => exact hspelled.parseResult_alone hdepth rfl
  | jsonFence before after =>
    refine hspelled.parseResult_jsonFence hdepth hw.1 hw.2 ?_
    simp [Wrapping.wrap, String.toList_append, hjson, hplain]
  | plainFence before after =>
    refine hspelled.parseResult_plainFence hw.1 hw.2 ?_
    simp [Wrapping.wrap, String.toList_append, hplain]

/-- A finding, and a document of a review with it. -/
def leak : Finding where
  path := "a.py"
  line := some 3
  severity := .high
  title := "XSS"
  detail := "sink"
  type := "security"

/-- A document with one finding. -/
def leakDoc : String :=
  "\n\x7b\"findings\": [\x7b\"path\": \"a.py\", \"line\": 3, \"severity\": \"high\", " ++
    "\"title\": \"XSS\", \"detail\": \"sink\", \"type\": \"security\"\x7d],\n " ++
    "\"summary\": \"Fix this.\"\x7d\n"

/-- It is a document of its summary and finding. -/
theorem leakDoc_isDocument : IsDocument plainRunner.json leakDoc "Fix this." [leak] := by
  have hlex : lex plainRunner.json.lone leakDoc.toList =
      ([.openObj, .str "findings", .colon, .openArr, .openObj, .str "path", .colon, .str "a.py",
        .comma, .str "line", .colon, .int 3, .comma, .str "severity", .colon, .str "high", .comma,
        .str "title", .colon, .str "XSS", .comma, .str "detail", .colon, .str "sink", .comma,
        .str "type", .colon, .str "security", .closeObj, .closeArr, .comma, .str "summary",
        .colon, .str "Fix this.", .closeObj], true) := by
    decide +kernel
  refine ⟨.obj [("findings", .arr [.obj leak.entries]), ("summary", .str "Fix this.")],
    readJson_eq_ok.mpr ⟨by rw [hlex], by rw [hlex]; rfl⟩, [.obj leak.entries], _, rfl, ?_,
    List.Perm.swap _ _ _⟩
  exact .cons ⟨leak.entries, rfl, List.Perm.refl _⟩ .nil

/-- In a JSON fence, between prose. -/
theorem parseResult_comesThrough_leak :
    plainRunner.parseResult ((Wrapping.jsonFence "The review:\n" "\nDone.").wrap leakDoc) =
      .ok (reviewResult "Fix this." [leak]) := by
  have hprose : (Wrapping.jsonFence "The review:\n" "\nDone.").Prose :=
    ⟨by decide +kernel, by decide +kernel⟩
  refine (RunnerEnv.parseResult_comesThrough (by decide) leakDoc_isDocument hprose).mpr ?_
  rw [ComesThrough, if_neg (by decide +kernel)]
  refine ⟨by decide +kernel, ?_⟩
  intro f hf n hn
  cases List.mem_singleton.mp hf
  cases hn
  decide

/-- The same document in a plain fence does not come back: what is decoded is the empty text after
the fence. -/
theorem plain_fence_lost :
    IsDocument plainRunner.json leakDoc "Fix this." [leak] ∧
      plainRunner.parseResult ((Wrapping.plainFence "" "").wrap leakDoc) ≠
        .ok (reviewResult "Fix this." [leak]) := by
  refine ⟨leakDoc_isDocument, fun h => ?_⟩
  have hfindings := congrArg (fun r => r.map fun result => result.findings.length) h
  revert hfindings
  decide +kernel

end PrReviewer.Model
