import PrReviewer.Analysis.FailClosed
import PrReviewer.Model.AgentOutput

/-!
# When the agent's output is parsed

`_parse_result` catches a text that is not JSON. A text that is JSON decides by its shape: every
element of `findings` has to be an object, and nothing else has to be anything, since every
value of a decoded text prints.
-/

set_option autoImplicit false

namespace PrReviewer.Model

open Library

/-- A loop over the value meets objects only. -/
def ListsObjects : Value → Prop
  | .list items => ∀ f ∈ items, f.isMap = true
  | .map entries => entries = []
  | .scalar (.str s) => s = ""
  | .scalar (.bytes data) => data = []
  | .scalar _ => False

/-- The shape of a review: an object, with a list of objects as its `findings` if it has any. -/
def ReviewShaped (data : Value) : Prop :=
  data.isMap = true ∧ ListsObjects (data.getD "findings" (.list []))

/-- What `json.loads` may do with the text: report that it is not JSON, or return a review. -/
def Accepted : Except JsonError Value → Prop
  | .ok data => ReviewShaped data
  | .error e => e = .malformed

/-! ## Values that print -/

/-- The items of a printable list are printable. -/
theorem printable_of_mem_items {items : List Value} (h : Value.printableItems items = true) :
    ∀ v ∈ items, v.printable = true := by
  induction items with
  | nil => simp
  | cons v items ih =>
    rw [Value.printableItems, Bool.and_eq_true] at h
    exact List.forall_mem_cons.mpr ⟨h.1, ih h.2⟩

/-- The values of a printable map are printable. -/
theorem printable_of_pair? {entries : List (Scalar × Value)} {key : Scalar} {v : Value}
    (h : Value.printableEntries entries = true) (hv : Value.pair? entries key = some v) :
    v.printable = true := by
  induction entries with
  | nil => cases hv
  | cons e entries ih =>
    obtain ⟨name, w⟩ := e
    simp only [Value.printableEntries, Bool.and_eq_true] at h
    rw [Value.pair?_cons] at hv
    split_ifs at hv
    · cases hv
      exact h.1.2
    · exact ih h.2 hv

/-- What is found in a printable map is printable, if the default is. -/
theorem printable_getD {v d : Value} {key : String} (hv : v.printable = true)
    (hd : d.printable = true) : (v.getD key d).printable = true := by
  cases v with
  | scalar s => exact hd
  | list items => exact hd
  | map entries =>
    show ((Value.pair? entries (.str key)).getD d).printable = true
    cases hpair : Value.pair? entries (.str key) with
    | none => exact hd
    | some w => exact printable_of_pair? hv hpair

/-! ## The parser -/

section Parser

variable {rules : TextRules}

/-- A text is read from a printable value exactly when the value is a map. -/
theorem runs_readText {v : Value} {key default : String} (hv : v.printable = true) :
    Runs (readText rules v key default) ↔ v.isMap = true := by
  unfold readText
  rw [Value.runs_bind_get, Value.runs_text]
  exact and_iff_left (printable_getD hv rfl)

/-- What follows the reading of a text from a map runs if it runs on every text. -/
theorem runs_readText_bind {β : Type} {v : Value} {key default : String}
    {f : String → Except PyError β} (hv : v.printable = true) (hmap : v.isMap = true)
    (hf : ∀ t, Runs (f t)) : Runs (readText rules v key default >>= f) := by
  obtain ⟨t, ht⟩ := (@runs_readText rules v key default hv).mpr hmap
  exact runs_bind.mpr ⟨t, ht, hf t⟩

/-- An element of `findings` has to be an object. -/
theorem runs_parseFinding {f : Value} (hf : f.printable = true) :
    Runs (parseFinding rules f) ↔ f.isMap = true := by
  unfold parseFinding
  constructor
  · intro h
    obtain ⟨path, hpath, -⟩ := runs_bind.mp h
    exact (runs_readText hf).mp ⟨path, hpath⟩
  · intro hmap
    refine runs_readText_bind hf hmap fun path => ?_
    rw [Value.runs_bind_get, Value.runs_bind_get]
    refine ⟨hmap, hmap, ?_⟩
    refine runs_readText_bind hf hmap fun title => ?_
    refine runs_readText_bind hf hmap fun detail => ?_
    exact runs_readText_bind hf hmap fun type => runs_pure _

section Loop

variable {β : Type} {f : Value → Except PyError β}

/-- A loop over characters, keys or bytes meets no object. -/
theorem runs_loop_scalars (hf : ∀ s, ¬ Runs (f (.scalar s))) (ss : List Scalar) :
    Runs ((ss.map Value.scalar).mapM f) ↔ ss = [] := by
  rw [runs_mapM, List.forall_mem_map]
  constructor
  · intro h
    cases ss with
    | nil => rfl
    | cons s ss => exact absurd (h s List.mem_cons_self) (hf s)
  · rintro rfl
    simp

/-- A loop that takes nothing but objects. -/
theorem runs_loop_objects {v : Value} (hf : ∀ s, ¬ Runs (f (.scalar s)))
    (hitems : ∀ items, v = .list items → ∀ w ∈ items, (Runs (f w) ↔ w.isMap = true)) :
    Runs (v.iterate >>= fun items => items.mapM f) ↔ ListsObjects v := by
  cases v with
  | list items =>
    show Runs (items.mapM _) ↔ ∀ w ∈ items, w.isMap = true
    rw [runs_mapM]
    exact forall₂_congr (hitems items rfl)
  | map entries =>
    show Runs ((entries.map fun e => Value.scalar e.1).mapM _) ↔ entries = []
    have hkeys := runs_loop_scalars hf (entries.map Prod.fst)
    rwa [List.map_map, List.map_eq_nil_iff] at hkeys
  | scalar s =>
    cases s with
    | str s =>
      show Runs ((s.toList.map fun c => Value.ofText (String.ofList [c])).mapM _) ↔ s = ""
      have hchars := runs_loop_scalars hf (s.toList.map fun c => .str (String.ofList [c]))
      rwa [List.map_map, List.map_eq_nil_iff, String.toList_eq_nil_iff] at hchars
    | bytes data =>
      show Runs ((data.map fun b => Value.scalar (.int b.toNat)).mapM _) ↔ data = []
      have hbytes := runs_loop_scalars hf (data.map fun b => .int b.toNat)
      rwa [List.map_map, List.map_eq_nil_iff] at hbytes
    | null => exact iff_of_false (not_runs_error _) id
    | bool b => exact iff_of_false (not_runs_error _) id
    | int n => exact iff_of_false (not_runs_error _) id
    | float x => exact iff_of_false (not_runs_error _) id
    | stamp instant => exact iff_of_false (not_runs_error _) id

end Loop

/-- The loop over `findings`. -/
theorem runs_findings (rules : TextRules) {v : Value} (hv : v.printable = true) :
    Runs (v.iterate >>= fun items => items.mapM (parseFinding rules)) ↔ ListsObjects v := by
  apply runs_loop_objects
  · exact fun s => not_runs_error _
  · rintro items rfl f hf
    exact runs_parseFinding (printable_of_mem_items hv f hf)

/-- **A decoded text is built into a result** exactly if it has the shape of a review. -/
theorem runs_buildResult (rules : TextRules) {data : Value} (hdata : data.printable = true) :
    Runs (buildResult rules data) ↔ ReviewShaped data := by
  unfold buildResult ReviewShaped
  rw [Value.runs_bind_get]
  refine and_congr_right fun hmap => ?_
  have hlist : (data.getD "findings" (.list [])).printable = true := printable_getD hdata rfl
  rw [← runs_findings rules hlist, runs_bind, runs_bind]
  refine exists_congr fun items => and_congr_right fun _ => ?_
  rw [runs_bind_of_iff (p := True), and_true]
  exact fun findings _ => iff_true_intro
    (runs_readText_bind hdata hmap fun summary => runs_pure _)

end Parser

/-- A decoded text is returned if it is a review. -/
theorem RunnerEnv.runs_of_decoded {env : RunnerEnv} {stdout : String} {data : Value}
    (hloads : env.json.loads (cleanOutput stdout.toList) = .ok data) :
    Runs (env.parseResult stdout) ↔ ReviewShaped data := by
  unfold parseResult
  rw [hloads]
  show Runs ((buildResult env.text data).mapError _) ↔ ReviewShaped data
  rw [runs_mapError]
  exact runs_buildResult env.text (JsonRules.printable_of_loads hloads)

/-- Of what `json.loads` raises, `_parse_result` catches the `JSONDecodeError`. -/
theorem RunnerEnv.runs_of_undecoded {env : RunnerEnv} {stdout : String} {e : JsonError}
    (hloads : env.json.loads (cleanOutput stdout.toList) = .error e) :
    Runs (env.parseResult stdout) ↔ e = .malformed := by
  unfold parseResult
  rw [hloads]
  cases e with
  | malformed => exact iff_of_true ⟨_, rfl⟩ rfl
  | longInt => exact iff_of_false (not_runs_error _) (by simp)
  | tooDeep => exact iff_of_false (not_runs_error _) (by simp)

/-- **`_parse_result` returns** exactly if the text it decodes is not JSON or is a review. -/
theorem RunnerEnv.parseResult_runs_iff (env : RunnerEnv) (stdout : String) :
    Runs (env.parseResult stdout) ↔ Accepted (env.json.loads (cleanOutput stdout.toList)) := by
  cases hloads : env.json.loads (cleanOutput stdout.toList) with
  | ok data => exact runs_of_decoded hloads
  | error e => exact runs_of_undecoded hloads

/-- A runner whose interpreter nests a thousand containers. -/
def plainRunner : RunnerEnv where
  json := { lone := fun _ => '?', readFloat := fun _ => .nan, depth := 1000 }
  text := Load.plainRules

/-- A review whose `findings` are `null` raises a `TypeError`. -/
theorem null_findings_crash :
    ¬ Runs (plainRunner.parseResult
      "\x7b\"summary\": \"Fine.\", \"findings\": null\x7d") := by
  decide +kernel

end PrReviewer.Model
