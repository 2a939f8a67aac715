import Mathlib.Data.List.Forall2
import Mathlib.Data.Rat.Defs

/-!
# Dynamic values

The values a parser of a data language hands to a Python program: null, booleans, numbers,
strings, bytes, dates, lists and mappings with scalar keys, and the operations programs use on them before
they know what they have. An operation on a value of the wrong type raises, so each of them
returns an `Except`, and each comes with the exact condition under which it returns.

How floating-point numbers, bytes, dates and containers are written, and which texts `int`
reads, are parameters.
-/

set_option autoImplicit false

namespace PrReviewer.Library

/-- The built-in exceptions the operations raise. -/
inductive PyError
  | attribute
  | type
  | value
  | overflow
  | key
  | recursion
  deriving DecidableEq, Repr

/-! ## Computations that may raise -/

section Runs

variable {ε α β : Type}

/-- The computation returns. -/
def Runs (x : Except ε α) : Prop :=
  ∃ a, x = .ok a

/-- A result runs. -/
@[simp] theorem runs_ok (a : α) : Runs (.ok a : Except ε α) :=
  ⟨a, rfl⟩

/-- A pure value runs. -/
@[simp] theorem runs_pure (a : α) : Runs (pure a : Except ε α) :=
  ⟨a, rfl⟩

/-- An error does not run. -/
@[simp] theorem not_runs_error (e : ε) : ¬ Runs (.error e : Except ε α) := by
  rintro ⟨a, h⟩
  cases h

/-- Whether a computation runs can be decided. -/
instance decidableRuns : (x : Except ε α) → Decidable (Runs x)
  | .ok a => isTrue (runs_ok a)
  | .error e => isFalse (not_runs_error e)

/-- A sequence has a result exactly when its two parts have. -/
theorem bind_eq_ok {x : Except ε α} {f : α → Except ε β} {b : β} :
    x >>= f = .ok b ↔ ∃ a, x = .ok a ∧ f a = .ok b := by
  cases x with
  | error e =>
    constructor
    · intro h
      cases h
    · rintro ⟨a, h, -⟩
      cases h
  | ok a =>
    constructor
    · exact fun h => ⟨a, rfl, h⟩
    · rintro ⟨a', h, hf⟩
      cases h
      exact hf

/-- **The rule for a sequence of computations.** -/
theorem runs_bind {x : Except ε α} {f : α → Except ε β} :
    Runs (x >>= f) ↔ ∃ a, x = .ok a ∧ Runs (f a) := by
  constructor
  · rintro ⟨b, hb⟩
    obtain ⟨a, ha, hf⟩ := bind_eq_ok.mp hb
    exact ⟨a, ha, b, hf⟩
  · rintro ⟨a, ha, b, hf⟩
    exact ⟨b, bind_eq_ok.mpr ⟨a, ha, hf⟩⟩

/-- Mapping the result leaves whether a computation runs. -/
theorem runs_map {x : Except ε α} {f : α → β} : Runs (x.map f) ↔ Runs x := by
  cases x with
  | ok a => exact iff_of_true ⟨f a, rfl⟩ ⟨a, rfl⟩
  | error e => exact iff_of_false (not_runs_error e) (not_runs_error e)

/-- Another name for what is raised changes nothing about whether it is. -/
theorem runs_mapError {δ : Type} {x : Except ε α} {f : ε → δ} : Runs (x.mapError f) ↔ Runs x := by
  cases x with
  | ok a => exact iff_of_true ⟨a, rfl⟩ ⟨a, rfl⟩
  | error e => exact iff_of_false (not_runs_error (f e)) (not_runs_error e)

/-- The rule where the rest does not depend on the result. -/
theorem runs_bind_of_iff {x : Except ε α} {f : α → Except ε β} {p : Prop}
    (h : ∀ a, x = .ok a → (Runs (f a) ↔ p)) : Runs (x >>= f) ↔ Runs x ∧ p := by
  rw [runs_bind]
  constructor
  · rintro ⟨a, ha, hf⟩
    exact ⟨⟨a, ha⟩, (h a ha).mp hf⟩
  · rintro ⟨⟨a, ha⟩, hp⟩
    exact ⟨a, ha, (h a ha).mpr hp⟩

/-- A loop over a list returns exactly if it does on every element. -/
theorem runs_mapM {l : List α} {f : α → Except ε β} :
    Runs (l.mapM f) ↔ ∀ a ∈ l, Runs (f a) := by
  induction l with
  | nil => simp
  | cons a l ih =>
    rw [List.mapM_cons, runs_bind_of_iff (p := ∀ a ∈ l, Runs (f a))]
    · simp
    · intro b _
      rw [runs_bind_of_iff (p := True), ih, and_true]
      exact fun _ _ => iff_true_intro (runs_pure _)

/-- The results of a loop, one for one. -/
theorem mapM_eq_ok {l : List α} {f : α → Except ε β} {bs : List β} :
    l.mapM f = .ok bs ↔ List.Forall₂ (fun a b => f a = .ok b) l bs := by
  induction l generalizing bs with
  | nil =>
    rw [List.mapM_nil, List.forall₂_nil_left_iff]
    constructor
    · intro h
      cases h
      rfl
    · rintro rfl
      rfl
  | cons a l ih =>
    rw [List.mapM_cons, bind_eq_ok, List.forall₂_cons_left_iff]
    constructor
    · rintro ⟨b, hb, hrest⟩
      obtain ⟨bs', hbs', hpure⟩ := bind_eq_ok.mp hrest
      cases hpure
      exact ⟨b, bs', hb, ih.mp hbs', rfl⟩
    · rintro ⟨b, bs', hb, hbs', rfl⟩
      exact ⟨b, hb, bind_eq_ok.mpr ⟨bs', ih.mpr hbs', rfl⟩⟩

/-- A loop raises what its first turn that does not return raises. -/
theorem mapM_eq_error {l : List α} {f : α → Except ε β} {e : ε} :
    l.mapM f = .error e ↔ ∃ before a after, l = before ++ a :: after ∧
      (∀ b ∈ before, Runs (f b)) ∧ f a = .error e := by
  induction l with
  | nil =>
    constructor
    · intro h
      cases h
    · rintro ⟨before, a, after, h, -⟩
      exact absurd h (by simp)
  | cons a l ih =>
    rw [List.mapM_cons]
    cases hfa : f a with
    | error e' =>
      constructor
      · intro h
        cases h
        exact ⟨[], a, l, rfl, by simp, hfa⟩
      · rintro ⟨before, b, after, hl, hbefore, hb⟩
        cases before with
        | nil =>
          cases hl
          rw [hfa] at hb
          cases hb
          rfl
        | cons c before =>
          cases hl
          exact absurd (hbefore a List.mem_cons_self) (by simp [hfa])
    | ok b =>
      have hloop : (do let bs ← l.mapM f; pure (b :: bs)) = Except.error e ↔
          l.mapM f = .error e := by
        cases l.mapM f with
        | ok bs => exact iff_of_false (by intro h; cases h) (by intro h; cases h)
        | error e' => exact ⟨fun h => by cases h; rfl, fun h => by cases h; rfl⟩
      refine hloop.trans (ih.trans ?_)
      constructor
      · rintro ⟨before, x, after, hl, hbefore, hx⟩
        refine ⟨a :: before, x, after, by rw [hl, List.cons_append], ?_, hx⟩
        exact List.forall_mem_cons.mpr ⟨⟨b, hfa⟩, hbefore⟩
      · rintro ⟨before, x, after, hl, hbefore, hx⟩
        cases before with
        | nil =>
          cases hl
          rw [hfa] at hx
          cases hx
        | cons c before =>
          cases hl
          exact ⟨before, x, after, rfl, (List.forall_mem_cons.mp hbefore).2, hx⟩

/-- Every result of a loop is that of one of its turns. -/
theorem exists_of_mem_mapM {l : List α} {f : α → Except ε β} {bs : List β}
    (h : l.mapM f = .ok bs) {b : β} (hb : b ∈ bs) : ∃ a ∈ l, f a = .ok b := by
  have hall := mapM_eq_ok.mp h
  clear h
  induction hall with
  | nil => cases hb
  | @cons a b' l bs hab _ ih =>
    rcases List.mem_cons.mp hb with rfl | hb
    · exact ⟨a, List.mem_cons_self, hab⟩
    · obtain ⟨a', ha', hfa⟩ := ih hb
      exact ⟨a', List.mem_cons_of_mem _ ha', hfa⟩

end Runs

/-! ## Values -/

/-- A floating-point number. -/
inductive Floating
  | nan
  | infinite (negative : Bool)
  | finite (x : Rat)
  deriving DecidableEq, Repr

/-- The values without parts. -/
inductive Scalar
  | null
  | bool (b : Bool)
  | int (n : Int)
  | float (x : Floating)
  | str (s : String)
  | bytes (data : List UInt8)
  /-- a date or a time, by the instant it stands for -/
  | stamp (instant : Nat)
  deriving DecidableEq, Repr

/-- The values of a dynamically typed program, as far as they come from a document. -/
inductive Value
  | scalar (s : Scalar)
  | list (items : List Value)
  /-- the entries in insertion order -/
  | map (entries : List (Scalar × Value))
  deriving Repr

/-- How values are written and read as text. -/
structure TextRules where
  /-- `str` of a floating-point number -/
  floatText : Floating → String
  /-- `str` of bytes -/
  bytesText : List UInt8 → String
  /-- `str` of a date or a time -/
  stampText : Nat → String
  /-- `str` of a list or mapping -/
  containerText : Value → String
  /-- `int` of a text; `none` where it raises -/
  readInt : String → Option Int
  /-- `int` of bytes; `none` where it raises -/
  readBytes : List UInt8 → Option Int
  /-- whether a text can be encoded: none with a surrogate that has no partner can -/
  encodes : String → Bool
  floatText_ne : ∀ x, floatText x ≠ ""
  bytesText_ne : ∀ data, bytesText data ≠ ""
  stampText_ne : ∀ instant, stampText instant ≠ ""
  containerText_ne : ∀ v, containerText v ≠ ""

/-- The number a scalar compares as. -/
def Scalar.number : Scalar → Option Floating
  | bool b => some (.finite (if b then 1 else 0))
  | int n => some (.finite n)
  | float x => some x
  | _ => none

/-- `a == b`, and the equality of keys. A `nan` equals nothing. -/
def Scalar.same (a b : Scalar) : Bool :=
  match a.number, b.number with
  | some .nan, _ => false
  | some x, some y => decide (x = y)
  | none, none => decide (a = b)
  | _, _ => false

/-- Two texts are the same exactly when they are equal. -/
@[simp] theorem Scalar.same_str (s t : String) : (Scalar.str s).same (.str t) = decide (s = t) := by
  simp [same, number]

/-- A scalar that equals a text is that text. -/
theorem Scalar.eq_str_of_same {s : Scalar} {t : String}
    (h : s.same (.str t) = true) : s = .str t := by
  unfold same at h
  cases s with
  | str s =>
    have heq : Scalar.str s = Scalar.str t := by simpa [number] using h
    exact heq
  | null => simp [number] at h
  | bool b => simp [number] at h
  | int n => simp [number] at h
  | float x => cases x <;> simp [number] at h
  | bytes data => simp [number] at h
  | stamp instant => simp [number] at h

/-- `str` of an integer raises beyond 4300 digits. -/
def Scalar.printable : Scalar → Bool
  | int n => decide ((Nat.toDigits 10 n.natAbs).length ≤ 4300)
  | _ => true

/-- `str` -/
def Scalar.text (rules : TextRules) (s : Scalar) : Except PyError String :=
  if s.printable then
    .ok (match s with
      | null => "None"
      | bool b => if b then "True" else "False"
      | int n => toString n
      | float x => rules.floatText x
      | str s => s
      | bytes data => rules.bytesText data
      | stamp instant => rules.stampText instant)
  else .error .value

/-- A scalar is made a text exactly when it is printable. -/
theorem Scalar.runs_text {rules : TextRules} {s : Scalar} :
    Runs (s.text rules) ↔ s.printable = true := by
  unfold text
  split
  · rename_i h
    simp [h]
  · rename_i h
    simp [h]

namespace Value

/-- The empty map. -/
def empty : Value :=
  .map []

/-- A text as a value. -/
def ofText (s : String) : Value :=
  .scalar (.str s)

/-- `bool(v)` -/
def truthy : Value → Bool
  | scalar .null => false
  | scalar (.bool b) => b
  | scalar (.int n) => decide (n ≠ 0)
  | scalar (.float (.finite x)) => decide (x ≠ 0)
  | scalar (.float _) => true
  | scalar (.str s) => decide (s ≠ "")
  | scalar (.bytes data) => !data.isEmpty
  | scalar (.stamp _) => true
  | list items => !items.isEmpty
  | map entries => !entries.isEmpty

/-- `v or d` -/
def orElse (v d : Value) : Value :=
  if v.truthy then v else d

/-- `isinstance(v, dict)` -/
def isMap : Value → Bool
  | map _ => true
  | _ => false

/-- `isinstance(v, list)` -/
def isList : Value → Bool
  | list _ => true
  | _ => false

/-- `hash(v)` returns. -/
def hashable : Value → Bool
  | scalar _ => true
  | _ => false

/-- The entry of a mapping under a key. -/
def pair? (entries : List (Scalar × Value)) (key : Scalar) : Option Value :=
  (entries.find? fun e => e.1.same key).map Prod.snd

/-- `v.get(key, d)` -/
def get (v : Value) (key : String) (d : Value) : Except PyError Value :=
  match v with
  | map entries => .ok ((pair? entries (.str key)).getD d)
  | _ => .error .attribute

/-- What `.get(key, d)` returns of a mapping. -/
def getD (v : Value) (key : String) (d : Value) : Value :=
  match v with
  | map entries => (pair? entries (.str key)).getD d
  | _ => d

/-- `get` has a result exactly on a map. -/
theorem get_eq_ok {v r d : Value} {key : String} :
    v.get key d = .ok r ↔ v.isMap = true ∧ v.getD key d = r := by
  cases v with
  | map entries => simp [get, getD, isMap]
  | scalar s => simp [get, isMap]
  | list items => simp [get, isMap]

/-- `get` runs exactly on a map. -/
theorem runs_get {v d : Value} {key : String} : Runs (v.get key d) ↔ v.isMap = true := by
  cases v with
  | map entries => simp [get, isMap]
  | scalar s => simp [get, isMap]
  | list items => simp [get, isMap]

/-- What follows `get` runs exactly on a map, with what it finds. -/
theorem runs_bind_get {β : Type} {v d : Value} {key : String} {f : Value → Except PyError β} :
    Runs (v.get key d >>= f) ↔ v.isMap = true ∧ Runs (f (v.getD key d)) := by
  rw [runs_bind]
  constructor
  · rintro ⟨a, ha, hf⟩
    obtain ⟨hmap, rfl⟩ := get_eq_ok.mp ha
    exact ⟨hmap, hf⟩
  · rintro ⟨hmap, hf⟩
    exact ⟨_, get_eq_ok.mpr ⟨hmap, rfl⟩, hf⟩

mutual

/-- No integer in the value has more than 4300 digits. -/
def printable : Value → Bool
  | scalar s => s.printable
  | list items => printableItems items
  | map entries => printableEntries entries

/-- Whether the items can be printed. -/
def printableItems : List Value → Bool
  | [] => true
  | v :: items => v.printable && printableItems items

/-- Whether the keys and values can be printed. -/
def printableEntries : List (Scalar × Value) → Bool
  | [] => true
  | (key, v) :: entries => key.printable && v.printable && printableEntries entries

end

/-- `str(v)` -/
def text (rules : TextRules) (v : Value) : Except PyError String :=
  match v with
  | scalar s => s.text rules
  | v => if v.printable then .ok (rules.containerText v) else .error .value

/-- A value is made a text exactly when it is printable. -/
theorem runs_text {rules : TextRules} {v : Value} : Runs (v.text rules) ↔ v.printable = true := by
  cases v with
  | scalar s =>
    unfold text printable
    exact Scalar.runs_text
  | list items =>
    show Runs (if (list items).printable then _ else _) ↔ _
    split <;> simp_all
  | map entries =>
    show Runs (if (map entries).printable then _ else _) ↔ _
    split <;> simp_all

/-- What is true has a text. -/
theorem text_ne_empty {rules : TextRules} {v : Value} {t : String} (ht : v.truthy = true)
    (h : v.text rules = .ok t) : t ≠ "" := by
  cases v with
  | list items =>
    change (if (list items).printable then _ else _) = _ at h
    split at h
    · cases h
      exact rules.containerText_ne _
    · cases h
  | map entries =>
    change (if (map entries).printable then _ else _) = _ at h
    split at h
    · cases h
      exact rules.containerText_ne _
    · cases h
  | scalar s =>
    change s.text rules = _ at h
    unfold Scalar.text at h
    split at h
    · cases h
      cases s with
      | null => cases ht
      | bool b => cases b <;> simp
      | int n =>
        show toString n ≠ ""
        rw [Int.toString_eq_repr, Int.repr_eq_if]
        split
        · exact Nat.repr_ne_empty
        · intro hempty
          have hlength := congrArg String.length hempty
          simp at hlength
      | float x => exact rules.floatText_ne x
      | str s => simpa [truthy] using ht
      | bytes data => exact rules.bytesText_ne data
      | stamp instant => exact rules.stampText_ne instant
    · cases h

/-- A field that is true is there, whatever it would default to. -/
theorem getD_of_truthy {v : Value} {key : String} (h : (v.getD key (scalar .null)).truthy = true)
    (d : Value) : v.getD key d = v.getD key (scalar .null) := by
  cases v with
  | scalar s => cases h
  | list items => cases h
  | map entries =>
    change ((pair? entries (.str key)).getD _).truthy = true at h
    show (pair? entries (.str key)).getD d = (pair? entries (.str key)).getD _
    cases hfind : pair? entries (.str key) with
    | none =>
      rw [hfind] at h
      cases h
    | some found => rfl

/-- `int(v)` -/
def toInt (rules : TextRules) : Value → Except PyError Int
  | scalar (.bool b) => .ok (if b then 1 else 0)
  | scalar (.int n) => .ok n
  | scalar (.float .nan) => .error .value
  | scalar (.float (.infinite _)) => .error .overflow
  | scalar (.float (.finite x)) => .ok (x.num.tdiv x.den)
  | scalar (.str s) =>
    match rules.readInt s with
    | some n => .ok n
    | none => .error .value
  | scalar (.bytes data) =>
    match rules.readBytes data with
    | some n => .ok n
    | none => .error .value
  | scalar (.stamp _) => .error .type
  | scalar .null => .error .type
  | list _ => .error .type
  | map _ => .error .type

/-- `int(v)` returns. -/
def readsInt (rules : TextRules) : Value → Bool
  | scalar (.bool _) => true
  | scalar (.int _) => true
  | scalar (.float (.finite _)) => true
  | scalar (.str s) => (rules.readInt s).isSome
  | scalar (.bytes data) => (rules.readBytes data).isSome
  | _ => false

/-- A value is made a number exactly when it reads as one. -/
theorem runs_toInt {rules : TextRules} {v : Value} :
    Runs (v.toInt rules) ↔ v.readsInt rules = true := by
  cases v with
  | list items => simp [toInt, readsInt]
  | map entries => simp [toInt, readsInt]
  | scalar s =>
    cases s with
    | null => simp [toInt, readsInt]
    | bool b => simp [toInt, readsInt]
    | int n => simp [toInt, readsInt]
    | float x => cases x <;> simp [toInt, readsInt]
    | str s => cases h : rules.readInt s <;> simp [toInt, readsInt, h]
    | bytes data => cases h : rules.readBytes data <;> simp [toInt, readsInt, h]
    | stamp instant => simp [toInt, readsInt]

/-- What a loop over the value goes through. -/
def iterate : Value → Except PyError (List Value)
  | list items => .ok items
  | map entries => .ok (entries.map fun e => .scalar e.1)
  | scalar (.str s) => .ok (s.toList.map fun c => ofText (String.ofList [c]))
  | scalar (.bytes data) => .ok (data.map fun b => .scalar (.int b.toNat))
  | scalar _ => .error .type

/-- A loop over the value can be begun. -/
def iterable : Value → Bool
  | list _ => true
  | map _ => true
  | scalar (.str _) => true
  | scalar (.bytes _) => true
  | scalar _ => false

/-- A value is iterated exactly when it is iterable. -/
theorem runs_iterate {v : Value} : Runs v.iterate ↔ v.iterable = true := by
  cases v with
  | list items => simp [iterate, iterable]
  | map entries => simp [iterate, iterable]
  | scalar s => cases s <;> simp [iterate, iterable]

/-- `v in mapping`, for the entry found; it raises on a key without a hash. -/
def lookup {β : Type} (v : Value) (mapping : List (Scalar × β)) :
    Except PyError (Option β) :=
  match v with
  | scalar key => .ok ((mapping.find? fun e => e.1.same key).map Prod.snd)
  | _ => .error .type

/-- A value is looked up exactly when it is hashable. -/
theorem runs_lookup {β : Type} {v : Value} {mapping : List (Scalar × β)} :
    Runs (v.lookup mapping) ↔ v.hashable = true := by
  cases v with
  | scalar s => simp [lookup, hashable]
  | list items => simp [lookup, hashable]
  | map entries => simp [lookup, hashable]

end Value

end PrReviewer.Library
