import PrReviewer.Library.Dynamic
import PrReviewer.Library.Pieces

/-!
# Written JSON, and where its characters come from

How `json.dumps` writes a value that can be serialised, with the characters outside ASCII as they
are. A written character carries a mark, which says whether it comes from the value or from the
writer; `Exposes` is the occurrence of a pattern among marked characters. Since a writer's character
stands between any two keys and scalars, what a written value shows is what one of these shows.

The text of a finite floating-point number is a parameter. The limit on the nesting of
containers is left out.
-/

set_option autoImplicit false

namespace PrReviewer.Library

/-! ## Marked text -/

/-- A text whose characters are marked or not. -/
abbrev Marked : Type := List (Char × Bool)

/-- A text with the same mark on every character. -/
def mark (m : Bool) (cs : List Char) : Marked :=
  cs.map fun c => (c, m)

/-- The pattern occurs among marked characters. -/
def Exposes (pat : List Char) (text : Marked) : Prop :=
  mark true pat <:+: text

section Exposes

variable {pat : List Char}

/-- Marking a text that is not empty leaves something. -/
theorem mark_ne_nil {m : Bool} (hpat : pat ≠ []) : mark m pat ≠ [] := by
  simpa [mark] using hpat

/-- An unmarked character is none of the marked. -/
theorem plain_notMem (c : Char) : (c, false) ∉ mark true pat := by
  intro h
  obtain ⟨c', -, heq⟩ := List.mem_map.mp h
  cases heq

/-- The empty text exposes nothing. -/
theorem not_exposes_nil (hpat : pat ≠ []) : ¬ Exposes pat [] := by
  intro h
  exact mark_ne_nil hpat (List.infix_nil.mp h)

/-- Unmarked characters in front expose nothing more. -/
theorem exposes_plain_append (hpat : pat ≠ []) (cs : List Char) (text : Marked) :
    Exposes pat (mark false cs ++ text) ↔ Exposes pat text := by
  induction cs with
  | nil => exact Iff.rfl
  | cons c cs ih =>
    have hstep := @occurs_append_cons _ (mark true pat) [] (mark false cs ++ text) (c, false)
      (mark_ne_nil hpat) (plain_notMem c)
    rw [List.nil_append, List.infix_nil, or_iff_right (mark_ne_nil hpat)] at hstep
    exact hstep.trans ih

/-- An occurrence lies on one side of an unmarked text. -/
theorem exposes_append_plain_append (hpat : pat ≠ []) {cs : List Char} (hcs : cs ≠ [])
    (x y : Marked) : Exposes pat (x ++ (mark false cs ++ y)) ↔ Exposes pat x ∨ Exposes pat y := by
  obtain ⟨c, cs, rfl⟩ := List.exists_cons_of_ne_nil hcs
  have hstep := @occurs_append_cons _ (mark true pat) x (mark false cs ++ y) (c, false)
    (mark_ne_nil hpat) (plain_notMem c)
  exact hstep.trans (or_congr_right (exposes_plain_append hpat cs y))

/-- Unmarked characters behind expose nothing more. -/
theorem exposes_append_plain (hpat : pat ≠ []) (x : Marked) (cs : List Char) :
    Exposes pat (x ++ mark false cs) ↔ Exposes pat x := by
  cases cs with
  | nil => rw [mark, List.map_nil, List.append_nil]
  | cons c cs =>
    have hsplit := exposes_append_plain_append hpat (List.cons_ne_nil c cs) x []
    rw [List.append_nil] at hsplit
    rw [hsplit, or_iff_left (not_exposes_nil hpat)]

/-- An unmarked text exposes nothing. -/
theorem not_exposes_plain (hpat : pat ≠ []) (cs : List Char) : ¬ Exposes pat (mark false cs) := by
  intro h
  rw [← List.append_nil (mark false cs), exposes_plain_append hpat] at h
  exact not_exposes_nil hpat h

/-- A marked text exposes what stands in it. -/
theorem exposes_mark (cs : List Char) : Exposes pat (mark true cs) ↔ pat <:+: cs := by
  have hfst : ∀ l : List Char, (mark true l).map Prod.fst = l := by
    intro l
    rw [mark, List.map_map]
    exact List.map_id l
  constructor
  · rintro ⟨before, after, h⟩
    refine ⟨before.map Prod.fst, after.map Prod.fst, ?_⟩
    rw [← hfst cs, ← h, List.map_append, List.map_append, hfst pat]
  · rintro ⟨before, after, rfl⟩
    exact ⟨mark true before, mark true after, by simp [mark]⟩

/-- Texts joined by a separator. -/
def joined (sep : List Char) : List Marked → Marked
  | [] => []
  | [x] => x
  | x :: y :: texts => x ++ (mark false sep ++ joined sep (y :: texts))

/-- What joined texts show is what one of them shows. -/
theorem exposes_joined (hpat : pat ≠ []) {sep : List Char} (hsep : sep ≠ []) (texts : List Marked) :
    Exposes pat (joined sep texts) ↔ ∃ t ∈ texts, Exposes pat t := by
  induction texts with
  | nil => simp [joined, not_exposes_nil hpat]
  | cons x texts ih =>
    cases texts with
    | nil => simp [joined]
    | cons y texts =>
      rw [joined, exposes_append_plain_append hpat hsep, ih]
      simp only [List.exists_mem_cons_iff]

end Exposes

/-! ## Strings -/

/-- How one character of a string is written. -/
def escapeChar (c : Char) : List Char :=
  if c = '"' then ['\\', '"']
  else if c = '\\' then ['\\', '\\']
  else if c = '\n' then ['\\', 'n']
  else if c = '\r' then ['\\', 'r']
  else if c = '\t' then ['\\', 't']
  else if c.toNat = 12 then ['\\', 'f']
  else if c.toNat = 8 then ['\\', 'b']
  else if c.toNat < 32 then
    ['\\', 'u', '0', '0', (c.toNat / 16).digitChar, (c.toNat % 16).digitChar]
  else [c]

/-- What stands between the quotes. -/
def escape (text : List Char) : List Char :=
  text.flatMap escapeChar

/-- Escaping a character leaves something. -/
theorem escapeChar_ne_nil (c : Char) : escapeChar c ≠ [] := by
  unfold escapeChar
  repeat' split
  all_goals exact List.cons_ne_nil _ _

/-- Escaping a text that is not empty leaves something. -/
theorem escape_ne_nil {text : List Char} (h : text ≠ []) : escape text ≠ [] := by
  obtain ⟨c, cs, rfl⟩ := List.exists_cons_of_ne_nil h
  rw [escape, List.flatMap_cons]
  exact List.append_ne_nil_of_left_ne_nil (escapeChar_ne_nil c) _

/-- A string with its quotes. -/
def quoted (m : Bool) (text : List Char) : Marked :=
  mark false ['"'] ++ (mark m (escape text) ++ mark false ['"'])

/-- A quoted text exposes what stands in it, escaped. -/
theorem exposes_quoted {pat : List Char} (hpat : pat ≠ []) (text : List Char) :
    Exposes pat (quoted true text) ↔ pat <:+: escape text := by
  rw [quoted, exposes_plain_append hpat, exposes_append_plain hpat, exposes_mark]

/-- An unmarked quoted text exposes nothing. -/
theorem not_exposes_quoted {pat : List Char} (hpat : pat ≠ []) (text : List Char) :
    ¬ Exposes pat (quoted false text) := by
  rw [quoted, exposes_plain_append hpat, exposes_append_plain hpat]
  exact not_exposes_plain hpat _

/-! ## Values -/

/-- How numbers are written. -/
structure DumpRules where
  /-- the text of a finite floating-point number -/
  floatText : Rat → String

/-- The text of a scalar that is no string. -/
def Scalar.jsonText (rules : DumpRules) : Scalar → List Char
  | null => "null".toList
  | bool b => if b then "true".toList else "false".toList
  | int n => (toString n).toList
  | float .nan => "NaN".toList
  | float (.infinite negative) => if negative then "-Infinity".toList else "Infinity".toList
  | float (.finite x) => (rules.floatText x).toList
  | str s => s.toList
  | bytes _ => []
  | stamp _ => []

/-- A scalar as it is written, without the quotes. -/
def Scalar.written (rules : DumpRules) (s : Scalar) : List Char :=
  match s with
  | str t => escape t.toList
  | s => s.jsonText rules

/-- A scalar can be written, as a value and as a key. -/
def Scalar.serialisable : Scalar → Bool
  | int n => (Scalar.int n).printable
  | bytes _ => false
  | stamp _ => false
  | _ => true

/-- The marked text of a scalar. -/
def Scalar.write (rules : DumpRules) (s : Scalar) : Marked :=
  match s with
  | str t => quoted true t.toList
  | s => mark true (s.jsonText rules)

/-- A scalar exposes what stands in its text. -/
theorem Scalar.exposes_write {pat : List Char} (hpat : pat ≠ []) (rules : DumpRules) (s : Scalar) :
    Exposes pat (s.write rules) ↔ pat <:+: s.written rules := by
  cases s with
  | str t => exact exposes_quoted hpat t.toList
  | null => exact exposes_mark _
  | bool b => exact exposes_mark _
  | int n => exact exposes_mark _
  | float x => exact exposes_mark _
  | bytes data => exact exposes_mark _
  | stamp instant => exact exposes_mark _

namespace Value

mutual

/-- `json.dumps` does not raise. -/
def serialisable : Value → Bool
  | scalar s => s.serialisable
  | list items => serialisableItems items
  | map entries => serialisableEntries entries

/-- Whether the items can be written. -/
def serialisableItems : List Value → Bool
  | [] => true
  | v :: items => v.serialisable && serialisableItems items

/-- Whether the entries can be written. -/
def serialisableEntries : List (Scalar × Value) → Bool
  | [] => true
  | (key, v) :: entries => key.serialisable && v.serialisable && serialisableEntries entries

end

mutual

/-- The text `json.dumps` writes, marked where it comes from the value. -/
def write (rules : DumpRules) : Value → Marked
  | scalar s => s.write rules
  | list items =>
    mark false ['['] ++ (joined [',', ' '] (writeItems rules items) ++ mark false [']'])
  | map entries =>
    mark false ['\x7b'] ++ (joined [',', ' '] (writeEntries rules entries) ++ mark false ['\x7d'])

/-- The marked texts of the items. -/
def writeItems (rules : DumpRules) : List Value → List Marked
  | [] => []
  | v :: items => write rules v :: writeItems rules items

/-- The marked texts of the entries. -/
def writeEntries (rules : DumpRules) : List (Scalar × Value) → List Marked
  | [] => []
  | (key, v) :: entries =>
    (quoted true (key.jsonText rules) ++ (mark false [':', ' '] ++ write rules v)) ::
      writeEntries rules entries

end

mutual

/-- The keys and scalars of a value at any depth, as they are written. -/
def leaves (rules : DumpRules) : Value → List (List Char)
  | scalar s => [s.written rules]
  | list items => leavesOfItems rules items
  | map entries => leavesOfEntries rules entries

/-- The texts at the leaves of the items. -/
def leavesOfItems (rules : DumpRules) : List Value → List (List Char)
  | [] => []
  | v :: items => leaves rules v ++ leavesOfItems rules items

/-- The texts at the leaves of the entries, keys included. -/
def leavesOfEntries (rules : DumpRules) : List (Scalar × Value) → List (List Char)
  | [] => []
  | (key, v) :: entries =>
    escape (key.jsonText rules) :: (leaves rules v ++ leavesOfEntries rules entries)

end

/-- Something of two lists is in one of them. -/
theorem exists_mem_append {α : Type} {p : α → Prop} {l l' : List α} :
    (∃ x ∈ l ++ l', p x) ↔ (∃ x ∈ l, p x) ∨ ∃ x ∈ l', p x := by
  simp only [List.mem_append, or_and_right, exists_or]

mutual

/-- **What a written value shows** is what one of its keys and scalars shows. -/
theorem exposes_write {pat : List Char} (hpat : pat ≠ []) (rules : DumpRules) : (v : Value) →
    (Exposes pat (v.write rules) ↔ ∃ leaf ∈ v.leaves rules, pat <:+: leaf)
  | scalar s => by
    rw [write, leaves, Scalar.exposes_write hpat]
    simp
  | list items => by
    rw [write, leaves, exposes_plain_append hpat, exposes_append_plain hpat,
      exposes_joined hpat (List.cons_ne_nil _ _), exposes_writeItems hpat rules items]
  | map entries => by
    rw [write, leaves, exposes_plain_append hpat, exposes_append_plain hpat,
      exposes_joined hpat (List.cons_ne_nil _ _), exposes_writeEntries hpat rules entries]

/-- The items expose what stands in one of their leaves. -/
theorem exposes_writeItems {pat : List Char} (hpat : pat ≠ []) (rules : DumpRules) :
    (items : List Value) →
    ((∃ t ∈ writeItems rules items, Exposes pat t) ↔
      ∃ leaf ∈ leavesOfItems rules items, pat <:+: leaf)
  | [] => by simp [writeItems, leavesOfItems]
  | v :: items => by
    rw [writeItems, leavesOfItems, List.exists_mem_cons_iff, exists_mem_append,
      exposes_write hpat rules v, exposes_writeItems hpat rules items]

/-- The entries expose what stands in one of their leaves. -/
theorem exposes_writeEntries {pat : List Char} (hpat : pat ≠ []) (rules : DumpRules) :
    (entries : List (Scalar × Value)) →
    ((∃ t ∈ writeEntries rules entries, Exposes pat t) ↔
      ∃ leaf ∈ leavesOfEntries rules entries, pat <:+: leaf)
  | [] => by simp [writeEntries, leavesOfEntries]
  | (key, v) :: entries => by
    rw [writeEntries, leavesOfEntries, List.exists_mem_cons_iff, List.exists_mem_cons_iff,
      exists_mem_append, exposes_append_plain_append hpat (List.cons_ne_nil _ _),
      exposes_quoted hpat, exposes_write hpat rules v, exposes_writeEntries hpat rules entries,
      or_assoc]

end

end Value

end PrReviewer.Library
