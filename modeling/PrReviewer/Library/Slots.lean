import Mathlib.Data.List.Nodup

/-!
# Lists of slots

A system with several tasks of one kind keeps them in a list and replaces one slot per step.
The lemmas here count the slots that satisfy a predicate before and after such a step; the
counts of an ownership argument are then linear arithmetic.
-/

set_option autoImplicit false

namespace PrReviewer.Library

variable {α : Type}

/-- Replacing a slot takes the old content out of the count and puts the new content in. -/
theorem countP_set_add {l : List α} {i : Nat} {a b : α} (p : α → Bool) (h : l[i]? = some b) :
    (l.set i a).countP p + (if p b then 1 else 0) = l.countP p + (if p a then 1 else 0) := by
  obtain ⟨hi, rfl⟩ := List.getElem?_eq_some_iff.mp h
  have hle : (if p l[i] then 1 else 0) ≤ l.countP p := by
    split
    · rename_i hp
      exact List.countP_pos_iff.mpr ⟨l[i], List.getElem_mem hi, hp⟩
    · exact Nat.zero_le _
  rw [List.countP_set hi]
  omega

/-- An entry with the property is counted. -/
theorem countP_pos_of_getElem? {l : List α} {i : Nat} {a : α} {p : α → Bool} (h : l[i]? = some a)
    (hp : p a = true) : 0 < l.countP p :=
  List.countP_pos_iff.mpr ⟨a, List.mem_of_getElem? h, hp⟩

/-- If at most one slot counts, two slots that count are one. -/
theorem eq_of_countP_le_one {l : List α} {p : α → Bool} (hle : l.countP p ≤ 1) {i j : Nat}
    {a b : α} (hi : l[i]? = some a) (hj : l[j]? = some b) (ha : p a = true) (hb : p b = true) :
    i = j := by
  induction l generalizing i j with
  | nil => simp at hi
  | cons x l ih =>
    have htail : ∀ {k : Nat} {c : α}, l[k]? = some c → p c = true → 0 < l.countP p :=
      fun hk hc => countP_pos_of_getElem? hk hc
    rw [List.countP_cons] at hle
    cases i with
    | zero =>
      cases j with
      | zero => rfl
      | succ j =>
        have hx : x = a := by simpa using hi
        have := htail (by simpa using hj) hb
        rw [hx, ha] at hle
        simp only [if_true] at hle
        omega
    | succ i =>
      cases j with
      | zero =>
        have hx : x = b := by simpa using hj
        have := htail (by simpa using hi) ha
        rw [hx, hb] at hle
        simp only [if_true] at hle
        omega
      | succ j =>
        have := ih (by omega) (by simpa using hi) (by simpa using hj)
        omega

end PrReviewer.Library
