import Mathlib.Data.List.Nodup

/-!
# First occurrences

Lists collected by adding each new element at the end once. What a list without repetitions
grows into is the first occurrences of all that is offered, `List.eraseDups`.
-/

set_option autoImplicit false

namespace PrReviewer.Library

variable {α : Type} [DecidableEq α]

/-- Add an element at the end, unless it is there. -/
def addNew (acc : List α) (x : α) : List α :=
  if x ∈ acc then acc else acc ++ [x]

/-- An element that is there is not added. -/
theorem addNew_of_mem {acc : List α} {x : α} (h : x ∈ acc) : addNew acc x = acc :=
  if_pos h

/-- A new element is added at the end. -/
theorem addNew_of_not_mem {acc : List α} {x : α} (h : x ∉ acc) : addNew acc x = acc ++ [x] :=
  if_neg h

/-- Erasing the duplicates leaves none. -/
theorem nodup_eraseDups (l : List α) : l.eraseDups.Nodup := by
  induction hn : l.length using Nat.strongRecOn generalizing l with
  | ind n ih =>
    cases l with
    | nil => exact List.nodup_nil
    | cons x l =>
      have hle : (l.filter fun y => !y == x).length ≤ l.length := List.length_filter_le _ l
      rw [List.length_cons] at hn
      rw [List.eraseDups_cons, List.nodup_cons, List.mem_eraseDups]
      refine ⟨fun hmem => ?_, ih _ (by omega) _ rfl⟩
      simp at hmem

/-- A list that has no duplicates stays. -/
theorem eraseDups_of_nodup {l : List α} (h : l.Nodup) : l.eraseDups = l := by
  induction l with
  | nil => rfl
  | cons x l ih =>
    obtain ⟨hx, hl⟩ := List.nodup_cons.mp h
    have hall : ∀ y ∈ l, (!y == x) = true := by
      intro y hy
      have hne : y ≠ x := fun heq => hx (heq ▸ hy)
      simp [hne]
    rw [List.eraseDups_cons, List.filter_eq_self.mpr hall, ih hl]

/-- What follows a list without repetitions adds its first occurrences that are not there. -/
theorem eraseDups_append_of_nodup {l : List α} (h : l.Nodup) (l' : List α) :
    (l ++ l').eraseDups = l ++ (l'.removeAll l).eraseDups := by
  rw [List.eraseDups_append, eraseDups_of_nodup h]

/-- Adding nothing new to a list without repetitions collects the first occurrences. -/
theorem foldl_addNew {acc : List α} (h : acc.Nodup) (l : List α) :
    l.foldl addNew acc = (acc ++ l).eraseDups := by
  induction l generalizing acc with
  | nil => rw [List.foldl_nil, List.append_nil, eraseDups_of_nodup h]
  | cons x l ih =>
    rw [List.foldl_cons]
    by_cases hx : x ∈ acc
    · have hskip : (x :: l).removeAll acc = l.removeAll acc := by simp [List.removeAll, hx]
      rw [addNew_of_mem hx, ih h, eraseDups_append_of_nodup h, eraseDups_append_of_nodup h, hskip]
    · have hnodup : (acc ++ [x]).Nodup := by
        rw [← List.concat_eq_append]
        exact h.concat hx
      rw [addNew_of_not_mem hx, ih hnodup, List.append_assoc, List.singleton_append]

/-- What was there stays in front, repeated or not. -/
theorem prefix_foldl_addNew (acc l : List α) : acc <+: l.foldl addNew acc := by
  induction l generalizing acc with
  | nil => exact List.prefix_rfl
  | cons x l ih =>
    have hstep : acc <+: addNew acc x := by
      by_cases hx : x ∈ acc
      · exact (addNew_of_mem hx).symm ▸ List.prefix_rfl
      · rw [addNew_of_not_mem hx]
        exact List.prefix_append _ _
    exact hstep.trans (ih (addNew acc x))

/-- The first `n` first occurrences, where the first `n` elements are distinct. -/
theorem take_eraseDups {l l' : List α} {n : Nat} (h : (l.take n).Nodup) (hlen : n ≤ l.length) :
    ((l ++ l').eraseDups).take n = l.take n := by
  have hsplit : l ++ l' = l.take n ++ (l.drop n ++ l') := by
    rw [← List.append_assoc, List.take_append_drop]
  have htake : (l.take n).length = n := List.length_take_of_le hlen
  rw [hsplit, eraseDups_append_of_nodup h,
    List.take_append_of_le_length (Nat.le_of_eq htake.symm),
    List.take_of_length_le (Nat.le_of_eq htake)]

end PrReviewer.Library
