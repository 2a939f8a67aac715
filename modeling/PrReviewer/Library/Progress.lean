import Mathlib.Algebra.BigOperators.Group.List.Basic
import Mathlib.Algebra.GroupWithZero.Nat
import PrReviewer.Library.Machine

/-!
# Runs that get somewhere

A variant of a machine bounds its runs when every step lowers it, up to what the step is charged:
`run_charged`. Where no step is charged, and a step is possible unless the goal holds, every run
can be continued to the goal: `exists_run_of_variant`.
-/

set_option autoImplicit false

namespace PrReviewer.Library

/-- Replacing a slot takes the old content out of the sum and puts the new content in. -/
theorem sum_map_set_add {α : Type} {l : List α} {i : Nat} {a b : α} (f : α → Nat)
    (h : l[i]? = some b) : ((l.set i a).map f).sum + f b = (l.map f).sum + f a := by
  induction l generalizing i with
  | nil => simp at h
  | cons x l ih =>
    cases i with
    | zero =>
      have hx : x = b := by simpa using h
      rw [List.set_cons_zero, List.map_cons, List.map_cons, List.sum_cons, List.sum_cons, hx]
      omega
    | succ i =>
      have hrest := ih (i := i) (by simpa using h)
      rw [List.set_cons_succ, List.map_cons, List.map_cons, List.sum_cons, List.sum_cons]
      omega

/-- A sum is at most the number of its terms times a bound on them. -/
theorem sum_map_le {α : Type} {l : List α} {f : α → Nat} {n : Nat} (h : ∀ x ∈ l, f x ≤ n) :
    (l.map f).sum ≤ l.length * n := by
  induction l with
  | nil => exact Nat.zero_le _
  | cons x l ih =>
    have hx := h x List.mem_cons_self
    have hrest := ih fun y hy => h y (List.mem_cons_of_mem x hy)
    rw [List.map_cons, List.sum_cons, List.length_cons, Nat.add_mul]
    omega

namespace Machine

variable {σ α ε : Type} {M : Machine σ α ε} {ok : σ → List ε → α → Bool}

/-- The first step of a run of several actions. -/
theorem run_cons {a : α} {as : List α} {s t : σ} {h h' : List ε}
    (hx : M.run ok s h (a :: as) = some (t, h')) :
    ∃ s₁ es, ok s h a = true ∧ M.step s a = some (s₁, es) ∧
      M.run ok s₁ (h ++ es) as = some (t, h') := by
  rw [Machine.run] at hx
  by_cases hok : ok s h a = true
  · rw [if_pos hok] at hx
    cases hstep : M.step s a with
    | none =>
      rw [hstep] at hx
      cases hx
    | some r =>
      rw [hstep] at hx
      exact ⟨r.1, r.2, hok, rfl, hx⟩
  · rw [if_neg hok] at hx
    cases hx

/-- One more step after a run. -/
theorem run_snoc {a : α} {as : List α} {s t u : σ} {h h' es : List ε}
    (hx : M.run ok s h as = some (t, h')) (hok : ok t h' a = true)
    (hstep : M.step t a = some (u, es)) : M.run ok s h (as ++ [a]) = some (u, h' ++ es) := by
  induction as generalizing s h with
  | nil =>
    simp only [Machine.run, Option.some.injEq, Prod.mk.injEq] at hx
    obtain ⟨rfl, rfl⟩ := hx
    simp [Machine.run, hok, hstep]
  | cons b as ih =>
    obtain ⟨s₁, es₁, hok₁, hstep₁, hrest⟩ := run_cons hx
    rw [List.cons_append, Machine.run, if_pos hok₁, hstep₁]
    exact ih hrest

/-- What every permitted step keeps, a run keeps. -/
theorem run_invariant {I : σ → List ε → Prop}
    (hkeep : ∀ s h a s' es, I s h → ok s h a = true → M.step s a = some (s', es) → I s' (h ++ es))
    {as : List α} {s t : σ} {h h' : List ε} (hs : I s h) (hx : M.run ok s h as = some (t, h')) :
    I t h' := by
  induction as generalizing s h with
  | nil =>
    simp only [Machine.run, Option.some.injEq, Prod.mk.injEq] at hx
    obtain ⟨rfl, rfl⟩ := hx
    exact hs
  | cons a as ih =>
    obtain ⟨s₁, es, hok, hstep, hrest⟩ := run_cons hx
    exact ih (hkeep s h a s₁ es hs hok hstep) hrest

/-- **The rule of charges.** If every step lowers the variant by one, up to what it is charged,
then a run has at most as many steps as the variant and all charges allow. -/
theorem run_charged {I : σ → List ε → Prop} (variant : σ → Nat) (charge : α → Nat)
    (hkeep : ∀ s h a s' es, I s h → ok s h a = true → M.step s a = some (s', es) →
      I s' (h ++ es) ∧ variant s' + 1 ≤ variant s + charge a)
    {as : List α} {s t : σ} {h h' : List ε} (hs : I s h) (hx : M.run ok s h as = some (t, h')) :
    variant t + as.length ≤ variant s + (as.map charge).sum := by
  induction as generalizing s h with
  | nil =>
    simp only [Machine.run, Option.some.injEq, Prod.mk.injEq] at hx
    obtain ⟨rfl, rfl⟩ := hx
    exact Nat.le_refl _
  | cons a as ih =>
    obtain ⟨s₁, es, hok, hstep, hrest⟩ := run_cons hx
    obtain ⟨hI, hle⟩ := hkeep s h a s₁ es hs hok hstep
    have hlater := ih hI hrest
    rw [List.length_cons, List.map_cons, List.sum_cons]
    omega

/-- **The progress rule.** Every permitted step lowers the variant, and one is possible unless the
goal holds: then some run reaches the goal. -/
theorem exists_run_of_variant {I : σ → List ε → Prop} {goal : σ → List ε → Prop}
    (variant : σ → Nat)
    (hkeep : ∀ s h a s' es, I s h → ok s h a = true → M.step s a = some (s', es) →
      I s' (h ++ es) ∧ variant s' < variant s)
    (hprogress : ∀ s h, I s h →
      goal s h ∨ ∃ a s' es, ok s h a = true ∧ M.step s a = some (s', es))
    {s : σ} {h : List ε} (hs : I s h) :
    ∃ as t h', M.run ok s h as = some (t, h') ∧ goal t h' := by
  induction hn : variant s using Nat.strongRecOn generalizing s h with
  | ind n ih =>
    rcases hprogress s h hs with hgoal | ⟨a, s', es, hok, hstep⟩
    · exact ⟨[], s, h, rfl, hgoal⟩
    · obtain ⟨hI, hlt⟩ := hkeep s h a s' es hs hok hstep
      obtain ⟨as, t, h', hrun, hgoal⟩ := ih (variant s') (hn ▸ hlt) hI rfl
      refine ⟨a :: as, t, h', ?_, hgoal⟩
      rw [Machine.run, if_pos hok, hstep]
      exact hrun

end Machine

end PrReviewer.Library
