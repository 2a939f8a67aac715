import Mathlib.Data.Nat.Basic

/-!
# Loops with exits

`while True` with a body that goes round again or leaves. `Leaves` is what such a loop means,
and `turns` runs it for a bounded number of turns. `leaves_of_variant` is the rule for total
correctness: an invariant, and a variant that falls with every turn.
-/

set_option autoImplicit false

namespace PrReviewer.Library

/-- What one turn of a loop does. -/
inductive Turn (σ ρ : Type)
  | again (s : σ)
  | leave (r : ρ)

section Loop

variable {σ ρ : Type}

/-- The loop is left with this result. -/
inductive Leaves (body : σ → Turn σ ρ) : σ → ρ → Prop
  | now {s : σ} {r : ρ} : body s = .leave r → Leaves body s r
  | later {s t : σ} {r : ρ} : body s = .again t → Leaves body t r → Leaves body s r

/-- The result of the loop, if it is left within so many turns. -/
def turns (body : σ → Turn σ ρ) : Nat → σ → Option ρ
  | 0, _ => none
  | n + 1, s =>
    match body s with
    | .again t => turns body n t
    | .leave r => some r

variable {body : σ → Turn σ ρ}

/-- A loop is left with one result at most. -/
theorem Leaves.unique {s : σ} {r r' : ρ} (h : Leaves body s r) (h' : Leaves body s r') :
    r = r' := by
  induction h with
  | now hbody =>
    cases h' with
    | now hbody' =>
      rw [hbody] at hbody'
      cases hbody'
      rfl
    | later hbody' _ =>
      rw [hbody] at hbody'
      cases hbody'
  | later hbody _ ih =>
    cases h' with
    | now hbody' =>
      rw [hbody] at hbody'
      cases hbody'
    | later hbody' hrest =>
      rw [hbody] at hbody'
      cases hbody'
      exact ih hrest

/-- A loop that leaves within some turns leaves. -/
theorem leaves_of_turns {n : Nat} {s : σ} {r : ρ} (h : turns body n s = some r) :
    Leaves body s r := by
  induction n generalizing s with
  | zero => cases h
  | succ n ih =>
    rw [turns] at h
    cases hbody : body s with
    | again t =>
      rw [hbody] at h
      exact .later hbody (ih h)
    | leave r' =>
      rw [hbody] at h
      cases h
      exact .now hbody

/-- **The rule for total correctness.** The invariant holds where the loop is left. -/
theorem leaves_of_variant {I : σ → Prop} (variant : σ → Nat)
    (hstep : ∀ s t, I s → body s = .again t → I t ∧ variant t < variant s) {s : σ} (hs : I s) :
    ∃ t r, I t ∧ body t = .leave r ∧ Leaves body s r := by
  induction hn : variant s using Nat.strongRecOn generalizing s with
  | ind n ih =>
    cases hbody : body s with
    | leave r => exact ⟨s, r, hs, hbody, .now hbody⟩
    | again t =>
      obtain ⟨ht, hlt⟩ := hstep s t hs hbody
      obtain ⟨u, r, hu, hleave, hrest⟩ := ih (variant t) (hn ▸ hlt) ht rfl
      exact ⟨u, r, hu, hleave, .later hbody hrest⟩

end Loop

end PrReviewer.Library
