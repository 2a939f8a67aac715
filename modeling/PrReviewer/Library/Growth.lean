import Mathlib.Data.List.Basic

/-!
# Sets that grow by arrivals

Keys are added to a set one at a time, each by an arrival that asks for it, and what an arrival
asks for may depend on the keys that are there. If a new key can silence only the arrivals that
ask for this very key, the keys in the end do not depend on the order of the arrivals:
`mem_foldl_grow` says which ones they are.
-/

set_option autoImplicit false

namespace PrReviewer.Library

variable {ι κ : Type} [DecidableEq κ]

/-- The keys after an arrival: the one it asks for is there. -/
def grow (ask : List κ → ι → Option κ) (keys : List κ) (x : ι) : List κ :=
  match ask keys x with
  | some k => if k ∈ keys then keys else keys ++ [k]
  | none => keys

/-- The keys that are asked for are of the kind `new`, and one more of them silences only the
arrivals that ask for it. -/
structure Settled (ask : List κ → ι → Option κ) (new : κ → Prop) : Prop where
  asked : ∀ keys x k, ask keys x = some k → new k
  silenced : ∀ keys k x, new k →
    ask (keys ++ [k]) x = ask keys x ∨ (ask keys x = some k ∧ ask (keys ++ [k]) x = none)

variable {ask : List κ → ι → Option κ} {new : κ → Prop}

/-- **The keys after some arrivals** are those at the beginning and those that the arrivals ask
for at the beginning. -/
theorem mem_foldl_grow (hs : Settled ask new) (keys : List κ) (l : List ι) (k : κ) :
    k ∈ l.foldl (grow ask) keys ↔ k ∈ keys ∨ ∃ x ∈ l, ask keys x = some k := by
  induction l generalizing keys with
  | nil => simp
  | cons x l ih =>
    rw [List.foldl_cons, ih]
    simp only [List.mem_cons, exists_eq_or_imp]
    cases hx : ask keys x with
    | none => simp [grow, hx]
    | some k₀ =>
      by_cases hold : k₀ ∈ keys
      · have hgrow : grow ask keys x = keys := by simp [grow, hx, hold]
        rw [hgrow]
        constructor
        · exact fun h => h.imp_right Or.inr
        · rintro (h | h | h)
          · exact Or.inl h
          · cases h
            exact Or.inl hold
          · exact Or.inr h
      · have hgrow : grow ask keys x = keys ++ [k₀] := by simp [grow, hx, hold]
        have hnew := hs.asked keys x k₀ hx
        rw [hgrow, List.mem_append, List.mem_singleton]
        constructor
        · rintro ((h | h) | ⟨y, hy, h⟩)
          · exact Or.inl h
          · exact Or.inr (Or.inl (by rw [h]))
          · rcases hs.silenced keys k₀ y hnew with hsame | ⟨-, hnone⟩
            · exact Or.inr (Or.inr ⟨y, hy, hsame ▸ h⟩)
            · rw [hnone] at h
              cases h
        · rintro (h | h | ⟨y, hy, h⟩)
          · exact Or.inl (Or.inl h)
          · exact Or.inl (Or.inr (Option.some.inj h).symm)
          · rcases hs.silenced keys k₀ y hnew with hsame | ⟨hsame, -⟩
            · exact Or.inr ⟨y, hy, hsame.trans h⟩
            · exact Or.inl (Or.inr (Option.some.inj (h.symm.trans hsame)))

/-- **The order of the arrivals does not matter.** -/
theorem mem_foldl_grow_of_perm (hs : Settled ask new) (keys : List κ) {l l' : List ι}
    (hperm : l.Perm l') (k : κ) :
    k ∈ l.foldl (grow ask) keys ↔ k ∈ l'.foldl (grow ask) keys := by
  rw [mem_foldl_grow hs, mem_foldl_grow hs]
  simp only [hperm.mem_iff]

end PrReviewer.Library
