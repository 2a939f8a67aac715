import Mathlib.Data.List.Sort

/-!
# Sweeps that stop once enough is gone

A list is put into the stable order of a key, and its items are removed one after another
until a test on what is left succeeds. `sweep_eq` says what is removed: the shortest prefix
after which the test succeeds, or the whole list if there is none.
-/

set_option autoImplicit false

namespace PrReviewer.Library

section Order

variable {α β : Type} [LinearOrder β] {key : α → β} {l s : List α}

/-- The items of a list in the order of a key; those with equal keys stand in the order they had. -/
structure StablySorted (key : α → β) (l s : List α) : Prop where
  perm : s.Perm l
  sorted : s.Pairwise fun a b => key a ≤ key b
  stable : ∀ k, (s.filter fun a => decide (key a = k)) = l.filter fun a => decide (key a = k)

/-- Python's `sorted` with a key. -/
def sortedBy (key : α → β) (l : List α) : List α :=
  l.mergeSort fun a b => decide (key a ≤ key b)

/-- Sorting by a key is stable. -/
theorem stablySorted_sortedBy (key : α → β) (l : List α) :
    StablySorted key l (sortedBy key l) := by
  have htrans : ∀ a b c : α, decide (key a ≤ key b) = true → decide (key b ≤ key c) = true →
      decide (key a ≤ key c) = true := by
    intro a b c hab hbc
    simp only [decide_eq_true_eq] at *
    exact le_trans hab hbc
  have htotal : ∀ a b : α, (decide (key a ≤ key b) || decide (key b ≤ key a)) = true := by
    intro a b
    simpa using le_total (key a) (key b)
  have hperm : (sortedBy key l).Perm l := List.mergeSort_perm l _
  refine ⟨hperm, ?_, ?_⟩
  · have h := List.pairwise_mergeSort htrans htotal l
    exact h.imp fun hab => by simpa using hab
  · intro k
    -- the items of one key are a sorted sublist of `l`, and the sort keeps those
    have hsub : List.Sublist (l.filter fun a => decide (key a = k)) (sortedBy key l) := by
      apply List.sublist_mergeSort htrans htotal ?_ List.filter_sublist
      apply List.pairwise_of_forall_mem_list
      intro a ha b hb
      simp only [List.mem_filter, decide_eq_true_eq] at ha hb
      simp [ha.2, hb.2]
    have hfilter := hsub.filter fun a => decide (key a = k)
    simp only [List.filter_filter, Bool.and_self] at hfilter
    exact (hfilter.eq_of_length (hperm.filter _).length_eq.symm).symm

/-- The stable order of a list is unique. -/
theorem StablySorted.unique {t : List α} (hs : StablySorted key l s)
    (ht : StablySorted key l t) : s = t := by
  have hst : s.Perm t := hs.perm.trans ht.perm.symm
  have hcls : ∀ k, (s.filter fun a => decide (key a = k)) = t.filter fun a => decide (key a = k) :=
    fun k => (hs.stable k).trans (ht.stable k).symm
  have hsorted := hs.sorted
  have htsorted := ht.sorted
  clear hs ht
  induction s generalizing t with
  | nil => exact (List.nil_perm.mp hst).symm
  | cons a s ih =>
    cases t with
    | nil => exact absurd hst.symm (List.nil_perm.not.mpr (by simp))
    | cons b t =>
      rw [List.pairwise_cons] at hsorted htsorted
      -- both heads have the least key
      have hab : key a = key b := by
        have hbmem : b ∈ a :: s := hst.mem_iff.mpr (by simp)
        have hamem : a ∈ b :: t := hst.mem_iff.mp (by simp)
        apply le_antisymm
        · rcases List.mem_cons.mp hbmem with h | h
          · rw [h]
          · exact hsorted.1 b h
        · rcases List.mem_cons.mp hamem with h | h
          · rw [h]
          · exact htsorted.1 a h
      have hheads := hcls (key a)
      rw [List.filter_cons_of_pos (by simp), List.filter_cons_of_pos (by simp [hab])] at hheads
      have heq : a = b := (List.cons.inj hheads).1
      subst heq
      have htail : s = t := by
        apply ih (List.Perm.cons_inv hst) ?_ hsorted.2 htsorted.2
        intro k
        have h := hcls k
        by_cases hk : key a = k
        · rw [List.filter_cons_of_pos (by simp [hk]), List.filter_cons_of_pos (by simp [hk])] at h
          exact (List.cons.inj h).2
        · rw [List.filter_cons_of_neg (by simp [hk]), List.filter_cons_of_neg (by simp [hk])] at h
          exact h
      rw [htail]

/-- What is sorted already stays as it is. -/
theorem sortedBy_sortedBy (key : α → β) (l : List α) :
    sortedBy key (sortedBy key l) = sortedBy key l := by
  apply List.mergeSort_of_pairwise
  exact (stablySorted_sortedBy key l).sorted.imp fun h => by simpa using h

end Order

section Stop

/-- `n` is the first number at which a test succeeds, or the bound if it fails below it. -/
structure StopsAt (test : ℕ → Prop) (bound n : ℕ) : Prop where
  le : n ≤ bound
  before : ∀ m < n, ¬ test m
  stop : test n ∨ n = bound

variable {test : ℕ → Prop} {bound n m : ℕ}

/-- A test stops at one place only. -/
theorem StopsAt.unique (hn : StopsAt test bound n) (hm : StopsAt test bound m) : n = m := by
  rcases lt_trichotomy n m with h | h | h
  · rcases hn.stop with ht | ht
    · exact absurd ht (hm.before n h)
    · exact absurd (ht ▸ h) (Nat.not_lt.mpr hm.le)
  · exact h
  · rcases hm.stop with ht | ht
    · exact absurd ht (hn.before m h)
    · exact absurd (ht ▸ h) (Nat.not_lt.mpr hn.le)

end Stop

section Sweep

variable {σ α : Type} {remove : σ → α → σ} {enough : σ → Bool}

/-- Remove the items of a list one after another, until enough is removed. -/
def sweep (remove : σ → α → σ) (enough : σ → Bool) : σ → List α → σ
  | s, [] => s
  | s, a :: l => if enough s then s else sweep remove enough (remove s a) l

/-- Where there is enough already nothing is swept. -/
theorem sweep_of_enough {s : σ} (l : List α) (h : enough s = true) :
    sweep remove enough s l = s := by
  cases l with
  | nil => rfl
  | cons a l => exact if_pos h

/-- A loop that passes over some items, removes the others, and ends once enough is removed, is a
sweep of the others, unless enough was removed before it. -/
theorem loop_eq_sweep {loop : σ → List α → σ} {goes : α → Bool}
    (hnil : ∀ s, loop s [] = s)
    (hpass : ∀ s a l, goes a = false → loop s (a :: l) = loop s l)
    (hremove : ∀ s a l, goes a = true → loop s (a :: l) =
      if enough (remove s a) then remove s a else loop (remove s a) l)
    (s : σ) (l : List α) (h : enough s = false) :
    loop s l = sweep remove enough s (l.filter goes) := by
  induction l generalizing s with
  | nil => exact hnil s
  | cons a l ih =>
    cases hgoes : goes a with
    | false =>
      have hfilter : (a :: l).filter goes = l.filter goes :=
        List.filter_cons_of_neg (by simp [hgoes])
      rw [hfilter, hpass s a l hgoes]
      exact ih s h
    | true =>
      have hfirst : ¬ enough s = true := by simp [h]
      rw [List.filter_cons_of_pos hgoes, hremove s a l hgoes, sweep, if_neg hfirst]
      by_cases hstop : enough (remove s a) = true
      · rw [if_pos hstop, sweep_of_enough _ hstop]
      · rw [if_neg hstop]
        exact ih (remove s a) (Bool.eq_false_of_not_eq_true hstop)

/-- **What a sweep removes**: the shortest prefix that is enough, or the whole list. -/
theorem sweep_eq (s : σ) (l : List α) :
    ∃ n, StopsAt (fun m => enough ((l.take m).foldl remove s) = true) l.length n ∧
      sweep remove enough s l = (l.take n).foldl remove s := by
  induction l generalizing s with
  | nil => exact ⟨0, ⟨Nat.le_refl 0, by simp, Or.inr rfl⟩, rfl⟩
  | cons a l ih =>
    by_cases h : enough s = true
    · exact ⟨0, ⟨Nat.zero_le _, by simp, Or.inl h⟩, sweep_of_enough _ h⟩
    · obtain ⟨n, hn, heq⟩ := ih (remove s a)
      refine ⟨n + 1, ⟨Nat.succ_le_succ hn.le, ?_, ?_⟩, ?_⟩
      · intro m hm
        cases m with
        | zero => exact h
        | succ m => exact hn.before m (Nat.lt_of_succ_lt_succ hm)
      · exact hn.stop.imp id fun heq => by rw [heq, List.length_cons]
      · rw [sweep, if_neg h, heq, List.take_succ_cons, List.foldl_cons]

/-- Two sweeps that remove in step, with tests that agree, stay in step. -/
theorem sweep_related {τ γ : Type} {remove' : τ → γ → τ} {enough' : τ → Bool} {f : α → γ}
    {R : σ → τ → Prop} {l : List α}
    (hstep : ∀ a ∈ l, ∀ s t, R s t → R (remove s a) (remove' t (f a)))
    (htest : ∀ s t, R s t → enough s = enough' t) {s : σ} {t : τ} (h : R s t) :
    R (sweep remove enough s l) (sweep remove' enough' t (l.map f)) := by
  induction l generalizing s t with
  | nil => exact h
  | cons a l ih =>
    rw [List.map_cons, sweep, sweep, htest s t h]
    split
    · exact h
    · exact ih (fun b hb => hstep b (List.mem_cons_of_mem a hb)) (hstep a List.mem_cons_self s t h)

end Sweep

end PrReviewer.Library
