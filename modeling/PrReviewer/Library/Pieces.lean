import Mathlib.Data.List.Basic
import Mathlib.Data.List.Infix

/-!
# The pieces of a list between separators

`text.split(sep)` on lists: the occurrences of the separator are taken from the left and do not
overlap. The first piece ends at the first occurrence, the last piece starts after the last one
that was taken, and an element the separator does not have keeps what is before it from what
comes after.
-/

set_option autoImplicit false

namespace PrReviewer.Library

section Glue

variable {α : Type}

/-- Pieces that meet where no occurrence can be. -/
def glue : List (List α) → List (List α) → List (List α)
  | [], ys => ys
  | [x], [] => [x]
  | [x], y :: ys => (x ++ y) :: ys
  | x :: x' :: xs, ys => x :: glue (x' :: xs) ys

/-- Gluing leaves all but the last piece. -/
theorem glue_cons {x : List α} {xs ys : List (List α)} (h : xs ≠ []) :
    glue (x :: xs) ys = x :: glue xs ys := by
  obtain ⟨x', xs, rfl⟩ := List.exists_cons_of_ne_nil h
  rfl

/-- A character in front of the first piece stays in front. -/
theorem glue_modifyHead {x : List (List α)} {ys : List (List α)} (a : α) (h : x ≠ []) :
    (glue x ys).modifyHead (a :: ·) = glue (x.modifyHead (a :: ·)) ys := by
  obtain ⟨x, xs, rfl⟩ := List.exists_cons_of_ne_nil h
  cases xs with
  | nil => cases ys <;> rfl
  | cons x' xs => rfl

/-- An occurrence does not reach past an element the separator does not have. -/
theorem starts_append_cons {sep x y : List α} {c : α} (hc : c ∉ sep) :
    sep <+: x ++ c :: y ↔ sep <+: x := by
  constructor
  · intro h
    rcases List.prefix_or_prefix_of_prefix h (List.prefix_append x (c :: y)) with h' | ⟨z, rfl⟩
    · exact h'
    · rw [List.prefix_append_right_inj] at h
      cases z with
      | nil => simp
      | cons d z =>
        rw [List.cons_prefix_cons] at h
        simp [h.1] at hc
  · exact fun h => h.trans (List.prefix_append _ _)

/-- An occurrence lies on one side of such an element. -/
theorem occurs_append_cons {sep x y : List α} {c : α} (hsep : sep ≠ []) (hc : c ∉ sep) :
    sep <:+: x ++ c :: y ↔ sep <:+: x ∨ sep <:+: y := by
  induction x with
  | nil =>
    have hstart : ¬ sep <+: c :: y := by
      intro h
      have hnil := (starts_append_cons (x := []) hc).mp h
      exact hsep (List.prefix_nil.mp hnil)
    rw [List.nil_append, List.infix_cons_iff, or_iff_right hstart, List.infix_nil,
      or_iff_right hsep]
  | cons a x ih =>
    rw [List.cons_append, List.infix_cons_iff, ih, List.infix_cons_iff, ← List.cons_append,
      starts_append_cons hc, or_assoc]

/-- An occurrence starts with its first element. -/
theorem occurs_append_of_head {a : α} {s x y : List α} (hx : a ∉ x) :
    a :: s <:+: x ++ y ↔ a :: s <:+: y := by
  induction x with
  | nil => rw [List.nil_append]
  | cons b x ih =>
    rw [List.mem_cons, not_or] at hx
    rw [List.cons_append, List.infix_cons_iff, ih hx.2, List.cons_prefix_cons]
    exact or_iff_right fun h => hx.1 h.1

/-- Gluing an empty piece appends the rest. -/
theorem glue_nil_cons {xs ys : List (List α)} (h : xs ≠ []) : glue xs ([] :: ys) = xs ++ ys := by
  induction xs with
  | nil => exact absurd rfl h
  | cons x xs ih =>
    cases xs with
    | nil => simp [glue]
    | cons x' xs => rw [glue_cons (by simp), ih (by simp)]; rfl

/-- The last piece is glued to the last. -/
theorem getLastD_glue {xs : List (List α)} (h : xs ≠ []) (y : List α) :
    (glue xs [y]).getLastD [] = xs.getLastD [] ++ y := by
  induction xs with
  | nil => exact absurd rfl h
  | cons x xs ih =>
    cases xs with
    | nil => rfl
    | cons x' xs =>
      have htail := ih (by simp)
      have hglue : glue (x' :: xs) [y] ≠ [] := by
        cases xs <;> simp [glue]
      obtain ⟨q, qs, hq⟩ := List.exists_cons_of_ne_nil hglue
      rw [glue_cons (by simp)]
      rw [hq] at htail ⊢
      simpa using htail

end Glue

section Pieces

variable {α : Type} [DecidableEq α]

/-- The pieces of a list; the number counts the elements of an occurrence still to be passed. -/
def piecesFrom (sep : List α) : Nat → List α → List (List α)
  | _, [] => [[]]
  | k + 1, _ :: l => piecesFrom sep k l
  | 0, a :: l =>
    if sep.isPrefixOf (a :: l) then [] :: piecesFrom sep (sep.length - 1) l
    else (piecesFrom sep 0 l).modifyHead (a :: ·)

/-- `l.split(sep)`, for a separator that is not empty. -/
def pieces (sep l : List α) : List (List α) :=
  piecesFrom sep 0 l

/-- `l.split(sep)[0]` -/
def firstPiece (sep l : List α) : List α :=
  (pieces sep l).headD []

/-- `l.split(sep)[-1]` -/
def lastPiece (sep l : List α) : List α :=
  (pieces sep l).getLastD []

/-- Skipping characters is starting behind them. -/
theorem piecesFrom_eq_drop (sep : List α) (k : Nat) (l : List α) :
    piecesFrom sep k l = pieces sep (l.drop k) := by
  induction l generalizing k with
  | nil => cases k <;> rfl
  | cons a l ih =>
    cases k with
    | zero => rfl
    | succ k =>
      rw [piecesFrom, ih]
      rfl

/-- The empty list is one empty piece. -/
theorem pieces_nil (sep : List α) : pieces sep [] = [[]] :=
  rfl

/-- A character that starts no separator belongs to the first piece. -/
theorem pieces_cons_of_no_start {sep : List α} {a : α} {l : List α} (h : ¬ sep <+: a :: l) :
    pieces sep (a :: l) = (pieces sep l).modifyHead (a :: ·) := by
  rw [pieces, piecesFrom, if_neg (by simpa using h)]
  rfl

/-- An occurrence at the start ends an empty piece. -/
theorem pieces_sep_append {sep : List α} (hsep : sep ≠ []) (l : List α) :
    pieces sep (sep ++ l) = [] :: pieces sep l := by
  obtain ⟨a, s, rfl⟩ := List.exists_cons_of_ne_nil hsep
  have hstart : (a :: s).isPrefixOf (a :: (s ++ l)) = true := by
    rw [List.isPrefixOf_iff_prefix]
    exact List.prefix_append (a :: s) l
  rw [pieces, List.cons_append, piecesFrom, if_pos hstart, piecesFrom_eq_drop]
  simp

/-- There is always a piece. -/
theorem pieces_ne_nil {sep : List α} (hsep : sep ≠ []) (l : List α) : pieces sep l ≠ [] := by
  induction l with
  | nil => simp [pieces_nil]
  | cons a l ih =>
    by_cases h : sep <+: a :: l
    · obtain ⟨rest, hrest⟩ := h
      rw [← hrest, pieces_sep_append hsep]
      simp
    · rw [pieces_cons_of_no_start h]
      simpa using ih

/-- A list without the separator is one piece. -/
theorem pieces_of_absent {sep l : List α} (h : ¬ sep <:+: l) : pieces sep l = [l] := by
  induction l with
  | nil => rfl
  | cons a l ih =>
    rw [List.infix_cons_iff, not_or] at h
    rw [pieces_cons_of_no_start h.1, ih h.2]
    rfl

/-- The first of several lines. -/
theorem pieces_singleton_append {a : α} {x : List α} (hx : a ∉ x) (rest : List α) :
    pieces [a] (x ++ a :: rest) = x :: pieces [a] rest := by
  induction x with
  | nil => exact pieces_sep_append (List.cons_ne_nil a []) rest
  | cons b x ih =>
    rw [List.mem_cons, not_or] at hx
    have hstart : ¬ [a] <+: b :: (x ++ a :: rest) := by
      simpa [List.cons_prefix_cons] using hx.1
    rw [List.cons_append, pieces_cons_of_no_start hstart, ih hx.2]
    rfl

/-! ## The first and the last piece -/

/-- A list without the separator is its first piece. -/
theorem firstPiece_of_absent {sep l : List α} (h : ¬ sep <:+: l) : firstPiece sep l = l := by
  rw [firstPiece, pieces_of_absent h]
  rfl

/-- A list without the separator is its last piece. -/
theorem lastPiece_of_absent {sep l : List α} (h : ¬ sep <:+: l) : lastPiece sep l = l := by
  rw [lastPiece, pieces_of_absent h]
  rfl

/-- The first occurrence ends the first piece, and the others are pieces of the rest. -/
theorem exists_pieces_eq {sep l : List α} (hsep : sep ≠ []) (h : sep <:+: l) :
    ∃ rest, l = firstPiece sep l ++ (sep ++ rest) ∧
      pieces sep l = firstPiece sep l :: pieces sep rest := by
  induction l with
  | nil => exact absurd (List.eq_nil_of_infix_nil h) hsep
  | cons a l ih =>
    by_cases hstart : sep <+: a :: l
    · obtain ⟨rest, hrest⟩ := hstart
      have hpieces := pieces_sep_append hsep rest
      rw [hrest] at hpieces
      have hfirst : firstPiece sep (a :: l) = [] := by rw [firstPiece, hpieces]; rfl
      exact ⟨rest, by rw [hfirst, List.nil_append, hrest], by rw [hpieces, hfirst]⟩
    · obtain ⟨rest, hrest, hpieces⟩ := ih ((List.infix_cons_iff.mp h).resolve_left hstart)
      have hcons : pieces sep (a :: l) = (a :: firstPiece sep l) :: pieces sep rest := by
        rw [pieces_cons_of_no_start hstart, hpieces]
        rfl
      have hfirst : firstPiece sep (a :: l) = a :: firstPiece sep l := by
        rw [firstPiece, hcons]
        rfl
      refine ⟨rest, ?_, by rw [hcons, hfirst]⟩
      rw [hfirst, List.cons_append, ← hrest]

/-- The first piece starts the list, and the separator or nothing follows. -/
theorem exists_eq_firstPiece_append {sep : List α} (hsep : sep ≠ []) (l : List α) :
    ∃ rest, l = firstPiece sep l ++ rest := by
  by_cases h : sep <:+: l
  · obtain ⟨rest, hrest, -⟩ := exists_pieces_eq hsep h
    exact ⟨_, hrest⟩
  · exact ⟨[], by rw [firstPiece_of_absent h, List.append_nil]⟩

/-- The last piece is among those behind the first. -/
theorem lastPiece_eq_of_pieces {sep l rest x : List α} (hsep : sep ≠ [])
    (h : pieces sep l = x :: pieces sep rest) : lastPiece sep l = lastPiece sep rest := by
  obtain ⟨y, ys, hy⟩ := List.exists_cons_of_ne_nil (pieces_ne_nil hsep rest)
  rw [lastPiece, lastPiece, h, hy]
  simp

/-- **The last piece follows an occurrence.** -/
theorem exists_eq_append_lastPiece {sep l : List α} (hsep : sep ≠ []) (h : sep <:+: l) :
    ∃ before, l = before ++ (sep ++ lastPiece sep l) := by
  induction hn : l.length using Nat.strong_induction_on generalizing l with
  | h n ih =>
    obtain ⟨rest, hrest, hpieces⟩ := exists_pieces_eq hsep h
    rw [lastPiece_eq_of_pieces hsep hpieces]
    by_cases hocc : sep <:+: rest
    · have hlt : rest.length < n := by
        have hlength := congrArg List.length hrest
        have hpos := List.length_pos_of_ne_nil hsep
        simp only [List.length_append] at hlength
        omega
      obtain ⟨before, hbefore⟩ := ih rest.length hlt hocc rfl
      refine ⟨firstPiece sep l ++ (sep ++ before), ?_⟩
      rw [List.append_assoc, List.append_assoc, ← hbefore]
      exact hrest
    · exact ⟨firstPiece sep l, by rw [lastPiece_of_absent hocc]; exact hrest⟩

/-! ## Parts of a list -/

/-- **The pieces of two parts** that an element the separator does not have keeps apart. -/
theorem pieces_append_cons {sep : List α} (hsep : sep ≠ []) {c : α} (hc : c ∉ sep) (x y : List α) :
    pieces sep (x ++ c :: y) = glue (pieces sep (x ++ [c])) (pieces sep y) := by
  induction hn : x.length using Nat.strong_induction_on generalizing x with
  | h n ih =>
    cases x with
    | nil =>
      have hstart (l : List α) : ¬ sep <+: c :: l := by
        intro h
        have := (starts_append_cons (x := []) hc).mp h
        exact hsep (List.prefix_nil.mp this)
      rw [List.nil_append, List.nil_append, pieces_cons_of_no_start (hstart y),
        pieces_cons_of_no_start (hstart []), pieces_nil]
      obtain ⟨p, ps, hp⟩ := List.exists_cons_of_ne_nil (pieces_ne_nil hsep y)
      rw [hp]
      rfl
    | cons a x =>
      by_cases hstart : sep <+: a :: x
      · obtain ⟨rest, hrest⟩ := hstart
        have hlt : rest.length < n := by
          have hlength := congrArg List.length hrest
          have hpos := List.length_pos_of_ne_nil hsep
          rw [List.length_append] at hlength
          omega
        rw [← hrest, List.append_assoc, List.append_assoc, pieces_sep_append hsep,
          pieces_sep_append hsep, ih _ hlt rest rfl, glue_cons (pieces_ne_nil hsep _)]
      · have hleft : ¬ sep <+: a :: (x ++ c :: y) := by
          rwa [← List.cons_append, starts_append_cons hc]
        have hright : ¬ sep <+: a :: (x ++ [c]) := by
          rwa [← List.cons_append, starts_append_cons hc]
        have hlt : x.length < n := by
          rw [← hn, List.length_cons]
          omega
        rw [List.cons_append, List.cons_append, pieces_cons_of_no_start hleft,
          pieces_cons_of_no_start hright, ih _ hlt x rfl,
          glue_modifyHead a (pieces_ne_nil hsep _)]

/-- A separator after such an element ends the pieces before it. -/
theorem pieces_append_sep {sep : List α} (hsep : sep ≠ []) {c : α} (hc : c ∉ sep) (x y : List α) :
    pieces sep (x ++ c :: (sep ++ y)) = pieces sep (x ++ [c]) ++ pieces sep y := by
  rw [pieces_append_cons hsep hc, pieces_sep_append hsep, glue_nil_cons (pieces_ne_nil hsep _)]

variable {sep : List α} {c : α}

/-- The first piece ends before the separator. -/
theorem firstPiece_append_sep (hsep : sep ≠ []) (hc : c ∉ sep) (x y : List α) :
    firstPiece sep (x ++ c :: (sep ++ y)) = firstPiece sep (x ++ [c]) := by
  obtain ⟨p, ps, hp⟩ := List.exists_cons_of_ne_nil (pieces_ne_nil hsep (x ++ [c]))
  rw [firstPiece, firstPiece, pieces_append_sep hsep hc, hp]
  rfl

/-- The last piece is one of what follows the separator. -/
theorem lastPiece_append_sep (hsep : sep ≠ []) (hc : c ∉ sep) (x y : List α) :
    lastPiece sep (x ++ c :: (sep ++ y)) = lastPiece sep y := by
  obtain ⟨p, ps, hp⟩ := List.exists_cons_of_ne_nil (pieces_ne_nil hsep y)
  rw [lastPiece, lastPiece, pieces_append_sep hsep hc, hp]
  simp [List.getLast?_eq_some_getLast (List.cons_ne_nil p ps)]

/-- Nothing is cut off where the separator does not occur. -/
theorem lastPiece_append_cons (hsep : sep ≠ []) (hc : c ∉ sep) {x y : List α}
    (hy : ¬ sep <:+: y) : lastPiece sep (x ++ c :: y) = lastPiece sep (x ++ [c]) ++ y := by
  rw [lastPiece, lastPiece, pieces_append_cons hsep hc, pieces_of_absent hy]
  exact getLastD_glue (pieces_ne_nil hsep _) y

/-- The last piece keeps such an element at the end. -/
theorem exists_lastPiece_eq (hsep : sep ≠ []) (hc : c ∉ sep) (x : List α) :
    ∃ z, lastPiece sep (x ++ [c]) = z ++ [c] := by
  by_cases h : sep <:+: x ++ [c]
  · obtain ⟨before, hbefore⟩ := exists_eq_append_lastPiece hsep h
    have hend : sep ++ lastPiece sep (x ++ [c]) ≠ [] := by simp [hsep]
    have hlast : (sep ++ lastPiece sep (x ++ [c])).getLast hend = c := by
      have := congrArg (fun l => l.getLast?) hbefore
      simpa [List.getLast?_append, List.getLast?_eq_some_getLast hend] using this.symm
    cases hpiece : lastPiece sep (x ++ [c]) using List.reverseRec with
    | nil =>
      exfalso
      simp only [hpiece, List.append_nil] at hlast
      exact hc (hlast ▸ List.getLast_mem _)
    | append_singleton z d =>
      refine ⟨z, ?_⟩
      simp only [hpiece] at hlast
      rw [← hlast]
      simp
  · exact ⟨x, lastPiece_of_absent h⟩

/-- An element before an occurrence, none starting with it. -/
theorem lastPiece_cons_of_present (hsep : sep ≠ []) {a : α} {l : List α} (hstart : ¬ sep <+: a :: l)
    (h : sep <:+: l) : lastPiece sep (a :: l) = lastPiece sep l := by
  obtain ⟨rest, -, hpieces⟩ := exists_pieces_eq hsep h
  have hcons : pieces sep (a :: l) = (a :: firstPiece sep l) :: pieces sep rest := by
    rw [pieces_cons_of_no_start hstart, hpieces]
    rfl
  rw [lastPiece_eq_of_pieces hsep hcons, lastPiece_eq_of_pieces hsep hpieces]

/-- A part that holds no start of the separator changes no last piece behind it. -/
theorem lastPiece_append_of_head {a : α} {s x y : List α} (hx : a ∉ x) (h : a :: s <:+: y) :
    lastPiece (a :: s) (x ++ y) = lastPiece (a :: s) y := by
  induction x with
  | nil => rfl
  | cons b x ih =>
    rw [List.mem_cons, not_or] at hx
    have hstart : ¬ a :: s <+: b :: (x ++ y) := by
      rw [List.cons_prefix_cons]
      exact fun h => hx.1 h.1
    rw [List.cons_append, lastPiece_cons_of_present (by simp) hstart, ih hx.2]
    exact (occurs_append_of_head hx.2).mpr h

/-- A separator in front changes no last piece. -/
theorem lastPiece_sep_append (hsep : sep ≠ []) (l : List α) :
    lastPiece sep (sep ++ l) = lastPiece sep l :=
  lastPiece_eq_of_pieces hsep (pieces_sep_append hsep l)

end Pieces

end PrReviewer.Library
