import Mathlib.Data.List.DropRight
import Mathlib.Data.List.Infix
import Mathlib.Data.List.TakeWhile
import PrReviewer.Library.Pieces
import PrReviewer.Model.Text

/-!
# Searching in texts

What the text functions of `PrReviewer.Model.Text` find: occurrences of a pattern, digits, and
the numbers they are read as.
-/

set_option autoImplicit false

namespace PrReviewer.Model

open Library

/-! ## Occurrences -/

/-- A text is found exactly where it stands in one piece. -/
theorem hasText_iff {pat text : List Char} : hasText pat text = true ↔ pat <:+: text := by
  rw [hasText, List.any_eq_true, List.infix_iff_prefix_suffix]
  simp only [List.mem_tails, List.isPrefixOf_iff_prefix]
  exact exists_congr fun t => and_comm

/-- `dropMatches` first passes what is left of a match. -/
theorem dropMatches_eq_drop (len : List Char → Option Nat) (k : Nat) (l : List Char) :
    dropMatches len k l = dropMatches len 0 (l.drop k) := by
  induction l generalizing k with
  | nil => cases k <;> rfl
  | cons c l ih =>
    cases k with
    | zero => rfl
    | succ k =>
      rw [dropMatches, ih]
      rfl

section Remove

variable {pat : List Char}

/-- A pattern at the front is removed. -/
theorem removeAll_self_append (hpat : pat ≠ []) (l : List Char) :
    removeAll pat (pat ++ l) = removeAll pat l := by
  obtain ⟨c, rest, rfl⟩ := List.exists_cons_of_ne_nil hpat
  have hstart : (c :: rest).isPrefixOf (c :: (rest ++ l)) = true :=
    List.isPrefixOf_iff_prefix.mpr (List.prefix_append (c :: rest) l)
  rw [removeAll, List.cons_append, dropMatches, if_pos hstart]
  show dropMatches _ rest.length (rest ++ l) = _
  rw [dropMatches_eq_drop, List.drop_left]
  rfl

/-- A character that starts no pattern stays. -/
theorem removeAll_cons {c : Char} {l : List Char} (h : ¬ pat <+: c :: l) :
    removeAll pat (c :: l) = c :: removeAll pat l := by
  rw [removeAll, dropMatches, if_neg (by rwa [List.isPrefixOf_iff_prefix])]
  rfl

/-- Where the pattern does not stand nothing is removed. -/
theorem removeAll_of_absent {l : List Char} (h : ¬ pat <:+: l) : removeAll pat l = l := by
  induction l with
  | nil => rfl
  | cons c l ih =>
    rw [List.infix_cons_iff, not_or] at h
    rw [removeAll_cons h.1, ih h.2]

/-- **Induction along `removeAll`**: either the pattern starts the text, or one character is
passed. -/
theorem removeAll_induction (hpat : pat ≠ []) {motive : List Char → Prop} (hnil : motive [])
    (hsep : ∀ l, motive l → motive (pat ++ l))
    (hcons : ∀ c l, ¬ pat <+: c :: l → motive l → motive (c :: l)) (l : List Char) :
    motive l := by
  induction hn : l.length using Nat.strong_induction_on generalizing l with
  | h n ih =>
    cases l with
    | nil => exact hnil
    | cons c l =>
      by_cases h : pat <+: c :: l
      · obtain ⟨rest, hrest⟩ := h
        have hlt : rest.length < n := by
          have hlength := congrArg List.length hrest
          have hpos := List.length_pos_of_ne_nil hpat
          rw [List.length_append] at hlength
          omega
        rw [← hrest]
        exact hsep rest (ih _ hlt rest rfl)
      · exact hcons c l h (ih l.length (by rw [← hn, List.length_cons]; omega) l rfl)

/-- Removing makes no text longer. -/
theorem length_removeAll_le (hpat : pat ≠ []) (l : List Char) :
    (removeAll pat l).length ≤ l.length := by
  induction l using removeAll_induction hpat with
  | hnil => exact Nat.le_refl 0
  | hsep l ih =>
    rw [removeAll_self_append hpat, List.length_append]
    omega
  | hcons c l h ih =>
    rw [removeAll_cons h]
    simpa using ih

/-- A text with the pattern in it gets shorter. -/
theorem length_removeAll_lt (hpat : pat ≠ []) {l : List Char} (h : pat <:+: l) :
    (removeAll pat l).length < l.length := by
  induction l using removeAll_induction hpat with
  | hnil => exact absurd (List.eq_nil_of_infix_nil h) hpat
  | hsep l ih =>
    have hle := length_removeAll_le hpat l
    have hpos := List.length_pos_of_ne_nil hpat
    rw [removeAll_self_append hpat, List.length_append]
    omega
  | hcons c l hstart ih =>
    have hlt := ih ((List.infix_cons_iff.mp h).resolve_left hstart)
    rw [removeAll_cons hstart]
    simpa using hlt

/-- A character the pattern does not have stays. -/
theorem mem_removeAll (hpat : pat ≠ []) {c : Char} (hc : c ∉ pat) (l : List Char) :
    c ∈ removeAll pat l ↔ c ∈ l := by
  induction l using removeAll_induction hpat with
  | hnil => exact Iff.rfl
  | hsep l ih => rw [removeAll_self_append hpat, ih, List.mem_append, or_iff_right hc]
  | hcons d l h ih => rw [removeAll_cons h, List.mem_cons, List.mem_cons, ih]

/-- What follows such a character stays as it is, if the pattern has none of it. -/
theorem removeAll_append (hpat : pat ≠ []) {y : List Char} (hy : ∀ c ∈ y, c ∉ pat)
    (x : List Char) : removeAll pat (x ++ y) = removeAll pat x ++ y := by
  cases y with
  | nil => simp
  | cons d y =>
    have hd : d ∉ pat := hy d List.mem_cons_self
    induction x using removeAll_induction hpat with
    | hnil =>
      rw [List.nil_append]
      apply removeAll_of_absent
      intro hocc
      obtain ⟨c, rest, hpat'⟩ := List.exists_cons_of_ne_nil hpat
      have hc : c ∈ d :: y := hocc.subset (by rw [hpat']; exact List.mem_cons_self)
      exact hy c hc (by rw [hpat']; exact List.mem_cons_self)
    | hsep x ih =>
      rw [List.append_assoc, removeAll_self_append hpat, ih, removeAll_self_append hpat]
    | hcons c x h ih =>
      have hstart : ¬ pat <+: c :: (x ++ d :: y) := by
        rwa [← List.cons_append, starts_append_cons hd]
      rw [List.cons_append, removeAll_cons hstart, ih, removeAll_cons h, List.cons_append]

end Remove

/-! ## Mentions -/

/-- A text without an opening bracket has no mention. -/
theorem stripMentions_of_notMem {text : List Char} (h : '<' ∉ text) : stripMentions text = text := by
  unfold stripMentions
  induction text with
  | nil => rfl
  | cons c text ih =>
    rw [List.mem_cons, not_or] at h
    have hnone : mentionLength (c :: text) = none := by
      unfold mentionLength
      split
      · rename_i heq
        exact absurd (List.cons.inj heq).1.symm h.1
      · rfl
    rw [dropMatches, hnone, ih h.2]

/-- A bracket is found behind other characters. -/
theorem upToBracket_append {x y : List Char} (hx : ∀ c ∈ x, c ≠ '>' ∧ c ≠ '\n') :
    upToBracket (x ++ '>' :: y) = some (x.length + 1) := by
  induction x with
  | nil => rfl
  | cons c x ih =>
    obtain ⟨hc, hx⟩ := List.forall_mem_cons.mp hx
    rw [List.cons_append, upToBracket, if_neg (by simp [hc.1]), if_neg (by simp [hc.2]), ih hx]
    rfl

/-- A mention at the start of a text is taken off. -/
theorem stripMentions_mention {x y : List Char} (hx : ∀ c ∈ x, c ≠ '>' ∧ c ≠ '\n') :
    stripMentions ('<' :: '@' :: (x ++ '>' :: y)) = stripMentions y := by
  have hlength : mentionLength ('<' :: '@' :: (x ++ '>' :: y)) = some (x.length + 2 + 1) := by
    rw [mentionLength, upToBracket_append hx]
    rfl
  have hdrop : ('@' :: (x ++ '>' :: y)).drop (x.length + 2) = y := by
    have hsplit : x ++ '>' :: y = (x ++ ['>']) ++ y := by simp
    rw [List.drop_succ_cons, hsplit]
    exact List.drop_left' (by simp)
  rw [stripMentions, dropMatches, hlength]
  show dropMatches mentionLength (x.length + 2) ('@' :: (x ++ '>' :: y)) = _
  rw [dropMatches_eq_drop, hdrop]
  rfl

/-! ## Digits -/

/-- A digit is no white space. -/
theorem isSpace_of_digit {c : Char} (h : c.isDigit = true) : isSpace c = false := by
  have hdigit : 48 ≤ c.toNat ∧ c.toNat ≤ 57 := by
    simp only [Char.isDigit, Bool.and_eq_true, decide_eq_true_eq] at h
    exact ⟨h.1, h.2⟩
  simp only [isSpace, Bool.or_eq_false_iff, Bool.and_eq_false_iff, decide_eq_false_iff_not,
    beq_eq_false_iff_ne]
  omega

/-- Letters and digits are ASCII. -/
theorem isAscii_of_isAlphanum {c : Char} (h : c.isAlphanum = true) : isAscii c = true := by
  have hle : c.toNat ≤ 122 := by
    have hcases : (c.isUpper || c.isLower || c.isDigit) = true := h
    rw [Bool.or_eq_true, Bool.or_eq_true] at hcases
    rcases hcases with (hupper | hlower) | hdigit
    · have hval : c.val ≥ 'A'.val ∧ c.val ≤ 'Z'.val := of_decide_eq_true hupper
      exact Nat.le_trans hval.2 (by decide)
    · have hval : (decide (c.val ≥ 'a'.val) && decide (c.val ≤ 'z'.val)) = true := hlower
      rw [Bool.and_eq_true] at hval
      exact of_decide_eq_true hval.2
    · have hval : (decide (c.val ≥ '0'.val) && decide (c.val ≤ '9'.val)) = true := hdigit
      rw [Bool.and_eq_true] at hval
      have hnine : c.val ≤ '9'.val := of_decide_eq_true hval.2
      exact Nat.le_trans hnine (by decide)
  simp only [isAscii, decide_eq_true_eq]
  omega

/-- Digits are ASCII. -/
theorem isAscii_of_isDigit {c : Char} (h : c.isDigit = true) : isAscii c = true := by
  simp only [Char.isDigit, Bool.and_eq_true, decide_eq_true_eq] at h
  have hle : c.toNat ≤ 57 := h.2
  simp only [isAscii, decide_eq_true_eq]
  omega

/-- An ASCII digit has its own value. -/
theorem digitVal_of_isDigit (u : Unicode) {c : Char} (h : c.isDigit = true) :
    u.digitVal c = some (c.toNat - 48) := by
  rw [Unicode.digitVal, if_pos (isAscii_of_isDigit h), if_pos h]

/-- A number is written in digits. -/
theorem isDigit_toDigits {n : Nat} : ∀ c ∈ Nat.toDigits 10 n, c.isDigit = true :=
  fun _ hc => Nat.isDigit_of_mem_toDigits (by decide) (by decide) hc

/-- Digits are read as their number. -/
theorem readDigits_of_digits (u : Unicode) {cs : List Char} (h : ∀ c ∈ cs, c.isDigit = true)
    (acc : Nat) : readDigits u true acc cs = some (Nat.ofDigitChars 10 cs acc) := by
  induction cs generalizing acc with
  | nil => simp [readDigits]
  | cons c cs ih =>
    obtain ⟨hc, hcs⟩ := List.forall_mem_cons.mp h
    simp only [readDigits, digitVal_of_isDigit u hc]
    rw [ih hcs, Nat.ofDigitChars_cons, Nat.mul_comm]
    rfl

/-- What is no white space is none for `int`. -/
theorem isIntSpace_of_not_isSpace {c : Char} (h : isSpace c = false) : isIntSpace c = false := by
  rw [isIntSpace, h, Bool.false_and]

/-- The text `int` reads after it has taken the white space off. -/
theorem trim_of_digits {cs : List Char} (h : ∀ c ∈ cs, c.isDigit = true) :
    ((cs.dropWhile isIntSpace).reverse.dropWhile isIntSpace).reverse = cs := by
  have hno : ∀ c ∈ cs, isIntSpace c = false := fun c hc =>
    isIntSpace_of_not_isSpace (isSpace_of_digit (h c hc))
  have hfront : cs.dropWhile isIntSpace = cs := by
    cases cs with
    | nil => rfl
    | cons c cs => simp [hno c List.mem_cons_self]
  have hback : cs.reverse.dropWhile isIntSpace = cs.reverse := by
    cases hr : cs.reverse with
    | nil => rfl
    | cons c rest =>
      have hc : c ∈ cs := List.mem_reverse.mp (by rw [hr]; exact List.mem_cons_self)
      simp [hno c hc]
  rw [hfront, hback, List.reverse_reverse]

/-- **`int` on digits**: it reads them, unless there are more than 4300. -/
theorem pyInt_of_digits (u : Unicode) {cs : List Char} (h : ∀ c ∈ cs, c.isDigit = true)
    (hne : cs ≠ []) :
    pyInt u cs = if cs.length ≤ 4300 then some (Nat.ofDigitChars 10 cs 0 : Int) else none := by
  obtain ⟨c, rest, rfl⟩ := List.exists_cons_of_ne_nil hne
  obtain ⟨hc, hrest⟩ := List.forall_mem_cons.mp h
  have hminus : c ≠ '-' := by
    rintro rfl
    cases hc
  have hplus : c ≠ '+' := by
    rintro rfl
    cases hc
  have hall : ((c :: rest).filter fun d => (u.digitVal d).isSome) = c :: rest := by
    rw [List.filter_eq_self]
    intro d hd
    rw [digitVal_of_isDigit u (h d hd)]
    rfl
  have hread : readDigits u false 0 (c :: rest) = some (Nat.ofDigitChars 10 (c :: rest) 0) := by
    simp only [readDigits, digitVal_of_isDigit u hc]
    rw [readDigits_of_digits u hrest, Nat.ofDigitChars_cons, Nat.mul_comm]
    rfl
  unfold pyInt
  simp only [trim_of_digits h]
  split
  · rename_i heq
    exact absurd (List.cons.inj heq).1 hminus
  · rename_i heq
    exact absurd (List.cons.inj heq).1 hplus
  · rw [hall, hread]
    by_cases hlen : (c :: rest).length ≤ 4300
    · rw [if_neg (by omega), if_pos hlen]
      show Option.map _ (some _) = _
      rw [Option.map_some]
      split
      · rename_i heq
        exact absurd (List.cons.inj heq).1 hminus
      · rfl
    · rw [if_pos (by omega), if_neg hlen]

/-- What is read as a number consists of digits and underscores. -/
theorem readDigits_chars (u : Unicode) {prev : Bool} {acc n : Nat} {cs : List Char}
    (h : readDigits u prev acc cs = some n) : ∀ c ∈ cs, (u.digitVal c).isSome = true ∨ c = '_' := by
  induction cs generalizing prev acc with
  | nil => simp
  | cons c cs ih =>
    rw [readDigits] at h
    cases hd : u.digitVal c with
    | some d =>
      simp only [hd] at h
      exact List.forall_mem_cons.mpr ⟨Or.inl (by rw [hd]; rfl), ih h⟩
    | none =>
      simp only [hd] at h
      split at h
      · rename_i hc
        rw [Bool.and_eq_true, beq_iff_eq] at hc
        exact List.forall_mem_cons.mpr ⟨Or.inr hc.1, ih h⟩
      · cases h

/-- A text that `int` reads has nothing in it but white space, a sign, digits and underscores. -/
theorem notMem_of_pyInt {u : Unicode} {cs : List Char} {n : Int} {c : Char}
    (h : pyInt u cs = some n) (hspace : isSpace c = false) (hdigit : u.digitVal c = none)
    (hsign : c ≠ '-' ∧ c ≠ '+' ∧ c ≠ '_') : c ∉ cs := by
  intro hmem
  have hdrop : ∀ l : List Char, c ∈ l → c ∈ l.dropWhile isIntSpace := by
    intro l hl
    rw [← List.takeWhile_append_dropWhile (p := isIntSpace) (l := l), List.mem_append] at hl
    refine hl.resolve_left fun h => ?_
    have hs := List.mem_takeWhile_imp h
    rw [isIntSpace_of_not_isSpace hspace] at hs
    cases hs
  have hbody : c ∈ ((cs.dropWhile isIntSpace).reverse.dropWhile isIntSpace).reverse :=
    List.mem_reverse.mpr (hdrop _ (List.mem_reverse.mpr (hdrop cs hmem)))
  have hnone : ∀ l, c ∈ l → readDigits u false 0 l = none := by
    intro l hl
    cases hr : readDigits u false 0 l with
    | none => rfl
    | some m =>
      rcases readDigits_chars u hr c hl with h | h
      · rw [hdigit] at h
        cases h
      · exact absurd h hsign.2.2
  unfold pyInt at h
  generalize ((cs.dropWhile isIntSpace).reverse.dropWhile isIntSpace).reverse = body at h hbody
  simp only at h
  -- what is left of the text after a sign still has the character
  split at h
  · rename_i rest
    rw [hnone rest ((List.mem_cons.mp hbody).resolve_left hsign.1)] at h
    split at h <;> cases h
  · rename_i rest
    rw [hnone rest ((List.mem_cons.mp hbody).resolve_left hsign.2.1)] at h
    split at h <;> cases h
  · rw [hnone _ hbody] at h
    split at h <;> cases h

/-- `int` reads the digits of a number back, if they are not too many. -/
theorem pyInt_toDigits (u : Unicode) (n : Nat) :
    pyInt u (Nat.toDigits 10 n) =
      if (Nat.toDigits 10 n).length ≤ 4300 then some (n : Int) else none := by
  rw [pyInt_of_digits u isDigit_toDigits Nat.toDigits_ne_nil, Nat.ofDigitChars_ten_toDigits]

/-! ## The first number -/

section FirstDigits

variable {u : Unicode}

/-- Nothing is taken from a text whose first character fails. -/
theorem takeWhile_append_of_head {α : Type} {p : α → Bool} {x y : List α}
    (hy : ∀ c, y.head? = some c → p c = false) : (x ++ y).takeWhile p = x.takeWhile p := by
  induction x with
  | nil =>
    cases y with
    | nil => rfl
    | cons c y => simp [hy c rfl]
  | cons c x ih => rw [List.cons_append, List.takeWhile_cons, List.takeWhile_cons, ih]

/-- An ASCII character that is no digit has no digit's value. -/
theorem digitVal_eq_none {c : Char} (hascii : isAscii c = true) (hdigit : c.isDigit = false) :
    u.digitVal c = none := by
  rw [Unicode.digitVal, if_pos hascii, if_neg (by simp [hdigit])]

/-- The first number of a text whose digits end where the next one begins. -/
theorem firstDigits_append {x y : List Char} (hy : ∀ c, y.head? = some c → u.digitVal c = none) :
    firstDigits u (x ++ y) = (firstDigits u x).or (firstDigits u y) := by
  induction x with
  | nil => rfl
  | cons c x ih =>
    cases hc : u.digitVal c with
    | none =>
      have hskip : ∀ z, firstDigits u (c :: z) = firstDigits u z := by
        intro z
        unfold firstDigits
        rw [List.dropWhile_cons_of_pos (by simp [hc])]
      rw [List.cons_append, hskip, hskip, ih]
    | some d =>
      have hstop : ∀ z, firstDigits u (c :: z) =
          some (c :: z.takeWhile fun c => (u.digitVal c).isSome) := by
        intro z
        unfold firstDigits
        rw [List.dropWhile_cons_of_neg (by simp [hc])]
        simp [hc]
      have hend : ∀ c, y.head? = some c → (u.digitVal c).isSome = false := by
        intro c hc
        rw [hy c hc]
        rfl
      rw [List.cons_append, hstop, hstop, takeWhile_append_of_head hend]
      rfl

/-- Characters before the first digit are skipped. -/
theorem firstDigits_skip {x y : List Char} (hx : ∀ c ∈ x, u.digitVal c = none) :
    firstDigits u (x ++ y) = firstDigits u y := by
  unfold firstDigits
  rw [List.dropWhile_append_of_pos]
  intro c hc
  simp [hx c hc]

/-- The first digits of a number are all of it. -/
theorem firstDigits_toDigits (n : Nat) :
    firstDigits u (Nat.toDigits 10 n) = some (Nat.toDigits 10 n) := by
  have hdigit : ∀ c ∈ Nat.toDigits 10 n, (u.digitVal c).isSome = true := by
    intro c hc
    rw [digitVal_of_isDigit u (isDigit_toDigits c hc)]
    rfl
  obtain ⟨c, rest, hcons⟩ := List.exists_cons_of_ne_nil (Nat.toDigits_ne_nil (b := 10) (n := n))
  have hdrop : (Nat.toDigits 10 n).dropWhile (fun c => (u.digitVal c).isNone) =
      Nat.toDigits 10 n := by
    rw [hcons] at hdigit ⊢
    have hc := hdigit c List.mem_cons_self
    rw [List.dropWhile_cons_of_neg]
    simpa using Option.isSome_iff_ne_none.mp hc
  have htake : (Nat.toDigits 10 n).takeWhile (fun c => (u.digitVal c).isSome) =
      Nat.toDigits 10 n := by
    rw [List.takeWhile_eq_self_iff]
    exact hdigit
  unfold firstDigits
  rw [hdrop]
  split
  · rename_i heq
    exact absurd heq Nat.toDigits_ne_nil
  · rw [htake]

end FirstDigits

/-! ## Letters -/

/-- A character and its lower case: itself, or the capital 32 places before it. -/
theorem toLower_cases {c p : Char} (h : c.toLower = p) :
    c = p ∨ (65 ≤ c.toNat ∧ c.toNat ≤ 90 ∧ p.toNat = c.toNat + 32) := by
  unfold Char.toLower at h
  split at h
  · rename_i hupper
    right
    have hlow : 65 ≤ c.toNat := hupper.1
    have hhigh : c.toNat ≤ 90 := hupper.2
    refine ⟨hlow, hhigh, ?_⟩
    rw [← h]
    show (c.val + 32).toNat = c.val.toNat + 32
    rw [UInt32.toNat_add]
    have hval : c.val.toNat ≤ 90 := hhigh
    have hthirty : (32 : UInt32).toNat = 32 := rfl
    omega
  · exact Or.inl h

/-- A character of a pattern other than `i`, against a text. -/
theorem eqIgnoreCase_cases {p c : Char} (hp : p ≠ 'i') (h : eqIgnoreCase p c = true) :
    c = p ∨ (65 ≤ c.toNat ∧ c.toNat ≤ 90 ∧ p.toNat = c.toNat + 32) := by
  simp only [eqIgnoreCase, Bool.or_eq_true, beq_iff_eq, Bool.and_eq_true, hp, false_and,
    or_false] at h
  rcases h with h | h
  · exact Or.inl h
  · exact toLower_cases h

/-- A character is itself, ignoring case. -/
theorem eqIgnoreCase_self (p : Char) : eqIgnoreCase p p = true := by
  simp [eqIgnoreCase]

/-- A pattern without letters is found as it is. -/
theorem eq_of_eqIgnoreCase {p c : Char} (hp : p ≠ 'i') (hlow : p.toNat < 97 ∨ 122 < p.toNat)
    (h : eqIgnoreCase p c = true) : c = p := by
  rcases eqIgnoreCase_cases hp h with h | h
  · exact h
  · omega

/-- Behind a pattern at the front stands the rest. -/
theorem afterIgnoreCase_append (pat text : List Char) :
    afterIgnoreCase pat (pat ++ text) = some text := by
  induction pat with
  | nil => rfl
  | cons p pat ih => rw [List.cons_append, afterIgnoreCase, if_pos (eqIgnoreCase_self p), ih]

/-- What a pattern matches at the start of a text. -/
theorem afterIgnoreCase_eq_some {pat text rest : List Char} :
    afterIgnoreCase pat text = some rest ↔
      ∃ found, text = found ++ rest ∧ List.Forall₂ (fun p c => eqIgnoreCase p c = true) pat found := by
  induction pat generalizing text with
  | nil =>
    rw [afterIgnoreCase, Option.some.injEq]
    constructor
    · rintro rfl
      exact ⟨[], rfl, .nil⟩
    · rintro ⟨found, rfl, hall⟩
      cases hall
      rfl
  | cons p pat ih =>
    cases text with
    | nil =>
      constructor
      · intro h
        cases h
      · rintro ⟨found, htext, hall⟩
        obtain ⟨rfl, -⟩ := List.append_eq_nil_iff.mp htext.symm
        cases hall
    | cons c text =>
      rw [afterIgnoreCase]
      by_cases hc : eqIgnoreCase p c = true
      · rw [if_pos hc, ih]
        constructor
        · rintro ⟨found, rfl, hall⟩
          exact ⟨c :: found, rfl, .cons hc hall⟩
        · rintro ⟨found, htext, hall⟩
          cases hall with
          | cons _ hall =>
            obtain ⟨-, rfl⟩ := List.cons.inj htext
            exact ⟨_, rfl, hall⟩
      · rw [if_neg hc]
        constructor
        · intro h
          cases h
        · rintro ⟨found, htext, hall⟩
          cases hall with
          | cons hp hall =>
            obtain ⟨rfl, -⟩ := List.cons.inj htext
            exact absurd hp hc

/-- ASCII letters, digits and the underscore are word characters. -/
theorem isWord_of_ascii (u : Unicode) {c : Char} (hc : c.isAlphanum = true ∨ c = '_') :
    u.isWord c = true := by
  have hascii : isAscii c = true := by
    rcases hc with h | rfl
    · exact isAscii_of_isAlphanum h
    · decide
  rw [Unicode.isWord, if_pos hascii, Bool.or_eq_true, beq_iff_eq]
  exact hc

end PrReviewer.Model
