import Mathlib.Data.List.Nodup
import PrReviewer.Library.JsonText
import PrReviewer.Library.JsonTree

/-!
# Written JSON reads back

The text of a value lexes to the tokens of a document, and the document has a value: the one
written, but with the text of a key for the key, and one entry a key. A value whose keys are
strings, none of them twice, reads back as itself.

A text that ends between tokens can be followed by what may stand after a value; so each law is
about one text, and texts are put together from the parts they are written in.
-/

set_option autoImplicit false

namespace PrReviewer.Library

/-! ## Texts put together -/

/-- A number ends before the text. -/
def Delimited (rest : List Char) : Prop :=
  ∀ c ∈ rest.head?, c ∈ [',', ']', '\x7d']

/-- A closing or separating character delimits. -/
theorem delimited_cons {c : Char} {rest : List Char} (h : c ∈ [',', ']', '\x7d']) :
    Delimited (c :: rest) := by
  simpa [Delimited] using h

namespace Lexing

variable {lone : Nat → Char}

/-- A character is lexed by one step. -/
theorem lexFrom_of_step {l m : Lexing} {c : Char} {out : List Token} (cs : List Char)
    (h : l.step lone c = (out, some m)) :
    l.lexFrom lone (c :: cs) = (out ++ (m.lexFrom lone cs).1, (m.lexFrom lone cs).2) := by
  rw [lexFrom, h]

/-- What may stand after a value ends a number. -/
theorem numberStep_delimiter {c : Char} (text : List Char) (part : NumberPart)
    (h : c ∈ [',', ']', '\x7d']) :
    numberStep text part c = (numberToken text part :: (startToken c).1, (startToken c).2) := by
  have hc : c.isDigit = false ∧ c ≠ '.' ∧ c ≠ 'e' ∧ c ≠ 'E' := by
    simp only [List.mem_cons, List.not_mem_nil, or_false] at h
    rcases h with rfl | rfl | rfl <;> decide
  rw [numberStep, if_neg (by simp [hc.1]), if_neg (by simp [hc.2.1]), if_neg (by simp [hc.2.2])]

/-- A token that may end here is ended by a delimiter. -/
theorem lexFrom_delimited {l : Lexing} {rest : List Char} (hl : l.finish.2 = true)
    (hrest : Delimited rest) :
    l.lexFrom lone rest =
      (l.finish.1 ++ (idle.lexFrom lone rest).1, (idle.lexFrom lone rest).2) := by
  cases l with
  | idle => rfl
  | number text part =>
    cases rest with
    | nil => rfl
    | cons c rest =>
      have hc : c ∈ [',', ']', '\x7d'] := hrest c rfl
      rcases hstart : startToken c with ⟨out, next⟩
      have hidle : idle.step lone c = (out, next) := hstart
      have hnumber : (number text part).step lone c = (numberToken text part :: out, next) := by
        rw [step, numberStep_delimiter text part (hrest c rfl), hstart]
      rw [lexFrom, lexFrom, hnumber, hidle]
      cases next <;> rfl
  | quoted units => cases hl
  | escape units => cases hl
  | hex units code digits => cases hl
  | word w n => cases hl
  | minus => cases hl
  | pending text part more start => cases hl

/-- **A text before what may follow a value.** -/
theorem lexFrom_append {l : Lexing} {xs rest : List Char} (h : (l.lexFrom lone xs).2 = true)
    (hrest : Delimited rest) :
    l.lexFrom lone (xs ++ rest) =
      ((l.lexFrom lone xs).1 ++ (idle.lexFrom lone rest).1, (idle.lexFrom lone rest).2) := by
  induction xs generalizing l with
  | nil => exact lexFrom_delimited h hrest
  | cons c xs ih =>
    obtain ⟨out, m, hstep, hrun, hlex⟩ := lexFrom_cons h
    rw [List.cons_append, lexFrom_of_step _ hstep, ih hrun, hlex, List.append_assoc]

end Lexing

/-- The text is complete, and its tokens are these. -/
def Spells (lone : Nat → Char) (text : List Char) (tokens : List Token) : Prop :=
  lex lone text = (tokens, true)

namespace Spells

variable {lone : Nat → Char} {xs ys : List Char} {ts us : List Token}

/-- The empty text spells no tokens. -/
theorem nil : Spells lone [] [] :=
  rfl

/-- Two spellings with a delimiter between them spell both. -/
theorem append (hx : Spells lone xs ts) (hy : Spells lone ys us) (hd : Delimited ys) :
    Spells lone (xs ++ ys) (ts ++ us) := by
  unfold Spells lex at hx hy ⊢
  rw [Lexing.lexFrom_append (by rw [hx]) hd, hx, hy]

/-- A bracket, a comma or a colon. -/
theorem sign {c : Char} {t : Token} (hc : startToken c = ([t], some .idle))
    (hy : Spells lone ys us) : Spells lone (c :: ys) (t :: us) := by
  have hstep : Lexing.idle.step lone c = ([t], some .idle) := hc
  unfold Spells lex at hy ⊢
  rw [Lexing.lexFrom_of_step ys hstep, hy]
  rfl

/-- A space before a spelling spells the same. -/
theorem space (hy : Spells lone ys us) : Spells lone (' ' :: ys) us := by
  have hstep : Lexing.idle.step lone ' ' = ([], some .idle) := rfl
  unfold Spells lex at hy ⊢
  rw [Lexing.lexFrom_of_step ys hstep, hy]
  rfl

end Spells

/-! ## Strings -/

namespace Lexing

variable {lone : Nat → Char}

/-- The hexadecimal digits are read back. -/
theorem hexDigit_digitChar : ∀ d < 16, hexDigit d.digitChar = some d := by
  decide

/-- A character with a short escape is read back from it. -/
theorem escaped_eq_of {c d : Char} {u : Nat} (hd : escaped d = some u) (hc : c.toNat = u)
    (units : List Nat) (rest : List Char) : (quoted units).lexFrom lone ('\\' :: d :: rest) =
      (quoted (units ++ [c.toNat])).lexFrom lone rest := by
  have hstep : (escape units).step lone d = ([], some (quoted (units ++ [c.toNat]))) := by
    rw [step, escapeStep, hd, hc]
  have hback : (quoted units).step lone '\\' = ([], some (escape units)) := rfl
  rw [lexFrom_of_step _ hback, lexFrom_of_step _ hstep]
  rfl

/-- A control character is read back from its code. -/
theorem lexFrom_control {c : Char} (h : c.toNat < 32) (units : List Nat) (rest : List Char) :
    (quoted units).lexFrom lone
        ('\\' :: 'u' :: '0' :: '0' ::
          (c.toNat / 16).digitChar :: (c.toNat % 16).digitChar :: rest) =
      (quoted (units ++ [c.toNat])).lexFrom lone rest := by
  have hhigh := hexDigit_digitChar (c.toNat / 16) (by omega)
  have hlow := hexDigit_digitChar (c.toNat % 16) (by omega)
  have hcode : 16 * (c.toNat / 16) + c.toNat % 16 = c.toNat := Nat.div_add_mod _ _
  have hback : (quoted units).step lone '\\' = ([], some (escape units)) := rfl
  have hu : (escape units).step lone 'u' = ([], some (hex units 0 0)) := rfl
  have hzero : (hex units 0 0).step lone '0' = ([], some (hex units 0 1)) := rfl
  have hzero' : (hex units 0 1).step lone '0' = ([], some (hex units 0 2)) := rfl
  have hthird : (hex units 0 2).step lone (c.toNat / 16).digitChar =
      ([], some (hex units (c.toNat / 16) 3)) := by
    rw [step, hexStep, hhigh]
    simp
  have hfourth : (hex units (c.toNat / 16) 3).step lone (c.toNat % 16).digitChar =
      ([], some (quoted (units ++ [c.toNat]))) := by
    rw [step, hexStep, hlow]
    simp [hcode]
  rw [lexFrom_of_step _ hback, lexFrom_of_step _ hu, lexFrom_of_step _ hzero,
    lexFrom_of_step _ hzero', lexFrom_of_step _ hthird, lexFrom_of_step _ hfourth]
  rfl

/-- **A written character** adds itself to the string. -/
theorem lexFrom_escapeChar (c : Char) (units : List Nat) (rest : List Char) :
    (quoted units).lexFrom lone (escapeChar c ++ rest) =
      (quoted (units ++ [c.toNat])).lexFrom lone rest := by
  unfold escapeChar
  split_ifs with hquote hback hn hr ht hf hb hcontrol
  · exact @escaped_eq_of _ _ '"' _ rfl (by rw [hquote]; rfl) units rest
  · exact @escaped_eq_of _ _ '\\' _ rfl (by rw [hback]; rfl) units rest
  · exact @escaped_eq_of _ _ 'n' _ rfl (by rw [hn]; rfl) units rest
  · exact @escaped_eq_of _ _ 'r' _ rfl (by rw [hr]; rfl) units rest
  · exact @escaped_eq_of _ _ 't' _ rfl (by rw [ht]; rfl) units rest
  · exact @escaped_eq_of _ _ 'f' _ rfl hf units rest
  · exact @escaped_eq_of _ _ 'b' _ rfl hb units rest
  · exact lexFrom_control hcontrol units rest
  · have hplain : (quoted units).step lone c = ([], some (quoted (units ++ [c.toNat]))) := by
      rw [step, quotedStep, if_neg hquote, if_neg hback, if_neg hcontrol]
    rw [List.singleton_append, lexFrom_of_step _ hplain]
    rfl

/-- An escaped text is read back in a string. -/
theorem lexFrom_escape (cs : List Char) (units : List Nat) (rest : List Char) :
    (quoted units).lexFrom lone (PrReviewer.Library.escape cs ++ rest) =
      (quoted (units ++ cs.map Char.toNat)).lexFrom lone rest := by
  induction cs generalizing units with
  | nil => simp [PrReviewer.Library.escape]
  | cons c cs ih =>
    have hsplit : PrReviewer.Library.escape (c :: cs) ++ rest =
        escapeChar c ++ (PrReviewer.Library.escape cs ++ rest) := by
      rw [PrReviewer.Library.escape, List.flatMap_cons, List.append_assoc]
      rfl
    rw [hsplit, lexFrom_escapeChar, ih, List.map_cons, List.append_assoc, List.singleton_append]

end Lexing

/-- **A string reads back**, whatever follows it. -/
theorem Spells.string {lone : Nat → Char} {ys : List Char} {us : List Token} (cs : List Char)
    (hy : Spells lone ys us) :
    Spells lone ('"' :: (escape cs ++ '"' :: ys)) (.str (String.ofList cs) :: us) := by
  have hopen : Lexing.idle.step lone '"' = ([], some (.quoted [])) := rfl
  have hclose : (Lexing.quoted (cs.map Char.toNat)).step lone '"' =
      ([.str (String.ofList cs)], some .idle) := by
    rw [Lexing.step, Lexing.quotedStep, if_pos rfl, joinUnits_map]
  unfold Spells lex at hy ⊢
  rw [Lexing.lexFrom_of_step _ hopen, Lexing.lexFrom_escape, List.nil_append (cs.map _),
    Lexing.lexFrom_of_step _ hclose, hy]
  rfl

/-! ## Integers -/

/-- A digit above zero is none of the zeros. -/
theorem digitChar_pos : ∀ d < 10, 0 < d → d.digitChar.isDigit = true ∧ d.digitChar ≠ '0' := by
  decide

/-- A number above zero is written without a leading zero. -/
theorem toDigits_head {n : Nat} (hn : 0 < n) :
    ∃ c cs, Nat.toDigits 10 n = c :: cs ∧ c.isDigit = true ∧ c ≠ '0' := by
  induction n using Nat.strong_induction_on with
  | _ n ih =>
    rcases Nat.lt_or_ge n 10 with hlt | hge
    · exact ⟨n.digitChar, [], Nat.toDigits_of_lt_base hlt, digitChar_pos n hlt hn⟩
    · obtain ⟨c, cs, hdigits, hc⟩ := ih (n / 10) (by omega) (by omega)
      exact ⟨c, _, by rw [Nat.toDigits_of_base_le (by omega) hge, hdigits, List.cons_append], hc⟩

/-- A number is read back from its digits. -/
theorem digitsValue_toDigits (n : Nat) : digitsValue (Nat.toDigits 10 n) = n := by
  have h := @Nat.ofDigitChars_ten_toDigits n
  rwa [Nat.ofDigitChars_eq_foldl] at h

namespace Lexing

variable {lone : Nat → Char}

/-- Digits after digits. -/
theorem lexFrom_digits {ds : List Char} (text : List Char) (h : ∀ c ∈ ds, c.isDigit = true) :
    (number text .whole).lexFrom lone ds = ([.int (readInt (text ++ ds))], true) := by
  induction ds generalizing text with
  | nil =>
    rw [List.append_nil]
    rfl
  | cons c ds ih =>
    have hstep : (number text .whole).step lone c = ([], some (number (text ++ [c]) .whole)) := by
      rw [step, numberStep, if_pos ⟨h c List.mem_cons_self, by decide⟩]
    rw [lexFrom_of_step _ hstep, ih _ fun d hd => h d (List.mem_cons_of_mem _ hd),
      List.append_assoc]
    rfl

/-- No token but a number begins with a digit that is not zero. -/
theorem startToken_digit {c : Char} (h : c.isDigit = true) (hzero : c ≠ '0') :
    startToken c = ([], some (number [c] .whole)) := by
  have htable : ∀ e ∈ tokenStarts, e.1.isDigit = true → e.1 = '0' := by decide
  have hnone : tokenStarts.find? (fun e => e.1 == c) = none := by
    rw [List.find?_eq_none]
    intro e he hec
    rw [beq_iff_eq] at hec
    exact hzero (hec ▸ htable e he (hec ▸ h))
  have hblank : isBlank c = false := by
    cases hb : isBlank c with
    | false => rfl
    | true =>
      rw [not_digit_of_blank hb] at h
      cases h
  rw [startToken, hnone]
  simp [hblank, h]

end Lexing

/-- A digit is no minus sign. -/
theorem digit_ne_minus {c : Char} (h : c.isDigit = true) : c ≠ '-' := by
  rintro rfl
  cases h

/-- A natural number reads back. -/
theorem Spells.digits (lone : Nat → Char) (n : Nat) :
    Spells lone (Nat.toDigits 10 n) [.int n] := by
  rcases Nat.eq_zero_or_pos n with rfl | hn
  · rfl
  obtain ⟨c, cs, hdigits, hc, hzero⟩ := toDigits_head hn
  have hall : ∀ d ∈ c :: cs, d.isDigit = true := by
    rw [← hdigits]
    exact fun d hd => Nat.isDigit_of_mem_toDigits (by decide) (by decide) hd
  have hvalue : readInt (c :: cs) = n := by
    rw [readInt, if_neg (digit_ne_minus hc), ← hdigits, digitsValue_toDigits]
  have hstart : Lexing.idle.step lone c = ([], some (.number [c] .whole)) :=
    Lexing.startToken_digit hc hzero
  unfold Spells lex
  rw [hdigits, Lexing.lexFrom_of_step _ hstart,
    Lexing.lexFrom_digits _ fun d hd => hall d (List.mem_cons_of_mem _ hd), List.singleton_append,
    hvalue]
  rfl

/-- A negative number reads back. -/
theorem Spells.minus (lone : Nat → Char) {n : Nat} (hn : 0 < n) :
    Spells lone ('-' :: Nat.toDigits 10 n) [.int (-n)] := by
  obtain ⟨c, cs, hdigits, hc, hzero⟩ := toDigits_head hn
  have hall : ∀ d ∈ c :: cs, d.isDigit = true := by
    rw [← hdigits]
    exact fun d hd => Nat.isDigit_of_mem_toDigits (by decide) (by decide) hd
  have hvalue : readInt ('-' :: c :: cs) = -n := by
    rw [readInt, if_pos rfl, ← hdigits, digitsValue_toDigits]
  have hminus : Lexing.idle.step lone '-' = ([], some .minus) := rfl
  have hletter : c ≠ 'I' := by
    rintro rfl
    cases hc
  have hstart : Lexing.minus.step lone c = ([], some (.number ['-', c] .whole)) := by
    rw [Lexing.step, Lexing.minusStep, if_neg hletter, if_neg hzero, if_pos hc]
  unfold Spells lex
  rw [hdigits, Lexing.lexFrom_of_step _ hminus, Lexing.lexFrom_of_step _ hstart,
    Lexing.lexFrom_digits _ fun d hd => hall d (List.mem_cons_of_mem _ hd)]
  show ([Token.int (readInt ('-' :: c :: cs))], true) = _
  rw [hvalue]

/-- **An integer reads back.** -/
theorem Spells.int (lone : Nat → Char) (n : Int) : Spells lone (toString n).toList [.int n] := by
  rw [Int.toString_eq_repr, Int.repr_eq_if]
  split_ifs with hneg
  · rw [Nat.toList_repr]
    have hdigits := Spells.digits lone n.toNat
    rwa [Int.toNat_of_nonneg hneg] at hdigits
  · have hminus := @Spells.minus lone (-n).toNat (by omega)
    rw [Int.toNat_of_nonneg (by omega), Int.neg_neg] at hminus
    rwa [String.toList_append, Nat.toList_repr]

/-! ## Documents -/

mutual

/-- The tokens a document is written with. -/
def Json.spelled : Json → List Token
  | .null => [.null]
  | .bool b => [.bool b]
  | .int n => [.int n]
  | .float text => [.float text]
  | .str s => [.str s]
  | .arr [] => [.openArr, .closeArr]
  | .arr (v :: items) => .openArr :: (v.spelled ++ itemsSpelled items)
  | .obj [] => [.openObj, .closeObj]
  | .obj ((key, v) :: entries) =>
    .openObj :: .str key :: .colon :: (v.spelled ++ entriesSpelled entries)

/-- The tokens after an item. -/
def itemsSpelled : List Json → List Token
  | [] => [.closeArr]
  | v :: items => .comma :: (v.spelled ++ itemsSpelled items)

/-- The tokens after an entry. -/
def entriesSpelled : List (String × Json) → List Token
  | [] => [.closeObj]
  | (key, v) :: entries => .comma :: .str key :: .colon :: (v.spelled ++ entriesSpelled entries)

end

/-- No value is spelled with a closing bracket in front. -/
theorem Json.spelled_ne_close (v : Json) : ∃ t ts, v.spelled = t :: ts ∧ t ≠ .closeArr := by
  cases v with
  | null => exact ⟨_, _, rfl, by simp⟩
  | bool b => exact ⟨_, _, rfl, by simp⟩
  | int n => exact ⟨_, _, rfl, by simp⟩
  | float text => exact ⟨_, _, rfl, by simp⟩
  | str s => exact ⟨_, _, rfl, by simp⟩
  | arr items => cases items <;> exact ⟨_, _, by rw [Json.spelled], by simp⟩
  | obj entries => rcases entries with _ | ⟨⟨key, v⟩, entries⟩ <;>
      exact ⟨_, _, by rw [Json.spelled], by simp⟩

section Feed

variable {stack : List Frame}

/-- A token is fed by one step. -/
theorem foldlM_feed_cons {st next : Reading} {t : Token} {ts : List Token}
    (h : st.feed .free t = .ok next) :
    (t :: ts).foldlM (Reading.feed .free) st = ts.foldlM (Reading.feed .free) next := by
  rw [List.foldlM_cons, h]
  rfl

/-- Tokens are fed one part after the other. -/
theorem foldlM_feed_append {st next : Reading} {ts us : List Token}
    (h : ts.foldlM (Reading.feed .free) st = .ok next) :
    (ts ++ us).foldlM (Reading.feed .free) st = us.foldlM (Reading.feed .free) next := by
  rw [List.foldlM_append, h]
  rfl

mutual

/-- **The reader takes the tokens of a document for the document.** -/
theorem Json.foldlM_spelled (stack : List Frame) : (v : Json) →
    v.spelled.foldlM (Reading.feed .free) (.value stack) = .ok (.after v stack)
  | .null => rfl
  | .bool _ => rfl
  | .int _ => rfl
  | .float _ => rfl
  | .str _ => rfl
  | .arr [] => by
    rw [Json.spelled]
    rfl
  | .arr (v :: items) => by
    have hopen : (Reading.value stack).feed .free .openArr = .ok (.items stack) := rfl
    have hfirst : v.spelled.foldlM (Reading.feed .free) (.items stack) =
        .ok (.after v (.arr [] :: stack)) := by
      rw [← Json.foldlM_spelled (.arr [] :: stack) v]
      obtain ⟨t, ts, hv, ht⟩ := v.spelled_ne_close
      have hfeed : (Reading.items stack).feed .free t =
          (Reading.value (.arr [] :: stack)).feed .free t := by
        show (if t = .closeArr then _ else _) = _
        rw [if_neg ht]
        rfl
      rw [hv, List.foldlM_cons, List.foldlM_cons, hfeed]
    rw [Json.spelled, foldlM_feed_cons hopen, foldlM_feed_append hfirst]
    exact foldlM_itemsSpelled stack [] v items
  | .obj [] => by
    rw [Json.spelled]
    rfl
  | .obj ((key, v) :: entries) => by
    have hopen : (Reading.value stack).feed .free .openObj = .ok (.keys stack) := rfl
    have hkey : (Reading.keys stack).feed .free (.str key) = .ok (.colon [] key stack) := rfl
    have hcolon : (Reading.colon [] key stack).feed .free .colon =
        .ok (.value (.field [] key :: stack)) := rfl
    rw [Json.spelled, foldlM_feed_cons hopen, foldlM_feed_cons hkey, foldlM_feed_cons hcolon,
      foldlM_feed_append (Json.foldlM_spelled _ v)]
    exact foldlM_entriesSpelled stack [] key v entries

/-- The spelling of the items is read back behind the first. -/
theorem foldlM_itemsSpelled (stack : List Frame) (before : List Json) (v : Json) :
    (items : List Json) → (itemsSpelled items).foldlM (Reading.feed .free)
      (.after v (.arr before :: stack)) = .ok (.after (.arr (before ++ v :: items)) stack)
  | [] => rfl
  | w :: items => by
    have hcomma : (Reading.after v (.arr before :: stack)).feed .free .comma =
        .ok (.value (.arr (before ++ [v]) :: stack)) := rfl
    rw [itemsSpelled, foldlM_feed_cons hcomma, foldlM_feed_append (Json.foldlM_spelled _ w),
      foldlM_itemsSpelled stack (before ++ [v]) w items, List.append_assoc]
    rfl

/-- The spelling of the entries is read back behind the first. -/
theorem foldlM_entriesSpelled (stack : List Frame) (before : List (String × Json)) (key : String)
    (v : Json) : (entries : List (String × Json)) → (entriesSpelled entries).foldlM
      (Reading.feed .free) (.after v (.field before key :: stack)) =
        .ok (.after (.obj (before ++ (key, v) :: entries)) stack)
  | [] => rfl
  | (next, w) :: entries => by
    have hcomma : (Reading.after v (.field before key :: stack)).feed .free .comma =
        .ok (.key (before ++ [(key, v)]) stack) := rfl
    have hkey : (Reading.key (before ++ [(key, v)]) stack).feed .free (.str next) =
        .ok (.colon (before ++ [(key, v)]) next stack) := rfl
    have hcolon : (Reading.colon (before ++ [(key, v)]) next stack).feed .free .colon =
        .ok (.value (.field (before ++ [(key, v)]) next :: stack)) := rfl
    rw [entriesSpelled, foldlM_feed_cons hcomma, foldlM_feed_cons hkey, foldlM_feed_cons hcolon,
      foldlM_feed_append (Json.foldlM_spelled _ w),
      foldlM_entriesSpelled stack (before ++ [(key, v)]) next w entries, List.append_assoc]
    rfl

end

end Feed

/-- A text spelled as a document is read as it. -/
theorem Spells.readJson {lone : Nat → Char} {text : List Char} {v : Json}
    (h : Spells lone text v.spelled) : readJson lone .free text = .ok v := by
  refine readJson_eq_ok.mpr ⟨by rw [h], ?_⟩
  rw [h]
  exact Json.foldlM_spelled [] v

/-! ## Written values -/

/-- The characters of a marked text. -/
def chars (text : Marked) : List Char :=
  text.map Prod.fst

/-- Marking leaves the characters. -/
@[simp] theorem chars_mark (m : Bool) (cs : List Char) : chars (mark m cs) = cs := by
  rw [chars, mark, List.map_map]
  exact List.map_id cs

/-- The characters of two parts. -/
@[simp] theorem chars_append (x y : Marked) : chars (x ++ y) = chars x ++ chars y :=
  List.map_append

/-- The characters of a quoted text. -/
theorem chars_quoted (m : Bool) (cs : List Char) :
    chars (quoted m cs) = '"' :: (escape cs ++ ['"']) := by
  simp [quoted]

/-- Joined texts, from the first on. -/
theorem chars_joined_cons (sep : List Char) (x : Marked) (texts : List Marked) :
    chars (joined sep (x :: texts)) = chars x ++ texts.flatMap fun t => sep ++ chars t := by
  induction texts generalizing x with
  | nil => simp [joined]
  | cons y texts ih => simp [joined, ih]

/-- A scalar that is no string, as the document it reads as. -/
def Scalar.document (dump : DumpRules) : Scalar → Json
  | null => .null
  | bool b => .bool b
  | int n => .int n
  | float x => .float (String.ofList ((Scalar.float x).jsonText dump))
  | str s => .str s
  | bytes _ => .null
  | stamp _ => .null

mutual

/-- The document a value is written as. -/
def Value.document (dump : DumpRules) : Value → Json
  | .scalar s => s.document dump
  | .list items => .arr (documentItems dump items)
  | .map entries => .obj (documentEntries dump entries)

/-- The items of a document. -/
def documentItems (dump : DumpRules) : List Value → List Json
  | [] => []
  | v :: items => v.document dump :: documentItems dump items

/-- The entries of a document. -/
def documentEntries (dump : DumpRules) : List (Scalar × Value) → List (String × Json)
  | [] => []
  | (key, v) :: entries =>
    (String.ofList (key.jsonText dump), v.document dump) :: documentEntries dump entries

end

/-- How a finite number is written is how it is read: `float(repr(x)) == x`. -/
structure ReadsBack (dump : DumpRules) (rules : JsonRules) (x : Rat) : Prop where
  spells : Spells rules.lone (dump.floatText x).toList [.float (dump.floatText x)]
  reads : rules.readFloat (dump.floatText x) = .finite x
  inline : ∀ c ∈ (dump.floatText x).toList, 32 ≤ c.toNat

/-- The names of the numbers that are not finite are read. -/
structure ReadsNames (rules : JsonRules) : Prop where
  nan : rules.readFloat "NaN" = .nan
  infinity : rules.readFloat "Infinity" = .infinite false
  minusInfinity : rules.readFloat "-Infinity" = .infinite true

/-- The reader reads the scalar's text back. -/
def Scalar.readsBack (dump : DumpRules) (rules : JsonRules) : Scalar → Prop
  | float (.finite x) => ReadsBack dump rules x
  | _ => True

mutual

/-- Every finite number in the value reads back. -/
def Value.readsBack (dump : DumpRules) (rules : JsonRules) : Value → Prop
  | .scalar s => s.readsBack dump rules
  | .list items => readsBackItems dump rules items
  | .map entries => readsBackEntries dump rules entries

/-- The reader reads the items back. -/
def readsBackItems (dump : DumpRules) (rules : JsonRules) : List Value → Prop
  | [] => True
  | v :: items => v.readsBack dump rules ∧ readsBackItems dump rules items

/-- The reader reads the entries' values back. -/
def readsBackEntries (dump : DumpRules) (rules : JsonRules) : List (Scalar × Value) → Prop
  | [] => True
  | (_, v) :: entries => v.readsBack dump rules ∧ readsBackEntries dump rules entries

end

section Write

variable {dump : DumpRules} {rules : JsonRules}

/-- A scalar's text spells its document. -/
theorem Scalar.spells (s : Scalar) (hs : s.serialisable = true) (hread : s.readsBack dump rules) :
    Spells rules.lone (chars (s.write dump)) (s.document dump).spelled := by
  cases s with
  | null => rfl
  | bool b => cases b <;> rfl
  | int n => exact chars_mark true _ ▸ Spells.int rules.lone n
  | float x =>
    cases x with
    | nan => rfl
    | infinite negative => cases negative <;> rfl
    | finite x =>
      have htext : chars ((Scalar.float (.finite x)).write dump) = (dump.floatText x).toList :=
        chars_mark true _
      rw [htext, Scalar.document, Json.spelled, Scalar.jsonText, String.ofList_toList]
      exact hread.spells
  | str t =>
    have hstring := Spells.string t.toList (@Spells.nil rules.lone)
    rw [String.ofList_toList] at hstring
    rw [Scalar.write, chars_quoted]
    exact hstring
  | bytes data => cases hs
  | stamp instant => cases hs

/-- What stands before each text after the first ends a number, and so does the bracket. -/
theorem delimited_flatMap (texts : List Marked) {c : Char} (hc : c ∈ [']', '\x7d']) :
    Delimited (texts.flatMap (fun t => [',', ' '] ++ chars t) ++ [c]) := by
  cases texts with
  | nil => exact delimited_cons (List.mem_cons_of_mem _ hc)
  | cons t texts => exact delimited_cons List.mem_cons_self

/-- A separator, a text, and what follows it. -/
theorem Spells.separated {lone : Nat → Char} {xs ys : List Char} {ts us : List Token}
    (hx : Spells lone xs ts) (hy : Spells lone ys us) (hd : Delimited ys) :
    Spells lone ([',', ' '] ++ xs ++ ys) (.comma :: (ts ++ us)) :=
  .sign rfl (.space (hx.append hy hd))

/-- An entry, after its key. -/
theorem Spells.entry {lone : Nat → Char} {xs : List Char} {ts : List Token} (key : List Char)
    (hx : Spells lone xs ts) :
    Spells lone (chars (PrReviewer.Library.quoted true key) ++ ([':', ' '] ++ xs))
      (.str (String.ofList key) :: .colon :: ts) := by
  have hcolon : Spells lone ([':', ' '] ++ xs) (.colon :: ts) :=
    .sign rfl (.space hx)
  rw [chars_quoted, List.cons_append, List.append_assoc]
  exact .string key hcolon

mutual

/-- **A written value spells its document.** -/
theorem Value.spells : (v : Value) → v.serialisable = true → v.readsBack dump rules →
    Spells rules.lone (chars (v.write dump)) (v.document dump).spelled
  | .scalar s, hs, hread => by
    rw [Value.write, Value.document]
    exact s.spells hs hread
  | .list [], _, _ => rfl
  | .list (v :: items), hs, hread => by
    obtain ⟨hv, hitems⟩ := Bool.and_eq_true_iff.mp hs
    have hfirst := Value.spells v hv hread.1
    have hrest := spells_items items hitems hread.2
    rw [Value.write, Value.writeItems, chars_append, chars_append, chars_mark, chars_mark,
      chars_joined_cons, List.append_assoc]
    exact .sign rfl (hfirst.append hrest (delimited_flatMap _ (by simp)))
  | .map [], _, _ => rfl
  | .map ((key, v) :: entries), hs, hread => by
    obtain ⟨hhead, hentries⟩ := Bool.and_eq_true_iff.mp hs
    have hfirst := (Value.spells v (Bool.and_eq_true_iff.mp hhead).2 hread.1).entry
      (key.jsonText dump)
    have hrest := spells_entries entries hentries hread.2
    rw [Value.write, Value.writeEntries, chars_append, chars_append, chars_mark, chars_mark,
      chars_joined_cons, chars_append, chars_append, chars_mark, List.append_assoc]
    exact .sign rfl (hfirst.append hrest (delimited_flatMap _ (by simp)))

/-- The text of further items spells them. -/
theorem spells_items : (items : List Value) → Value.serialisableItems items = true →
    readsBackItems dump rules items →
    Spells rules.lone
      ((Value.writeItems dump items).flatMap (fun t => [',', ' '] ++ chars t) ++ [']'])
      (itemsSpelled (documentItems dump items))
  | [], _, _ => rfl
  | v :: items, hs, hread => by
    obtain ⟨hv, hitems⟩ := Bool.and_eq_true_iff.mp hs
    have hfirst := Value.spells v hv hread.1
    have hrest := spells_items items hitems hread.2
    rw [Value.writeItems, List.flatMap_cons, List.append_assoc]
    exact hfirst.separated hrest (delimited_flatMap _ (by simp))

/-- The text of further entries spells them. -/
theorem spells_entries : (entries : List (Scalar × Value)) →
    Value.serialisableEntries entries = true → readsBackEntries dump rules entries →
    Spells rules.lone
      ((Value.writeEntries dump entries).flatMap (fun t => [',', ' '] ++ chars t) ++ ['\x7d'])
      (entriesSpelled (documentEntries dump entries))
  | [], _, _ => rfl
  | (key, v) :: entries, hs, hread => by
    obtain ⟨hhead, hentries⟩ := Bool.and_eq_true_iff.mp hs
    have hfirst := (Value.spells v (Bool.and_eq_true_iff.mp hhead).2 hread.1).entry
      (key.jsonText dump)
    have hrest := spells_entries entries hentries hread.2
    rw [Value.writeEntries, List.flatMap_cons, chars_append, chars_append, chars_mark,
      List.append_assoc]
    exact hfirst.separated hrest (delimited_flatMap _ (by simp))

end

/-! ## The value read -/

mutual

/-- What a value reads back as: the text of a key stands for the key, and of the entries of a
key the last one counts. -/
def Value.reread (dump : DumpRules) : Value → Value
  | .scalar s => .scalar s
  | .list items => .list (rereadItems dump items)
  | .map entries => .map (rereadEntries dump [] entries)

/-- What is read back of the items. -/
def rereadItems (dump : DumpRules) : List Value → List Value
  | [] => []
  | v :: items => v.reread dump :: rereadItems dump items

/-- What is read back of the entries, where a later key replaces an earlier one. -/
def rereadEntries (dump : DumpRules) (dict : List (Scalar × Value)) :
    List (Scalar × Value) → List (Scalar × Value)
  | [] => dict
  | (key, v) :: entries =>
    rereadEntries dump (assign dict (.str (String.ofList (key.jsonText dump))) (v.reread dump))
      entries

end

/-- A scalar's document has its value. -/
theorem Scalar.value_document (hnames : ReadsNames rules) (s : Scalar)
    (hs : s.serialisable = true) (hread : s.readsBack dump rules) :
    (s.document dump).value rules.readFloat = .scalar s := by
  cases s with
  | null => rfl
  | bool b => rfl
  | int n => rfl
  | str t => rfl
  | bytes data => cases hs
  | stamp instant => cases hs
  | float x =>
    rw [document, Json.value]
    congr 2
    cases x with
    | nan => exact hnames.nan
    | infinite negative =>
      cases negative with
      | false => exact hnames.infinity
      | true => exact hnames.minusInfinity
    | finite x =>
      rw [Scalar.jsonText, String.ofList_toList]
      exact hread.reads

mutual

/-- A value's document has the value that is read back. -/
theorem Value.value_document (hnames : ReadsNames rules) : (v : Value) → v.serialisable = true →
    v.readsBack dump rules → (v.document dump).value rules.readFloat = v.reread dump
  | .scalar s, hs, hread => by
    rw [Value.document, Value.reread]
    exact s.value_document hnames hs hread
  | .list items, hs, hread => by
    rw [Value.document, Value.reread, Json.value, items_document hnames items hs hread]
  | .map entries, hs, hread => by
    rw [Value.document, Value.reread, Json.value, entries_document hnames [] entries hs hread]

/-- The items' documents have the values that are read back. -/
theorem items_document (hnames : ReadsNames rules) : (items : List Value) →
    Value.serialisableItems items = true → readsBackItems dump rules items →
    itemValues rules.readFloat (documentItems dump items) = rereadItems dump items
  | [], _, _ => rfl
  | v :: items, hs, hread => by
    obtain ⟨hv, hitems⟩ := Bool.and_eq_true_iff.mp hs
    rw [documentItems, itemValues, rereadItems, Value.value_document hnames v hv hread.1,
      items_document hnames items hitems hread.2]

/-- The entries' documents have the values that are read back. -/
theorem entries_document (hnames : ReadsNames rules) (dict : List (Scalar × Value)) :
    (entries : List (Scalar × Value)) → Value.serialisableEntries entries = true →
    readsBackEntries dump rules entries →
    entryValues rules.readFloat dict (documentEntries dump entries) =
      rereadEntries dump dict entries
  | [], _, _ => rfl
  | (key, v) :: entries, hs, hread => by
    obtain ⟨hhead, hentries⟩ := Bool.and_eq_true_iff.mp hs
    rw [documentEntries, entryValues, rereadEntries,
      Value.value_document hnames v (Bool.and_eq_true_iff.mp hhead).2 hread.1,
      entries_document hnames _ entries hentries hread.2]

end

end Write

/-! ## The limits -/

mutual

/-- How deep the containers of a value nest. -/
def Value.nesting : Value → Nat
  | .scalar _ => 0
  | .list items => nestingItems items + 1
  | .map entries => nestingEntries entries + 1

/-- How deep the items nest. -/
def nestingItems : List Value → Nat
  | [] => 0
  | v :: items => max v.nesting (nestingItems items)

/-- How deep the entries nest. -/
def nestingEntries : List (Scalar × Value) → Nat
  | [] => 0
  | (_, v) :: entries => max v.nesting (nestingEntries entries)

end

section Limits

variable {dump : DumpRules}

/-- A scalar's document has no depth. -/
theorem Scalar.depth_document (s : Scalar) : (s.document dump).depth = 0 := by
  cases s <;> rfl

mutual

/-- A value's document is as deep as the value nests. -/
theorem Value.depth_document : (v : Value) → (v.document dump).depth = v.nesting
  | .scalar s => s.depth_document
  | .list items => by
    rw [Value.document, Json.depth, Value.nesting, depth_documentItems items]
  | .map entries => by
    rw [Value.document, Json.depth, Value.nesting, depth_documentEntries entries]

/-- The items' documents are as deep as the items nest. -/
theorem depth_documentItems : (items : List Value) →
    itemDepth (documentItems dump items) = nestingItems items
  | [] => rfl
  | v :: items => by
    rw [documentItems, itemDepth, nestingItems, Value.depth_document v, depth_documentItems items]

/-- The entries' documents are as deep as the entries nest. -/
theorem depth_documentEntries : (entries : List (Scalar × Value)) →
    entryDepth (documentEntries dump entries) = nestingEntries entries
  | [] => rfl
  | (_, v) :: entries => by
    rw [documentEntries, entryDepth, nestingEntries, Value.depth_document v,
      depth_documentEntries entries]

end

/-- The numbers of a scalar that is written can be printed. -/
theorem Scalar.printableInts_document (s : Scalar) (hs : s.serialisable = true) :
    PrintableInts (s.document dump).tokens := by
  intro n hn
  cases s with
  | int m =>
    cases List.mem_singleton.mp hn
    exact hs
  | null => simp [document, Json.tokens] at hn
  | bool b => simp [document, Json.tokens] at hn
  | float x => simp [document, Json.tokens] at hn
  | str t => simp [document, Json.tokens] at hn
  | bytes data => simp [document, Json.tokens] at hn
  | stamp instant => simp [document, Json.tokens] at hn

mutual

/-- The integers written are short enough to read. -/
theorem Value.printableInts_document : (v : Value) → v.serialisable = true →
    PrintableInts (v.document dump).tokens
  | .scalar s, hs => s.printableInts_document hs
  | .list items, hs => by
    rw [Value.document, Json.tokens]
    exact printableInts_documentItems items hs
  | .map entries, hs => by
    rw [Value.document, Json.tokens]
    exact printableInts_documentEntries entries hs

/-- The numbers of items that are written can be printed. -/
theorem printableInts_documentItems : (items : List Value) →
    Value.serialisableItems items = true → PrintableInts (itemTokens (documentItems dump items))
  | [], _ => by simp [PrintableInts, documentItems, itemTokens]
  | v :: items, hs => by
    obtain ⟨hv, hitems⟩ := Bool.and_eq_true_iff.mp hs
    rw [documentItems, itemTokens]
    exact PrintableInts.append_iff.mpr
      ⟨Value.printableInts_document v hv, printableInts_documentItems items hitems⟩

/-- The numbers of entries that are written can be printed. -/
theorem printableInts_documentEntries : (entries : List (Scalar × Value)) →
    Value.serialisableEntries entries = true →
    PrintableInts (entryTokens (documentEntries dump entries))
  | [], _ => by simp [PrintableInts, documentEntries, entryTokens]
  | (key, v) :: entries, hs => by
    obtain ⟨hhead, hentries⟩ := Bool.and_eq_true_iff.mp hs
    have hrest := PrintableInts.append_iff.mpr
      ⟨Value.printableInts_document v (Bool.and_eq_true_iff.mp hhead).2,
        printableInts_documentEntries entries hentries⟩
    rw [documentEntries, entryTokens]
    intro n hn
    rcases List.mem_cons.mp hn with hkey | hn
    · cases hkey
    · exact hrest n hn

end

/-- **What is written reads back**, up to the keys of its dictionaries. -/
theorem JsonRules.loads_write {rules : JsonRules} (hnames : ReadsNames rules) {v : Value}
    (hs : v.serialisable = true) (hread : v.readsBack dump rules)
    (hdeep : v.nesting ≤ rules.depth) :
    rules.loads (chars (v.write dump)) = .ok (v.reread dump) := by
  have hdocument : readJson rules.lone rules.limits (chars (v.write dump)) =
      .ok (v.document dump) := by
    refine readJson_of_free (Spells.readJson (v.spells hs hread)) ?_ ?_
    · exact v.printableInts_document hs
    · intro k hk
      rw [v.depth_document] at hk
      exact decide_eq_true (hk.trans_le hdeep)
  rw [JsonRules.loads, hdocument, ← v.value_document hnames hs hread]
  rfl

end Limits

/-! ## One line -/

/-- No control character: no line ends in the text. -/
def Inline (text : List Char) : Prop :=
  ∀ c ∈ text, 32 ≤ c.toNat

/-- Whether a text is inline can be decided. -/
instance (text : List Char) : Decidable (Inline text) :=
  List.decidableBAll (fun c : Char => 32 ≤ c.toNat) text

section Inline

variable {dump : DumpRules} {rules : JsonRules}

/-- Two parts are inline exactly when each is. -/
theorem inline_append {xs ys : List Char} : Inline (xs ++ ys) ↔ Inline xs ∧ Inline ys :=
  List.forall_mem_append

/-- A text is inline exactly when its characters are. -/
theorem inline_cons {c : Char} {cs : List Char} : Inline (c :: cs) ↔ 32 ≤ c.toNat ∧ Inline cs :=
  List.forall_mem_cons

/-- Marking leaves a text inline. -/
theorem inline_mark {m : Bool} (cs : List Char) (h : Inline cs) : Inline (chars (mark m cs)) := by
  rwa [chars_mark]

/-- A text of inline parts is inline. -/
theorem inline_flatMap {α : Type} {l : List α} {f : α → List Char} (h : ∀ a ∈ l, Inline (f a)) :
    Inline (l.flatMap f) := by
  intro c hc
  obtain ⟨a, ha, hmem⟩ := List.mem_flatMap.mp hc
  exact h a ha c hmem

/-- Digits are inline. -/
theorem digitChar_inline : ∀ d < 16, 32 ≤ d.digitChar.toNat := by
  decide

/-- An escaped character is inline. -/
theorem inline_escapeChar (c : Char) : Inline (escapeChar c) := by
  unfold escapeChar
  have hlow := digitChar_inline (c.toNat % 16) (Nat.mod_lt _ (by omega))
  split_ifs with hquote hback hn hr ht hf hb hcontrol
  · decide
  · decide
  · decide
  · decide
  · decide
  · decide
  · decide
  · have hhigh := digitChar_inline (c.toNat / 16) (by omega)
    simp [hhigh, hlow, Inline]
  · simpa [inline_cons, Inline] using hcontrol

/-- An escaped text is inline. -/
theorem inline_escape (cs : List Char) : Inline (escape cs) :=
  inline_flatMap fun c _ => inline_escapeChar c

/-- A quoted text is inline. -/
theorem inline_quoted (m : Bool) (cs : List Char) : Inline (chars (quoted m cs)) := by
  rw [chars_quoted, inline_cons, inline_append]
  exact ⟨by decide, inline_escape cs, by decide⟩

/-- A number's digits are inline. -/
theorem inline_digits (n : Nat) : Inline (Nat.toDigits 10 n) := by
  intro c hc
  have hdigit := Nat.isDigit_of_mem_toDigits (by decide) (by decide) hc
  simp only [Char.isDigit, Bool.and_eq_true, decide_eq_true_eq] at hdigit
  have hzero : '0'.toNat ≤ c.toNat := hdigit.1
  exact le_trans (by decide) hzero

/-- A number's text is inline. -/
theorem inline_int (n : Int) : Inline (toString n).toList := by
  rw [Int.toString_eq_repr, Int.repr_eq_if]
  split_ifs
  · rw [Nat.toList_repr]
    exact inline_digits _
  · rw [String.toList_append, Nat.toList_repr, inline_append]
    exact ⟨by decide, inline_digits _⟩

/-- A scalar's text is inline. -/
theorem Scalar.inline_write (s : Scalar) (hread : s.readsBack dump rules) :
    Inline (chars (s.write dump)) := by
  cases s with
  | str t => exact inline_quoted true _
  | null => exact inline_mark "null".toList (by decide +kernel)
  | bool b =>
    cases b with
    | false => exact inline_mark "false".toList (by decide +kernel)
    | true => exact inline_mark "true".toList (by decide +kernel)
  | int n => exact inline_mark _ (inline_int n)
  | bytes data => exact inline_mark [] (by decide)
  | stamp instant => exact inline_mark [] (by decide)
  | float x =>
    cases x with
    | nan => exact inline_mark "NaN".toList (by decide +kernel)
    | infinite negative =>
      cases negative with
      | false => exact inline_mark "Infinity".toList (by decide +kernel)
      | true => exact inline_mark "-Infinity".toList (by decide +kernel)
    | finite x => exact inline_mark _ hread.inline

/-- Texts in a line, with a separator between them. -/
theorem inline_joined {texts : List Marked} (h : ∀ t ∈ texts, Inline (chars t)) :
    Inline (chars (joined [',', ' '] texts)) := by
  cases texts with
  | nil => decide
  | cons x texts =>
    rw [chars_joined_cons, inline_append]
    refine ⟨h x List.mem_cons_self, inline_flatMap fun t ht => inline_append.mpr ⟨by decide, ?_⟩⟩
    exact h t (List.mem_cons_of_mem _ ht)

mutual

/-- **What is written is one line.** -/
theorem Value.inline_write : (v : Value) → v.readsBack dump rules → Inline (chars (v.write dump))
  | .scalar s, hread => s.inline_write hread
  | .list items, hread => by
    rw [Value.write, chars_append, chars_append, chars_mark, chars_mark, inline_append,
      inline_append]
    exact ⟨by decide, inline_joined (inline_writeItems items hread), by decide⟩
  | .map entries, hread => by
    rw [Value.write, chars_append, chars_append, chars_mark, chars_mark, inline_append,
      inline_append]
    exact ⟨by decide, inline_joined (inline_writeEntries entries hread), by decide⟩

/-- The items' texts are inline. -/
theorem inline_writeItems : (items : List Value) → readsBackItems dump rules items →
    ∀ t ∈ Value.writeItems dump items, Inline (chars t)
  | [], _ => by simp [Value.writeItems]
  | v :: items, hread => by
    rw [Value.writeItems, List.forall_mem_cons]
    exact ⟨Value.inline_write v hread.1, inline_writeItems items hread.2⟩

/-- The entries' texts are inline. -/
theorem inline_writeEntries : (entries : List (Scalar × Value)) →
    readsBackEntries dump rules entries →
    ∀ t ∈ Value.writeEntries dump entries, Inline (chars t)
  | [], _ => by simp [Value.writeEntries]
  | (key, v) :: entries, hread => by
    rw [Value.writeEntries, List.forall_mem_cons]
    refine ⟨?_, inline_writeEntries entries hread.2⟩
    rw [chars_append, chars_append, chars_mark, inline_append, inline_append]
    exact ⟨inline_quoted true _, by decide, Value.inline_write v hread.1⟩

end

end Inline

/-- The lines of a file, each one read; the text after the last end of a line is none. -/
def JsonRules.loadLines (rules : JsonRules) (text : List Char) : List (Except JsonError Value) :=
  (pieces ['\n'] text).dropLast.map rules.loads

/-- Inline texts ended by line breaks are cut at them. -/
theorem pieces_lines {lines : List (List Char)} (h : ∀ line ∈ lines, Inline line) :
    pieces ['\n'] (lines.flatMap fun line => line ++ ['\n']) = lines ++ [[]] := by
  induction lines with
  | nil => rfl
  | cons line lines ih =>
    have hline : '\n' ∉ line := fun hmem => absurd (h line List.mem_cons_self _ hmem) (by decide)
    rw [List.flatMap_cons, List.append_assoc, List.singleton_append,
      pieces_singleton_append hline, ih fun l hl => h l (List.mem_cons_of_mem _ hl),
      List.cons_append]

/-- **Lines read back one by one.** -/
theorem JsonRules.loadLines_flatMap (rules : JsonRules) {lines : List (List Char)}
    (h : ∀ line ∈ lines, Inline line) :
    rules.loadLines (lines.flatMap fun line => line ++ ['\n']) = lines.map rules.loads := by
  rw [loadLines, pieces_lines h, List.dropLast_concat]

/-! ## Values that read back as themselves -/

mutual

/-- The keys of every dictionary in the value are strings, and none is there twice. -/
def Value.plain : Value → Prop
  | .scalar _ => True
  | .list items => plainItems items
  | .map entries => (∀ e ∈ entries, ∃ k, e.1 = .str k) ∧ (entries.map Prod.fst).Nodup ∧
      plainEntries entries

/-- The items read back as themselves. -/
def plainItems : List Value → Prop
  | [] => True
  | v :: items => v.plain ∧ plainItems items

/-- The entries' values read back as themselves. -/
def plainEntries : List (Scalar × Value) → Prop
  | [] => True
  | (_, v) :: entries => v.plain ∧ plainEntries entries

end

section Plain

variable {dump : DumpRules} {dict : List (Scalar × Value)}

/-- Assigning a new key adds it at the end. -/
theorem assign_of_notMem {key : Scalar} {v : Value} (h : key ∉ dict.map Prod.fst) :
    assign dict key v = dict ++ [(key, v)] := by
  induction dict with
  | nil => rfl
  | cons e dict ih =>
    rw [List.map_cons, List.mem_cons, not_or] at h
    rw [assign, if_neg (Ne.symm h.1), ih h.2, List.cons_append]

/-- Assigning a key adds it if it is new. -/
theorem keys_assign (key : Scalar) (v : Value) : (assign dict key v).map Prod.fst =
    if key ∈ dict.map Prod.fst then dict.map Prod.fst else dict.map Prod.fst ++ [key] := by
  induction dict with
  | nil => rfl
  | cons e dict ih =>
    rw [assign]
    by_cases hkey : e.1 = key
    · simp [hkey]
    · rw [if_neg hkey, List.map_cons, ih, List.map_cons]
      simp only [List.mem_cons, Ne.symm hkey, false_or]
      split_ifs <;> rfl

/-- The keys read are strings, each there once. -/
theorem keys_rereadEntries (entries : List (Scalar × Value))
    (hdict : (∀ key ∈ dict.map Prod.fst, ∃ k, key = .str k) ∧ (dict.map Prod.fst).Nodup) :
    (∀ key ∈ (rereadEntries dump dict entries).map Prod.fst, ∃ k, key = .str k) ∧
      ((rereadEntries dump dict entries).map Prod.fst).Nodup := by
  induction entries generalizing dict with
  | nil => exact hdict
  | cons e entries ih =>
    obtain ⟨key, v⟩ := e
    obtain ⟨hstr, hnodup⟩ := hdict
    rw [rereadEntries]
    apply ih
    rw [keys_assign]
    split_ifs with hmem
    · exact ⟨hstr, hnodup⟩
    · refine ⟨?_, hnodup.append (List.nodup_singleton _) ?_⟩
      · intro k hk
        rcases List.mem_append.mp hk with hk | hk
        · exact hstr k hk
        · exact ⟨_, List.mem_singleton.mp hk⟩
      · exact List.disjoint_singleton.mpr hmem

/-- Entries with distinct strings for keys are kept one by one. -/
theorem rereadEntries_of_nodup {entries : List (Scalar × Value)}
    (hstr : ∀ e ∈ entries, ∃ k, e.1 = .str k) (hnodup : ((dict ++ entries).map Prod.fst).Nodup) :
    rereadEntries dump dict entries =
      dict ++ entries.map fun e => (e.1, e.2.reread dump) := by
  induction entries generalizing dict with
  | nil => simp [rereadEntries]
  | cons e entries ih =>
    obtain ⟨key, v⟩ := e
    obtain ⟨k, hk⟩ := hstr _ List.mem_cons_self
    change key = .str k at hk
    subst hk
    have hkey : Scalar.str (String.ofList ((Scalar.str k).jsonText dump)) = .str k := by
      rw [Scalar.jsonText, String.ofList_toList]
    have hfresh : Scalar.str k ∉ dict.map Prod.fst := by
      rw [List.map_append, List.map_cons] at hnodup
      exact fun hmem => List.disjoint_of_nodup_append hnodup hmem List.mem_cons_self
    rw [rereadEntries, hkey, assign_of_notMem hfresh,
      ih (fun e he => hstr e (List.mem_cons_of_mem _ he)) (by simpa using hnodup)]
    simp

mutual

/-- **A value reads back as itself** exactly if the keys of its dictionaries are distinct
strings. -/
theorem Value.reread_eq_self_iff : (v : Value) → (v.reread dump = v ↔ v.plain)
  | .scalar s => by
    rw [Value.reread, Value.plain]
    exact iff_true_intro rfl
  | .list items => by
    rw [Value.reread, Value.plain, Value.list.injEq]
    exact rereadItems_eq_self_iff items
  | .map entries => by
    rw [Value.reread, Value.plain, Value.map.injEq]
    have hentries := map_reread_eq_self_iff entries
    constructor
    · intro h
      obtain ⟨hstr, hnodup⟩ := @keys_rereadEntries dump [] entries (by simp)
      rw [h] at hstr hnodup
      have hstr' : ∀ e ∈ entries, ∃ k, e.1 = .str k :=
        fun e he => hstr e.1 (List.mem_map_of_mem he)
      rw [@rereadEntries_of_nodup dump [] entries hstr' hnodup] at h
      exact ⟨hstr', hnodup, hentries.mp h⟩
    · rintro ⟨hstr, hnodup, hplain⟩
      rw [@rereadEntries_of_nodup dump [] entries hstr hnodup]
      exact hentries.mpr hplain

/-- Items read back as themselves exactly when they are plain. -/
theorem rereadItems_eq_self_iff : (items : List Value) →
    (rereadItems dump items = items ↔ plainItems items)
  | [] => iff_of_true rfl trivial
  | v :: items => by
    rw [rereadItems, plainItems, List.cons.injEq, Value.reread_eq_self_iff v,
      rereadItems_eq_self_iff items]

/-- Entries read back as themselves exactly when they are plain. -/
theorem map_reread_eq_self_iff : (entries : List (Scalar × Value)) →
    ((entries.map fun e => (e.1, e.2.reread dump)) = entries ↔ plainEntries entries)
  | [] => iff_of_true rfl trivial
  | (key, v) :: entries => by
    rw [List.map_cons, plainEntries, List.cons.injEq, Prod.mk.injEq, Value.reread_eq_self_iff v,
      map_reread_eq_self_iff entries]
    simp

end

end Plain

end PrReviewer.Library
