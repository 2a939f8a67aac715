import Mathlib.Data.List.Basic
import Mathlib.Data.List.Infix

/-!
# The tokens of a JSON text

The lexer of a JSON text, as a machine over its characters that hands on tokens. It follows
Python's `json`: `NaN` and the infinities are numbers, a control character inside a string is
refused, and a surrogate without its partner is read (a `Char` cannot be one, so the character
that stands for it is a parameter).

A text that breaks off still has the tokens up to there. The laws say where a character can
stand: outside the strings only a few can, and a text read from inside one of its strings takes
the strings for the space between them.
-/

set_option autoImplicit false

namespace PrReviewer.Library

/-- A token of a JSON text. -/
inductive Token
  | openArr
  | closeArr
  | openObj
  | closeObj
  | comma
  | colon
  | null
  | bool (b : Bool)
  | int (n : Int)
  /-- a number with a fraction or an exponent, or one of the three names, as it is written -/
  | float (text : String)
  | str (s : String)
  deriving DecidableEq, Repr

/-- The string of a token that is one. -/
def Token.text? : Token → Option String
  | str s => some s
  | _ => none

/-- The strings among the tokens. -/
def texts (tokens : List Token) : List String :=
  tokens.filterMap Token.text?

/-- The texts of two lists of tokens. -/
@[simp] theorem texts_append (xs ys : List Token) : texts (xs ++ ys) = texts xs ++ texts ys :=
  List.filterMap_append

/-- A text of the tokens is a string among them. -/
theorem mem_texts {tokens : List Token} {s : String} : s ∈ texts tokens ↔ Token.str s ∈ tokens := by
  rw [texts, List.mem_filterMap]
  constructor
  · rintro ⟨t, ht, hs⟩
    cases t <;> cases hs
    exact ht
  · exact fun h => ⟨_, h, rfl⟩

/-- The words of the language. -/
inductive Word
  | null
  | true
  | false
  | nan
  | infinity
  | minusInfinity
  deriving DecidableEq, Repr

namespace Word

/-- The letters of a word. -/
def letters : Word → List Char
  | null => ['n', 'u', 'l', 'l']
  | true => ['t', 'r', 'u', 'e']
  | false => ['f', 'a', 'l', 's', 'e']
  | nan => ['N', 'a', 'N']
  | infinity => ['I', 'n', 'f', 'i', 'n', 'i', 't', 'y']
  | minusInfinity => ['-', 'I', 'n', 'f', 'i', 'n', 'i', 't', 'y']

/-- The token of a word. -/
def token : Word → Token
  | null => .null
  | true => .bool Bool.true
  | false => .bool Bool.false
  | nan => .float "NaN"
  | infinity => .float "Infinity"
  | minusInfinity => .float "-Infinity"

end Word

/-- How far a number has come: what it is if it ends here. -/
inductive NumberPart
  | zero
  | whole
  | fraction
  | exponent
  deriving DecidableEq, Repr

/-- What a number has begun after its last complete part. -/
inductive NumberStart
  | point
  | exp
  | sign
  deriving DecidableEq, Repr

/-- The part that a digit completes. -/
def NumberStart.part : NumberStart → NumberPart
  | point => .fraction
  | exp => .exponent
  | sign => .exponent

/-- What the lexer is in the middle of. -/
inductive Lexing
  | idle
  /-- a string, with the code units read so far -/
  | quoted (units : List Nat)
  | escape (units : List Nat)
  /-- a `\u` escape, with the value and the number of its digits so far -/
  | hex (units : List Nat) (code digits : Nat)
  /-- a word, with the number of its letters read -/
  | word (w : Word) (n : Nat)
  | minus
  | number (text : List Char) (part : NumberPart)
  | pending (text : List Char) (part : NumberPart) (more : List Char) (start : NumberStart)
  deriving DecidableEq, Repr

/-! ## Characters -/

/-- The white space of JSON. -/
def isBlank (c : Char) : Bool :=
  c == ' ' || c == '\t' || c == '\n' || c == '\r'

/-- The characters that stand outside strings, the quotes apart. -/
def isOuter (c : Char) : Bool :=
  isBlank c || c.isDigit || "[]{},:-+.eEtrufalsnNIiy".toList.contains c

/-- The code unit an escape of one letter stands for. -/
def escaped (c : Char) : Option Nat :=
  match c with
  | '"' => some 34
  | '\\' => some 92
  | '/' => some 47
  | 'b' => some 8
  | 'f' => some 12
  | 'n' => some 10
  | 'r' => some 13
  | 't' => some 9
  | _ => none

/-- The value of a hexadecimal digit. -/
def hexDigit (c : Char) : Option Nat :=
  if c.isDigit then some (c.toNat - 48)
  else if 'a' ≤ c ∧ c ≤ 'f' then some (c.toNat - 87)
  else if 'A' ≤ c ∧ c ≤ 'F' then some (c.toNat - 55)
  else none

/-- A character that stands inside strings only, and there for itself. -/
def quotedOnly (c : Char) : Bool :=
  !isOuter c && c != '"' && c != '\\' && c != 'u' && (escaped c).isNone && (hexDigit c).isNone

/-- A character that is no part of a token outside the strings, and no end of one. -/
def inert (c : Char) : Bool :=
  c != '"' && c != '\\' && (!isOuter c || isBlank c)

/-- The characters a token can end with. -/
def endsToken (c : Char) : Bool :=
  isBlank c || c.isDigit || "[]{},:leNy\"".toList.contains c

/-! ## Strings -/

/-- A code unit on its own; `lone` stands for a surrogate. -/
def unitChar (lone : Nat → Char) (u : Nat) : Char :=
  if 0xd800 ≤ u ∧ u ≤ 0xdfff then lone u else Char.ofNat u

/-- The first half of a surrogate pair. -/
def isHigh (u : Nat) : Bool :=
  decide (0xd800 ≤ u ∧ u ≤ 0xdbff)

/-- The second half of a surrogate pair. -/
def isLow (u : Nat) : Bool :=
  decide (0xdc00 ≤ u ∧ u ≤ 0xdfff)

/-- The characters of a string: two surrogates that belong together are one. -/
def joinUnits (lone : Nat → Char) : List Nat → List Char
  | [] => []
  | [u] => [unitChar lone u]
  | h :: l :: units =>
    if isHigh h && isLow l then
      Char.ofNat (0x10000 + (h - 0xd800) * 0x400 + (l - 0xdc00)) :: joinUnits lone units
    else unitChar lone h :: joinUnits lone (l :: units)

/-- No character is a surrogate. -/
theorem not_surrogate (c : Char) : ¬ (0xd800 ≤ c.toNat ∧ c.toNat ≤ 0xdfff) := by
  have h := c.valid
  simp only [UInt32.isValidChar, Nat.isValidChar] at h
  simp only [Char.toNat]
  omega

/-- A character's own code gives it back. -/
theorem unitChar_toNat (lone : Nat → Char) (c : Char) : unitChar lone c.toNat = c := by
  rw [unitChar, if_neg (not_surrogate c), Char.ofNat_toNat]

/-- Characters that stand for themselves are the string. -/
theorem joinUnits_map (lone : Nat → Char) (cs : List Char) :
    joinUnits lone (cs.map Char.toNat) = cs := by
  induction cs with
  | nil => rfl
  | cons c cs ih =>
    cases cs with
    | nil => simp [joinUnits, unitChar_toNat]
    | cons d cs =>
      have hhigh : isHigh c.toNat = false := by
        have := not_surrogate c
        simp only [isHigh, decide_eq_false_iff_not]
        omega
      simp only [List.map_cons] at ih ⊢
      rw [joinUnits, hhigh, Bool.false_and, if_neg (by simp), ih, unitChar_toNat]

/-- A character whose code is among the units is among what they are joined to. -/
theorem mem_joinUnits (lone : Nat → Char) {c : Char} {units : List Nat} (h : c.toNat ∈ units) :
    c ∈ joinUnits lone units := by
  have hc := not_surrogate c
  induction units using joinUnits.induct with
  | case1 => cases h
  | case2 u =>
    rw [List.mem_singleton] at h
    simp [joinUnits, ← h, unitChar_toNat]
  | case3 u v units hpair ih =>
    rw [joinUnits, if_pos hpair]
    simp only [isHigh, isLow, Bool.and_eq_true, decide_eq_true_eq] at hpair
    rcases List.mem_cons.mp h with h | h
    · omega
    rcases List.mem_cons.mp h with h | h
    · omega
    · exact List.mem_cons_of_mem _ (ih h)
  | case4 u v units hpair ih =>
    rw [joinUnits, if_neg hpair]
    rcases List.mem_cons.mp h with h | h
    · rw [← h, unitChar_toNat]
      exact List.mem_cons_self
    · exact List.mem_cons_of_mem _ (ih h)

/-- Joining gives at most one character for each unit. -/
theorem length_joinUnits (lone : Nat → Char) (units : List Nat) :
    (joinUnits lone units).length ≤ units.length := by
  induction units using joinUnits.induct with
  | case1 => simp [joinUnits]
  | case2 u => simp [joinUnits]
  | case3 u v units hpair ih =>
    rw [joinUnits, if_pos hpair]
    simp only [List.length_cons]
    omega
  | case4 u v units hpair ih =>
    rw [joinUnits, if_neg hpair]
    simp only [List.length_cons] at ih ⊢
    omega

/-! ## The machine -/

/-- The number a text of digits stands for. -/
def digitsValue (text : List Char) : Nat :=
  text.foldl (fun n c => 10 * n + (c.toNat - 48)) 0

/-- The number a text of digits, perhaps after a minus, stands for. -/
def readInt : List Char → Int
  | [] => 0
  | c :: cs => if c = '-' then -(digitsValue cs : Int) else digitsValue (c :: cs)

/-- The token of a number that ends after a complete part. -/
def numberToken (text : List Char) : NumberPart → Token
  | .zero => .int (readInt text)
  | .whole => .int (readInt text)
  | .fraction => .float (String.ofList text)
  | .exponent => .float (String.ofList text)

/-- The characters that begin a token, digits apart: what each hands on and begins. -/
def tokenStarts : List (Char × List Token × Lexing) :=
  [('"', [], .quoted []), ('[', [.openArr], .idle), (']', [.closeArr], .idle),
    ('{', [.openObj], .idle), ('}', [.closeObj], .idle), (',', [.comma], .idle),
    (':', [.colon], .idle), ('n', [], .word .null 1), ('t', [], .word .true 1),
    ('f', [], .word .false 1), ('N', [], .word .nan 1), ('I', [], .word .infinity 1),
    ('-', [], .minus), ('0', [], .number ['0'] .zero)]

/-- The first character after a token. -/
def startToken (c : Char) : List Token × Option Lexing :=
  match tokenStarts.find? (fun e => e.1 == c) with
  | some (_, out, next) => (out, some next)
  | none =>
    if isBlank c then ([], some .idle)
    else if c.isDigit then ([], some (.number [c] .whole))
    else ([], none)

namespace Lexing

variable (lone : Nat → Char)

/-- A character in a string. -/
def quotedStep (units : List Nat) (c : Char) : List Token × Option Lexing :=
  if c = '"' then ([.str (String.ofList (joinUnits lone units))], some idle)
  else if c = '\\' then ([], some (escape units))
  else if c.toNat < 32 then ([], none)
  else ([], some (quoted (units ++ [c.toNat])))

/-- A character behind a backslash. -/
def escapeStep (units : List Nat) (c : Char) : List Token × Option Lexing :=
  match escaped c with
  | some u => ([], some (quoted (units ++ [u])))
  | none => if c = 'u' then ([], some (hex units 0 0)) else ([], none)

/-- A character of an escaped code. -/
def hexStep (units : List Nat) (code digits : Nat) (c : Char) : List Token × Option Lexing :=
  match hexDigit c with
  | none => ([], none)
  | some d =>
    if digits < 3 then ([], some (hex units (16 * code + d) (digits + 1)))
    else ([], some (quoted (units ++ [16 * code + d])))

/-- A character of a word. -/
def wordStep (w : Word) (n : Nat) (c : Char) : List Token × Option Lexing :=
  if w.letters[n]? = some c then
    if n + 1 = w.letters.length then ([w.token], some idle) else ([], some (word w (n + 1)))
  else ([], none)

/-- A character behind a minus sign. -/
def minusStep (c : Char) : List Token × Option Lexing :=
  if c = 'I' then ([], some (word .minusInfinity 2))
  else if c = '0' then ([], some (number ['-', '0'] .zero))
  else if c.isDigit then ([], some (number ['-', c] .whole))
  else ([], none)

/-- A character behind a digit. -/
def numberStep (text : List Char) (part : NumberPart) (c : Char) : List Token × Option Lexing :=
  if c.isDigit ∧ part ≠ .zero then ([], some (number (text ++ [c]) part))
  else if c = '.' ∧ (part = .zero ∨ part = .whole) then
    ([], some (pending text part [c] .point))
  else if (c = 'e' ∨ c = 'E') ∧ part ≠ .exponent then ([], some (pending text part [c] .exp))
  else (numberToken text part :: (startToken c).1, (startToken c).2)

/-- What does not go on is not part of the number, and no token begins with it. -/
def pendingStep (text : List Char) (part : NumberPart) (more : List Char) (start : NumberStart)
    (c : Char) : List Token × Option Lexing :=
  if c.isDigit then ([], some (number (text ++ more ++ [c]) start.part))
  else if (c = '+' ∨ c = '-') ∧ start = .exp then
    ([], some (pending text part (more ++ [c]) .sign))
  else ([numberToken text part], none)

/-- One character: the tokens it hands on, and what the lexer is then in the middle of; `none`
where the text breaks off. -/
def step : Lexing → Char → List Token × Option Lexing
  | idle, c => startToken c
  | quoted units, c => quotedStep lone units c
  | escape units, c => escapeStep units c
  | hex units code digits, c => hexStep units code digits c
  | word w n, c => wordStep w n c
  | minus, c => minusStep c
  | number text part, c => numberStep text part c
  | pending text part more start, c => pendingStep text part more start c

/-- The end of the text: the tokens it hands on, and whether the text is complete. -/
def finish : Lexing → List Token × Bool
  | idle => ([], true)
  | number text part => ([numberToken text part], true)
  | pending text part _ _ => ([numberToken text part], false)
  | _ => ([], false)

/-- The tokens of a text from here, and whether it is complete. -/
def lexFrom : Lexing → List Char → List Token × Bool
  | l, [] => l.finish
  | l, c :: cs =>
    match l.step lone c with
    | (out, none) => (out, false)
    | (out, some next) => (out ++ (next.lexFrom cs).1, (next.lexFrom cs).2)

end Lexing

/-- The tokens of a text, and whether it is complete. -/
def lex (lone : Nat → Char) (text : List Char) : List Token × Bool :=
  Lexing.idle.lexFrom lone text

example : lex (fun _ => ' ') "[1.5, \"a\\n\", -20]".toList =
    ([.openArr, .float "1.5", .comma, .str "a\n", .comma, .int (-20), .closeArr], true) := by
  decide

/-! ## What a step can do -/

namespace Lexing

variable {lone : Nat → Char}

/-- Not inside a string. -/
def outside : Lexing → Bool
  | quoted _ => false
  | escape _ => false
  | hex _ _ _ => false
  | _ => true

/-- The code units read of the string the lexer is in. -/
def units : Lexing → List Nat
  | quoted units => units
  | escape units => units
  | hex units _ _ => units
  | _ => []

/-- What a character outside the strings can do: open a string, or stay outside. -/
def Opens (c : Char) (out : List Token) (m : Lexing) : Prop :=
  texts out = [] ∧ ((c = '"' ∧ m = quoted []) ∨ (isOuter c = true ∧ m.outside = true))

/-- Whether a character opens a token so can be decided. -/
instance (c : Char) (out : List Token) (m : Lexing) : Decidable (Opens c out m) :=
  inferInstanceAs (Decidable (_ ∧ _))

/-- A character that starts a token opens it. -/
theorem opens_of_startToken {c : Char} {out : List Token} {m : Lexing}
    (h : startToken c = (out, some m)) : Opens c out m := by
  unfold startToken at h
  cases hfind : tokenStarts.find? fun e => e.1 == c with
  | some e =>
    have htable : ∀ e ∈ tokenStarts, Opens e.1 e.2.1 e.2.2 := by decide
    have hkey : e.1 = c := by simpa using List.find?_some hfind
    rw [hfind] at h
    cases h
    exact hkey ▸ htable e (List.mem_of_find?_eq_some hfind)
  | none =>
    simp only [hfind] at h
    split_ifs at h with hblank hdigit
    · cases h
      exact ⟨rfl, .inr ⟨by simp [isOuter, hblank], rfl⟩⟩
    · cases h
      exact ⟨rfl, .inr ⟨by simp [isOuter, hdigit], rfl⟩⟩
    · cases h

/-- A number is no text. -/
theorem texts_numberToken (text : List Char) (part : NumberPart) :
    texts [numberToken text part] = [] := by
  cases part <;> rfl

/-- **Outside the strings.** -/
theorem opens_of_step {l m : Lexing} {c : Char} {out : List Token} (hl : l.outside = true)
    (h : l.step lone c = (out, some m)) : Opens c out m := by
  cases l with
  | quoted units => cases hl
  | escape units => cases hl
  | hex units code digits => cases hl
  | idle => exact opens_of_startToken h
  | word w n =>
    change wordStep w n c = _ at h
    unfold wordStep at h
    have hletters : ∀ x ∈ w.letters, isOuter x = true := by
      rw [← List.all_eq_true]
      cases w <;> decide
    split_ifs at h with hletter hlast
    · cases h
      exact ⟨by cases w <;> rfl, .inr ⟨hletters c (List.mem_of_getElem? hletter), rfl⟩⟩
    · cases h
      exact ⟨rfl, .inr ⟨hletters c (List.mem_of_getElem? hletter), rfl⟩⟩
    · cases h
  | minus =>
    change minusStep c = _ at h
    unfold minusStep at h
    split_ifs at h with hI hzero hdigit
    · cases h
      subst hI
      decide
    · cases h
      subst hzero
      decide
    · cases h
      exact ⟨rfl, .inr ⟨by simp [isOuter, hdigit], rfl⟩⟩
    · cases h
  | number text part =>
    change numberStep text part c = _ at h
    unfold numberStep at h
    split_ifs at h with hdigit hpoint hexp
    · cases h
      exact ⟨rfl, .inr ⟨by simp [isOuter, hdigit.1], rfl⟩⟩
    · cases h
      exact ⟨rfl, .inr ⟨by rw [hpoint.1]; decide, rfl⟩⟩
    · cases h
      refine ⟨rfl, .inr ⟨?_, rfl⟩⟩
      rcases hexp.1 with rfl | rfl <;> decide
    · obtain ⟨rfl, hnext⟩ := Prod.mk.inj h
      obtain ⟨htexts, hopen⟩ := opens_of_startToken (Prod.ext rfl hnext)
      refine ⟨?_, hopen⟩
      rw [← List.singleton_append, texts_append, texts_numberToken, htexts, List.append_nil]
  | pending text part more start =>
    change pendingStep text part more start c = _ at h
    unfold pendingStep at h
    split_ifs at h with hdigit hsign
    · cases h
      exact ⟨rfl, .inr ⟨by simp [isOuter, hdigit], rfl⟩⟩
    · cases h
      refine ⟨rfl, .inr ⟨?_, rfl⟩⟩
      rcases hsign.1 with rfl | rfl <;> decide
    · cases h

/-- **Inside a string.** -/
theorem quotedStep_cases {units : List Nat} {c : Char} {out : List Token} {m : Lexing}
    (h : quotedStep lone units c = (out, some m)) :
    (c = '"' ∧ out = [.str (String.ofList (joinUnits lone units))] ∧ m = idle) ∨
      (c = '\\' ∧ out = [] ∧ m = escape units) ∨
      (c ≠ '"' ∧ c ≠ '\\' ∧ out = [] ∧ m = quoted (units ++ [c.toNat])) := by
  unfold quotedStep at h
  split_ifs at h with hquote hback hcontrol
  · cases h
    exact .inl ⟨hquote, rfl, rfl⟩
  · cases h
    exact .inr (.inl ⟨hback, rfl, rfl⟩)
  · cases h
  · cases h
    exact .inr (.inr ⟨hquote, hback, rfl, rfl⟩)

/-- **Inside an escape**: it goes on, or gives its unit. -/
theorem escape_cases {l m : Lexing} {c : Char} {out : List Token}
    (hl : (∃ units, l = escape units) ∨ ∃ units code digits, l = hex units code digits)
    (h : l.step lone c = (out, some m)) :
    out = [] ∧ quotedOnly c = false ∧
      ((∃ code digits, m = hex l.units code digits) ∨ ∃ u, m = quoted (l.units ++ [u])) := by
  rcases hl with ⟨units, rfl⟩ | ⟨units, code, digits, rfl⟩
  · change escapeStep units c = _ at h
    unfold escapeStep at h
    cases hesc : escaped c with
    | some u =>
      rw [hesc] at h
      cases h
      exact ⟨rfl, by simp [quotedOnly, hesc], .inr ⟨u, rfl⟩⟩
    | none =>
      simp only [hesc] at h
      split_ifs at h with hu
      · cases h
        exact ⟨rfl, by simp [quotedOnly, hu], .inl ⟨0, 0, rfl⟩⟩
      · cases h
  · change hexStep units code digits c = _ at h
    unfold hexStep at h
    cases hhex : hexDigit c with
    | none =>
      rw [hhex] at h
      cases h
    | some d =>
      simp only [hhex] at h
      split_ifs at h
      · cases h
        exact ⟨rfl, by simp [quotedOnly, hhex], .inl ⟨_, _, rfl⟩⟩
      · cases h
        exact ⟨rfl, by simp [quotedOnly, hhex], .inr ⟨_, rfl⟩⟩

/-- A text may end outside strings only. -/
theorem outside_of_finish {l : Lexing} (h : l.finish.2 = true) : l.outside = true := by
  cases l <;> first | rfl | cases h

/-- The end of a text gives no text. -/
theorem texts_finish (l : Lexing) : texts l.finish.1 = [] := by
  cases l <;> first | rfl | exact texts_numberToken _ _

/-- Outside a string no units are collected. -/
theorem units_of_outside {l : Lexing} (h : l.outside = true) : l.units = [] := by
  cases l <;> first | rfl | cases h

/-- Inside a string a character adds itself or nothing to the string, or closes it. -/
theorem step_inside {l m : Lexing} {c : Char} {out : List Token} (hl : l.outside = false)
    (h : l.step lone c = (out, some m)) :
    (c = '"' ∧ texts out = [String.ofList (joinUnits lone l.units)] ∧ m = idle) ∨
      (texts out = [] ∧ m.outside = false ∧ ∃ us, m.units = l.units ++ us ∧ us.length ≤ 1 ∧
        (quotedOnly c = true → us = [c.toNat])) := by
  have hescape (hin : (∃ units, l = escape units) ∨ ∃ units code digits, l = hex units code digits) :
      texts out = [] ∧ m.outside = false ∧ ∃ us, m.units = l.units ++ us ∧ us.length ≤ 1 ∧
        (quotedOnly c = true → us = [c.toNat]) := by
    obtain ⟨rfl, hc, ⟨code, digits, rfl⟩ | ⟨u, rfl⟩⟩ := escape_cases hin h
    · exact ⟨rfl, rfl, [], by simp [units], by simp, by simp [hc]⟩
    · exact ⟨rfl, rfl, [u], rfl, by simp, by simp [hc]⟩
  cases l with
  | quoted units =>
    obtain ⟨rfl, rfl, rfl⟩ | ⟨rfl, rfl, rfl⟩ | ⟨_, _, rfl, rfl⟩ := quotedStep_cases h
    · exact .inl ⟨rfl, rfl, rfl⟩
    · exact .inr ⟨rfl, rfl, [], by simp [Lexing.units], by simp, by decide⟩
    · exact .inr ⟨rfl, rfl, [c.toNat], rfl, by simp, fun _ => rfl⟩
  | escape units => exact .inr (hescape (.inl ⟨units, rfl⟩))
  | hex units code digits => exact .inr (hescape (.inr ⟨units, code, digits, rfl⟩))
  | idle => cases hl
  | word w n => cases hl
  | minus => cases hl
  | number text part => cases hl
  | pending text part more start => cases hl

/-- A character that stands in strings only finds the lexer in one. -/
theorem quoted_of_quotedOnly {l m : Lexing} {c : Char} {out : List Token}
    (hc : quotedOnly c = true) (h : l.step lone c = (out, some m)) :
    ∃ units, l = quoted units ∧ m = quoted (units ++ [c.toNat]) := by
  simp only [quotedOnly, Bool.and_eq_true, Bool.not_eq_true', bne_iff_ne] at hc
  cases hl : l.outside with
  | true =>
    obtain ⟨-, ⟨rfl, -⟩ | ⟨houter, -⟩⟩ := opens_of_step hl h
    · simp at hc
    · simp [houter] at hc
  | false =>
    cases l with
    | quoted units =>
      obtain ⟨rfl, -, -⟩ | ⟨rfl, -, -⟩ | ⟨-, -, -, rfl⟩ := quotedStep_cases h
      · simp at hc
      · simp at hc
      · exact ⟨units, rfl, rfl⟩
    | escape units =>
      obtain ⟨-, hfalse, -⟩ := escape_cases (.inl ⟨units, rfl⟩) h
      simp [quotedOnly, hc] at hfalse
    | hex units code digits =>
      obtain ⟨-, hfalse, -⟩ := escape_cases (.inr ⟨units, code, digits, rfl⟩) h
      simp [quotedOnly, hc] at hfalse
    | idle => cases hl
    | word w n => cases hl
    | minus => cases hl
    | number text part => cases hl
    | pending text part more start => cases hl

/-! ## Runs -/

/-- A text that is lexed to its end is lexed step by step. -/
theorem lexFrom_cons {l : Lexing} {c : Char} {cs : List Char}
    (h : (l.lexFrom lone (c :: cs)).2 = true) :
    ∃ out m, l.step lone c = (out, some m) ∧ (m.lexFrom lone cs).2 = true ∧
      l.lexFrom lone (c :: cs) = (out ++ (m.lexFrom lone cs).1, true) := by
  rw [lexFrom] at h ⊢
  rcases hstep : l.step lone c with ⟨out, next⟩
  rw [hstep] at h
  cases next with
  | none => cases h
  | some m =>
    change (m.lexFrom lone cs).2 = true at h
    exact ⟨out, m, rfl, h, by simp [h]⟩

/-- What the lexer is in the middle of after some characters. -/
def run (lone : Nat → Char) : Lexing → List Char → Option Lexing
  | l, [] => some l
  | l, c :: cs => (l.step lone c).2.bind fun m => m.run lone cs

/-- A text that is lexed to its end is lexed in two parts. -/
theorem run_append {l : Lexing} {xs ys : List Char}
    (h : (l.lexFrom lone (xs ++ ys)).2 = true) :
    ∃ m, l.run lone xs = some m ∧ (m.lexFrom lone ys).2 = true := by
  induction xs generalizing l with
  | nil => exact ⟨l, rfl, h⟩
  | cons c xs ih =>
    obtain ⟨out, m, hstep, hrest, -⟩ := lexFrom_cons h
    obtain ⟨m', hrun, hrest⟩ := ih hrest
    exact ⟨m', by simp [run, hstep, hrun], hrest⟩

/-- A run over a character begins with its step. -/
theorem run_cons {l m : Lexing} {c : Char} {cs : List Char} (h : l.run lone (c :: cs) = some m) :
    ∃ out next, l.step lone c = (out, some next) ∧ next.run lone cs = some m := by
  obtain ⟨next, hstep, hrun⟩ := Option.bind_eq_some_iff.mp h
  exact ⟨_, next, Prod.ext rfl hstep, hrun⟩

/-- The lexer ends as its run does. -/
theorem finish_of_run {l m : Lexing} {cs : List Char} (hrun : l.run lone cs = some m)
    (h : (l.lexFrom lone cs).2 = true) : m.finish.2 = true := by
  induction cs generalizing l with
  | nil =>
    cases hrun
    exact h
  | cons c cs ih =>
    obtain ⟨out, next, hstep, hrest, -⟩ := lexFrom_cons h
    rw [run, hstep] at hrun
    exact ih hrun hrest

/-- Plain characters keep the lexer inside the string. -/
theorem quoted_of_run {units : List Nat} {m : Lexing} {cs : List Char}
    (hplain : ∀ c ∈ cs, c ≠ '"' ∧ c ≠ '\\') (h : (quoted units).run lone cs = some m) :
    ∃ units', m = quoted units' := by
  induction cs generalizing units with
  | nil =>
    cases h
    exact ⟨units, rfl⟩
  | cons c cs ih =>
    obtain ⟨out, next, hstep, hrun⟩ := run_cons h
    obtain ⟨hquote, hback⟩ := hplain c List.mem_cons_self
    obtain ⟨rfl, -⟩ | ⟨rfl, -⟩ | ⟨-, -, -, rfl⟩ := quotedStep_cases hstep
    · exact absurd rfl hquote
    · exact absurd rfl hback
    · exact ih (fun d hd => hplain d (List.mem_cons_of_mem _ hd)) hrun

/-- **What stands in a string only is in one of the strings.** -/
theorem exists_text_of_mem {l : Lexing} {c : Char} {cs : List Char} (hc : quotedOnly c = true)
    (h : (l.lexFrom lone cs).2 = true) (hmem : c ∈ cs ∨ c.toNat ∈ l.units) :
    ∃ s ∈ texts (l.lexFrom lone cs).1, c ∈ s.toList := by
  induction cs generalizing l with
  | nil =>
    rcases hmem with hmem | hmem
    · cases hmem
    · rw [units_of_outside (outside_of_finish h)] at hmem
      cases hmem
  | cons d cs ih =>
    obtain ⟨out, m, hstep, hrest, hlex⟩ := lexFrom_cons h
    have hlater (hm : c ∈ cs ∨ c.toNat ∈ m.units) :
        ∃ s ∈ texts (l.lexFrom lone (d :: cs)).1, c ∈ s.toList := by
      obtain ⟨s, hs, hcs⟩ := ih hrest hm
      exact ⟨s, by rw [hlex, texts_append]; exact List.mem_append_right _ hs, hcs⟩
    by_cases hhead : c = d
    · subst hhead
      obtain ⟨units, rfl, rfl⟩ := quoted_of_quotedOnly hc hstep
      exact hlater (.inr (List.mem_append_right _ (List.mem_singleton_self _)))
    have hmem : c ∈ cs ∨ c.toNat ∈ l.units := by
      rcases hmem with hmem | hmem
      · exact .inl ((List.mem_cons.mp hmem).resolve_left hhead)
      · exact .inr hmem
    rcases hmem with hmem | hunits
    · exact hlater (.inl hmem)
    have hin : l.outside = false := by
      cases hl : l.outside with
      | false => rfl
      | true =>
        rw [units_of_outside hl] at hunits
        cases hunits
    obtain ⟨-, htexts, -⟩ | ⟨-, -, us, hus, -⟩ := step_inside hin hstep
    · refine ⟨String.ofList (joinUnits lone l.units), ?_, ?_⟩
      · rw [hlex, texts_append, htexts]
        exact List.mem_cons_self
      · rw [String.toList_ofList]
        exact mem_joinUnits lone hunits
    · exact hlater (.inr (by rw [hus]; exact List.mem_append_left _ hunits))

/-- **A string is shorter than the text.** -/
theorem length_text_lt {l : Lexing} {cs : List Char} {s : String}
    (h : (l.lexFrom lone cs).2 = true) (hs : s ∈ texts (l.lexFrom lone cs).1) :
    s.length < l.units.length + cs.length := by
  induction cs generalizing l with
  | nil =>
    rw [lexFrom, texts_finish] at hs
    cases hs
  | cons c cs ih =>
    obtain ⟨out, m, hstep, hrest, hlex⟩ := lexFrom_cons h
    rw [hlex, texts_append] at hs
    have hlater (hs : s ∈ texts (m.lexFrom lone cs).1) (hm : m.units.length ≤ l.units.length + 1) :
        s.length < l.units.length + (c :: cs).length := by
      have := ih hrest hs
      rw [List.length_cons]
      omega
    cases hl : l.outside with
    | true =>
      obtain ⟨htexts, hm⟩ := opens_of_step hl hstep
      rw [htexts, List.nil_append] at hs
      refine hlater hs ?_
      obtain ⟨-, rfl⟩ | ⟨-, hm⟩ := hm
      · simp [units]
      · simp [units_of_outside hm]
    | false =>
      obtain ⟨-, htexts, rfl⟩ | ⟨htexts, -, us, hus, hlen, -⟩ := step_inside hl hstep
      · rw [htexts] at hs
        rcases List.mem_append.mp hs with hs | hs
        · have hlength := length_joinUnits lone l.units
          rw [List.mem_singleton] at hs
          rw [hs, String.length_ofList, List.length_cons]
          omega
        · exact hlater hs (by simp [units])
      · rw [htexts, List.nil_append] at hs
        exact hlater hs (by rw [hus, List.length_append]; omega)

/-! ## The ends of a text -/

/-- White space is no digit. -/
theorem not_digit_of_blank {c : Char} (h : isBlank c = true) : c.isDigit = false := by
  simp only [isBlank, Bool.or_eq_true, beq_iff_eq] at h
  rcases h with ((rfl | rfl) | rfl) | rfl <;> rfl

/-- Between tokens an inert character does nothing. -/
theorem startToken_inert {c : Char} {out : List Token} {m : Lexing} (hc : inert c = true)
    (h : startToken c = (out, some m)) : out = [] ∧ m = idle := by
  unfold startToken at h
  cases hfind : tokenStarts.find? fun e => e.1 == c with
  | some e =>
    have htable : ∀ e ∈ tokenStarts, inert e.1 = false := by decide
    have hkey : e.1 = c := by simpa using List.find?_some hfind
    have hfalse := htable e (List.mem_of_find?_eq_some hfind)
    rw [hkey, hc] at hfalse
    cases hfalse
  | none =>
    simp only [hfind] at h
    split_ifs at h with hblank hdigit
    · cases h
      exact ⟨rfl, rfl⟩
    · simp [inert, isOuter, hblank, hdigit] at hc
    · cases h

/-- An inert character keeps the lexer on its side of the quotes. -/
theorem outside_step_inert {l m : Lexing} {c : Char} {out : List Token} (hc : inert c = true)
    (h : l.step lone c = (out, some m)) : m.outside = l.outside := by
  have hquote : c ≠ '"' := by
    rintro rfl
    revert hc
    decide
  cases hl : l.outside with
  | true =>
    obtain ⟨-, ⟨rfl, -⟩ | ⟨-, hm⟩⟩ := opens_of_step hl h
    · exact absurd rfl hquote
    · exact hm
  | false =>
    obtain ⟨rfl, -⟩ | ⟨-, hm, -⟩ := step_inside hl h
    · exact absurd rfl hquote
    · exact hm

/-- Outside the strings an inert character ends what can end. -/
theorem step_inert {l m : Lexing} {c : Char} {out : List Token} (hl : l.outside = true)
    (hc : inert c = true) (h : l.step lone c = (out, some m)) : m = idle ∧ l.finish = (out, true) := by
  have houter : isOuter c = true → isBlank c = true := by
    intro houter
    have hlast : isOuter c = false ∨ isBlank c = true := by simpa using (Bool.and_eq_true_iff.mp hc).2
    exact hlast.resolve_left (by simp [houter])
  have hno : ∀ d, isOuter d = true → isBlank d = false → c ≠ d := by
    rintro d hd hblank rfl
    rw [houter hd] at hblank
    cases hblank
  have hdigit : c.isDigit = false := by
    cases hd : c.isDigit with
    | false => rfl
    | true =>
      have := not_digit_of_blank (houter (by simp [isOuter, hd]))
      rw [hd] at this
      cases this
  cases l with
  | quoted units => cases hl
  | escape units => cases hl
  | hex units code digits => cases hl
  | idle =>
    obtain ⟨rfl, rfl⟩ := startToken_inert hc h
    exact ⟨rfl, rfl⟩
  | word w n =>
    change wordStep w n c = _ at h
    unfold wordStep at h
    have hletters : ∀ x ∈ w.letters, (!inert x) = true := by
      rw [← List.all_eq_true]
      cases w <;> decide
    split_ifs at h with hletter
    · simpa [hc] using hletters c (List.mem_of_getElem? hletter)
    · simpa [hc] using hletters c (List.mem_of_getElem? hletter)
    · cases h
  | minus =>
    change minusStep c = _ at h
    rw [minusStep, if_neg (hno 'I' (by decide) (by decide)),
      if_neg (hno '0' (by decide) (by decide)), if_neg (by simp [hdigit])] at h
    cases h
  | number text part =>
    change numberStep text part c = _ at h
    have he : ¬ ((c = 'e' ∨ c = 'E') ∧ part ≠ .exponent) := by
      rintro ⟨he | he, -⟩
      · exact hno 'e' (by decide) (by decide) he
      · exact hno 'E' (by decide) (by decide) he
    rw [numberStep, if_neg (by simp [hdigit]),
      if_neg fun hp => hno '.' (by decide) (by decide) hp.1, if_neg he] at h
    rcases hstart : startToken c with ⟨rest, next⟩
    rw [hstart] at h
    cases h
    obtain ⟨rfl, rfl⟩ := startToken_inert hc hstart
    exact ⟨rfl, rfl⟩
  | pending text part more start =>
    change pendingStep text part more start c = _ at h
    have hsign : ¬ ((c = '+' ∨ c = '-') ∧ start = .exp) := by
      rintro ⟨hs | hs, -⟩
      · exact hno '+' (by decide) (by decide) hs
      · exact hno '-' (by decide) (by decide) hs
    rw [pendingStep, if_neg (by simp [hdigit]), if_neg hsign] at h
    cases h

/-- Inert characters before a text. -/
theorem lexFrom_idle_append {xs ys : List Char} (hx : ∀ c ∈ xs, inert c = true)
    (h : (idle.lexFrom lone (xs ++ ys)).2 = true) :
    idle.lexFrom lone (xs ++ ys) = idle.lexFrom lone ys := by
  induction xs with
  | nil => rfl
  | cons c xs ih =>
    rw [List.cons_append] at h ⊢
    obtain ⟨out, m, hstep, hrest, hlex⟩ := lexFrom_cons h
    obtain ⟨rfl, hfinish⟩ := step_inert rfl (hx c List.mem_cons_self) hstep
    cases hfinish
    have hrun := ih (fun d hd => hx d (List.mem_cons_of_mem _ hd)) hrest
    rw [hlex, List.nil_append]
    rw [hrun] at hrest ⊢
    exact Prod.ext rfl hrest.symm

/-- Inert characters at the end. -/
theorem lexFrom_inert {l : Lexing} {xs : List Char} (hx : ∀ c ∈ xs, inert c = true)
    (h : (l.lexFrom lone xs).2 = true) : l.lexFrom lone xs = l.finish := by
  induction xs generalizing l with
  | nil => rfl
  | cons c xs ih =>
    obtain ⟨out, m, hstep, hrest, hlex⟩ := lexFrom_cons h
    have hend := ih (fun d hd => hx d (List.mem_cons_of_mem _ hd)) hrest
    rw [hend] at hrest hlex
    have hl : l.outside = true := by
      rw [← outside_step_inert (hx c List.mem_cons_self) hstep]
      exact outside_of_finish hrest
    obtain ⟨rfl, hfinish⟩ := step_inert hl (hx c List.mem_cons_self) hstep
    rw [hlex, hfinish]
    simp [finish]

/-- Inert characters after a text. -/
theorem lexFrom_append_inert {l : Lexing} {xs ys : List Char} (hy : ∀ c ∈ ys, inert c = true)
    (h : (l.lexFrom lone (xs ++ ys)).2 = true) :
    l.lexFrom lone (xs ++ ys) = l.lexFrom lone xs := by
  induction xs generalizing l with
  | nil => exact lexFrom_inert hy h
  | cons c xs ih =>
    rw [List.cons_append] at h ⊢
    obtain ⟨out, m, hstep, hrest, hlex⟩ := lexFrom_cons h
    have hrun := ih hrest
    rw [hlex, hrun, lexFrom, hstep]
    rw [hrun] at hrest
    simp [hrest]

/-- Outside the strings inert characters lead nowhere else. -/
theorem outside_of_run {l m : Lexing} {xs : List Char} (hx : ∀ c ∈ xs, inert c = true)
    (h : l.run lone xs = some m) : m.outside = l.outside := by
  induction xs generalizing l with
  | nil =>
    cases h
    rfl
  | cons c xs ih =>
    obtain ⟨out, next, hstep, hrun⟩ := run_cons h
    rw [ih (fun d hd => hx d (List.mem_cons_of_mem _ hd)) hrun]
    exact outside_step_inert (hx c List.mem_cons_self) hstep

/-- A character that starts a token, and behind which the text may end, is one that ends tokens. -/
theorem endsToken_of_startToken {c : Char} {out : List Token} {m : Lexing}
    (h : startToken c = (out, some m)) (hm : m.finish.2 = true) : endsToken c = true := by
  unfold startToken at h
  cases hfind : tokenStarts.find? fun e => e.1 == c with
  | some e =>
    have htable : ∀ e ∈ tokenStarts, e.2.2.finish.2 = true → endsToken e.1 = true := by decide
    have hkey : e.1 = c := by simpa using List.find?_some hfind
    rw [hfind] at h
    cases h
    exact hkey ▸ htable e (List.mem_of_find?_eq_some hfind) hm
  | none =>
    simp only [hfind] at h
    split_ifs at h with hblank hdigit
    · simp [endsToken, hblank]
    · simp [endsToken, hdigit]
    · cases h

/-- The last character of a complete text. -/
theorem endsToken_of_step {l m : Lexing} {c : Char} {out : List Token}
    (h : l.step lone c = (out, some m)) (hm : m.finish.2 = true) : endsToken c = true := by
  cases hl : l.outside with
  | false =>
    obtain ⟨rfl, -⟩ | ⟨-, hout, -⟩ := step_inside hl h
    · decide
    · rw [outside_of_finish hm] at hout
      cases hout
  | true =>
    cases l with
    | quoted units => cases hl
    | escape units => cases hl
    | hex units code digits => cases hl
    | idle => exact endsToken_of_startToken h hm
    | word w n =>
      change wordStep w n c = _ at h
      unfold wordStep at h
      split_ifs at h with hletter hlast
      · have hend : ∀ x, w.letters[w.letters.length - 1]? = some x → endsToken x = true := by
          cases w <;> (rintro x hx; cases hx; decide)
        exact hend c (by rw [← hletter]; congr 1; omega)
      · cases h
        cases hm
      · cases h
    | minus =>
      change minusStep c = _ at h
      unfold minusStep at h
      split_ifs at h with hI hzero hdigit
      · cases h
        cases hm
      · rw [hzero]
        decide
      · simp [endsToken, hdigit]
      · cases h
    | number text part =>
      change numberStep text part c = _ at h
      unfold numberStep at h
      split_ifs at h with hdigit hpoint hexp
      · simp [endsToken, hdigit.1]
      · cases h
        cases hm
      · cases h
        cases hm
      · obtain ⟨rfl, hnext⟩ := Prod.mk.inj h
        exact endsToken_of_startToken (Prod.ext rfl hnext) hm
    | pending text part more start =>
      change pendingStep text part more start c = _ at h
      unfold pendingStep at h
      split_ifs at h with hdigit hsign
      · simp [endsToken, hdigit]
      · cases h
        cases hm
      · cases h

/-! ## A text read from inside one of its strings -/

/-- One lexer is outside the strings where the other is inside, and the string that the second
has taken from outside the first holds no other characters. -/
inductive Opposite : Lexing → Lexing → Prop
  | inside {units : List Nat} {m : Lexing} (h : m.outside = true) : Opposite (quoted units) m
  | outside {l : Lexing} {cs : List Char} (h : l.outside = true) (hcs : ∀ c ∈ cs, isOuter c = true) :
      Opposite l (quoted (cs.map Char.toNat))

/-- Quote and backslash are not among the characters outside the strings. -/
theorem not_outer : ¬ isOuter '"' = true ∧ ¬ isOuter '\\' = true := by
  decide

/-- One character. -/
theorem Opposite.step {l m l' m' : Lexing} {c : Char} {out out' : List Token} (h : Opposite l m)
    (hl : l.step lone c = (out, some l')) (hm : m.step lone c = (out', some m')) :
    Opposite l' m' ∧ ∀ s ∈ texts out', ∀ d ∈ s.toList, isOuter d = true := by
  obtain ⟨hquote, hback⟩ := not_outer
  cases h with
  | @inside units m hout =>
    obtain ⟨htexts, hopens⟩ := opens_of_step hout hm
    refine ⟨?_, by simp [htexts]⟩
    obtain ⟨rfl, rfl⟩ | ⟨houter, hout'⟩ := hopens
    · obtain ⟨-, -, rfl⟩ | ⟨hfalse, -⟩ | ⟨hfalse, -⟩ := quotedStep_cases hl
      · exact @Opposite.outside idle [] rfl (by simp)
      · cases hfalse
      · exact absurd rfl hfalse
    · obtain ⟨rfl, -⟩ | ⟨rfl, -⟩ | ⟨-, -, -, rfl⟩ := quotedStep_cases hl
      · exact absurd houter hquote
      · exact absurd houter hback
      · exact .inside hout'
  | @outside l cs hout hcs =>
    obtain ⟨-, ⟨rfl, rfl⟩ | ⟨houter, hout'⟩⟩ := opens_of_step hout hl
    · obtain ⟨-, rfl, rfl⟩ | ⟨hfalse, -⟩ | ⟨hfalse, -⟩ := quotedStep_cases hm
      · refine ⟨.inside rfl, ?_⟩
        simpa [texts, Token.text?, joinUnits_map] using hcs
      · cases hfalse
      · exact absurd rfl hfalse
    · obtain ⟨rfl, -⟩ | ⟨rfl, -⟩ | ⟨-, -, rfl, rfl⟩ := quotedStep_cases hm
      · exact absurd houter hquote
      · exact absurd houter hback
      · refine ⟨?_, by simp [texts]⟩
        have hmap : cs.map Char.toNat ++ [c.toNat] = (cs ++ [c]).map Char.toNat := by simp
        rw [hmap]
        refine .outside hout' fun d hd => ?_
        rcases List.mem_append.mp hd with hd | hd
        · exact hcs d hd
        · rw [List.mem_singleton.mp hd]
          exact houter

/-- **The strings of a text read from inside a string of another** hold what stands outside the
strings of that one. -/
theorem Opposite.texts {l m l' : Lexing} {cs : List Char} (h : Opposite l m)
    (hrun : l.run lone cs = some l') (hm : (m.lexFrom lone cs).2 = true) :
    ∀ s ∈ texts (m.lexFrom lone cs).1, ∀ d ∈ s.toList, isOuter d = true := by
  induction cs generalizing l m with
  | nil =>
    rw [lexFrom, texts_finish]
    simp
  | cons c cs ih =>
    obtain ⟨out, next, hstep, hrun⟩ := run_cons hrun
    obtain ⟨out', next', hstep', hrest, hlex⟩ := lexFrom_cons hm
    obtain ⟨hopposite, houter⟩ := h.step hstep hstep'
    intro s hs
    rw [hlex, texts_append] at hs
    rcases List.mem_append.mp hs with hs | hs
    · exact houter s hs
    · exact ih hopposite hrun hrest s hs

end Lexing

/-! ## Texts -/

section Lex

open Lexing

variable {lone : Nat → Char}

/-- Inert characters around a text. -/
theorem lex_inert {xs ys text : List Char} (hx : ∀ c ∈ xs, inert c = true)
    (hy : ∀ c ∈ ys, inert c = true) (h : (lex lone (xs ++ text ++ ys)).2 = true) :
    lex lone text = lex lone (xs ++ text ++ ys) := by
  unfold lex at h ⊢
  have hfront : idle.lexFrom lone (xs ++ text ++ ys) = idle.lexFrom lone (text ++ ys) := by
    rw [List.append_assoc] at h ⊢
    exact lexFrom_idle_append hx h
  rw [hfront] at h ⊢
  exact (lexFrom_append_inert hy h).symm

/-- **A text cut off inside a string is not complete**, whatever blanks are taken off its ends. -/
theorem lex_cut {xs ys text rest : List Char} {c : Char} (hx : ∀ c ∈ xs, inert c = true)
    (hy : ∀ c ∈ ys, inert c = true) (hc : quotedOnly c = true)
    (h : (lex lone (xs ++ text ++ ys ++ c :: rest)).2 = true) : (lex lone text).2 = false := by
  unfold lex at h ⊢
  rw [List.append_assoc, List.append_assoc] at h
  rw [lexFrom_idle_append hx h] at h
  obtain ⟨m, hrun, hrest⟩ := run_append h
  obtain ⟨m', hrun', hrest'⟩ := run_append hrest
  obtain ⟨out, next, hstep, -⟩ := lexFrom_cons hrest'
  obtain ⟨units, rfl, -⟩ := quoted_of_quotedOnly hc hstep
  cases htext : (idle.lexFrom lone text).2 with
  | false => rfl
  | true =>
    have hout := outside_of_finish (finish_of_run hrun htext)
    rw [← outside_of_run hy hrun'] at hout
    cases hout

/-- The last character of a complete text. -/
theorem endsToken_of_lex {text : List Char} {c : Char}
    (h : (lex lone (text ++ [c])).2 = true) : endsToken c = true := by
  obtain ⟨m, -, hrest⟩ := run_append h
  obtain ⟨out, next, hstep, hfinish, -⟩ := lexFrom_cons hrest
  exact endsToken_of_step hstep hfinish

/-- The first character of a complete text. -/
theorem startsToken_of_lex {text : List Char} {c : Char} (h : (lex lone (c :: text)).2 = true) :
    c = '"' ∨ isOuter c = true := by
  obtain ⟨out, m, hstep, -⟩ := lexFrom_cons h
  obtain ⟨-, ⟨hquote, -⟩ | ⟨houter, -⟩⟩ := opens_of_startToken hstep
  · exact .inl hquote
  · exact .inr houter

/-- **What stands in strings only stands in a string.** -/
theorem exists_text_of_lex {text : List Char} {c : Char} (hc : quotedOnly c = true)
    (h : (lex lone text).2 = true) (hmem : c ∈ text) :
    ∃ s ∈ texts (lex lone text).1, c ∈ s.toList :=
  exists_text_of_mem hc h (.inl hmem)

/-- Every text of a lexed document is shorter than it. -/
theorem length_lt_of_lex {text : List Char} {s : String} (h : (lex lone text).2 = true)
    (hs : s ∈ texts (lex lone text).1) : s.length < text.length := by
  have hlt := length_text_lt h hs
  simpa [units] using hlt

/-- **A text read from inside a string.** What follows a character that stands in strings only,
plain characters apart, has in its strings what stands outside the strings. -/
theorem texts_of_inside {before plain text rest : List Char} {c : Char} (hc : quotedOnly c = true)
    (hplain : ∀ c ∈ plain, c ≠ '"' ∧ c ≠ '\\')
    (h : (lex lone (before ++ c :: (plain ++ (text ++ rest)))).2 = true)
    (htext : (lex lone text).2 = true) :
    ∀ s ∈ texts (lex lone text).1, ∀ d ∈ s.toList, isOuter d = true := by
  obtain ⟨l, -, hl⟩ := run_append h
  obtain ⟨out, next, hstep, hnext, -⟩ := lexFrom_cons hl
  obtain ⟨units, -, rfl⟩ := quoted_of_quotedOnly hc hstep
  obtain ⟨m, hrun, hm⟩ := run_append hnext
  obtain ⟨units', rfl⟩ := quoted_of_run hplain hrun
  obtain ⟨l', hrun', -⟩ := run_append hm
  exact Opposite.texts (.inside rfl) hrun' htext

end Lex

end PrReviewer.Library
