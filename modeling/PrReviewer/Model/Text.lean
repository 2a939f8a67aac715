import Mathlib.Data.List.Basic

/-!
# Text, as Python works on it

The string functions and regular expressions of `filter/command.py` and `webhook/app.py`, on
lists of characters. What the Unicode tables say about characters outside ASCII is a
parameter.
-/

set_option autoImplicit false

namespace PrReviewer.Model

/-- The Unicode tables Python uses for `\w`, `\d`, `int` and `str.lower`. -/
structure Unicode where
  /-- `\w` outside ASCII -/
  word : Char → Bool
  /-- the value of a decimal digit outside ASCII -/
  digit : Char → Option Nat
  /-- `str.lower` -/
  lower : List Char → List Char

/-- Tables that know ASCII only. -/
def Unicode.ascii : Unicode where
  word := fun _ => false
  digit := fun _ => none
  lower := fun cs => cs.map Char.toLower

/-- The character is ASCII. -/
def isAscii (c : Char) : Bool :=
  c.toNat < 128

/-- `\d`, with the value of the digit. -/
def Unicode.digitVal (u : Unicode) (c : Char) : Option Nat :=
  if isAscii c then (if c.isDigit then some (c.toNat - 48) else none) else u.digit c

/-- `\w` -/
def Unicode.isWord (u : Unicode) (c : Char) : Bool :=
  if isAscii c then c.isAlphanum || c == '_' else u.word c

/-- `\s`, the characters of `str.isspace`. -/
def isSpace (c : Char) : Bool :=
  let n := c.toNat
  (9 ≤ n && n ≤ 13) || (28 ≤ n && n ≤ 32) || n == 0x85 || n == 0xa0 || n == 0x1680 ||
    (0x2000 ≤ n && n ≤ 0x200a) || n == 0x2028 || n == 0x2029 || n == 0x202f || n == 0x205f ||
    n == 0x3000

/-- A lower-case letter of a pattern against a character under `re.IGNORECASE`; only `i` has
partners outside ASCII among the letters the patterns use. -/
def eqIgnoreCase (p c : Char) : Bool :=
  c == p || c.toLower == p || (p == 'i' && (c.toNat == 0x130 || c.toNat == 0x131))

/-- The text starts with the pattern under `re.IGNORECASE`; what follows it. -/
def afterIgnoreCase : List Char → List Char → Option (List Char)
  | [], cs => some cs
  | _ :: _, [] => none
  | p :: ps, c :: cs => if eqIgnoreCase p c then afterIgnoreCase ps cs else none

/-- `pat in text` -/
def hasText (pat text : List Char) : Bool :=
  text.tails.any pat.isPrefixOf

/-- `re.sub(pattern, "", text)` for a pattern given by the length of its match at the start of
a text; the first argument counts the matched characters still to be dropped. -/
def dropMatches (len : List Char → Option Nat) : Nat → List Char → List Char
  | _, [] => []
  | n + 1, _ :: cs => dropMatches len n cs
  | 0, c :: cs =>
    match len (c :: cs) with
    | some (n + 1) => dropMatches len n cs
    | _ => c :: dropMatches len 0 cs

/-- `text.replace(pat, "")` -/
def removeAll (pat text : List Char) : List Char :=
  dropMatches (fun cs => if pat.isPrefixOf cs then some pat.length else none) 0 text

/-- The length of `.*?>` at the start of a text: up to the first `>` on the line. -/
def upToBracket : List Char → Option Nat
  | [] => none
  | c :: cs => if c == '>' then some 1 else if c == '\n' then none else (upToBracket cs).map (· + 1)

/-- The length of `<@.*?>` at the start of a text. -/
def mentionLength : List Char → Option Nat
  | '<' :: '@' :: cs => (upToBracket cs).map (· + 2)
  | _ => none

/-- `re.sub(r"<@.*?>", "", text)` -/
def stripMentions (text : List Char) : List Char :=
  dropMatches mentionLength 0 text

/-- `re.search(r"#?(\d+)", text).group(1)`: the first run of digits. -/
def firstDigits (u : Unicode) (text : List Char) : Option (List Char) :=
  match text.dropWhile fun c => (u.digitVal c).isNone with
  | [] => none
  | cs => some (cs.takeWhile fun c => (u.digitVal c).isSome)

/-- The digits of an `int` literal with single underscores between them; the flag says whether
the character before was a digit. -/
def readDigits (u : Unicode) : Bool → Nat → List Char → Option Nat
  | prev, acc, [] => if prev then some acc else none
  | prev, acc, c :: cs =>
    match u.digitVal c with
    | some d => readDigits u true (acc * 10 + d) cs
    | none => if c == '_' && prev then readDigits u false acc cs else none

/-- The white space that `int` takes off: `str.isspace` without the four separators of ASCII. -/
def isIntSpace (c : Char) : Bool :=
  isSpace c && !(28 ≤ c.toNat && c.toNat ≤ 31)

/-- `int(text)`; `none` where it raises `ValueError`, as it does on more than 4300 digits. -/
def pyInt (u : Unicode) (text : List Char) : Option Int :=
  let body := ((text.dropWhile isIntSpace).reverse.dropWhile isIntSpace).reverse
  let digits := match body with
    | '-' :: cs => cs
    | '+' :: cs => cs
    | cs => cs
  if (digits.filter fun c => (u.digitVal c).isSome).length > 4300 then none
  else
    (readDigits u false 0 digits).map fun n =>
      match body with
      | '-' :: _ => -(n : Int)
      | _ => (n : Int)

example : stripMentions "<@U1> approve #42".toList = " approve #42".toList := by decide

example : firstDigits .ascii "review #42 now".toList = some "42".toList := by decide

example : pyInt .ascii ['\x1c', '7'] = none := by decide

end PrReviewer.Model
