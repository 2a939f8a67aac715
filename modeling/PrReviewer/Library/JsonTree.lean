import PrReviewer.Library.Dynamic
import PrReviewer.Library.JsonTokens

/-!
# JSON documents

The reader of a JSON text: a machine over its tokens with the containers still open on a stack.
Two limits of Python's `json` are parameters of it, which integers `int` reads and how deep
containers nest; a text read without limits is a document, a text read with them has a value.

A document keeps the entries of an object as they are written; the value of an object is a
dictionary, where the last entry of a key is the one that counts.
-/

set_option autoImplicit false

namespace PrReviewer.Library

/-- Why a text is not read. -/
inductive JsonError
  /-- it is not JSON -/
  | malformed
  /-- an integer has more digits than `int` reads -/
  | longInt
  /-- the containers nest too deep -/
  | tooDeep
  deriving DecidableEq, Repr

/-- A JSON document. -/
inductive Json
  | null
  | bool (b : Bool)
  | int (n : Int)
  | float (text : String)
  | str (s : String)
  | arr (items : List Json)
  /-- the entries in the order of the text -/
  | obj (entries : List (String × Json))
  deriving Repr

/-- A token that stands for no value by itself stands for none. -/
def Token.scalar : Token → List Token
  | openArr => []
  | closeArr => []
  | openObj => []
  | closeObj => []
  | comma => []
  | colon => []
  | t => [t]

/-! ## Documents -/

mutual

/-- The scalars and keys of a document. -/
def Json.tokens : Json → List Token
  | .null => [.null]
  | .bool b => [.bool b]
  | .int n => [.int n]
  | .float text => [.float text]
  | .str s => [.str s]
  | .arr items => itemTokens items
  | .obj entries => entryTokens entries

/-- The tokens of the items. -/
def itemTokens : List Json → List Token
  | [] => []
  | v :: items => v.tokens ++ itemTokens items

/-- The tokens of the entries. -/
def entryTokens : List (String × Json) → List Token
  | [] => []
  | (key, v) :: entries => .str key :: (v.tokens ++ entryTokens entries)

end

mutual

/-- How deep the containers nest. -/
def Json.depth : Json → Nat
  | .arr items => itemDepth items + 1
  | .obj entries => entryDepth entries + 1
  | _ => 0

/-- The depth of the items. -/
def itemDepth : List Json → Nat
  | [] => 0
  | v :: items => max v.depth (itemDepth items)

/-- The depth of the entries. -/
def entryDepth : List (String × Json) → Nat
  | [] => 0
  | (_, v) :: entries => max v.depth (entryDepth entries)

end

/-- The tokens of two lists of items. -/
theorem itemTokens_append (xs ys : List Json) :
    itemTokens (xs ++ ys) = itemTokens xs ++ itemTokens ys := by
  induction xs with
  | nil => rfl
  | cons v xs ih => simp [itemTokens, ih]

/-- The tokens of two lists of entries. -/
theorem entryTokens_append (xs ys : List (String × Json)) :
    entryTokens (xs ++ ys) = entryTokens xs ++ entryTokens ys := by
  induction xs with
  | nil => rfl
  | cons e xs ih =>
    obtain ⟨key, v⟩ := e
    simp [entryTokens, ih]

/-- The depth of two lists of items. -/
theorem itemDepth_append (xs ys : List Json) :
    itemDepth (xs ++ ys) = max (itemDepth xs) (itemDepth ys) := by
  induction xs with
  | nil => simp [itemDepth]
  | cons v xs ih => simp [itemDepth, ih, max_assoc]

/-- The depth of two lists of entries. -/
theorem entryDepth_append (xs ys : List (String × Json)) :
    entryDepth (xs ++ ys) = max (entryDepth xs) (entryDepth ys) := by
  induction xs with
  | nil => simp [entryDepth]
  | cons e xs ih =>
    obtain ⟨key, v⟩ := e
    simp [entryDepth, ih, max_assoc]

/-- A token of the items is one of an item. -/
theorem mem_itemTokens {t : Token} {items : List Json} :
    t ∈ itemTokens items ↔ ∃ v ∈ items, t ∈ v.tokens := by
  induction items with
  | nil => simp [itemTokens]
  | cons v items ih => simp [itemTokens, ih]

/-- A token of the entries is a key or one of a value. -/
theorem mem_entryTokens {t : Token} {entries : List (String × Json)} :
    t ∈ entryTokens entries ↔ ∃ e ∈ entries, t = .str e.1 ∨ t ∈ e.2.tokens := by
  induction entries with
  | nil => simp [entryTokens]
  | cons e entries ih =>
    obtain ⟨key, v⟩ := e
    simp [entryTokens, ih, or_assoc]

/-- The items are no deeper than a bound exactly when each is. -/
theorem itemDepth_le {n : Nat} {items : List Json} :
    itemDepth items ≤ n ↔ ∀ v ∈ items, v.depth ≤ n := by
  induction items with
  | nil => simp [itemDepth]
  | cons v items ih => rw [itemDepth, Nat.max_le, ih, List.forall_mem_cons]

/-- The entries are no deeper than a bound exactly when each value is. -/
theorem entryDepth_le {n : Nat} {entries : List (String × Json)} :
    entryDepth entries ≤ n ↔ ∀ e ∈ entries, e.2.depth ≤ n := by
  induction entries with
  | nil => simp [entryDepth]
  | cons e entries ih =>
    obtain ⟨key, v⟩ := e
    rw [entryDepth, Nat.max_le, ih, List.forall_mem_cons]

/-! ## The reader -/

/-- A container that is still open, up to the value that is being read. -/
inductive Frame
  | arr (items : List Json)
  | field (entries : List (String × Json)) (key : String)

/-- What the reader has, and what it waits for. -/
inductive Reading
  | value (stack : List Frame)
  /-- an array has just opened -/
  | items (stack : List Frame)
  /-- an object has just opened -/
  | keys (stack : List Frame)
  /-- a key, after a comma -/
  | key (entries : List (String × Json)) (stack : List Frame)
  | colon (entries : List (String × Json)) (key : String) (stack : List Frame)
  /-- what may follow a value -/
  | after (v : Json) (stack : List Frame)

/-- The limits of a reader. -/
structure Limits where
  /-- `int` reads the number. -/
  readable : Int → Bool
  /-- Inside so many containers another may open. -/
  room : Nat → Bool

/-- A reader without limits. -/
def Limits.free : Limits where
  readable := fun _ => true
  room := fun _ => true

/-- The first token of a value. -/
def startValue (limits : Limits) (stack : List Frame) : Token → Except JsonError Reading
  | .null => .ok (.after .null stack)
  | .bool b => .ok (.after (.bool b) stack)
  | .int n => if limits.readable n then .ok (.after (.int n) stack) else .error .longInt
  | .float text => .ok (.after (.float text) stack)
  | .str s => .ok (.after (.str s) stack)
  | .openArr => if limits.room stack.length then .ok (.items stack) else .error .tooDeep
  | .openObj => if limits.room stack.length then .ok (.keys stack) else .error .tooDeep
  | _ => .error .malformed

/-- A key, or an error. -/
def readKey (entries : List (String × Json)) (stack : List Frame) : Token → Except JsonError Reading
  | .str s => .ok (.colon entries s stack)
  | _ => .error .malformed

/-- The token after a value. -/
def closeValue (v : Json) (t : Token) : List Frame → Except JsonError Reading
  | [] => .error .malformed
  | .arr items :: stack =>
    if t = .comma then .ok (.value (.arr (items ++ [v]) :: stack))
    else if t = .closeArr then .ok (.after (.arr (items ++ [v])) stack)
    else .error .malformed
  | .field entries key :: stack =>
    if t = .comma then .ok (.key (entries ++ [(key, v)]) stack)
    else if t = .closeObj then .ok (.after (.obj (entries ++ [(key, v)])) stack)
    else .error .malformed

namespace Reading

/-- What the reader does with a token. -/
def feed (limits : Limits) : Reading → Token → Except JsonError Reading
  | value stack, t => startValue limits stack t
  | items stack, t =>
    if t = .closeArr then .ok (after (.arr []) stack) else startValue limits (.arr [] :: stack) t
  | keys stack, t => if t = .closeObj then .ok (after (.obj []) stack) else readKey [] stack t
  | key entries stack, t => readKey entries stack t
  | colon entries name stack, t =>
    if t = .colon then .ok (value (.field entries name :: stack)) else .error .malformed
  | after v stack, t => closeValue v t stack

/-- The end of the text. -/
def finish : Reading → Except JsonError Json
  | after v [] => .ok v
  | _ => .error .malformed

end Reading

/-- The document of a text. The tokens before the place where a text breaks off are read first. -/
def readJson (lone : Nat → Char) (limits : Limits) (text : List Char) : Except JsonError Json := do
  let reading ← (lex lone text).1.foldlM (Reading.feed limits) (.value [])
  if (lex lone text).2 then reading.finish else .error .malformed

/-! ## What has been read -/

namespace Frame

/-- The tokens read into a frame. -/
def tokens : Frame → List Token
  | arr items => itemTokens items
  | field entries key => entryTokens entries ++ [.str key]

/-- The depth of what was read into a frame. -/
def depth : Frame → Nat
  | arr items => itemDepth items
  | field entries _ => entryDepth entries

end Frame

/-- The tokens read into the frames. -/
def stackTokens : List Frame → List Token
  | [] => []
  | f :: stack => stackTokens stack ++ f.tokens

/-- The depth of what was read into the frames. -/
def stackDepth : List Frame → Nat
  | [] => 0
  | f :: stack => max (stackDepth stack) (stack.length + 1 + f.depth)

namespace Reading

/-- The scalars and keys read so far. -/
def tokens : Reading → List Token
  | value stack => stackTokens stack
  | items stack => stackTokens stack
  | keys stack => stackTokens stack
  | key entries stack => stackTokens stack ++ entryTokens entries
  | colon entries name stack => stackTokens stack ++ (entryTokens entries ++ [.str name])
  | after v stack => stackTokens stack ++ v.tokens

/-- How deep the containers have nested so far. -/
def depth : Reading → Nat
  | value stack => stackDepth stack
  | items stack => max (stackDepth stack) (stack.length + 1)
  | keys stack => max (stackDepth stack) (stack.length + 1)
  | key entries stack => max (stackDepth stack) (stack.length + 1 + entryDepth entries)
  | colon entries _ stack => max (stackDepth stack) (stack.length + 1 + entryDepth entries)
  | after v stack => max (stackDepth stack) (stack.length + v.depth)

end Reading

section Feed

variable {limits : Limits} {stack : List Frame} {t : Token} {st st' : Reading}

/-- Starting a value reads its token. -/
theorem startValue_ok (h : startValue limits stack t = .ok st) :
    st.tokens = stackTokens stack ++ t.scalar ∧ stackDepth stack ≤ st.depth := by
  cases t with
  | null =>
    cases h
    exact ⟨rfl, le_max_left _ _⟩
  | bool b =>
    cases h
    exact ⟨rfl, le_max_left _ _⟩
  | float text =>
    cases h
    exact ⟨rfl, le_max_left _ _⟩
  | str s =>
    cases h
    exact ⟨rfl, le_max_left _ _⟩
  | int n =>
    rw [startValue] at h
    split_ifs at h
    cases h
    exact ⟨rfl, le_max_left _ _⟩
  | openArr =>
    rw [startValue] at h
    split_ifs at h
    cases h
    exact ⟨(List.append_nil _).symm, le_max_left _ _⟩
  | openObj =>
    rw [startValue] at h
    split_ifs at h
    cases h
    exact ⟨(List.append_nil _).symm, le_max_left _ _⟩
  | closeArr => cases h
  | closeObj => cases h
  | comma => cases h
  | colon => cases h

/-- A key that is read is a string. -/
theorem readKey_ok {entries : List (String × Json)} (h : readKey entries stack t = .ok st) :
    ∃ s, t = .str s ∧ st = .colon entries s stack := by
  cases t with
  | str s =>
    cases h
    exact ⟨s, rfl, rfl⟩
  | null => cases h
  | bool b => cases h
  | float text => cases h
  | int n => cases h
  | openArr => cases h
  | openObj => cases h
  | closeArr => cases h
  | closeObj => cases h
  | comma => cases h
  | colon => cases h

/-- Closing a value keeps its tokens. -/
theorem closeValue_ok {v : Json} (h : closeValue v t stack = .ok st) :
    st.tokens = stackTokens stack ++ v.tokens ++ t.scalar ∧
      max (stackDepth stack) (stack.length + v.depth) ≤ st.depth := by
  cases stack with
  | nil => cases h
  | cons f stack =>
    cases f with
    | arr items =>
      rw [closeValue] at h
      split_ifs at h with hcomma hclose
      · cases h
        subst hcomma
        simp only [Reading.tokens, Reading.depth, stackTokens, stackDepth, Frame.tokens,
          Frame.depth, itemTokens_append, itemDepth_append, itemTokens, itemDepth, Token.scalar,
          List.append_nil, List.append_assoc, List.length_cons, true_and]
        omega
      · cases h
        subst hclose
        simp only [Reading.tokens, Reading.depth, stackTokens, stackDepth, Frame.tokens,
          Frame.depth, Json.tokens, Json.depth, itemTokens_append, itemDepth_append, itemTokens,
          itemDepth, Token.scalar, List.append_nil, List.append_assoc, List.length_cons, true_and]
        omega
    | field entries key =>
      rw [closeValue] at h
      split_ifs at h with hcomma hclose
      · cases h
        subst hcomma
        simp only [Reading.tokens, Reading.depth, stackTokens, stackDepth, Frame.tokens,
          Frame.depth, entryTokens_append, entryDepth_append, entryTokens, entryDepth,
          Token.scalar, List.append_nil, List.append_assoc, List.length_cons, List.cons_append,
          List.nil_append, true_and]
        omega
      · cases h
        subst hclose
        simp only [Reading.tokens, Reading.depth, stackTokens, stackDepth, Frame.tokens,
          Frame.depth, Json.tokens, Json.depth, entryTokens_append, entryDepth_append,
          entryTokens, entryDepth, Token.scalar, List.append_nil, List.append_assoc,
          List.length_cons, List.cons_append, List.nil_append, true_and]
        omega

/-- **One token**: it joins the scalars read, and the containers read stay. -/
theorem Reading.feed_ok (h : st.feed limits t = .ok st') :
    st'.tokens = st.tokens ++ t.scalar ∧ st.depth ≤ st'.depth := by
  cases st with
  | value stack => exact startValue_ok h
  | items stack =>
    rw [feed] at h
    split_ifs at h with hclose
    · cases h
      subst hclose
      simp only [tokens, depth, Json.tokens, Json.depth, itemTokens, itemDepth, Token.scalar,
        true_and]
      omega
    · obtain ⟨htokens, hdepth⟩ := startValue_ok h
      simp only [stackTokens, stackDepth, Frame.tokens, Frame.depth, itemTokens, itemDepth,
        List.append_nil] at htokens hdepth
      exact ⟨htokens, by simpa [depth] using hdepth⟩
  | keys stack =>
    rw [feed] at h
    split_ifs at h with hclose
    · cases h
      subst hclose
      simp only [tokens, depth, Json.tokens, Json.depth, entryTokens, entryDepth, Token.scalar,
        true_and]
      omega
    · obtain ⟨s, rfl, rfl⟩ := readKey_ok h
      simp [tokens, depth, entryTokens, entryDepth, Token.scalar]
  | key entries stack =>
    obtain ⟨s, rfl, rfl⟩ := readKey_ok h
    simp [tokens, depth, Token.scalar]
  | colon entries name stack =>
    rw [feed] at h
    split_ifs at h with hcolon
    cases h
    subst hcolon
    simp [tokens, depth, stackTokens, stackDepth, Frame.tokens, Frame.depth, Token.scalar]
  | after v stack => exact closeValue_ok h

/-- A value that starts within the limits starts without them. -/
theorem startValue_free (h : startValue limits stack t = .ok st) :
    startValue .free stack t = .ok st ∧ ∀ n, t = .int n → limits.readable n = true := by
  cases t with
  | int n =>
    rw [startValue] at h
    split_ifs at h with hn
    refine ⟨h, ?_⟩
    rintro m ⟨⟩
    exact hn
  | openArr =>
    rw [startValue] at h
    split_ifs at h
    exact ⟨h, by simp⟩
  | openObj =>
    rw [startValue] at h
    split_ifs at h
    exact ⟨h, by simp⟩
  | null => exact ⟨h, by simp⟩
  | bool b => exact ⟨h, by simp⟩
  | float text => exact ⟨h, by simp⟩
  | str s => exact ⟨h, by simp⟩
  | closeArr => cases h
  | closeObj => cases h
  | comma => cases h
  | colon => cases h

/-- A value that is started without limits is started within them, if they allow it. -/
theorem startValue_of_free (h : startValue .free stack t = .ok st)
    (hint : ∀ n, t = .int n → limits.readable n = true)
    (hroom : ∀ k < st.depth, limits.room k = true) : startValue limits stack t = .ok st := by
  cases t with
  | int n =>
    cases h
    rw [startValue, if_pos (hint n rfl)]
  | openArr =>
    cases h
    rw [startValue, if_pos]
    exact hroom _ (lt_of_lt_of_le (Nat.lt_succ_self _) (le_max_right _ _))
  | openObj =>
    cases h
    rw [startValue, if_pos]
    exact hroom _ (lt_of_lt_of_le (Nat.lt_succ_self _) (le_max_right _ _))
  | null => exact h
  | bool b => exact h
  | float text => exact h
  | str s => exact h
  | closeArr => cases h
  | closeObj => cases h
  | comma => cases h
  | colon => cases h

namespace Reading

/-- A token that is read within limits is read without them. -/
theorem feed_free (h : st.feed limits t = .ok st') :
    st.feed .free t = .ok st' ∧ ∀ n, t = .int n → limits.readable n = true := by
  cases st with
  | value stack => exact startValue_free h
  | items stack =>
    rw [feed] at h ⊢
    split_ifs at h ⊢ with hclose
    · subst hclose
      exact ⟨h, by simp⟩
    · exact startValue_free h
  | keys stack =>
    refine ⟨h, ?_⟩
    rintro n rfl
    rw [feed, if_neg (by simp)] at h
    cases h
  | key entries stack =>
    refine ⟨h, ?_⟩
    rintro n rfl
    cases h
  | colon entries name stack =>
    refine ⟨h, ?_⟩
    rintro n rfl
    rw [feed, if_neg (by simp)] at h
    cases h
  | after v stack =>
    refine ⟨h, ?_⟩
    rintro n rfl
    obtain _ | ⟨_ | _, stack⟩ := stack <;> cases h

/-- A token that is read without limits is read within them, if they allow it. -/
theorem feed_of_free (h : st.feed .free t = .ok st')
    (hint : ∀ n, t = .int n → limits.readable n = true)
    (hroom : ∀ k < st'.depth, limits.room k = true) : st.feed limits t = .ok st' := by
  cases st with
  | value stack => exact startValue_of_free h hint hroom
  | items stack =>
    rw [feed] at h ⊢
    split_ifs at h ⊢
    · exact h
    · exact startValue_of_free h hint hroom
  | keys stack => exact h
  | key entries stack => exact h
  | colon entries name stack => exact h
  | after v stack => exact h

/-! ## Runs -/

/-- **The scalars read are the scalars of the text.** -/
theorem foldlM_tokens {tokens : List Token} (h : tokens.foldlM (feed limits) st = .ok st') :
    st'.tokens = st.tokens ++ tokens.flatMap Token.scalar ∧ st.depth ≤ st'.depth := by
  induction tokens generalizing st with
  | nil =>
    cases h
    simp
  | cons t tokens ih =>
    obtain ⟨next, hfeed, hrest⟩ := bind_eq_ok.mp h
    obtain ⟨htokens, hdepth⟩ := feed_ok hfeed
    obtain ⟨htokens', hdepth'⟩ := ih hrest
    exact ⟨by rw [htokens', htokens, List.append_assoc, List.flatMap_cons], hdepth.trans hdepth'⟩

/-- Tokens that are read within limits are read without them. -/
theorem foldlM_free {tokens : List Token} (h : tokens.foldlM (feed limits) st = .ok st') :
    tokens.foldlM (feed .free) st = .ok st' ∧
      ∀ n, Token.int n ∈ tokens → limits.readable n = true := by
  induction tokens generalizing st with
  | nil =>
    cases h
    exact ⟨rfl, by simp⟩
  | cons t tokens ih =>
    obtain ⟨next, hfeed, hrest⟩ := bind_eq_ok.mp h
    obtain ⟨hfree, hint⟩ := feed_free hfeed
    obtain ⟨hfree', hint'⟩ := ih hrest
    refine ⟨bind_eq_ok.mpr ⟨next, hfree, hfree'⟩, fun n hn => ?_⟩
    rcases List.mem_cons.mp hn with rfl | hn
    · exact hint n rfl
    · exact hint' n hn

/-- Limits that what is read keeps to make no difference. -/
theorem foldlM_of_free {tokens : List Token} (h : tokens.foldlM (feed .free) st = .ok st')
    (hint : ∀ n, Token.int n ∈ tokens → limits.readable n = true)
    (hroom : ∀ k < st'.depth, limits.room k = true) :
    tokens.foldlM (feed limits) st = .ok st' := by
  induction tokens generalizing st with
  | nil => exact h
  | cons t tokens ih =>
    obtain ⟨next, hfeed, hrest⟩ := bind_eq_ok.mp h
    have hdepth := (foldlM_tokens hrest).2
    refine bind_eq_ok.mpr ⟨next, feed_of_free hfeed ?_ ?_, ih hrest ?_⟩
    · rintro n rfl
      exact hint n List.mem_cons_self
    · exact fun k hk => hroom k (hk.trans_le hdepth)
    · exact fun n hn => hint n (List.mem_cons_of_mem _ hn)

end Reading

end Feed

/-! ## Texts and documents -/

section Read

variable {lone : Nat → Char} {limits : Limits} {text : List Char} {v : Json}

/-- A text is read exactly when it is lexed to its end and its tokens are one value. -/
theorem readJson_eq_ok : readJson lone limits text = .ok v ↔
    (lex lone text).2 = true ∧
      (lex lone text).1.foldlM (Reading.feed limits) (.value []) = .ok (.after v []) := by
  unfold readJson
  rw [bind_eq_ok]
  constructor
  · rintro ⟨reading, hread, h⟩
    split_ifs at h with hcomplete
    have hafter : reading = .after v [] := by
      cases reading with
      | after w stack =>
        cases stack with
        | nil =>
          cases h
          rfl
        | cons f stack => cases h
      | value stack => cases h
      | items stack => cases h
      | keys stack => cases h
      | key entries stack => cases h
      | colon entries name stack => cases h
    exact ⟨hcomplete, hafter ▸ hread⟩
  · rintro ⟨hcomplete, hread⟩
    exact ⟨_, hread, by rw [if_pos hcomplete]; rfl⟩

/-- **The scalars and keys of a document are those of its text**, in order. -/
theorem tokens_of_readJson (h : readJson lone limits text = .ok v) :
    v.tokens = (lex lone text).1.flatMap Token.scalar := by
  have htokens := (Reading.foldlM_tokens (readJson_eq_ok.mp h).2).1
  simpa [Reading.tokens, stackTokens] using htokens

/-- The texts among the tokens are those of the scalars. -/
theorem texts_flatMap_scalar (tokens : List Token) :
    texts (tokens.flatMap Token.scalar) = texts tokens := by
  induction tokens with
  | nil => rfl
  | cons t tokens ih =>
    rw [List.flatMap_cons, texts_append, ih]
    cases t <;> rfl

/-- The texts of a document are those of its text. -/
theorem texts_of_readJson (h : readJson lone limits text = .ok v) :
    texts v.tokens = texts (lex lone text).1 := by
  rw [tokens_of_readJson h, texts_flatMap_scalar]

/-- The numbers among the tokens are those of the scalars. -/
theorem mem_int_flatMap {tokens : List Token} {n : Int} :
    Token.int n ∈ tokens.flatMap Token.scalar ↔ Token.int n ∈ tokens := by
  rw [List.mem_flatMap]
  constructor
  · rintro ⟨t, ht, hn⟩
    cases t <;> simp_all [Token.scalar]
  · exact fun h => ⟨_, h, List.mem_singleton_self _⟩

/-- **What is read within limits** is the document, and its integers are readable. -/
theorem readJson_free (h : readJson lone limits text = .ok v) :
    readJson lone .free text = .ok v ∧ ∀ n, Token.int n ∈ v.tokens → limits.readable n = true := by
  obtain ⟨hcomplete, hread⟩ := readJson_eq_ok.mp h
  obtain ⟨hfree, hint⟩ := Reading.foldlM_free hread
  refine ⟨readJson_eq_ok.mpr ⟨hcomplete, hfree⟩, fun n hn => hint n ?_⟩
  rw [tokens_of_readJson h] at hn
  exact mem_int_flatMap.mp hn

/-- **A document within the limits is read.** -/
theorem readJson_of_free (h : readJson lone .free text = .ok v)
    (hint : ∀ n, Token.int n ∈ v.tokens → limits.readable n = true)
    (hroom : ∀ k < v.depth, limits.room k = true) : readJson lone limits text = .ok v := by
  obtain ⟨hcomplete, hread⟩ := readJson_eq_ok.mp h
  refine readJson_eq_ok.mpr ⟨hcomplete, Reading.foldlM_of_free hread (fun n hn => hint n ?_) ?_⟩
  · rw [tokens_of_readJson h]
    exact mem_int_flatMap.mpr hn
  · simpa [Reading.depth, stackDepth] using hroom

/-- The reader reads tokens. -/
theorem readJson_congr {text' : List Char} (h : lex lone text = lex lone text') :
    readJson lone limits text = readJson lone limits text' := by
  unfold readJson
  rw [h]

end Read

/-! ## Values -/

/-- `entries[key] = v` -/
def assign (entries : List (Scalar × Value)) (key : Scalar) (v : Value) : List (Scalar × Value) :=
  match entries with
  | [] => [(key, v)]
  | e :: rest => if e.1 = key then (key, v) :: rest else e :: assign rest key v

mutual

/-- The value of a document; `readFloat` is `float` of a text. -/
def Json.value (readFloat : String → Floating) : Json → Value
  | .null => .scalar .null
  | .bool b => .scalar (.bool b)
  | .int n => .scalar (.int n)
  | .float text => .scalar (.float (readFloat text))
  | .str s => .scalar (.str s)
  | .arr items => .list (itemValues readFloat items)
  | .obj entries => .map (entryValues readFloat [] entries)

/-- The values of the items. -/
def itemValues (readFloat : String → Floating) : List Json → List Value
  | [] => []
  | v :: items => v.value readFloat :: itemValues readFloat items

/-- A dictionary after its entries have been set in order. -/
def entryValues (readFloat : String → Floating) (dict : List (Scalar × Value)) :
    List (String × Json) → List (Scalar × Value)
  | [] => dict
  | (key, v) :: entries =>
    entryValues readFloat (assign dict (.str key) (v.value readFloat)) entries

end

/-- What `json.loads` depends on. -/
structure JsonRules where
  /-- the character that stands for a surrogate without its partner -/
  lone : Nat → Char
  /-- `float` of a text -/
  readFloat : String → Floating
  /-- how deep containers may nest -/
  depth : Nat

/-- The limits of `json.loads`: an `int` of at most 4300 digits, and so many containers. -/
def JsonRules.limits (rules : JsonRules) : Limits where
  readable := fun n => (Scalar.int n).printable
  room := fun k => decide (k < rules.depth)

/-- `json.loads` of a text. -/
def JsonRules.loads (rules : JsonRules) (text : List Char) : Except JsonError Value :=
  (readJson rules.lone rules.limits text).map (Json.value rules.readFloat)

section Values

variable {readFloat : String → Floating}

/-- The values of the items are those of each. -/
@[simp] theorem itemValues_eq_map (items : List Json) :
    itemValues readFloat items = items.map (Json.value readFloat) := by
  induction items with
  | nil => rfl
  | cons v items ih => simp [itemValues, ih]

/-- An entry is found at the front or behind it. -/
theorem Value.pair?_cons (e : Scalar × Value) (entries : List (Scalar × Value)) (key : Scalar) :
    Value.pair? (e :: entries) key = if e.1.same key then some e.2 else Value.pair? entries key := by
  unfold Value.pair?
  rw [List.find?_cons]
  cases e.1.same key <;> rfl

/-- Only a key itself is the same as it. -/
theorem Scalar.same_str_iff {s : Scalar} {key : String} :
    s.same (.str key) = true ↔ s = .str key := by
  constructor
  · exact Scalar.eq_str_of_same
  · rintro rfl
    simp

/-- The entry of a key after an assignment. -/
theorem pair?_assign (dict : List (Scalar × Value)) (key name : String) (v : Value) :
    Value.pair? (assign dict (.str key) v) (.str name) =
      if key = name then some v else Value.pair? dict (.str name) := by
  induction dict with
  | nil =>
    simp only [assign, Value.pair?_cons, Scalar.same_str, decide_eq_true_eq]
  | cons e dict ih =>
    rw [assign]
    split_ifs with hkey hname hname
    · rw [Value.pair?_cons]
      simp [hname]
    · rw [Value.pair?_cons, Value.pair?_cons, hkey]
      simp [hname]
    · rw [Value.pair?_cons, ih, if_pos hname, if_neg]
      rw [Scalar.same_str_iff, ← hname]
      exact hkey
    · rw [Value.pair?_cons, Value.pair?_cons, ih, if_neg hname]

/-- A key that no entry sets. -/
theorem pair?_entryValues_of_notMem (dict : List (Scalar × Value)) {entries : List (String × Json)}
    {name : String} (h : name ∉ entries.map Prod.fst) :
    Value.pair? (entryValues readFloat dict entries) (.str name) = Value.pair? dict (.str name) := by
  induction entries generalizing dict with
  | nil => rfl
  | cons e entries ih =>
    obtain ⟨key, v⟩ := e
    rw [List.map_cons, List.mem_cons, not_or] at h
    rw [entryValues, ih _ h.2, pair?_assign, if_neg (Ne.symm h.1)]

/-- The entry of a key that is set once. -/
theorem pair?_entryValues (dict : List (Scalar × Value)) {entries : List (String × Json)}
    (hkeys : (entries.map Prod.fst).Nodup) {name : String} {v : Json} (h : (name, v) ∈ entries) :
    Value.pair? (entryValues readFloat dict entries) (.str name) = some (v.value readFloat) := by
  induction entries generalizing dict with
  | nil => cases h
  | cons e entries ih =>
    obtain ⟨key, w⟩ := e
    rw [List.map_cons, List.nodup_cons] at hkeys
    rw [entryValues]
    rcases List.mem_cons.mp h with heq | h
    · cases heq
      rw [pair?_entryValues_of_notMem _ hkeys.1, pair?_assign, if_pos rfl]
    · exact ih _ hkeys.2 h

/-! ### Printing -/

/-- Assigning a printable value keeps the entries printable. -/
theorem printableEntries_assign {dict : List (Scalar × Value)} {key : String} {v : Value}
    (hdict : Value.printableEntries dict = true) (hv : v.printable = true) :
    Value.printableEntries (assign dict (.str key) v) = true := by
  induction dict with
  | nil => simp [assign, Value.printableEntries, Scalar.printable, hv]
  | cons e dict ih =>
    obtain ⟨key', w⟩ := e
    simp only [Value.printableEntries, Bool.and_eq_true] at hdict
    rw [assign]
    split_ifs
    · simp [Value.printableEntries, Scalar.printable, hv, hdict.2]
    · simp [Value.printableEntries, hdict.1, ih hdict.2]

/-- The integers among the tokens are short enough to print. -/
def PrintableInts (tokens : List Token) : Prop :=
  ∀ n, Token.int n ∈ tokens → (Scalar.int n).printable = true

/-- The numbers of two parts are printable exactly when those of each are. -/
theorem PrintableInts.append_iff {xs ys : List Token} :
    PrintableInts (xs ++ ys) ↔ PrintableInts xs ∧ PrintableInts ys := by
  simp only [PrintableInts, List.mem_append, or_imp, forall_and]

mutual

/-- A document whose integers print has a value that does. -/
theorem Json.printable_value (v : Json) (h : PrintableInts v.tokens) :
    (v.value readFloat).printable = true := by
  cases v with
  | null => rfl
  | bool b => rfl
  | int n => exact h n (List.mem_singleton_self _)
  | float text => rfl
  | str s => rfl
  | arr items => exact printable_itemValues items h
  | obj entries => exact printable_entryValues entries h [] rfl

/-- The values of items with printable numbers are printable. -/
theorem printable_itemValues (items : List Json) (h : PrintableInts (itemTokens items)) :
    Value.printableItems (itemValues readFloat items) = true := by
  cases items with
  | nil => rfl
  | cons v items =>
    obtain ⟨hv, hitems⟩ := PrintableInts.append_iff.mp h
    rw [itemValues, Value.printableItems, Json.printable_value v hv,
      printable_itemValues items hitems]
    rfl

/-- The values of entries with printable numbers are printable. -/
theorem printable_entryValues (entries : List (String × Json))
    (h : PrintableInts (entryTokens entries)) (dict : List (Scalar × Value))
    (hdict : Value.printableEntries dict = true) :
    Value.printableEntries (entryValues readFloat dict entries) = true := by
  cases entries with
  | nil => exact hdict
  | cons e entries =>
    obtain ⟨key, v⟩ := e
    have htail : PrintableInts (v.tokens ++ entryTokens entries) :=
      fun n hn => h n (List.mem_cons_of_mem _ hn)
    obtain ⟨hv, hentries⟩ := PrintableInts.append_iff.mp htail
    exact printable_entryValues entries hentries _
      (printableEntries_assign hdict (Json.printable_value v hv))

end

/-- **What `json.loads` returns prints.** -/
theorem JsonRules.printable_of_loads {rules : JsonRules} {text : List Char} {v : Value}
    (h : rules.loads text = .ok v) : v.printable = true := by
  unfold JsonRules.loads at h
  cases hread : readJson rules.lone rules.limits text with
  | error e =>
    rw [hread] at h
    cases h
  | ok document =>
    rw [hread] at h
    cases h
    exact Json.printable_value document (readJson_free hread).2

end Values

end PrReviewer.Library
