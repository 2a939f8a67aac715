import PrReviewer.Analysis.TextSearch
import PrReviewer.Model.Trigger

/-!
# The model of a command

`parse_command` checks the flags of a body with one pattern and reads the alias with another. The
flags are scanned here with what follows each of them (`flagSpots`); in a body whose flags are all
`--model`, the alias is read at the first flag that has one (`modelOf_eq`), so an override gets
lost or invented where a flag has none, or is followed by the next flag.
-/

set_option autoImplicit false

namespace PrReviewer.Model

/-- A flag starts the text. -/
def StartsFlag (u : Unicode) (text : List Char) : Prop :=
  ∃ rest, text = '-' :: '-' :: rest ∧ flagName u rest ≠ []

/-- The flags of a body, each with the text after it; the number counts the characters of a flag
still to be passed. -/
def flagSpots (u : Unicode) : Nat → List Char → List (List Char × List Char)
  | _, [] => []
  | n + 1, _ :: cs => flagSpots u n cs
  | 0, c :: cs =>
    match c, cs with
    | '-', '-' :: rest =>
      let name := flagName u rest
      if name.isEmpty then flagSpots u 0 cs
      else ('-' :: '-' :: name, rest.drop name.length) :: flagSpots u (name.length + 1) cs
    | _, _ => flagSpots u 0 cs

/-- The alias written after a flag: the next word. -/
def aliasAfter (rest : List Char) : Option (List Char) :=
  let value := rest.dropWhile isSpace
  if rest.head?.any isSpace && !value.isEmpty then some (value.takeWhile fun c => !isSpace c)
  else none

section Scan

variable {u : Unicode}

/-- The flags are the names of their spots. -/
theorem flags_eq_map (n : Nat) (text : List Char) :
    flags u n text = (flagSpots u n text).map Prod.fst := by
  induction text generalizing n with
  | nil => cases n <;> rfl
  | cons c cs ih =>
    cases n with
    | succ n => exact ih n
    | zero =>
      by_cases hdash : ∃ rest, c = '-' ∧ cs = '-' :: rest
      · obtain ⟨rest, rfl, rfl⟩ := hdash
        rw [flags, flagSpots]
        by_cases hname : (flagName u rest).isEmpty = true
        · simp only [if_pos hname]
          exact ih 0
        · simp only [if_neg hname, List.map_cons]
          rw [ih]
      · have hno : ∀ rest, c = '-' → cs = '-' :: rest → False :=
          fun rest hc hcs => hdash ⟨rest, hc, hcs⟩
        rw [flags, flagSpots]
        · exact ih 0
        · exact hno
        · exact hno

/-- Skipping characters is starting behind them. -/
theorem flagSpots_eq_drop (n : Nat) (text : List Char) :
    flagSpots u n text = flagSpots u 0 (text.drop n) := by
  induction text generalizing n with
  | nil => cases n <;> rfl
  | cons c text ih =>
    cases n with
    | zero => rfl
    | succ n =>
      rw [flagSpots, ih]
      rfl

/-- A flag's name is a spot, and the search goes on behind it. -/
theorem flagSpots_flag {rest : List Char} (h : flagName u rest ≠ []) :
    flagSpots u 0 ('-' :: '-' :: rest) =
      ('-' :: '-' :: flagName u rest, rest.drop (flagName u rest).length) ::
        flagSpots u 0 (rest.drop (flagName u rest).length) := by
  rw [flagSpots]
  simp only [List.isEmpty_iff, if_neg h]
  rw [flagSpots_eq_drop]
  rfl

/-- A character that starts no flag is no spot. -/
theorem flagSpots_skip {c : Char} {cs : List Char} (h : ¬ StartsFlag u (c :: cs)) :
    flagSpots u 0 (c :: cs) = flagSpots u 0 cs := by
  rw [flagSpots.eq_def]
  simp only []
  split
  · rename_i rest
    simp only [List.isEmpty_iff]
    split
    · rfl
    · rename_i hname
      exact absurd ⟨rest, rfl, hname⟩ h
  · rfl

/-- **Induction along the flags of a text.** -/
theorem flagSpots_induction {motive : List Char → Prop} (hnil : motive [])
    (hflag : ∀ rest, flagName u rest ≠ [] → motive (rest.drop (flagName u rest).length) →
      motive ('-' :: '-' :: rest))
    (hskip : ∀ c cs, ¬ StartsFlag u (c :: cs) → motive cs → motive (c :: cs)) (text : List Char) :
    motive text := by
  induction hn : text.length using Nat.strong_induction_on generalizing text with
  | h n ih =>
    cases text with
    | nil => exact hnil
    | cons c cs =>
      by_cases h : StartsFlag u (c :: cs)
      · obtain ⟨rest, htext, hname⟩ := h
        rw [htext] at hn ⊢
        simp only [List.length_cons] at hn
        exact hflag rest hname (ih _ (by rw [List.length_drop]; omega) _ rfl)
      · exact hskip c cs h (ih cs.length (by rw [← hn, List.length_cons]; omega) cs rfl)

/-! ## The alias -/

/-- The alias stands behind the model flag. -/
theorem modelHere_eq (text : List Char) :
    modelHere text = (afterIgnoreCase "--model".toList text).bind aliasAfter := by
  unfold modelHere
  cases afterIgnoreCase "--model".toList text <;> rfl

/-- The text `--model`, in any letter case, starts a flag. -/
theorem startsFlag_of_model {text rest : List Char}
    (h : afterIgnoreCase "--model".toList text = some rest) : StartsFlag u text := by
  obtain ⟨found, htext, hall⟩ := afterIgnoreCase_eq_some.mp h
  have hmodel : "--model".toList = ['-', '-', 'm', 'o', 'd', 'e', 'l'] := by decide +kernel
  rw [hmodel] at hall
  cases hall with
  | @cons _ c₁ _ l₁ h₁ hall =>
  cases hall with
  | @cons _ c₂ _ l₂ h₂ hall =>
  cases hall with
  | @cons _ c₃ _ l₃ h₃ hall =>
    have hd₁ := eq_of_eqIgnoreCase (by decide) (by decide) h₁
    have hd₂ := eq_of_eqIgnoreCase (by decide) (by decide) h₂
    have hword : u.isWord c₃ = true := by
      apply isWord_of_ascii
      left
      rcases eqIgnoreCase_cases (by decide) h₃ with rfl | ⟨-, -, hm⟩
      · decide
      · have hM : c₃ = 'M' := by
          apply Char.toNat_inj.mp
          have hval : ('m' : Char).toNat = 109 := rfl
          have hval' : ('M' : Char).toNat = 77 := rfl
          omega
        rw [hM]
        decide
    refine ⟨c₃ :: l₃ ++ rest, by rw [htext, hd₁, hd₂]; rfl, ?_⟩
    simp [flagName, hword]

/-- A character that starts no flag is skipped. -/
theorem modelOf_skip {c : Char} {cs : List Char} (h : ¬ StartsFlag u (c :: cs)) :
    modelOf (c :: cs) = modelOf cs := by
  have hnone : modelHere (c :: cs) = none := by
    rw [modelHere_eq]
    cases hafter : afterIgnoreCase "--model".toList (c :: cs) with
    | none => rfl
    | some rest => exact absurd (startsFlag_of_model hafter) h
  rw [modelOf, hnone, Option.none_or]

/-- Inside `--model` no other occurrence starts. -/
theorem modelOf_model (rest : List Char) :
    modelOf ("--model".toList ++ rest) = (aliasAfter rest).or (modelOf rest) := by
  have hhere : modelHere ("--model".toList ++ rest) = aliasAfter rest := by
    rw [modelHere_eq, afterIgnoreCase_append, Option.bind_some]
  have hmodel : "--model".toList = ['-', '-', 'm', 'o', 'd', 'e', 'l'] := by decide +kernel
  rw [hmodel] at hhere ⊢
  simp only [List.cons_append, List.nil_append] at hhere ⊢
  rw [modelOf, hhere]
  -- the pattern does not start at any of the characters that follow
  rfl

/-- **The alias of a body** whose flags are all `--model`: that of the first flag that has one. -/
theorem modelOf_eq (text : List Char) (h : ∀ f ∈ flags u 0 text, f = "--model".toList) :
    modelOf text = (flagSpots u 0 text).findSome? fun s => aliasAfter s.2 := by
  rw [flags_eq_map] at h
  induction text using flagSpots_induction (u := u) with
  | hnil => rfl
  | hflag rest hname ih =>
    rw [flagSpots_flag hname] at h ⊢
    rw [List.map_cons, List.forall_mem_cons] at h
    have hsplit : '-' :: '-' :: rest =
        "--model".toList ++ rest.drop (flagName u rest).length := by
      have hname : flagName u rest ++ rest.drop (flagName u rest).length = rest :=
        List.prefix_iff_eq_append.mp (List.takeWhile_prefix _)
      rw [← h.1, List.cons_append, List.cons_append, hname]
    rw [hsplit, modelOf_model, ih h.2, List.findSome?_cons]
    cases aliasAfter (rest.drop (flagName u rest).length) <;> rfl
  | hskip c cs hno ih =>
    rw [flagSpots_skip hno] at h ⊢
    rw [modelOf_skip hno]
    exact ih h

end Scan

/-! ## Overrides -/

/-- The flag is `--model`, in any letter case. -/
def isModelFlag (f : List Char) : Bool :=
  f.map Char.toLower == "--model".toList

/-- The `--model` flags of a body, each with the text after it. -/
def modelFlags (u : Unicode) (body : String) : List (List Char × List Char) :=
  (flagSpots u 0 body.toList).filter fun s => isModelFlag s.1

/-- The flag has an alias, which is not the next flag. -/
def NamesAlias (spot : List Char × List Char) (name : List Char) : Prop :=
  aliasAfter spot.2 = some name ∧ ¬ "--".toList <+: name

/-- What an override is to be: the alias written with the flag, and none without a flag; a flag
without an alias, or in another spelling, is refused. -/
structure KeepsOverride (u : Unicode) (body : String) : Prop where
  absent : ∀ c, parseCommand u body = .command c → (c.model = none ↔ modelFlags u body = [])
  written : ∀ c spot, parseCommand u body = .command c →
    (modelFlags u body).head? = some spot →
      ∃ name, NamesAlias spot name ∧ c.model = some (String.ofList name)
  refused : hasToken u none body.toList = true → ∀ spot ∈ modelFlags u body,
    (spot.1 ≠ "--model".toList ∨ ∀ name, ¬ NamesAlias spot name) →
      parseCommand u body = .syntaxError

/-- A body with a token whose flags are all `--model` has an alias after each of them. -/
def AliasesNamed (u : Unicode) (body : String) : Prop :=
  hasToken u none body.toList = true → (∀ f ∈ flags u 0 body.toList, f = "--model".toList) →
    ∀ spot ∈ flagSpots u 0 body.toList, ∃ name, NamesAlias spot name

section Parse

variable {u : Unicode} {body : String}

/-- A body without a token is no command. -/
theorem parseCommand_no_token (h : hasToken u none body.toList = false) :
    parseCommand u body = .none := by
  simp [parseCommand, h]

/-- A body with a token and another flag is malformed. -/
theorem parseCommand_bad_flag {f : List Char} (h : hasToken u none body.toList = true)
    (hf : f ∈ flags u 0 body.toList) (hbad : f ≠ "--model".toList) :
    parseCommand u body = .syntaxError := by
  have hany : ((flags u 0 body.toList).any fun f => f != "--model".toList) = true :=
    List.any_eq_true.mpr ⟨f, hf, by simpa using hbad⟩
  unfold parseCommand
  rw [if_neg (by simp [h]), if_pos hany]

/-- A body with a token and only model flags is a review command. -/
theorem parseCommand_plain (h : hasToken u none body.toList = true)
    (hflags : ∀ f ∈ flags u 0 body.toList, f = "--model".toList) :
    parseCommand u body =
      .command { kind := "review", model := (modelOf body.toList).map String.ofList } := by
  have hany : ¬ ((flags u 0 body.toList).any fun f => f != "--model".toList) = true := by
    rw [List.any_eq_true]
    rintro ⟨f, hf, hne⟩
    rw [bne_iff_ne] at hne
    exact hne (hflags f hf)
  unfold parseCommand
  rw [if_neg (by simp [h]), if_neg hany]

/-- Where only model flags stand, every spot is one. -/
theorem modelFlags_plain (hflags : ∀ f ∈ flags u 0 body.toList, f = "--model".toList) :
    modelFlags u body = flagSpots u 0 body.toList := by
  apply List.filter_eq_self.mpr
  intro spot hspot
  have hf : spot.1 = "--model".toList := by
    apply hflags
    rw [flags_eq_map]
    exact List.mem_map_of_mem hspot
  rw [hf]
  decide +kernel

/-- A body that is parsed into a command. -/
theorem plain_of_command {c : Command} (h : parseCommand u body = .command c) :
    hasToken u none body.toList = true ∧ ∀ f ∈ flags u 0 body.toList, f = "--model".toList := by
  cases htoken : hasToken u none body.toList with
  | false =>
    rw [parseCommand_no_token htoken] at h
    cases h
  | true =>
    refine ⟨rfl, fun f hf => ?_⟩
    by_contra hbad
    rw [parseCommand_bad_flag htoken hf hbad] at h
    cases h

/-- The flags of a command whose aliases are all there, and its model. -/
theorem model_of_command {c : Command} (h : AliasesNamed u body)
    (hc : parseCommand u body = .command c) :
    modelFlags u body = flagSpots u 0 body.toList ∧
      (∀ spot ∈ flagSpots u 0 body.toList, ∃ name, NamesAlias spot name) ∧
      c.model = ((flagSpots u 0 body.toList).findSome? fun s => aliasAfter s.2).map
        String.ofList := by
  obtain ⟨htoken, hflags⟩ := plain_of_command hc
  rw [parseCommand_plain htoken hflags, modelOf_eq body.toList hflags] at hc
  cases hc
  exact ⟨modelFlags_plain hflags, h htoken hflags, rfl⟩

/-- The model of such a command is the alias of its first flag. -/
theorem model_of_first {c : Command} {spot : List Char × List Char} (h : AliasesNamed u body)
    (hc : parseCommand u body = .command c) (hspot : (modelFlags u body).head? = some spot) :
    ∃ name, NamesAlias spot name ∧ c.model = some (String.ofList name) := by
  obtain ⟨hspots, hnamed, hmodel⟩ := model_of_command h hc
  rw [hspots] at hspot
  obtain ⟨spots, hcons⟩ := List.head?_eq_some_iff.mp hspot
  rw [hcons] at hnamed hmodel
  obtain ⟨name, halias⟩ := hnamed spot List.mem_cons_self
  refine ⟨name, halias, ?_⟩
  rw [hmodel, List.findSome?_cons, halias.1]
  rfl

/-- A flag without an alias, or in another spelling, is refused where the others have theirs. -/
theorem refused_of_named {spot : List Char × List Char} (h : AliasesNamed u body)
    (htoken : hasToken u none body.toList = true) (hspot : spot ∈ modelFlags u body)
    (hbad : spot.1 ≠ "--model".toList ∨ ∀ name, ¬ NamesAlias spot name) :
    parseCommand u body = .syntaxError := by
  have hmem : spot ∈ flagSpots u 0 body.toList := (List.mem_filter.mp hspot).1
  by_contra hparse
  have hflags : ∀ f ∈ flags u 0 body.toList, f = "--model".toList := by
    intro f hf
    by_contra hne
    exact hparse (parseCommand_bad_flag htoken hf hne)
  rcases hbad with hname | hnone
  · exact hname (hflags spot.1 (by rw [flags_eq_map]; exact List.mem_map_of_mem hmem))
  · obtain ⟨name, halias⟩ := h htoken hflags spot hmem
    exact hnone name halias

end Parse

/-- **No override is lost or invented** exactly if every flag of a body that is taken for a command
has an alias. -/
theorem keepsOverride_iff (u : Unicode) (body : String) :
    KeepsOverride u body ↔ AliasesNamed u body := by
  constructor
  · intro h htoken hflags spot hspot
    by_contra hno
    have hbad := h.refused htoken spot (modelFlags_plain hflags ▸ hspot)
      (Or.inr fun name halias => hno ⟨name, halias⟩)
    rw [parseCommand_plain htoken hflags] at hbad
    cases hbad
  · intro h
    refine ⟨fun c hc => ⟨?_, ?_⟩, fun c spot hc hspot => model_of_first h hc hspot,
      fun htoken spot hspot hbad => refused_of_named h htoken hspot hbad⟩
    · intro hnone
      cases hflags : modelFlags u body with
      | nil => rfl
      | cons spot spots =>
        obtain ⟨name, -, hmodel⟩ := model_of_first h hc (by rw [hflags]; rfl)
        rw [hnone] at hmodel
        cases hmodel
    · intro hnil
      obtain ⟨hspots, -, hmodel⟩ := model_of_command h hc
      rw [hmodel, ← hspots, hnil]
      rfl

/-- An override at the end of the body is lost, and one without an alias takes the next flag for
it. -/
theorem overrides_lost :
    parseCommand .ascii "@review --model" = .command { kind := "review" } ∧
      parseCommand .ascii "@review --model=go" = .command { kind := "review" } ∧
      parseCommand .ascii "@review --model --model go" =
        .command { kind := "review", model := some "--model" } ∧
      ¬ KeepsOverride .ascii "@review --model" ∧ ¬ KeepsOverride .ascii "@review --model=go" ∧
      ¬ KeepsOverride .ascii "@review --model --model go" := by
  have hend : parseCommand .ascii "@review --model" = .command { kind := "review" } := by
    decide +kernel
  have heq : parseCommand .ascii "@review --model=go" = .command { kind := "review" } := by
    decide +kernel
  have hnext : parseCommand .ascii "@review --model --model go" =
      .command { kind := "review", model := some "--model" } := by
    decide +kernel
  refine ⟨hend, heq, hnext, ?_, ?_, ?_⟩
  · intro h
    have hflags := (h.absent _ hend).mp rfl
    exact absurd hflags (by decide +kernel)
  · intro h
    have hflags := (h.absent _ heq).mp rfl
    exact absurd hflags (by decide +kernel)
  · intro h
    obtain ⟨name, ⟨halias, hno⟩, -⟩ := h.written _
      ("--model".toList, " --model go".toList) hnext (by decide +kernel)
    have hnamed : aliasAfter " --model go".toList = some "--model".toList := by decide +kernel
    rw [hnamed] at halias
    cases halias
    exact hno (by decide +kernel)

end PrReviewer.Model
