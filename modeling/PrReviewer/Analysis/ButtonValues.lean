import PrReviewer.Analysis.TextSearch
import PrReviewer.Model.SlackEvents

/-!
# The values of the Slack buttons

A button's value is a tag before the names or the run it is about. The decoder takes the tag out
wherever it occurs, so the names and the run come back exactly if the tag does not occur in them.
-/

set_option autoImplicit false

namespace PrReviewer.Model

open Library

/-- The mark a selection's value starts with. -/
def selectTag : List Char :=
  "select_repo_".toList

/-- The mark an approval's value starts with. -/
def approveTag : List Char :=
  "approve_".toList

/-- The mark of a selection is not empty. -/
theorem selectTag_ne_nil : selectTag ≠ [] := by
  decide +kernel

/-- The mark of an approval is not empty. -/
theorem approveTag_ne_nil : approveTag ≠ [] := by
  decide +kernel

/-- The text of a choice after its tag. -/
def choiceText (owner repo : String) (pr : Nat) : List Char :=
  owner.toList ++ '/' :: (repo.toList ++ '_' :: Nat.toDigits 10 pr)

/-- The characters of a value built from its parts. -/
theorem toList_choice (tag owner repo number : String) :
    (tag ++ owner ++ "/" ++ repo ++ "_" ++ number).toList =
      tag.toList ++ (owner.toList ++ '/' :: (repo.toList ++ '_' :: number.toList)) := by
  have hslash : "/".toList = ['/'] := rfl
  have hunder : "_".toList = ['_'] := rfl
  simp only [String.toList_append, hslash, hunder, List.append_assoc, List.cons_append,
    List.nil_append]

/-- A selection's value is its mark and its choice. -/
theorem selectValue_toList {owner repo value : String} {pr : Nat}
    (h : selectValue owner repo pr = some value) :
    value.toList = selectTag ++ choiceText owner repo pr := by
  by_cases hlen : (Nat.toDigits 10 pr).length ≤ 4300
  · rw [selectValue, if_pos hlen, Option.some.injEq] at h
    rw [← h, toList_choice, Nat.toString_eq_repr, Nat.toList_repr]
    rfl
  · rw [selectValue, if_neg hlen] at h
    cases h

/-! ## `rsplit` -/

/-- The last underscore parts a text. -/
theorem exists_last_underscore {l : List Char} (h : '_' ∈ l) : ∃ a b, l = a ++ '_' :: b ∧ '_' ∉ b := by
  obtain ⟨b, a, hl, hb⟩ := List.eq_append_cons_of_mem (List.mem_reverse.mpr h)
  refine ⟨a.reverse, b.reverse, ?_, fun hmem => hb (List.mem_reverse.mp hmem)⟩
  have hrev := congrArg List.reverse hl
  rw [List.reverse_reverse, List.reverse_append, List.reverse_cons] at hrev
  rw [hrev, List.append_assoc, List.singleton_append]

/-- The last part after an underscore is found again. -/
theorem rsplit_number {a b : List Char} (hb : '_' ∉ b) :
    ((a ++ '_' :: b).reverse.takeWhile (· != '_')).reverse = b := by
  have hall : ∀ c ∈ b.reverse, (c != '_') = true := by
    intro c hc
    have hne : c ≠ '_' := fun h => hb (h ▸ List.mem_reverse.mp hc)
    simpa using hne
  rw [List.reverse_append, List.reverse_cons, List.append_assoc, List.takeWhile_append_of_pos hall]
  simp

/-- What stands before the last underscore is found again. -/
theorem rsplit_repo (a b : List Char) :
    (a ++ '_' :: b).take ((a ++ '_' :: b).length - b.length - 1) = a := by
  have hlen : (a ++ '_' :: b).length - b.length - 1 = a.length := by
    rw [List.length_append, List.length_cons]
    omega
  rw [hlen, List.take_left]

section Select

variable {t : TriggerDecisionEngine} {value : String} {x a b : List Char}

/-- What a choice means, by the parts of its text. -/
theorem slackButton_select (hvalue : value.toList = selectTag ++ x)
    (hrest : removeAll selectTag x = a ++ '_' :: b) (hb : '_' ∉ b) :
    t.slackButton value =
      match pyInt t.unicode b with
      | none => .nothing
      | some pr =>
        .dispatch (t.slackCommand
          (if '/' ∈ a then String.ofList (a.takeWhile (· != '/')) else t.selfAccount)
          (if '/' ∈ a then String.ofList ((a.dropWhile (· != '/')).drop 1) else String.ofList a)
          pr ("review #" ++ toString pr)) := by
  have htag : "select_repo_".toList.isPrefixOf value.toList = true := by
    rw [List.isPrefixOf_iff_prefix, hvalue]
    exact List.prefix_append selectTag x
  have hremove : removeAll "select_repo_".toList value.toList = a ++ '_' :: b := by
    rw [hvalue, ← hrest]
    exact removeAll_self_append selectTag_ne_nil x
  unfold TriggerDecisionEngine.slackButton
  simp only [htag, if_true, hremove, rsplit_number hb, rsplit_repo]
  refine (if_neg (by simp)).trans ?_
  cases pyInt t.unicode b <;> rfl

/-- A choice without an underscore means nothing. -/
theorem slackButton_no_number (hvalue : value.toList = selectTag ++ x)
    (hrest : '_' ∉ removeAll selectTag x) : t.slackButton value = .nothing := by
  have htag : "select_repo_".toList.isPrefixOf value.toList = true := by
    rw [List.isPrefixOf_iff_prefix, hvalue]
    exact List.prefix_append selectTag x
  have hremove : removeAll "select_repo_".toList value.toList = removeAll selectTag x := by
    rw [hvalue]
    exact removeAll_self_append selectTag_ne_nil x
  unfold TriggerDecisionEngine.slackButton
  simp only [htag, if_true, hremove]
  rw [if_pos hrest]

end Select

/-! ## Choices -/

/-- The names of a choice, with the underscore that follows them. -/
def choiceNames (owner repo : String) : List Char :=
  owner.toList ++ '/' :: (repo.toList ++ ['_'])

/-- A choice is its names and the digits of its number. -/
theorem choiceText_eq (owner repo : String) (pr : Nat) :
    choiceText owner repo pr = choiceNames owner repo ++ Nat.toDigits 10 pr := by
  simp [choiceText, choiceNames]

/-- The mark of a selection has no digit. -/
theorem notMem_selectTag_of_digit {c : Char} (h : c.isDigit = true) : c ∉ selectTag := by
  have hall : selectTag.all (fun d => !d.isDigit) = true := by decide +kernel
  intro hc
  have hno := List.all_eq_true.mp hall c hc
  simp [h] at hno

/-- The tag is taken out of the names; the number stays. -/
theorem removeAll_choiceText (owner repo : String) (pr : Nat) :
    removeAll selectTag (choiceText owner repo pr) =
      removeAll selectTag (choiceNames owner repo) ++ Nat.toDigits 10 pr := by
  rw [choiceText_eq]
  exact removeAll_append selectTag_ne_nil
    (fun c hc => notMem_selectTag_of_digit (isDigit_toDigits c hc)) _

/-- What follows the last underscore holds all that has none at the end. -/
theorem length_le_of_rsplit {z d a b : List Char} (h : z ++ d = a ++ '_' :: b) (hd : '_' ∉ d) :
    d.length ≤ b.length := by
  rcases List.append_eq_append_iff.mp h with ⟨c, -, hc⟩ | ⟨c, -, hc⟩
  · exact absurd (by rw [hc]; simp) hd
  · cases c with
    | nil => exact absurd (by rw [← List.nil_append d, ← hc]; simp) hd
    | cons e c =>
      have hb : b = c ++ d := (List.cons.inj hc).2
      rw [hb, List.length_append]
      omega

/-- The first slash parts the owner from the repository. -/
theorem eq_of_split_slash {a : List Char} (h : '/' ∈ a) :
    a = a.takeWhile (· != '/') ++ '/' :: (a.dropWhile (· != '/')).drop 1 := by
  have hdrop : a.dropWhile (· != '/') = '/' :: (a.dropWhile (· != '/')).drop 1 := by
    cases hd : a.dropWhile (· != '/') with
    | nil =>
      rw [List.dropWhile_eq_nil_iff] at hd
      exact absurd (hd '/' h) (by simp)
    | cons c rest =>
      have hc := @List.head_dropWhile_not _ (· != '/') a (by simp [hd])
      simp only [hd, List.head_cons, bne_eq_false_iff_eq] at hc
      simp [hc]
  exact (List.takeWhile_append_dropWhile (p := (· != '/'))).symm.trans
    (congrArg (a.takeWhile (· != '/') ++ ·) hdrop)

/-- Splitting at the first slash gives owner and repository back. -/
theorem split_slash {o r : List Char} (ho : '/' ∉ o) :
    (o ++ '/' :: r).takeWhile (· != '/') = o ∧
      ((o ++ '/' :: r).dropWhile (· != '/')).drop 1 = r := by
  have hall : ∀ c ∈ o, (c != '/') = true := by
    intro c hc
    have hne : c ≠ '/' := fun h => ho (h ▸ hc)
    simpa using hne
  rw [List.takeWhile_append_of_pos hall, List.dropWhile_append_of_pos hall]
  simp

/-- A choice is read as it was written. -/
def ChoiceReturns (t : TriggerDecisionEngine) (owner repo : String) (pr : Nat) : Prop :=
  ∀ value, selectValue owner repo pr = some value →
    t.slackButton value =
      .dispatch (t.slackCommand owner repo pr ("review #" ++ toString (pr : Int)))

variable {t : TriggerDecisionEngine} {owner repo : String} {pr : Nat}

/-- A selection has a value exactly when its number is short enough for `str`. -/
theorem selectValue_eq_some_iff :
    (∃ value, selectValue owner repo pr = some value) ↔ (Nat.toDigits 10 pr).length ≤ 4300 := by
  unfold selectValue
  by_cases h : (Nat.toDigits 10 pr).length ≤ 4300
  · rw [if_pos h]
    exact iff_of_true ⟨_, rfl⟩ h
  · rw [if_neg h]
    exact iff_of_false (by simp) h

/-- A choice whose names do not contain the mark comes back. -/
theorem choiceReturns_of_absent (howner : '/' ∉ owner.toList)
    (h : ¬ selectTag <:+: choiceNames owner repo) : ChoiceReturns t owner repo pr := by
  intro value hvalue
  have hlen := selectValue_eq_some_iff.mp ⟨value, hvalue⟩
  have hrest : removeAll selectTag (choiceText owner repo pr) =
      (owner.toList ++ '/' :: repo.toList) ++ '_' :: Nat.toDigits 10 pr := by
    rw [removeAll_choiceText, removeAll_of_absent h, choiceNames]
    simp
  obtain ⟨hfirst, hsecond⟩ := @split_slash owner.toList repo.toList howner
  have hslash : '/' ∈ owner.toList ++ '/' :: repo.toList := by simp
  rw [slackButton_select (selectValue_toList hvalue) hrest Nat.underscore_not_in_toDigits,
    pyInt_toDigits, if_pos hlen]
  simp only [if_pos hslash, hfirst, hsecond, String.ofList_toList]

/-- A choice whose names contain the mark does not come back. -/
theorem not_choiceReturns (h : selectTag <:+: choiceNames owner repo)
    (hlen : (Nat.toDigits 10 pr).length ≤ 4300) : ¬ ChoiceReturns t owner repo pr := by
  intro hreturns
  obtain ⟨value, hvalue⟩ := (@selectValue_eq_some_iff owner repo pr).mpr hlen
  have hdecoded := hreturns value hvalue
  by_cases hunder : '_' ∈ removeAll selectTag (choiceText owner repo pr)
  · obtain ⟨a, b, hrest, hb⟩ := exists_last_underscore hunder
    rw [slackButton_select (selectValue_toList hvalue) hrest hb] at hdecoded
    cases hp : pyInt t.unicode b with
    | none =>
      rw [hp] at hdecoded
      cases hdecoded
    | some p =>
      rw [hp] at hdecoded
      have hnob : '/' ∉ b :=
        notMem_of_pyInt hp (by decide) (by simp [Unicode.digitVal, isAscii]) (by decide)
      have htag : '/' ∉ selectTag := by decide +kernel
      have hslash : '/' ∈ a := by
        have hmem : '/' ∈ removeAll selectTag (choiceText owner repo pr) :=
          (mem_removeAll selectTag_ne_nil htag _).mpr (by simp [choiceText])
        rw [hrest, List.mem_append, List.mem_cons] at hmem
        rcases hmem with h | h | h
        · exact h
        · cases h
        · exact absurd h hnob
      simp only [if_pos hslash, SlackRequest.dispatch.injEq,
        TriggerDecisionEngine.slackCommand, NormalizedEvent.mk.injEq, true_and] at hdecoded
      -- the names are as long as they were, so the number has got shorter, but it has not
      have ho := congrArg (fun s => s.toList.length) hdecoded.1
      have hr := congrArg (fun s => s.toList.length) hdecoded.2.1
      have ha := congrArg List.length (eq_of_split_slash hslash)
      have hz := length_removeAll_lt selectTag_ne_nil h
      rw [removeAll_choiceText] at hrest
      have hd := length_le_of_rsplit hrest Nat.underscore_not_in_toDigits
      have hlength := congrArg List.length hrest
      simp only [String.toList_ofList] at ho hr
      simp only [List.length_append, List.length_cons] at ha hlength
      have hnames : (choiceNames owner repo).length =
          owner.toList.length + repo.toList.length + 2 := by
        simp [choiceNames]
        omega
      omega
  · rw [slackButton_no_number (selectValue_toList hvalue) hunder] at hdecoded
    cases hdecoded

/-! ## Approvals -/

/-- What a pressed approval button asks for. -/
theorem slackButton_approve (t : TriggerDecisionEngine) (run : RunId) :
    t.slackButton (approveValue run) =
      .approve (String.ofList (removeAll approveTag run.toList))
        { owner := t.selfAccount, repo := "", pr := some 1, head := some "",
          runId := String.ofList (removeAll approveTag run.toList) }
        "Approved via Slack Button" := by
  have hvalue : (approveValue run).toList = approveTag ++ run.toList := String.toList_append
  have hselect : ¬ "select_repo_".toList.isPrefixOf (approveValue run).toList = true := by
    have hhead : (approveTag ++ run.toList).head? = some 'a' := by
      rw [List.head?_append_of_ne_nil _ approveTag_ne_nil]
      decide +kernel
    intro h
    rw [List.isPrefixOf_iff_prefix, hvalue] at h
    obtain ⟨rest, hrest⟩ := h
    change selectTag ++ rest = _ at hrest
    have hs : (selectTag ++ rest).head? = some 's' := by
      rw [List.head?_append_of_ne_nil _ selectTag_ne_nil]
      decide +kernel
    rw [hrest, hhead] at hs
    cases hs
  have happrove : "approve_".toList.isPrefixOf (approveValue run).toList = true := by
    rw [List.isPrefixOf_iff_prefix, hvalue]
    exact List.prefix_append approveTag run.toList
  have hremove : removeAll "approve_".toList (approveValue run).toList =
      removeAll approveTag run.toList := by
    rw [hvalue]
    exact removeAll_self_append approveTag_ne_nil run.toList
  unfold TriggerDecisionEngine.slackButton
  simp only [hremove]
  rw [if_neg hselect, if_pos happrove]

/-- The approval of a run is read as the approval of this run. -/
def ApprovalReturns (t : TriggerDecisionEngine) (run : RunId) : Prop :=
  ∃ otherwise summary, t.slackButton (approveValue run) = .approve run otherwise summary

/-- An approval comes back exactly when its run id does not contain the mark. -/
theorem approvalReturns_iff {run : RunId} :
    ApprovalReturns t run ↔ ¬ approveTag <:+: run.toList := by
  unfold ApprovalReturns
  rw [slackButton_approve]
  constructor
  · rintro ⟨otherwise, summary, h⟩ hocc
    have hrun := congrArg (fun s => s.toList.length) (SlackRequest.approve.inj h).1
    have hlt := length_removeAll_lt approveTag_ne_nil hocc
    simp only [String.toList_ofList] at hrun
    omega
  · intro h
    rw [removeAll_of_absent h, String.ofList_toList]
    exact ⟨_, _, rfl⟩

/-- **A button's value is read as it was written** exactly if its tag does not occur in the names
with the underscore after them, or in the run. A number that is too long has no button. -/
theorem button_values_return_iff (t : TriggerDecisionEngine) (owner repo : String) (pr : Nat)
    (run : RunId) (howner : '/' ∉ owner.toList) :
    (ChoiceReturns t owner repo pr ↔
      ((Nat.toDigits 10 pr).length ≤ 4300 → ¬ selectTag <:+: choiceNames owner repo)) ∧
    (ApprovalReturns t run ↔ ¬ approveTag <:+: run.toList) := by
  refine ⟨⟨?_, ?_⟩, approvalReturns_iff⟩
  · exact fun hreturns hlen hocc => not_choiceReturns hocc hlen hreturns
  · intro h
    by_cases hlen : (Nat.toDigits 10 pr).length ≤ 4300
    · exact choiceReturns_of_absent howner (h hlen)
    · intro value hvalue
      exact absurd (selectValue_eq_some_iff.mp ⟨value, hvalue⟩) hlen

/-- The account of `me`, without repositories. -/
def bareTrigger : TriggerDecisionEngine :=
  ⟨.ascii, { repoConfig := [], providers := ["free"] }, "me"⟩

/-- An ordinary choice and an ordinary approval both come back. -/
theorem button_values_return_iff_app :
    ChoiceReturns bareTrigger "me" "app" 7 ∧ ApprovalReturns bareTrigger "4f2a" := by
  have happ : ¬ selectTag <:+: choiceNames "me" "app" := by
    rw [← hasText_iff]
    decide +kernel
  have hrun : ¬ approveTag <:+: "4f2a".toList := by
    rw [← hasText_iff]
    decide +kernel
  have h := button_values_return_iff bareTrigger "me" "app" 7 "4f2a" (by decide +kernel)
  exact ⟨h.1.mpr fun _ => happ, h.2.mpr hrun⟩

/-- The repository `me/select_repo` comes back as one without a number, and the run
`approve_1` as `1`. -/
theorem tagged_names_lost :
    selectValue "me" "select_repo" 7 = some "select_repo_me/select_repo_7" ∧
      bareTrigger.slackButton "select_repo_me/select_repo_7" = .nothing ∧
      ¬ ChoiceReturns bareTrigger "me" "select_repo" 7 ∧
      ¬ ApprovalReturns bareTrigger "approve_1" := by
  have hvalue : selectValue "me" "select_repo" 7 = some "select_repo_me/select_repo_7" := by
    decide +kernel
  have hbutton : bareTrigger.slackButton "select_repo_me/select_repo_7" = .nothing := by
    decide +kernel
  refine ⟨hvalue, hbutton, ?_, ?_⟩
  · intro h
    have hdecoded := h _ hvalue
    rw [hbutton] at hdecoded
    cases hdecoded
  · rw [approvalReturns_iff, not_not, ← hasText_iff]
    decide +kernel

end PrReviewer.Model
