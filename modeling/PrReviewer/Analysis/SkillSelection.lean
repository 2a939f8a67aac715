import Mathlib.Data.List.Infix
import PrReviewer.Model.Skills

/-!
# The selected skills

`select` compares an extra skill with all that is selected so far, and a situational skill with
nothing. The list is what it should be as long as the base skill and the situational skills that
are asked for do not repeat among the first sixteen.
-/

set_option autoImplicit false

namespace PrReviewer.Model

open PrReviewer.Library

namespace SkillSetSelector

/-- The situational skills that the findings ask for, in their order. -/
def situationalFor (sel : SkillSetSelector) (findings : List Finding) : List String :=
  sel.situational.filter (triggered findings)

/-- The loop adds the triggered skills in order. -/
theorem foldl_addTriggered (findings : List Finding) (situational skills : List String) :
    situational.foldl (addTriggered findings) skills =
      skills ++ situational.filter (triggered findings) := by
  induction situational generalizing skills with
  | nil => rw [List.foldl_nil, List.filter_nil, List.append_nil]
  | cons s situational ih =>
    rw [List.foldl_cons, ih, addTriggered]
    cases hs : triggered findings s with
    | true => rw [if_pos rfl, List.filter_cons_of_pos hs, List.append_assoc, List.singleton_append]
    | false =>
      have hnot : ¬ triggered findings s = true := by
        rw [hs]
        exact Bool.false_ne_true
      rw [if_neg Bool.false_ne_true, List.filter_cons_of_neg hnot]

/-- `select` without its loops. -/
theorem select_eq (sel : SkillSetSelector) (findings : List Finding)
    (repoSkills vendoredSkills : Option (List String)) :
    sel.select findings repoSkills vendoredSkills =
      ((vendoredSkills.getD [] ++ repoSkills.getD []).foldl addNew
        (sel.base :: sel.situationalFor findings)).take 16 := by
  unfold select
  rw [foldl_addTriggered]
  rfl

/-- What a selection should be: at most sixteen skills, none twice, the first of the base skill,
the situational skills asked for, the vendored and the repository's skills, each where it occurs
first. -/
structure Selected (sel : SkillSetSelector) (findings : List Finding)
    (repoSkills vendoredSkills : Option (List String)) (skills : List String) : Prop where
  bounded : skills.length ≤ 16
  distinct : skills.Nodup
  ordered : skills = ((sel.base :: sel.situationalFor findings ++ vendoredSkills.getD [] ++
    repoSkills.getD []).eraseDups).take 16

/-- **When a selection is a bounded list without duplicates.** For every base skill, every list of
situational skills, all findings and all extra skills: `select` returns at most sixteen skills,
none twice, the base first, then the situational skills asked for, then the extras in the order
of their first occurrence, with nothing dropped but at the end, if and only if the first sixteen
of the base skill and the situational skills asked for are distinct. -/
theorem select_selected_iff (base : String) (situational : Option (List String))
    (findings : List Finding) (repoSkills vendoredSkills : Option (List String)) :
    (new base situational).Selected findings repoSkills vendoredSkills
        ((new base situational).select findings repoSkills vendoredSkills) ↔
      ((base :: (new base situational).situationalFor findings).take 16).Nodup := by
  generalize hsel : new base situational = sel
  have hbase : sel.base = base := hsel ▸ rfl
  rw [← hbase, select_eq]
  generalize hextras : vendoredSkills.getD [] ++ repoSkills.getD [] = extras
  generalize hlead : sel.base :: sel.situationalFor findings = lead
  constructor
  · intro h
    have hpre : lead.take 16 <+: (extras.foldl addNew lead).take 16 :=
      List.IsPrefix.take (prefix_foldl_addNew lead extras) 16
    exact h.distinct.sublist hpre.sublist
  · intro h
    have hordered : (extras.foldl addNew lead).take 16 = ((lead ++ extras).eraseDups).take 16 := by
      rcases Nat.le_total lead.length 16 with hlen | hlen
      · rw [List.take_of_length_le hlen] at h
        rw [foldl_addNew h]
      · -- the extras come too late
        obtain ⟨rest, hrest⟩ := prefix_foldl_addNew lead extras
        rw [take_eraseDups h hlen, ← hrest, List.take_append_of_le_length hlen]
    refine ⟨List.length_take_le 16 _, ?_, ?_⟩
    · rw [hordered]
      exact (nodup_eraseDups _).sublist (List.take_sublist 16 _)
    · rw [hordered, hlead, List.append_assoc, hextras]

/-- A situational skill that is configured twice is selected twice. -/
theorem situational_selected_twice :
    (new "/code-review" (some ["/diagnosing-bugs", "/diagnosing-bugs"])).select
        [{ path := "a.py", type := "bug" }] none none =
      ["/code-review", "/diagnosing-bugs", "/diagnosing-bugs"] ∧
      ¬ (new "/code-review" (some ["/diagnosing-bugs", "/diagnosing-bugs"])).Selected
        [{ path := "a.py", type := "bug" }] none none
        ((new "/code-review" (some ["/diagnosing-bugs", "/diagnosing-bugs"])).select
          [{ path := "a.py", type := "bug" }] none none) := by
  refine ⟨by decide +kernel, fun h => ?_⟩
  have htwice : ¬ ((new "/code-review" (some ["/diagnosing-bugs", "/diagnosing-bugs"])).select
      [{ path := "a.py", type := "bug" }] none none).Nodup := by decide +kernel
  exact htwice h.distinct

end SkillSetSelector

end PrReviewer.Model
