import Mathlib.Data.List.Induction

/-!
# Histories

Two ways to speak of a list of events that grows at its end: `Each`, which says something of
every event relative to what came before it, and `Since`, which says that something has
happened and nothing has undone it after. Each has a rule for one more event and one for a
batch of events.
-/

set_option autoImplicit false

namespace PrReviewer.Library

variable {ε : Type}

/-! ## Every event -/

/-- Every event of the history satisfies `P` relative to what came before it. -/
def Each (P : List ε → ε → Prop) (h : List ε) : Prop :=
  ∀ pre e post, h = pre ++ e :: post → P pre e

variable {P : List ε → ε → Prop}

/-- The empty history satisfies every condition. -/
theorem each_nil : Each P ([] : List ε) := by
  intro pre e post h
  simp at h

/-- **The step rule.** One more event keeps the statement exactly if the event satisfies it
over the whole history before. -/
theorem each_snoc {h : List ε} {e : ε} : Each P (h ++ [e]) ↔ Each P h ∧ P h e := by
  constructor
  · intro he
    refine ⟨fun pre x post hx => he pre x (post ++ [e]) (by simp [hx]), he h e [] rfl⟩
  · rintro ⟨hh, hp⟩ pre x post hx
    rcases List.eq_nil_or_concat post with rfl | ⟨post', y, rfl⟩
    · obtain ⟨rfl, hxe⟩ := List.append_inj' hx rfl
      simpa [← List.cons.inj hxe |>.1] using hp
    · rw [List.concat_eq_append, ← List.cons_append, ← List.append_assoc] at hx
      obtain ⟨hpre, -⟩ := List.append_inj' hx rfl
      exact hh pre x post' hpre

/-- A batch of events keeps the statement if each of them satisfies it over the history
before the batch and the part of the batch before it. -/
theorem Each.append {h es : List ε} (hh : Each P h)
    (hes : ∀ pre e post, es = pre ++ e :: post → P (h ++ pre) e) : Each P (h ++ es) := by
  induction es using List.reverseRecOn with
  | nil => simpa using hh
  | append_singleton es e ih =>
    rw [← List.append_assoc, each_snoc]
    refine ⟨ih fun pre x post hx => ?_, hes es e [] rfl⟩
    exact hes pre x (post ++ [e]) (by simp [hx])

/-- Before the only event nothing happened. -/
theorem eq_nil_of_alone {x e : ε} {pre post : List ε} (h : [x] = pre ++ e :: post) : pre = [] := by
  cases pre with
  | nil => rfl
  | cons y ys => simp at h

/-- Every event of a history satisfies its condition. -/
theorem Each.of_mem {h : List ε} (hh : Each P h) {e : ε} (he : e ∈ h) :
    ∃ pre post, h = pre ++ e :: post ∧ P pre e := by
  obtain ⟨pre, post, rfl⟩ := List.append_of_mem he
  exact ⟨pre, post, rfl, hh pre e post rfl⟩

/-! ## Since an event -/

/-- Some event of the history satisfies `P` relative to what came before it, and all later ones
satisfy `Q`. -/
def Since (P : List ε → ε → Prop) (Q : ε → Prop) (h : List ε) : Prop :=
  ∃ before e after, h = before ++ e :: after ∧ P before e ∧ ∀ x ∈ after, Q x

variable {Q : ε → Prop} {h es : List ε}

/-- Nothing has happened since anything in the empty history. -/
theorem not_since_nil : ¬ Since P Q [] := by
  rintro ⟨before, e, after, h, -⟩
  simp at h

/-- **The step rule.** -/
theorem since_snoc {e : ε} : Since P Q (h ++ [e]) ↔ P h e ∨ Since P Q h ∧ Q e := by
  constructor
  · rintro ⟨before, x, after, heq, hx, hafter⟩
    rcases List.eq_nil_or_concat after with rfl | ⟨after', y, rfl⟩
    · obtain ⟨rfl, he⟩ := List.append_inj' heq rfl
      cases he
      exact Or.inl hx
    · rw [List.concat_eq_append, ← List.cons_append, ← List.append_assoc] at heq
      obtain ⟨hh, he⟩ := List.append_inj' heq rfl
      cases he
      exact Or.inr ⟨⟨before, x, after', hh, hx, fun z hz => hafter z (by simp [hz])⟩,
        hafter _ (by simp)⟩
  · rintro (he | ⟨⟨before, x, after, rfl, hx, hafter⟩, he⟩)
    · exact ⟨h, e, [], rfl, he, fun z hz => absurd hz List.not_mem_nil⟩
    · refine ⟨before, x, after ++ [e], by simp, hx, fun z hz => ?_⟩
      rcases List.mem_append.mp hz with hz | hz
      · exact hafter z hz
      · rw [List.mem_singleton.mp hz]
        exact he

/-- A batch in which it does not happen anew must not undo it. -/
theorem since_append (hP : ∀ before, ∀ e ∈ es, ¬ P before e) :
    Since P Q (h ++ es) ↔ Since P Q h ∧ ∀ e ∈ es, Q e := by
  induction es using List.reverseRecOn with
  | nil => simp
  | append_singleton es e ih =>
    have he : ∀ before, ¬ P before e := fun before => hP before e (by simp)
    rw [← List.append_assoc, since_snoc, ih fun before e he => hP before e (by simp [he])]
    simp only [he, false_or, List.mem_append, List.mem_singleton]
    constructor
    · rintro ⟨⟨hs, hes⟩, hq⟩
      refine ⟨hs, fun x hx => ?_⟩
      rcases hx with hx | rfl
      · exact hes x hx
      · exact hq
    · rintro ⟨hs, hes⟩
      exact ⟨⟨hs, fun x hx => hes x (Or.inl hx)⟩, hes e (Or.inr rfl)⟩

/-- Of the events that satisfy `p` there is a last one, if there is one. -/
theorem since_last {p : ε → Prop} (hex : ∃ e ∈ h, p e) : Since (fun _ e => p e) (fun e => ¬ p e) h := by
  induction h using List.reverseRecOn with
  | nil =>
    obtain ⟨e, he, -⟩ := hex
    exact absurd he List.not_mem_nil
  | append_singleton h e ih =>
    rw [since_snoc]
    by_cases hp : p e
    · exact Or.inl hp
    · refine Or.inr ⟨ih ?_, hp⟩
      obtain ⟨x, hx, hpx⟩ := hex
      rcases List.mem_append.mp hx with hx | hx
      · exact ⟨x, hx, hpx⟩
      · rw [List.mem_singleton.mp hx] at hpx
        exact absurd hpx hp

/-- A weaker condition holds since a weaker one. -/
theorem Since.mono {P' : List ε → ε → Prop} {Q' : ε → Prop} (hP : ∀ before e, P before e → P' before e)
    (hQ : ∀ e, Q e → Q' e) (hs : Since P Q h) : Since P' Q' h := by
  obtain ⟨before, e, after, rfl, he, hafter⟩ := hs
  exact ⟨before, e, after, rfl, hP _ _ he, fun x hx => hQ x (hafter x hx)⟩

end PrReviewer.Library
