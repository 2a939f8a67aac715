import Mathlib.Data.List.DropRight
import Mathlib.Data.List.TakeWhile
import PrReviewer.Analysis.TextSearch
import PrReviewer.Model.AgentOutput

/-!
# What is left of a text without its fences

`strip` takes white space off the ends, and no token of a JSON text is white space. The text
that `_parse_result` decodes, for a text in a fence: what stands in the last block that is
opened, or what follows it.
-/

set_option autoImplicit false

namespace PrReviewer.Model

open Library

/-! ## White space -/

/-- White space is no part of a token. -/
theorem inert_of_isSpace {c : Char} (h : isSpace c = true) : inert c = true := by
  have hno (d : Char) (hd : isSpace d = false) : c ≠ d := by
    rintro rfl
    rw [h] at hd
    cases hd
  have houter : isOuter c = true → isBlank c = true := by
    intro houter
    simp only [isOuter, Bool.or_eq_true] at houter
    rcases houter with (hblank | hdigit) | hmem
    · exact hblank
    · rw [isSpace_of_digit hdigit] at h
      cases h
    · have hlist : "[]{},:-+.eEtrufalsnNIiy".toList.all (fun d => !isSpace d) = true := by decide
      have hspace := List.all_eq_true.mp hlist c (List.contains_iff_mem.mp hmem)
      simp [h] at hspace
  have hlast : (!isOuter c || isBlank c) = true := by
    cases hout : isOuter c with
    | false => rfl
    | true => rw [houter hout]; rfl
  simp [inert, hlast, hno '"' (by decide), hno '\\' (by decide)]

/-- The leading white space is white space. -/
theorem mem_takeWhile_isSpace {text : List Char} : ∀ c ∈ text.takeWhile isSpace, isSpace c = true :=
  fun _ hc => List.mem_takeWhile_imp hc

/-- White space and the text without it. -/
theorem exists_eq_strip (text : List Char) :
    ∃ before after, text = before ++ strip text ++ after ∧
      (∀ c ∈ before, isSpace c = true) ∧ ∀ c ∈ after, isSpace c = true := by
  refine ⟨text.takeWhile isSpace, ((lstrip text).reverse.takeWhile isSpace).reverse, ?_,
    mem_takeWhile_isSpace, ?_⟩
  · have hback : rstrip (lstrip text) ++ ((lstrip text).reverse.takeWhile isSpace).reverse =
        lstrip text := by
      rw [rstrip, ← List.reverse_append, List.takeWhile_append_dropWhile, List.reverse_reverse]
    rw [List.append_assoc, strip, hback, lstrip, List.takeWhile_append_dropWhile]
  · intro c hc
    exact mem_takeWhile_isSpace c (List.mem_reverse.mp hc)

/-- Stripping on the left stops at the first other character. -/
theorem lstrip_append_cons {c : Char} (hc : isSpace c = false) (x y : List Char) :
    lstrip (x ++ c :: y) = lstrip x ++ c :: y := by
  unfold lstrip
  induction x with
  | nil => simp [hc]
  | cons a x ih =>
    rw [List.cons_append, List.dropWhile_cons, List.dropWhile_cons]
    split_ifs
    · exact ih
    · rfl

/-- Stripping on the right stops at the last other character. -/
theorem rstrip_append_cons {c : Char} (hc : isSpace c = false) (x y : List Char) :
    rstrip (x ++ c :: y) = x ++ c :: rstrip y := by
  have h := lstrip_append_cons hc y.reverse x.reverse
  unfold lstrip at h
  unfold rstrip
  have hreverse : (x ++ c :: y).reverse = y.reverse ++ c :: x.reverse := by simp
  rw [hreverse, h]
  simp

/-- What stands between two characters that are no white space is kept. -/
theorem strip_between {c d : Char} (hc : isSpace c = false) (hd : isSpace d = false)
    (x y z : List Char) :
    strip (x ++ c :: (y ++ d :: z)) = lstrip x ++ c :: (y ++ d :: rstrip z) := by
  rw [strip, lstrip_append_cons hc, ← List.cons_append, ← List.append_assoc,
    rstrip_append_cons hd]
  simp

/-- Stripping on the right twice is stripping once. -/
theorem rstrip_rstrip (text : List Char) : rstrip (rstrip text) = rstrip text := by
  unfold rstrip
  rw [List.reverse_reverse, List.dropWhile_idempotent]

/-- The two ends are stripped independently. -/
theorem lstrip_rstrip (text : List Char) : lstrip (rstrip text) = strip text := by
  induction text with
  | nil => rfl
  | cons c cs ih =>
    cases hc : isSpace c with
    | false =>
      have hr : rstrip (c :: cs) = c :: rstrip cs := rstrip_append_cons hc [] cs
      have hl (y : List Char) : lstrip (c :: y) = c :: y := lstrip_append_cons hc [] y
      rw [strip, hl, hr, hl]
    | true =>
      have hl (y : List Char) : lstrip (c :: y) = lstrip y := by simp [lstrip, hc]
      by_cases hall : ∀ d ∈ cs, isSpace d = true
      · have hrest : rstrip (c :: cs) = [] :=
          List.rdropWhile_eq_nil_iff.mpr (List.forall_mem_cons.mpr ⟨hc, hall⟩)
        have hstrip : lstrip cs = [] := List.dropWhile_eq_nil_iff.mpr hall
        rw [hrest, strip, hl, hstrip]
        rfl
      · simp only [not_forall, Bool.not_eq_true] at hall
        obtain ⟨d, hd, hspace⟩ := hall
        obtain ⟨x, y, rfl⟩ := List.append_of_mem hd
        have hr : rstrip (c :: (x ++ d :: y)) = c :: rstrip (x ++ d :: y) := by
          rw [rstrip_append_cons hspace, ← List.cons_append, rstrip_append_cons hspace]
          rfl
        rw [hr, hl, ih, strip, strip, hl]

/-- Stripping both sides strips the right one. -/
theorem strip_rstrip (text : List Char) : strip (rstrip text) = strip text := by
  rw [strip, lstrip_rstrip, strip, rstrip_rstrip]

/-- Stripping on the left adds no character. -/
theorem notMem_lstrip {c : Char} {text : List Char} (h : c ∉ text) : c ∉ lstrip text :=
  fun hmem => h ((List.dropWhile_suffix _).subset hmem)

/-- Stripping on the right adds no character. -/
theorem notMem_rstrip {c : Char} {text : List Char} (h : c ∉ text) : c ∉ rstrip text :=
  fun hmem => h ((List.rdropWhile_prefix isSpace _).subset hmem)

/-! ## Fences -/

/-- The name of the language of a JSON fence. -/
def jsonName : List Char :=
  ['j', 's', 'o', 'n']

/-- The fence is not empty. -/
theorem fence_ne_nil : fence ≠ [] := by
  decide

/-- The fence with its name is not empty. -/
theorem jsonFence_ne_nil : jsonFence ≠ [] := by
  decide

/-- A text without backticks has no fence. -/
theorem absent_of_notMem {s text : List Char} (h : tick ∉ text) : ¬ tick :: s <:+: text :=
  fun hocc => h (hocc.subset List.mem_cons_self)

/-- A text that does not begin with a backtick makes no JSON fence of one or two before it. -/
theorem not_jsonFence_tick {text : List Char} (h : text.head? ≠ some tick) :
    ¬ jsonFence <+: tick :: text ∧ ¬ jsonFence <+: tick :: tick :: text := by
  have hhead (s : List Char) : ¬ tick :: s <+: text := by
    rintro ⟨rest, rfl⟩
    exact h rfl
  constructor
  · simpa [jsonFence] using hhead _
  · simpa [jsonFence] using hhead _

/-- **After a fence the name of the language makes it a JSON fence.** -/
theorem jsonFence_occurs_fence_append {text : List Char} (h : text.head? ≠ some tick) :
    jsonFence <:+: fence ++ text ↔ jsonName <+: text ∨ jsonFence <:+: text := by
  obtain ⟨hone, htwo⟩ := not_jsonFence_tick h
  simp only [fence, List.cons_append, List.nil_append, List.infix_cons_iff, hone, htwo, false_or]
  simp [jsonFence, jsonName]

/-- A fence before a text that does not begin with the name adds no named fence. -/
theorem lastPiece_fence_append {text : List Char} (h : text.head? ≠ some tick)
    (hname : ¬ jsonName <+: text) (hocc : jsonFence <:+: text) :
    lastPiece jsonFence (fence ++ text) = lastPiece jsonFence text := by
  obtain ⟨hone, htwo⟩ := not_jsonFence_tick h
  have hthree : ¬ jsonFence <+: tick :: tick :: tick :: text := by
    simpa [jsonFence, jsonName] using hname
  show lastPiece jsonFence (tick :: tick :: tick :: text) = _
  rw [lastPiece_cons_of_present jsonFence_ne_nil hthree,
    lastPiece_cons_of_present jsonFence_ne_nil htwo,
    lastPiece_cons_of_present jsonFence_ne_nil hone hocc]
  · exact List.infix_cons hocc
  · exact List.infix_cons (List.infix_cons hocc)

/-- A text that keeps the fences around it apart from what is in it. -/
structure Delimited (text : List Char) : Prop where
  first : ∃ c, text.head? = some c ∧ c ≠ tick ∧ c ≠ 'j'
  last : ∃ front c, text = front ++ [c] ∧ c ∉ jsonFence

/-- The text in the last JSON fence of a text. -/
def fenced (text : List Char) : List Char :=
  strip (firstPiece fence (lastPiece jsonFence text))

section Body

variable {doc after : List Char} (hdoc : Delimited doc) (hafter : tick ∉ after)

include hdoc hafter

/-- A named fence occurs in a fenced text only within the document or as its closing fence. -/
theorem jsonFence_occurs_body :
    jsonFence <:+: doc ++ (fence ++ after) ↔ jsonFence <:+: doc ∨ jsonName <+: after := by
  obtain ⟨front, c, rfl, hc⟩ := hdoc.last
  have hhead : after.head? ≠ some tick := fun h => hafter (List.mem_of_head? h)
  have hno : ¬ jsonFence <:+: after := absent_of_notMem hafter
  rw [List.append_assoc, List.singleton_append, occurs_append_cons jsonFence_ne_nil hc,
    jsonFence_occurs_fence_append hhead, occurs_append_cons jsonFence_ne_nil hc]
  simp [hno, jsonFence_ne_nil]

/-- Behind a closing fence that is read as a named one stands what follows the name. -/
theorem lastPiece_body_of_name (h : jsonName <+: after) :
    lastPiece jsonFence (doc ++ (fence ++ after)) = after.drop 4 := by
  obtain ⟨front, c, rfl, hc⟩ := hdoc.last
  obtain ⟨rest, rfl⟩ := h
  have hrest : tick ∉ rest := fun hmem => hafter (List.mem_append_right _ hmem)
  show lastPiece jsonFence (front ++ [c] ++ (jsonFence ++ rest)) = rest
  rw [List.append_assoc, List.singleton_append, lastPiece_append_sep jsonFence_ne_nil hc]
  exact lastPiece_of_absent (absent_of_notMem hrest)

/-- What is cut from a fenced text ends before its closing fence. -/
theorem fenced_body (h : ¬ jsonName <+: after) :
    fenced (doc ++ (fence ++ after)) = fenced doc := by
  obtain ⟨front, c, rfl, hc⟩ := hdoc.last
  have hhead : after.head? ≠ some tick := fun h => hafter (List.mem_of_head? h)
  have hno : ¬ jsonFence <:+: fence ++ after := by
    rw [jsonFence_occurs_fence_append hhead, not_or]
    exact ⟨h, absent_of_notMem hafter⟩
  have hfence : c ∉ fence := fun hmem => hc (List.mem_append_left ['j', 's', 'o', 'n'] hmem)
  obtain ⟨z, hz⟩ := exists_lastPiece_eq jsonFence_ne_nil hc front
  rw [fenced, List.append_assoc, List.singleton_append,
    lastPiece_append_cons jsonFence_ne_nil hc hno, hz, List.append_assoc, List.singleton_append,
    firstPiece_append_sep fence_ne_nil hfence, fenced, hz]

/-- The last piece behind a closing fence is what follows it. -/
theorem lastPiece_fence_body : lastPiece fence (doc ++ (fence ++ after)) = after := by
  obtain ⟨front, c, rfl, hc⟩ := hdoc.last
  have hfence : c ∉ fence := fun hmem => hc (List.mem_append_left ['j', 's', 'o', 'n'] hmem)
  rw [List.append_assoc, List.singleton_append, lastPiece_append_sep fence_ne_nil hfence]
  exact lastPiece_of_absent (absent_of_notMem hafter)

end Body

/-! ## The text that is decoded -/

section Clean

variable {doc before after : List Char} (hdoc : Delimited doc) (hbefore : tick ∉ before)
  (hafter : tick ∉ after)

/-- White space at the end does not hide the name of the language. -/
theorem jsonName_starts_rstrip {text : List Char} : jsonName <+: rstrip text ↔ jsonName <+: text := by
  constructor
  · exact fun h => h.trans (List.rdropWhile_prefix isSpace text)
  · rintro ⟨rest, rfl⟩
    have hr : rstrip (jsonName ++ rest) = jsonName ++ rstrip rest :=
      rstrip_append_cons (c := 'n') (by decide) ['j', 's', 'o'] rest
    rw [hr]
    exact List.prefix_append _ _

/-- Stripping after the name has been dropped is stripping before it. -/
theorem strip_drop_rstrip {text : List Char} (h : jsonName <+: text) :
    strip ((rstrip text).drop 4) = strip (text.drop 4) := by
  obtain ⟨rest, rfl⟩ := h
  have hr : rstrip (jsonName ++ rest) = jsonName ++ rstrip rest :=
    rstrip_append_cons (c := 'n') (by decide) ['j', 's', 'o'] rest
  rw [hr]
  exact strip_rstrip rest

include hdoc hafter in
/-- The last JSON fence of a text that ends with a fence. -/
theorem fenced_body_rstrip : fenced (doc ++ (fence ++ rstrip after)) =
    if jsonName <+: after then strip (after.drop 4) else fenced doc := by
  have hrafter := notMem_rstrip hafter
  split_ifs with hname
  · have hdrop : tick ∉ (rstrip after).drop 4 := fun hmem => hrafter (List.mem_of_mem_drop hmem)
    rw [fenced, lastPiece_body_of_name hdoc hrafter (jsonName_starts_rstrip.mpr hname)]
    have hfirst : firstPiece fence ((rstrip after).drop 4) = (rstrip after).drop 4 :=
      firstPiece_of_absent (absent_of_notMem hdrop)
    rw [hfirst, strip_drop_rstrip hname]
  · exact fenced_body hdoc hrafter fun h => hname (jsonName_starts_rstrip.mp h)

/-- Stripping a document in a named fence strips around the fence only. -/
theorem strip_jsonFence (doc before after : List Char) :
    strip (before ++ (jsonFence ++ (doc ++ (fence ++ after)))) =
      lstrip before ++ (jsonFence ++ (doc ++ (fence ++ rstrip after))) := by
  have h := strip_between (c := tick) (d := tick) (by decide) (by decide) before
    ([tick, tick, 'j', 's', 'o', 'n'] ++ (doc ++ [tick, tick])) after
  simpa [jsonFence, fence] using h

/-- Stripping a document in a plain fence strips around the fence only. -/
theorem strip_fence (doc before after : List Char) :
    strip (before ++ (fence ++ (doc ++ (fence ++ after)))) =
      lstrip before ++ (fence ++ (doc ++ (fence ++ rstrip after))) := by
  have h := strip_between (c := tick) (d := tick) (by decide) (by decide) before
    ([tick, tick] ++ (doc ++ [tick, tick])) after
  simpa [fence] using h

include hdoc hbefore hafter

/-- **A JSON fence.** -/
theorem cleanOutput_jsonFence :
    cleanOutput (before ++ (jsonFence ++ (doc ++ (fence ++ after)))) =
      if jsonName <+: after then strip (after.drop 4) else fenced doc := by
  have hocc : jsonFence <:+: jsonFence ++ (doc ++ (fence ++ rstrip after)) :=
    (List.prefix_append _ _).isInfix
  rw [cleanOutput, strip_jsonFence, if_pos (hasText_iff.mpr (List.infix_append_of_infix_right hocc)),
    ← fenced_body_rstrip hdoc hafter, fenced]
  congr 2
  exact (lastPiece_append_of_head (notMem_lstrip hbefore) hocc).trans
    (lastPiece_sep_append jsonFence_ne_nil _)

/-- **A plain fence.** -/
theorem cleanOutput_fence :
    cleanOutput (before ++ (fence ++ (doc ++ (fence ++ after)))) =
      if jsonName <+: after then strip (after.drop 4)
      else if jsonFence <:+: doc then fenced doc
      else strip after := by
  have hlbefore := notMem_lstrip hbefore
  have hrafter := notMem_rstrip hafter
  obtain ⟨c, hc, htick, hj⟩ := hdoc.first
  obtain ⟨rest, rfl⟩ : ∃ rest, doc = c :: rest := ⟨doc.tail, List.eq_cons_of_mem_head? hc⟩
  have hhead : (c :: rest ++ (fence ++ rstrip after)).head? ≠ some tick := by simpa using htick
  have hname : ¬ jsonName <+: c :: rest ++ (fence ++ rstrip after) := by
    rw [jsonName, List.cons_append, List.cons_prefix_cons]
    exact fun h => hj h.1.symm
  have hbody := jsonFence_occurs_body hdoc hrafter
  rw [jsonName_starts_rstrip] at hbody
  have htext : jsonFence <:+: lstrip before ++ (fence ++ (c :: rest ++ (fence ++ rstrip after))) ↔
      jsonFence <:+: c :: rest ++ (fence ++ rstrip after) := by
    rw [jsonFence, occurs_append_of_head hlbefore]
    exact (jsonFence_occurs_fence_append hhead).trans (or_iff_right hname)
  rw [cleanOutput, strip_fence]
  by_cases hocc : jsonFence <:+: c :: rest ++ (fence ++ rstrip after)
  · have hlast : lastPiece jsonFence
          (lstrip before ++ (fence ++ (c :: rest ++ (fence ++ rstrip after)))) =
        lastPiece jsonFence (c :: rest ++ (fence ++ rstrip after)) := by
      rw [← lastPiece_fence_append hhead hname hocc]
      refine lastPiece_append_of_head hlbefore ?_
      exact (jsonFence_occurs_fence_append hhead).mpr (.inr hocc)
    rw [if_pos (hasText_iff.mpr (htext.mpr hocc)), hlast]
    change fenced _ = _
    rw [fenced_body_rstrip hdoc hafter]
    split_ifs with h1 h2
    · rfl
    · rfl
    · exact absurd (hbody.mp hocc) (by simp [h1, h2])
  · have hfence : fence <:+: fence ++ (c :: rest ++ (fence ++ rstrip after)) :=
      (List.prefix_append _ _).isInfix
    rw [if_neg (by rwa [hasText_iff, htext]),
      if_pos (hasText_iff.mpr (List.infix_append_of_infix_right hfence))]
    have hlast : lastPiece fence
          (lstrip before ++ (fence ++ (c :: rest ++ (fence ++ rstrip after)))) = rstrip after := by
      have hskip := lastPiece_append_of_head (s := [tick, tick]) hlbefore hfence
      exact (hskip.trans (lastPiece_sep_append fence_ne_nil _)).trans
        (lastPiece_fence_body hdoc hrafter)
    have hfirst : firstPiece fence (rstrip after) = rstrip after :=
      firstPiece_of_absent (absent_of_notMem hrafter)
    rw [hlast, hfirst, strip_rstrip]
    rw [hbody, not_or] at hocc
    rw [if_neg hocc.2, if_neg hocc.1]

end Clean

end PrReviewer.Model
