import Mathlib.Algebra.GroupWithZero.Nat
import Mathlib.Data.List.Chain
import PrReviewer.Model.ServiceLog

/-!
# Health probes in the access log

`HealthzFilter` over any sequence of access records: the records that are no probes pass, in their
order; every probe is counted in exactly one summary or is still to be; the summaries stand at
least an interval apart, and right after a probe the last of them is less than an interval old.
-/

set_option autoImplicit false

namespace PrReviewer.Model

open PrReviewer.Library

namespace HealthzFilter

/-! ## One record -/

/-- **What a record does**: it passes, or it is a probe that is counted, or one that closes the
count. -/
inductive FilterCase (f : HealthzFilter) (message : String) (now : Int) :
    HealthzFilter × Verdict → Prop
  | pass (h : isProbe message = false) : FilterCase f message now (f, { kept := true })
  | counted (h : isProbe message = true) (hnow : now - f.lastTs < f.interval) :
    FilterCase f message now ({ f with count := f.count + 1 }, { kept := false })
  | summed (h : isProbe message = true) (hnow : f.interval ≤ now - f.lastTs) :
    FilterCase f message now
      ({ f with lastTs := now, count := 0 }, { kept := false, summary := some (f.count + 1) })

/-- Filtering a record is one of its cases. -/
theorem filter_cases (f : HealthzFilter) (message : String) (now : Int) :
    FilterCase f message now (f.filter message now) := by
  unfold filter
  split_ifs with hprobe hnow
  · exact .summed hprobe hnow
  · exact .counted hprobe (by omega)
  · exact .pass (Bool.eq_false_iff.mpr hprobe)

/-! ## Runs -/

/-- The summaries logged over a run, with their times. -/
def summaries (records : List (String × Int)) (verdicts : List Verdict) : List (Int × Nat) :=
  (records.zip verdicts).filterMap fun p => p.2.summary.map fun n => (p.1.2, n)

/-- The records are filtered one after the other. -/
theorem run_cons (f : HealthzFilter) (r : String × Int) (records : List (String × Int)) :
    f.run (r :: records) = (((f.filter r.1 r.2).1.run records).1,
      (f.filter r.1 r.2).2 :: ((f.filter r.1 r.2).1.run records).2) :=
  rfl

/-- The summaries of one record more. -/
theorem summaries_cons (r : String × Int) (records : List (String × Int)) (v : Verdict)
    (verdicts : List Verdict) : summaries (r :: records) (v :: verdicts) =
      (v.summary.map fun n => (r.2, n)).toList ++ summaries records verdicts := by
  unfold summaries
  rw [List.zip_cons_cons, List.filterMap_cons]
  cases v.summary <;> rfl

/-- Filtering two sequences is filtering one after the other. -/
theorem run_append (f : HealthzFilter) (xs ys : List (String × Int)) :
    (f.run (xs ++ ys)).1 = ((f.run xs).1.run ys).1 := by
  induction xs generalizing f with
  | nil => rfl
  | cons r xs ih => exact ih _

/-- Filtering a record keeps the interval. -/
theorem filter_interval (f : HealthzFilter) (message : String) (now : Int) :
    (f.filter message now).1.interval = f.interval := by
  have hcase := filter_cases f message now
  generalize f.filter message now = out at hcase
  cases hcase <;> rfl

/-- Filtering records keeps the interval. -/
theorem run_interval (f : HealthzFilter) (records : List (String × Int)) :
    (f.run records).1.interval = f.interval := by
  induction records generalizing f with
  | nil => rfl
  | cons r records ih => exact (ih _).trans (f.filter_interval r.1 r.2)

/-- **The records that are no probes pass.** -/
theorem run_kept (f : HealthzFilter) (records : List (String × Int)) :
    ((records.zip (f.run records).2).filter fun p => p.2.kept).map Prod.fst =
      records.filter fun r => !isProbe r.1 := by
  induction records generalizing f with
  | nil => rfl
  | cons r records ih =>
    have hcase := filter_cases f r.1 r.2
    rw [run_cons]
    generalize f.filter r.1 r.2 = out at hcase
    cases hcase with
    | pass h => simp [h, ih]
    | counted h hnow => simp [h, ih]
    | summed h hnow => simp [h, ih]

/-- **Every probe is counted once.** -/
theorem run_counts (f : HealthzFilter) (records : List (String × Int)) :
    ((summaries records (f.run records).2).map Prod.snd).sum + (f.run records).1.count =
      f.count + (records.filter fun r => isProbe r.1).length := by
  induction records generalizing f with
  | nil => simp [summaries, run]
  | cons r records ih =>
    have hcase := filter_cases f r.1 r.2
    rw [run_cons, summaries_cons]
    generalize f.filter r.1 r.2 = out at hcase
    have hrest := ih out.1
    cases hcase with
    | pass h => simpa [h] using hrest
    | counted h hnow =>
      simp only [h, List.filter_cons, if_true, List.length_cons, Option.map_none,
        Option.toList_none, List.nil_append] at hrest ⊢
      omega
    | summed h hnow =>
      simp only [h, List.filter_cons, if_true, List.length_cons, Option.map_some,
        Option.toList_some, List.singleton_append, List.map_cons, List.sum_cons] at hrest ⊢
      omega

/-- **The summaries stand apart**, and the filter remembers the last of them. -/
theorem run_apart (f : HealthzFilter) (records : List (String × Int)) :
    List.IsChain (fun a b => a + f.interval ≤ b)
        (f.lastTs :: (summaries records (f.run records).2).map Prod.fst) ∧
      (f.lastTs :: (summaries records (f.run records).2).map Prod.fst).getLast
        (List.cons_ne_nil _ _) = (f.run records).1.lastTs := by
  induction records generalizing f with
  | nil => exact ⟨List.isChain_singleton _, rfl⟩
  | cons r records ih =>
    have hcase := filter_cases f r.1 r.2
    rw [run_cons, summaries_cons]
    generalize f.filter r.1 r.2 = out at hcase
    have hrest := ih out.1
    cases hcase with
    | pass h => exact hrest
    | counted h hnow => exact hrest
    | summed h hnow =>
      have hgap : f.lastTs + f.interval ≤ r.2 := by omega
      refine ⟨List.isChain_cons_cons.mpr ⟨hgap, hrest.1⟩, ?_⟩
      exact (List.getLast_cons (List.cons_ne_nil _ _)).trans hrest.2

/-- Right after a probe the last summary is less than an interval old. -/
theorem filter_fresh {f : HealthzFilter} {message : String} {now : Int}
    (hinterval : 0 < f.interval) (h : isProbe message = true) :
    now - (f.filter message now).1.lastTs < f.interval := by
  have hcase := filter_cases f message now
  generalize f.filter message now = out at hcase
  cases hcase with
  | pass hno =>
    rw [h] at hno
    cases hno
  | counted _ hnow => exact hnow
  | summed _ _ =>
    show now - now < f.interval
    omega

/-- Times that stand apart are few. -/
theorem length_mul_le {d : Int} {a : Int} {times : List Int}
    (h : List.IsChain (fun a b => a + d ≤ b) (a :: times)) :
    a + times.length * d ≤ (a :: times).getLast (List.cons_ne_nil _ _) := by
  induction times generalizing a with
  | nil => simp
  | cons b times ih =>
    obtain ⟨hab, hrest⟩ := List.isChain_cons_cons.mp h
    have hlast := ih hrest
    have hcount : a + ((b :: times).length : Int) * d = (a + d) + times.length * d := by
      rw [List.length_cons, Int.natCast_add, Int.add_mul]
      omega
    rw [List.getLast_cons (List.cons_ne_nil _ _), hcount]
    omega

/-- **The health probes of a service.** Over any sequence of access records, at whatever times:
the records that are no probes pass in their order; the summaries and what is still to be
summarised count every probe once; two summaries, and the start of the clock and the first, are
at least an interval apart, so there are no more of them than intervals; and after a probe less
than an interval has passed since the last summary. -/
theorem probes_summarised {interval : Int} (hinterval : 0 < interval)
    (records : List (String × Int)) :
    ((records.zip ((new interval).run records).2).filter fun p => p.2.kept).map Prod.fst =
        (records.filter fun r => !isProbe r.1) ∧
      ((summaries records ((new interval).run records).2).map Prod.snd).sum +
          ((new interval).run records).1.count =
        (records.filter fun r => isProbe r.1).length ∧
      List.IsChain (fun a b => a + interval ≤ b)
        (0 :: (summaries records ((new interval).run records).2).map Prod.fst) ∧
      (summaries records ((new interval).run records).2).length * interval ≤
        ((new interval).run records).1.lastTs ∧
      ∀ before message now, records = before ++ [(message, now)] → isProbe message = true →
        now - ((new interval).run records).1.lastTs < interval := by
  obtain ⟨hchain, hlast⟩ := (new interval).run_apart records
  refine ⟨run_kept _ records, ?_, hchain, ?_, ?_⟩
  · have hcounts := (new interval).run_counts records
    rwa [show (new interval).count = 0 from rfl, Nat.zero_add] at hcounts
  · have hfew := length_mul_le hchain
    rw [hlast, List.length_map] at hfew
    exact (Int.zero_add _).symm.trans_le hfew
  · rintro before message now rfl hprobe
    have hint : ((new interval).run before).1.interval = interval := run_interval _ before
    have hfresh := @filter_fresh ((new interval).run before).1 message now (by rwa [hint]) hprobe
    rw [run_append]
    rwa [hint] at hfresh

/-- Two probes, with another request between them. -/
def threeRequests : List (String × Int) :=
  [("GET /healthz HTTP/1.1", 5), ("GET /status HTTP/1.1", 6), ("GET /healthz HTTP/1.1", 901)]

/-- The two probes are summarised, the other request is kept. -/
theorem probes_summarised_two :
    ((threeRequests.zip ((new 900).run threeRequests).2).filter fun p => p.2.kept).map Prod.fst =
        (threeRequests.filter fun r => !isProbe r.1) ∧
      ((summaries threeRequests ((new 900).run threeRequests).2).map Prod.snd).sum +
          ((new 900).run threeRequests).1.count =
        (threeRequests.filter fun r => isProbe r.1).length ∧
      List.IsChain (fun a b => a + 900 ≤ b)
        (0 :: (summaries threeRequests ((new 900).run threeRequests).2).map Prod.fst) ∧
      (summaries threeRequests ((new 900).run threeRequests).2).length * 900 ≤
        ((new 900).run threeRequests).1.lastTs ∧
      ∀ before message now, threeRequests = before ++ [(message, now)] →
        isProbe message = true → now - ((new 900).run threeRequests).1.lastTs < 900 :=
  probes_summarised (by decide) _

end HealthzFilter

end PrReviewer.Model
