import PrReviewer.Analysis.AgentOutcomes
import PrReviewer.Model.Phases

/-!
# The docs and the scan beside a review

Neither phase is to abort a review. Each catches some exceptions: `load` those of the operating
system, `scan` a missing binary, a timeout and a report that is not JSON. What escapes ends
`execute`: a Markdown file that does not decode, unless a file before it cannot be read; any
other operating-system error of gitleaks, an output that does not decode, and a report with an
element that is no object.
-/

set_option autoImplicit false

namespace PrReviewer.Model

open Library

/-! ## The docs -/

/-- Every Markdown file that does not decode has one before it that cannot be read. -/
def DocsFolder.Decodes (folder : DocsFolder) : Prop :=
  ∀ l, folder = .listed l → ∀ f ∈ l.entries, isMarkdown f.1 = true →
    ∀ data, f.2 = .bytes data → decodeUtf8 data = none →
      ∃ g ∈ l.entries, isMarkdown g.1 = true ∧ g.1 < f.1 ∧ g.2 = .failed

/-- Reading fails with an OS error exactly when the read itself failed. -/
theorem readText_eq_os {r : FileRead} : r.readText = .error .os ↔ r = .failed := by
  cases r with
  | failed => exact iff_of_true rfl rfl
  | bytes data => cases h : decodeUtf8 data <;> simp [FileRead.readText, h]

/-- Reading fails to decode exactly when the bytes are not UTF-8. -/
theorem readText_eq_undecodable {r : FileRead} :
    r.readText = .error .undecodable ↔ ∃ data, r = .bytes data ∧ decodeUtf8 data = none := by
  cases r with
  | failed => simp [FileRead.readText]
  | bytes data => cases h : decodeUtf8 data <;> simp [FileRead.readText, h]

/-- An entry fails with the error of its file. -/
theorem readEntry_eq_error {f : String × FileRead} {e : ReadError} :
    readEntry f = .error e ↔ f.2.readText = .error e := by
  unfold readEntry
  cases f.2.readText <;> simp [Except.map]

/-- The Markdown files are the entries whose name says so. -/
theorem Listing.mem_markdown {l : Listing} {f : String × FileRead} :
    f ∈ l.markdown ↔ f ∈ l.entries ∧ isMarkdown f.1 = true := by
  rw [markdown, (stablySorted_sortedBy _ _).perm.mem_iff, List.mem_filter]

/-- The Markdown files are read in the order of their names. -/
theorem Listing.markdown_sorted (l : Listing) :
    l.markdown.Pairwise fun f g => f.1 < g.1 := by
  have hsorted := (stablySorted_sortedBy Prod.fst (l.entries.filter fun f => isMarkdown f.1)).sorted
  have hperm := (stablySorted_sortedBy Prod.fst (l.entries.filter fun f => isMarkdown f.1)).perm
  have hnodup : (l.markdown.map Prod.fst).Nodup :=
    (hperm.map Prod.fst).nodup_iff.mpr (l.nodup.sublist (List.filter_sublist.map _))
  have hne : l.markdown.Pairwise fun f g => f.1 ≠ g.1 := List.pairwise_map.mp hnodup
  exact (hsorted.and hne).imp fun h => lt_of_le_of_ne h.1 h.2

/-- Where a Markdown file stands, seen from another one. -/
theorem Listing.place_of_split {l : Listing} {before after : List (String × FileRead)}
    {f g : String × FileRead} (hsplit : l.markdown = before ++ g :: after) (hf : f ∈ l.markdown) :
    f ∈ before ∨ f = g ∨ g.1 < f.1 := by
  have hsorted := l.markdown_sorted
  rw [hsplit, List.pairwise_append, List.pairwise_cons] at hsorted
  rw [hsplit, List.mem_append, List.mem_cons] at hf
  exact hf.imp_right (Or.imp_right (hsorted.2.1.1 f))

/-- `load` raises on the first file that does not decode, if all files before it are read. -/
theorem runs_load_listed (l : Listing) :
    Runs (DocsFolder.listed l).load ↔ l.markdown.mapM readEntry ≠ .error .undecodable := by
  cases hm : l.markdown.mapM readEntry with
  | ok content => simp [DocsFolder.load, hm]
  | error e => cases e <;> simp [DocsFolder.load, hm]

/-- **The docs are loaded**, or dropped, exactly if every file that does not decode has one before
it that cannot be read. -/
theorem DocsFolder.runs_load_iff (folder : DocsFolder) : Runs folder.load ↔ folder.Decodes := by
  cases folder with
  | absent => exact iff_of_true ⟨_, rfl⟩ (fun l h => by cases h)
  | unlistable => exact iff_of_true ⟨_, rfl⟩ (fun l h => by cases h)
  | listed l =>
    rw [runs_load_listed]
    constructor
    · intro hne l' hl f hf hmd data hdata hbad
      cases hl
      have hfmem : f ∈ l.markdown := Listing.mem_markdown.mpr ⟨hf, hmd⟩
      have hferr : readEntry f = .error .undecodable :=
        readEntry_eq_error.mpr (readText_eq_undecodable.mpr ⟨data, hdata, hbad⟩)
      cases hm : l.markdown.mapM readEntry with
      | ok content =>
        have hruns := runs_mapM.mp ⟨content, hm⟩ f hfmem
        rw [hferr] at hruns
        exact absurd hruns (not_runs_error _)
      | error e =>
        cases e with
        | undecodable => exact absurd hm hne
        | os =>
          -- a file that cannot be read comes first, so it comes before `f`
          obtain ⟨before, g, after, hsplit, hbefore, hg⟩ := mapM_eq_error.mp hm
          have hgmem : g ∈ l.markdown := by simp [hsplit]
          obtain ⟨hgl, hgmd⟩ := Listing.mem_markdown.mp hgmem
          refine ⟨g, hgl, hgmd, ?_, readText_eq_os.mp (readEntry_eq_error.mp hg)⟩
          rcases Listing.place_of_split hsplit hfmem with h | rfl | hlt
          · have hruns := hbefore f h
            rw [hferr] at hruns
            exact absurd hruns (not_runs_error _)
          · rw [hg] at hferr
            cases hferr
          · exact hlt
    · intro hdec hbad
      obtain ⟨before, f, after, hsplit, hbefore, hf⟩ := mapM_eq_error.mp hbad
      rw [readEntry_eq_error, readText_eq_undecodable] at hf
      obtain ⟨data, hdata, hnone⟩ := hf
      have hmem : f ∈ l.markdown := by simp [hsplit]
      obtain ⟨hfl, hmd⟩ := Listing.mem_markdown.mp hmem
      obtain ⟨g, hg, hgmd, hlt, hfailed⟩ := hdec l rfl f hfl hmd data hdata hnone
      rcases Listing.place_of_split hsplit (Listing.mem_markdown.mpr ⟨hg, hgmd⟩) with h | rfl | hlt'
      · have hruns := hbefore g h
        have herr : readEntry g = .error .os := readEntry_eq_error.mpr (readText_eq_os.mpr hfailed)
        rw [herr] at hruns
        exact absurd hruns (not_runs_error _)
      · exact absurd hlt (lt_irrefl _)
      · exact absurd hlt (lt_asymm hlt')

/-! ## The scan -/

/-- The report of gitleaks is not JSON, is no list, or is a list of objects. -/
def ReportShaped : Except JsonError Value → Prop
  | .ok raw => ∀ item ∈ listOrEmpty raw, item.isMap = true
  | .error e => e = .malformed

/-- gitleaks is missing, does not end in time, or ends with an output that decodes and, after an
exit code 0 or 1, holds nothing or such a report. -/
inductive AgentEnv.Scannable (env : AgentEnv) : ToolOutcome → Prop
  | notFound : Scannable env (.ended .notFound)
  | timedOut : Scannable env (.ended .timedOut)
  | exited (code : Int) (stdout stderr : List UInt8) (out err : String)
      (hout : env.readAll stdout = some out) (herr : env.readAll stderr = some err)
      (hreport : code ∈ [0, 1] → strip out.toList ≠ [] →
        ReportShaped (env.json.loads out.toList)) :
      Scannable env (.ended (.exited code stdout stderr))

/-- A printable item is parsed exactly when it is a map. -/
theorem runs_parseSecret {rules : TextRules} {item : Value} (h : item.printable = true) :
    Runs (parseSecret rules item) ↔ item.isMap = true := by
  unfold parseSecret
  constructor
  · intro hruns
    obtain ⟨path, hpath, -⟩ := runs_bind.mp hruns
    exact (runs_readText h).mp ⟨path, hpath⟩
  · intro hmap
    refine runs_readText_bind h hmap fun path => ?_
    rw [Value.runs_bind_get]
    refine ⟨hmap, ?_⟩
    exact runs_readText_bind h hmap fun detail => runs_pure _

/-- A report is read exactly when it is empty or has the shape of one. -/
theorem AgentEnv.runs_readSecrets (env : AgentEnv) (stdout : String) :
    Runs (env.readSecrets stdout) ↔
      (strip stdout.toList ≠ [] → ReportShaped (env.json.loads stdout.toList)) := by
  unfold readSecrets
  by_cases hstrip : strip stdout.toList = []
  · rw [if_pos hstrip]
    exact iff_of_true (runs_ok _) (fun h => absurd hstrip h)
  · rw [if_neg hstrip, imp_iff_right hstrip]
    cases hloads : env.json.loads stdout.toList with
    | ok raw =>
      have hraw : raw.printable = true := JsonRules.printable_of_loads hloads
      have hitems : ∀ item ∈ listOrEmpty raw, item.printable = true := by
        cases raw with
        | list items => exact printable_of_mem_items hraw
        | map entries => simp [listOrEmpty]
        | scalar s => simp [listOrEmpty]
      have hloop : Runs ((listOrEmpty raw).mapM (parseSecret env.text)) ↔
          ∀ item ∈ listOrEmpty raw, item.isMap = true := by
        rw [runs_mapM]
        exact forall₂_congr fun item hitem => runs_parseSecret (hitems item hitem)
      exact runs_mapError.trans hloop
    | error e =>
      cases e with
      | malformed => exact iff_of_true ⟨_, rfl⟩ rfl
      | longInt => exact iff_of_false (not_runs_error _) (by simp [ReportShaped])
      | tooDeep => exact iff_of_false (not_runs_error _) (by simp [ReportShaped])

/-- **The scan returns** exactly on these outcomes. -/
theorem AgentEnv.runs_scan_iff (env : AgentEnv) (o : ToolOutcome) :
    Runs (env.scan o) ↔ env.Scannable o := by
  cases o with
  | osError =>
    refine iff_of_false (not_runs_error _) ?_
    intro h
    cases h
  | ended o =>
    cases o with
    | notFound => exact iff_of_true ⟨_, rfl⟩ .notFound
    | timedOut => exact iff_of_true ⟨_, rfl⟩ .timedOut
    | exited code stdout stderr =>
      cases hsub : env.subprocessRun (.exited code stdout stderr) with
      | error e =>
        obtain rfl := AgentEnv.undecodable_of_exited hsub
        refine iff_of_false ?_ ?_
        · rw [scan, hsub]
          exact not_runs_error _
        · intro h
          cases h with
          | exited _ _ _ out err hout herr hreport =>
            have hok : env.subprocessRun (.exited code stdout stderr) = .ok ⟨code, out, err⟩ :=
              AgentEnv.subprocessRun_eq_ok.mpr ⟨stdout, stderr, rfl, hout, herr⟩
            rw [hok] at hsub
            cases hsub
      | ok proc =>
        obtain ⟨stdout', stderr', heq, hout, herr⟩ := AgentEnv.subprocessRun_eq_ok.mp hsub
        cases heq
        have hscan : Runs (env.scan (.ended (.exited proc.returncode stdout stderr))) ↔
            (proc.returncode ∈ [0, 1] → Runs (env.readSecrets proc.stdout)) := by
          rw [scan, hsub]
          by_cases hcode : proc.returncode ∈ [0, 1]
          · rw [imp_iff_right hcode]
            simp only [if_neg (not_not.mpr hcode)]
            exact runs_map
          · simp only [if_pos hcode]
            exact iff_of_true (runs_ok _) (fun h => absurd h hcode)
        rw [hscan, env.runs_readSecrets]
        constructor
        · exact fun hreport => .exited _ _ _ _ _ hout herr hreport
        · intro h
          cases h with
          | exited _ _ _ out err hout' herr' hreport =>
            rw [hout] at hout'
            cases hout'
            exact hreport

/-! ## `execute` -/

/-- `execute` calls `ensure` and then `load`. -/
def DocsFolder.input (folder : DocsFolder) (git : GitAnswers) : ExecInput :=
  .clone git (decide (Runs folder.load))

/-- `execute` gets this result from the runner and assembles the findings; a scan that raises ends
it as a runner that raises does. -/
def AgentEnv.scanInput (env : AgentEnv) (view : ParsedFinding → Finding) (result : ReviewResult)
    (tool : ToolOutcome) (report : ComplianceReport) : ExecInput :=
  if result.retryable then .reviewed (some result) []
  else
    match env.scan tool with
    | .ok sec =>
      .reviewed (some result) ((sec.secrets.map Secret.finding ++ report.toFindings).map view)
    | .error _ => .reviewed none []

/-- The step stages or publishes this review. -/
def ExecMove.Offers (cfg : PipelineConfig) (job : ReviewJob) (review : StagedReview)
    (move : ExecMove) : Prop :=
  if cfg.slack then
    move.next = .goOn none .notify ∧ move.staged.find job.runId = some review ∧
      move.events = [.staged job review]
  else
    move.next =
        .goOn none (.publishing (reviewOf job review.summary review.findings .comment) .first) ∧
      move.events = [.write (.worker job.runId)
        (.submitReview (reviewOf job review.summary review.findings .comment))]

/-- The docs and the scan leave the review alone: `execute` goes on after the docs are loaded, and
after the scan it stages or publishes the summary and all findings of the agent, up to the cap. -/
structure Degrades (env : AgentEnv) (view : ParsedFinding → Finding) (cfg : PipelineConfig)
    (now : Nat) (cache : Cache) (staged : StagedReviews) (job : ReviewJob) (git : GitAnswers)
    (folder : DocsFolder) (checkout : String) (result : ReviewResult) (tool : ToolOutcome)
    (report : ComplianceReport) : Prop where
  docs : (execStep cfg now cache staged job .clone (folder.input git)).map ExecMove.next =
    some (.goOn none (.fetchDiff (repoKey job.owner job.repo)))
  review : ∃ move review,
    execStep cfg now cache staged job (.running checkout)
      (env.scanInput view result tool report) = some move ∧
    move.Offers cfg job review ∧ review.summary = result.summary ∧
    result.findings.take 100 <+: review.findings ∧ review.findings.length ≤ 100

/-- The assembled findings begin with the agent's own and are at most 100. -/
theorem assembleFindings_keeps (findings extra : List Finding) :
    findings.take 100 <+: assembleFindings findings extra ∧
      (assembleFindings findings extra).length ≤ 100 := by
  constructor
  · rw [assembleFindings, List.take_append]
    exact List.prefix_append _ _
  · rw [assembleFindings, List.length_take]
    exact Nat.min_le_left _ _

/-- What follows a clone that has succeeded. -/
theorem execStep_docs {cfg : PipelineConfig} {now : Nat} {cache : Cache} (staged : StagedReviews)
    {job : ReviewJob} {git : GitAnswers} (folder : DocsFolder)
    (hclone : (cache.ensure cfg.config.diskCapBytes now git job.owner job.repo job.head).2 = true) :
    (execStep cfg now cache staged job .clone (folder.input git)).map ExecMove.next =
      some (if Runs folder.load then .goOn none (.fetchDiff (repoKey job.owner job.repo))
        else .finish .raised) := by
  unfold DocsFolder.input execStep
  cases hensure : cache.ensure cfg.config.diskCapBytes now git job.owner job.repo job.head with
  | mk c ok =>
    rw [hensure] at hclone
    obtain rfl : ok = true := hclone
    by_cases hload : Runs folder.load <;> simp [hensure, hload]

/-- A scan that raises ends `execute`. -/
theorem execStep_scan_raised {env : AgentEnv} {tool : ToolOutcome} {e : ScanError}
    (hscan : env.scan tool = .error e) (view : ParsedFinding → Finding) (cfg : PipelineConfig)
    (now : Nat) (cache : Cache) (staged : StagedReviews) (job : ReviewJob) (checkout : String)
    {result : ReviewResult} (report : ComplianceReport) (hresult : result.retryable = false) :
    execStep cfg now cache staged job (.running checkout) (env.scanInput view result tool report) =
      some ⟨.finish .raised, cache, staged, []⟩ := by
  simp [AgentEnv.scanInput, hresult, hscan, execStep]

/-- What follows a run of the agent that has succeeded. -/
theorem offers_reviewed (cfg : PipelineConfig) (now : Nat) (cache : Cache) (staged : StagedReviews)
    (job : ReviewJob) (checkout : String) {result : ReviewResult} (extra : List Finding)
    (hresult : result.retryable = false) :
    ∃ move, execStep cfg now cache staged job (.running checkout) (.reviewed (some result) extra) =
        some move ∧
      move.Offers cfg job ⟨result.summary, assembleFindings result.findings extra⟩ := by
  cases hslack : cfg.slack with
  | true =>
    refine ⟨⟨.goOn none .notify, cache,
      staged.stage job.runId ⟨result.summary, assembleFindings result.findings extra⟩,
      [.staged job ⟨result.summary, assembleFindings result.findings extra⟩]⟩, ?_, ?_⟩
    · simp [execStep, hresult, hslack]
    · simp [ExecMove.Offers, hslack]
  | false =>
    refine ⟨⟨.goOn none (.publishing (reviewOf job result.summary
      (assembleFindings result.findings extra) .comment) .first), cache, staged,
      [.write (.worker job.runId) (.submitReview (reviewOf job result.summary
        (assembleFindings result.findings extra) .comment))]⟩, ?_, ?_⟩
    · simp [execStep, hresult, hslack]
    · simp [ExecMove.Offers, hslack]

/-- **The docs and the scan do not abort a review** exactly if the docs decode and the scan
returns. -/
theorem phases_degrade_iff (env : AgentEnv) (view : ParsedFinding → Finding) (cfg : PipelineConfig)
    (now : Nat) (cache : Cache) (staged : StagedReviews) (job : ReviewJob) (git : GitAnswers)
    (folder : DocsFolder) (checkout : String) (result : ReviewResult) (tool : ToolOutcome)
    (report : ComplianceReport)
    (hclone : (cache.ensure cfg.config.diskCapBytes now git job.owner job.repo job.head).2 = true)
    (hresult : result.retryable = false) :
    Degrades env view cfg now cache staged job git folder checkout result tool report ↔
      folder.Decodes ∧ env.Scannable tool := by
  rw [← folder.runs_load_iff, ← env.runs_scan_iff]
  have hdocs : (execStep cfg now cache staged job .clone (folder.input git)).map ExecMove.next =
      some (.goOn none (.fetchDiff (repoKey job.owner job.repo))) ↔ Runs folder.load := by
    rw [execStep_docs staged folder hclone]
    by_cases hload : Runs folder.load <;> simp [hload]
  constructor
  · rintro ⟨hd, move, review, hmove, hoffers, -⟩
    refine ⟨hdocs.mp hd, ?_⟩
    cases hscan : env.scan tool with
    | ok sec => exact runs_ok sec
    | error e =>
      rw [execStep_scan_raised hscan view cfg now cache staged job checkout report hresult] at hmove
      cases hmove
      unfold ExecMove.Offers at hoffers
      split at hoffers <;> cases hoffers.1
  · rintro ⟨hload, sec, hscan⟩
    refine ⟨hdocs.mpr hload, ?_⟩
    obtain ⟨hkept, hlength⟩ := assembleFindings_keeps result.findings
      ((sec.secrets.map Secret.finding ++ report.toFindings).map view)
    have hinput : env.scanInput view result tool report =
        .reviewed (some result) ((sec.secrets.map Secret.finding ++ report.toFindings).map view) := by
      simp [AgentEnv.scanInput, hresult, hscan]
    obtain ⟨move, hmove, hoffers⟩ := offers_reviewed cfg now cache staged job checkout
      ((sec.secrets.map Secret.finding ++ report.toFindings).map view) hresult
    exact ⟨move, _, hinput ▸ hmove, hoffers, rfl, hkept, hlength⟩

/-! ## One review -/

/-- A pipeline without Slack, a job, and a clone that succeeds. -/
def bareConfig : PipelineConfig :=
  ⟨{ repoConfig := [{ owner := "me", repo := "app" }], providers := ["free"] }, false⟩

/-- The job of one pull request. -/
def bareJob : ReviewJob :=
  { owner := "me", repo := "app", pr := some 7, head := some "a", runId := "r1" }

/-- The answers of git to a first clone that succeeds. -/
def freshClone : GitAnswers :=
  ⟨true, true, true, { size := fun _ => 0 }⟩

/-- The checkout of `bareJob` succeeds with these answers. -/
theorem freshClone_ensure :
    ((⟨[], []⟩ : Cache).ensure bareConfig.config.diskCapBytes 0 freshClone bareJob.owner bareJob.repo
      bareJob.head).2 = true := by
  decide +kernel

/-- A folder with one file, in Latin-1. -/
def latinDocs : DocsFolder :=
  .listed ⟨[("notes.md", .bytes [0x63, 0x61, 0x66, 0xe9])], List.nodup_singleton _⟩

/-- A folder with a file in Latin-1 is not loaded. -/
theorem latinDocs_raises : ¬ Runs latinDocs.load := by
  rw [DocsFolder.runs_load_iff]
  intro h
  obtain ⟨g, hg, -, hlt, -⟩ := h _ rfl _ (List.mem_singleton_self _) (by decide +kernel) _ rfl
    (by decide +kernel)
  rw [List.mem_singleton.mp hg] at hlt
  exact absurd hlt (lt_irrefl _)

/-- A missing docs folder and a missing gitleaks leave the review alone. -/
theorem phases_degrade_iff_bare :
    Degrades plainAgent (fun f => { path := f.path }) bareConfig 0 ⟨[], []⟩ [] bareJob freshClone
      .absent "me/app" {} (.ended .notFound) {} := by
  apply (phases_degrade_iff plainAgent _ bareConfig 0 ⟨[], []⟩ [] bareJob freshClone .absent
    "me/app" {} (.ended .notFound) {} freshClone_ensure rfl).mpr
  refine ⟨?_, .notFound⟩
  intro l h
  cases h

/-- The text `[1]` on the standard output of gitleaks. -/
def oddReport : ToolOutcome :=
  .ended (.exited 1 [0x5b, 0x31, 0x5d] [])

/-- A file in Latin-1 ends `execute` before the diff is fetched, and a report with a number in it
ends it after the agent has run. -/
theorem phases_abort :
    (¬ ∀ folder tool, Degrades plainAgent (fun f => { path := f.path }) bareConfig 0 ⟨[], []⟩ []
      bareJob freshClone folder "me/app" {} tool {}) ∧
    (execStep bareConfig 0 ⟨[], []⟩ [] bareJob .clone (latinDocs.input freshClone)).map
      ExecMove.next = some (.finish .raised) ∧
    (execStep bareConfig 0 ⟨[], []⟩ [] bareJob (.running "me/app")
      (plainAgent.scanInput (fun f => { path := f.path }) {} oddReport {})).map ExecMove.next =
        some (.finish .raised) := by
  have hdocs : (execStep bareConfig 0 ⟨[], []⟩ [] bareJob .clone (latinDocs.input freshClone)).map
      ExecMove.next = some (.finish .raised) := by
    rw [execStep_docs [] latinDocs freshClone_ensure, if_neg latinDocs_raises]
  refine ⟨?_, hdocs, ?_⟩
  · intro h
    have hgoes := (h latinDocs oddReport).docs
    rw [hdocs] at hgoes
    cases hgoes
  · have hraises : ¬ Runs (plainAgent.scan oddReport) := by decide +kernel
    cases hscan : plainAgent.scan oddReport with
    | ok sec => exact absurd ⟨sec, hscan⟩ hraises
    | error e =>
      rw [execStep_scan_raised hscan _ _ _ _ _ _ _ _ rfl]
      rfl

end PrReviewer.Model
