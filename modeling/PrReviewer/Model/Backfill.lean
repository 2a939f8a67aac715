import PrReviewer.Model.App

/-!
# `BootBackfill.run`

The sweep at boot over the open pull requests of the enabled repositories, one visit after the
other, on a database that nobody else writes to meanwhile.
-/

set_option autoImplicit false

namespace PrReviewer.Model

/-- An entry of `list_open_prs`. The sweep does not read whether it is a draft. -/
structure ListedPr extends OpenPr where
  draft : Bool := false
  deriving DecidableEq, Repr

/-- What `list_open_prs` returns for each repository, as the sweep reads it. -/
def listedPrs (listed : RepoSpec → List ListedPr) (spec : RepoSpec) : Option (List OpenPr) :=
  some ((listed spec).map ListedPr.toOpenPr)

namespace App

/-- The visits of the sweep, each with the run id `uuid4().hex` would draw. -/
def visitAll (cfg : AppConfig) : App → List (RepoSpec × OpenPr) → List RunId → Option App
  | s, [], _ => some s
  | _, _ :: _, [] => none
  | s, v :: visits, r :: ids =>
    match s.backfillPr cfg v.1 v.2 r with
    | some (s, _) => visitAll cfg s visits ids
    | none => none

/-- `BootBackfill.run`, if `list_open_prs` returns this for each repository. -/
def bootBackfill (cfg : AppConfig) (s : App) (listed : RepoSpec → List ListedPr)
    (ids : List RunId) : Option App :=
  s.visitAll cfg (cfg.config.openPrs (listedPrs listed)) ids

end App

end PrReviewer.Model
