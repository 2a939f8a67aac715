import PrReviewer.Library.Occurrences
import PrReviewer.Model.Domain

/-!
# `SkillSetSelector`

The skills a review runs with: the base skill, the situational skills that a finding asks for,
and the skills found beside the code.
-/

set_option autoImplicit false

namespace PrReviewer.Model

open PrReviewer.Library

/-- `SkillSetSelector` -/
structure SkillSetSelector where
  /-- `_base` -/
  base : String
  /-- `_situational` -/
  situational : List String
  deriving DecidableEq, Repr

/-- `["/diagnosing-bugs", "/resolving-merge-conflicts"]` -/
def defaultSituational : List String :=
  ["/diagnosing-bugs", "/resolving-merge-conflicts"]

/-- `_situational_type` -/
def situationalType (skill : String) : String :=
  if skill = "/diagnosing-bugs" then "bug"
  else if skill = "/resolving-merge-conflicts" then "merge_conflict"
  else "review"

/-- `any(getattr(f, "type", None) == _situational_type(s) for f in findings)` -/
def triggered (findings : List Finding) (skill : String) : Bool :=
  findings.any fun f => f.type == situationalType skill

namespace SkillSetSelector

/-- `__init__`: no list and an empty list stand for the default skills. -/
def new (base : String) (situational : Option (List String)) : SkillSetSelector where
  base := base
  situational :=
    match situational with
    | some (skill :: skills) => skill :: skills
    | _ => defaultSituational

/-- The loop over the situational skills. -/
def addTriggered (findings : List Finding) (skills : List String) (s : String) : List String :=
  if triggered findings s then skills ++ [s] else skills

/-- `select` -/
def select (sel : SkillSetSelector) (findings : List Finding)
    (repoSkills vendoredSkills : Option (List String)) : List String :=
  let skills := sel.situational.foldl (addTriggered findings) [sel.base]
  let skills := (vendoredSkills.getD [] ++ repoSkills.getD []).foldl addNew skills
  skills.take 16

end SkillSetSelector

end PrReviewer.Model
