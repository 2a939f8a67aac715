import PrReviewer.Library.Pieces
import PrReviewer.Model.Phases

/-!
# `ComplianceValidator`

`validate` and `validate_compliance` of `tests/compliance.py`, over the files of a diff and a
checkout. A path is split as on POSIX.
-/

set_option autoImplicit false

namespace PrReviewer.Model

open PrReviewer.Library

/-! ## Patterns -/

/-- `eqIgnoreCase` for patterns that have an `s`, which has a partner outside ASCII too. -/
def eqIgnoreCaseS (p c : Char) : Bool :=
  eqIgnoreCase p c || (p == 's' && c.toNat == 0x17f)

/-- The text starts with the pattern under `re.IGNORECASE`. -/
def startsIgnoreCase : List Char → List Char → Bool
  | [], _ => true
  | _ :: _, [] => false
  | p :: ps, c :: cs => eqIgnoreCaseS p c && startsIgnoreCase ps cs

/-- `re.search` for one of some plain patterns, under `re.IGNORECASE`. -/
def searchIgnoreCase (patterns : List String) (text : String) : Bool :=
  patterns.any fun pat => text.toList.tails.any (startsIgnoreCase pat.toList)

/-- `_TEST_PATTERNS`, with the optional letter written out. -/
def testPatterns : List String :=
  ["test_", "_test.", ".test.", "test/", "tests/", "spec/"]

/-- `_is_test_file` -/
def isTestFile (path : String) : Bool :=
  searchIgnoreCase testPatterns path

/-- The endings of `_MODULE_PATTERNS`. -/
def moduleEndings : List String :=
  [".py", ".js", ".ts", ".tsx", ".go", ".rs", ".java", ".rb", ".php"]

/-- `_is_module_file`; `$` also stands before a newline at the end. -/
def isModuleFile (path : String) : Bool :=
  moduleEndings.any fun ending =>
    ending.toList.isSuffixOf path.toList || (ending.toList ++ ['\n']).isSuffixOf path.toList

/-! ## Paths -/

/-- `Path(path).name` -/
def pathName (path : String) : List Char :=
  ((pieces ['/'] path.toList).filter fun part => part ≠ [] && part ≠ ['.']).getLastD []

/-- `text.rsplit(".", 1)[0]` -/
def beforeLastDot (text : List Char) : List Char :=
  match text.reverse.dropWhile (· != '.') with
  | [] => text
  | _ :: rest => rest.reverse

/-- `f.split("/")[-1].rsplit(".", 1)[0]` -/
def moduleName (path : String) : List Char :=
  beforeLastDot (lastPiece ['/'] path.toList)

/-- `any(part in Path(f).name for part in ("test", "spec", "Test"))` -/
def namedAsTest (path : String) : Bool :=
  ["test", "spec", "Test"].any fun part => hasText part.toList (pathName path)

/-! ## Conventions -/

/-- A file of the checkout, when `_infer_conventions` reads it. -/
inductive CheckoutFile
  | absent
  /-- `read_text` raises an `OSError` -/
  | unreadable
  | text (content : String)
  deriving DecidableEq, Repr

/-- `_checkout` -/
abbrev CheckoutFiles : Type := String → CheckoutFile

/-- A character that ends a line of `str.splitlines`. -/
def endsLine (c : Char) : Bool :=
  let n := c.toNat
  (10 ≤ n && n ≤ 13) || (28 ≤ n && n ≤ 30) || n == 0x85 || n == 0x2028 || n == 0x2029

/-- `text.splitlines()` -/
def splitLines : List Char → List (List Char)
  | [] => []
  | '\r' :: '\n' :: cs => [] :: splitLines cs
  | c :: cs =>
    if endsLine c then [] :: splitLines cs
    else
      match splitLines cs with
      | [] => [[c]]
      | line :: lines => (c :: line) :: lines

/-- `re.search(r"test|pytest|jest|spec", line, re.IGNORECASE)` -/
def speaksOfTests (line : List Char) : Bool :=
  searchIgnoreCase ["test", "pytest", "jest", "spec"] (String.ofList line)

/-- What one file adds to the conventions. -/
def conventionsOf (checkout : CheckoutFiles) (name : String) : List String :=
  match checkout name with
  | .absent => []
  | .unreadable => []
  | .text content =>
    ((splitLines content.toList).filter speaksOfTests).map fun line =>
      name ++ ": " ++ String.ofList ((strip line).take 120)

/-- `_infer_conventions` -/
def inferConventions (checkout : CheckoutFiles) : List String :=
  (["AGENTS.md", "CONTRIBUTING.md", "README.md"].flatMap (conventionsOf checkout)).take 10

/-! ## `validate` -/

/-- `PrContext`, as far as `validate` reads it. -/
structure PrContext where
  diffFiles : List String
  deriving DecidableEq, Repr

/-- `ComplianceReport`, with what `to_findings` does not read. -/
structure FullReport extends ComplianceReport where
  addedTestFiles : List String := []
  conventions : List String := []
  deriving DecidableEq, Repr

/-- `_changed_modules_without_tests` -/
def changedModulesWithoutTests (diffFiles addedTests : List String) : List String :=
  diffFiles.filter fun f =>
    !(isTestFile f || !isModuleFile f) &&
      !(addedTests.any fun t => hasText (moduleName f) t.toList)

/-- `f"{f}: test file name does not match inferred conventions"` -/
def violationText (path : String) : String :=
  path ++ ": test file name does not match inferred conventions"

/-- `_find_violations` -/
def findViolations (diffFiles conventions : List String) : List String :=
  (diffFiles.filter fun f => (isTestFile f && !conventions.isEmpty) && !namedAsTest f).map
    violationText

/-- `validate` -/
def validate (checkout : CheckoutFiles) (ctx : PrContext) : FullReport :=
  let addedTests := ctx.diffFiles.filter isTestFile
  let conventions := inferConventions checkout
  { addedTestFiles := addedTests
    conventions := conventions
    missingCoverage := changedModulesWithoutTests ctx.diffFiles addedTests
    violations := findViolations ctx.diffFiles conventions }

/-- `validate_compliance` -/
def validateCompliance (addedTests conventions : List String) : List ParsedFinding :=
  (addedTests.filter fun f => !conventions.isEmpty && !namedAsTest f).map fun f =>
    { path := f, line := .scalar .null, severity := .low,
      title := "Test file name violates repo conventions", detail := "", type := "compliance" }

end PrReviewer.Model
