import FeatureForwarding.Finding

/-! The report of a run: its diagnostics and how many manifests it dealt with. What became of
a manifest that was to be written is added afterwards. -/

namespace FeatureForwarding

open Files (Path)

/-- What became of a manifest: its text was up to date, was written, was left alone for its
comments, or could not be written for the reason given. -/
inductive Outcome where
  | unchanged
  | written
  | skippedCommented
  | failed (message : String)
  deriving DecidableEq, Inhabited

namespace Outcome

/-- What is reported about a manifest that was not written. -/
def findings : Outcome → List Finding
  | .unchanged | .written => []
  | .skippedCommented => [.skippedCommented]
  | .failed message => [.writeFailure message]

/-- Whether repairs made in memory are on the disk. -/
def isOnDisk : Outcome → Bool
  | .unchanged | .written => true
  | .skippedCommented | .failed _ => false

end Outcome

/-- `scanned` manifests could be read and `checked` ones were looked at; `packages` counts the
registry. -/
structure Report where
  diagnostics : Diagnostics := []
  scanned : Nat := 0
  checked : Nat := 0
  written : Nat := 0
  skipped : Nat := 0
  packages : Nat := 0
  deriving Inhabited

namespace Report

/-- Repairs that did not reach the disk are taken back. -/
def record (report : Report) (path : Path) (outcome : Outcome) : Report :=
  let diagnostics := report.diagnostics ++ outcome.findings.map (⟨path, ·⟩)
  { report with
    diagnostics := if outcome.isOnDisk then diagnostics else Diagnostics.revertRepairs diagnostics path
    written := report.written + (if outcome = .written then 1 else 0)
    skipped := report.skipped + (if outcome = .skippedCommented then 1 else 0) }

def hasOutstandingErrors (report : Report) : Bool := report.diagnostics.hasOutstandingErrors

end Report

end FeatureForwarding
