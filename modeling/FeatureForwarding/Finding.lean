import FeatureForwarding.Files.Path
import FeatureForwarding.Json.Basic
import FeatureForwarding.Switch

/-! Findings and the list of diagnostics that a run collects. Nothing stops at the first
problem; the severity of a finding follows from its kind, and a repaired finding stays in
the list but no longer counts against the run. -/

namespace FeatureForwarding

open Files (Path)

inductive Severity where
  | info
  /-- Probably wrong, but the remedy depends on intent. -/
  | advisory
  | warning
  | error
  deriving DecidableEq, Inhabited

namespace Severity

def all : List Severity := [.info, .advisory, .warning, .error]

def name : Severity → String
  | .info => "info"
  | .advisory => "advisory"
  | .warning => "warning"
  | .error => "error"

def rank : Severity → Nat
  | .info => 0
  | .advisory => 1
  | .warning => 2
  | .error => 3

end Severity

inductive Finding where
  /-- A file that could not be read takes no part in the run. -/
  | parseFailure (message : String)
  | writeFailure (message : String)
  /-- Another manifest gave the name of the package before. -/
  | duplicatePackage (package : String) (first : Path)
  | missingDefaultFeatures (package dependency : String)
  | missingForwarding (package dependency : String) (switch : Switch) (optional repaired : Bool)
  /-- The manifest holds comments and was left as it was. -/
  | skippedCommented
  deriving DecidableEq, Inhabited

namespace Finding

/-- Whether an optional dependency should be enabled is left to its author. -/
def severity : Finding → Severity
  | .parseFailure _ => .error
  | .writeFailure _ => .error
  | .duplicatePackage _ _ => .warning
  | .missingDefaultFeatures _ _ => .error
  | .missingForwarding _ _ _ optional _ => if optional then .advisory else .error
  | .skippedCommented => .info

def isRepaired : Finding → Bool
  | .missingForwarding _ _ _ _ repaired => repaired
  | _ => false

def unrepaired : Finding → Finding
  | .missingForwarding package dependency switch optional _ =>
    .missingForwarding package dependency switch optional false
  | finding => finding

def kind : Finding → String
  | .parseFailure _ => "parse_failure"
  | .writeFailure _ => "write_failure"
  | .duplicatePackage _ _ => "duplicate_package"
  | .missingDefaultFeatures _ _ => "missing_default_features"
  | .missingForwarding .. => "missing_forwarding"
  | .skippedCommented => "skipped_commented"

/-- What a finding tells beside its kind. -/
def fields : Finding → List (String × Json)
  | .parseFailure message => [("message", .string message)]
  | .writeFailure message => [("message", .string message)]
  | .duplicatePackage package first => [("package", .string package), ("first", .string first.text)]
  | .missingDefaultFeatures package dependency =>
    [("package", .string package), ("dependency", .string dependency)]
  | .missingForwarding package dependency switch optional repaired =>
    [("package", .string package), ("dependency", .string dependency), ("switch", .string switch.name),
      ("optional", .boolean optional), ("repaired", .boolean repaired)]
  | .skippedCommented => []

/-- The message of a finding about the file at a path. -/
def message (path : Path) : Finding → String
  | .parseFailure message => message
  | .writeFailure message => message
  | .duplicatePackage package first =>
    s!"Duplicate crate {package} in {path.text} (first defined in {first.text})"
  | .missingDefaultFeatures package dependency =>
    s!"Missing \"default-features = false\" for {dependency} in {package}"
  | .missingForwarding package dependency switch optional repaired =>
    if optional then s!"Maybe missing {switch.name} for optional {dependency} in {package}"
    else s!"Missing {switch.name} for {dependency} in {package}" ++ (if repaired then " (fixed)" else "")
  | .skippedCommented => s!"Skipping {path.text}: file contains comments"

end Finding

structure Diagnostic where
  path : Path
  finding : Finding
  deriving DecidableEq, Inhabited

namespace Diagnostic

def severity (d : Diagnostic) : Severity := d.finding.severity

def isOutstanding (d : Diagnostic) : Bool := !d.finding.isRepaired

def text (d : Diagnostic) : String :=
  d.severity.name ++ ": " ++ d.finding.message d.path

def toJson (d : Diagnostic) : Json :=
  .object ([("path", .string d.path.text), ("severity", .string d.severity.name),
    ("kind", .string d.finding.kind)] ++ d.finding.fields)

end Diagnostic

abbrev Diagnostics := List Diagnostic

namespace Diagnostics

def count (ds : Diagnostics) (severity : Severity) : Nat :=
  ds.countP (·.severity == severity)

def atLeast (ds : Diagnostics) (severity : Severity) : Diagnostics :=
  ds.filter fun d => severity.rank ≤ d.severity.rank

def hasOutstandingErrors (ds : Diagnostics) : Bool :=
  ds.any fun d => d.severity == .error && d.isOutstanding

def repairedCount (ds : Diagnostics) : Nat :=
  ds.countP (!·.isOutstanding)

def keepRepaired (ds : Diagnostics) : Diagnostics :=
  ds.filter (!·.isOutstanding)

/-- Takes back the repairs of a file whose new text never reached the disk. -/
def revertRepairs (ds : Diagnostics) (path : Path) : Diagnostics :=
  ds.map fun d => if d.path.Same path then { d with finding := d.finding.unrepaired } else d

def toJson (ds : Diagnostics) : Json :=
  .array (ds.map Diagnostic.toJson)

end Diagnostics

end FeatureForwarding
