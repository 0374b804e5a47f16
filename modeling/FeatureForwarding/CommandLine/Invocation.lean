import FeatureForwarding.CommandLine.Arguments
import FeatureForwarding.Json.Printer
import FeatureForwarding.Run.Operation

/-! Invocations of the program: what the arguments ask for, and what it prints. Diagnostics go
to the error output, a line each and a summary, or as JSON to the standard output. -/

namespace FeatureForwarding.CommandLine

open Files (Path Tree)

inductive OutputFormat where
  | text
  | json
  deriving DecidableEq, Inhabited

def OutputFormat.name : OutputFormat → String
  | .text => "text"
  | .json => "json"

/-- The switches to check are still to be read from their list. -/
structure CheckRequest where
  path : Path
  package : Option String
  features : Option String
  snapshot : Option Path
  snapshotOnly : Bool
  deny : Bool
  deriving DecidableEq, Inhabited

def CheckRequest.options (request : CheckRequest) : Except Switch.Unknown Options :=
  (Switch.readList (request.features.getD "")).map fun switches =>
    ⟨request.package, switches, request.snapshot, request.snapshotOnly⟩

inductive Request where
  | check (request : CheckRequest)
  | write (request : CheckRequest)
  | save (path output : Path)
  | lint (path : Path) (standards : Standards)
  deriving DecidableEq, Inhabited

structure Invocation where
  format : OutputFormat
  request : Request
  deriving DecidableEq, Inhabited

namespace Invocation

def defaultSnapshot : Path := ⟨"feature-registry.json"⟩

def checkRequest (path : Path) (given : Reading) : CheckRequest where
  path
  package := given.value? "package"
  features := given.value? "features"
  snapshot := (given.value? "registry").map Files.Path.mk
  snapshotOnly := given.has "registry-only"
  deny := given.has "deny"

def requestOf (subcommand : String) (given : Reading) : Request :=
  let path : Path := ⟨(given.value? pathOperand).getD ""⟩
  if subcommand = "save" then
    .save path (((given.value? "output").map Files.Path.mk).getD defaultSnapshot)
  else if subcommand = "lint" then
    let standards : Standards := {}
    .lint path ⟨(given.value? "edition").getD standards.edition,
      (given.value? "homepage").getD standards.homepage⟩
  else if subcommand = "write" then .write (checkRequest path given)
  else .check (checkRequest path given)

/-- The format given behind the subcommand counts before the one in front of it. -/
def formatOf (call : Call) : OutputFormat :=
  if (call.given.value? formatOption.name <|> call.program.value? formatOption.name) = some "json" then .json
  else .text

def read (env : List (String × String)) (args : List String) : Except Refusal Invocation :=
  (Call.read env args).map fun call => ⟨formatOf call, requestOf call.subcommand call.given⟩

end Invocation

/-- What the program prints and the status it ends with. -/
structure Transcript where
  standardOutput : String := ""
  errorLines : List String := []
  exitCode : Nat := 0
  deriving DecidableEq, Inhabited

namespace Transcript

/-- The status of a run that stopped before it was done. -/
def ofFailure (message : String) : Transcript :=
  { errorLines := [message], exitCode := 1 }

end Transcript

namespace Request

def operation (request : Request) : Except Switch.Unknown Operation :=
  match request with
  | .check r => r.options.map (.check r.path)
  | .write r => r.options.map (.write r.path)
  | .save path output => .ok (.save path output {})
  | .lint path standards => .ok (.lint path standards)

def denies : Request → Bool
  | .check r => r.deny
  | .write r => r.deny
  | .save _ _ => false
  | .lint _ _ => false

def verb : Request → String
  | .check _ => "checked"
  | .write _ => "checked"
  | .save _ _ => "scanned"
  | .lint _ _ => "linted"

def summary (request : Request) (report : Report) : String :=
  let ds := report.diagnostics
  let repaired := Diagnostics.repairedCount ds
  s!"{request.verb} {report.checked} of {report.scanned} manifests: "
    ++ s!"{Diagnostics.count ds .error} errors, {Diagnostics.count ds .warning} warnings, "
    ++ s!"{Diagnostics.count ds .advisory} advisories"
    ++ (if repaired > 0 then s!", {repaired} fixed" else "")
    ++ (if report.written > 0 then s!", {report.written} files written" else "")
    ++ (if report.skipped > 0 then s!", {report.skipped} skipped" else "")

def notice (request : Request) (report : Report) : List String :=
  match request with
  | .save _ output => [s!"saved {report.packages} packages to {output.text}"]
  | _ => []

end Request

namespace Invocation

def transcript (invocation : Invocation) (report : Report) : Transcript :=
  let request := invocation.request
  let notice := request.notice report
  let exitCode := if request.denies && report.hasOutstandingErrors then 2 else 0
  match invocation.format with
  | .text =>
    { errorLines := notice ++ report.diagnostics.map Diagnostic.text ++ [request.summary report]
      exitCode }
  | .json =>
    { standardOutput := (Diagnostics.toJson report.diagnostics).pretty ++ "\n"
      errorLines := notice
      exitCode }

/-- Runs on a tree; a run that fails leaves it as it was. -/
def run (invocation : Invocation) (t : Tree) : Transcript × Tree :=
  match invocation.request.operation with
  | .error unknown => (.ofFailure unknown.listMessage, t)
  | .ok operation =>
    match operation.run t with
    | .error failure => (.ofFailure failure.message, t)
    | .ok (report, t) => (invocation.transcript report, t)

end Invocation

end FeatureForwarding.CommandLine
