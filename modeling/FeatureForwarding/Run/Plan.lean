import FeatureForwarding.Discovery
import FeatureForwarding.Forwarding.Repair
import FeatureForwarding.Lint.CanonicalForm
import FeatureForwarding.Registry.Snapshot
import FeatureForwarding.Run.Report

/-! What a run is going to do. The four operations read the tree first and decide everything;
a plan holds the report so far and the texts that are to be written. A failure here leaves
nothing to write. -/

namespace FeatureForwarding

open Files (Path Tree)

/-- An empty list of switches stands for all of them. -/
structure Options where
  package : Option String := none
  switches : List Switch := Switch.all
  snapshot : Option Path := none
  snapshotOnly : Bool := false
  deriving DecidableEq, Inhabited

namespace Options

def effectiveSwitches (options : Options) : List Switch :=
  if options.switches.isEmpty then Switch.all else options.switches

def selects (options : Options) (package : Option String) : Bool :=
  match options.package with
  | none => true
  | some wanted => package == some wanted

end Options

/-- Why a run stopped before it was done. -/
inductive Failure where
  | snapshotMissing
  | discovery (cause : Discovery.Failure)
  | snapshot (cause : Registry.SnapshotFailure)
  | writing (snapshot : Path) (cause : String)

def Failure.message : Failure → String
  | .snapshotMissing => "--registry-only needs a registry snapshot (--registry)"
  | .discovery cause => cause.message
  | .snapshot cause => cause.message
  | .writing path cause => s!"writing snapshot {path.text}: {cause}"

/-- Why a manifest takes no part in a run. -/
inductive LoadFailure where
  | unreadable (path : Path)
  | malformed (path : Path)
  deriving DecidableEq, Inhabited

def LoadFailure.message : LoadFailure → String
  | .unreadable path => s!"unable to read {path.text}"
  | .malformed path => s!"unable to parse {path.text}"

namespace Manifest

def load (t : Tree) (path : Path) : Except LoadFailure Manifest :=
  match t.readText? path with
  | none => .error (.unreadable path)
  | some text =>
    match read? path text with
    | none => .error (.malformed path)
    | some m => .ok m

def loadAll (t : Tree) : List Path → List Manifest × Diagnostics
  | [] => ([], [])
  | path :: rest =>
    let later := loadAll t rest
    match load t path with
    | .ok m => (m :: later.1, later.2)
    | .error cause => (later.1, ⟨path, .parseFailure cause.message⟩ :: later.2)

end Manifest

/-- What is to be done with one manifest. -/
structure Task where
  path : Path
  /-- The new text; none where nothing is to be written. -/
  text : Option String
  /-- Whether the manifest is to be reported as skipped instead. -/
  isSkipped : Bool
  deriving DecidableEq, Inhabited

namespace Task

/-- A manifest is written if its text changed, but never over comments. -/
def ofManifest (m : Manifest) : Task :=
  if !m.isModified then ⟨m.path, none, false⟩
  else if m.hasComments then ⟨m.path, none, true⟩
  else ⟨m.path, some m.render, false⟩

/-- Manifests with comments are skipped without a look at their layout. -/
def ofLint (standards : Standards) (m : Manifest) : Task :=
  if m.hasComments then ⟨m.path, none, true⟩ else ofManifest (m.normalize standards)

end Task

structure Plan where
  report : Report
  tasks : List Task := []
  snapshot : Option (Path × String) := none

namespace Plan

structure Scan where
  manifests : List Manifest
  registry : Registry
  diagnostics : Diagnostics

/-- The registry before the scan. -/
def seed (t : Tree) (options : Options) : Except Failure Registry :=
  match options.snapshot with
  | none => .ok .empty
  | some path =>
    match Registry.restoreSnapshot t path with
    | .ok r => .ok r
    | .error cause => .error (.snapshot cause)

def discover (t : Tree) (root : Path) : Except Failure (List Path) :=
  match Discovery.manifests t root with
  | .ok paths => .ok paths
  | .error cause => .error (.discovery cause)

def scan (t : Tree) (root : Path) (options : Options) : Except Failure Scan := do
  if options.snapshotOnly && options.snapshot.isNone then .error .snapshotMissing
  else
    let paths ← discover t root
    let (manifests, unread) := Manifest.loadAll t paths
    let registry ← seed t options
    if options.snapshotOnly then .ok ⟨manifests, registry, unread⟩
    else
      let (registry, duplicates) := registry.scan manifests
      .ok ⟨manifests, registry, unread ++ duplicates⟩

namespace Scan

def selected (s : Scan) (options : Options) : List Manifest :=
  s.manifests.filter fun m => options.selects m.packageName?

def report (s : Scan) : Report :=
  { diagnostics := s.diagnostics, scanned := s.manifests.length, packages := s.registry.facts.size }

end Scan

/-- Reports what is missing and writes nothing. -/
def check (t : Tree) (root : Path) (options : Options) : Except Failure Plan := do
  let s ← scan t root options
  let selected := s.selected options
  let found := selected.flatMap (Forwarding.check s.registry options.effectiveSwitches)
  .ok { report := { s.report with diagnostics := s.diagnostics ++ found, checked := selected.length } }

/-- Repairs what can be repaired and writes the manifests that changed. -/
def write (t : Tree) (root : Path) (options : Options) : Except Failure Plan := do
  let s ← scan t root options
  let selected := s.selected options
  let settled := Forwarding.settle options.effectiveSwitches s.registry selected
  .ok {
    report := { s.report with diagnostics := s.diagnostics ++ settled.report, checked := selected.length }
    tasks := settled.manifests.map Task.ofManifest }

/-- Writes the registry of the tree to a snapshot. -/
def save (t : Tree) (root output : Path) (options : Options) : Except Failure Plan := do
  let s ← scan t root options
  .ok { report := s.report, snapshot := some (output, Registry.snapshotText s.registry.facts) }

/-- Brings every manifest into canonical form. -/
def lint (t : Tree) (root : Path) (standards : Standards) : Except Failure Plan := do
  let paths ← discover t root
  let (manifests, unread) := Manifest.loadAll t paths
  .ok {
    report := {
      diagnostics := unread
      scanned := manifests.length
      checked := manifests.countP (!·.hasComments) }
    tasks := manifests.map (Task.ofLint standards) }

/-- The report once the outcomes of the tasks are known. -/
def reportWith (plan : Plan) (outcomes : List Outcome) : Report :=
  (plan.tasks.zip outcomes).foldl (fun report (task, outcome) => report.record task.path outcome) plan.report

end Plan

end FeatureForwarding
