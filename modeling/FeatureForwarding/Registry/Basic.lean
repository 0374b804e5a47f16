import FeatureForwarding.Finding
import FeatureForwarding.NameMap
import FeatureForwarding.Registry.Fact

/-! The registry: facts about packages by name. A scan first takes up what manifests state
about their own packages and then infers facts about the others from what is forwarded to
them; a direct fact is closed to inference. -/

namespace FeatureForwarding

open Files (Path)

/-- `definedIn` names the manifest behind each direct fact of this run; facts from a snapshot
are not in it and give way to the first manifest that defines them. -/
structure Registry where
  facts : NameMap Fact
  definedIn : NameMap Path
  deriving Inhabited

namespace Registry

def empty : Registry := ⟨.empty, .empty⟩

def get? (r : Registry) (name : String) : Option Fact := r.facts.get? name

def uses (r : Registry) (name : String) (s : Switch) : Bool :=
  (r.get? name).any (·.uses s)

/-- A definition that a manifest gives of its package. -/
structure Definition where
  fact : Fact
  path : Path
  deriving DecidableEq, Inhabited

def Definition.ofManifest? (m : Manifest) : Option Definition :=
  (Fact.ofManifest? m).map (⟨·, m.path⟩)

def define (r : Registry) (d : Definition) : Registry :=
  ⟨r.facts.insert d.fact.name d.fact, r.definedIn.insert d.fact.name d.path⟩

inductive Recording where
  | noPackage
  | recorded
  /-- The package was defined in this run before, and that definition stays. -/
  | duplicate (first : Path)
  deriving DecidableEq, Inhabited

def install (r : Registry) (d : Definition) : Recording × Registry :=
  match r.definedIn.get? d.fact.name with
  | some first => (.duplicate first, r)
  | none => (.recorded, r.define d)

def recordDirect (r : Registry) (m : Manifest) : Recording × Registry :=
  match Definition.ofManifest? m with
  | some d => r.install d
  | none => (.noPackage, r)

/-- Reads the fact of an edited manifest again, unless another manifest defined the package. -/
def refreshDirect (r : Registry) (m : Manifest) : Registry :=
  match Definition.ofManifest? m with
  | none => r
  | some d =>
    if (r.definedIn.get? d.fact.name).any fun first => !decide (first.Same d.path) then r
    else r.define d

/-- The switches that a manifest hands on to a dependency. -/
def observed (m : Manifest) (d : Dependency) : List Switch :=
  Switch.all.filter fun s => m.forwards s d.key

def inferDependency (m : Manifest) (r : Registry) (d : Dependency) : Registry :=
  let known := (r.get? d.package).getD (Fact.placeholder d.package)
  let fact := if known.direct then known else (observed m d).foldl Fact.observe known
  { r with facts := r.facts.insert d.package fact }

/-- Every dependency is taken up; those without a direct fact learn from what is forwarded. -/
def recordIndirect (r : Registry) (m : Manifest) : Registry :=
  m.dependencies.foldl (inferDependency m) r

def duplicate (d : Definition) (first : Path) : Diagnostic :=
  ⟨d.path, .duplicatePackage d.fact.name first⟩

/-- The first definition of each package in order, and a diagnostic for every later one. -/
def definitionsFrom (found : List Definition) : List Manifest → List Definition × Diagnostics
  | [] => (found, [])
  | m :: rest =>
    match Definition.ofManifest? m with
    | none => definitionsFrom found rest
    | some d =>
      match found.find? (·.fact.name = d.fact.name) with
      | none => definitionsFrom (found ++ [d]) rest
      | some first =>
        let later := definitionsFrom found rest
        (later.1, duplicate d first.path :: later.2)

def installAll (r : Registry) : List Definition → Registry × Diagnostics
  | [] => (r, [])
  | d :: rest =>
    match r.install d with
    | (.duplicate first, r) =>
      let later := installAll r rest
      (later.1, duplicate d first :: later.2)
    | (_, r) => installAll r rest

/-- All definitions are installed before anything is inferred. -/
def scan (r : Registry) (ms : List Manifest) : Registry × Diagnostics :=
  let definitions := definitionsFrom [] ms
  let installed := r.installAll definitions.1
  (ms.foldl recordIndirect installed.1, definitions.2 ++ installed.2)

/-- Why a set of facts is no registry. -/
inductive Inconsistency where
  | misnamed (entry name : String)
  | unexposed (entry feature : String)
  deriving DecidableEq

def Inconsistency.message : Inconsistency → String
  | .misnamed entry name => s!"snapshot entry '{entry}' names package '{name}'"
  | .unexposed entry feature => s!"snapshot entry '{entry}' uses feature '{feature}' it does not expose"

def entryInconsistency? (entry : String × Fact) : Option Inconsistency :=
  if entry.1 ≠ entry.2.name then some (.misnamed entry.1 entry.2.name)
  else (entry.2.usedFeatures.find? (!entry.2.features.contains ·)).map (.unexposed entry.1)

/-- A registry with facts from an earlier run. -/
def restore (facts : NameMap Fact) : Except Inconsistency Registry :=
  match facts.entries.findSome? entryInconsistency? with
  | some fault => .error fault
  | none => .ok ⟨facts, .empty⟩

end Registry

end FeatureForwarding
