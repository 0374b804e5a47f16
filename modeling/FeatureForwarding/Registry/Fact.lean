import FeatureForwarding.Manifest

/-! What is known about the features of one package. A direct fact comes from the package's
own manifest and lists all its features; an indirect one is inferred from other manifests
and lists only switches. -/

namespace FeatureForwarding

/-- The used features are those whose lists activate something. -/
structure Fact where
  name : String
  version : Option String
  features : List String
  usedFeatures : List String
  direct : Bool
  deriving DecidableEq, Inhabited

namespace Fact

/-- A package that so far was only seen as a dependency. -/
def placeholder (name : String) : Fact := ⟨name, none, [], [], false⟩

def addNew (names : List String) (name : String) : List String :=
  if name ∈ names then names else names ++ [name]

def declare (fact : Fact) (feature : String × List String) : Fact :=
  { fact with
    features := addNew fact.features feature.1
    usedFeatures := if feature.2.isEmpty then fact.usedFeatures else addNew fact.usedFeatures feature.1 }

/-- Manifests without a package name, such as those of workspaces, state no fact. -/
def ofManifest? (m : Manifest) : Option Fact :=
  m.packageName?.map fun name => m.features.foldl declare ⟨name, m.packageVersion?, [], [], true⟩

def exposes (fact : Fact) (s : Switch) : Bool := fact.features.contains s.name

def uses (fact : Fact) (s : Switch) : Bool := fact.usedFeatures.contains s.name

/-- Takes in that some manifest hands the switch on to this package. -/
def observe (fact : Fact) (s : Switch) : Fact :=
  { fact with
    features := addNew fact.features s.name
    usedFeatures := addNew fact.usedFeatures s.name }

end Fact

end FeatureForwarding
