import FeatureForwarding.Dependency
import FeatureForwarding.Files.Path
import FeatureForwarding.Switch
import FeatureForwarding.Toml.Printer
import FeatureForwarding.Toml.Reader

/-! Manifests: documents that describe a package. What does not have the expected shape
tells nothing. A manifest keeps the text it was read from, so that a change shows; the
only change made here appends an entry to a feature list. -/

namespace FeatureForwarding

open Toml (Key Item Value Table Document)
open Files (Path)

structure Manifest where
  path : Path
  source : String
  document : Document

namespace Manifest

def read? (path : Path) (source : String) : Option Manifest :=
  (Document.read? source).map fun document => ⟨path, source, document⟩

def render (m : Manifest) : String := m.document.print

def isModified (m : Manifest) : Bool := m.render != m.source

/-- A manifest with a comment marker anywhere is never written. -/
def hasComments (m : Manifest) : Bool := m.source.toList.contains '#'

def item? (m : Manifest) (name : String) : Option Item :=
  Toml.find? name m.document.root.entries

def packageField? (m : Manifest) (field : String) : Option String := do
  let fields ← (m.item? "package").bind Item.tableLike?
  (Toml.find? field fields).bind Item.text?

def packageName? (m : Manifest) : Option String := m.packageField? "name"

/-- A version that is inherited from the workspace is not known here. -/
def packageVersion? (m : Manifest) : Option String := m.packageField? "version"

/-- The name used in messages. -/
def displayName (m : Manifest) : String := m.packageName?.getD m.path.text

def featureItems (m : Manifest) : List (Key × Item) :=
  ((m.item? "features").bind Item.tableLike?).getD []

/-- The texts in a feature list; what is no list has none. -/
def activations (item : Item) : List String :=
  (item.array?.getD []).filterMap Value.text?

def features (m : Manifest) : List (String × List String) :=
  m.featureItems.map fun (key, item) => (key.name, activations item)

def exposes (m : Manifest) (feature : String) : Bool :=
  Toml.hasKey feature m.featureItems

/-- A package can do without the standard library if it has a feature for it. -/
def isNoStd (m : Manifest) : Bool := m.exposes Switch.std.name

def forwards (m : Manifest) (s : Switch) (dependency : String) : Bool :=
  match Toml.find? s.name m.featureItems with
  | some item => (activations item).contains (s.token dependency)
  | none => false

/-- The entries of the dependency table, then those of each target in order. -/
def dependencies (m : Manifest) : List Dependency :=
  let plain := ((m.item? "dependencies").bind Item.tableLike?).getD []
  let targets := ((m.item? "target").bind Item.tableLike?).getD []
  Dependency.ofEntries none plain ++ targets.flatMap fun (key, target) =>
    let entries := do
      let fields ← target.tableLike?
      (Toml.find? "dependencies" fields).bind Item.tableLike?
    Dependency.ofEntries (some key.name) (entries.getD [])

/-- A new element stands like the last one if that has a line of its own. -/
def newElementDecor (elements : List Value) : Toml.Decor :=
  match elements.getLast? with
  | none => ⟨some "", some ""⟩
  | some last =>
    if last.decor.before.any (·.toList.contains '\n') then last.decor else ⟨some " ", some ""⟩

def appendText? (content : String) : Value → Option Value
  | .array decor elements comma trailing =>
    let new := (Value.ofText content).withDecor (newElementDecor elements)
    some (.array decor (elements ++ [new]) comma trailing)
  | _ => none

/-- A list that is not there yet is created. -/
def extendList? (content : String) : Option Value → Option Value
  | none => appendText? content (.array {} [] false "")
  | some v => appendText? content v

def extendListItem? (content : String) : Option Item → Option Item
  | none => (extendList? content none).map .value
  | some (.value v) => (extendList? content (some v)).map .value
  | some _ => none

/-- Appends to the list of a feature, in a table of either form. -/
def extendFeature? (feature content : String) : Option Item → Option Item
  | none => (Toml.revise? (Key.new feature) (extendListItem? content) []).map fun entries =>
    .table (Table.new.withEntries entries)
  | some (.table t) => (Toml.revise? (Key.new feature) (extendListItem? content) t.entries).map fun entries =>
    .table (t.withEntries entries)
  | some (.value (.inline decor dotted preamble entries)) =>
    (Toml.revise? (Key.new feature) (extendList? content) entries).map fun entries =>
      .value (.inline decor dotted preamble entries)
  | some _ => none

/-- Hands the switch on to the dependency. Nothing is returned if the manifest does so
already or its feature table cannot take the entry. -/
def addForwarding? (m : Manifest) (s : Switch) (dependency : String) : Option Manifest :=
  if m.forwards s dependency then none
  else
    let root := m.document.root
    let extended := Toml.revise? (Key.new "features")
      (extendFeature? s.name (s.token dependency)) root.entries
    extended.map fun entries => { m with document := { m.document with root := root.withEntries entries } }

end Manifest

end FeatureForwarding
