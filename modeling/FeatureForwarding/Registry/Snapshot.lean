import FeatureForwarding.Files.Tree
import FeatureForwarding.Json.Reader
import FeatureForwarding.Registry.Basic
import FeatureForwarding.Registry.Schema

/-! Snapshots of a registry as JSON text. Reading checks the schema before anything else, so
that a damaged snapshot is answered by all its faults at once; writing lists the packages by
name and the fields of each fact in a fixed order. -/

namespace FeatureForwarding

open Files (Path Tree)

namespace Fact

def toJson (fact : Fact) : Json :=
  .object [("name", .string fact.name),
    ("version", match fact.version with
      | some version => .string version
      | none => .null),
    ("features", .array (fact.features.map .string)),
    ("used_features", .array (fact.usedFeatures.map .string)),
    ("direct", .boolean fact.direct)]

/-- The text of a string. -/
def decodeText? : Json → Option String
  | .string content => some content
  | _ => none

def decodeTexts? : List Json → Option (List String)
  | [] => some []
  | value :: rest => do
    let text ← decodeText? value
    let texts ← decodeTexts? rest
    some (text :: texts)

def decodeVersion? : Option Json → Option (Option String)
  | none | some .null => some none
  | some value => (decodeText? value).map some

def decodeList? : Option Json → Option (List String)
  | none => some []
  | some (.array elements) => decodeTexts? elements
  | some _ => none

def decodeFlag? : Option Json → Option Bool
  | none => some false
  | some (.boolean value) => some value
  | some _ => none

/-- Only the name must be given. -/
def decodeFields? (name version features usedFeatures direct : Option Json) : Option Fact := do
  let name ← name.bind decodeText?
  let version ← decodeVersion? version
  let features ← decodeList? features
  let usedFeatures ← decodeList? usedFeatures
  let direct ← decodeFlag? direct
  some ⟨name, version, features, usedFeatures, direct⟩

/-- A fact is an object, or an array of its fields in order without the last ones. -/
def ofJson? : Json → Option Fact
  | .object members =>
    decodeFields? (Json.member? "name" members) (Json.member? "version" members)
      (Json.member? "features" members) (Json.member? "used_features" members)
      (Json.member? "direct" members)
  | .array elements =>
    if elements.length ≤ 5 then
      decodeFields? elements[0]? elements[1]? elements[2]? elements[3]? elements[4]?
    else none
  | _ => none

end Fact

namespace Registry

def toJson (facts : NameMap Fact) : Json :=
  .object (facts.entries.map fun (name, fact) => (name, fact.toJson))

def decodeEntries? : List (String × Json) → Option (List (String × Fact))
  | [] => some []
  | (name, value) :: rest => do
    let fact ← Fact.ofJson? value
    let facts ← decodeEntries? rest
    some ((name, fact) :: facts)

def ofJson? : Json → Option (NameMap Fact)
  | .object members => (decodeEntries? members).map .ofList
  | _ => none

/-- The text ends with a line end. -/
def snapshotText (facts : NameMap Fact) : String := (toJson facts).pretty ++ "\n"

/-- Why a snapshot cannot be used. -/
inductive SnapshotFailure where
  | reading (path : Path)
  | parsing (path : Path)
  | invalid (path : Path) (faults : List Schema.Violation)
  | decoding (path : Path)
  | inconsistent (fault : Inconsistency)

def SnapshotFailure.message : SnapshotFailure → String
  | .reading path => s!"reading snapshot {path.text}"
  | .parsing path => s!"parsing snapshot {path.text}"
  | .invalid path faults =>
    s!"validating snapshot {path.text}: snapshot failed schema validation:\n"
      ++ "\n".intercalate (faults.map Schema.Violation.text)
  | .decoding path => s!"decoding snapshot {path.text}"
  | .inconsistent fault => fault.message

/-- The facts that a snapshot text states; the path is that of its file. -/
def readSnapshot (path : Path) (text : String) : Except SnapshotFailure (NameMap Fact) :=
  match Json.read? text with
  | none => .error (.parsing path)
  | some value =>
    match Schema.violations value with
    | [] =>
      match ofJson? value with
      | some facts => .ok facts
      | none => .error (.decoding path)
    | faults => .error (.invalid path faults)

def loadSnapshot (t : Tree) (path : Path) : Except SnapshotFailure (NameMap Fact) :=
  match t.readText? path with
  | some text => readSnapshot path text
  | none => .error (.reading path)

/-- A registry that starts from the facts of a snapshot. -/
def restoreSnapshot (t : Tree) (path : Path) : Except SnapshotFailure Registry := do
  let facts ← loadSnapshot t path
  match restore facts with
  | .ok r => .ok r
  | .error fault => .error (.inconsistent fault)

end Registry

end FeatureForwarding
