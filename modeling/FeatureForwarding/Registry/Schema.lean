import FeatureForwarding.Json.Printer

/-! The schema of snapshots: an object from package names to facts, which state their name, two
lists of distinct features and whether they are direct, may state a version, and hold nothing
else. A value that breaks the rules is answered by the list of all its faults, each with the
place where it was found. -/

namespace FeatureForwarding.Registry.Schema

inductive Fault where
  | wrongType (value : Json) (expected : String)
  | wrongTypes (value : Json) (expected : List String)
  | tooShort (value : Json)
  | repeated (value : Json)
  | missing (field : String)
  | unexpected (fields : List String)

namespace Fault

def quoted (mark text : String) : String := mark ++ text ++ mark

def text : Fault → String
  | .wrongType value expected => value.compact ++ " is not of type " ++ quoted "\"" expected
  | .wrongTypes value expected =>
    value.compact ++ " is not of types " ++ ", ".intercalate (expected.map (quoted "\""))
  | .tooShort value => value.compact ++ " is shorter than 1 character"
  | .repeated value => value.compact ++ " has non-unique elements"
  | .missing field => quoted "\"" field ++ " is a required property"
  | .unexpected fields =>
    "Additional properties are not allowed (" ++ ", ".intercalate (fields.map (quoted "'"))
      ++ (if fields.length = 1 then " was unexpected)" else " were unexpected)")

end Fault

/-- A fault and the names and indices that lead to it. -/
structure Violation where
  place : List String
  fault : Fault

namespace Violation

/-- Slashes separate the parts of a place, so that those inside of names are escaped. -/
def escapePart (part : String) : String :=
  String.ofList (part.toList.flatMap fun c =>
    if c = '~' then ['~', '0'] else if c = '/' then ['~', '1'] else [c])

def text (v : Violation) : String :=
  String.join (v.place.map fun part => "/" ++ escapePart part) ++ ": " ++ v.fault.text

end Violation

def isText : Json → Bool
  | .string _ => true
  | _ => false

def checkName (place : List String) : Json → List Violation
  | .string content => if content.isEmpty then [⟨place, .tooShort (.string content)⟩] else []
  | value => [⟨place, .wrongType value "string"⟩]

def checkVersion (place : List String) : Json → List Violation
  | .null | .string _ => []
  | value => [⟨place, .wrongTypes value ["null", "string"]⟩]

def checkElementsFrom (place : List String) (index : Nat) : List Json → List Violation
  | [] => []
  | value :: rest =>
    (if isText value then [] else [⟨place ++ [toString index], .wrongType value "string"⟩])
      ++ checkElementsFrom place (index + 1) rest

def areDistinctBy (same : Json → Json → Bool) : List Json → Bool
  | [] => true
  | value :: rest => !rest.any (same value) && areDistinctBy same rest

/-- Lists of at most this length are short. -/
def shortLength : Nat := 15

/-- The elements of a short list are compared by value and those of a longer one by form. -/
def areDistinct (elements : List Json) : Bool :=
  areDistinctBy (if elements.length ≤ shortLength then Json.sameValue else Json.sameForm) elements

def checkList (place : List String) : Json → List Violation
  | .array elements =>
    checkElementsFrom place 0 elements
      ++ (if areDistinct elements then [] else [⟨place, .repeated (.array elements)⟩])
  | value => [⟨place, .wrongType value "array"⟩]

def checkDirect (place : List String) : Json → List Violation
  | .boolean _ => []
  | value => [⟨place, .wrongType value "boolean"⟩]

def knownFields : List String := ["name", "version", "features", "used_features", "direct"]

def requiredFields : List String := ["name", "features", "used_features", "direct"]

def checkField (place : List String) (field : String) (value : Json) : List Violation :=
  let place := place ++ [field]
  if field = "name" then checkName place value
  else if field = "version" then checkVersion place value
  else if field = "features" || field = "used_features" then checkList place value
  else if field = "direct" then checkDirect place value
  else []

/-- First the known fields in order, then all unknown ones at once, then the missing ones. -/
def checkFact (place : List String) : Json → List Violation
  | .object members =>
    let unknown := (members.map (·.1)).filter (!knownFields.contains ·)
    (members.flatMap fun (field, value) => checkField place field value)
      ++ (if unknown.isEmpty then [] else [⟨place, .unexpected unknown⟩])
      ++ (requiredFields.filter fun field => (Json.member? field members).isNone).map
          (⟨place, .missing ·⟩)
  | value => [⟨place, .wrongType value "object"⟩]

def violations : Json → List Violation
  | .object members => members.flatMap fun (name, value) => checkFact [name] value
  | value => [⟨[], .wrongType value "object"⟩]

end FeatureForwarding.Registry.Schema
