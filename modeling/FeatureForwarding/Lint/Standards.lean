import FeatureForwarding.Toml.Basic

/-! Literal values that every package states. A field that is missing or holds another
string is set; anything else, such as a field inherited from the workspace, stays. -/

namespace FeatureForwarding

structure Standards where
  edition : String := "2021"
  homepage : String := "https://substrate.io"
  deriving DecidableEq, Inhabited

namespace Standards

open Toml (Key Item Value Table)

def isNeeded (wanted : String) (current : Option Item) : Bool :=
  match current with
  | none => true
  | some item => item.text?.any (· != wanted)

/-- Sets one field of a table in either form. -/
def setField (field wanted : String) : Item → Item
  | .table t =>
    if isNeeded wanted (Toml.find? field t.entries) then
      .table (t.withEntries (Toml.put field (.value (Value.ofText wanted)) t.entries))
    else .table t
  | .value (.inline decor dotted preamble entries) =>
    if isNeeded wanted ((Toml.find? field entries).map .value) then
      .value (.inline decor dotted preamble (Toml.put field (Value.ofText wanted) entries))
    else .value (.inline decor dotted preamble entries)
  | item => item

def setFields (standards : Standards) (package : Item) : Item :=
  setField "homepage" standards.homepage (setField "edition" standards.edition package)

def apply (standards : Standards) (root : Table) : Table :=
  root.withEntries (Toml.modify "package" (setFields standards) root.entries)

end Standards

end FeatureForwarding
