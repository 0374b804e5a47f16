import FeatureForwarding.Text.Order
import FeatureForwarding.Toml.Basic

/-! The order of dependency sections. Empty sections go; an entry that is a table of its
own becomes an inline table; entries from the workspace, which have a path, follow the
others, each group by name; and the keys of an inline entry come in a fixed order. -/

namespace FeatureForwarding.Lint

open Toml (Key Item Value Table)

def dependencySections : List String := ["dependencies", "dev-dependencies"]

/-- The keys of an entry in order; unknown keys follow by name. -/
def fieldOrder : List String :=
  ["package", "version", "default-features", "features", "optional", "path"]

/-- Drops the text around keys and values, so that an inline table is written plainly. -/
def unsetDecor (entries : List (Key × Value)) : List (Key × Value) :=
  entries.map fun (key, v) => ({ key with decor := {}, dotDecor := {} }, v.withDecor {})

/-- Separates the elements of an array by single blanks. -/
def spaceElements : List Value → List Value
  | [] => []
  | v :: vs => v.withDecor ⟨some "", some ""⟩ :: vs.map (Value.withDecor ⟨some " ", some ""⟩)

mutual

/-- Tables become inline tables and arrays of tables become arrays, at every depth. -/
def inlineItem : Item → Value
  | .value v => v
  | .table t => inlineTable t
  | .tables ts => .array {} (spaceElements (inlineTables ts)) false ""
  termination_by structural item => item

def inlineTable : Table → Value
  | ⟨_, _, _, entries⟩ => .inline {} false "" (unsetDecor (inlineEntries entries))
  termination_by structural t => t

def inlineTables : List Table → List Value
  | [] => []
  | t :: ts => inlineTable t :: inlineTables ts
  termination_by structural ts => ts

def inlineEntries : List (Key × Item) → List (Key × Value)
  | [] => []
  | (key, item) :: rest => (key, inlineItem item) :: inlineEntries rest
  termination_by structural entries => entries

end

/-- The key of a converted entry stood in a header before. -/
def inlineSection : List (Key × Item) → List (Key × Item)
  | [] => []
  | (key, .table t) :: rest => ({ key with decor := {} }, .value (inlineTable t)) :: inlineSection rest
  | entry :: rest => entry :: inlineSection rest

def isTable : Item → Bool
  | .table _ => true
  | _ => false

/-- A section that so far was only implied by its entries gets a header. -/
def inlineSubTables (t : Table) : Table :=
  let converted := t.entries.any fun entry => isTable entry.2
  { t with
    origin := if converted && t.origin = .implied then .explicit else t.origin
    entries := inlineSection t.entries }

def hasPath (item : Item) : Bool :=
  item.tableLike?.any (Toml.hasKey "path")

def entryBefore (a b : Key × Item) : Bool :=
  match hasPath a.2, hasPath b.2 with
  | false, true => true
  | true, false => false
  | _, _ => a.1.name < b.1.name

def fieldRank (name : String) : Nat :=
  fieldOrder.findIdx (· == name)

def fieldBefore (a b : Key × Value) : Bool :=
  fieldRank a.1.name < fieldRank b.1.name
    || (fieldRank a.1.name = fieldRank b.1.name && a.1.name < b.1.name)

mutual

/-- Sorts the fields of a table made by dotted keys. -/
def sortDotted : Value → Value
  | .inline decor true preamble entries =>
    .inline decor true preamble (Text.stableSort fieldBefore (sortDottedEntries entries))
  | v => v
  termination_by structural v => v

def sortDottedEntries : List (Key × Value) → List (Key × Value)
  | [] => []
  | (key, v) :: rest => (key, sortDotted v) :: sortDottedEntries rest
  termination_by structural entries => entries

end

def sortFields (entries : List (Key × Value)) : List (Key × Value) :=
  Text.stableSort fieldBefore (sortDottedEntries entries)

/-- A table whose fields were in order keeps its layout. -/
def orderFields : Item → Item
  | .value (.inline decor dotted preamble entries) =>
    let sorted := sortFields entries
    let reordered := sorted.map (·.1.name) != entries.map (·.1.name)
    .value (.inline decor dotted preamble (if reordered then unsetDecor sorted else sorted))
  | item => item

def orderSection (t : Table) : Table :=
  let t := inlineSubTables t
  t.withEntries ((Text.stableSort entryBefore t.entries).map fun (key, item) => (key, orderFields item))

def orderSectionAt (root : Table) (name : String) : Table :=
  match Toml.find? name root.entries with
  | some (.table t) =>
    if t.entries.isEmpty then root.withEntries (Toml.erase name root.entries)
    else root.withEntries (Toml.modify name (fun _ => .table (orderSection t)) root.entries)
  | _ => root

def orderDependencies (root : Table) : Table :=
  dependencySections.foldl orderSectionAt root

end FeatureForwarding.Lint
