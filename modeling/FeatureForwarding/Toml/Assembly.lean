import FeatureForwarding.Toml.Lexeme

/-! From assignments and sections to trees. Dotted keys and headers make the tables they
lead through, and every place of the tree is defined once: a header may complete a table
that so far was only implied, and a dotted key may extend a table made by dotted keys. -/

namespace FeatureForwarding.Toml

/-- One line `path = value`. -/
structure Assignment where
  path : Lexeme.KeyPath
  value : Value

/-- A header with the lines below it. -/
structure Section where
  isArray : Bool
  path : Lexeme.KeyPath
  decor : Decor
  body : List Assignment

def reviseLast? {α : Type} (f : α → Option α) : List α → Option (List α)
  | [] => none
  | [last] => (f last).map ([·])
  | a :: b :: rest => (reviseLast? f (b :: rest)).map (a :: ·)

/-- A place is defined once. -/
def insertNew? {α : Type} (key : Key) (content : α) (entries : List (Key × α)) :
    Option (List (Key × α)) :=
  revise? key (fun old => if old.isNone then some content else none) entries

namespace Value

/-- Inserts below tables made by dotted keys; at least one key leads there. -/
def assignIn? (last : Key) (v : Value) : List Key → List (Key × Value) → Option (List (Key × Value))
  | [], entries => insertNew? last v entries
  | key :: keys, entries =>
    revise? key (fun
      | none => (assignIn? last v keys []).map (.inline {} true "" ·)
      | some (.inline d true preamble inner) => (assignIn? last v keys inner).map (.inline d true preamble ·)
      | some _ => none) entries

def assignAll? (entries : List (Key × Value)) : List Assignment → Option (List (Key × Value))
  | [] => some entries
  | a :: rest => (assignIn? a.path.last a.value a.path.parents entries).bind fun entries => assignAll? entries rest

end Value

namespace Table

/-- A table on the way to another one. -/
def passage (origin : Origin) : Table := ⟨origin, {}, none, []⟩

/-- Walks down the keys of a header and changes the table at the end. Missing tables are
implied; of an array of tables the last one is meant. -/
def descend? (f : Table → Option Table) : List Key → Table → Option Table
  | [], t => f t
  | key :: keys, t =>
    (revise? key (fun old : Option Item => match old with
      | none => (descend? f keys (passage .implied)).map .table
      | some (.table inner) => (descend? f keys inner).map .table
      | some (.tables ts) => (reviseLast? (descend? f keys) ts).map .tables
      | some (.value _) => none) t.entries).map t.withEntries

/-- Walks down the parents of a dotted key. No table with a header of its own lies on the
way, and the last table was made by dotted keys too. -/
def assignIn? (last : Key) (v : Value) (isBelow : Bool) : List Key → Table → Option Table
  | [], t =>
    if isBelow && t.origin != .dotted then none
    else (insertNew? last (.value v) t.entries).map t.withEntries
  | key :: keys, t =>
    (revise? key (fun old : Option Item => match old with
      | none => (assignIn? last v true keys (passage .dotted)).map .table
      | some (.table inner) =>
        if inner.origin = .explicit then none else (assignIn? last v true keys inner).map .table
      | some (.tables ts) => (reviseLast? (assignIn? last v true keys) ts).map .tables
      | some (.value _) => none) t.entries).map t.withEntries

def assignAll? (t : Table) : List Assignment → Option Table
  | [] => some t
  | a :: rest => (assignIn? a.path.last a.value false a.path.parents t).bind fun t => assignAll? t rest

/-- The table of a section; what headers below it implied before stays in front. -/
def ofSection? (s : Section) (position : Nat) (known : List (Key × Item)) : Option Table :=
  assignAll? ⟨.explicit, s.decor, some position, known⟩ s.body

/-- A single table enters its parent at the end, also where it was implied before. -/
def addSection? (s : Section) (position : Nat) (parent : Table) : Option Table :=
  let key := s.path.last
  if s.isArray then
    (ofSection? s position []).bind fun t =>
      (revise? key (fun old : Option Item => match old with
        | none => some (.tables [t])
        | some (.tables ts) => some (.tables (ts ++ [t]))
        | some _ => none) parent.entries).map parent.withEntries
  else
    match find? key.name parent.entries with
    | none => (ofSection? s position []).map fun t =>
      parent.withEntries (parent.entries ++ [(key, .table t)])
    | some (.table ⟨.implied, _, _, known⟩) => (ofSection? s position known).map fun t =>
      parent.withEntries (erase key.name parent.entries ++ [(key, .table t)])
    | some _ => none

def addSectionsFrom? (position : Nat) (root : Table) : List Section → Option Table
  | [] => some root
  | s :: rest =>
    (descend? (addSection? s position) s.path.parents root).bind fun root =>
      addSectionsFrom? (position + 1) root rest

end Table

/-- The root holds the lines above the first header. -/
def Document.assemble? (body : List Assignment) (sections : List Section) (trailing : String) :
    Option Document := do
  let root ← Table.assignAll? Table.new body
  let root ← Table.addSectionsFrom? 1 root sections
  some ⟨root, trailing⟩

end FeatureForwarding.Toml
