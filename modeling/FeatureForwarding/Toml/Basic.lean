/-! Documents that keep their layout. A document is a tree of tables, values and
arrays of tables; beside its data every node carries the text that was written
around it, and what was written by hand keeps its spelling. Text that is not
there (`none`) leaves the choice to the printer. -/

namespace FeatureForwarding.Toml

/-- The text in front of a node and behind it. -/
structure Decor where
  before : Option String := none
  after : Option String := none
  deriving DecidableEq, Inhabited

/-- A key of a table. `dotDecor` is the text next to the dots of a dotted key or
header; `decor` stands around the key as a whole and belongs to its last part. -/
structure Key where
  name : String
  spelling : Option String := none
  decor : Decor := {}
  dotDecor : Decor := {}
  deriving DecidableEq, Inhabited

/-- Numbers and dates are known by their spelling. -/
inductive Scalar where
  | text (content : String) (spelling : Option String)
  | boolean (value : Bool)
  | integer (spelling : String)
  | float (spelling : String)
  | dateTime (spelling : String)
  deriving DecidableEq, Inhabited

/-- An inline table that is `dotted` came about through dotted keys and is
written through them. -/
inductive Value where
  | scalar (decor : Decor) (content : Scalar)
  | array (decor : Decor) (elements : List Value) (trailingComma : Bool) (trailing : String)
  | inline (decor : Decor) (dotted : Bool) (preamble : String) (entries : List (Key × Value))
  deriving Inhabited

/-- How a table came about: by a header of its own, as the parent of a header,
or as the parent of a dotted key. -/
inductive Origin where
  | explicit
  | implied
  | dotted
  deriving DecidableEq, Inhabited

mutual

inductive Item where
  | value (content : Value)
  | table (content : Table)
  | tables (contents : List Table)

/-- `position` counts the headers of the text from one. -/
structure Table where
  origin : Origin
  decor : Decor
  position : Option Nat
  entries : List (Key × Item)

end

/-- The text behind the last line belongs to no node. -/
structure Document where
  root : Table
  trailing : String

instance : Inhabited Item := ⟨.value default⟩

instance : Inhabited Table := ⟨⟨.explicit, {}, none, []⟩⟩

/-- A table that no text contains yet. -/
def Table.new : Table := ⟨.explicit, {}, none, []⟩

def Table.withEntries (t : Table) (entries : List (Key × Item)) : Table := { t with entries }

/-- A key that no text contains yet. -/
def Key.new (name : String) : Key := { name }

section Entries

variable {α : Type}

/-- The entries of a table in order; names are distinct in a document that was read. -/
def find? (name : String) : List (Key × α) → Option α
  | [] => none
  | (key, content) :: rest => if key.name = name then some content else find? name rest

def hasKey (name : String) (entries : List (Key × α)) : Bool :=
  (find? name entries).isSome

/-- Changes what stands under the name and leaves the key as it is. -/
def modify (name : String) (f : α → α) : List (Key × α) → List (Key × α)
  | [] => []
  | (key, content) :: rest =>
    if key.name = name then (key, f content) :: rest else (key, content) :: modify name f rest

def erase (name : String) : List (Key × α) → List (Key × α)
  | [] => []
  | (key, content) :: rest => if key.name = name then rest else (key, content) :: erase name rest

/-- A known name keeps its place, but the new content is written with a fresh key;
an unknown one goes to the end. -/
def put (name : String) (content : α) : List (Key × α) → List (Key × α)
  | [] => [(Key.new name, content)]
  | (key, old) :: rest =>
    if key.name = name then (Key.new name, content) :: rest else (key, old) :: put name content rest

/-- Changes what stands under the key or takes the key up at the end; `f` may refuse. -/
def revise? (key : Key) (f : Option α → Option α) : List (Key × α) → Option (List (Key × α))
  | [] => (f none).map fun content => [(key, content)]
  | (other, content) :: rest =>
    if other.name = key.name then (f (some content)).map fun new => (other, new) :: rest
    else (revise? key f rest).map ((other, content) :: ·)

end Entries

namespace Value

def decor : Value → Decor
  | .scalar d _ => d
  | .array d _ _ _ => d
  | .inline d _ _ _ => d

def withDecor (d : Decor) : Value → Value
  | .scalar _ s => .scalar d s
  | .array _ elements comma trailing => .array d elements comma trailing
  | .inline _ dotted preamble entries => .inline d dotted preamble entries

def text? : Value → Option String
  | .scalar _ (.text content _) => some content
  | _ => none

/-- A string that no text contains yet. -/
def ofText (content : String) : Value := .scalar {} (.text content none)

end Value

namespace Item

def text? : Item → Option String
  | .value v => v.text?
  | _ => none

def boolean? : Item → Option Bool
  | .value (.scalar _ (.boolean b)) => some b
  | _ => none

def array? : Item → Option (List Value)
  | .value (.array _ elements _ _) => some elements
  | _ => none

/-- The entries of a table in either form, with sections or inline. -/
def tableLike? : Item → Option (List (Key × Item))
  | .table t => some t.entries
  | .value (.inline _ _ _ entries) => some (entries.map fun (key, v) => (key, .value v))
  | _ => none

end Item

end FeatureForwarding.Toml
