import FeatureForwarding.Text.Order
import FeatureForwarding.Toml.Spelling

/-! The text of a document. Tables are written in the order of their positions,
each with its header and the values that belong to it directly, those under dotted
keys included. Carriage returns in the text around nodes are dropped. -/

namespace FeatureForwarding.Toml

/-- What is written around a node whose own decor is unset. -/
structure Surround where
  before : String
  after : String

namespace Surround

/-- Around the key of a line. -/
def key : Surround := ⟨"", " "⟩

/-- Around the path in a header. -/
def headerPath : Surround := ⟨"", ""⟩

/-- Around a key in braces. -/
def inlineKey : Surround := ⟨" ", " "⟩

/-- Around a value. -/
def value : Surround := ⟨" ", ""⟩

/-- Around the last value in braces. -/
def lastInline : Surround := ⟨" ", " "⟩

/-- Around the first element of an array. -/
def firstElement : Surround := ⟨"", ""⟩

end Surround

def withoutReturns (text : String) : String :=
  String.ofList (text.toList.filter (· != '\r'))

namespace Decor

def textBefore (d : Decor) (unset : Surround) : String :=
  withoutReturns (d.before.getD unset.before)

def textAfter (d : Decor) (unset : Surround) : String :=
  withoutReturns (d.after.getD unset.after)

end Decor

/-- The parts of a path behind the first; `leaf` is the text behind the whole path. -/
def dottedTail (unset : Surround) : Key → List Key → String
  | last, [] => last.decor.textAfter unset
  | first, key :: keys =>
    first.dotDecor.textAfter .headerPath ++ "." ++ key.dotDecor.textBefore .headerPath ++ key.shown
      ++ dottedTail unset key keys

/-- A path of keys joined by dots; the text around it is that of its last key. -/
def pathText (unset : Surround) : List Key → String
  | [] => ""
  | first :: rest =>
    ((first :: rest).getLast (List.cons_ne_nil first rest)).decor.textBefore unset ++ first.shown
      ++ dottedTail unset first rest

/-- A value as it is written, apart from the text around it. -/
structure Shown where
  decor : Decor
  bare : String

namespace Shown

def text (shown : Shown) (unset : Surround) : String :=
  shown.decor.textBefore unset ++ shown.bare ++ shown.decor.textAfter unset

def elementsFrom (unset : Surround) : List Shown → String
  | [] => ""
  | [last] => last.text unset
  | element :: next :: rest => element.text unset ++ "," ++ elementsFrom .value (next :: rest)

end Shown

/-- A value together with the path of keys that leads to it from its table. -/
structure Leaf where
  path : List Key
  value : Shown

namespace Leaf

def under (key : Key) (leaf : Leaf) : Leaf := { leaf with path := key :: leaf.path }

/-- The entries of an inline table, the last of which leaves a blank before the brace. -/
def inlineText : List Leaf → String
  | [] => ""
  | [last] => pathText .inlineKey last.path ++ "=" ++ last.value.text .lastInline
  | leaf :: next :: rest =>
    pathText .inlineKey leaf.path ++ "=" ++ leaf.value.text .value ++ "," ++ inlineText (next :: rest)

def line (leaf : Leaf) : String :=
  pathText .key leaf.path ++ "=" ++ leaf.value.text .value ++ "\n"

end Leaf

mutual

def Value.shown : Value → Shown
  | .scalar decor content => ⟨decor, content.shown⟩
  | .array decor elements comma trailing =>
    ⟨decor, "[" ++ Shown.elementsFrom .firstElement (Value.shownElements elements)
      ++ (if comma && !elements.isEmpty then "," else "") ++ withoutReturns trailing ++ "]"⟩
  | .inline decor _ preamble entries =>
    ⟨decor, "\x7b" ++ withoutReturns preamble ++ Leaf.inlineText (Value.leaves entries) ++ "\x7d"⟩
  termination_by structural v => v

def Value.shownElements : List Value → List Shown
  | [] => []
  | v :: vs => v.shown :: Value.shownElements vs
  termination_by structural vs => vs

/-- The entries of an inline table; a dotted table among them stands for its own entries. -/
def Value.leaves : List (Key × Value) → List Leaf
  | [] => []
  | (key, .inline _ true _ entries) :: rest =>
    (Value.leaves entries).map (Leaf.under key) ++ Value.leaves rest
  | (key, v) :: rest => ⟨[key], v.shown⟩ :: Value.leaves rest
  termination_by structural entries => entries

end

mutual

/-- The values that a table writes itself, in order; tables with headers write their own. -/
def Table.leaves : Table → List Leaf
  | ⟨_, _, _, entries⟩ => Item.leaves entries
  termination_by structural t => t

def Item.leaves : List (Key × Item) → List Leaf
  | [] => []
  | (key, .value v) :: rest => Value.leaves [(key, v)] ++ Item.leaves rest
  | (key, .table t) :: rest =>
    (if t.origin = .dotted then t.leaves.map (Leaf.under key) else []) ++ Item.leaves rest
  | (_, .tables _) :: rest => Item.leaves rest
  termination_by structural entries => entries

end

/-- The heading of a table: none for the root, else the path in one or two brackets. -/
inductive Heading where
  | root
  | single (path : List Key)
  | array (path : List Key)

/-- A table with the place where it is written. -/
structure Block where
  place : Nat
  heading : Heading
  origin : Origin
  decor : Decor
  leaves : List Leaf

namespace Block

def lines (block : Block) : String :=
  String.join (block.leaves.map Leaf.line)

/-- The blank line above a header is left out at the top of the text. -/
def headerText (decor : Decor) (isFirst : Bool) (open' close' : String) (path : List Key) : String :=
  let unset : Surround := ⟨if isFirst then "" else "\n", ""⟩
  decor.textBefore unset ++ open' ++ pathText .headerPath path ++ close' ++ decor.textAfter unset ++ "\n"

/-- An implied table has a header only if it has values of its own. -/
def text (isFirst : Bool) (block : Block) : String :=
  match block.heading with
  | .root => block.lines
  | .array path => headerText block.decor isFirst "[[" "]]" path ++ block.lines
  | .single path =>
    if block.origin = .implied && block.leaves.isEmpty then block.lines
    else headerText block.decor isFirst "[" "]" path ++ block.lines

/-- Writes the blocks in order; the text is at its top as long as nothing was written. -/
def textFrom (isFirst : Bool) : List Block → String
  | [] => ""
  | block :: blocks =>
    let written := block.text isFirst
    written ++ textFrom (isFirst && written.isEmpty) blocks

end Block

mutual

/-- The blocks of a table and the tables below it. A table without a position follows
the one listed before it, whose place is handed on. -/
def Table.blocks (heading : List Key → Heading) (path : List Key) (last : Nat) : Table → List Block × Nat
  | ⟨origin, decor, position, entries⟩ =>
    let place := if origin = .dotted then last else position.getD last
    let below := Item.blocks path place entries
    if origin = .dotted then below
    else (⟨place, heading path, origin, decor, Item.leaves entries⟩ :: below.1, below.2)
  termination_by structural t => t

def Item.blocks (path : List Key) (last : Nat) : List (Key × Item) → List Block × Nat
  | [] => ([], last)
  | (key, .table t) :: rest =>
    let here := t.blocks .single (path ++ [key]) last
    let later := Item.blocks path here.2 rest
    (here.1 ++ later.1, later.2)
  | (key, .tables ts) :: rest =>
    let here := Table.blocksOfArray (path ++ [key]) last ts
    let later := Item.blocks path here.2 rest
    (here.1 ++ later.1, later.2)
  | _ :: rest => Item.blocks path last rest
  termination_by structural entries => entries

def Table.blocksOfArray (path : List Key) (last : Nat) : List Table → List Block × Nat
  | [] => ([], last)
  | t :: ts =>
    let here := t.blocks .array path last
    let later := Table.blocksOfArray path here.2 ts
    (here.1 ++ later.1, later.2)
  termination_by structural ts => ts

end

namespace Document

def blocks (doc : Document) : List Block :=
  (doc.root.blocks (fun _ => .root) [] 0).1

def print (doc : Document) : String :=
  Block.textFrom true (Text.stableSort (fun a b => a.place < b.place) doc.blocks)
    ++ withoutReturns doc.trailing

end Document

end FeatureForwarding.Toml
