import FeatureForwarding.Toml.Basic

/-! Blank lines above headers. Every header has one, except that the header with the
smallest position has none where it opens the text. Headers are told apart by the keys
that lead to them, with an index in brackets for the elements of an array. -/

namespace FeatureForwarding.Lint

open Toml (Key Item Table)

abbrev HeaderPath := List String

structure Header where
  position : Option Nat
  path : HeaderPath

def elementName (name : String) (index : Nat) : String :=
  name ++ "[" ++ toString index ++ "]"

mutual

/-- The headers below a table; tables made by dotted keys are not entered. -/
def headersBelow (path : HeaderPath) : Table → List Header
  | ⟨_, _, _, entries⟩ => headersIn path entries
  termination_by structural t => t

def headersIn (path : HeaderPath) : List (Key × Item) → List Header
  | [] => []
  | (_, .value _) :: rest => headersIn path rest
  | (key, .table t) :: rest =>
    let here := path ++ [key.name]
    match t.origin with
    | .dotted => headersIn path rest
    | .implied => headersBelow here t ++ headersIn path rest
    | .explicit => ⟨t.position, here⟩ :: headersBelow here t ++ headersIn path rest
  | (key, .tables ts) :: rest => headersOfArray path key.name 0 ts ++ headersIn path rest
  termination_by structural entries => entries

def headersOfArray (path : HeaderPath) (name : String) (index : Nat) : List Table → List Header
  | [] => []
  | t :: ts =>
    let here := path ++ [elementName name index]
    ⟨t.position, here⟩ :: headersBelow here t ++ headersOfArray path name (index + 1) ts
  termination_by structural ts => ts

end

/-- The first of the headers with the smallest position. -/
def leastFrom (best : Option (Nat × HeaderPath)) : List Header → Option HeaderPath
  | [] => best.map (·.2)
  | header :: rest =>
    match header.position, best with
    | none, _ => leastFrom best rest
    | some position, none => leastFrom (some (position, header.path)) rest
    | some position, some (least, path) =>
      if position < least then leastFrom (some (position, header.path)) rest
      else leastFrom (some (least, path)) rest

def isValue : Item → Bool
  | .value _ => true
  | _ => false

/-- The header that opens the text, if no value does. -/
def firstHeader (root : Table) : Option HeaderPath :=
  if root.entries.any fun entry => isValue entry.2 then none
  else leastFrom none (headersBelow [] root)

def spaceHeader (first : Option HeaderPath) (path : HeaderPath) (t : Table) : Table :=
  { t with decor := { t.decor with before := some (if first = some path then "" else "\n") } }

mutual

def spaceBelow (first : Option HeaderPath) (path : HeaderPath) : Table → Table
  | ⟨origin, decor, position, entries⟩ => ⟨origin, decor, position, spaceIn first path entries⟩
  termination_by structural t => t

def spaceIn (first : Option HeaderPath) (path : HeaderPath) : List (Key × Item) → List (Key × Item)
  | [] => []
  | (key, .value v) :: rest => (key, .value v) :: spaceIn first path rest
  | (key, .table t) :: rest =>
    let here := path ++ [key.name]
    let spaced :=
      match t.origin with
      | .dotted => t
      | .implied => spaceBelow first here t
      | .explicit => spaceHeader first here (spaceBelow first here t)
    (key, .table spaced) :: spaceIn first path rest
  | (key, .tables ts) :: rest =>
    (key, .tables (spaceArray first path key.name 0 ts)) :: spaceIn first path rest
  termination_by structural entries => entries

def spaceArray (first : Option HeaderPath) (path : HeaderPath) (name : String) (index : Nat) :
    List Table → List Table
  | [] => []
  | t :: ts =>
    let here := path ++ [elementName name index]
    spaceHeader first here (spaceBelow first here t) :: spaceArray first path name (index + 1) ts
  termination_by structural ts => ts

end

def spaceHeaders (root : Table) : Table :=
  spaceBelow (firstHeader root) [] root

end FeatureForwarding.Lint
