/-! Paths as they are given and shown. The text of a path is kept as it is; two paths are
the same if their components agree, where doubled slashes, a slash at the end and dots
inside make no difference, but a dot in front does. -/

namespace FeatureForwarding.Files

structure Path where
  text : String
  deriving DecidableEq, Inhabited

namespace Path

/-- The pieces between the slashes. -/
def pieces (p : Path) : List String :=
  (p.text.toList.splitOnP (· == '/')).map String.ofList

/-- Pieces that lead to another place. -/
def isStep (piece : String) : Bool := piece != "" && piece != "."

/-- Names have at most so many bytes. -/
def nameLimit : Nat := 255

/-- Whether a piece can be the name of something in a directory. -/
def isName (piece : String) : Bool :=
  isStep piece && piece != ".." && piece.utf8ByteSize ≤ nameLimit && !piece.toList.contains '\x00'

/-- Paths have at most so many bytes. -/
def lengthLimit : Nat := 4095

/-- Whether a path can become so many bytes longer. -/
def hasRoom (p : Path) (bytes : Nat) : Bool := p.text.utf8ByteSize + bytes ≤ lengthLimit

/-- A path that is too long, empty or broken by a NUL leads nowhere. -/
def isUsable (p : Path) : Bool :=
  !p.text.isEmpty && p.hasRoom 0 && !p.text.toList.contains '\x00'

/-- A slash in front is a component of its own. -/
def components (p : Path) : List String :=
  match p.pieces with
  | [] => []
  | "" :: [] => []
  | "" :: rest => "/" :: rest.filter isStep
  | first :: rest => first :: rest.filter isStep

def Same (p q : Path) : Prop := p.components = q.components

instance (p q : Path) : Decidable (p.Same q) := inferInstanceAs (Decidable (_ = _))

/-- The path of something inside a directory. -/
def child (p : Path) (name : String) : Path :=
  if p.text.isEmpty || p.text.toList.getLast? == some '/' then ⟨p.text ++ name⟩
  else ⟨p.text ++ "/" ++ name⟩

/-- Drops the pieces at the end that lead nowhere, from pieces in reverse order. -/
def dropIdle : List String → List String
  | [] => []
  | [first] => [first]
  | piece :: rest => if isStep piece then piece :: rest else dropIdle rest

/-- The directory that holds what the path names, as shown in messages. -/
def directory (p : Path) : Path :=
  match dropIdle p.pieces.reverse with
  | [] => ⟨"."⟩
  | _ :: above =>
    match (dropIdle above).reverse with
    | [] => ⟨"."⟩
    | [""] => ⟨"/"⟩
    | kept => ⟨"/".intercalate kept⟩

/-- The part of a name behind its last dot, unless the dot comes first. -/
def extension? (name : String) : Option String :=
  let cs := name.toList.reverse
  let behind := cs.takeWhile (· != '.')
  match cs.drop (behind.length + 1) with
  | [] => none
  | _ => some (String.ofList behind.reverse)

/-- The last component if it is a name. -/
def fileName? (p : Path) : Option String :=
  p.components.getLast?.filter fun name => name != "." && name != ".." && name != "/"

end Path

end FeatureForwarding.Files
