import FeatureForwarding.Files.Node

/-! File trees as seen from the working directory. Paths are followed as a file system follows
them: through symbolic links up to a limit, and only through directories. -/

namespace FeatureForwarding.Files

/-- The root is the working directory. -/
structure Tree where
  root : Node
  sorted : root.Sorted

/-- What is put into a tree at once; a directory is an empty one. -/
inductive Entry where
  | file (contents : Contents)
  | link (target : String)
  | directory
  deriving DecidableEq, Inhabited

namespace Entry

def node : Entry → Node
  | .file contents => .file contents
  | .link target => .link target
  | .directory => .directory []

theorem sorted_node (entry : Entry) : entry.node.Sorted := by
  cases entry with
  | file contents => trivial
  | link target => trivial
  | directory => exact Node.sorted_emptyDirectory

end Entry

/-- The names that lead from the working directory to a node, links not among them. -/
abbrev Location := List String

namespace Tree

def empty : Tree := ⟨.directory [], Node.sorted_emptyDirectory⟩

instance : Inhabited Tree := ⟨empty⟩

def at? (t : Tree) (l : Location) : Option Node := t.root.below? l

/-- Puts an entry in the place of what is at a location. -/
def place (t : Tree) (l : Location) (entry : Entry) : Tree :=
  ⟨entry.node.place l t.root, Node.sorted_place entry.sorted_node l t.sorted⟩

def isDirectoryAt (t : Tree) (l : Location) : Bool := (t.at? l).any Node.isDirectory

/-- What lies above the working directory is not part of the tree, but keeps its name. -/
def up (l : Location) : Location :=
  match l.getLast? with
  | none => [".."]
  | some last => if last = ".." then l ++ [".."] else l.dropLast

/-- A path with a slash in front starts outside the tree. -/
def start (here : Location) : List String → Location × List String
  | "" :: next :: rest => (["/"], next :: rest)
  | pieces => (here, pieces)

/-- Walks along the pieces of a path; `follow` goes on from the target of a link. -/
def walk (t : Tree) (follow : Location → List String → Option Location) :
    Location → List String → Option Location
  | here, [] => some here
  | here, piece :: rest =>
    if !t.isDirectoryAt here then none
    else if !Path.isStep piece then walk t follow here rest
    else if piece = ".." then walk t follow (up here) rest
    else
      match t.at? (here ++ [piece]) with
      | some (.link target) =>
        let (here, pieces) := start here (Path.pieces ⟨target⟩)
        follow here (pieces ++ rest)
      | some _ => walk t follow (here ++ [piece]) rest
      | none => none

/-- A path leads through at most this many links. -/
def linkLimit : Nat := 40

def walkLinks (t : Tree) : Nat → Location → List String → Option Location
  | 0 => t.walk fun _ _ => none
  | links + 1 => t.walk (walkLinks t links)

/-- Where a path leads, if something is there. -/
def locate? (t : Tree) (p : Path) : Option Location :=
  if p.isUsable then
    let (here, pieces) := start [] p.pieces
    (t.walkLinks linkLimit here pieces).filter fun l => (t.at? l).isSome
  else none

def node? (t : Tree) (p : Path) : Option Node := (t.locate? p).bind t.at?

def readText? (t : Tree) (p : Path) : Option String :=
  match t.node? p with
  | some (.file (.text content)) => some content
  | _ => none

/-- Why a file could not be written. -/
inductive WriteFailure where
  | temporary (directory : Path)
  | replacing (target : Path)
  deriving DecidableEq, Inhabited

def WriteFailure.message : WriteFailure → String
  | .temporary directory => s!"creating temporary file in {directory.text}"
  | .replacing target => s!"replacing {target.text}"

/-- A temporary file needs room for a slash and a name of ten bytes behind its directory. Its
path is absolute, so that the working directory, of at most sixteen bytes with a slash, stands
in front. -/
def temporaryRoom : Nat := 11 + 16

/-- Where a temporary file can be created, if in the directory at all. -/
def temporaryPlace? (t : Tree) (directory : Path) : Option Location :=
  if directory.hasRoom temporaryRoom then (t.locate? directory).filter t.isDirectoryAt else none

/-- Puts a text at a path. It is written to a new file in the same directory, which then
takes the place of what was there, also of a link, but never of a directory. -/
def write (t : Tree) (p : Path) (content : String) : Except WriteFailure Tree :=
  match t.temporaryPlace? p.directory with
  | none => .error (.temporary p.directory)
  | some here =>
    match p.pieces.getLast?.filter Path.isName with
    | none => .error (.replacing p)
    | some name =>
      let target := here ++ [name]
      if !p.isUsable || t.isDirectoryAt target then .error (.replacing p)
      else .ok (t.place target (.file (.text content)))

def files (t : Tree) : List (Location × Contents) := t.root.files []

def contents? (t : Tree) (l : Location) : Option Contents :=
  match t.at? l with
  | some (.file contents) => some contents
  | _ => none

/-- The files that differ between two trees, with their contents in the second. -/
def changes (before after : Tree) : List (Location × Option Contents) :=
  (after.files.filter fun (l, contents) => before.contents? l != some contents).map
      (fun (l, contents) => (l, some contents))
    ++ (before.files.filter fun (l, _) => (after.contents? l).isNone).map fun (l, _) => (l, none)

end Tree

end FeatureForwarding.Files
