import FeatureForwarding.Files.Tree

/-! Edits of a file tree from outside of a run. Entries are put and removed as a file system does
it: what a path leads to is found through links, and what cannot be done leaves the tree as it
is, up to directories that were made on the way. -/

namespace FeatureForwarding.Files.Tree

/-- Goes along the pieces of a path as `walk` does, makes the directories that are missing, and
attaches an entry at the end. A directory that is there already stays. -/
def attachAt (entry : Entry) (t : Tree) (here : Location) : List String → Tree
  | [] => if entry = .directory && t.isDirectoryAt here then t else t.place here entry
  | piece :: rest =>
    let t := if t.isDirectoryAt here then t else t.place here .directory
    if !Path.isStep piece then attachAt entry t here rest
    else if piece = ".." then attachAt entry t (up here) rest
    else attachAt entry t (here ++ [piece]) rest

/-- Adds an entry under the names of a path, whatever was in its way; links are not followed. -/
def attach (t : Tree) (p : Path) (entry : Entry) : Tree :=
  let (here, pieces) := start [] p.pieces
  attachAt entry t here pieces

/-- Makes the directories that are missing on the way and returns where the way ends, unless
something bars it. -/
def makeDirectories : Tree → Location → List String → Tree × Option Location
  | t, here, [] => (t, some here)
  | t, here, piece :: rest =>
    if !t.isDirectoryAt here then (t, none)
    else if !Path.isStep piece then makeDirectories t here rest
    else if piece = ".." then makeDirectories t (up here) rest
    else
      let target := here ++ [piece]
      if (t.at? target).isSome then
        match t.walkLinks linkLimit here [piece] with
        | some there => makeDirectories t there rest
        | none => (t, none)
      else if Path.isName piece then makeDirectories (t.place target .directory) target rest
      else (t, none)

/-- Where a file is opened for writing: what links lead to need not be there yet. -/
def opened? (t : Tree) : Nat → Location → String → Option Location
  | 0, _, _ => none
  | links + 1, here, name =>
    match t.at? (here ++ [name]) with
    | some (.link target) =>
      let (here, pieces) := start here (Path.pieces ⟨target⟩)
      match pieces.getLast?.filter Path.isName, t.walkLinks links here pieces.dropLast with
      | some name, some here => opened? t links here name
      | _, _ => none
    | _ => if t.isDirectoryAt here then some (here ++ [name]) else none

/-- Puts an entry into a directory. Files are written through links, and a link is only made
where nothing is. -/
def putIn (t : Tree) (here : Location) (name : String) (entry : Entry) : Tree :=
  match entry with
  | .link target =>
    if !Path.isUsable ⟨target⟩ || (t.at? (here ++ [name])).isSome then t
    else t.place (here ++ [name]) entry
  | .file _ =>
    match t.opened? linkLimit here name with
    | some l => if t.isDirectoryAt l then t else t.place l entry
    | none => t
  | .directory => t

/-- Puts an entry at a path and makes the directories above it. What cannot be put there is left
out. -/
def put (t : Tree) (p : Path) (entry : Entry) : Tree :=
  let (here, pieces) := start [] p.pieces
  if entry = .directory then
    if p.isUsable then (t.makeDirectories here pieces).1 else t
  else if !p.directory.isUsable then t
  else
    let (t, parent) := t.makeDirectories here pieces.dropLast
    match parent, pieces.getLast?.filter Path.isName with
    | some here, some name =>
      if p.isUsable && t.isDirectoryAt here then t.putIn here name entry else t
    | _, _ => t

def removeAt (t : Tree) (l : Location) : Tree :=
  ⟨t.root.remove l, Node.sorted_remove l t.sorted⟩

/-- Empties a directory. -/
def clearAt (t : Tree) (l : Location) : Tree :=
  if t.isDirectoryAt l then t.place l .directory else t

/-- Removes a file, a link or a whole directory. Of a directory that the path does not name itself
only what is in it is removed. -/
def remove (t : Tree) (p : Path) : Tree :=
  let (here, pieces) := start [] p.pieces
  let named := (pieces.reverse.dropWhile String.isEmpty).reverse
  let target := do
    let name ← named.getLast?.filter fun name => p.isUsable && Path.isName name
    let parent ← t.walkLinks linkLimit here named.dropLast
    some (parent ++ [name])
  let slashed := named.length < pieces.length
  match target.filter fun l => !slashed || t.isDirectoryAt l with
  | some l => t.removeAt l
  | none => ((t.locate? p).map t.clearAt).getD t

end FeatureForwarding.Files.Tree
