import FeatureForwarding.Files.Tree

/-! Discovery of manifests. Below a directory every regular file with the extension of
manifests counts, except in directories that hold build output or are hidden; the files come
in the order of their paths, component by component. Links below the root are not followed,
and the root itself is searched whatever its name. -/

namespace FeatureForwarding.Discovery

open Files (Path Node Tree)

def manifestExtension : String := "toml"

def isManifestName (name : String) : Bool :=
  Path.extension? name == some manifestExtension

def isSkippedDirectory (name : String) : Bool :=
  name == "target" || name.toList.head? == some '.'

mutual

def inEntries (here : Path) : List (String × Node) → List Path
  | [] => []
  | (name, node) :: rest => atEntry here name node ++ inEntries here rest
  termination_by structural entries => entries

def atEntry (here : Path) (name : String) : Node → List Path
  | .file _ => if isManifestName name then [here.child name] else []
  | .link _ => []
  | .directory entries => if isSkippedDirectory name then [] else inEntries (here.child name) entries
  termination_by structural node => node

end

mutual

/-- Whether every directory that is searched has a path under which it can be opened. -/
def canOpenEntries (here : Path) : List (String × Node) → Bool
  | [] => true
  | (name, node) :: rest => canOpenEntry here name node && canOpenEntries here rest
  termination_by structural entries => entries

def canOpenEntry (here : Path) (name : String) : Node → Bool
  | .file _ => true
  | .link _ => true
  | .directory entries =>
    isSkippedDirectory name
      || ((here.child name).isUsable && canOpenEntries (here.child name) entries)
  termination_by structural node => node

end

inductive Failure where
  | notFound (root : Path)
  | notManifest (root : Path)
  | unwalkable (root : Path)
  deriving DecidableEq, Inhabited

def Failure.message : Failure → String
  | .notFound root => s!"path not found: {root.text}"
  | .notManifest root => s!"{root.text} is not a .{manifestExtension} file"
  | .unwalkable root => s!"walking {root.text}"

/-- A root that is a file stands for itself. One directory that cannot be opened spoils the whole
search. -/
def manifests (t : Tree) (root : Path) : Except Failure (List Path) :=
  match t.node? root with
  | some (.directory entries) =>
    if canOpenEntries root entries then .ok (inEntries root entries) else .error (.unwalkable root)
  | some (.file _) =>
    if root.fileName?.any isManifestName then .ok [root] else .error (.notManifest root)
  | some (.link _) => .error (.notFound root)
  | none => .error (.notFound root)

end FeatureForwarding.Discovery
