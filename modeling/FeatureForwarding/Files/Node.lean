import FeatureForwarding.Files.Path
import FeatureForwarding.NameMap

/-! Nodes of a file tree: files, symbolic links and directories. The entries of a directory
are sorted by name, and every change keeps them so. -/

namespace FeatureForwarding.Files

/-- What a file holds: a text, or bytes that are none. -/
inductive Contents where
  | text (content : String)
  | binary (bytes : List UInt8)
  deriving DecidableEq, Inhabited

def Contents.ofBytes (bytes : ByteArray) : Contents :=
  match String.fromUTF8? bytes with
  | some content => .text content
  | none => .binary bytes.toList

inductive Node where
  | file (contents : Contents)
  | link (target : String)
  | directory (entries : List (String × Node))
  deriving Inhabited

namespace Node

mutual

/-- Entries are strictly increasing by name in every directory. -/
def Sorted : Node → Prop
  | .file _ => True
  | .link _ => True
  | .directory entries => (entries.Pairwise fun a b => a.1 < b.1) ∧ SortedIn entries
  termination_by structural node => node

def SortedIn : List (String × Node) → Prop
  | [] => True
  | (_, node) :: rest => Sorted node ∧ SortedIn rest
  termination_by structural entries => entries

end

theorem sorted_emptyDirectory : Sorted (.directory []) := ⟨.nil, trivial⟩

theorem sorted_of_lookupIn {name : String} {node : Node} {entries : List (String × Node)}
    (h : SortedIn entries) (hl : NameMap.lookupIn name entries = some node) : node.Sorted := by
  induction entries with
  | nil => simp [NameMap.lookupIn] at hl
  | cons head rest ih =>
    obtain ⟨other, found⟩ := head
    rw [NameMap.lookupIn] at hl
    split at hl
    · exact Option.some.inj hl ▸ h.1
    · exact ih h.2 hl

theorem sortedIn_insertIn (name : String) {node : Node} {entries : List (String × Node)}
    (hn : node.Sorted) (h : SortedIn entries) : SortedIn (NameMap.insertIn name node entries) := by
  induction entries with
  | nil => exact ⟨hn, trivial⟩
  | cons head rest ih =>
    obtain ⟨other, old⟩ := head
    rw [NameMap.insertIn]
    split
    · exact ⟨hn, h⟩
    split
    · exact ⟨hn, h.2⟩
    · exact ⟨h.1, ih h.2⟩

def isDirectory : Node → Bool
  | .directory _ => true
  | _ => false

def isFile : Node → Bool
  | .file _ => true
  | _ => false

/-- The node below another one, links not followed. -/
def below? : List String → Node → Option Node
  | [], node => some node
  | name :: rest, .directory entries => (NameMap.lookupIn name entries).bind (below? rest)
  | _ :: _, _ => none

/-- Puts a node below another one and makes the directories on the way. -/
def place (new : Node) : List String → Node → Node
  | [], _ => new
  | name :: rest, .directory entries =>
    let old := (NameMap.lookupIn name entries).getD (.directory [])
    .directory (NameMap.insertIn name (place new rest old) entries)
  | name :: rest, _ => .directory [(name, place new rest (.directory []))]

theorem sorted_place {new : Node} (hn : new.Sorted) (l : List String) {node : Node}
    (h : node.Sorted) : (place new l node).Sorted := by
  induction l generalizing node with
  | nil => exact hn
  | cons name rest ih =>
    have fresh : (place new rest (.directory [])).Sorted := ih sorted_emptyDirectory
    cases node with
    | file contents => exact ⟨List.pairwise_singleton _ _, fresh, trivial⟩
    | link target => exact ⟨List.pairwise_singleton _ _, fresh, trivial⟩
    | directory entries =>
      refine ⟨NameMap.sorted_insertIn name _ h.1, sortedIn_insertIn name ?_ h.2⟩
      cases hl : NameMap.lookupIn name entries with
      | none => exact fresh
      | some node => exact ih (sorted_of_lookupIn h.2 hl)

def dropEntry (name : String) : List (String × Node) → List (String × Node)
  | [] => []
  | (other, node) :: rest => if name = other then rest else (other, node) :: dropEntry name rest

theorem dropEntry_sublist (name : String) (entries : List (String × Node)) :
    (dropEntry name entries).Sublist entries := by
  induction entries with
  | nil => exact .slnil
  | cons head rest ih =>
    obtain ⟨other, node⟩ := head
    rw [dropEntry]
    split
    · exact List.sublist_cons_self _ _
    · exact ih.cons_cons _

theorem sortedIn_dropEntry (name : String) {entries : List (String × Node)} (h : SortedIn entries) :
    SortedIn (dropEntry name entries) := by
  induction entries with
  | nil => exact h
  | cons head rest ih =>
    obtain ⟨other, node⟩ := head
    rw [dropEntry]
    split
    · exact h.2
    · exact ⟨h.1, ih h.2⟩

def remove : List String → Node → Node
  | [], node => node
  | [name], .directory entries => .directory (dropEntry name entries)
  | name :: rest, .directory entries =>
    match NameMap.lookupIn name entries with
    | some node => .directory (NameMap.insertIn name (remove rest node) entries)
    | none => .directory entries
  | _ :: _, .file contents => .file contents
  | _ :: _, .link target => .link target

theorem sorted_remove (l : List String) {node : Node} (h : node.Sorted) : (remove l node).Sorted := by
  induction l generalizing node with
  | nil => exact h
  | cons name rest ih =>
    cases node with
    | file contents => cases rest <;> exact h
    | link target => cases rest <;> exact h
    | directory entries =>
      cases rest with
      | nil => exact ⟨h.1.sublist (dropEntry_sublist name entries), sortedIn_dropEntry name h.2⟩
      | cons next rest =>
        rw [remove]
        split
        · next node hl =>
          exact ⟨NameMap.sorted_insertIn name _ h.1,
            sortedIn_insertIn name (ih (sorted_of_lookupIn h.2 hl)) h.2⟩
        · exact h
        · exact nofun

mutual

/-- The regular files below a node with their locations, links not followed. -/
def files (here : List String) : Node → List (List String × Contents)
  | .file contents => [(here, contents)]
  | .link _ => []
  | .directory entries => filesIn here entries
  termination_by structural node => node

def filesIn (here : List String) : List (String × Node) → List (List String × Contents)
  | [] => []
  | (name, node) :: rest => files (here ++ [name]) node ++ filesIn here rest
  termination_by structural entries => entries

end

end Node

end FeatureForwarding.Files
