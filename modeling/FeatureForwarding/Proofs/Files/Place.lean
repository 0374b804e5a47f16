import FeatureForwarding.Files.Tree
import FeatureForwarding.Proofs.NameMap

/-! What putting a file in the place of a file or a link does to a tree. Nothing else is seen to
change, and where a file gives way to a file the tree keeps its shape. -/

namespace FeatureForwarding.Files

namespace Node

variable {node new old : Node} {l l' : List String}

/-- What is seen of a node from outside. -/
def entry : Node → Entry
  | .file contents => .file contents
  | .link target => .link target
  | .directory _ => .directory

theorem isDirectory_eq (node : Node) : node.isDirectory = decide (node.entry = .directory) := by
  cases node <;> rfl

theorem below?_append (l l' : List String) (node : Node) :
    node.below? (l ++ l') = (node.below? l).bind (below? l') := by
  induction l generalizing node with
  | nil => rfl
  | cons name rest ih =>
    cases node with
    | file contents => rfl
    | link target => rfl
    | directory entries =>
      rw [List.cons_append, below?, below?, Option.bind_assoc]
      congr 1
      funext next
      exact ih next

theorem below?_of_not_isDirectory (h : node.isDirectory = false) (name : String)
    (rest : List String) :
    node.below? (name :: rest) = none := by
  cases node with
  | file contents => rfl
  | link target => rfl
  | directory entries => simp [isDirectory] at h

/-- Only a directory has something below it. -/
theorem directory_of_below?_cons {name : String} {rest : List String}
    (h : node.below? (name :: rest) = some old) :
    ∃ entries next, node = .directory entries ∧ NameMap.lookupIn name entries = some next ∧
      next.below? rest = some old := by
  cases node with
  | directory entries =>
    obtain ⟨next, hnext, hold⟩ := Option.bind_eq_some_iff.1 h
    exact ⟨entries, next, rfl, hnext, hold⟩
  | file contents => exact absurd h (by simp [below?])
  | link target => exact absurd h (by simp [below?])

theorem below?_place (new : Node) (l : List String) (node : Node) :
    (place new l node).below? l = some new := by
  induction l generalizing node with
  | nil => rfl
  | cons name rest ih =>
    cases node with
    | directory entries => simp [place, below?, NameMap.lookupIn_insertIn, ih]
    | file contents => simp [place, below?, NameMap.lookupIn, ih]
    | link target => simp [place, below?, NameMap.lookupIn, ih]

/-- Whatever stands elsewhere is seen as before. -/
theorem entry_below?_place (hl : node.below? l = some old) (hold : old.isDirectory = false)
    (hnew : new.isDirectory = false) (hne : l' ≠ l) :
    ((place new l node).below? l').map entry = (node.below? l').map entry := by
  induction l generalizing node l' with
  | nil =>
    obtain rfl := Option.some.inj hl
    obtain ⟨name, rest, rfl⟩ := List.exists_cons_of_ne_nil hne
    rw [place, below?_of_not_isDirectory hnew, below?_of_not_isDirectory hold]
  | cons name rest ih =>
    obtain ⟨entries, next, rfl, hnext, hbelow⟩ := directory_of_below?_cons hl
    cases l' with
    | nil => rfl
    | cons name' rest' =>
      rw [place, hnext, Option.getD_some, below?, below?, NameMap.lookupIn_insertIn]
      split
      · next hname =>
        subst hname
        rw [hnext]
        exact ih hbelow fun heq => hne (by rw [heq])
      · rfl

/-! ### Shape -/

mutual

/-- The node without the contents of its files. -/
def shape : Node → Node
  | .file _ => .file (.text "")
  | .link target => .link target
  | .directory entries => .directory (shapeIn entries)
  termination_by structural node => node

def shapeIn : List (String × Node) → List (String × Node)
  | [] => []
  | (name, node) :: rest => (name, shape node) :: shapeIn rest
  termination_by structural entries => entries

end

theorem lookupIn_shapeIn (name : String) (entries : List (String × Node)) :
    NameMap.lookupIn name (shapeIn entries) = (NameMap.lookupIn name entries).map shape := by
  induction entries with
  | nil => rfl
  | cons head rest ih =>
    obtain ⟨other, node⟩ := head
    rw [shapeIn, NameMap.lookupIn, NameMap.lookupIn]
    split
    · rfl
    · exact ih

theorem below?_shape (l : List String) (node : Node) :
    node.shape.below? l = (node.below? l).map shape := by
  induction l generalizing node with
  | nil => rfl
  | cons name rest ih =>
    cases node with
    | file contents => rfl
    | link target => rfl
    | directory entries =>
      rw [shape, below?, below?, lookupIn_shapeIn]
      cases NameMap.lookupIn name entries with
      | none => rfl
      | some next => exact ih next

theorem shapeIn_insertIn {name : String} {entries : List (String × Node)}
    (hsorted : entries.Pairwise fun a b => a.1 < b.1)
    (hold : NameMap.lookupIn name entries = some old) (h : new.shape = old.shape) :
    shapeIn (NameMap.insertIn name new entries) = shapeIn entries := by
  induction entries with
  | nil => exact absurd hold (by simp [NameMap.lookupIn])
  | cons head rest ih =>
    obtain ⟨other, node⟩ := head
    obtain ⟨hfirst, hrest⟩ := List.pairwise_cons.1 hsorted
    rw [NameMap.lookupIn] at hold
    split at hold
    · next hname =>
      subst hname
      obtain rfl := Option.some.inj hold
      rw [NameMap.insertIn, if_neg (String.lt_irrefl name), if_pos rfl, shapeIn, shapeIn, h]
    · next hname =>
      -- the name stands further behind, so it is greater than the first one
      have hbehind : other < name := hfirst _ (NameMap.mem_of_lookupIn hold)
      rw [NameMap.insertIn, if_neg fun hlt => String.lt_irrefl _ (String.lt_trans hlt hbehind),
        if_neg hname, shapeIn,
        shapeIn, ih hrest hold]

theorem shape_place (hsorted : node.Sorted) (hl : node.below? l = some old)
    (h : new.shape = old.shape) :
    (place new l node).shape = node.shape := by
  induction l generalizing node with
  | nil => exact Option.some.inj hl ▸ h
  | cons name rest ih =>
    obtain ⟨entries, next, rfl, hnext, hbelow⟩ := directory_of_below?_cons hl
    rw [place, hnext, Option.getD_some, shape, shape]
    exact congrArg _ (shapeIn_insertIn hsorted.1 hnext (ih (sorted_of_lookupIn hsorted.2 hnext) hbelow))

end Node

namespace Tree

variable {t : Tree} {l l' : Location}

/-- What is seen at a location. -/
def sight? (t : Tree) (l : Location) : Option Entry := (t.at? l).map Node.entry

theorem isDirectoryAt_eq (t : Tree) (l : Location) :
    t.isDirectoryAt l = decide (t.sight? l = some .directory) := by
  unfold isDirectoryAt sight?
  cases t.at? l with
  | none => rfl
  | some node => simp [Node.isDirectory_eq]

theorem at?_eq_file {contents : Contents} : t.at? l = some (.file contents) ↔
    t.sight? l = some (.file contents) := by
  unfold sight?
  cases t.at? l with
  | none => simp
  | some node => cases node <;> simp [Node.entry]

theorem contents?_eq_some {contents : Contents} :
    t.contents? l = some contents ↔ t.sight? l = some (.file contents) := by
  rw [← at?_eq_file]
  unfold contents?
  cases t.at? l with
  | none => simp
  | some node => cases node <;> simp

theorem contents?_congr {t' : Tree} (h : t'.sight? l = t.sight? l) :
    t'.contents? l = t.contents? l := by
  apply Option.ext
  intro contents
  rw [contents?_eq_some, contents?_eq_some, h]

/-- A text in the place of a file or a link is all that changes. -/
theorem sight?_place (content : String) {entry : Entry} (hl : t.sight? l = some entry)
    (hentry : entry ≠ .directory) (l' : Location) :
    (t.place l (.file (.text content))).sight? l' =
      if l' = l then some (.file (.text content)) else t.sight? l' := by
  obtain ⟨old, hold, rfl⟩ := Option.map_eq_some_iff.1 hl
  split
  · next heq =>
    subst heq
    exact congrArg _ (Node.below?_place (.file (.text content)) l' t.root)
  · next hne =>
    refine Node.entry_below?_place hold ?_ rfl hne
    simpa [Node.isDirectory_eq] using hentry

theorem shape_place {old : Contents} (content : String) (hl : t.at? l = some (.file old)) :
    (t.place l (.file (.text content))).root.shape = t.root.shape :=
  Node.shape_place t.sorted hl rfl

end Tree

end FeatureForwarding.Files
