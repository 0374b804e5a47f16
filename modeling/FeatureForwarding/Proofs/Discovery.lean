import FeatureForwarding.Discovery
import FeatureForwarding.Proofs.Files.Path

/-! Discovery goes through the locations of manifests in increasing order and so finds no file twice: under
plain names, as a file system has them, the paths of two discovered manifests are never the same. -/

namespace FeatureForwarding

namespace Files

namespace Node

mutual

/-- Whether all names below the node are plain. -/
def isNamed : Node → Bool
  | .file _ => true
  | .link _ => true
  | .directory entries => isNamedIn entries
  termination_by structural node => node

def isNamedIn : List (String × Node) → Bool
  | [] => true
  | (name, node) :: rest => Path.isPlain name && isNamed node && isNamedIn rest
  termination_by structural entries => entries

end

theorem sorted_of_below? {l : List String} {node below : Node} (h : node.Sorted)
    (hl : node.below? l = some below) :
    below.Sorted := by
  induction l generalizing node with
  | nil => exact Option.some.inj hl ▸ h
  | cons name rest ih =>
    cases node with
    | directory entries =>
      obtain ⟨next, hnext, hbelow⟩ := Option.bind_eq_some_iff.1 hl
      exact ih (sorted_of_lookupIn h.2 hnext) hbelow
    | file contents => exact absurd hl (by simp [below?])
    | link target => exact absurd hl (by simp [below?])

end Node

/-- Whether all names in the directory at the path are plain. -/
def Tree.isNamedAt (t : Tree) (root : Path) : Bool := (t.node? root).all Node.isNamed

theorem Tree.sorted_node? {t : Tree} {p : Path} {node : Node} (h : t.node? p = some node) :
    node.Sorted := by
  obtain ⟨l, -, hl⟩ := Option.bind_eq_some_iff.1 h
  exact Node.sorted_of_below? t.sorted hl

end Files

namespace Discovery

open Files (Path Node Tree Location)

theorem isStep_of_isManifestName {name : String} (h : isManifestName name) : Path.isStep name := by
  have hempty : isManifestName "" = false := by decide +kernel
  have hdot : isManifestName "." = false := by decide +kernel
  simp only [Path.isStep, Bool.and_eq_true, bne_iff_ne, ne_eq]
  exact ⟨fun heq => absurd (heq ▸ h) (by simp [hempty]), fun heq => absurd (heq ▸ h) (by simp [hdot])⟩

theorem isStep_of_not_isSkippedDirectory {name : String} (hplain : Path.isPlain name)
    (h : ¬isSkippedDirectory name) : Path.isStep name := by
  have hdot : isSkippedDirectory "." = true := by decide +kernel
  simp only [Path.isPlain, Path.isStep, Bool.and_eq_true, bne_iff_ne, ne_eq] at hplain ⊢
  exact ⟨hplain.1, fun heq => h (heq ▸ hdot)⟩

/-! ### Where discovered manifests stand -/

mutual

/-- The locations of the manifests below a directory, in the order of the search. -/
def locationsIn : List (String × Node) → List Location
  | [] => []
  | (name, node) :: rest => locationsAt name node ++ locationsIn rest
  termination_by structural entries => entries

def locationsAt (name : String) : Node → List Location
  | .file _ => if isManifestName name then [[name]] else []
  | .link _ => []
  | .directory entries => if isSkippedDirectory name then [] else (locationsIn entries).map (name :: ·)
  termination_by structural node => node

end

mutual

theorem atEntry_eq (here : Path) (name : String) (node : Node) :
    atEntry here name node = (locationsAt name node).map here.below := by
  cases node with
  | file contents => rw [atEntry, locationsAt]; split <;> rfl
  | link target => rfl
  | directory entries =>
    rw [atEntry, locationsAt]
    split
    · rfl
    · rw [inEntries_eq (here.child name) entries, List.map_map]
      rfl
  termination_by structural node

/-- Each discovered path is that of a location below the directory. -/
theorem inEntries_eq (here : Path) (entries : List (String × Node)) :
    inEntries here entries = (locationsIn entries).map here.below := by
  cases entries with
  | nil => rfl
  | cons entry entries =>
    obtain ⟨name, node⟩ := entry
    rw [inEntries, locationsIn, atEntry_eq here name node, inEntries_eq here entries, List.map_append]
  termination_by structural entries

end

/-- What is found at an entry has its name in front. -/
theorem head?_of_mem_locationsAt {name : String} {node : Node} {l : Location} (h : l ∈ locationsAt name node) : l.head? = some name := by
  cases node with
  | file contents =>
    rw [locationsAt] at h
    split at h
    · rw [List.mem_singleton.1 h, List.head?_cons]
    · exact absurd h List.not_mem_nil
  | link target => exact absurd h List.not_mem_nil
  | directory entries =>
    rw [locationsAt] at h
    split at h
    · exact absurd h List.not_mem_nil
    · obtain ⟨rest, -, rfl⟩ := List.mem_map.1 h
      rfl

theorem head?_of_mem_locationsIn {entries : List (String × Node)} {l : Location} (h : l ∈ locationsIn entries) :
    ∃ entry ∈ entries, l.head? = some entry.1 := by
  induction entries with
  | nil => exact absurd h List.not_mem_nil
  | cons entry entries ih =>
    rcases List.mem_append.1 h with h | h
    · exact ⟨entry, List.mem_cons_self, head?_of_mem_locationsAt h⟩
    · obtain ⟨other, hother, hhead⟩ := ih h
      exact ⟨other, List.mem_cons_of_mem _ hother, hhead⟩

mutual

theorem named_locationsAt {name : String} {node : Node} {l : Location} (hplain : Path.isPlain name)
    (hnode : node.isNamed) (h : l ∈ locationsAt name node) : ∀ piece ∈ l, Path.isPlain piece ∧ Path.isStep piece := by
  cases node with
  | file contents =>
    rw [locationsAt] at h
    split at h
    · next hname =>
      obtain rfl := List.mem_singleton.1 h
      simpa using ⟨hplain, isStep_of_isManifestName hname⟩
    · exact absurd h List.not_mem_nil
  | link target => exact absurd h List.not_mem_nil
  | directory entries =>
    rw [locationsAt] at h
    split at h
    · exact absurd h List.not_mem_nil
    · next hskipped =>
      obtain ⟨rest, hrest, rfl⟩ := List.mem_map.1 h
      exact List.forall_mem_cons.2 ⟨⟨hplain, isStep_of_not_isSkippedDirectory hplain hskipped⟩,
        named_locationsIn hnode hrest⟩
  termination_by structural node

/-- The names on the way to a manifest are pieces of a path. -/
theorem named_locationsIn {entries : List (String × Node)} {l : Location}
    (hentries : Node.isNamedIn entries) (h : l ∈ locationsIn entries) :
    ∀ piece ∈ l, Path.isPlain piece ∧ Path.isStep piece := by
  cases entries with
  | nil => exact absurd h List.not_mem_nil
  | cons entry entries =>
    obtain ⟨name, node⟩ := entry
    simp only [Node.isNamedIn, Bool.and_eq_true] at hentries
    rcases List.mem_append.1 h with h | h
    · exact named_locationsAt hentries.1.1 hentries.1.2 h
    · exact named_locationsIn hentries.2 h
  termination_by structural entries

end

/-! ### The order of the search -/

mutual

theorem increasing_locationsAt {name : String} {node : Node} (hsorted : node.Sorted) : (locationsAt name node).Pairwise (· < ·) := by
  cases node with
  | file contents =>
    rw [locationsAt]
    split
    · exact List.pairwise_singleton _ _
    · exact .nil
  | link target => exact .nil
  | directory entries =>
    rw [locationsAt]
    split
    · exact .nil
    · exact List.pairwise_map.2 ((increasing_locationsIn hsorted.1 hsorted.2).imp List.cons_lt_cons_self.2)
  termination_by structural node

/-- The search goes through the locations in increasing order, so that no two of them are the same. -/
theorem increasing_locationsIn {entries : List (String × Node)}
    (hnames : entries.Pairwise fun a b => a.1 < b.1) (hsorted : Node.SortedIn entries) : (locationsIn entries).Pairwise (· < ·) := by
  cases entries with
  | nil => exact .nil
  | cons entry entries =>
    obtain ⟨name, node⟩ := entry
    obtain ⟨hfirst, hrest⟩ := List.pairwise_cons.1 hnames
    refine List.pairwise_append.2
      ⟨increasing_locationsAt hsorted.1, increasing_locationsIn hrest hsorted.2, fun l hl l' hl' => ?_⟩
    obtain ⟨entry, hentry, hhead'⟩ := head?_of_mem_locationsIn hl'
    obtain ⟨rest, rfl⟩ := List.head?_eq_some_iff.1 (head?_of_mem_locationsAt hl)
    obtain ⟨rest', rfl⟩ := List.head?_eq_some_iff.1 hhead'
    exact List.cons_lt_cons_iff.2 (.inl (hfirst entry hentry))
  termination_by structural entries

end

variable {entries : List (String × Node)}

theorem components_of_mem_locationsIn {l : Location} (here : Path) (hentries : Node.isNamedIn entries)
    (h : l ∈ locationsIn entries) : (here.below l).components = here.components ++ l :=
  Path.components_below here (named_locationsIn hentries h)

theorem increasing_inEntries (here : Path) (hentries : Node.isNamedIn entries)
    (hsorted : Node.Sorted (.directory entries)) : (inEntries here entries).Pairwise Path.Before := by
  rw [inEntries_eq, List.pairwise_map]
  refine (increasing_locationsIn hsorted.1 hsorted.2).imp_of_mem fun hl hl' hlt => ?_
  rw [Path.Before, components_of_mem_locationsIn here hentries hl,
    components_of_mem_locationsIn here hentries hl']
  exact List.append_left_lt hlt

theorem increasing_manifests {t : Tree} {root : Path} {paths : List Path} (hnames : t.isNamedAt root)
    (h : manifests t root = .ok paths) : paths.Pairwise Path.Before := by
  unfold manifests at h
  cases hnode : t.node? root with
  | none => exact absurd h (by simp [hnode])
  | some node =>
    rw [Tree.isNamedAt, hnode, Option.all_some] at hnames
    cases node with
    | directory entries =>
      simp only [hnode] at h
      split at h
      · obtain rfl := Except.ok.inj h
        exact increasing_inEntries root hnames (Tree.sorted_node? hnode)
      · exact absurd h (by simp)
    | file contents =>
      simp only [hnode] at h
      split at h
      · obtain rfl := Except.ok.inj h
        exact List.pairwise_singleton _ _
      · exact absurd h (by simp)
    | link target => exact absurd h (by simp [hnode])

theorem distinct_manifests {t : Tree} {root : Path} {paths : List Path} (hnames : t.isNamedAt root)
    (h : manifests t root = .ok paths) : paths.Pairwise fun p q => ¬p.Same q :=
  (increasing_manifests hnames h).imp Path.Before.not_same

end Discovery

end FeatureForwarding
