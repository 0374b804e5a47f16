import FeatureForwarding.Proofs.Discovery
import FeatureForwarding.Proofs.Files.Write
import FeatureForwarding.Text.Order

/-! What discovery finds, described without its walk over the entries. Below a directory these are the
regular files with the extension of manifests that stand in no directory that is skipped, in the order of
their paths; a directory that cannot be opened stops the search. -/

namespace FeatureForwarding.Discovery

open Files (Path Node Tree Location Contents)

/-! ### Names and locations -/

theorem isManifestName_iff {name : String} :
    isManifestName name ↔ ∃ stem, stem ≠ "" ∧ name = stem ++ ".toml" := by
  have hdot : ∀ stem, stem ++ "." ++ manifestExtension = stem ++ ".toml" := fun stem => by
    rw [String.append_assoc]
    rfl
  have hplain : '.' ∉ manifestExtension.toList := by decide
  simp [isManifestName, Path.extension?_eq_some, hdot, hplain]

theorem isSkippedDirectory_iff {name : String} :
    isSkippedDirectory name ↔ name = "target" ∨ ∃ rest, name = "." ++ rest := by
  simp only [isSkippedDirectory, Bool.or_eq_true, beq_iff_eq, List.head?_eq_some_iff]
  refine or_congr_right ⟨fun ⟨rest, h⟩ => ⟨String.ofList rest, ?_⟩, fun ⟨rest, h⟩ => ⟨rest.toList, ?_⟩⟩
  · rw [← String.toList_inj, h]
    simp
  · rw [h, String.toList_append]
    rfl

theorem isSkippedDirectory_eq_false_iff {name : String} :
    isSkippedDirectory name = false ↔ name ≠ "target" ∧ ∀ rest, name ≠ "." ++ rest := by
  rw [← Bool.not_eq_true, isSkippedDirectory_iff, not_or, not_exists]

/-- A regular file with the extension of manifests stands at the location, and no directory on the way is
skipped. No link is followed on the way. -/
structure IsManifestAt (top : Node) (l : Location) : Prop where
  file : ∃ contents, top.below? l = some (.file contents)
  extension : ∃ stem, stem ≠ "" ∧ l.getLast? = some (stem ++ ".toml")
  above : ∀ directory ∈ l.dropLast, directory ≠ "target" ∧ ∀ rest, directory ≠ "." ++ rest

/-- The search comes to the directory at the location. -/
structure IsSearched (top : Node) (l : Location) : Prop where
  directory : ∃ entries, top.below? l = some (.directory entries)
  above : ∀ directory ∈ l, directory ≠ "target" ∧ ∀ rest, directory ≠ "." ++ rest

theorem any_isFile {found : Option Node} :
    found.any Node.isFile ↔ ∃ contents, found = some (.file contents) := by
  rcases found with _ | (_ | _ | _) <;> simp [Node.isFile]

theorem any_isDirectory {found : Option Node} :
    found.any Node.isDirectory ↔ ∃ entries, found = some (.directory entries) := by
  rcases found with _ | (_ | _ | _) <;> simp [Node.isDirectory]

theorem isManifestAt_iff {top : Node} {l : Location} : IsManifestAt top l ↔
    (top.below? l).any Node.isFile ∧ l.getLast?.any isManifestName ∧
      l.dropLast.all fun directory => !isSkippedDirectory directory := by
  have hextension : l.getLast?.any isManifestName ↔
      ∃ stem, stem ≠ "" ∧ l.getLast? = some (stem ++ ".toml") := by
    cases l.getLast? <;> simp [isManifestName_iff]
  simp only [any_isFile, hextension, List.all_eq_true, Bool.not_eq_true', isSkippedDirectory_eq_false_iff]
  exact ⟨fun h => ⟨h.file, h.extension, h.above⟩, fun ⟨hfile, hextension, habove⟩ => ⟨hfile, hextension, habove⟩⟩

instance (top : Node) (l : Location) : Decidable (IsManifestAt top l) :=
  decidable_of_iff' _ isManifestAt_iff

theorem isSearched_iff {top : Node} {l : Location} : IsSearched top l ↔
    (top.below? l).any Node.isDirectory ∧ l.all fun directory => !isSkippedDirectory directory := by
  simp only [any_isDirectory, List.all_eq_true, Bool.not_eq_true', isSkippedDirectory_eq_false_iff]
  exact ⟨fun h => ⟨h.directory, h.above⟩, fun ⟨hdirectory, habove⟩ => ⟨hdirectory, habove⟩⟩

instance (top : Node) (l : Location) : Decidable (IsSearched top l) :=
  decidable_of_iff' _ isSearched_iff

section

variable {entries : List (String × Node)} {name : String} {rest : Location}

theorem not_isManifestAt_nil : ¬IsManifestAt (.directory entries) [] := fun h => by
  obtain ⟨contents, hfile⟩ := h.file
  exact absurd hfile (by simp [Node.below?])

/-- A manifest below a directory is an entry of it or stands below one. -/
theorem isManifestAt_cons : IsManifestAt (.directory entries) (name :: rest) ↔
    (∃ contents, NameMap.lookupIn name entries = some (.file contents) ∧ rest = [] ∧ isManifestName name) ∨
    ∃ below, NameMap.lookupIn name entries = some (.directory below) ∧ isSkippedDirectory name = false ∧
      IsManifestAt (.directory below) rest := by
  constructor
  · rintro ⟨⟨contents, hfile⟩, ⟨stem, hstem, hlast⟩, habove⟩
    obtain ⟨node, hnode, hbelow⟩ := Option.bind_eq_some_iff.1 hfile
    cases rest with
    | nil =>
      obtain rfl := Option.some.inj hbelow
      exact .inl ⟨contents, hnode, rfl, isManifestName_iff.2 ⟨stem, hstem, Option.some.inj hlast⟩⟩
    | cons next rest =>
      obtain ⟨below, -, rfl, -⟩ := Node.directory_of_below?_cons hbelow
      obtain ⟨hname, habove⟩ := List.forall_mem_cons.1 habove
      exact .inr ⟨below, hnode, isSkippedDirectory_eq_false_iff.2 hname, ⟨contents, hbelow⟩,
        ⟨stem, hstem, hlast⟩, habove⟩
  · rintro (⟨contents, hnode, rfl, hname⟩ | ⟨below, hnode, hname, h⟩)
    · obtain ⟨stem, hstem, rfl⟩ := isManifestName_iff.1 hname
      exact ⟨⟨contents, by rw [Node.below?, hnode]; rfl⟩, ⟨stem, hstem, rfl⟩, by simp⟩
    · cases rest with
      | nil => exact absurd h not_isManifestAt_nil
      | cons next rest =>
        obtain ⟨⟨contents, hfile⟩, hextension, habove⟩ := h
        exact ⟨⟨contents, by rw [Node.below?, hnode]; exact hfile⟩, hextension,
          List.forall_mem_cons.2 ⟨isSkippedDirectory_eq_false_iff.1 hname, habove⟩⟩

theorem isSearched_nil (entries : List (String × Node)) : IsSearched (.directory entries) [] :=
  ⟨⟨entries, rfl⟩, nofun⟩

theorem isSearched_cons : IsSearched (.directory entries) (name :: rest) ↔
    ∃ below, NameMap.lookupIn name entries = some (.directory below) ∧ isSkippedDirectory name = false ∧
      IsSearched (.directory below) rest := by
  constructor
  · rintro ⟨⟨found, hfound⟩, habove⟩
    obtain ⟨node, hnode, hbelow⟩ := Option.bind_eq_some_iff.1 hfound
    obtain ⟨hname, habove⟩ := List.forall_mem_cons.1 habove
    obtain ⟨below, rfl⟩ : ∃ below, node = .directory below := by
      cases rest with
      | nil => exact ⟨found, Option.some.inj hbelow⟩
      | cons next rest =>
        obtain ⟨below, -, rfl, -⟩ := Node.directory_of_below?_cons hbelow
        exact ⟨below, rfl⟩
    exact ⟨below, hnode, isSkippedDirectory_eq_false_iff.2 hname, ⟨found, hbelow⟩, habove⟩
  · rintro ⟨below, hnode, hname, ⟨found, hfound⟩, habove⟩
    exact ⟨⟨found, by rw [Node.below?, hnode]; exact hfound⟩,
      List.forall_mem_cons.2 ⟨isSkippedDirectory_eq_false_iff.1 hname, habove⟩⟩

/-- At one entry the search comes to nothing but that directory and what is below it. -/
theorem isSearched_entry {node : Node} {l : Location} :
    l ≠ [] ∧ IsSearched (.directory [(name, node)]) l ↔ ∃ below rest, node = .directory below ∧
      l = name :: rest ∧ isSkippedDirectory name = false ∧ IsSearched (.directory below) rest := by
  constructor
  · rintro ⟨hne, hl⟩
    obtain ⟨first, rest, rfl⟩ := List.exists_cons_of_ne_nil hne
    obtain ⟨below, hbelow, hname, hrest⟩ := isSearched_cons.1 hl
    by_cases hfirst : first = name
    · subst hfirst
      exact ⟨below, rest, by simpa [NameMap.lookupIn] using hbelow, rfl, hname, hrest⟩
    · simp [NameMap.lookupIn, hfirst] at hbelow
  · rintro ⟨below, rest, rfl, rfl, hname, hrest⟩
    exact ⟨List.cons_ne_nil _ _, isSearched_cons.2 ⟨below, if_pos rfl, hname, hrest⟩⟩

end

/-! ### The walk -/

mutual

theorem mem_locationsAt {name : String} {node : Node} {l : Location} (hsorted : node.Sorted) :
    l ∈ locationsAt name node ↔ IsManifestAt (.directory [(name, node)]) l := by
  cases l with
  | nil => exact iff_of_false (fun h => absurd (head?_of_mem_locationsAt h) (by simp)) not_isManifestAt_nil
  | cons first rest =>
    by_cases hfirst : first = name
    · subst hfirst
      have hlookup : NameMap.lookupIn first [(first, node)] = some node := if_pos rfl
      rw [isManifestAt_cons, hlookup]
      cases node with
      | file contents => simp [locationsAt, and_comm]
      | link target => simp [locationsAt]
      | directory entries =>
        rw [locationsAt]
        split
        · next hskipped => simp [hskipped]
        · next hskipped => simp [hskipped, mem_locationsIn hsorted.1 hsorted.2]
    · refine iff_of_false (fun h => hfirst ?_) fun h => ?_
      · simpa using head?_of_mem_locationsAt h
      · simp [isManifestAt_cons, NameMap.lookupIn, hfirst] at h
  termination_by structural node

/-- The locations of the search are those of the manifests. -/
theorem mem_locationsIn {entries : List (String × Node)} {l : Location}
    (hnames : entries.Pairwise fun a b => a.1 < b.1) (hsorted : Node.SortedIn entries) :
    l ∈ locationsIn entries ↔ IsManifestAt (.directory entries) l := by
  cases entries with
  | nil =>
    refine iff_of_false List.not_mem_nil fun h => ?_
    cases l with
    | nil => exact not_isManifestAt_nil h
    | cons first rest => simp [isManifestAt_cons, NameMap.lookupIn] at h
  | cons entry entries =>
    obtain ⟨name, node⟩ := entry
    obtain ⟨hfirst, hrest⟩ := List.pairwise_cons.1 hnames
    rw [locationsIn, List.mem_append, mem_locationsAt hsorted.1, mem_locationsIn hrest hsorted.2]
    cases l with
    | nil => simp [not_isManifestAt_nil]
    | cons first rest =>
      by_cases hname : first = name
      · subst hname
        simp [isManifestAt_cons, NameMap.lookupIn, NameMap.lookupIn_eq_none hfirst]
      · simp [isManifestAt_cons, NameMap.lookupIn, hname]
  termination_by structural entries

end

mutual

theorem canOpenEntry_iff {here : Path} {name : String} {node : Node} (hsorted : node.Sorted) :
    canOpenEntry here name node ↔ ∀ l, l ≠ [] → IsSearched (.directory [(name, node)]) l →
      (here.below l).isUsable := by
  simp only [← and_imp, isSearched_entry]
  cases node with
  | file contents => simp [canOpenEntry]
  | link target => simp [canOpenEntry]
  | directory entries =>
    rw [canOpenEntry, Bool.or_eq_true, Bool.and_eq_true, canOpenEntries_iff hsorted.1 hsorted.2]
    constructor
    · rintro h l ⟨below, rest, hbelow, rfl, hname, hrest⟩
      obtain rfl := Node.directory.inj hbelow
      obtain ⟨husable, hopen⟩ := h.resolve_left (by simp [hname])
      by_cases hnil : rest = []
      · exact hnil ▸ husable
      · exact hopen rest hnil hrest
    · intro h
      cases hname : isSkippedDirectory name with
      | true => exact .inl rfl
      | false =>
        refine .inr ⟨h [name] ⟨entries, [], rfl, rfl, hname, isSearched_nil entries⟩, fun rest _ hrest => ?_⟩
        exact h (name :: rest) ⟨entries, rest, rfl, rfl, hname, hrest⟩
  termination_by structural node

/-- The search goes through if each directory that it comes to has a path under which it can be opened. -/
theorem canOpenEntries_iff {here : Path} {entries : List (String × Node)}
    (hnames : entries.Pairwise fun a b => a.1 < b.1) (hsorted : Node.SortedIn entries) :
    canOpenEntries here entries ↔ ∀ l, l ≠ [] → IsSearched (.directory entries) l →
      (here.below l).isUsable := by
  cases entries with
  | nil =>
    refine iff_of_true rfl fun l hne hl => ?_
    obtain ⟨first, rest, rfl⟩ := List.exists_cons_of_ne_nil hne
    simp [isSearched_cons, NameMap.lookupIn] at hl
  | cons entry entries =>
    obtain ⟨name, node⟩ := entry
    obtain ⟨hfirst, hrest⟩ := List.pairwise_cons.1 hnames
    rw [canOpenEntries, Bool.and_eq_true, canOpenEntry_iff hsorted.1, canOpenEntries_iff hrest hsorted.2,
      ← forall_and]
    refine forall_congr' fun l => ?_
    cases l with
    | nil => simp
    | cons first rest =>
      by_cases hname : first = name
      · subst hname
        simp [isSearched_cons, NameMap.lookupIn, NameMap.lookupIn_eq_none hfirst]
      · simp [isSearched_cons, NameMap.lookupIn, hname]
  termination_by structural entries

end

/-! ### What discovery returns -/

/-- The paths are those of the manifests below the directory, each once and in order. -/
structure Finds (top : Node) (root : Path) (paths : List Path) : Prop where
  mem : ∀ p, p ∈ paths ↔ ∃ l, IsManifestAt top l ∧ p = root.below l
  components : ∀ l, IsManifestAt top l → (root.below l).components = root.components ++ l
  increasing : paths.Pairwise Path.Before
  /-- To sort the paths of the search changes nothing. -/
  sorted : Text.stableSort (fun p q => decide (p.Before q)) paths = paths

theorem finds_inEntries (root : Path) {entries : List (String × Node)} (hnames : Node.isNamedIn entries)
    (hsorted : Node.Sorted (.directory entries)) :
    Finds (.directory entries) root (inEntries root entries) where
  mem p := by
    simp only [inEntries_eq, List.mem_map, mem_locationsIn hsorted.1 hsorted.2, eq_comm (a := p)]
  components l hl :=
    components_of_mem_locationsIn root hnames ((mem_locationsIn hsorted.1 hsorted.2).2 hl)
  increasing := increasing_inEntries root hnames hsorted
  sorted := Text.stableSort_of_pairwise
    ((increasing_inEntries root hnames hsorted).imp fun h => decide_eq_false (List.lt_asymm h))

/-- Discovery from a directory finds the manifests below it, unless it comes to a directory that cannot be
opened; discovery from a file finds that file if it has the extension. -/
structure IsExact (t : Tree) (root : Path) : Prop where
  finds : ∀ entries, t.node? root = some (.directory entries) →
    (∀ l, IsSearched (.directory entries) l → (root.below l).isUsable) →
      ∃ paths, manifests t root = .ok paths ∧ Finds (.directory entries) root paths
  unwalkable : ∀ entries, t.node? root = some (.directory entries) →
    ∀ l, IsSearched (.directory entries) l → (root.below l).isUsable = false →
      manifests t root = .error (.unwalkable root)
  file : ∀ contents, t.node? root = some (.file contents) →
    ∀ stem, stem ≠ "" → root.fileName? = some (stem ++ ".toml") → manifests t root = .ok [root]
  notManifest : ∀ contents, t.node? root = some (.file contents) →
    (∀ stem, stem ≠ "" → root.fileName? ≠ some (stem ++ ".toml")) →
      manifests t root = .error (.notManifest root)

variable {t : Tree} {root : Path}

theorem canOpenEntries_iff_of_node? {entries : List (String × Node)}
    (hroot : t.node? root = some (.directory entries)) :
    canOpenEntries root entries ↔ ∀ l, IsSearched (.directory entries) l → (root.below l).isUsable := by
  have hsorted := Tree.sorted_node? hroot
  obtain ⟨above, habove, -⟩ := Option.bind_eq_some_iff.1 hroot
  have husable : root.isUsable := (Tree.locate?_eq_some.1 habove).1
  rw [canOpenEntries_iff hsorted.1 hsorted.2]
  refine ⟨fun h l hl => ?_, fun h l _ => h l⟩
  by_cases hnil : l = []
  · exact hnil ▸ husable
  · exact h l hnil hl

/-- One directory that the search cannot open spoils it. -/
theorem manifests_eq_unwalkable {entries : List (String × Node)} {l : Location}
    (hroot : t.node? root = some (.directory entries)) (hl : IsSearched (.directory entries) l)
    (hunusable : (root.below l).isUsable = false) : manifests t root = .error (.unwalkable root) := by
  have hclosed : ¬canOpenEntries root entries := fun h =>
    absurd ((canOpenEntries_iff_of_node? hroot).1 h l hl) (by simp [hunusable])
  simp [manifests, hroot, hclosed]

theorem manifests_isExact (hnames : t.isNamedAt root) : IsExact t root where
  finds entries hroot hopen := by
    have hnamed : Node.isNamedIn entries := by rwa [Tree.isNamedAt, hroot] at hnames
    refine ⟨inEntries root entries, ?_, finds_inEntries root hnamed (Tree.sorted_node? hroot)⟩
    simp [manifests, hroot, (canOpenEntries_iff_of_node? hroot).2 hopen]
  unwalkable _ hroot _ hl hunusable := manifests_eq_unwalkable hroot hl hunusable
  file contents hroot stem hstem hname := by
    have hmanifest : isManifestName (stem ++ ".toml") := isManifestName_iff.2 ⟨stem, hstem, rfl⟩
    simp [manifests, hroot, hname, hmanifest]
  notManifest contents hroot h := by
    have hnot : ¬root.fileName?.any isManifestName := by
      rw [Option.any_eq_true]
      rintro ⟨name, hname, hmanifest⟩
      obtain ⟨stem, hstem, rfl⟩ := isManifestName_iff.1 hmanifest
      exact h stem hstem hname
    simp [manifests, hroot, hnot]

/-- A manifest beside a directory with another one, and two in directories that are skipped. -/
def nested : Tree :=
  [["c.toml"], ["sub", "a.toml"], [".git", "d.toml"], ["sub", "target", "e.toml"]].foldl
    (fun t l => t.place l (.file (.text ""))) .empty

theorem manifests_isExact_nested : nested.isNamedAt ⟨"."⟩ ∧ IsExact nested ⟨"."⟩ ∧
    (∃ entries, nested.node? ⟨"."⟩ = some (.directory entries) ∧
      ∃ paths, manifests nested ⟨"."⟩ = .ok paths ∧ Finds (.directory entries) ⟨"."⟩ paths) ∧
    manifests nested ⟨"."⟩ = .ok [⟨"./c.toml"⟩, ⟨"./sub/a.toml"⟩] := by
  have hnames : nested.isNamedAt ⟨"."⟩ := by decide +kernel
  have hfound : manifests nested ⟨"."⟩ = .ok [⟨"./c.toml"⟩, ⟨"./sub/a.toml"⟩] := by decide +kernel
  have hexact := manifests_isExact hnames
  refine ⟨hnames, hexact, ?_, hfound⟩
  obtain ⟨entries, hroot⟩ := any_isDirectory.1
    (show (nested.node? ⟨"."⟩).any Node.isDirectory by decide +kernel)
  refine ⟨entries, hroot, hexact.finds entries hroot ((canOpenEntries_iff_of_node? hroot).1 ?_)⟩
  by_contra hclosed
  simp [manifests, hroot, hclosed] at hfound

/-! ### Roots with long paths -/

theorem node?_idle (n : Nat) (h : 2 * (n + 1) ≤ Path.lengthLimit) (ht : t.root.isDirectory) :
    t.node? (Path.idle (n + 1)) = some t.root := by
  have hroot : t.isDirectoryAt [] := ht
  have hstay (pieces : List String) (hpieces : ∀ piece ∈ pieces, Path.isStep piece = false) :
      t.Leads Tree.linkLimit [] pieces [] := by
    induction pieces with
    | nil => exact .done
    | cons piece rest ih =>
      obtain ⟨hpiece, hrest⟩ := List.forall_mem_cons.1 hpieces
      exact .go (by simp [Tree.turn?, hroot, hpiece]) (ih hrest)
  have hlocate : t.locate? (Path.idle (n + 1)) = some [] := by
    refine Tree.locate?_eq_some.2 ⟨Path.isUsable_idle h, ?_, rfl⟩
    rw [Path.pieces_idle]
    change t.Leads Tree.linkLimit [] (List.replicate (n + 1) "." ++ [""]) []
    refine hstay _ fun piece hpiece => ?_
    rcases List.mem_append.1 hpiece with hpiece | hpiece
    · rw [List.eq_of_mem_replicate hpiece]
      rfl
    · rw [List.mem_singleton.1 hpiece]
      rfl
  rw [Tree.node?, hlocate]
  rfl

/-- Behind a long root the directory in the tree cannot be opened, so that nothing is found. -/
theorem manifests_idle_nested : nested.isNamedAt (Path.idle 2047) ∧
    nested.node? (Path.idle 2047) = some nested.root ∧ nested.root.isDirectory ∧
    IsManifestAt nested.root ["sub", "a.toml"] ∧ IsManifestAt nested.root ["c.toml"] ∧
    ¬∃ paths, manifests nested (Path.idle 2047) = .ok paths := by
  have hdirectory : nested.root.isDirectory := by decide +kernel
  have hroot := node?_idle 2046 (by decide) hdirectory
  have hlong : ((Path.idle 2047).below ["sub"]).isUsable = false := by
    rw [Path.below_cons, Path.below_nil]
    refine Path.not_isUsable_child ?_
    rw [Path.size_idle]
    decide +kernel
  refine ⟨?_, hroot, hdirectory, by decide +kernel, by decide +kernel, ?_⟩
  · rw [Tree.isNamedAt, hroot]
    decide +kernel
  · obtain ⟨entries, hentries⟩ := any_isDirectory.1 (show (some nested.root).any Node.isDirectory from hdirectory)
    have hsearched : IsSearched nested.root ["sub"] := by decide +kernel
    rw [Option.some.inj hentries] at hroot hsearched
    simp [manifests_eq_unwalkable hroot hsearched hlong]

end FeatureForwarding.Discovery
