import FeatureForwarding.Proofs.Discovery
import FeatureForwarding.Proofs.Files.Write

/-! Where discovered manifests stand: in the tree at the names that their paths add to the path of
the root, as regular files. Writing over one of them leaves the others in place, and discovery finds
the same paths again. -/

namespace FeatureForwarding

namespace Files

namespace Tree

variable {t t' : Tree} {here p : Path} {l : Location} {name : String}

theorem at?_of_mem {entries : List (String × Node)} {node : Node}
    (hl : t.at? l = some (.directory entries))
    (h : (name, node) ∈ entries) : t.at? (l ++ [name]) = some node := by
  obtain ⟨hsorted, -⟩ := Node.sorted_of_below? t.sorted hl
  rw [at?, Node.below?_append, show t.root.below? l = some (.directory entries) from hl,
    Option.bind_some, Node.below?, NameMap.lookupIn_of_mem hsorted h]
  rfl

/-- Paths of things in the directory lead through its location. -/
structure Opens (t : Tree) (here : Path) (l : Location) : Prop where
  isDirectory : t.isDirectoryAt l
  leads : ∀ name, Path.isPlain name →
    ∃ from' fs, start [] (here.child name).pieces = (from', fs ++ [name]) ∧
      t.Leads linkLimit from' fs l

/-- The path leads to a regular file and meets no link at its end. -/
def Reaches (t : Tree) (p : Path) (l : Location) : Prop :=
  ∃ from' fs above name contents, start [] p.pieces = (from', fs ++ [name]) ∧
    t.Leads linkLimit from' fs above ∧
    l = above ++ [name] ∧ t.Leads linkLimit from' (fs ++ [name]) l ∧
      t.sight? l = some (.file contents)

theorem opens_of_locate? (hl : t.locate? p = some l) (hdirectory : t.isDirectoryAt l) :
    t.Opens p l := by
  refine ⟨hdirectory, fun name hplain => ?_⟩
  obtain ⟨-, hway, -⟩ := locate?_eq_some.1 hl
  obtain ⟨ps, hchild, hpieces⟩ := Path.pieces_child p hplain
  obtain ⟨from', fs, hstart, hroot⟩ := exists_start [] ps
  refine ⟨from', fs, by rw [hchild, hstart], ?_⟩
  rcases hpieces with hslash | ⟨hpieces, hne⟩
  · rw [hslash, hstart] at hway
    obtain ⟨mid, n, hmid, hidle⟩ := hway.split
    have hthin := hidle.filter
    obtain rfl : l = mid := hthin.of_nil
    exact hmid
  · rw [hpieces, hroot hne] at hway
    exact hway

/-- A name leads to what stands under it, unless that is a link. -/
theorem Opens.leads_name (h : t.Opens here l) {from' : Location} {fs : List String}
    (hway : t.Leads linkLimit from' fs l)
    (hstep : Path.isStep name) (hup : name ≠ "..") {node : Node}
    (hnode : t.at? (l ++ [name]) = some node)
    (hlink : ∀ target, node ≠ .link target) : t.Leads linkLimit from' (fs ++ [name])
    (l ++ [name]) := by
  refine hway.append (.go ?_ .done)
  cases node with
  | directory entries => simp [turn?, h.isDirectory, hstep, hup, sight?, hnode, Node.entry, turnAt]
  | file contents => simp [turn?, h.isDirectory, hstep, hup, sight?, hnode, Node.entry, turnAt]
  | link target => exact absurd rfl (hlink target)

theorem Opens.child (h : t.Opens here l) (hplain : Path.isPlain name) (hstep : Path.isStep name)
    (hup : name ≠ "..")
    {entries : List (String × Node)} (hnode : t.at? (l ++ [name]) = some (.directory entries)) :
    t.Opens (here.child name) (l ++ [name]) := by
  refine ⟨by simp [isDirectoryAt, hnode, Node.isDirectory], fun below hbelow => ?_⟩
  obtain ⟨from', fs, hstart, hway⟩ := h.leads name hplain
  obtain ⟨ps, hchild, hpieces⟩ := Path.pieces_child (here.child name) hbelow
  obtain ⟨from'', gs, hstart', hroot⟩ := exists_start [] ps
  refine ⟨from'', gs, by rw [hchild, hstart'], ?_⟩
  rcases hpieces with hslash | ⟨hpieces, hne⟩
  · rw [hslash, hstart'] at hstart
    obtain ⟨-, hlast⟩ := List.append_inj' (Prod.mk.inj hstart).2 rfl
    obtain rfl := (List.cons.inj hlast).1
    exact absurd hstep (by simp [Path.isStep])
  · rw [hpieces, hroot hne] at hstart
    obtain ⟨rfl, rfl⟩ := Prod.mk.inj hstart
    exact h.leads_name hway hstep hup hnode (by simp)

theorem Opens.reaches (h : t.Opens here l) (hplain : Path.isPlain name) (hstep : Path.isStep name)
    (hup : name ≠ "..")
    {contents : Contents} (hfile : t.at? (l ++ [name]) = some (.file contents)) :
      t.Reaches (here.child name) (l ++ [name]) := by
  obtain ⟨from', fs, hstart, hway⟩ := h.leads name hplain
  exact ⟨from', fs, l, name, contents, hstart, hway, rfl, h.leads_name hway hstep hup hfile
    (by simp), at?_eq_file.1 hfile⟩

/-- If the path can be followed at all, it leads there. -/
theorem Reaches.unique {l' : Location} (h : t.Reaches p l) (hl' : t.locate? p = some l') :
    l' = l := by
  obtain ⟨here', fs', above', name', contents, hstart', -, -, hall, -⟩ := h
  obtain ⟨-, hway, -⟩ := locate?_eq_some.1 hl'
  rw [hstart'] at hway
  exact hway.unique hall

/-- A write over a regular file keeps the shape of the tree. -/
theorem write_of_reaches {content old : String} (h : t.write p content = .ok t')
    (hread : t.readText? p = some old)
    (hreaches : t.Reaches p l) :
    t.locate? p = some l ∧ t'.root.shape = t.root.shape ∧
      ∀ l', t'.sight? l' = if l' = l then some (.file (.text content)) else t.sight? l' := by
  obtain ⟨l₀, hl₀, hfile⟩ := readText?_eq_some.1 hread
  obtain ⟨here, fs, above, name, hstart, -, -, hway, rfl, hreplaced, hkept⟩ :=
    replaced_of_write h hl₀ hfile
  obtain ⟨here', fs', above', name', contents, hstart', hway', rfl, -, hsight⟩ := hreaches
  obtain ⟨rfl, hnames⟩ := Prod.mk.inj (hstart.symm.trans hstart')
  obtain ⟨rfl, hname⟩ := List.append_inj' hnames rfl
  obtain rfl := (List.cons.inj hname).1
  obtain rfl := hway.unique hway'
  obtain rfl := hkept _ hsight
  exact ⟨hl₀, shape_place content (at?_eq_file.2 hfile), hreplaced.sight⟩

end Tree

namespace Node

mutual

theorem isNamed_shape (node : Node) : node.shape.isNamed = node.isNamed := by
  cases node with
  | file contents => rfl
  | link target => rfl
  | directory entries => exact isNamedIn_shapeIn entries
  termination_by structural node

theorem isNamedIn_shapeIn (entries : List (String × Node)) :
    isNamedIn (shapeIn entries) = isNamedIn entries := by
  cases entries with
  | nil => rfl
  | cons entry entries =>
    obtain ⟨name, node⟩ := entry
    rw [shapeIn, isNamedIn, isNamedIn, isNamed_shape node, isNamedIn_shapeIn entries]
  termination_by structural entries

end

end Node

theorem Tree.node?_of_shape {t t' : Tree} (h : t'.root.shape = t.root.shape) (p : Path) :
    (t'.node? p).map Node.shape = (t.node? p).map Node.shape := by
  unfold Tree.node?
  rw [Tree.locate?_of_shape h]
  cases t.locate? p with
  | none => rfl
  | some l => exact Tree.at?_of_shape h l

theorem Tree.isNamedAt_of_shape {t t' : Tree} (h : t'.root.shape = t.root.shape) (p : Path) :
    t'.isNamedAt p = t.isNamedAt p := by
  have hnamed : (fun node => Node.isNamed (Node.shape node)) = Node.isNamed :=
    funext Node.isNamed_shape
  have hnode := congrArg (Option.all Node.isNamed) (Tree.node?_of_shape h p)
  simpa only [Tree.isNamedAt, Option.all_map, Function.comp_def, hnamed] using hnode

end Files

namespace Discovery

open Files (Path Node Tree Location)

variable {t : Tree}

theorem ne_up_of_not_isSkippedDirectory {name : String} (h : ¬isSkippedDirectory name) :
    name ≠ ".." := by
  rintro rfl
  exact h (by decide +kernel)

mutual

theorem reaches_atEntry {here p : Path} {l : Location} {name : String} {node : Node}
    (hopens : t.Opens here l)
    (hplain : Path.isPlain name) (hnamed : node.isNamed) (hnode : t.at? (l ++ [name]) = some node)
    (hp : p ∈ atEntry here name node) : ∃ rest, p.components = here.components ++ rest ∧
      t.Reaches p (l ++ rest) := by
  cases node with
  | file contents =>
    rw [atEntry] at hp
    split at hp
    · next hname =>
      obtain rfl := List.mem_singleton.1 hp
      have hstep := isStep_of_isManifestName hname
      have hup : name ≠ ".." := by
        rintro rfl
        exact absurd hname (by decide +kernel)
      exact ⟨[name], Path.components_child here hplain hstep, hopens.reaches hplain hstep hup hnode⟩
    · exact absurd hp List.not_mem_nil
  | link target => exact absurd hp List.not_mem_nil
  | directory entries =>
    rw [atEntry] at hp
    split at hp
    · exact absurd hp List.not_mem_nil
    · next hskipped =>
      have hstep := isStep_of_not_isSkippedDirectory hplain hskipped
      have hbelow := hopens.child hplain hstep (ne_up_of_not_isSkippedDirectory hskipped) hnode
      obtain ⟨rest, hcomponents, hreaches⟩ :=
        reaches_inEntries hbelow hnamed (fun name node hmem => Tree.at?_of_mem hnode hmem) hp
      refine ⟨name :: rest, ?_, by simpa using hreaches⟩
      rw [hcomponents, Path.components_child here hplain hstep, List.append_assoc,
        List.singleton_append]
  termination_by structural node

theorem reaches_inEntries {here p : Path} {l : Location} {entries : List (String × Node)}
    (hopens : t.Opens here l)
    (hnamed : Node.isNamedIn entries) (hentries : ∀ name node, (name, node) ∈ entries →
      t.at? (l ++ [name]) = some node)
    (hp : p ∈ inEntries here entries) : ∃ rest, p.components = here.components ++ rest ∧
      t.Reaches p (l ++ rest) := by
  cases entries with
  | nil => exact absurd hp List.not_mem_nil
  | cons entry entries =>
    obtain ⟨name, node⟩ := entry
    simp only [Node.isNamedIn, Bool.and_eq_true] at hnamed
    rw [inEntries, List.mem_append] at hp
    rcases hp with hp | hp
    · exact reaches_atEntry hopens hnamed.1.1 hnamed.1.2 (hentries name node List.mem_cons_self) hp
    · exact reaches_inEntries hopens hnamed.2 (fun name node hmem => hentries name node
        (List.mem_cons_of_mem _ hmem)) hp
  termination_by structural entries

end

/-! ### Discovery and shape -/

mutual

theorem atEntry_shape (here : Path) (name : String) (node : Node) :
    atEntry here name node.shape = atEntry here name node := by
  cases node with
  | file contents => rfl
  | link target => rfl
  | directory entries => rw [Node.shape, atEntry, atEntry, inEntries_shapeIn (here.child name) entries]
  termination_by structural node

theorem inEntries_shapeIn (here : Path) (entries : List (String × Node)) :
    inEntries here (Node.shapeIn entries) = inEntries here entries := by
  cases entries with
  | nil => rfl
  | cons entry entries =>
    obtain ⟨name, node⟩ := entry
    rw [Node.shapeIn, inEntries, inEntries, atEntry_shape here name node,
      inEntries_shapeIn here entries]
  termination_by structural entries

end

mutual

theorem canOpenEntry_shape (here : Path) (name : String) (node : Node) :
    canOpenEntry here name node.shape = canOpenEntry here name node := by
  cases node with
  | file contents => rfl
  | link target => rfl
  | directory entries => rw [Node.shape, canOpenEntry, canOpenEntry, canOpenEntries_shapeIn (here.child name) entries]
  termination_by structural node

theorem canOpenEntries_shapeIn (here : Path) (entries : List (String × Node)) :
    canOpenEntries here (Node.shapeIn entries) = canOpenEntries here entries := by
  cases entries with
  | nil => rfl
  | cons entry entries =>
    obtain ⟨name, node⟩ := entry
    rw [Node.shapeIn, canOpenEntries, canOpenEntries, canOpenEntry_shape here name node,
      canOpenEntries_shapeIn here entries]
  termination_by structural entries

end

/-- Discovery does not look into files. -/
theorem manifests_of_shape {t' : Tree} (h : t'.root.shape = t.root.shape) (root : Path) :
    manifests t' root = manifests t root := by
  have hnode := Tree.node?_of_shape h root
  unfold manifests
  cases hn : t.node? root with
  | none =>
    rw [hn, Option.map_none] at hnode
    rw [Option.map_eq_none_iff.1 hnode]
  | some node =>
    rw [hn, Option.map_some] at hnode
    obtain ⟨node', hn', hshape⟩ := Option.map_eq_some_iff.1 hnode
    rw [hn']
    cases node with
    | file contents => cases node' <;> simp_all [Node.shape]
    | link target => cases node' <;> simp_all [Node.shape]
    | directory entries =>
      cases node' with
      | directory entries' =>
        have hentries : Node.shapeIn entries' = Node.shapeIn entries := Node.directory.inj hshape
        simp only
        rw [← canOpenEntries_shapeIn root entries', ← inEntries_shapeIn root entries', hentries,
          canOpenEntries_shapeIn,
          inEntries_shapeIn]
      | file contents => exact absurd hshape (by simp [Node.shape])
      | link target => exact absurd hshape (by simp [Node.shape])

/-- Under a directory every discovered path leads to a file of its own. -/
theorem reaches_manifests {root : Path} {entries : List (String × Node)} {paths : List Path}
    (hnames : t.isNamedAt root)
    (hroot : t.node? root = some (.directory entries)) (h : manifests t root = .ok paths) :
    ∃ above, ∀ p ∈ paths, ∃ rest, p.components = root.components ++ rest ∧
      t.Reaches p (above ++ rest) := by
  obtain ⟨above, habove, hentries⟩ := Option.bind_eq_some_iff.1 hroot
  simp only [manifests, hroot] at h
  split at h
  · obtain rfl := Except.ok.inj h
    rw [Tree.isNamedAt, hroot, Option.all_some] at hnames
    refine ⟨above, fun p hp => reaches_inEntries ?_ hnames (fun name node hmem => Tree.at?_of_mem hentries hmem) hp⟩
    exact Tree.opens_of_locate? habove (by simp [Tree.isDirectoryAt, hentries, Node.isDirectory])
  · exact absurd h (by simp)

end Discovery

end FeatureForwarding
