import FeatureForwarding.Run.Operation
import FeatureForwarding.Proofs.Discovery
import FeatureForwarding.Proofs.Forwarding.Settle

/-! What a scan finds: manifests that were read from the tree, no two at the same path, and what a
write run plans for them. -/

namespace FeatureForwarding

open Files (Path Tree)

/-- What a test of a result finds out. -/
theorem exists_ok_of_any {ε α : Type} {x : Except ε α} {p : α → Bool} (h : x.toOption.any p) :
    ∃ a, x = .ok a ∧ p a := by
  cases x with
  | ok a => exact ⟨a, rfl, h⟩
  | error cause => exact absurd h (by simp [Except.toOption])

/-- What follows a step that may fail follows a result of it. -/
theorem exists_of_bind {ε α β : Type} {x : Except ε α} {f : α → Except ε β} {b : β}
    (h : (x >>= f) = .ok b) : ∃ a, x = .ok a ∧ f a = .ok b := by
  cases x with
  | ok a => exact ⟨a, rfl, h⟩
  | error cause => exact absurd h (by simp [bind, Except.bind])

namespace Manifest

variable {t : Tree} {path : Path} {m : Manifest}

theorem load_eq_ok (h : load t path = .ok m) : m.path = path ∧ t.readText? path = some m.source ∧
    read? path m.source = some m := by
  unfold load at h
  split at h
  · exact absurd h (by simp)
  · next text htext =>
    split at h
    · exact absurd h (by simp)
    · next read hread =>
      obtain rfl := Except.ok.inj h
      obtain ⟨document, hdocument, rfl⟩ := Option.map_eq_some_iff.1 hread
      exact ⟨rfl, htext, hread⟩

theorem mem_loadAll {paths : List Path} (h : m ∈ (loadAll t paths).1) : load t m.path = .ok m := by
  induction paths with
  | nil => exact absurd h List.not_mem_nil
  | cons path rest ih =>
    rw [loadAll] at h
    split at h
    · next m' hload =>
      rcases List.mem_cons.1 h with rfl | h
      · rwa [(load_eq_ok hload).1]
      · exact ih h
    · exact ih h

theorem mem_loadAll_of_load {paths : List Path} (hpath : path ∈ paths) (h : load t path = .ok m) :
    m ∈ (loadAll t paths).1 := by
  induction paths with
  | nil => exact absurd hpath List.not_mem_nil
  | cons first rest ih =>
    rw [loadAll]
    rcases List.mem_cons.1 hpath with rfl | hpath
    · simp [h]
    · split
      · exact List.mem_cons_of_mem _ (ih hpath)
      · exact ih hpath

theorem paths_loadAll (t : Tree) (paths : List Path) :
    ((loadAll t paths).1.map (·.path)).Sublist paths := by
  induction paths with
  | nil => exact .slnil
  | cons path rest ih =>
    rw [loadAll]
    split
    · next m hload =>
      rw [List.map_cons, (load_eq_ok hload).1]
      exact ih.cons_cons path
    · exact ih.cons path

end Manifest

namespace Plan

open Forwarding (Distinct)

variable {t : Tree} {root : Path} {options : Options} {s : Scan}

/-- What a write run settles on. -/
def Scan.settle (s : Scan) (options : Options) : Forwarding.Progress :=
  Forwarding.settle options.effectiveSwitches s.registry (s.selected options)

theorem manifests_of_discover {paths : List Path} (h : discover t root = .ok paths) :
    Discovery.manifests t root = .ok paths := by
  unfold discover at h
  split at h
  · next hmanifests => rw [hmanifests, Except.ok.inj h]
  · exact absurd h (by simp)

theorem scan_eq_ok (h : scan t root options = .ok s) :
    ∃ paths registry, Discovery.manifests t root = .ok paths ∧
      s.manifests = (Manifest.loadAll t paths).1 ∧
      seed t options = .ok registry ∧
      s.registry = (if options.snapshotOnly then registry else (registry.scan s.manifests).1) ∧
      s.diagnostics = (Manifest.loadAll t paths).2 ++
        if options.snapshotOnly then [] else (registry.scan s.manifests).2 := by
  unfold scan at h
  split at h
  · exact absurd h (by simp)
  · obtain ⟨paths, hpaths, h⟩ := exists_of_bind h
    obtain ⟨registry, hregistry, h⟩ := exists_of_bind h
    have hdiscovered := manifests_of_discover hpaths
    split at h
    · next honly =>
      obtain rfl := Except.ok.inj h
      exact ⟨paths, registry, hdiscovered, rfl, hregistry, (if_pos honly).symm,
        by rw [if_pos honly, List.append_nil]⟩
    · next honly =>
      obtain rfl := Except.ok.inj h
      exact ⟨paths, registry, hdiscovered, rfl, hregistry, (if_neg honly).symm,
        by rw [if_neg honly]; rfl⟩

/-- The scanned manifests stand at paths of their own. -/
theorem distinct_scan (hnames : t.isNamedAt root) (h : scan t root options = .ok s) :
    Distinct s.manifests := by
  obtain ⟨paths, registry, hdiscovered, hmanifests, -⟩ := scan_eq_ok h
  have hpaths := Discovery.distinct_manifests hnames hdiscovered
  have hloaded := hpaths.sublist (Manifest.paths_loadAll t paths)
  rw [hmanifests]
  exact List.pairwise_map.1 hloaded

theorem distinct_selected (hnames : t.isNamedAt root) (h : scan t root options = .ok s) :
    Distinct (s.selected options) :=
  (distinct_scan hnames h).sublist List.filter_sublist

theorem load_of_mem_scan (h : scan t root options = .ok s) {m : Manifest} (hm : m ∈ s.manifests) :
    Manifest.load t m.path = .ok m := by
  obtain ⟨paths, registry, -, hmanifests, -⟩ := scan_eq_ok h
  exact Manifest.mem_loadAll (hmanifests ▸ hm)

theorem path_mem_of_scan {paths : List Path} (h : scan t root options = .ok s)
    (hpaths : Discovery.manifests t root = .ok paths) {m : Manifest} (hm : m ∈ s.manifests) :
      m.path ∈ paths := by
  obtain ⟨paths', registry, hpaths', hmanifests, -⟩ := scan_eq_ok h
  obtain rfl := Except.ok.inj (hpaths.symm.trans hpaths')
  rw [hmanifests] at hm
  exact (Manifest.paths_loadAll t paths).subset (List.mem_map_of_mem hm)

theorem write_of_scan (h : scan t root options = .ok s) :
    write t root options = .ok {
      report := { s.report with
        diagnostics := s.diagnostics ++ (s.settle options).report
        checked := (s.selected options).length }
      tasks := (s.settle options).manifests.map Task.ofManifest } := by
  simp only [write, h, bind, Except.bind]
  rfl

end Plan

end FeatureForwarding
