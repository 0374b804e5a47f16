import FeatureForwarding.Proofs.Forwarding.Reread
import FeatureForwarding.Proofs.Run.Silence

/-! What the scan after a write run finds. If all texts could be written and are read back as they
were meant, it finds the manifests of the run as the run left them, those with comments as they
were, and starts from the same snapshot. -/

namespace FeatureForwarding

open Files (Path Tree)
open Forwarding (Reread)

variable {t t' : Tree} {root : Path} {options : Options} {s s' : Plan.Scan} {plan : Plan}
    {m m' : Manifest} {i : Nat}

/-! ### The snapshot -/

namespace Plan

theorem fresh_of_seed {r : Registry} (h : seed t options = .ok r) : r.Fresh := by
  unfold seed at h
  split at h
  · obtain rfl := Except.ok.inj h
    exact fun name => rfl
  · next p hp =>
    split at h
    · next r' hr' =>
      obtain rfl := Except.ok.inj h
      unfold Registry.restoreSnapshot at hr'
      simp only [bind, Except.bind] at hr'
      split at hr'
      · exact absurd hr' (by simp)
      · next facts hfacts =>
        split at hr'
        · next r'' hr'' =>
          obtain rfl := Except.ok.inj hr'
          unfold Registry.restore at hr''
          split at hr''
          · exact absurd hr'' (by simp)
          · obtain rfl := Except.ok.inj hr''
            exact fun name => rfl
        · exact absurd hr' (by simp)
    · exact absurd h (by simp)

/-- Unless a snapshot stands for everything, the registry of a scan has heard its manifests. -/
theorem exists_fresh_scan (hscan : scan t root options = .ok s) (hall : options.snapshotOnly = false) :
    ∃ r₀ : Registry, r₀.Fresh ∧ s.registry = (r₀.scan s.manifests).1 := by
  obtain ⟨-, r₀, -, -, hseed, hregistry, -⟩ := scan_eq_ok hscan
  exact ⟨r₀, fresh_of_seed hseed, by rw [hregistry, hall, if_neg (by simp)]⟩

theorem seed_congr (h : ∀ p, options.snapshot = some p → ∀ text, t.readText? p = some text →
    t'.readText? p = some text)
    {r : Registry} (hr : seed t options = .ok r) : seed t' options = .ok r := by
  unfold seed at hr ⊢
  split at hr
  · exact hr
  · next p hp =>
    cases htext : t.readText? p with
    | none => simp [Registry.restoreSnapshot, Registry.loadSnapshot, htext, bind, Except.bind] at hr
    | some text =>
      simp only [Registry.restoreSnapshot, Registry.loadSnapshot, htext, h p hp text htext] at hr ⊢
      exact hr

theorem exists_scan {paths : List Path} {r : Registry} (h : scan t root options = .ok s)
    (hpaths : Discovery.manifests t' root = .ok paths) (hseed : seed t' options = .ok r) :
    ∃ s', scan t' root options = .ok s' := by
  unfold scan at h ⊢
  split at h
  · exact absurd h (by simp)
  · next hsnapshot =>
    rw [if_neg hsnapshot]
    simp only [discover, hpaths, hseed, bind, Except.bind]
    split <;> exact ⟨_, rfl⟩

end Plan

/-! ### The manifests -/

namespace Manifest

theorem loadAll_map {g : Manifest → Manifest} {paths : List Path}
    (hok : ∀ p ∈ paths, ∀ m, load t p = .ok m → load t' p = .ok (g m))
    (herror : ∀ p ∈ paths, ∀ cause, load t p = .error cause → load t' p = .error cause) :
    (loadAll t' paths).1 = (loadAll t paths).1.map g := by
  induction paths with
  | nil => rfl
  | cons p rest ih =>
    have ih := ih (fun q hq => hok q (List.mem_cons_of_mem _ hq)) fun q hq => herror q
      (List.mem_cons_of_mem _ hq)
    rw [loadAll, loadAll]
    cases hload : load t p with
    | ok m => simp only [hok p List.mem_cons_self m hload, ih, List.map_cons]
    | error cause => simp only [herror p List.mem_cons_self cause hload, ih]

theorem load_congr {p : Path} (h : t'.readText? p = t.readText? p) : load t' p = load t p := by
  simp only [load, h]

/-- The manifest as it is read from the tree. -/
def reread (t : Tree) (m : Manifest) : Manifest := (load t m.path).toOption.getD m

theorem reread_of_load (h : load t m.path = .ok m') : reread t m = m' := by
  simp [reread, h, Except.toOption]

end Manifest

/-! ### The scan -/

/-- How the second scan relates to the first: `g` tells what is read of each manifest, and both start
from the same registry. -/
structure Rescanned (options : Options) (s s' : Plan.Scan) (g : Manifest → Manifest) : Prop where
  manifests : s'.manifests = s.manifests.map g
  reread : Reread options.effectiveSwitches s.registry s.manifests (s.selected options) g
  unmodified : ∀ m ∈ s.selected options, m.hasComments = false → (g m).hasComments = false ∧
    (g m).isModified = false
  registry : ∃ r : Registry, r.Fresh ∧
    s.registry = (if options.snapshotOnly then r else (r.scan s.manifests).1) ∧
    s'.registry = if options.snapshotOnly then r else (r.scan s'.manifests).1

section Landed

variable {paths : List Path} (hnames : t.isNamedAt root) (hscan : Plan.scan t root options = .ok s)
  (hpaths : Discovery.manifests t root = .ok paths)
  (hlanded : Landed root paths ((s.settle options).manifests.map Task.ofManifest) t t')
include hnames hscan hpaths hlanded

/-- Only a selected manifest without comments is written. -/
theorem load_of_unwritten (hm : m ∈ s.manifests) (h : m ∉ s.selected options ∨ m.hasComments) :
    Manifest.load t' m.path = .ok m := by
  rw [Manifest.load_congr (t := t), Plan.load_of_mem_scan hscan hm]
  apply hlanded.kept m.path (Plan.path_mem_of_scan hscan hpaths hm)
  intro task htask htext hsame
  obtain ⟨m₀, hmem, m', rfl, hgrows, hpath⟩ := exists_of_mem_tasks hnames hscan htask
  rw [hpath] at hsame
  obtain rfl := (Plan.distinct_scan hnames hscan).eq_of_same hm
    (List.filter_sublist.subset hmem) hsame
  have hc : m.hasComments := h.resolve_left fun hnot => hnot hmem
  rw [Task.text_ofManifest, hgrows.hasComments, hc] at htext
  simp at htext

/-- What cannot be read is not written either. -/
theorem load_of_error {p : Path} {cause : LoadFailure} (hp : p ∈ paths)
    (h : Manifest.load t p = .error cause) :
    Manifest.load t' p = .error cause := by
  rw [Manifest.load_congr (t := t), h]
  apply hlanded.kept p hp
  intro task htask _ hsame
  obtain ⟨m, hmem, m', -, -, hpath⟩ := exists_of_mem_tasks hnames hscan htask
  have hm := List.filter_sublist.subset hmem
  rw [hpath] at hsame
  obtain rfl := Path.eq_of_same (Discovery.distinct_manifests hnames hpaths) hp
    (Plan.path_mem_of_scan hscan hpaths hm) hsame
  exact absurd (h.symm.trans (Plan.load_of_mem_scan hscan hm)) (by simp)

theorem readText?_of_settled (hm : (s.selected options)[i]? = some m)
    (hm' : (s.settle options).manifests[i]? = some m')
    (hc : m.hasComments = false) (hgrows : m.Grows m') : t'.readText? m.path = some m'.render := by
  have hmem := List.filter_sublist.subset (List.mem_of_getElem? hm)
  have htask : Task.ofManifest m' ∈ (s.settle options).manifests.map Task.ofManifest :=
    List.mem_map_of_mem (List.mem_of_getElem? hm')
  cases hmodified : m'.isModified with
  | true =>
    have htext := Task.text_of_isModified hmodified (hgrows.hasComments.trans hc)
    have hwritten := hlanded.written _ htask _ htext
    rwa [Task.path_ofManifest, hgrows.path] at hwritten
  | false =>
    have hsource : t.readText? m.path = some m.source :=
      (Manifest.load_eq_ok (Plan.load_of_mem_scan hscan hmem)).2.1
    rw [hgrows.render_eq hmodified, ← hsource]
    refine hlanded.kept m.path (Plan.path_mem_of_scan hscan hpaths hmem)
      fun task htask' htext hsame' => ?_
    obtain ⟨m₂, hm₂, rfl⟩ := List.mem_map.1 htask'
    have hsettled := Forwarding.distinct_settle options.effectiveSwitches
      (Plan.distinct_selected hnames hscan) s.registry
    rw [Task.path_ofManifest, ← hgrows.path] at hsame'
    obtain rfl := hsettled.eq_of_same (List.mem_of_getElem? hm') hm₂ hsame'
    simp [Task.text_ofManifest, hmodified] at htext

section Printed

variable (hprint : ∀ m ∈ (s.settle options).manifests, m.hasComments = false → m.ReadsBack)
include hprint

/-- A manifest that could be written is read back as it was meant. -/
theorem exists_load_of_settled (hm : (s.selected options)[i]? = some m)
    (hm' : (s.settle options).manifests[i]? = some m') (hc : m.hasComments = false) :
    ∃ m₂, Manifest.load t' m.path = .ok m₂ ∧ m₂.outline = m'.outline ∧ m₂.hasComments = false ∧
      m₂.isModified = false := by
  have hgrows := Forwarding.grows_of_settle (Plan.distinct_selected hnames hscan) hm hm'
  have hc' : m'.hasComments = false := hgrows.hasComments.trans hc
  obtain ⟨m₂, hread, hrender, houtline, hcomments⟩ := hprint m' (List.mem_of_getElem? hm') hc'
  have htext := readText?_of_settled hnames hscan hpaths hlanded hm hm' hc hgrows
  obtain ⟨-, hsource⟩ := Manifest.read?_eq_some hread
  rw [hgrows.path] at hread
  exact ⟨m₂, by simp [Manifest.load, htext, hread], houtline, hcomments.trans hc',
    by simp [Manifest.isModified, hrender, hsource]⟩

theorem exists_load_of_selected (hm : m ∈ s.selected options) (hc : m.hasComments = false) :
    ∃ m₂, Manifest.load t' m.path = .ok m₂ ∧ m₂.hasComments = false ∧ m₂.isModified = false := by
  obtain ⟨i, hi⟩ := List.mem_iff_getElem?.1 hm
  obtain ⟨m', hm', -⟩ := Forwarding.grows_settle options.effectiveSwitches s.registry
    (Plan.distinct_selected hnames hscan) hi
  obtain ⟨m₂, hm₂, -, hrest⟩ := exists_load_of_settled hnames hscan hpaths hlanded hprint hi hm' hc
  exact ⟨m₂, hm₂, hrest⟩

theorem load_reread (hm : m ∈ s.manifests) :
    Manifest.load t' m.path = .ok (Manifest.reread t' m) := by
  by_cases hunwritten : m ∉ s.selected options ∨ m.hasComments
  · have hsame := load_of_unwritten hnames hscan hpaths hlanded hm hunwritten
    rw [Manifest.reread_of_load hsame, hsame]
  · obtain ⟨hmem, hc⟩ : m ∈ s.selected options ∧ m.hasComments = false := by simpa using hunwritten
    obtain ⟨m₂, hm₂, -⟩ := exists_load_of_selected hnames hscan hpaths hlanded hprint hmem hc
    rw [Manifest.reread_of_load hm₂, hm₂]

theorem manifests_reread : (Manifest.loadAll t' paths).1 = s.manifests.map (Manifest.reread t') := by
  obtain ⟨paths', -, hpaths', hmanifests, -⟩ := Plan.scan_eq_ok hscan
  obtain rfl := Except.ok.inj (hpaths.symm.trans hpaths')
  rw [hmanifests]
  refine Manifest.loadAll_map (fun p hp m hm => ?_) fun p hp cause hcause => ?_
  · have hmem := Manifest.mem_loadAll_of_load hp hm
    rw [← (Manifest.load_eq_ok hm).1]
    exact load_reread hnames hscan hpaths hlanded hprint (hmanifests ▸ hmem)
  · exact load_of_error hnames hscan hpaths hlanded hp hcause

theorem reread_of_landed :
    Reread options.effectiveSwitches s.registry s.manifests (s.selected options)
      (Manifest.reread t') where
  path _ hm := (Manifest.load_eq_ok (load_reread hnames hscan hpaths hlanded hprint hm)).1
  same _ hm hunwritten := Manifest.reread_of_load
    (load_of_unwritten hnames hscan hpaths hlanded hm hunwritten)
  settled i m m' hm hm' hc := by
    obtain ⟨m₂, hm₂, houtline, -⟩ :=
      exists_load_of_settled hnames hscan hpaths hlanded hprint hm hm' hc
    rw [Manifest.reread_of_load hm₂, houtline]

end Printed

end Landed

/-- There is a second scan. It starts from the same snapshot, and finds what the run left. -/
theorem exists_rescan (hnames : t.isNamedAt root) (hscan : Plan.scan t root options = .ok s)
    (hwrite : Plan.write t root options = .ok plan) (hstored : Task.Stored plan.tasks t)
    (hsnapshot : ∀ p, options.snapshot = some p →
      ∀ m ∈ s.selected options, t.locate? p ≠ t.locate? m.path) :
    (Task.performAll plan.tasks t).2.isNamedAt root ∧
      ∃ s', Plan.scan (Task.performAll plan.tasks t).2 root options = .ok s' ∧
        (options.snapshotOnly → s'.registry = s.registry) ∧
        ((∀ m ∈ (s.settle options).manifests, m.hasComments = false → m.ReadsBack) →
          ∃ g, Rescanned options s s' g) := by
  obtain ⟨paths, r, hpaths, -, hseed, hregistry, -⟩ := Plan.scan_eq_ok hscan
  rw [tasks_of_write hscan hwrite] at hstored ⊢
  have hlanded := landed_of_stored hnames hscan hpaths hstored
  generalize (Task.performAll _ t).2 = t' at hlanded ⊢
  have hseed' : Plan.seed t' options = .ok r := by
    refine Plan.seed_congr (fun p hp text htext => hlanded.others p text htext fun task htask _ => ?_) hseed
    obtain ⟨m, hm, m', -, -, hpath⟩ := exists_of_mem_tasks hnames hscan htask
    rw [hpath]
    exact hsnapshot p hp m hm
  obtain ⟨s', hscan'⟩ := Plan.exists_scan hscan hlanded.manifests hseed'
  obtain ⟨paths', r', hpaths', hmanifests', hregistry', hregistry'', -⟩ := Plan.scan_eq_ok hscan'
  obtain rfl := Except.ok.inj (hlanded.manifests.symm.trans hpaths')
  obtain rfl := Except.ok.inj (hseed'.symm.trans hregistry')
  refine ⟨hlanded.named, s', hscan', fun honly => ?_, fun hprint => ⟨Manifest.reread t', ?_⟩⟩
  · rw [hregistry, hregistry'', if_pos honly, if_pos honly]
  refine ⟨?_, reread_of_landed hnames hscan hpaths hlanded hprint, fun m hm hc => ?_, r,
    Plan.fresh_of_seed hseed,
    hregistry, hregistry''⟩
  · rw [hmanifests', manifests_reread hnames hscan hpaths hlanded hprint]
  · obtain ⟨m₂, hm₂, hrest⟩ := exists_load_of_selected hnames hscan hpaths hlanded hprint hm hc
    rwa [Manifest.reread_of_load hm₂]

end FeatureForwarding
