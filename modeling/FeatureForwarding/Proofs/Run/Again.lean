import FeatureForwarding.Proofs.Run.Rescan

/-! Writing a second time. A second run starts from what a scan or the snapshot tells, not from what
the first one learned, so that it is silent exactly if the settled manifests are settled for that
knowledge too. -/

namespace FeatureForwarding

open Files (Path Tree)
open Forwarding (AllSettled Demands Distinct Settled repair)
open Registry (Suggests owner?)

variable {t t' : Tree} {root : Path} {options : Options} {s s' : Plan.Scan} {m : Manifest}

/-- What the run prints, or would print but for comments, is read back as it was meant. -/
def Plan.Scan.PrintsBack (s : Plan.Scan) (options : Options) : Prop :=
  (∀ m ∈ (s.settle options).manifests, m.hasComments = false → m.ReadsBack) ∧
    ∀ m ∈ s.selected options, m.hasComments →
      ∀ r, (repair r options.effectiveSwitches m).manifest.ReadsBack

/-- A repair that reads back changes the text. -/
theorem isModified_of_readsBack {r : Registry} {switches : List Switch}
    (hread : Manifest.read? m.path m.source = some m)
    (h : (repair r switches m).manifest.ReadsBack) (hadded : (repair r switches m).added ≠ 0) :
    (repair r switches m).manifest.isModified := by
  have hgrows := Forwarding.grows_repair r switches m
  refine Decidable.byContradiction fun hmodified => hadded ?_
  have houtline := hgrows.outline_eq hread h (by simpa using hmodified)
  exact Forwarding.added_repair_eq_zero_iff.2 ((Forwarding.settled_of_outline hgrows.path.symm
    houtline).2 (Forwarding.settled_repair r switches m))

namespace Rescanned

variable {g : Manifest → Manifest} (h : Rescanned options s s' g) (hdistinct : Distinct s.manifests)
include h hdistinct

theorem selected : s'.selected options = (s.selected options).map g := by
  unfold Plan.Scan.selected
  rw [h.manifests, List.filter_map]
  congr 1
  apply List.filter_congr
  intro m hm
  simp only [Function.comp_apply, h.reread.packageName? (hdistinct.sublist List.filter_sublist) hm]

/-- The second scan finds the manifests settled that the run left settled. -/
theorem allSettled_iff : AllSettled options.effectiveSwitches s'.registry (s'.selected options) ↔
    ∀ m ∈ (s.settle options).manifests, m.hasComments = false →
      Settled s'.registry options.effectiveSwitches m := by
  have hdistinct' : Distinct (s.selected options) := hdistinct.sublist List.filter_sublist
  have hselected {m : Manifest} (hm : m ∈ s.selected options) : m ∈ s.manifests :=
    List.filter_sublist.subset hm
  rw [h.selected hdistinct]
  constructor
  · intro hall m' hm' hc'
    obtain ⟨i, hi⟩ := List.mem_iff_getElem?.1 hm'
    obtain ⟨m, hm, hgrows⟩ := Forwarding.exists_of_settle hdistinct' hi
    have hc : m.hasComments = false := hgrows.hasComments.symm.trans hc'
    have hmem := List.mem_of_getElem? hm
    have hpath := (h.reread.path m (hselected hmem)).trans hgrows.path.symm
    rw [← Forwarding.settled_of_outline hpath (h.reread.settled i m m' hm hi hc)]
    exact hall _ (List.mem_map_of_mem hmem) (h.unmodified m hmem hc).1
  · intro hall _ hmem hcg
    obtain ⟨m, hm, rfl⟩ := List.mem_map.1 hmem
    have hc : m.hasComments = false := Bool.eq_false_iff.2 fun hc => by
      rw [h.reread.same m (hselected hm) (.inr hc), hc] at hcg
      exact absurd hcg (by decide)
    obtain ⟨i, hi⟩ := List.mem_iff_getElem?.1 hm
    obtain ⟨m', hm', hgrows⟩ := Forwarding.grows_settle options.effectiveSwitches s.registry
      hdistinct' hi
    have hpath := (h.reread.path m (hselected hm)).trans hgrows.path.symm
    rw [Forwarding.settled_of_outline hpath (h.reread.settled i m m' hi hm' hc)]
    exact hall m' (List.mem_of_getElem? hm') (hgrows.hasComments.trans hc)

/-- The second scan is at rest if it finds the manifests settled that the run left settled. -/
theorem isAtRest_iff (hloaded : ∀ m ∈ s.manifests, Manifest.load t m.path = .ok m)
    (hprint : s.PrintsBack options) :
    s'.IsAtRest options ↔
      ∀ m ∈ (s.settle options).manifests, m.hasComments = false →
        Settled s'.registry options.effectiveSwitches m := by
  have hselected {m : Manifest} (hm : m ∈ s.selected options) : m ∈ s.manifests :=
    List.filter_sublist.subset hm
  rw [← h.allSettled_iff hdistinct]
  refine ⟨fun hrest => hrest.settled, fun hsettled => ⟨hsettled, ?_, ?_⟩⟩
  all_goals rw [h.selected hdistinct]
  · intro _ hmem hcg
    obtain ⟨m, hm, rfl⟩ := List.mem_map.1 hmem
    cases hc : m.hasComments with
    | true =>
      rw [h.reread.same m (hselected hm) (.inr hc), hc] at hcg
      exact absurd hcg (by decide)
    | false => exact (h.unmodified m hm hc).2
  · intro _ hmem hcg
    obtain ⟨m, hm, rfl⟩ := List.mem_map.1 hmem
    cases hc : m.hasComments with
    | true =>
      have hread := (Manifest.load_eq_ok (hloaded m (hselected hm))).2.2
      rw [h.reread.same m (hselected hm) (.inr hc)]
      exact isModified_of_readsBack hread (hprint.2 m hm hc s'.registry)
    | false => exact absurd ((h.unmodified m hm hc).1.symm.trans hcg) (by decide)

omit hdistinct in
theorem exists_fresh (hall : options.snapshotOnly = false) :
    ∃ r : Registry, r.Fresh ∧ s.registry = (r.scan s.manifests).1 ∧
      s'.registry = (r.scan (s.manifests.map g)).1 := by
  obtain ⟨r, hfresh, hregistry, hregistry'⟩ := h.registry
  simp only [hall, Bool.false_eq_true, if_false] at hregistry hregistry'
  exact ⟨r, hfresh, hregistry, h.manifests ▸ hregistry'⟩

/-- Without a snapshot that stands for everything, the second scan knows what the run knew in the
end and what it reads off the tokens that the run added. -/
theorem uses_iff (hall : options.snapshotOnly = false) (name : String) (sw : Switch) :
    s'.registry.uses name sw ↔ (s.settle options).registry.uses name sw ∨
      (owner? s.manifests name = none ∧ s.registry.isDirect name = false ∧
        ∃ m ∈ (s.settle options).manifests, m.hasComments = false ∧ Suggests m name sw) := by
  obtain ⟨r, hfresh, hregistry, hregistry'⟩ := h.exists_fresh hall
  have hreread := h.reread
  unfold Plan.Scan.settle
  rw [hregistry']
  rw [hregistry] at hreread ⊢
  exact Forwarding.uses_rescan_iff hfresh hdistinct List.filter_sublist hreread name sw

theorem agree (hall : options.snapshotOnly = false)
    (hkeys : ∀ m ∈ s.selected options, m.HasPlainKeys) :
    Registry.Agree options.effectiveSwitches (s.settle options).registry s'.registry := by
  obtain ⟨r, hfresh, hregistry, hregistry'⟩ := h.exists_fresh hall
  have hreread := h.reread
  intro name sw _
  unfold Plan.Scan.settle
  rw [hregistry']
  rw [hregistry] at hreread ⊢
  have hknown := Forwarding.uses_rescan hfresh hdistinct List.filter_sublist hkeys hreread name sw
  exact Bool.eq_iff_iff.2 hknown.symm

end Rescanned

/-- A second write run finds a tree that its options can be scanned on, and is silent exactly if that
scan is at rest. If the texts of the first run are read back as they were meant, rest says that
the manifests it could write hand on all that the second registry asks of them. A snapshot that stands
for everything is that registry, also where the first run learned otherwise from the manifests it
edited; else the second scan knows what the first run knew in the end, and more only where a key
stands for two packages. -/
theorem write_again_silent_iff {report : Report} (hnames : t.isNamedAt root)
    (hscan : Plan.scan t root options = .ok s)
    (hrun : (Operation.write root options).run t = .ok (report, t'))
    (hwritten : ∀ d ∈ report.diagnostics, ∀ message, d.finding ≠ .writeFailure message)
    (hsnapshot : ∀ p, options.snapshot = some p →
      ∀ m ∈ s.selected options, t.locate? p ≠ t.locate? m.path) :
    ∃ s', Plan.scan t' root options = .ok s' ∧
      ((Operation.write root options).IsSilent t' ↔ s'.IsAtRest options) ∧
      (options.snapshotOnly → s'.registry = s.registry) ∧
      (s.PrintsBack options →
        (s'.IsAtRest options ↔ ∀ m ∈ (s.settle options).manifests, m.hasComments = false → m.isNoStd →
          ∀ sw ∈ options.effectiveSwitches, m.takes sw → ∀ key, Demands s'.registry m sw key →
            m.forwards sw key) ∧
        (options.snapshotOnly = false →
          (∀ name sw, s'.registry.uses name sw ↔ (s.settle options).registry.uses name sw ∨
            (owner? s.manifests name = none ∧ s.registry.isDirect name = false ∧
              ∃ m ∈ (s.settle options).manifests, m.hasComments = false ∧ Suggests m name sw)) ∧
          ((∀ m ∈ s.selected options, m.HasPlainKeys) →
            (Operation.write root options).IsSilent t'))) := by
  obtain ⟨plan, hwrite, htasks, hrun'⟩ := run_write hscan
  obtain ⟨rfl, rfl⟩ := Prod.mk.inj (Except.ok.inj (hrun'.symm.trans hrun))
  have hstored := stored_of_report hnames hscan hwrite hwritten
  obtain ⟨hnames', s', hscan', honly, hrescanned⟩ :=
    exists_rescan hnames hscan hwrite hstored hsnapshot
  have hdistinct := Plan.distinct_scan hnames hscan
  refine ⟨s', hscan', isSilent_iff hnames' hscan', honly, fun hprint => ?_⟩
  obtain ⟨g, h⟩ := hrescanned hprint.1
  have hrest := h.isAtRest_iff hdistinct (fun m hm => Plan.load_of_mem_scan hscan hm) hprint
  refine ⟨by simp only [hrest, Forwarding.settled_iff], fun hall => ⟨h.uses_iff hdistinct hall,
    fun hkeys => ?_⟩⟩
  rw [isSilent_iff hnames' hscan', hrest]
  intro m hm hc
  obtain ⟨i, hi⟩ := List.mem_iff_getElem?.1 hm
  have hsettled := Forwarding.settled_settle (Plan.distinct_selected hnames hscan) hi hc
  exact hsettled.congr (h.agree hdistinct hall hkeys)

theorem write_again_silent_iff_lacking :
    ∃ report t', (Operation.write ⟨"."⟩ {}).run lacking = .ok (report, t') ∧
      (∃ d ∈ report.diagnostics, d.finding.isRepaired) ∧
      (Operation.write ⟨"."⟩ {}).IsSilent t' := by
  have hnames : lacking.isNamedAt ⟨"."⟩ := by decide +kernel
  have htest : (Plan.scan lacking ⟨"."⟩ {}).toOption.any (fun s =>
      (s.selected {}).all (fun m => !m.hasComments && decide m.HasPlainKeys) &&
        (s.settle {}).manifests.all (decide ·.ReadsBack)) := by
    decide +kernel
  have hrun : ((Operation.write ⟨"."⟩ {}).run lacking).toOption.any fun e =>
      e.1.diagnostics.all (·.finding.isOfCheck) && e.1.diagnostics.any (·.finding.isRepaired) := by
    decide +kernel
  obtain ⟨s, hscan, htest⟩ := exists_ok_of_any htest
  obtain ⟨⟨report, t'⟩, hrun, hreport⟩ := exists_ok_of_any hrun
  simp only [Bool.and_eq_true, List.all_eq_true, List.any_eq_true, decide_eq_true_eq] at htest hreport
  obtain ⟨hselected, hprint⟩ := htest
  obtain ⟨hcheck, d, hd, hrepaired⟩ := hreport
  have hwritten : ∀ d ∈ report.diagnostics, ∀ message, d.finding ≠ .writeFailure message := by
    intro d hd message hfailure
    simpa [hfailure, Finding.isOfCheck] using hcheck d hd
  obtain ⟨s', -, -, -, hagain⟩ := write_again_silent_iff hnames hscan hrun hwritten (by simp)
  have hprints : s.PrintsBack {} :=
    ⟨fun m hm _ => hprint m hm, fun m hm hc => absurd hc (by simpa using (hselected m hm).1)⟩
  exact ⟨report, t', hrun, ⟨d, hd, hrepaired⟩,
    ((hagain hprints).2 rfl).2 fun m hm => (hselected m hm).2⟩

end FeatureForwarding
