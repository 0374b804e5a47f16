import FeatureForwarding.Proofs.Run.Silence

/-! What a write run changes in the tree. Only the files of manifests that it writes change, and a
manifest is written if what it prints differs from what was read. That is so where it gained a token,
but also where its text is not printed back as it stands, with nothing repaired at all. -/

namespace FeatureForwarding

open Files (Path Tree Node Location)
open Forwarding (repair)
open Diagnostics (findingsAt)

variable {t t' : Tree} {root : Path} {paths : List Path} {options : Options} {s : Plan.Scan}
  {plan : Plan} {m m' : Manifest} {i : Nat}

theorem Task.isSkipped_of_outcome {stored : Option String}
    (h : (ofManifest m).outcome stored = .skippedCommented) : m.isModified ∧ m.hasComments := by
  unfold outcome at h
  split at h
  · next hskipped => simpa [isSkipped_ofManifest] using hskipped
  · split at h
    · exact absurd h (by simp)
    · split at h <;> exact absurd h (by simp)

/-- Only an outcome tells of a manifest that was skipped. -/
theorem eq_skippedCommented_of_mem_amended {before fs : List Finding} {outcome : Outcome}
    (hbefore : ∀ f ∈ before, f.isOfScan) (hcheck : ∀ f ∈ fs, f.isOfCheck)
    (h : Finding.skippedCommented ∈ Report.amended outcome (before ++ fs)) :
    outcome = .skippedCommented := by
  have hmem : Finding.skippedCommented ∈ before ++ fs ++ outcome.findings := by
    unfold Report.amended at h
    split at h
    · exact h
    · obtain ⟨f, hf, hsame⟩ := List.mem_map.1 h
      cases f <;> first | exact hf | exact absurd hsame (by simp [Finding.unrepaired])
  rcases List.mem_append.1 hmem with hmem | hmem
  · rcases List.mem_append.1 hmem with hmem | hmem
    · exact absurd (hbefore _ hmem) (by simp [Finding.isOfScan])
    · exact absurd (hcheck _ hmem) (by simp [Finding.isOfCheck])
  · cases outcome with
    | skippedCommented => rfl
    | _ => simp [Outcome.findings] at hmem

section Report

variable {outcomes : List Outcome} {outcome : Outcome} (hnames : t.isNamedAt root)
  (hscan : Plan.scan t root options = .ok s) (hwrite : Plan.write t root options = .ok plan)
include hnames hscan hwrite

/-- A manifest that is on the disk has a repair in the report, or gained nothing. -/
theorem exists_repaired_of_isOnDisk (hm : (s.selected options)[i]? = some m)
    (hm' : (s.settle options).manifests[i]? = some m') (houtcome : outcomes[i]? = some outcome)
    (hdisk : outcome.isOnDisk) :
    (∃ d ∈ (plan.reportWith outcomes).diagnostics, d.path.Same m.path ∧ d.finding.isRepaired) ∨
      m' = m := by
  have hgrows := Forwarding.grows_of_settle (Plan.distinct_selected hnames hscan) hm hm'
  rcases hgrows.eq_or_gained with hsame | ⟨sw, k, hnew, hold⟩
  · exact .inr hsame
  · exact .inl (exists_repaired_of_gained hnames hscan hwrite hm hm' houtcome hdisk hnew hold)

/-- A manifest that is reported as skipped has comments; it lacks something or is printed differently. -/
theorem exists_of_skippedCommented {d : Diagnostic}
    (hd : d ∈ (plan.reportWith (Task.performAll plan.tasks t).1).diagnostics)
    (hskipped : d.finding = .skippedCommented) :
    ∃ m ∈ s.selected options, d.path.Same m.path ∧ m.hasComments ∧
      ((repair (s.settle options).registry options.effectiveSwitches m).added ≠ 0 ∨ m.isModified) := by
  have hdistinct := Plan.distinct_selected hnames hscan
  have hfinding : Finding.skippedCommented ∈
      findingsAt (plan.reportWith (Task.performAll plan.tasks t).1).diagnostics d.path :=
    Diagnostics.mem_findingsAt.2 ⟨d, hd, rfl, hskipped⟩
  by_cases hselected : ∃ m ∈ s.selected options, m.path.Same d.path
  · obtain ⟨m, hmem, hsame⟩ := hselected
    obtain ⟨i, hm⟩ := List.mem_iff_getElem?.1 hmem
    obtain ⟨m', hm', -⟩ := Forwarding.grows_settle options.effectiveSwitches s.registry hdistinct hm
    obtain ⟨stored, houtcome⟩ := Task.exists_outcome (t := t) (task_of_settle hscan hwrite hm')
    obtain ⟨m₁, fs, hm₁, haccount, hfindings⟩ :=
      exists_account_reportWith hnames hscan hwrite _ hm houtcome
    obtain rfl := Option.some.inj (hm'.symm.trans hm₁)
    rw [← Diagnostics.findingsAt_congr _ hsame, hfindings] at hfinding
    obtain ⟨hmodified, hc⟩ := Task.isSkipped_of_outcome (eq_skippedCommented_of_mem_amended
      (Plan.isOfScan_at hscan m.path) (isOfCheck_of_account haccount) hfinding)
    rw [haccount.grows.hasComments] at hc
    refine ⟨m, hmem, hsame.symm, hc, ?_⟩
    have hrepair : (s.settle options).manifests[i]? =
        some (repair (s.settle options).registry options.effectiveSwitches m).manifest :=
      Forwarding.settle_of_hasComments hdistinct hm hc
    obtain rfl := Option.some.inj (hrepair.symm.trans hm')
    refine Decidable.or_iff_not_imp_left.2 fun hadded => ?_
    have hsettled := Forwarding.added_repair_eq_zero_iff.1 (Decidable.not_not.1 hadded)
    rwa [Forwarding.repair_of_settled hsettled] at hmodified
  · rw [findingsAt_reportWith_of_not_selected hnames hscan hwrite _ fun m hm hsame =>
      hselected ⟨m, hm, hsame⟩] at hfinding
    exact absurd (Plan.isOfScan_at hscan _ _ hfinding) (by simp [Finding.isOfScan])

theorem effect_write : ∃ paths, Task.Effect root paths plan.tasks (Task.performAll plan.tasks t).1 t
    (Task.performAll plan.tasks t).2 := by
  obtain ⟨paths, -, hpaths, -⟩ := Plan.scan_eq_ok hscan
  rw [tasks_of_write hscan hwrite]
  exact ⟨paths, effect_performAll hnames hpaths (plain_tasks s options)
    (readable_tasks hnames hscan hpaths) (distinct_tasks hnames hscan)⟩

/-- A location that a write run changes holds what a manifest without comments prints. -/
theorem exists_written_of_changed {l : Location}
    (hl : (Task.performAll plan.tasks t).2.contents? l ≠ t.contents? l) :
    ∃ (i : Nat) (m m' : Manifest), (s.selected options)[i]? = some m ∧
      (s.settle options).manifests[i]? = some m' ∧ m.Grows m' ∧ m.hasComments = false ∧
      m'.isModified ∧ (Task.performAll plan.tasks t).1[i]? = some .written ∧
      (Task.performAll plan.tasks t).2.locate? m.path = some l ∧
      (Task.performAll plan.tasks t).2.contents? l = some (.text m'.render) := by
  obtain ⟨paths, heffect⟩ := effect_write hnames hscan hwrite
  obtain ⟨i, task, text, htask, houtcome, htext, hlocate⟩ := heffect.changed l hl
  obtain ⟨l', hl', hcontents⟩ :=
    Tree.readText?_eq_some.1 (heffect.written i task text htask houtcome htext)
  obtain rfl := Option.some.inj (hlocate.symm.trans hl')
  rw [getElem?_tasks hscan hwrite] at htask
  obtain ⟨m', hm', rfl⟩ := Option.map_eq_some_iff.1 htask
  obtain ⟨m, hm, hgrows⟩ := Forwarding.exists_of_settle (Plan.distinct_selected hnames hscan) hm'
  rw [Task.text_ofManifest] at htext
  obtain ⟨⟨hmodified, hc⟩, rfl⟩ : (m'.isModified ∧ m'.hasComments = false) ∧ m'.render = text := by
    simpa using htext
  rw [Task.path_ofManifest, hgrows.path] at hlocate
  exact ⟨i, m, m', hm, hm', hgrows, hgrows.hasComments.symm.trans hc, hmodified, houtcome, hlocate,
    Tree.contents?_eq_some.2 hcontents⟩

/-- A manifest without comments that is printed differently from what was read is repaired, or fails to
be written, or is printed. -/
theorem printed_of_isModified (hm : (s.selected options)[i]? = some m) (hc : m.hasComments = false)
    (hmodified : m.isModified) :
    (∃ d ∈ (plan.reportWith (Task.performAll plan.tasks t).1).diagnostics, d.path.Same m.path ∧
      (d.finding.isRepaired ∨ ∃ message, d.finding = .writeFailure message)) ∨
      (Task.performAll plan.tasks t).2.readText? m.path = some m.render := by
  obtain ⟨m', hm', hgrows⟩ := Forwarding.grows_settle options.effectiveSwitches s.registry
    (Plan.distinct_selected hnames hscan) hm
  have htask := task_of_settle hscan hwrite hm'
  obtain ⟨stored, houtcome⟩ := Task.exists_outcome (t := t) htask
  have hskipped : (Task.ofManifest m').isSkipped = false := by
    rw [Task.isSkipped_ofManifest, hgrows.hasComments, hc, Bool.and_false]
  by_cases hfailed : ∃ message, (Task.ofManifest m').outcome stored = .failed message
  · obtain ⟨message, hfailed⟩ := hfailed
    obtain ⟨d, hd, hsame, hfailure⟩ :=
      exists_writeFailure hnames hscan hwrite hm (hfailed ▸ houtcome)
    exact .inl ⟨d, hd, hsame, .inr ⟨message, hfailure⟩⟩
  · have hdisk : ((Task.ofManifest m').outcome stored).isOnDisk :=
      Task.isOnDisk_outcome hskipped fun message h => hfailed ⟨message, h⟩
    rcases exists_repaired_of_isOnDisk hnames hscan hwrite hm hm' houtcome hdisk with
      ⟨d, hd, hsame, hrepaired⟩ | rfl
    · exact .inl ⟨d, hd, hsame, .inl hrepaired⟩
    · right
      obtain ⟨paths, heffect⟩ := effect_write hnames hscan hwrite
      have htext := Task.text_of_isModified hmodified hc
      have hwritten :=
        (Task.written_or_failed (Task.isPlain_ofManifest m') htext stored).resolve_right hfailed
      have hread := heffect.written i _ _ htask (hwritten ▸ houtcome) htext
      rwa [Task.path_ofManifest] at hread

end Report

/-- What a write run changes in the tree. A location holds something else afterwards only if it is that
of a selected manifest without comments, whose text it then holds, and either the report tells of a
repair there or the manifest gained nothing and is printed differently from what was read. Each such
manifest is printed unless it is repaired or fails to be written. What is reported as skipped has
comments, and lacks something or is printed differently too. -/
theorem write_changes_repaired_or_reprinted {report : Report} (hnames : t.isNamedAt root)
    (hrun : (Operation.write root options).run t = .ok (report, t')) :
    ∃ s, Plan.scan t root options = .ok s ∧
      (∀ l, t'.contents? l ≠ t.contents? l →
        ∃ m ∈ s.selected options, ∃ m', m.Grows m' ∧ m.hasComments = false ∧
          t'.locate? m.path = some l ∧ t'.contents? l = some (.text m'.render) ∧
          ((∃ d ∈ report.diagnostics, d.path.Same m.path ∧ d.finding.isRepaired) ∨
            m' = m ∧ m.isModified)) ∧
      (∀ m ∈ s.selected options, m.hasComments = false → m.isModified →
        (∃ d ∈ report.diagnostics, d.path.Same m.path ∧
          (d.finding.isRepaired ∨ ∃ message, d.finding = .writeFailure message)) ∨
        t'.readText? m.path = some m.render) ∧
      ∀ d ∈ report.diagnostics, d.finding = .skippedCommented →
        ∃ m ∈ s.selected options, d.path.Same m.path ∧ m.hasComments ∧
          ((repair (s.settle options).registry options.effectiveSwitches m).added ≠ 0 ∨
            m.isModified) := by
  obtain ⟨s, hscan⟩ := exists_scan_of_write hrun
  obtain ⟨plan, hwrite, -, hrun'⟩ := run_write hscan
  obtain ⟨rfl, rfl⟩ := Prod.mk.inj (Except.ok.inj (hrun'.symm.trans hrun))
  refine ⟨s, hscan, fun l hl => ?_, fun m hm hc hmodified => ?_, fun d hd hskipped =>
    exists_of_skippedCommented hnames hscan hwrite hd hskipped⟩
  · obtain ⟨i, m, m', hm, hm', hgrows, hc, hmodified, houtcome, hlocate, hcontents⟩ :=
      exists_written_of_changed hnames hscan hwrite hl
    refine ⟨m, List.mem_of_getElem? hm, m', hgrows, hc, hlocate, hcontents, ?_⟩
    refine (exists_repaired_of_isOnDisk hnames hscan hwrite hm hm' houtcome rfl).imp_right
      fun hsame => ?_
    exact ⟨hsame, hsame ▸ hmodified⟩
  · obtain ⟨i, hi⟩ := List.mem_iff_getElem?.1 hm
    exact printed_of_isModified hnames hscan hwrite hi hc hmodified

/-- Lines that end as other systems end them. -/
def carriageReturns : Tree :=
  Tree.empty.place ["a.toml"] (.file (.text "package.name=\"a\"\r\n"))

theorem write_changes_repaired_or_reprinted_carriageReturns :
    ∃ report t' s m, carriageReturns.isNamedAt ⟨"."⟩ ∧
      (Operation.write ⟨"."⟩ {}).run carriageReturns = .ok (report, t') ∧
      (∀ d ∈ report.diagnostics, d.finding.isRepaired = false) ∧
      t'.contents? ["a.toml"] ≠ carriageReturns.contents? ["a.toml"] ∧
      Plan.scan carriageReturns ⟨"."⟩ {} = .ok s ∧ m ∈ s.selected {} ∧ m.isModified ∧
      t'.contents? ["a.toml"] = some (.text m.render) := by
  have hnames : carriageReturns.isNamedAt ⟨"."⟩ := by decide +kernel
  have htest : ((Operation.write ⟨"."⟩ {}).run carriageReturns).toOption.any fun e =>
      e.1.diagnostics.all (!·.finding.isRepaired) &&
        e.2.contents? ["a.toml"] != carriageReturns.contents? ["a.toml"] := by
    decide +kernel
  obtain ⟨⟨report, t'⟩, hrun, htest⟩ := exists_ok_of_any htest
  simp only [Bool.and_eq_true, List.all_eq_true, Bool.not_eq_true', bne_iff_ne, ne_eq] at htest
  obtain ⟨hsilent, hchanged⟩ := htest
  obtain ⟨s, hscan, hwritten, -, -⟩ := write_changes_repaired_or_reprinted hnames hrun
  obtain ⟨m, hm, m', -, -, -, hcontents, ⟨d, hd, -, hrepaired⟩ | ⟨rfl, hmodified⟩⟩ :=
    hwritten _ hchanged
  · simp [hsilent d hd] at hrepaired
  · exact ⟨report, t', s, m', hnames, hrun, hsilent, hchanged, hscan, hm, hmodified, hcontents⟩

end FeatureForwarding
