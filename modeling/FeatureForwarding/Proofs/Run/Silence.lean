import FeatureForwarding.Proofs.Run.Report
import FeatureForwarding.Proofs.Run.Writing

/-! Silent runs. A write run is silent if it repairs nothing and changes nothing, and that is so
exactly if its scan is at rest: what may be written is settled and printed as it stands, and what has
comments is reported as skipped wherever something is missing. -/

namespace FeatureForwarding

open Files (Path Tree)
open Forwarding (AllSettled closing repair)
open Diagnostics (findingsAt)

variable {t t' : Tree} {root : Path} {options : Options} {s : Plan.Scan} {plan : Plan}
    {m m' : Manifest} {i : Nat}

/-- Whether the finding tells of no write, neither of a repair nor of a failure. -/
def Finding.isQuiet : Finding → Bool
  | .missingForwarding _ _ _ _ repaired => !repaired
  | .writeFailure _ => false
  | _ => true

/-- The run leaves the tree as it is and reports nothing of a write. -/
def Operation.IsSilent (operation : Operation) (t : Tree) : Prop :=
  ∃ report, operation.run t = .ok (report, t) ∧ ∀ d ∈ report.diagnostics, d.finding.isQuiet

/-- Nothing is left to be written, and what is missing in manifests with comments shows in their text. -/
structure Plan.Scan.IsAtRest (s : Plan.Scan) (options : Options) : Prop where
  settled : AllSettled options.effectiveSwitches s.registry (s.selected options)
  unmodified : ∀ m ∈ s.selected options, m.hasComments = false → m.isModified = false
  shown : ∀ m ∈ s.selected options, m.hasComments →
    (repair s.registry options.effectiveSwitches m).added ≠ 0 →
    (repair s.registry options.effectiveSwitches m).manifest.isModified

namespace Task

variable {tasks : List Task} {outcome : Outcome}

theorem text_ofManifest (m : Manifest) :
    (ofManifest m).text = if m.isModified && !m.hasComments then some m.render else none := by
  unfold ofManifest
  cases m.isModified <;> cases m.hasComments <;> rfl

theorem text_of_isModified (hmodified : m.isModified) (hc : m.hasComments = false) :
    (ofManifest m).text = some m.render := by
  simp [text_ofManifest, hmodified, hc]

theorem isSkipped_ofManifest (m : Manifest) :
    (ofManifest m).isSkipped = (m.isModified && m.hasComments) := by
  unfold ofManifest
  cases m.isModified <;> cases m.hasComments <;> rfl

theorem isPlain_ofManifest (m : Manifest) : (ofManifest m).IsPlain := by
  unfold IsPlain ofManifest
  cases m.isModified <;> cases m.hasComments <;> simp

theorem isOnDisk_outcome {task : Task} {stored : Option String} (hskipped : task.isSkipped = false)
    (h : ∀ message, task.outcome stored ≠ .failed message) : (task.outcome stored).isOnDisk := by
  unfold outcome at h ⊢
  rw [if_neg (by simp [hskipped])] at h ⊢
  split
  · rfl
  · next htext =>
    cases stored with
    | none => rfl
    | some message => exact absurd (if_neg htext) (h message)

/-- Without texts nothing is written. -/
theorem performAll_of_no_text (h : ∀ task ∈ tasks, task.text = none) :
    performAll tasks t = (tasks.map (·.outcome none), t) := by
  induction tasks with
  | nil => rfl
  | cons task rest ih =>
    have htext := h task List.mem_cons_self
    simp only [performAll, perform, htext, ih fun task' hmem => h task'
      (List.mem_cons_of_mem _ hmem), List.map_cons]

end Task

namespace Finding

variable {f : Finding}

theorem isQuiet_of_isOfScan (h : f.isOfScan) : f.isQuiet := by
  cases f <;> simp [isOfScan, isQuiet] at h ⊢

theorem isQuiet_of_isOfCheck (h : f.isOfCheck) (hrepaired : f.isRepaired = false) : f.isQuiet := by
  cases f <;> simp_all [isOfCheck, isQuiet, isRepaired]

theorem isQuiet_unrepaired (h : f.isOfScan ∨ f.isOfCheck ∨ f = .skippedCommented) :
    f.unrepaired.isQuiet := by
  cases f <;> simp [isOfScan, isOfCheck, isQuiet, unrepaired] at h ⊢

theorem not_isRepaired_of_isQuiet (h : f.isQuiet) : f.isRepaired = false := by
  cases f <;> simp_all [isQuiet, isRepaired]

end Finding

/-! ### The run -/

theorem exists_scan_of_write {report : Report}
    (hrun : (Operation.write root options).run t = .ok (report, t')) :
    ∃ s, Plan.scan t root options = .ok s := by
  obtain ⟨plan, hplan, -⟩ := exists_of_bind hrun
  obtain ⟨s, hscan, -⟩ := exists_of_bind hplan
  exact ⟨s, hscan⟩

theorem run_write (hscan : Plan.scan t root options = .ok s) :
    ∃ plan, Plan.write t root options = .ok plan ∧
      plan.tasks = (s.settle options).manifests.map Task.ofManifest ∧
      (Operation.write root options).run t =
        .ok (plan.reportWith (Task.performAll plan.tasks t).1, (Task.performAll plan.tasks t).2) := by
  refine ⟨_, Plan.write_of_scan hscan, rfl, ?_⟩
  simp only [Operation.run, Operation.plan, Plan.write_of_scan hscan, bind, Except.bind, Plan.perform]

/-- A failure to write is reported at the path of the manifest. -/
theorem exists_writeFailure {outcomes : List Outcome} {message : String} (hnames : t.isNamedAt root)
    (hscan : Plan.scan t root options = .ok s) (hwrite : Plan.write t root options = .ok plan)
    (hm : (s.selected options)[i]? = some m) (houtcome : outcomes[i]? = some (.failed message)) :
    ∃ d ∈ (plan.reportWith outcomes).diagnostics, d.path.Same m.path ∧
      d.finding = .writeFailure message := by
  obtain ⟨m', fs, -, -, hfindings⟩ := exists_account_reportWith hnames hscan hwrite outcomes hm houtcome
  rw [← Diagnostics.mem_findingsAt, hfindings, Report.amended, if_neg (by simp [Outcome.isOnDisk])]
  exact List.mem_map.2 ⟨.writeFailure message, by simp [Outcome.findings], rfl⟩

theorem stored_of_report (hnames : t.isNamedAt root) (hscan : Plan.scan t root options = .ok s)
    (hwrite : Plan.write t root options = .ok plan)
    (h : ∀ d ∈ (plan.reportWith (Task.performAll plan.tasks t).1).diagnostics, ∀ message,
      d.finding ≠ .writeFailure message) :
    Task.Stored plan.tasks t := by
  rintro outcome hmem message rfl
  obtain ⟨i, hi⟩ := List.mem_iff_getElem?.1 hmem
  obtain ⟨task, stored, htask, -⟩ := Task.exists_of_performAll hi
  rw [getElem?_tasks hscan hwrite] at htask
  obtain ⟨m', hm', -⟩ := Option.map_eq_some_iff.1 htask
  obtain ⟨m, hm, -⟩ := Forwarding.exists_of_settle (Plan.distinct_selected hnames hscan) hm'
  obtain ⟨d, hd, -, hfailure⟩ := exists_writeFailure hnames hscan hwrite hm hi
  exact h d hd message hfailure

theorem plain_tasks (s : Plan.Scan) (options : Options) :
    ∀ task ∈ (s.settle options).manifests.map Task.ofManifest, task.IsPlain := by
  intro task htask
  obtain ⟨m', -, rfl⟩ := List.mem_map.1 htask
  exact Task.isPlain_ofManifest m'

/-- The path of a task was discovered and could be read. -/
theorem readable_tasks {paths : List Path} (hnames : t.isNamedAt root)
    (hscan : Plan.scan t root options = .ok s) (hpaths : Discovery.manifests t root = .ok paths) :
    ∀ task ∈ (s.settle options).manifests.map Task.ofManifest,
      task.path ∈ paths ∧ (t.readText? task.path).isSome := by
  intro task htask
  obtain ⟨m, hm, m', -, -, hpath⟩ := exists_of_mem_tasks hnames hscan htask
  have hmem := List.filter_sublist.subset hm
  obtain ⟨-, htext, -⟩ := Manifest.load_eq_ok (Plan.load_of_mem_scan hscan hmem)
  rw [hpath]
  exact ⟨Plan.path_mem_of_scan hscan hpaths hmem, by simp [htext]⟩

/-- All that the tasks need to land. -/
theorem landed_of_stored {paths : List Path} (hnames : t.isNamedAt root)
    (hscan : Plan.scan t root options = .ok s)
    (hpaths : Discovery.manifests t root = .ok paths)
    (hstored : Task.Stored ((s.settle options).manifests.map Task.ofManifest) t) :
    Landed root paths ((s.settle options).manifests.map Task.ofManifest) t
      (Task.performAll ((s.settle options).manifests.map Task.ofManifest) t).2 :=
  landed_performAll hnames hpaths (plain_tasks s options) (readable_tasks hnames hscan hpaths)
    (distinct_tasks hnames hscan) hstored

/-! ### Rest -/

/-- What is found at the path of a settled manifest comes from a check. -/
theorem isOfCheck_of_account {r : Registry} {switches : List Switch} {fs : List Finding}
    (h : Forwarding.Account r switches m m' fs) : ∀ f ∈ fs, f.isOfCheck := by
  intro f hf
  cases hrepaired : f.isRepaired with
  | true =>
    by_cases hcheck : f.isOfCheck
    · exact hcheck
    · simp [Finding.not_isRepaired_of_not_isOfCheck (by simpa using hcheck)] at hrepaired
  | false =>
    have hremaining : f ∈ Forwarding.findings r switches m' := by
      rw [← h.remaining]
      simp [hf, hrepaired]
    exact Forwarding.isOfCheck_of_mem_findings hremaining

/-- A repair shows as a token that was gained. -/
theorem exists_gain_of_isRepaired {fs : List Finding} (h : Forwarding.Gained m m' fs) {f : Finding}
    (hf : f ∈ fs)
    (hrepaired : f.isRepaired) : ∃ s k, m'.forwards s k ∧ m.forwards s k = false := by
  cases f with
  | missingForwarding package key s optional repaired =>
    refine ⟨s, key, (h.mem key s).1 ?_⟩
    exact List.mem_filterMap.2 ⟨_, List.mem_filter.2 ⟨hf, hrepaired⟩, rfl⟩
  | _ => exact absurd hrepaired (by simp [Finding.isRepaired])

/-- A token that was gained shows as a repair, if the manifest is on the disk. -/
theorem exists_repaired_of_gained {outcomes : List Outcome} {outcome : Outcome}
    (hnames : t.isNamedAt root) (hscan : Plan.scan t root options = .ok s)
    (hwrite : Plan.write t root options = .ok plan) (hm : (s.selected options)[i]? = some m)
    (hm' : (s.settle options).manifests[i]? = some m') (houtcome : outcomes[i]? = some outcome)
    (hdisk : outcome.isOnDisk) {sw : Switch} {k : String} (hnew : m'.forwards sw k)
    (hold : m.forwards sw k = false) :
    ∃ d ∈ (plan.reportWith outcomes).diagnostics, d.path.Same m.path ∧ d.finding.isRepaired := by
  obtain ⟨m₁, fs, hm₁, haccount, hfindings⟩ :=
    exists_account_reportWith hnames hscan hwrite outcomes hm houtcome
  obtain rfl := Option.some.inj (hm'.symm.trans hm₁)
  obtain ⟨f, hf, -⟩ := List.mem_filterMap.1 ((haccount.mem k sw).2 ⟨hnew, hold⟩)
  obtain ⟨hf, hrepaired⟩ := List.mem_filter.1 hf
  have hreported : f ∈ findingsAt (plan.reportWith outcomes).diagnostics m.path := by
    rw [hfindings, Report.amended, if_pos hdisk]
    exact List.mem_append_left _ (List.mem_append_right _ hf)
  obtain ⟨d, hd, hsame, rfl⟩ := Diagnostics.mem_findingsAt.1 hreported
  exact ⟨d, hd, hsame, hrepaired⟩

/-- What a quiet run found it did not repair, but for what it skipped. -/
theorem forwards_of_quiet (hnames : t.isNamedAt root) (hscan : Plan.scan t root options = .ok s)
    (hwrite : Plan.write t root options = .ok plan)
    (hquiet : ∀ d ∈ (plan.reportWith (Task.performAll plan.tasks t).1).diagnostics, d.finding.isQuiet)
    (hm : (s.selected options)[i]? = some m) (hm' : (s.settle options).manifests[i]? = some m')
    (hskipped : (Task.ofManifest m').isSkipped = false) {sw : Switch} {k : String}
    (hnew : m'.forwards sw k) :
    m.forwards sw k := by
  have hstored := stored_of_report hnames hscan hwrite fun d hd message hfailure => by
    simpa [hfailure, Finding.isQuiet] using hquiet d hd
  obtain ⟨stored, houtcome⟩ := Task.exists_outcome (t := t) (task_of_settle hscan hwrite hm')
  have hdisk := Task.isOnDisk_outcome hskipped (hstored _ (List.mem_of_getElem? houtcome))
  cases hold : m.forwards sw k with
  | true => rfl
  | false =>
    obtain ⟨d, hd, -, hrepaired⟩ :=
      exists_repaired_of_gained hnames hscan hwrite hm hm' houtcome hdisk hnew hold
    simp [Finding.not_isRepaired_of_isQuiet (hquiet d hd)] at hrepaired

theorem isAtRest_of_isSilent (hnames : t.isNamedAt root) (hscan : Plan.scan t root options = .ok s)
    (h : (Operation.write root options).IsSilent t) : s.IsAtRest options := by
  obtain ⟨plan, hwrite, htasks, hrun⟩ := run_write hscan
  obtain ⟨report, hrun', hquiet⟩ := h
  obtain ⟨rfl, htree⟩ := Prod.mk.inj (Except.ok.inj (hrun.symm.trans hrun'))
  have hdistinct := Plan.distinct_selected hnames hscan
  have hgain {i : Nat} {m m' : Manifest} (hm : (s.selected options)[i]? = some m)
      (hm' : (s.settle options).manifests[i]? = some m')
      (hskipped : (Task.ofManifest m').isSkipped = false) (sw : Switch) (k : String)
      (hnew : m'.forwards sw k) : m.forwards sw k :=
    forwards_of_quiet hnames hscan hwrite hquiet hm hm' hskipped hnew
  have hsettled : AllSettled options.effectiveSwitches s.registry (s.selected options) := by
    apply Forwarding.allSettled_of_no_gain hdistinct
    intro i m m' hm hm' hc
    apply hgain hm hm'
    have hgrows := Forwarding.grows_of_settle hdistinct hm hm'
    rw [Task.isSkipped_ofManifest, hgrows.hasComments, hc, Bool.and_false]
  have hkept {i : Nat} {m : Manifest} (hm : (s.selected options)[i]? = some m) :
      (s.settle options).manifests[i]? =
        some (closing options.effectiveSwitches s.registry m).manifest := by
    have hmanifests := (Forwarding.settle_of_allSettled hsettled).2 i
    rwa [hm] at hmanifests
  refine ⟨hsettled, fun m hmem hc => ?_, fun m hmem hc hadded => ?_⟩
  · obtain ⟨i, hm⟩ := List.mem_iff_getElem?.1 hmem
    have hm' := hkept hm
    rw [Forwarding.closing_of_not_hasComments _ hc] at hm'
    have hstored := stored_of_report hnames hscan hwrite fun d hd message hfailure => by
      simpa [hfailure, Finding.isQuiet] using hquiet d hd
    obtain ⟨paths, -, hpaths, -⟩ := Plan.scan_eq_ok hscan
    have hlanded := landed_of_stored hnames hscan hpaths (htasks ▸ hstored)
    rw [← htasks, htree] at hlanded
    have hloaded := Plan.load_of_mem_scan hscan (List.filter_sublist.subset hmem)
    have hread := (Manifest.load_eq_ok hloaded).2.1
    apply Bool.eq_false_iff.2
    intro hmodified
    have htask : Task.ofManifest m ∈ plan.tasks := by
      rw [htasks]
      exact List.mem_map_of_mem (List.mem_of_getElem? hm')
    have hwritten := hlanded.written _ htask _ (Task.text_of_isModified hmodified hc)
    rw [Task.path_ofManifest, hread] at hwritten
    simp [Manifest.isModified, Option.some.inj hwritten] at hmodified
  · obtain ⟨i, hm⟩ := List.mem_iff_getElem?.1 hmem
    have hm' := hkept hm
    rw [Forwarding.closing_of_hasComments _ hc] at hm'
    obtain ⟨sw, -, k, hnew, hold⟩ := Forwarding.exists_forwards_of_added hadded
    apply Decidable.byContradiction
    intro hmodified
    have hskipped : (Task.ofManifest
      (repair s.registry options.effectiveSwitches m).manifest).isSkipped = false := by
      simp [Task.isSkipped_ofManifest, hmodified]
    simp [hgain hm hm' hskipped sw k hnew] at hold

/-! ### Silence -/

/-- At rest, nothing has a text to be written; a manifest with comments may be repaired in memory, and
is then reported as skipped. -/
theorem Plan.Scan.IsAtRest.cases (h : s.IsAtRest options)
    (hm' : (s.settle options).manifests[i]? = some m') :
    ∃ m, (s.selected options)[i]? = some m ∧ (Task.ofManifest m').text = none ∧
      (m' = m ∨ (Task.ofManifest m').isSkipped) := by
  have hmanifests := (Forwarding.settle_of_allSettled h.settled).2 i
  rw [show (Forwarding.settle _ s.registry (s.selected options)).manifests[i]? = some m' from hm']
    at hmanifests
  obtain ⟨m, hm, rfl⟩ := Option.map_eq_some_iff.1 hmanifests.symm
  refine ⟨m, hm, ?_⟩
  have hmem := List.mem_of_getElem? hm
  have hcomments := (Forwarding.grows_closing options.effectiveSwitches s.registry m).hasComments
  rw [Task.text_ofManifest, Task.isSkipped_ofManifest, hcomments]
  cases hc : m.hasComments with
  | true =>
    refine ⟨by simp, ?_⟩
    rw [Forwarding.closing_of_hasComments _ hc]
    by_cases hadded : (repair s.registry options.effectiveSwitches m).added = 0
    · rw [Forwarding.repair_of_settled (Forwarding.added_repair_eq_zero_iff.1 hadded)]
      exact .inl rfl
    · exact .inr (by simp [h.shown m hmem hc hadded])
  | false =>
    rw [Forwarding.closing_of_not_hasComments _ hc]
    exact ⟨by simp [h.unmodified m hmem hc], .inl rfl⟩

theorem isQuiet_of_mem_amended {before fs : List Finding} {outcome : Outcome}
    (hbefore : ∀ f ∈ before, f.isOfScan)
    (hcheck : ∀ f ∈ fs, f.isOfCheck)
    (h : outcome = .skippedCommented ∨ outcome = .unchanged ∧ ∀ f ∈ fs, f.isRepaired = false) :
    ∀ f ∈ Report.amended outcome (before ++ fs), f.isQuiet := by
  intro f hf
  rcases h with rfl | ⟨rfl, hrepaired⟩
  · rw [Report.amended, if_neg (by simp [Outcome.isOnDisk])] at hf
    obtain ⟨f', hf', rfl⟩ := List.mem_map.1 hf
    simp only [List.mem_append, Outcome.findings, List.mem_singleton] at hf'
    refine Finding.isQuiet_unrepaired ?_
    rcases hf' with (hf' | hf') | hf'
    · exact .inl (hbefore f' hf')
    · exact .inr (.inl (hcheck f' hf'))
    · exact .inr (.inr hf')
  · have hkept : Report.amended .unchanged (before ++ fs)
      = before ++ fs ++ Outcome.findings .unchanged := if_pos rfl
    rw [hkept, Outcome.findings, List.append_nil, List.mem_append] at hf
    rcases hf with hf | hf
    · exact Finding.isQuiet_of_isOfScan (hbefore f hf)
    · exact Finding.isQuiet_of_isOfCheck (hcheck f hf) (hrepaired f hf)

/-- A run at rest reports nothing of a write. -/
theorem Plan.Scan.IsAtRest.isQuiet (hnames : t.isNamedAt root)
    (hscan : Plan.scan t root options = .ok s)
    (hwrite : Plan.write t root options = .ok plan) (h : s.IsAtRest options) :
    ∀ d ∈ (plan.reportWith (plan.tasks.map (·.outcome none))).diagnostics, d.finding.isQuiet := by
  intro d hd
  have hf : d.finding ∈ findingsAt (plan.reportWith (plan.tasks.map (·.outcome none))).diagnostics
    d.path :=
    Diagnostics.mem_findingsAt.2 ⟨d, hd, rfl, rfl⟩
  by_cases hselected : ∃ m ∈ s.selected options, m.path.Same d.path
  · obtain ⟨m, hmem, hsame⟩ := hselected
    obtain ⟨i, hm⟩ := List.mem_iff_getElem?.1 hmem
    obtain ⟨m', hm', -⟩ := Forwarding.grows_settle options.effectiveSwitches s.registry
      (Plan.distinct_selected hnames hscan) hm
    obtain ⟨m₀, hm₀, htext, hkept⟩ := h.cases hm'
    obtain rfl := Option.some.inj (hm.symm.trans hm₀)
    have houtcome : (plan.tasks.map (·.outcome none))[i]? =
        some ((Task.ofManifest m').outcome none) := by
      rw [List.getElem?_map, task_of_settle hscan hwrite hm', Option.map_some]
    obtain ⟨m₁, fs, hm₁, haccount, hfindings⟩ :=
      exists_account_reportWith hnames hscan hwrite _ hm houtcome
    obtain rfl := Option.some.inj (hm'.symm.trans hm₁)
    rw [← Diagnostics.findingsAt_congr _ hsame, hfindings] at hf
    refine isQuiet_of_mem_amended (Plan.isOfScan_at hscan m.path) (isOfCheck_of_account haccount) ?_ _ hf
    cases hskipped : (Task.ofManifest m').isSkipped with
    | true => exact .inl (by rw [Task.outcome, if_pos hskipped])
    | false =>
      obtain rfl := hkept.resolve_right (by simp [hskipped])
      refine .inr ⟨by simp [Task.outcome, hskipped, htext],
        fun f hf => Bool.eq_false_iff.2 fun hrepaired => ?_⟩
      obtain ⟨sw, k, hnew, hold⟩ := exists_gain_of_isRepaired haccount.toGained hf hrepaired
      simp [hnew] at hold
  · have hselected : ∀ m ∈ s.selected options, ¬m.path.Same d.path := by simpa using hselected
    rw [findingsAt_reportWith_of_not_selected hnames hscan hwrite _ hselected] at hf
    exact Finding.isQuiet_of_isOfScan (Plan.isOfScan_at hscan _ _ hf)

/-- A write run is silent exactly if its scan is at rest. -/
theorem isSilent_iff (hnames : t.isNamedAt root) (hscan : Plan.scan t root options = .ok s) :
    (Operation.write root options).IsSilent t ↔ s.IsAtRest options := by
  refine ⟨isAtRest_of_isSilent hnames hscan, fun h => ?_⟩
  obtain ⟨plan, hwrite, htasks, hrun⟩ := run_write hscan
  have htexts : ∀ task ∈ plan.tasks, task.text = none := by
    intro task htask
    obtain ⟨i, hi⟩ := List.mem_iff_getElem?.1 htask
    rw [getElem?_tasks hscan hwrite] at hi
    obtain ⟨m', hm', rfl⟩ := Option.map_eq_some_iff.1 hi
    obtain ⟨m, -, htext, -⟩ := h.cases hm'
    exact htext
  rw [Task.performAll_of_no_text htexts] at hrun
  exact ⟨_, hrun, h.isQuiet hnames hscan hwrite⟩

end FeatureForwarding
