import FeatureForwarding.Proofs.Run.Counters
import FeatureForwarding.Proofs.Run.Extent

/-! The totals of every run. What was read and what could not be read makes up what was discovered, no
manifest is counted twice, and the files that changed are as many as were written; only a save may put its
snapshot in the place of a manifest, which it does not count. -/

namespace FeatureForwarding

open Files (Path Tree)

def Operation.root : Operation → Path
  | .check root _ | .write root _ | .save root _ _ | .lint root _ => root

variable {t t' : Tree} {root : Path} {paths : List Path} {options : Options} {standards : Standards}
  {s : Plan.Scan} {plan : Plan} {m : Manifest}

/-! ### What is told of repairs -/

namespace Forwarding

variable {r : Registry} {switches : List Switch} {d : Diagnostic}

theorem isMandatory_of_mem_check (h : d ∈ check r switches m) : d.IsMandatory := by
  obtain ⟨f, hf, rfl⟩ := List.mem_map.1 h
  exact Diagnostic.isMandatory_of_not_isRepaired ((pending_findings r switches m).unmarked f hf)

theorem Reports.isMandatory (h : Reports switches m d) : d.IsMandatory := by
  obtain ⟨r, m', -, hd⟩ := h
  obtain ⟨f, hf, rfl⟩ := List.mem_map.1 hd
  rw [(answers_repair r switches m').findings] at hf
  obtain ⟨f₀, hf₀, rfl⟩ := List.mem_map.1 hf
  intro package dependency switch optional heq
  have hrepairable : f₀.isRepairable m' := by
    rw [← Finding.isRepaired_afterRepair ((pending_findings r switches m').unmarked f₀ hf₀)]
    exact congrArg Finding.isRepaired heq
  cases f₀ with
  | missingForwarding package₀ dependency₀ switch₀ optional₀ repaired₀ =>
    obtain rfl : optional₀ = false := by
      simp only [Finding.isRepairable, Bool.and_eq_true, Bool.not_eq_true'] at hrepairable
      exact hrepairable.1
    rw [Finding.afterRepair, if_pos hrepairable] at heq
    exact (Finding.missingForwarding.inj heq).2.2.2.1.symm
  | _ => exact absurd hrepairable (by simp [Finding.isRepairable])

end Forwarding

/-! ### What a plan starts with -/

theorem Plan.opens_of_scan (hscan : Plan.scan t root options = .ok s)
    (hpaths : Discovery.manifests t root = .ok paths) {found : Diagnostics} {checked : Nat}
    (hreport : plan.report = { s.report with diagnostics := s.diagnostics ++ found, checked := checked })
    (hchecked : checked ≤ s.manifests.length) (hfound : ∀ d ∈ found, d.finding.isOfCheck)
    (hmandatory : ∀ d ∈ found, d.IsMandatory) (htasks : Task.Planned t paths plan.tasks) :
    plan.Opens t paths where
  unread := by
    obtain ⟨paths', registry, hpaths', -, -, -, hdiagnostics⟩ := scan_eq_ok hscan
    obtain rfl := Except.ok.inj (hpaths.symm.trans hpaths')
    have hnone : found.filter (·.finding.isParseFailure) = [] := by
      refine List.filter_eq_nil_iff.2 fun d hd hparse => ?_
      exact absurd (hfound d hd) (by simp [Finding.not_isOfCheck_of_isParseFailure _ hparse])
    rw [hreport, List.filter_append, hnone, List.append_nil, hdiagnostics, List.filter_append,
      Manifest.filter_isParseFailure_loadAll]
    split
    · rw [List.filter_nil, List.append_nil]
    · rw [Registry.filter_isParseFailure_scan, List.append_nil]
  scanned := by
    obtain ⟨paths', registry, hpaths', hmanifests, -⟩ := scan_eq_ok hscan
    obtain rfl := Except.ok.inj (hpaths.symm.trans hpaths')
    rw [hreport, ← hmanifests]
    rfl
  checked := hreport ▸ hchecked
  written := hreport ▸ rfl
  skipped := hreport ▸ rfl
  kinds d hd := by
    rw [hreport] at hd
    exact (List.mem_append.1 hd).imp (isOfScan_of_mem_scan hscan) (hfound d)
  mandatory d hd := by
    rw [hreport] at hd
    rcases List.mem_append.1 hd with hd | hd
    · exact Diagnostic.isMandatory_of_not_isOfCheck
        (Finding.not_isOfCheck_of_isOfScan (isOfScan_of_mem_scan hscan hd))
    · exact hmandatory d hd
  tasks := htasks

theorem Task.planned_nil (t : Tree) (paths : List Path) : Planned t paths [] :=
  ⟨nofun, nofun, nofun, .nil⟩

theorem Task.text_ofManifest_ne (m : Manifest) : (ofManifest m).text ≠ some m.source := by
  rw [text_ofManifest]
  split
  · next h =>
    simp only [Bool.and_eq_true, Manifest.isModified, bne_iff_ne] at h
    simpa using h.1
  · simp

theorem planned_write (hnames : t.isNamedAt root) (hscan : Plan.scan t root options = .ok s)
    (hpaths : Discovery.manifests t root = .ok paths) :
    Task.Planned t paths ((s.settle options).manifests.map Task.ofManifest) where
  plain := plain_tasks s options
  discovered task htask := (readable_tasks hnames hscan hpaths task htask).1
  read task htask := by
    obtain ⟨m, hm, m', rfl, hgrows, hpath⟩ := exists_of_mem_tasks hnames hscan htask
    obtain ⟨-, htext, -⟩ := Manifest.load_eq_ok (Plan.load_of_mem_scan hscan (List.filter_sublist.subset hm))
    exact ⟨m.source, hpath ▸ htext, hgrows.source ▸ Task.text_ofManifest_ne m'⟩
  distinct := distinct_tasks hnames hscan

/-- A manifest with comments is skipped, any other is written in canonical form. -/
theorem Task.ofLint_cases (standards : Standards) (m : Manifest) :
    (m.hasComments = true ∧ ofLint standards m = ⟨m.path, none, true⟩) ∨
      (m.hasComments = false ∧ (m.normalize standards).hasComments = false ∧
        ofLint standards m = ofManifest (m.normalize standards)) := by
  unfold ofLint
  cases hc : m.hasComments with
  | true => exact .inl ⟨rfl, rfl⟩
  | false => exact .inr ⟨rfl, hc, rfl⟩

theorem Task.path_ofLint (standards : Standards) (m : Manifest) : (ofLint standards m).path = m.path := by
  obtain ⟨-, h⟩ | ⟨-, -, h⟩ := ofLint_cases standards m
  · rw [h]
  · rw [h, path_ofManifest]
    rfl

theorem Task.isSkipped_ofLint (standards : Standards) (m : Manifest) :
    (ofLint standards m).isSkipped = m.hasComments := by
  obtain ⟨hc, h⟩ | ⟨hc, hcanonical, h⟩ := ofLint_cases standards m
  · rw [h, hc]
  · rw [h, hc, isSkipped_ofManifest, hcanonical, Bool.and_false]

theorem planned_lint (hnames : t.isNamedAt root) (hpaths : Discovery.manifests t root = .ok paths) :
    Task.Planned t paths ((Manifest.loadAll t paths).1.map (Task.ofLint standards)) where
  plain task htask := by
    obtain ⟨m, -, rfl⟩ := List.mem_map.1 htask
    obtain ⟨-, h⟩ | ⟨-, -, h⟩ := Task.ofLint_cases standards m
    · exact fun htext => absurd htext (by simp [h])
    · exact h ▸ Task.isPlain_ofManifest _
  discovered task htask := by
    obtain ⟨m, hm, rfl⟩ := List.mem_map.1 htask
    rw [Task.path_ofLint]
    exact (Manifest.paths_loadAll t paths).subset (List.mem_map_of_mem hm)
  read task htask := by
    obtain ⟨m, hm, rfl⟩ := List.mem_map.1 htask
    obtain ⟨-, htext, -⟩ := Manifest.load_eq_ok (Manifest.mem_loadAll hm)
    refine ⟨m.source, (Task.path_ofLint standards m).symm ▸ htext, ?_⟩
    obtain ⟨-, h⟩ | ⟨-, -, h⟩ := Task.ofLint_cases standards m
    · simp [h]
    · exact h ▸ Task.text_ofManifest_ne (m.normalize standards)
  distinct := by
    rw [List.pairwise_map]
    simp only [Task.path_ofLint]
    exact List.pairwise_map.1
      ((Discovery.distinct_manifests hnames hpaths).sublist (Manifest.paths_loadAll t paths))

/-! ### The operations -/

theorem Plan.perform_eq_ok {report : Report} (h : plan.perform t = .ok (report, t')) :
    plan.reportWith (Task.performAll plan.tasks t).1 = report ∧
      (plan.snapshot = none → t' = (Task.performAll plan.tasks t).2) ∧
      ∀ path text, plan.snapshot = some (path, text) →
        (Task.performAll plan.tasks t).2.write path text = .ok t' := by
  simp only [Plan.perform] at h
  cases hsnapshot : plan.snapshot with
  | none =>
    simp only [hsnapshot] at h
    obtain ⟨rfl, rfl⟩ := Prod.mk.inj (Except.ok.inj h)
    exact ⟨rfl, fun _ => rfl, by simp⟩
  | some snapshot =>
    simp only [hsnapshot] at h
    split at h
    · next hwrite =>
      obtain ⟨rfl, rfl⟩ := Prod.mk.inj (Except.ok.inj h)
      refine ⟨rfl, by simp, fun path text hsome => ?_⟩
      obtain rfl := Option.some.inj hsome
      exact hwrite
    · exact absurd h (by simp)

namespace Operation

/-- The counters of a run agree with its diagnostics and with the trees before and after it. -/
structure AddsUp (operation : Operation) (t t' : Tree) (report : Report) (paths : List Path) : Prop
    extends report.AddsUp t paths where
  distinct : paths.Pairwise fun p q => ¬p.Same q
  written : (∀ root output options, operation ≠ .save root output options) →
    report.written = paths.countP fun p => t'.contentsAt? p ≠ t.contentsAt? p
  /-- A save changes what stands at its output and counts nothing. -/
  save : ∀ root output options, operation = .save root output options →
    report.written = 0 ∧ ∀ l, t'.sight? l ≠ t.sight? l → t.target? output = some l
  lint : ∀ root standards, operation = .lint root standards →
    report.checked + report.skipped = report.scanned
  write : ∀ root options, operation = .write root options → report.written + report.skipped +
    report.diagnostics.countP (·.finding.isWriteFailure) ≤ report.checked

variable {operation : Operation} {report : Report}

/-- Every plan opens with what was read. -/
theorem opens (hnames : t.isNamedAt operation.root) (hplan : operation.plan t = .ok plan) :
    ∃ paths, Discovery.manifests t operation.root = .ok paths ∧ plan.Opens t paths := by
  cases operation with
  | check root options =>
    obtain ⟨s, hscan, h⟩ := exists_of_bind hplan
    obtain rfl := Except.ok.inj h
    obtain ⟨paths, -, hpaths, -⟩ := Plan.scan_eq_ok hscan
    refine ⟨paths, hpaths, Plan.opens_of_scan hscan hpaths rfl (List.length_filter_le _ _) ?_ ?_
      (Task.planned_nil t paths)⟩
    · intro d hd
      obtain ⟨m, -, hd⟩ := List.mem_flatMap.1 hd
      obtain ⟨f, hf, rfl⟩ := List.mem_map.1 hd
      exact Forwarding.isOfCheck_of_mem_findings hf
    · intro d hd
      obtain ⟨m, -, hd⟩ := List.mem_flatMap.1 hd
      exact Forwarding.isMandatory_of_mem_check hd
  | write root options =>
    obtain ⟨s, hscan, h⟩ := exists_of_bind hplan
    obtain rfl := Except.ok.inj h
    obtain ⟨paths, -, hpaths, -⟩ := Plan.scan_eq_ok hscan
    have hdistinct : Forwarding.Distinct (s.selected options) := Plan.distinct_selected hnames hscan
    refine ⟨paths, hpaths, Plan.opens_of_scan hscan hpaths rfl (List.length_filter_le _ _) ?_ ?_
      (planned_write hnames hscan hpaths)⟩
    · intro d hd
      obtain ⟨m, -, hreports⟩ := Forwarding.reports_settle hdistinct hd
      exact Finding.isOfCheck_of_package? hreports.names.2
    · intro d hd
      obtain ⟨m, -, hreports⟩ := Forwarding.reports_settle hdistinct hd
      exact hreports.isMandatory
  | save root output options =>
    obtain ⟨s, hscan, h⟩ := exists_of_bind hplan
    obtain rfl := Except.ok.inj h
    obtain ⟨paths, -, hpaths, -⟩ := Plan.scan_eq_ok hscan
    have hreport : s.report = { s.report with diagnostics := s.diagnostics ++ [], checked := 0 } := by
      simp [Plan.Scan.report]
    exact ⟨paths, hpaths, Plan.opens_of_scan hscan hpaths hreport (Nat.zero_le _) nofun nofun
      (Task.planned_nil t paths)⟩
  | lint root standards =>
    obtain ⟨paths, hpaths, h⟩ := exists_of_bind hplan
    obtain rfl := Except.ok.inj h
    have hpaths := Plan.manifests_of_discover hpaths
    refine ⟨paths, hpaths, Manifest.filter_isParseFailure_loadAll t paths, rfl, List.countP_le_length, rfl, rfl,
      fun d hd => .inl (Manifest.isOfScan_of_mem_loadAll hd), fun d hd => ?_, planned_lint hnames hpaths⟩
    exact Diagnostic.isMandatory_of_not_isOfCheck
      (Finding.not_isOfCheck_of_isOfScan (Manifest.isOfScan_of_mem_loadAll hd))

theorem length_tasks_of_write (hnames : t.isNamedAt root)
    (hplan : (Operation.write root options).plan t = .ok plan) : plan.tasks.length = plan.report.checked := by
  obtain ⟨s, hscan, h⟩ := exists_of_bind hplan
  obtain rfl := Except.ok.inj h
  exact (List.length_map _).trans (Forwarding.length_settle (Plan.distinct_selected hnames hscan) _)

theorem countP_isSkipped_of_lint (hplan : (Operation.lint root standards).plan t = .ok plan) :
    plan.report.checked + plan.tasks.countP (·.isSkipped) = plan.report.scanned := by
  obtain ⟨paths, -, h⟩ := exists_of_bind hplan
  obtain rfl := Except.ok.inj h
  have hskipped : (fun m => (Task.ofLint standards m).isSkipped) = Manifest.hasComments :=
    funext (Task.isSkipped_ofLint standards)
  simp only [List.countP_map, Function.comp_def, hskipped]
  rw [Nat.add_comm, List.length_eq_countP_add_countP Manifest.hasComments]
  simp

theorem run_addsUp (hnames : t.isNamedAt operation.root) (hrun : operation.run t = .ok (report, t')) :
    ∃ paths, Discovery.manifests t operation.root = .ok paths ∧ operation.AddsUp t t' report paths := by
  obtain ⟨plan, hplan, hperform⟩ := exists_of_bind hrun
  obtain ⟨paths, hpaths, hopens⟩ := opens hnames hplan
  obtain ⟨rfl, htree, hsnapshot⟩ := Plan.perform_eq_ok hperform
  refine ⟨paths, hpaths, hopens.addsUp, Discovery.distinct_manifests hnames hpaths, fun hsave => ?_, ?_, ?_, ?_⟩
  · have hnone : plan.snapshot = none := by
      cases operation with
      | check root options => exact (plan_check hplan).2
      | write root options => exact (plan_write hplan).1
      | save root output options => exact absurd rfl (hsave root output options)
      | lint root standards => exact (plan_lint hplan).1
    rw [htree hnone, hopens.written_reportWith, hopens.tasks.countP_changed hnames hpaths]
  · rintro root output options rfl
    obtain ⟨htasks, houtput⟩ := plan_save hplan
    rw [htasks] at hsnapshot
    refine ⟨by rw [hopens.written_reportWith, htasks]; rfl, fun l hl => ?_⟩
    obtain ⟨⟨path, text⟩, hsome, rfl⟩ : ∃ snapshot, plan.snapshot = some snapshot ∧ snapshot.1 = output := by
      cases hsnapshot : plan.snapshot with
      | none => simp [hsnapshot] at houtput
      | some snapshot => exact ⟨snapshot, rfl, by simpa [hsnapshot] using houtput⟩
    obtain ⟨p, hp, htarget⟩ := (Tree.Altered.of_write (hsnapshot path text hsome)).changed l hl
    rwa [List.mem_singleton.1 hp] at htarget
  · rintro root standards rfl
    rw [Plan.checked_reportWith, Plan.scanned_reportWith, hopens.skipped_reportWith, Task.countP_isSkipped]
    exact countP_isSkipped_of_lint hplan
  · rintro root options rfl
    exact hopens.written_add_le (length_tasks_of_write hnames hplan)

/-- Beside what `lacking` holds, a manifest with a comment and a file that is none. -/
def mixture : Tree :=
  (lacking.place ["b.toml"] (.file (.text "features.std=[]\ndependencies.k=\"1\" #\n"))).place ["c.toml"]
    (.file (.text "="))

theorem run_addsUp_mixture : mixture.isNamedAt (Operation.write ⟨"."⟩ {}).root ∧
    ∃ report t' paths, (Operation.write ⟨"."⟩ {}).run mixture = .ok (report, t') ∧ paths.length = 4 ∧
      report.scanned = 3 ∧ report.checked = 3 ∧ report.written = 1 ∧ report.skipped = 1 ∧
      (Operation.write ⟨"."⟩ {}).AddsUp mixture t' report paths := by
  have hnames : mixture.isNamedAt (Operation.write ⟨"."⟩ {}).root := by decide +kernel
  have htest : ((Operation.write ⟨"."⟩ {}).run mixture).toOption.any fun e =>
      e.1.scanned = 3 ∧ e.1.checked = 3 ∧ e.1.written = 1 ∧ e.1.skipped = 1 := by
    decide +kernel
  have hfound : (Discovery.manifests mixture ⟨"."⟩).toOption.any (·.length = 4) := by decide +kernel
  obtain ⟨⟨report, t'⟩, hrun, htest⟩ := exists_ok_of_any htest
  obtain ⟨hscanned, hchecked, hwritten, hskipped⟩ := of_decide_eq_true htest
  obtain ⟨paths, hpaths, haddsUp⟩ := run_addsUp hnames hrun
  obtain ⟨paths', hpaths', hlength⟩ := exists_ok_of_any hfound
  obtain rfl := Except.ok.inj (hpaths'.symm.trans hpaths)
  exact ⟨hnames, report, t', paths', hrun, of_decide_eq_true hlength, hscanned, hchecked, hwritten, hskipped,
    haddsUp⟩

def alone : Tree := Tree.empty.place ["a.toml"] (.file (.text "package.name=\"a\"\n"))

/-- A snapshot in the place of a manifest is not counted as a change of it. -/
theorem save_over_manifest : ∃ report t', (Operation.save ⟨"."⟩ ⟨"a.toml"⟩ {}).run alone = .ok (report, t') ∧
    Discovery.manifests alone ⟨"."⟩ = .ok [⟨"./a.toml"⟩] ∧ report.written = 0 ∧
    ([⟨"./a.toml"⟩] : List Files.Path).countP (fun p => t'.contentsAt? p ≠ alone.contentsAt? p) = 1 := by
  have htest : ((Operation.save ⟨"."⟩ ⟨"a.toml"⟩ {}).run alone).toOption.any fun e =>
      e.1.written = 0 ∧
        ([⟨"./a.toml"⟩] : List Files.Path).countP (fun p => e.2.contentsAt? p ≠ alone.contentsAt? p) = 1 := by
    decide +kernel
  obtain ⟨⟨report, t'⟩, hrun, htest⟩ := exists_ok_of_any htest
  obtain ⟨hwritten, hchanged⟩ := of_decide_eq_true htest
  exact ⟨report, t', hrun, by decide +kernel, hwritten, hchanged⟩

end Operation

end FeatureForwarding
