import FeatureForwarding.Proofs.Forwarding.Memory
import FeatureForwarding.Proofs.Run.Rescan

/-! A check beside a write run. What the one reports about the tree the other reports again, repaired
or not: the scan is the same, knowledge of the switches only grows while the run repairs, and where a
pass drops a finding that it could not repair, a later one finds it again. -/

namespace FeatureForwarding

open Files (Path Tree)
open Diagnostics (findingsAt)

namespace Finding

/-- What a finding is about, whether it is left to its author or was repaired. -/
def withoutFlags : Finding → Finding
  | .missingForwarding package dependency s _ _ => .missingForwarding package dependency s false false
  | finding => finding

@[simp] theorem withoutFlags_unrepaired (f : Finding) : f.unrepaired.withoutFlags = f.withoutFlags := by
  cases f <;> rfl

@[simp] theorem package?_afterRepair (m : Manifest) (f : Finding) :
    (f.afterRepair m).package? = f.package? := by
  unfold afterRepair
  split
  · cases f <;> rfl
  · rfl

end Finding

/-! ### What the diagnostics of a run name -/

namespace Forwarding

variable {switches : List Switch} {r : Registry} {m : Manifest} {ms : List Manifest} {f : Finding}
  {d : Diagnostic}

/-- The diagnostic is one of a repair, of the manifest or of what it has grown to. -/
def Reports (switches : List Switch) (m : Manifest) (d : Diagnostic) : Prop :=
  ∃ r m', m.Grows m' ∧ d ∈ (repair r switches m').report

theorem Reports.of_grows {m' : Manifest} (hgrows : m.Grows m') (h : Reports switches m' d) :
    Reports switches m d := by
  obtain ⟨r, m'', hgrows', hd⟩ := h
  exact ⟨r, m'', hgrows.trans hgrows', hd⟩

theorem reports_visit (h : d ∈ (visit switches r m).report) : Reports switches m d := by
  unfold visit at h
  split at h
  · exact absurd h (by simp [Repair.report, diagnosticsAt])
  · exact ⟨r, m, .refl, h⟩

theorem reports_pass (h : d ∈ (pass switches r ms).report) : ∃ m ∈ ms, Reports switches m d := by
  rw [report_pass] at h
  obtain ⟨e, he, hd⟩ := List.mem_flatMap.1 h
  exact ⟨e.2, mem_of_mem_meetings he, reports_visit hd⟩

theorem reports_passes {limit : Nat} (h : d ∈ (passes switches limit r ms).report) :
    ∃ m ∈ ms, Reports switches m d := by
  induction limit generalizing r ms with
  | zero => exact reports_pass h
  | succ limit ih =>
    rw [passes] at h
    split at h
    · exact reports_pass h
    · rcases List.mem_append.1 h with h | h
      · exact reports_pass (List.mem_filter.1 h).1
      · obtain ⟨m', hm', hreports⟩ := ih h
        obtain ⟨e, he, rfl⟩ := mem_manifests_pass.1 hm'
        exact ⟨e.2, mem_of_mem_meetings he, hreports.of_grows (grows_visit switches e.1 e.2)⟩

/-- Every diagnostic of settling comes from a repair of one of the manifests. -/
theorem reports_settle (hdistinct : Distinct ms) (h : d ∈ (settle switches r ms).report) :
    ∃ m ∈ ms, Reports switches m d := by
  rw [report_settle] at h
  rcases List.mem_append.1 h with h | h
  · exact reports_passes h
  · obtain ⟨m', hm', hd⟩ := List.mem_flatMap.1 h
    obtain ⟨i, hi⟩ := List.mem_iff_getElem?.1 hm'
    obtain ⟨m, hm, hgrows⟩ := (rounds_settle switches hdistinct r).grows hi
    refine ⟨m, List.mem_of_getElem? hm, Reports.of_grows hgrows ?_⟩
    unfold closing at hd
    split at hd
    · exact ⟨_, m', .refl, hd⟩
    · exact absurd hd (by simp [Repair.report, diagnosticsAt])

/-- Whether the diagnostic stands at the path of the manifest and names its package. -/
def Names (d : Diagnostic) (m : Manifest) : Prop :=
  d.path = m.path ∧ d.finding.package? = some m.displayName

theorem Reports.names (h : Reports switches m d) : Names d m := by
  obtain ⟨r, m', hgrows, hd⟩ := h
  obtain ⟨hgrows', hfindings, -⟩ := answers_repair r switches m'
  obtain ⟨f, hf, rfl⟩ := List.mem_map.1 hd
  rw [hfindings] at hf
  obtain ⟨f₀, hf₀, rfl⟩ := List.mem_map.1 hf
  refine ⟨(hgrows.trans hgrows').path, ?_⟩
  rw [Finding.package?_afterRepair, package?_of_mem_findings hf₀, hgrows.displayName]

/-- Every diagnostic of settling stands at the path of a manifest and names its package. -/
theorem names_settle (hdistinct : Distinct ms) (h : d ∈ (settle switches r ms).report) :
    ∃ m ∈ ms, Names d m := by
  obtain ⟨m, hm, hreports⟩ := reports_settle hdistinct h
  exact ⟨m, hm, hreports.names⟩

/-! ### What is found again -/

/-- A first use stays one when more is known, though an entry before it may come to be the first. -/
theorem exists_firstUse?_of_mono {r' : Registry} {s : Switch} {key : String} {e : Dependency}
    (hmono : ∀ name, r.uses name s → r'.uses name s) (h : firstUse? r m s key = some e) :
    ∃ e', firstUse? r' m s key = some e' := by
  obtain ⟨hkey, huses⟩ : e.key = key ∧ r.uses e.package s := by simpa using List.find?_some h
  exact Option.isSome_iff_exists.1 (List.find?_isSome.2
    ⟨e, List.mem_of_find?_eq_some h, by simp [hkey, hmono _ huses]⟩)

/-- Where knowledge only grows, what was found at the start is repaired or found in the end. -/
theorem exists_of_account {r' : Registry} {m' : Manifest} {fs : List Finding}
    (hmono : ∀ name s, r.uses name s → r'.uses name s) (haccount : Account r' switches m m' fs)
    (hnamed : ∀ f ∈ fs, f.package? = some m.displayName) (hf : f ∈ findings r switches m) :
    ∃ f' ∈ fs, f'.withoutFlags = f.withoutFlags := by
  have hremains {f' : Finding} (hf' : f' ∈ findings r' switches m') : f' ∈ fs := by
    rw [← haccount.remaining] at hf'
    exact (List.mem_filter.1 hf').1
  have hgrows := haccount.grows
  cases f with
  | missingDefaultFeatures package key =>
    obtain ⟨hstd, rfl, d, hd, hkey, hdefaults, s, hs, huses⟩ :=
      missingDefaultFeatures_mem_findings.1 hf
    refine ⟨_, hremains (missingDefaultFeatures_mem_findings.2 ⟨hgrows.isNoStd hstd, rfl, d, ?_,
      hkey, hdefaults, s, hs, hmono _ s huses⟩), ?_⟩
    · rwa [hgrows.dependencies]
    · rw [hgrows.displayName]
  | missingForwarding package key s optional repaired =>
    have hs := switch_mem_of_mem_findings hf
    obtain ⟨hstd, rfl, -, hold, d, hd, -⟩ := (missingForwarding_mem_findings hs).1 hf
    by_cases hnew : m'.forwards s key
    · obtain ⟨f', hf', htoken⟩ := List.mem_filterMap.1 ((haccount.mem key s).2 ⟨hnew, hold⟩)
      have hf' := (List.mem_filter.1 hf').1
      refine ⟨f', hf', ?_⟩
      have hpackage := hnamed f' hf'
      cases f' with
      | missingForwarding package' key' s' optional' repaired' =>
        obtain ⟨rfl, rfl⟩ := Prod.mk.inj (Option.some.inj htoken)
        rw [Option.some.inj hpackage]
        rfl
      | _ => exact absurd htoken (by simp [Finding.token?])
    · obtain ⟨d', hd'⟩ := exists_firstUse?_of_mono (fun name => hmono name s) hd
      have hfirst : firstUse? r' m' s key = some d' := by
        rw [firstUse?, hgrows.dependencies]
        exact hd'
      refine ⟨_, hremains ((missingForwarding_mem_findings hs).2 ⟨hgrows.isNoStd hstd, rfl, rfl,
        by simpa using hnew, d', hfirst, rfl⟩), ?_⟩
      rw [hgrows.displayName]
      rfl
  | _ => exact absurd (isOfCheck_of_mem_findings hf) (by simp [Finding.isOfCheck])

/-- What a check against the scanned registry finds, settling reports at the same path. -/
theorem exists_of_mem_check {r₀ : Registry} (hfresh : r₀.Fresh) {manifests : List Manifest}
    (hpaths : Distinct manifests) (hms : ms ⊆ manifests) (hdistinct : Distinct ms) (hm : m ∈ ms)
    (h : d ∈ check (r₀.scan manifests).1 switches m) :
    ∃ d' ∈ (settle switches (r₀.scan manifests).1 ms).report,
      d'.path = d.path ∧ d'.finding.withoutFlags = d.finding.withoutFlags := by
  obtain ⟨f, hf, rfl⟩ := List.mem_map.1 h
  obtain ⟨i, hi⟩ := List.mem_iff_getElem?.1 hm
  obtain ⟨m', -, haccount⟩ := account_settle switches (r₀.scan manifests).1 hdistinct hi
  have hnames {d' : Diagnostic} (hd' : d' ∈ (settle switches (r₀.scan manifests).1 ms).report)
      (hsame : d'.path.Same m.path) : Names d' m := by
    obtain ⟨m₁, hm₁, hnames⟩ := names_settle hdistinct hd'
    obtain rfl := hdistinct.eq_of_same hm₁ hm (hnames.1 ▸ hsame)
    exact hnames
  obtain ⟨f', hf', hflags⟩ := exists_of_account
    (fun name s huses => uses_settle_of_scan hfresh hpaths hms hdistinct huses) haccount
    (fun f' hf' => by
      obtain ⟨d', hd', hsame, rfl⟩ := Diagnostics.mem_findingsAt.1 hf'
      exact (hnames hd' hsame).2) hf
  obtain ⟨d', hd', hsame, rfl⟩ := Diagnostics.mem_findingsAt.1 hf'
  exact ⟨d', hd', (hnames hd' hsame).1, hflags⟩

end Forwarding

/-! ### The two reports -/

namespace Report

/-- The report tells all that the other one does: the same of the scan, and each finding again. -/
structure Covers (report other : Report) : Prop where
  scan : report.diagnostics.filter (·.finding.isOfScan) =
    other.diagnostics.filter (·.finding.isOfScan)
  findings : ∀ d ∈ other.diagnostics, ∃ d' ∈ report.diagnostics,
    d'.path = d.path ∧ d'.finding.withoutFlags = d.finding.withoutFlags

theorem Covers.refl (report : Report) : report.Covers report where
  scan := rfl
  findings d hd := ⟨d, hd, rfl, rfl⟩

theorem Covers.trans {report report' report'' : Report} (h : report.Covers report')
    (h' : report'.Covers report'') : report.Covers report'' where
  scan := h.scan.trans h'.scan
  findings d hd := by
    obtain ⟨d', hd', hpath, hflags⟩ := h'.findings d hd
    obtain ⟨d'', hd'', hpath', hflags'⟩ := h.findings d' hd'
    exact ⟨d'', hd'', hpath'.trans hpath, hflags'.trans hflags⟩

/-- Recording what became of a text hides nothing. -/
theorem covers_record (report : Report) (path : Path) (outcome : Outcome) :
    (report.record path outcome).Covers report := by
  have houtcome : outcome.findings.filter Finding.isOfScan = [] := by
    cases outcome <;> rfl
  refine ⟨?_, ?_⟩
  · rw [filter_record (fun _ => Finding.not_isOfCheck_of_isOfScan), houtcome, List.map_nil, List.append_nil]
  · unfold record
    cases outcome.isOnDisk with
    | true => exact fun d hd => ⟨d, List.mem_append_left _ hd, rfl, rfl⟩
    | false =>
      refine fun d hd => ⟨_, List.mem_map_of_mem (List.mem_append_left _ hd), ?_⟩
      split
      · exact ⟨rfl, Finding.withoutFlags_unrepaired d.finding⟩
      · exact ⟨rfl, rfl⟩

theorem covers_recordAll (l : List (Task × Outcome)) (report : Report) :
    (report.recordAll l).Covers report := by
  induction l generalizing report with
  | nil => exact .refl report
  | cons e rest ih => exact (ih (report.record e.1.path e.2)).trans (covers_record report e.1.path e.2)

end Report

variable {t t' : Tree} {root : Path} {options : Options} {s : Plan.Scan}

theorem Plan.filter_isOfScan (hscan : Plan.scan t root options = .ok s) {ds : Diagnostics}
    (h : ∀ d ∈ ds, d.finding.isOfCheck) :
    (s.diagnostics ++ ds).filter (·.finding.isOfScan) = s.diagnostics := by
  have hnone : ds.filter (·.finding.isOfScan) = [] := by
    refine List.filter_eq_nil_iff.2 fun d hd hof => ?_
    simpa [h d hd] using Finding.not_isOfCheck_of_isOfScan hof
  rw [List.filter_append, hnone, List.append_nil]
  exact List.filter_eq_self.2 fun d hd => Plan.isOfScan_of_mem_scan hscan hd

theorem exists_scan_of_check {report : Report}
    (hcheck : (Operation.check root options).run t = .ok (report, t')) :
    ∃ s, Plan.scan t root options = .ok s := by
  obtain ⟨plan, hplan, -⟩ := exists_of_bind hcheck
  obtain ⟨s, hscan, -⟩ := exists_of_bind hplan
  exact ⟨s, hscan⟩

/-- A check reports its scan and what it finds in the selected manifests, and leaves the tree alone. -/
theorem run_check (hscan : Plan.scan t root options = .ok s) {report : Report}
    (hcheck : (Operation.check root options).run t = .ok (report, t')) :
    t' = t ∧ report.diagnostics = s.diagnostics ++
      (s.selected options).flatMap (Forwarding.check s.registry options.effectiveSwitches) := by
  simp only [Operation.run, Operation.plan, Plan.check, hscan, bind, Except.bind, Plan.perform,
    Task.performAll, Plan.reportWith] at hcheck
  obtain ⟨rfl, rfl⟩ := Prod.mk.inj (Except.ok.inj hcheck)
  exact ⟨rfl, rfl⟩

/-- Without a snapshot that stands for everything, a write run on the same tree covers the report of
a check, whatever becomes of the texts that it writes. -/
theorem write_covers_check {report : Report} (hnames : t.isNamedAt root)
    (hall : options.snapshotOnly = false)
    (hcheck : (Operation.check root options).run t = .ok (report, t')) :
    ∃ plan, Plan.write t root options = .ok plan ∧
      (∀ outcomes, (plan.reportWith outcomes).Covers report) ∧
      (Operation.write root options).run t =
        .ok (plan.reportWith (Task.performAll plan.tasks t).1, (Task.performAll plan.tasks t).2) := by
  obtain ⟨s, hscan⟩ := exists_scan_of_check hcheck
  obtain ⟨plan, hwrite, -, hrun⟩ := run_write hscan
  refine ⟨plan, hwrite, fun outcomes => (Report.covers_recordAll _ plan.report).trans ?_, hrun⟩
  obtain ⟨r₀, hfresh, hregistry⟩ := Plan.exists_fresh_scan hscan hall
  have hdistinct := Plan.distinct_selected hnames hscan
  obtain ⟨-, hreport⟩ := run_check hscan hcheck
  have hplan : plan.report.diagnostics = s.diagnostics ++ (s.settle options).report := by
    obtain rfl := Except.ok.inj (hwrite.symm.trans (Plan.write_of_scan hscan))
    rfl
  refine ⟨?_, fun d hd => ?_⟩
  · rw [hreport, hplan, Plan.filter_isOfScan hscan, Plan.filter_isOfScan hscan]
    · intro d hd
      obtain ⟨m, -, hd⟩ := List.mem_flatMap.1 hd
      obtain ⟨f, hf, rfl⟩ := List.mem_map.1 hd
      exact Forwarding.isOfCheck_of_mem_findings hf
    · intro d hd
      obtain ⟨m, -, hd⟩ := Forwarding.names_settle hdistinct hd
      exact Finding.isOfCheck_of_package? hd.2
  · rw [hreport, List.mem_append] at hd
    rw [hplan]
    rcases hd with hd | hd
    · exact ⟨d, List.mem_append_left _ hd, rfl, rfl⟩
    · obtain ⟨m, hm, hd⟩ := List.mem_flatMap.1 hd
      rw [hregistry] at hd
      obtain ⟨d', hd', hagain⟩ := Forwarding.exists_of_mem_check hfresh
        (Plan.distinct_scan hnames hscan) List.filter_sublist.subset hdistinct hm hd
      rw [← hregistry] at hd'
      exact ⟨d', List.mem_append_right _ hd', hagain⟩

theorem write_covers_check_lacking :
    ∃ report plan, lacking.isNamedAt ⟨"."⟩ ∧
      (Operation.check ⟨"."⟩ {}).run lacking = .ok (report, lacking) ∧
      report.diagnostics.map (·.finding) = [.missingDefaultFeatures "./a.toml" "k",
        .missingForwarding "./a.toml" "k" .std false false] ∧
      Plan.write lacking ⟨"."⟩ {} = .ok plan ∧
      (plan.reportWith [.failed "full", .unchanged]).Covers report := by
  have hnames : lacking.isNamedAt ⟨"."⟩ := by decide +kernel
  have htest : ((Operation.check ⟨"."⟩ {}).run lacking).toOption.any fun e =>
      e.1.diagnostics.map (·.finding) = [.missingDefaultFeatures "./a.toml" "k",
        .missingForwarding "./a.toml" "k" .std false false] := by
    decide +kernel
  obtain ⟨⟨report, t'⟩, hcheck, hreport⟩ := exists_ok_of_any htest
  obtain ⟨s, hscan⟩ := exists_scan_of_check hcheck
  obtain ⟨rfl, -⟩ := run_check hscan hcheck
  obtain ⟨plan, hwrite, hcovers, -⟩ := write_covers_check hnames rfl hcheck
  exact ⟨report, plan, hnames, hcheck, of_decide_eq_true hreport, hwrite, hcovers _⟩

end FeatureForwarding
