import FeatureForwarding.Proofs.Forwarding.Account
import FeatureForwarding.Proofs.Run.Scan

/-! The report of a write run. What a scan reports is nothing that a check could find, and recording
an outcome touches the findings at one path; so the account that settling gives survives for each
manifest that is on the disk, and its repairs are taken back for each that is not. -/

namespace FeatureForwarding

open Files (Path Tree)
open Forwarding (tokens tokens_append)

namespace Finding

/-- Whether the finding is one of a check. -/
def isOfCheck : Finding → Bool
  | .missingDefaultFeatures _ _ | .missingForwarding .. => true
  | _ => false

/-- Whether the finding is one of a scan. -/
def isOfScan : Finding → Bool
  | .parseFailure _ | .duplicatePackage _ _ => true
  | _ => false

theorem isOfCheck_of_package? {f : Finding} {package : String} (h : f.package? = some package) :
    f.isOfCheck := by
  cases f <;> simp [package?, isOfCheck] at h ⊢

theorem not_isOfCheck_of_isOfScan {f : Finding} (h : f.isOfScan) : f.isOfCheck = false := by
  cases f <;> simp [isOfScan, isOfCheck] at h ⊢

theorem not_isRepaired_of_not_isOfCheck {f : Finding} (h : f.isOfCheck = false) :
    f.isRepaired = false := by
  cases f with
  | missingForwarding => exact absurd h (by simp [isOfCheck])
  | _ => rfl

theorem unrepaired_of_not_isOfCheck {f : Finding} (h : f.isOfCheck = false) : f.unrepaired = f := by
  cases f <;> simp [isOfCheck, unrepaired] at h ⊢

@[simp] theorem isOfCheck_unrepaired (f : Finding) : f.unrepaired.isOfCheck = f.isOfCheck := by
  cases f <;> rfl

theorem token?_of_not_isOfCheck {f : Finding} (h : f.isOfCheck = false) : f.token? = none := by
  cases f with
  | missingForwarding => exact absurd h (by simp [isOfCheck])
  | _ => rfl

@[simp] theorem token?_unrepaired (f : Finding) : f.unrepaired.token? = f.token? := by cases f <;> rfl

@[simp] theorem isRepaired_unrepaired (f : Finding) :
    f.unrepaired.isRepaired = false := by cases f <;> rfl

end Finding

theorem Outcome.not_isOfCheck (outcome : Outcome) : ∀ f ∈ outcome.findings, f.isOfCheck = false := by
  cases outcome <;> simp [findings, Finding.isOfCheck]

theorem Forwarding.isOfCheck_of_mem_findings {r : Registry} {switches : List Switch} {m : Manifest}
    {f : Finding} (h : f ∈ findings r switches m) : f.isOfCheck :=
  Finding.isOfCheck_of_package? (package?_of_mem_findings h)

/-! ### Recording outcomes -/

namespace Diagnostics

/-- Only what a check finds is touched where repairs are taken back. -/
theorem filter_revertRepairs {p : Finding → Bool} (hp : ∀ f, p f → f.isOfCheck = false)
    (ds : Diagnostics) (path : Path) :
    (ds.revertRepairs path).filter (p ·.finding) = ds.filter (p ·.finding) := by
  have hnot {f : Finding} (hf : f.isOfCheck) : p f = false :=
    Bool.eq_false_iff.2 fun h => absurd hf (by simp [hp f h])
  induction ds with
  | nil => rfl
  | cons d rest ih =>
    have hcons : revertRepairs (d :: rest) path =
        (if d.path.Same path then { d with finding := d.finding.unrepaired } else d)
          :: revertRepairs rest path := rfl
    rw [hcons, List.filter_cons, List.filter_cons, ih]
    by_cases hpath : d.path.Same path
    · cases hcheck : d.finding.isOfCheck with
      | true =>
        have hunrepaired : p d.finding.unrepaired = false := hnot (by simpa using hcheck)
        simp [hpath, hnot hcheck, hunrepaired]
      | false => simp [hpath, Finding.unrepaired_of_not_isOfCheck hcheck]
    · simp [hpath]

theorem findingsAt_revertRepairs (ds : Diagnostics) (path p : Path) :
    (ds.revertRepairs path).findingsAt p =
      if path.Same p then (ds.findingsAt p).map Finding.unrepaired else ds.findingsAt p := by
  induction ds with
  | nil => simp [findingsAt, revertRepairs]
  | cons d rest ih =>
    have hcons (d : Diagnostic) (ds : Diagnostics) :
        findingsAt (d :: ds) p =
          if d.path.Same p then d.finding :: ds.findingsAt p else ds.findingsAt p := by
      by_cases hd : d.path.Same p <;> simp [findingsAt, hd]
    have hrest : (revertRepairs (d :: rest) path) =
        (if d.path.Same path then { d with finding := d.finding.unrepaired } else d)
          :: revertRepairs rest path := rfl
    rw [hrest, hcons, hcons, ih]
    by_cases hp : d.path.Same p
    · by_cases hpath : d.path.Same path
      · have hsame : path.Same p := hpath.symm.trans hp
        simp [hp, hpath, hsame]
      · have hother : ¬path.Same p := fun hsame => hpath (hp.trans hsame.symm)
        simp [hp, hpath, hother]
    · by_cases hpath : d.path.Same path <;> simp [hp, hpath]

end Diagnostics

namespace Report

open Diagnostics (findingsAt findingsAt_append)

/-- What recording an outcome makes of the findings at the path. -/
def amended (outcome : Outcome) (fs : List Finding) : List Finding :=
  if outcome.isOnDisk then fs ++ outcome.findings else (fs ++ outcome.findings).map Finding.unrepaired

theorem findingsAt_record (report : Report) (path p : Path) (outcome : Outcome) :
    findingsAt (report.record path outcome).diagnostics p =
      if path.Same p then amended outcome (findingsAt report.diagnostics p)
        else findingsAt report.diagnostics p := by
  have houtcome : findingsAt (outcome.findings.map (⟨path, ·⟩)) p =
      if path.Same p then outcome.findings else [] := by
    by_cases hp : path.Same p <;> simp [findingsAt, List.filter_map, Function.comp_def, hp]
  unfold record amended
  by_cases hdisk : outcome.isOnDisk
  · simp only [hdisk, if_true, findingsAt_append, houtcome]
    split <;> simp
  · simp only [hdisk, Bool.false_eq_true, if_false, Diagnostics.findingsAt_revertRepairs,
      findingsAt_append, houtcome]
    split <;> simp

def recordAll (report : Report) (l : List (Task × Outcome)) : Report :=
  l.foldl (fun report (task, outcome) => report.record task.path outcome) report

/-- Whatever is not found by a check stays as it was reported. -/
theorem filter_record {p : Finding → Bool} (hp : ∀ f, p f → f.isOfCheck = false) (report : Report)
    (path : Path) (outcome : Outcome) :
    (report.record path outcome).diagnostics.filter (p ·.finding) =
      report.diagnostics.filter (p ·.finding) ++ (outcome.findings.filter p).map (Diagnostic.mk path) := by
  have hall : (report.diagnostics ++ outcome.findings.map (Diagnostic.mk path)).filter (p ·.finding) =
      report.diagnostics.filter (p ·.finding) ++ (outcome.findings.filter p).map (Diagnostic.mk path) := by
    rw [List.filter_append, List.filter_map]
    rfl
  unfold record
  cases outcome.isOnDisk with
  | true => exact hall
  | false => exact (Diagnostics.filter_revertRepairs hp _ path).trans hall

theorem filter_recordAll {p : Finding → Bool} (hp : ∀ f, p f → f.isOfCheck = false) (report : Report)
    (l : List (Task × Outcome)) :
    (report.recordAll l).diagnostics.filter (p ·.finding) = report.diagnostics.filter (p ·.finding) ++
      l.flatMap fun e => (e.2.findings.filter p).map (Diagnostic.mk e.1.path) := by
  induction l generalizing report with
  | nil => exact (List.append_nil _).symm
  | cons e rest ih =>
    refine (ih (report.record e.1.path e.2)).trans ?_
    rw [filter_record hp, List.flatMap_cons, List.append_assoc]

theorem findingsAt_recordAll_of_not_same {p : Path} {l : List (Task × Outcome)}
    (h : ∀ e ∈ l, ¬e.1.path.Same p)
    (report : Report) : findingsAt (report.recordAll l).diagnostics p =
      findingsAt report.diagnostics p := by
  induction l generalizing report with
  | nil => rfl
  | cons e rest ih =>
    refine (ih (fun e' he' => h e' (List.mem_cons_of_mem _ he')) _).trans ?_
    rw [findingsAt_record, if_neg (h e List.mem_cons_self)]

theorem findingsAt_recordAll {l : List (Task × Outcome)}
    (hdistinct : l.Pairwise fun e e' => ¬e.1.path.Same e'.1.path)
    {task : Task} {outcome : Outcome} (hmem : (task, outcome) ∈ l) (report : Report) :
    findingsAt (report.recordAll l).diagnostics task.path = amended outcome
      (findingsAt report.diagnostics task.path) := by
  induction l generalizing report with
  | nil => exact absurd hmem List.not_mem_nil
  | cons e rest ih =>
    obtain ⟨he, hrest⟩ := List.pairwise_cons.1 hdistinct
    rcases List.mem_cons.1 hmem with rfl | hmem
    · refine (findingsAt_recordAll_of_not_same (fun e' he' hsame => he e' he' hsame.symm) _).trans ?_
      rw [findingsAt_record, if_pos (show task.path.Same task.path from rfl)]
    · refine (ih hrest hmem _).trans ?_
      rw [findingsAt_record, if_neg (he _ hmem)]

end Report

/-! ### What a scan reports -/

theorem Registry.exists_duplicatePackage_of_mem_scan {r : Registry} {ms : List Manifest} {d : Diagnostic}
    (h : d ∈ (r.scan ms).2) : ∃ package first, d.finding = .duplicatePackage package first := by
  have hdefinitions : ∀ (found : List Definition) (ms : List Manifest),
    ∀ d ∈ (definitionsFrom found ms).2,
      ∃ package first, d.finding = .duplicatePackage package first := by
    intro found ms
    induction ms generalizing found with
    | nil => simp [definitionsFrom]
    | cons m rest ih =>
      rw [definitionsFrom]
      split
      · exact ih found
      · split
        · exact ih _
        · intro d hd
          rcases List.mem_cons.1 hd with rfl | hd
          · exact ⟨_, _, rfl⟩
          · exact ih found d hd
  have hinstall : ∀ (ds : List Definition) (r : Registry), ∀ d ∈ (r.installAll ds).2,
    ∃ package first, d.finding = .duplicatePackage package first := by
    intro ds
    induction ds with
    | nil => simp [installAll]
    | cons definition rest ih =>
      intro r
      rw [installAll]
      split
      · intro d hd
        rcases List.mem_cons.1 hd with rfl | hd
        · exact ⟨_, _, rfl⟩
        · exact ih _ d hd
      · exact ih _
  rcases List.mem_append.1 h with h | h
  · exact hdefinitions [] ms d h
  · exact hinstall _ r d h

theorem Registry.isOfScan_of_mem_scan {r : Registry} {ms : List Manifest} {d : Diagnostic}
    (h : d ∈ (r.scan ms).2) : d.finding.isOfScan := by
  obtain ⟨package, first, hduplicate⟩ := exists_duplicatePackage_of_mem_scan h
  rw [hduplicate]
  rfl

theorem Manifest.isOfScan_of_mem_loadAll {t : Tree} {paths : List Path} {d : Diagnostic}
    (h : d ∈ (loadAll t paths).2) : d.finding.isOfScan := by
  induction paths with
  | nil => exact absurd h List.not_mem_nil
  | cons path rest ih =>
    rw [loadAll] at h
    split at h
    · exact ih h
    · rcases List.mem_cons.1 h with rfl | h
      · rfl
      · exact ih h

theorem Plan.isOfScan_of_mem_scan {t : Tree} {root : Path} {options : Options} {s : Plan.Scan}
    {d : Diagnostic}
    (hscan : Plan.scan t root options = .ok s) (h : d ∈ s.diagnostics) : d.finding.isOfScan := by
  obtain ⟨paths, registry, -, -, -, -, hdiagnostics⟩ := Plan.scan_eq_ok hscan
  rw [hdiagnostics] at h
  rcases List.mem_append.1 h with h | h
  · exact Manifest.isOfScan_of_mem_loadAll h
  · split at h
    · exact absurd h List.not_mem_nil
    · exact Registry.isOfScan_of_mem_scan h

/-! ### The report as a whole -/

section Whole

open Diagnostics (findingsAt findingsAt_append)
open Forwarding (Account findings)

variable {r : Registry} {switches : List Switch} {m m' : Manifest} {before fs : List Finding}

theorem filter_isRepaired_of_not_isOfCheck (h : ∀ f ∈ before, f.isOfCheck = false) :
    before.filter Finding.isRepaired = [] :=
  List.filter_eq_nil_iff.2 fun f hf => by simp [Finding.not_isRepaired_of_not_isOfCheck (h f hf)]

theorem tokens_of_not_isOfCheck (h : ∀ f ∈ before, f.isOfCheck = false) : tokens before = [] :=
  List.filterMap_eq_nil_iff.2 fun f hf => Finding.token?_of_not_isOfCheck (h f hf)

theorem tokens_amended (hbefore : ∀ f ∈ before, f.isOfCheck = false) (outcome : Outcome) :
    tokens (Report.amended outcome (before ++ fs)) = tokens fs := by
  have hunrepaired (l : List Finding) : tokens (l.map Finding.unrepaired) = tokens l := by
    simp only [tokens, List.filterMap_map, Function.comp_def, Finding.token?_unrepaired]
  have hall : tokens (before ++ fs ++ outcome.findings) = tokens fs := by
    rw [tokens_append, tokens_append, tokens_of_not_isOfCheck hbefore,
      tokens_of_not_isOfCheck outcome.not_isOfCheck]
    simp
  unfold Report.amended
  split
  · exact hall
  · rw [hunrepaired, hall]

/-- What else is reported at a path leaves the account as it is. -/
theorem Forwarding.Account.amended (h : Account r switches m m' fs)
    (hbefore : ∀ f ∈ before, f.isOfCheck = false)
    {outcome : Outcome} (hdisk : outcome.isOnDisk) :
    Gained m m' (Report.amended outcome (before ++ fs)) ∧
      (Report.amended outcome (before ++ fs)).filter (fun f => f.isOfCheck && !f.isRepaired) =
        findings r switches m' := by
  have hkept : Report.amended outcome (before ++ fs) = before ++ fs ++ outcome.findings :=
    if_pos hdisk
  have hrepaired : (before ++ fs ++ outcome.findings).filter Finding.isRepaired =
    fs.filter Finding.isRepaired := by
    simp [filter_isRepaired_of_not_isOfCheck hbefore,
      filter_isRepaired_of_not_isOfCheck outcome.not_isOfCheck]
  have hother : ∀ l : List Finding, (∀ f ∈ l, f.isOfCheck = false) →
      l.filter (fun f => f.isOfCheck && !f.isRepaired) = [] := fun l hl =>
    List.filter_eq_nil_iff.2 fun f hf => by simp [hl f hf]
  rw [hkept]
  refine ⟨⟨h.grows, hrepaired ▸ h.nodup, hrepaired ▸ h.mem⟩, ?_⟩
  rw [List.filter_append, List.filter_append, hother before hbefore, hother _ outcome.not_isOfCheck,
    List.nil_append,
    List.append_nil, ← List.filter_filter, h.remaining]
  exact List.filter_eq_self.2 fun f hf => Forwarding.isOfCheck_of_mem_findings hf

theorem not_isRepaired_amended {outcome : Outcome} (hdisk : outcome.isOnDisk = false) :
    ∀ f ∈ Report.amended outcome fs, f.isRepaired = false := by
  rw [Report.amended, if_neg (by simp [hdisk])]
  intro f hf
  obtain ⟨f', -, rfl⟩ := List.mem_map.1 hf
  exact Finding.isRepaired_unrepaired f'

variable {t : Tree} {root : Path} {options : Options} {s : Plan.Scan} {plan : Plan}

theorem Task.path_ofManifest (m : Manifest) : (ofManifest m).path = m.path := by
  unfold ofManifest
  split
  · rfl
  split <;> rfl

theorem distinct_tasks (hnames : t.isNamedAt root) (hscan : Plan.scan t root options = .ok s) :
    ((s.settle options).manifests.map Task.ofManifest).Pairwise fun a b => ¬a.path.Same b.path := by
  have hdistinct := Forwarding.distinct_settle options.effectiveSwitches
    (Plan.distinct_selected hnames hscan) s.registry
  rw [List.pairwise_map]
  simp only [Task.path_ofManifest]
  exact hdistinct

theorem distinct_recorded (hnames : t.isNamedAt root) (hscan : Plan.scan t root options = .ok s)
    (outcomes : List Outcome) :
    (((s.settle options).manifests.map Task.ofManifest).zip outcomes).Pairwise fun e e' =>
      ¬e.1.path.Same e'.1.path := by
  have hfirst : ((((s.settle options).manifests.map Task.ofManifest).zip outcomes).map Prod.fst).Sublist
      ((s.settle options).manifests.map Task.ofManifest) := by
    rw [List.zip_eq_zip_take_min, List.map_fst_zip (by simp)]
    exact List.take_sublist _ _
  exact List.pairwise_map.1 ((distinct_tasks hnames hscan).sublist hfirst)

theorem Plan.isOfScan_at (hscan : Plan.scan t root options = .ok s) (p : Path) :
    ∀ f ∈ findingsAt s.diagnostics p, f.isOfScan := by
  intro f hf
  obtain ⟨d, hd, -, rfl⟩ := Diagnostics.mem_findingsAt.1 hf
  exact Plan.isOfScan_of_mem_scan hscan hd

theorem Plan.not_isOfCheck_at (hscan : Plan.scan t root options = .ok s) (p : Path) :
    ∀ f ∈ findingsAt s.diagnostics p, f.isOfCheck = false :=
  fun f hf => Finding.not_isOfCheck_of_isOfScan (Plan.isOfScan_at hscan p f hf)

/-- Every task of a write run is that of a selected manifest. -/
theorem exists_of_mem_tasks (hnames : t.isNamedAt root) (hscan : Plan.scan t root options = .ok s)
    {task : Task}
    (h : task ∈ (s.settle options).manifests.map Task.ofManifest) :
    ∃ m ∈ s.selected options, ∃ m', task = Task.ofManifest m' ∧ m.Grows m' ∧ task.path = m.path := by
  obtain ⟨m', hm', rfl⟩ := List.mem_map.1 h
  obtain ⟨i, hi⟩ := List.mem_iff_getElem?.1 hm'
  obtain ⟨m, hm, hgrows⟩ := Forwarding.exists_of_settle (Plan.distinct_selected hnames hscan) hi
  exact ⟨m, List.mem_of_getElem? hm, m', rfl, hgrows, (Task.path_ofManifest m').trans hgrows.path⟩

theorem tasks_of_write (hscan : Plan.scan t root options = .ok s)
    (hwrite : Plan.write t root options = .ok plan) :
    plan.tasks = (s.settle options).manifests.map Task.ofManifest := by
  obtain rfl := Except.ok.inj (hwrite.symm.trans (Plan.write_of_scan hscan))
  rfl

theorem getElem?_tasks (hscan : Plan.scan t root options = .ok s)
    (hwrite : Plan.write t root options = .ok plan) (i : Nat) :
    plan.tasks[i]? = (s.settle options).manifests[i]?.map Task.ofManifest := by
  rw [tasks_of_write hscan hwrite, List.getElem?_map]

theorem task_of_settle {i : Nat} (hscan : Plan.scan t root options = .ok s)
    (hwrite : Plan.write t root options = .ok plan) (hm' : (s.settle options).manifests[i]? = some m') :
    plan.tasks[i]? = some (Task.ofManifest m') := by
  rw [getElem?_tasks hscan hwrite, hm', Option.map_some]

theorem findingsAt_reportWith_of_not_same (hscan : Plan.scan t root options = .ok s)
    (hwrite : Plan.write t root options = .ok plan) (outcomes : List Outcome) {p : Path}
    (h : ∀ e ∈ plan.tasks.zip outcomes, ¬e.1.path.Same p) :
    findingsAt (plan.reportWith outcomes).diagnostics p =
      findingsAt s.diagnostics p ++ findingsAt (s.settle options).report p := by
  obtain rfl := Except.ok.inj (hwrite.symm.trans (Plan.write_of_scan hscan))
  rw [← findingsAt_append]
  exact Report.findingsAt_recordAll_of_not_same h _

section Written

variable (hnames : t.isNamedAt root) (hscan : Plan.scan t root options = .ok s)
  (hwrite : Plan.write t root options = .ok plan) (outcomes : List Outcome)
include hnames hscan hwrite

theorem findingsAt_reportWith {task : Task} {outcome : Outcome}
    (hmem : (task, outcome) ∈ plan.tasks.zip outcomes)
    {p : Path} (hsame : task.path.Same p) :
    findingsAt (plan.reportWith outcomes).diagnostics p =
      Report.amended outcome (findingsAt s.diagnostics p ++ findingsAt
        (s.settle options).report p) := by
  obtain rfl := Except.ok.inj (hwrite.symm.trans (Plan.write_of_scan hscan))
  rw [← Diagnostics.findingsAt_congr _ hsame, ← Diagnostics.findingsAt_congr _ hsame,
    ← Diagnostics.findingsAt_congr _ hsame,
    ← findingsAt_append]
  exact Report.findingsAt_recordAll (distinct_recorded hnames hscan outcomes) hmem _

/-- What is reported at the path of a selected manifest, given what became of its text. -/
theorem exists_account_reportWith {i : Nat} {outcome : Outcome}
    (hm : (s.selected options)[i]? = some m) (houtcome : outcomes[i]? = some outcome) :
    ∃ m' fs, (s.settle options).manifests[i]? = some m' ∧
      Account (s.settle options).registry options.effectiveSwitches m m' fs ∧
      findingsAt (plan.reportWith outcomes).diagnostics m.path =
        Report.amended outcome (findingsAt s.diagnostics m.path ++ fs) := by
  obtain ⟨m', hm', haccount⟩ := Forwarding.account_settle options.effectiveSwitches s.registry
    (Plan.distinct_selected hnames hscan) hm
  refine ⟨m', _, hm', haccount, ?_⟩
  have htask := task_of_settle hscan hwrite hm'
  exact findingsAt_reportWith hnames hscan hwrite outcomes
    (List.mem_of_getElem? (List.getElem?_zip_eq_some.2 ⟨htask, houtcome⟩))
    (congrArg Path.components ((Task.path_ofManifest m').trans haccount.grows.path))

/-- Elsewhere a write run reports what its scan does. -/
theorem findingsAt_reportWith_of_not_selected {p : Path}
    (h : ∀ m ∈ s.selected options, ¬m.path.Same p) :
    findingsAt (plan.reportWith outcomes).diagnostics p = findingsAt s.diagnostics p := by
  have hrecorded : ∀ e ∈ plan.tasks.zip outcomes, ¬e.1.path.Same p := by
    rintro ⟨task, outcome⟩ hmem hsame
    have htask := (List.of_mem_zip hmem).1
    rw [tasks_of_write hscan hwrite] at htask
    obtain ⟨m, hm, m', -, -, hpath⟩ := exists_of_mem_tasks hnames hscan htask
    exact h m hm (hpath ▸ hsame)
  rw [findingsAt_reportWith_of_not_same hscan hwrite _ hrecorded,
    show findingsAt (s.settle options).report p = [] from
      Forwarding.findingsAt_settle_of_not_same (Plan.distinct_selected hnames hscan) h,
    List.append_nil]

/-- Outcomes add no token to a report and take none away. -/
theorem tokens_reportWith (p : Path) :
    tokens (findingsAt (plan.reportWith outcomes).diagnostics p) =
      tokens (findingsAt (s.settle options).report p) := by
  have hbefore := Plan.not_isOfCheck_at hscan p
  by_cases hrecorded : ∃ e ∈ plan.tasks.zip outcomes, e.1.path.Same p
  · obtain ⟨⟨task, outcome⟩, hmem, hsame⟩ := hrecorded
    rw [findingsAt_reportWith hnames hscan hwrite outcomes hmem hsame, tokens_amended hbefore]
  · have hkept := findingsAt_reportWith_of_not_same hscan hwrite outcomes (p := p)
      fun e he hsame => hrecorded ⟨e, he, hsame⟩
    rw [hkept, tokens_append, tokens_of_not_isOfCheck hbefore, List.nil_append]

end Written

/-- Whatever becomes of the texts that were to be written: at the path of a manifest whose text is
on the disk, the repairs are the tokens that it gained, each named once, and the other findings are
those of a check of the settled manifest; at the path of any other one nothing is repaired. No token
is named twice at any path. -/
theorem write_report_accounts (hnames : t.isNamedAt root) (hscan : Plan.scan t root options = .ok s)
    (hwrite : Plan.write t root options = .ok plan) (outcomes : List Outcome) :
    (∀ (i : Nat) (m : Manifest) (outcome : Outcome), (s.selected options)[i]? = some m →
      outcomes[i]? = some outcome →
      ∃ m', (s.settle options).manifests[i]? = some m' ∧ plan.tasks[i]? = some (Task.ofManifest m') ∧
        (outcome.isOnDisk →
          (tokens ((findingsAt (plan.reportWith outcomes).diagnostics m.path).filter Finding.isRepaired)).Nodup ∧
          (∀ k sw, (k, sw) ∈
              tokens ((findingsAt (plan.reportWith outcomes).diagnostics m.path).filter Finding.isRepaired) ↔
            m'.forwards sw k ∧ m.forwards sw k = false) ∧
          (findingsAt (plan.reportWith outcomes).diagnostics m.path).filter
            (fun f => f.isOfCheck && !f.isRepaired) =
            findings (s.settle options).registry options.effectiveSwitches m') ∧
        (outcome.isOnDisk = false →
          ∀ f ∈ findingsAt (plan.reportWith outcomes).diagnostics m.path, f.isRepaired = false)) ∧
    ∀ p, (tokens (findingsAt (plan.reportWith outcomes).diagnostics p)).Nodup := by
  have hdistinct := Plan.distinct_selected hnames hscan
  refine ⟨fun i m outcome hm houtcome => ?_, fun p => ?_⟩
  · obtain ⟨m', hm', haccount⟩ :=
      Forwarding.account_settle options.effectiveSwitches s.registry hdistinct hm
    have htask : plan.tasks[i]? = some (Task.ofManifest m') := by
      obtain rfl := Except.ok.inj (hwrite.symm.trans (Plan.write_of_scan hscan))
      rw [List.getElem?_map, show (s.settle options).manifests[i]? = some m' from hm',
        Option.map_some]
    have hmem : (Task.ofManifest m', outcome) ∈ plan.tasks.zip outcomes :=
      List.mem_of_getElem? (List.getElem?_zip_eq_some.2 ⟨htask, houtcome⟩)
    have hpath : (Task.ofManifest m').path = m.path :=
      (Task.path_ofManifest m').trans haccount.grows.path
    rw [findingsAt_reportWith hnames hscan hwrite outcomes hmem (congrArg Path.components hpath)]
    refine ⟨m', hm', htask, fun hdisk => ?_, fun hdisk => not_isRepaired_amended hdisk⟩
    obtain ⟨hgained, hremaining⟩ := haccount.amended (Plan.not_isOfCheck_at hscan m.path) hdisk
    exact ⟨hgained.nodup, hgained.mem, hremaining⟩
  · rw [tokens_reportWith hnames hscan hwrite outcomes]
    by_cases hselected : ∃ m ∈ s.selected options, m.path.Same p
    · obtain ⟨m, hm, hsame⟩ := hselected
      obtain ⟨i, hi⟩ := List.mem_iff_getElem?.1 hm
      obtain ⟨m', -, haccount⟩ :=
        Forwarding.account_settle options.effectiveSwitches s.registry hdistinct hi
      rw [← Diagnostics.findingsAt_congr _ hsame]
      exact haccount.nodup_tokens
    · have hnone : findingsAt (s.settle options).report p = [] :=
        Forwarding.findingsAt_settle_of_not_same hdistinct fun m hm hsame => hselected ⟨m, hm, hsame⟩
      rw [hnone]
      exact .nil

end Whole

/-- A package that lacks a switch which its dependency uses. -/
def lacking : Tree :=
  (Tree.empty.place ["a.toml"] (.file (.text "features.std=[]\ndependencies.k=\"1\"\n"))).place
    ["k.toml"] (.file (.text "package.name=\"k\"\nfeatures.std=[\"x\"]\n"))

theorem write_report_accounts_lacking :
    ∃ s plan m, lacking.isNamedAt ⟨"."⟩ ∧ Plan.scan lacking ⟨"."⟩ {} = .ok s ∧
      Plan.write lacking ⟨"."⟩ {} = .ok plan ∧
      (s.selected {})[0]? = some m ∧
      ("k", Switch.std) ∈ tokens ((Diagnostics.findingsAt
        (plan.reportWith [.written, .unchanged]).diagnostics m.path).filter
        Finding.isRepaired) ∧
      ∀ f ∈ Diagnostics.findingsAt (plan.reportWith [.failed "full", .unchanged]).diagnostics m.path,
        f.isRepaired = false := by
  have hnames : lacking.isNamedAt ⟨"."⟩ := by decide +kernel
  have htest : (Plan.scan lacking ⟨"."⟩ {}).toOption.any (fun s =>
      (s.selected {})[0]?.any (!·.forwards .std "k") && (s.settle {}).manifests[0]?.all
        (·.forwards .std "k")) := by
    decide +kernel
  obtain ⟨s, hscan, htest⟩ := exists_ok_of_any htest
  simp only [Bool.and_eq_true, Option.any_eq_true] at htest
  obtain ⟨⟨m, hm, hold⟩, hnew⟩ := htest
  have hwrite := Plan.write_of_scan hscan
  obtain ⟨m', hm', -, hlanded, -⟩ :=
    (write_report_accounts hnames hscan hwrite [.written, .unchanged]).1 0 m _ hm rfl
  obtain ⟨-, -, -, -, hreverted⟩ :=
    (write_report_accounts hnames hscan hwrite [.failed "full", .unchanged]).1 0 m _ hm rfl
  refine ⟨s, _, m, hnames, hscan, hwrite, hm, ((hlanded rfl).2.1 "k" .std).2
    ⟨?_, by simpa using hold⟩, hreverted rfl⟩
  simpa [hm'] using hnew

end FeatureForwarding
