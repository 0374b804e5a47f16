import FeatureForwarding.Proofs.Files.Target
import FeatureForwarding.Proofs.Run.Changed
import FeatureForwarding.Proofs.Run.Check
import Mathlib.Algebra.GroupWithZero.Nat

/-! The counters of a report. They agree with its diagnostics, where every path that could not be read is
told once and what is repaired was mandatory, and with the tree, where as many files changed as texts were
written. -/

namespace FeatureForwarding

open Files (Path Tree)

namespace Finding

def isParseFailure : Finding → Bool
  | .parseFailure _ => true
  | _ => false

def isWriteFailure : Finding → Bool
  | .writeFailure _ => true
  | _ => false

theorem not_isOfCheck_of_isParseFailure (f : Finding) (h : f.isParseFailure) : f.isOfCheck = false := by
  cases f <;> simp [isParseFailure, isOfCheck] at h ⊢

/-- Whether the finding is one of an outcome. -/
def isOfOutcome : Finding → Bool
  | .writeFailure _ | .skippedCommented => true
  | _ => false

theorem not_isOfCheck_of_isOfOutcome {f : Finding} (h : f.isOfOutcome) : f.isOfCheck = false := by
  cases f <;> simp [isOfOutcome, isOfCheck] at h ⊢

theorem not_isOfScan_of_isOfOutcome {f : Finding} (h : f.isOfOutcome) : f.isOfScan = false := by
  cases f <;> simp [isOfOutcome, isOfScan] at h ⊢

theorem isOfOutcome_of_isWriteFailure (f : Finding) (h : f.isWriteFailure) : f.isOfOutcome := by
  cases f <;> simp [isWriteFailure, isOfOutcome] at h ⊢

end Finding

/-- What is optional is not repaired. -/
def Diagnostic.IsMandatory (d : Diagnostic) : Prop :=
  ∀ package dependency switch optional,
    d.finding = .missingForwarding package dependency switch optional true → optional = false

namespace Diagnostic

variable {d : Diagnostic}

theorem isMandatory_of_not_isRepaired (h : d.finding.isRepaired = false) : d.IsMandatory := by
  intro package dependency switch optional heq
  simp [heq, Finding.isRepaired] at h

theorem isMandatory_of_not_isOfCheck (h : d.finding.isOfCheck = false) : d.IsMandatory :=
  isMandatory_of_not_isRepaired (Finding.not_isRepaired_of_not_isOfCheck h)

theorem IsMandatory.severity (h : d.IsMandatory) (hrepaired : d.finding.isRepaired) :
    d.severity = .error := by
  obtain ⟨path, finding⟩ := d
  cases finding with
  | missingForwarding package dependency switch optional repaired =>
    obtain rfl : repaired = true := hrepaired
    obtain rfl := h package dependency switch optional rfl
    rfl
  | _ => exact absurd hrepaired (by simp [Finding.isRepaired])

end Diagnostic

/-- What is at least as severe is counted under the severities from there on. -/
theorem Diagnostics.length_atLeast (ds : Diagnostics) (severity : Severity) :
    (ds.atLeast severity).length =
      ((Severity.all.filter fun other => severity.rank ≤ other.rank).map ds.count).sum := by
  induction ds with
  | nil => cases severity <;> rfl
  | cons d rest ih =>
    rw [atLeast, List.filter_cons]
    rw [atLeast] at ih
    cases severity <;> cases hd : d.severity <;>
      simp [hd, Severity.all, Severity.rank, count] at ih ⊢ <;> omega

/-- Outstanding errors are what is outstanding of the most severe. -/
theorem Diagnostics.hasOutstandingErrors_eq (ds : Diagnostics) :
    ds.hasOutstandingErrors = (ds.atLeast .error).any Diagnostic.isOutstanding := by
  have herror (s : Severity) : decide (Severity.rank .error ≤ s.rank) = (s == .error) := by cases s <;> rfl
  simp only [hasOutstandingErrors, atLeast, List.any_filter, herror]

/-- Where nothing optional is repaired, an error is repaired or outstanding. -/
theorem Diagnostics.count_error {ds : Diagnostics} (h : ∀ d ∈ ds, d.IsMandatory) :
    ds.count .error = ds.repairedCount + ds.countP fun d => d.severity == .error && d.isOutstanding := by
  induction ds with
  | nil => rfl
  | cons d rest ih =>
    obtain ⟨hd, hrest⟩ := List.forall_mem_cons.1 h
    have hrest := ih hrest
    simp only [count, repairedCount, Diagnostic.isOutstanding, List.countP_cons] at hrest ⊢
    cases hrepaired : d.finding.isRepaired with
    | true =>
      simp only [hd.severity hrepaired, beq_self_eq_true, Bool.not_true, Bool.not_false, Bool.and_false,
        if_true, Bool.false_eq_true, if_false]
      omega
    | false =>
      simp only [Bool.not_false, Bool.not_true, Bool.and_true, Bool.false_eq_true, if_false]
      omega

/-! ### What is read -/

namespace Manifest

variable {t : Tree}

/-- What is reported about a path that cannot be read as a manifest. -/
def unread? (t : Tree) (path : Path) : Option Diagnostic :=
  match load t path with
  | .ok _ => none
  | .error cause => some ⟨path, .parseFailure cause.message⟩

theorem loadAll_snd (t : Tree) (paths : List Path) : (loadAll t paths).2 = paths.filterMap (unread? t) := by
  induction paths with
  | nil => rfl
  | cons path rest ih =>
    rw [loadAll, List.filterMap_cons, unread?]
    cases load t path with
    | ok m => exact ih
    | error cause => exact congrArg _ ih

theorem length_loadAll (t : Tree) (paths : List Path) :
    (loadAll t paths).1.length + (loadAll t paths).2.length = paths.length := by
  induction paths with
  | nil => rfl
  | cons path rest ih =>
    rw [loadAll, List.length_cons, ← ih]
    cases load t path with
    | ok m => exact Nat.add_right_comm _ 1 _
    | error cause => rfl

theorem isParseFailure_of_unread? {path : Path} {d : Diagnostic} (h : unread? t path = some d) :
    d.finding.isParseFailure := by
  rw [unread?] at h
  split at h
  · exact absurd h nofun
  · obtain rfl := Option.some.inj h
    rfl

theorem filter_isParseFailure_loadAll (t : Tree) (paths : List Path) :
    (loadAll t paths).2.filter (·.finding.isParseFailure) = paths.filterMap (unread? t) := by
  rw [loadAll_snd]
  refine List.filter_eq_self.2 fun d hd => ?_
  obtain ⟨path, -, hpath⟩ := List.mem_filterMap.1 hd
  exact isParseFailure_of_unread? hpath

end Manifest

theorem Registry.filter_isParseFailure_scan (r : Registry) (ms : List Manifest) :
    (r.scan ms).2.filter (·.finding.isParseFailure) = [] := by
  refine List.filter_eq_nil_iff.2 fun d hd => ?_
  obtain ⟨package, first, hduplicate⟩ := exists_duplicatePackage_of_mem_scan hd
  simp [hduplicate, Finding.isParseFailure]

/-! ### What is recorded -/

namespace Report

theorem recordAll_eq (report : Report) (l : List (Task × Outcome)) : report.recordAll l =
    { report with
      diagnostics := (report.recordAll l).diagnostics
      written := report.written + l.countP (·.2 = .written)
      skipped := report.skipped + l.countP (·.2 = .skippedCommented) } := by
  induction l generalizing report with
  | nil => rfl
  | cons e rest ih =>
    have hcons : report.recordAll (e :: rest) = (report.record e.1.path e.2).recordAll rest := rfl
    rw [hcons, ih]
    simp only [record, List.countP_cons, decide_eq_true_eq, Nat.add_assoc, Nat.add_comm]

theorem isMandatory_record {report : Report} (h : ∀ d ∈ report.diagnostics, d.IsMandatory) (path : Path)
    (outcome : Outcome) : ∀ d ∈ (report.record path outcome).diagnostics, d.IsMandatory := by
  have hall : ∀ d ∈ report.diagnostics ++ outcome.findings.map (Diagnostic.mk path), d.IsMandatory := by
    intro d hd
    rcases List.mem_append.1 hd with hd | hd
    · exact h d hd
    · obtain ⟨f, hf, rfl⟩ := List.mem_map.1 hd
      exact Diagnostic.isMandatory_of_not_isOfCheck (outcome.not_isOfCheck f hf)
  unfold record
  cases outcome.isOnDisk with
  | true => exact hall
  | false =>
    intro d hd
    obtain ⟨d₀, hd₀, rfl⟩ := List.mem_map.1 hd
    split
    · exact Diagnostic.isMandatory_of_not_isRepaired (Finding.isRepaired_unrepaired _)
    · exact hall d₀ hd₀

theorem isMandatory_recordAll {report : Report} (l : List (Task × Outcome))
    (h : ∀ d ∈ report.diagnostics, d.IsMandatory) :
    ∀ d ∈ (report.recordAll l).diagnostics, d.IsMandatory := by
  induction l generalizing report with
  | nil => exact h
  | cons e rest ih => exact ih (isMandatory_record h e.1.path e.2)

end Report

namespace Outcome

theorem countP_skippedCommented (outcomes : List Outcome) :
    (outcomes.flatMap findings).countP (· = .skippedCommented) = outcomes.countP (· = .skippedCommented) := by
  induction outcomes with
  | nil => rfl
  | cons outcome rest ih =>
    rw [List.flatMap_cons, List.countP_append, ih, List.countP_cons, Nat.add_comm]
    cases outcome <;> rfl

/-- No outcome counts twice. -/
theorem countP_add_le (outcomes : List Outcome) :
    outcomes.countP (· = .written) + outcomes.countP (· = .skippedCommented) +
      (outcomes.flatMap findings).countP (·.isWriteFailure) ≤ outcomes.length := by
  induction outcomes with
  | nil => exact Nat.le_refl 0
  | cons outcome rest ih =>
    have hhead : (if outcome = .written then 1 else 0) + (if outcome = .skippedCommented then 1 else 0) +
        outcome.findings.countP (·.isWriteFailure) ≤ 1 := by
      cases outcome <;> simp [findings, Finding.isWriteFailure]
    simp only [List.flatMap_cons, List.countP_append, List.countP_cons, List.length_cons, decide_eq_true_eq]
    omega

end Outcome

theorem Task.outcome_eq_skippedCommented {task : Task} {stored : Option String} :
    task.outcome stored = .skippedCommented ↔ task.isSkipped := by
  unfold outcome
  split
  · next h => simp [h]
  · next h =>
    refine iff_of_false (fun hskipped => ?_) h
    split at hskipped
    · exact absurd hskipped nofun
    · cases stored <;> exact absurd hskipped nofun

theorem Task.countP_isSkipped (tasks : List Task) (t : Tree) :
    (performAll tasks t).1.countP (· = .skippedCommented) = tasks.countP (·.isSkipped) := by
  induction tasks generalizing t with
  | nil => rfl
  | cons task rest ih =>
    obtain ⟨stored, houtcome⟩ := exists_perform_eq task t
    have hcons : (performAll (task :: rest) t).1 =
      (task.perform t).1 :: (performAll rest (task.perform t).2).1 := rfl
    rw [hcons, houtcome, List.countP_cons, List.countP_cons, ih]
    simp [outcome_eq_skippedCommented]

/-! ### From the plan to the report -/

/-- The counters of a report agree with its diagnostics. -/
structure Report.AddsUp (report : Report) (t : Tree) (paths : List Path) : Prop where
  /-- One failure is told for each path that cannot be read as a manifest, and no other. -/
  unread : report.diagnostics.filter (·.finding.isParseFailure) = paths.filterMap (Manifest.unread? t)
  scanned : report.scanned + report.diagnostics.countP (·.finding.isParseFailure) = paths.length
  checked : report.checked ≤ report.scanned
  skipped : report.skipped = report.diagnostics.countP (·.finding = .skippedCommented)
  mandatory : ∀ d ∈ report.diagnostics, d.IsMandatory
  errors : report.diagnostics.count .error = report.diagnostics.repairedCount +
    report.diagnostics.countP fun d => d.severity == .error && d.isOutstanding

namespace Plan

variable {t t' : Tree} {paths : List Path} {plan : Plan}

/-- Before anything is written a plan counts what was read and has a task for nothing else. -/
structure Opens (plan : Plan) (t : Tree) (paths : List Path) : Prop where
  unread : plan.report.diagnostics.filter (·.finding.isParseFailure) =
    paths.filterMap (Manifest.unread? t)
  scanned : plan.report.scanned = (Manifest.loadAll t paths).1.length
  checked : plan.report.checked ≤ plan.report.scanned
  written : plan.report.written = 0
  skipped : plan.report.skipped = 0
  kinds : ∀ d ∈ plan.report.diagnostics, d.finding.isOfScan ∨ d.finding.isOfCheck
  mandatory : ∀ d ∈ plan.report.diagnostics, d.IsMandatory
  tasks : Task.Planned t paths plan.tasks

theorem reportWith_eq (plan : Plan) (outcomes : List Outcome) : plan.reportWith outcomes =
    { plan.report with
      diagnostics := (plan.reportWith outcomes).diagnostics
      written := plan.report.written + (plan.tasks.zip outcomes).countP (·.2 = .written)
      skipped := plan.report.skipped + (plan.tasks.zip outcomes).countP (·.2 = .skippedCommented) } :=
  Report.recordAll_eq plan.report (plan.tasks.zip outcomes)

theorem scanned_reportWith (plan : Plan) (outcomes : List Outcome) :
    (plan.reportWith outcomes).scanned = plan.report.scanned := by rw [reportWith_eq]

theorem checked_reportWith (plan : Plan) (outcomes : List Outcome) :
    (plan.reportWith outcomes).checked = plan.report.checked := by rw [reportWith_eq]

namespace Opens

variable (h : plan.Opens t paths)
include h

/-- What only outcomes tell is told by them. -/
theorem countP_reportWith {p : Finding → Bool} (hp : ∀ f, p f → f.isOfOutcome) :
    (plan.reportWith (Task.performAll plan.tasks t).1).diagnostics.countP (p ·.finding) =
      ((Task.performAll plan.tasks t).1.flatMap Outcome.findings).countP p := by
  have hnone : plan.report.diagnostics.filter (p ·.finding) = [] := by
    refine List.filter_eq_nil_iff.2 fun d hd hpd => ?_
    have houtcome := hp _ hpd
    simpa [Finding.not_isOfScan_of_isOfOutcome houtcome, Finding.not_isOfCheck_of_isOfOutcome houtcome]
      using h.kinds d hd
  have hrecorded := Report.filter_recordAll (fun f hf => Finding.not_isOfCheck_of_isOfOutcome (hp f hf))
    plan.report (plan.tasks.zip (Task.performAll plan.tasks t).1)
  rw [hnone, List.nil_append] at hrecorded
  have hcount (l : List (Task × Outcome)) :
      (l.flatMap fun e => (e.2.findings.filter p).map (Diagnostic.mk e.1.path)).length =
        ((l.map Prod.snd).flatMap Outcome.findings).countP p := by
    induction l with
    | nil => rfl
    | cons e rest ih =>
      rw [List.flatMap_cons, List.length_append, List.length_map, ih, ← List.countP_eq_length_filter,
        List.map_cons, List.flatMap_cons, List.countP_append]
  rw [List.countP_eq_length_filter, ← Task.map_snd_zip plan.tasks t, ← hcount, Task.map_snd_zip]
  exact congrArg List.length hrecorded

theorem written_reportWith : (plan.reportWith (Task.performAll plan.tasks t).1).written =
    (Task.performAll plan.tasks t).1.countP (· = .written) := by
  rw [reportWith_eq, h.written, Nat.zero_add]
  exact Task.countP_zip (fun outcome => decide (outcome = .written)) plan.tasks t

theorem skipped_reportWith : (plan.reportWith (Task.performAll plan.tasks t).1).skipped =
    (Task.performAll plan.tasks t).1.countP (· = .skippedCommented) := by
  rw [reportWith_eq, h.skipped, Nat.zero_add]
  exact Task.countP_zip (fun outcome => decide (outcome = .skippedCommented)) plan.tasks t

theorem addsUp : (plan.reportWith (Task.performAll plan.tasks t).1).AddsUp t paths := by
  have hmandatory :=
    Report.isMandatory_recordAll (plan.tasks.zip (Task.performAll plan.tasks t).1) h.mandatory
  have hunread : (plan.reportWith (Task.performAll plan.tasks t).1).diagnostics.filter
      (·.finding.isParseFailure) = paths.filterMap (Manifest.unread? t) := by
    have hnone : ∀ outcome : Outcome, outcome.findings.filter Finding.isParseFailure = [] := by
      intro outcome
      cases outcome <;> rfl
    refine (Report.filter_recordAll Finding.not_isOfCheck_of_isParseFailure plan.report _).trans ?_
    simp [hnone, h.unread]
  refine ⟨hunread, ?_, ?_, ?_, hmandatory, Diagnostics.count_error hmandatory⟩
  · rw [List.countP_eq_length_filter, hunread, scanned_reportWith, h.scanned, ← Manifest.loadAll_snd,
      Manifest.length_loadAll]
  · rw [checked_reportWith, scanned_reportWith]
    exact h.checked
  · rw [h.skipped_reportWith, ← Outcome.countP_skippedCommented]
    refine (h.countP_reportWith (p := fun f => decide (f = .skippedCommented)) fun f hf => ?_).symm
    rw [of_decide_eq_true hf]
    rfl

/-- Where every manifest that was checked has a task, no two counters count the same one. -/
theorem written_add_le (hlength : plan.tasks.length = plan.report.checked) :
    (plan.reportWith (Task.performAll plan.tasks t).1).written +
      (plan.reportWith (Task.performAll plan.tasks t).1).skipped +
      (plan.reportWith (Task.performAll plan.tasks t).1).diagnostics.countP (·.finding.isWriteFailure) ≤
        (plan.reportWith (Task.performAll plan.tasks t).1).checked := by
  rw [h.written_reportWith, h.skipped_reportWith, h.countP_reportWith Finding.isOfOutcome_of_isWriteFailure,
    checked_reportWith, ← hlength, ← Task.length_performAll plan.tasks t]
  exact Outcome.countP_add_le _

end Opens

end Plan

end FeatureForwarding
