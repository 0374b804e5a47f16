import FeatureForwarding.Proofs.Files.Target
import FeatureForwarding.Proofs.Run.Silence

/-! How far runs reach into the tree. Everything is read before anything is written, so that a run that
fails has written nothing; and what is written stands at paths that the operation may write to. The
names in the tree can be any. -/

namespace FeatureForwarding

open Files (Path Tree)

variable {t : Tree} {root p : Path} {options : Options} {standards : Standards} {plan : Plan}
  {operation : Operation}

/-! ### Runs that keep the tree -/

namespace Plan

/-- Carries a plan out and keeps the tree, also that of a failure. -/
def execute (plan : Plan) (t : Tree) : Except Failure Report × Tree :=
  let performed := Task.performAll plan.tasks t
  let report := plan.reportWith performed.1
  match plan.snapshot with
  | none => (.ok report, performed.2)
  | some (path, text) =>
    match performed.2.write path text with
    | .ok t => (.ok report, t)
    | .error cause => (.error (.writing path cause.message), performed.2)

theorem perform_eq_execute (plan : Plan) (t : Tree) :
    plan.perform t = (plan.execute t).1.map fun report => (report, (plan.execute t).2) := by
  simp only [perform, execute]
  cases plan.snapshot with
  | none => rfl
  | some snapshot =>
    dsimp only
    cases (Task.performAll plan.tasks t).2.write snapshot.1 snapshot.2 <;> rfl

/-- The paths that a plan writes to. -/
def targets (plan : Plan) : List Path :=
  (plan.tasks.filter (·.text.isSome)).map (·.path) ++ plan.snapshot.toList.map (·.1)

end Plan

theorem Task.altered_performAll (tasks : List Task) (t : Tree) :
    t.Altered (performAll tasks t).2 ((tasks.filter (·.text.isSome)).map (·.path)) := by
  induction tasks generalizing t with
  | nil => exact .refl t _
  | cons task rest ih =>
    have hlater := ih (task.perform t).2
    rw [performAll, List.filter_cons]
    cases htext : task.text with
    | none => simpa [perform, htext] using hlater
    | some text =>
      have hfirst : t.Altered (task.perform t).2 [task.path] := by
        simp only [perform, htext]
        split
        · next hwrite => exact .of_write hwrite
        · exact .refl t _
      exact hfirst.trans hlater

theorem Plan.altered_execute (plan : Plan) (t : Tree) :
    t.Altered (plan.execute t).2 plan.targets := by
  have htasks := Task.altered_performAll plan.tasks t
  unfold Plan.execute Plan.targets
  cases plan.snapshot with
  | none => simpa using htasks
  | some snapshot =>
    refine htasks.trans ?_
    dsimp only
    split
    · next hwrite => exact .of_write hwrite
    · exact .refl _ _

/-- A plan that writes either manifests or a snapshot has written nothing when it fails. -/
theorem Plan.execute_of_error (h : plan.tasks = [] ∨ plan.snapshot = none) {cause : Failure}
    (hcause : (plan.execute t).1 = .error cause) : (plan.execute t).2 = t := by
  unfold Plan.execute at hcause ⊢
  rcases h with htasks | hsnapshot
  · rw [htasks] at hcause ⊢
    cases hsnapshot : plan.snapshot with
    | none => rfl
    | some snapshot =>
      simp only [hsnapshot] at hcause ⊢
      split at hcause
      · exact absurd hcause nofun
      · rfl
  · simp only [hsnapshot] at hcause
    exact absurd hcause nofun

namespace Operation

/-- The outcome of a run and the tree that it leaves. -/
def execute (operation : Operation) (t : Tree) : Except Failure Report × Tree :=
  match operation.plan t with
  | .ok plan => plan.execute t
  | .error cause => (.error cause, t)

theorem run_eq_execute (operation : Operation) (t : Tree) :
    operation.run t = (operation.execute t).1.map fun report => (report, (operation.execute t).2) := by
  unfold run execute
  cases operation.plan t with
  | ok plan => exact plan.perform_eq_execute t
  | error cause => rfl

end Operation

/-! ### What is planned -/

namespace Forwarding

variable {switches : List Switch} {r : Registry} {ms : List Manifest} {m' : Manifest}

/-- Passes only let the manifests grow, also those that share a path. -/
theorem exists_of_mem_passes {limit : Nat} (h : m' ∈ (passes switches limit r ms).manifests) :
    ∃ m ∈ ms, m.Grows m' := by
  have hpass {r : Registry} {ms : List Manifest} {m' : Manifest}
      (h : m' ∈ (pass switches r ms).manifests) : ∃ m ∈ ms, m.Grows m' := by
    obtain ⟨e, he, rfl⟩ := mem_manifests_pass.1 h
    exact ⟨e.2, mem_of_mem_meetings he, grows_visit switches e.1 e.2⟩
  -- no limit is needed here, so that it does not matter whether the last pass was calm
  induction limit generalizing r ms with
  | zero => exact hpass h
  | succ limit ih =>
    rw [passes] at h
    split at h
    · exact hpass h
    · obtain ⟨m₁, hm₁, hlater⟩ := ih h
      obtain ⟨m, hm, hfirst⟩ := hpass hm₁
      exact ⟨m, hm, hfirst.trans hlater⟩

theorem exists_of_mem_settle (h : m' ∈ (settle switches r ms).manifests) :
    ∃ m ∈ ms, m.Grows m' := by
  simp only [settle, List.map_map, List.mem_map, Function.comp_apply] at h
  obtain ⟨m₁, hm₁, rfl⟩ := h
  obtain ⟨m, hm, hgrows⟩ := exists_of_mem_passes hm₁
  exact ⟨m, hm, hgrows.trans (grows_closing switches _ m₁)⟩

end Forwarding

/-- A discovered file that reads as a manifest, which has no comments and is admitted. -/
def IsOpenManifest (t : Tree) (root : Path) (admits : Manifest → Prop) (p : Path) : Prop :=
  ∃ paths text m, Discovery.manifests t root = .ok paths ∧ p ∈ paths ∧ t.readText? p = some text ∧
    '#' ∉ text.toList ∧ Manifest.read? p text = some m ∧ admits m

theorem isOpenManifest_of_load {paths : List Path} {admits : Manifest → Prop} {m : Manifest}
    (hpaths : Discovery.manifests t root = .ok paths) (hmem : m ∈ (Manifest.loadAll t paths).1)
    (hc : m.hasComments = false) (hm : admits m) : IsOpenManifest t root admits m.path := by
  obtain ⟨-, htext, hread⟩ := Manifest.load_eq_ok (Manifest.mem_loadAll hmem)
  refine ⟨paths, m.source, m, hpaths, (Manifest.paths_loadAll t paths).subset
    (List.mem_map_of_mem hmem), htext, by simpa [Manifest.hasComments] using hc, hread, hm⟩

namespace Operation

/-- Where a run may put something. -/
def MayWrite (t : Tree) (p : Path) : Operation → Prop
  | .check _ _ => False
  | .write root options => IsOpenManifest t root (options.selects ·.packageName?) p
  | .save _ output _ => p = output
  | .lint root _ => IsOpenManifest t root (fun _ => True) p

theorem plan_check (h : (Operation.check root options).plan t = .ok plan) :
    plan.tasks = [] ∧ plan.snapshot = none := by
  obtain ⟨s, -, h⟩ := exists_of_bind h
  obtain rfl := Except.ok.inj h
  exact ⟨rfl, rfl⟩

theorem plan_save {output : Path} (h : (Operation.save root output options).plan t = .ok plan) :
    plan.tasks = [] ∧ plan.snapshot.toList.map (·.1) = [output] := by
  obtain ⟨s, -, h⟩ := exists_of_bind h
  obtain rfl := Except.ok.inj h
  exact ⟨rfl, rfl⟩

theorem plan_write (h : (Operation.write root options).plan t = .ok plan) :
    plan.snapshot = none ∧ ∀ task ∈ plan.tasks, task.text.isSome →
      IsOpenManifest t root (options.selects ·.packageName?) task.path := by
  obtain ⟨s, hscan, h⟩ := exists_of_bind h
  obtain rfl := Except.ok.inj h
  refine ⟨rfl, fun task htask htext => ?_⟩
  obtain ⟨m', hm', rfl⟩ := List.mem_map.1 htask
  obtain ⟨m, hm, hgrows⟩ := Forwarding.exists_of_mem_settle hm'
  obtain ⟨hmem, hselected⟩ := List.mem_filter.1 hm
  obtain ⟨paths, -, hpaths, hloaded, -⟩ := Plan.scan_eq_ok hscan
  have hc : m'.hasComments = false := by
    simp only [Task.text_ofManifest, Option.isSome_ite, Bool.and_eq_true, Bool.not_eq_true'] at htext
    exact htext.2
  rw [Task.path_ofManifest, hgrows.path]
  rw [hgrows.hasComments] at hc
  exact isOpenManifest_of_load hpaths (hloaded ▸ hmem) hc hselected

theorem plan_lint (h : (Operation.lint root standards).plan t = .ok plan) :
    plan.snapshot = none ∧ ∀ task ∈ plan.tasks, task.text.isSome →
      IsOpenManifest t root (fun _ => True) task.path := by
  obtain ⟨paths, hpaths, h⟩ := exists_of_bind h
  obtain rfl := Except.ok.inj h
  refine ⟨rfl, fun task htask htext => ?_⟩
  obtain ⟨m, hm, rfl⟩ := List.mem_map.1 htask
  rw [Task.ofLint] at htext ⊢
  split at htext
  · exact absurd htext (by simp)
  · next hc =>
    have hopen : IsOpenManifest t root (fun _ => True) m.path :=
      isOpenManifest_of_load (Plan.manifests_of_discover hpaths) hm (by simpa using hc) trivial
    rw [if_neg hc, Task.path_ofManifest]
    exact hopen

/-- A plan writes either manifests or a snapshot. -/
theorem plan_tasks_or_snapshot (h : operation.plan t = .ok plan) :
    plan.tasks = [] ∨ plan.snapshot = none := by
  cases operation with
  | check root options => exact .inl (plan_check h).1
  | write root options => exact .inr (plan_write h).1
  | save root output options => exact .inl (plan_save h).1
  | lint root standards => exact .inr (plan_lint h).1

theorem mayWrite_of_mem_targets (h : operation.plan t = .ok plan) (hp : p ∈ plan.targets) :
    operation.MayWrite t p := by
  have hmanifests {admits : Manifest → Prop} {root : Path} (hsnapshot : plan.snapshot = none)
      (htasks : ∀ task ∈ plan.tasks, task.text.isSome → IsOpenManifest t root admits task.path) :
      IsOpenManifest t root admits p := by
    simp only [Plan.targets, hsnapshot, Option.toList_none, List.map_nil, List.append_nil] at hp
    obtain ⟨task, htask, rfl⟩ := List.mem_map.1 hp
    obtain ⟨hmem, htext⟩ := List.mem_filter.1 htask
    exact htasks task hmem htext
  cases operation with
  | check root options => simp [Plan.targets, plan_check h] at hp
  | write root options => exact hmanifests (plan_write h).1 (plan_write h).2
  | save root output options =>
    have heq : p = output := by simpa [Plan.targets, plan_save h] using hp
    exact heq
  | lint root standards => exact hmanifests (plan_lint h).1 (plan_lint h).2

theorem execute_of_error {cause : Failure} (hcause : (operation.execute t).1 = .error cause) :
    (operation.execute t).2 = t := by
  unfold execute at hcause ⊢
  cases hplan : operation.plan t with
  | error cause => rfl
  | ok plan =>
    simp only [hplan] at hcause ⊢
    exact Plan.execute_of_error (plan_tasks_or_snapshot hplan) hcause

/-- Runs change only what they may: a check nothing, a save what stands at its output, and the others
what stands at the paths of discovered manifests without comments, where a write passes over those that
are not selected. All of that is the manifest that was read there, or a link to it. A run that fails
leaves everything as it was. -/
theorem execute_reaches (operation : Operation) (t : Tree) :
    (operation.run t =
        (operation.execute t).1.map fun report => (report, (operation.execute t).2)) ∧
      operation.treeAfter t = (operation.execute t).2 ∧
      (∀ l, (operation.execute t).2.sight? l ≠ t.sight? l →
        ∃ p, operation.MayWrite t p ∧ t.target? p = some l ∧
          ∀ l', t.locate? p = some l' → l' = l ∨ ∃ text, t.sight? l = some (.link text)) ∧
      ∀ cause, (operation.execute t).1 = .error cause → (operation.execute t).2 = t := by
  refine ⟨run_eq_execute operation t, ?_, fun l hl => ?_, fun _ => execute_of_error⟩
  · rw [treeAfter, run_eq_execute]
    cases hresult : (operation.execute t).1 with
    | ok report => rfl
    | error cause => exact (execute_of_error hresult).symm
  · unfold execute at hl
    cases hplan : operation.plan t with
    | error cause => simp [hplan] at hl
    | ok plan =>
      simp only [hplan] at hl
      obtain ⟨p, hp, htarget⟩ := (plan.altered_execute t).changed l hl
      exact ⟨p, mayWrite_of_mem_targets hplan hp, htarget, fun _ => Tree.eq_or_link_of_target? htarget⟩

/-- A write that reaches one of two manifests, and a save into a directory that is not there. -/
theorem execute_reaches_lacking :
    (lacking.sight? ["a.toml"] = some (.file (.text "features.std=[]\ndependencies.k=\"1\"\n")) ∧
      ((Operation.write ⟨"."⟩ {}).execute lacking).2.sight? ["a.toml"] =
        some (.file (.text "features.std=[\"k/std\"]\ndependencies.k=\"1\"\n")) ∧
      ∃ p, (Operation.write ⟨"."⟩ {}).MayWrite lacking p ∧ lacking.target? p = some ["a.toml"]) ∧
    ∃ cause, ((Operation.save ⟨"."⟩ ⟨"d/s"⟩ {}).execute lacking).1 = .error cause ∧
      cause.message = "writing snapshot d/s: creating temporary file in d" ∧
      ((Operation.save ⟨"."⟩ ⟨"d/s"⟩ {}).execute lacking).2 = lacking := by
  obtain ⟨-, -, hwrite, -⟩ := execute_reaches (.write ⟨"."⟩ {}) lacking
  obtain ⟨-, -, -, hsave⟩ := execute_reaches (.save ⟨"."⟩ ⟨"d/s"⟩ {}) lacking
  have hbefore : lacking.sight? ["a.toml"] =
      some (.file (.text "features.std=[]\ndependencies.k=\"1\"\n")) := by
    decide +kernel
  have hafter : ((Operation.write ⟨"."⟩ {}).execute lacking).2.sight? ["a.toml"] =
      some (.file (.text "features.std=[\"k/std\"]\ndependencies.k=\"1\"\n")) := by
    decide +kernel
  obtain ⟨p, hp, htarget, -⟩ := hwrite ["a.toml"] (by rw [hbefore, hafter]; decide)
  have hfailed : (match ((Operation.save ⟨"."⟩ ⟨"d/s"⟩ {}).execute lacking).1 with
      | .ok _ => none
      | .error cause => some cause.message) =
        some "writing snapshot d/s: creating temporary file in d" := by
    decide +kernel
  cases hresult : ((Operation.save ⟨"."⟩ ⟨"d/s"⟩ {}).execute lacking).1 with
  | ok report => simp [hresult] at hfailed
  | error cause =>
    rw [hresult] at hfailed
    exact ⟨⟨hbefore, hafter, p, hp, htarget⟩, cause, rfl, Option.some.inj hfailed,
      hsave cause hresult⟩

end Operation

end FeatureForwarding
