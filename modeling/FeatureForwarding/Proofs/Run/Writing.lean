import FeatureForwarding.Proofs.Reach
import FeatureForwarding.Run.Operation

/-! What tasks leave in the tree, whatever becomes of each: the texts that were written at the paths of
their tasks, and all else as it was, so that the next run discovers the same paths. If none of them
failed, all texts are there. -/

namespace FeatureForwarding

open Files (Path Tree Node Location)

variable {t t' : Tree} {root : Path} {paths : List Path} {task : Task} {tasks : List Task}
  {outcome : Outcome} {outcomes : List Outcome} {i : Nat}

namespace Task

/-- No manifest of the task list failed to be written. -/
def Stored (tasks : List Task) (t : Tree) : Prop :=
  ∀ outcome ∈ (performAll tasks t).1, ∀ message, outcome ≠ .failed message

/-- A task that is reported as skipped writes nothing. -/
def IsPlain (task : Task) : Prop := task.text.isSome → task.isSkipped = false

theorem length_performAll (tasks : List Task) (t : Tree) :
    (performAll tasks t).1.length = tasks.length := by
  induction tasks generalizing t with
  | nil => rfl
  | cons task rest ih => simp [performAll, ih]

theorem exists_perform_eq (task : Task) (t : Tree) : ∃ stored, (task.perform t).1 = task.outcome stored := by
  unfold perform
  split
  · exact ⟨none, rfl⟩
  · split
    · exact ⟨none, rfl⟩
    · next cause _ => exact ⟨some cause.message, rfl⟩

/-- Each outcome is one that its task can have. -/
theorem exists_of_performAll (h : (performAll tasks t).1[i]? = some outcome) :
    ∃ task stored, tasks[i]? = some task ∧ outcome = task.outcome stored := by
  induction tasks generalizing t i with
  | nil => exact absurd h (by simp [performAll])
  | cons task rest ih =>
    cases i with
    | zero =>
      obtain ⟨stored, houtcome⟩ := exists_perform_eq task t
      exact ⟨task, stored, rfl, (Option.some.inj h).symm.trans houtcome⟩
    | succ i => exact ih (t := (task.perform t).2) h

/-- Each task has an outcome. -/
theorem exists_outcome (h : tasks[i]? = some task) :
    ∃ stored, (performAll tasks t).1[i]? = some (task.outcome stored) := by
  have hlt := (List.getElem?_eq_some_iff.1 h).1
  rw [← length_performAll tasks t] at hlt
  obtain ⟨task', stored, htask, houtcome⟩ := exists_of_performAll (List.getElem?_eq_getElem hlt)
  obtain rfl := Option.some.inj (h.symm.trans htask)
  exact ⟨stored, (List.getElem?_eq_getElem hlt).trans (congrArg some houtcome)⟩

/-- A text is written unless it cannot be stored. -/
theorem written_or_failed (hplain : task.IsPlain) {text : String} (htext : task.text = some text)
    (stored : Option String) :
    task.outcome stored = .written ∨ ∃ message, task.outcome stored = .failed message := by
  have hskipped := hplain (by simp [htext])
  cases stored with
  | none => exact .inl (by simp [Task.outcome, hskipped, htext])
  | some message => exact .inr ⟨message, by simp [Task.outcome, hskipped, htext]⟩

/-- A task writes its text, or nothing. -/
theorem perform_cases (hplain : task.IsPlain) (t : Tree) :
    ((task.perform t).2 = t ∧ (task.perform t).1 ≠ .written) ∨
      ∃ text, task.text = some text ∧ (task.perform t).1 = .written ∧
        t.write task.path text = .ok (task.perform t).2 := by
  cases htext : task.text with
  | none =>
    refine .inl ⟨by simp only [perform, htext], ?_⟩
    simp only [perform, Task.outcome, htext]
    split <;> simp
  | some text =>
    have hskipped := hplain (by simp [htext])
    simp only [perform, htext]
    cases hwrite : t.write task.path text with
    | ok t' => exact .inr ⟨text, rfl, by simp [Task.outcome, hskipped, htext], by simp [hwrite]⟩
    | error cause => exact .inl ⟨rfl, by simp [Task.outcome, hskipped, htext]⟩

/-- What tasks do to a tree, given what became of each: only the locations of written texts change, which
their paths lead to afterwards; what was written is read there, and the rest as before. -/
structure Effect (root : Path) (paths : List Path) (tasks : List Task) (outcomes : List Outcome)
    (t t' : Tree) : Prop where
  named : t'.isNamedAt root
  manifests : Discovery.manifests t' root = .ok paths
  changed : ∀ l, t'.contents? l ≠ t.contents? l → ∃ (i : Nat) (task : Task) (text : String),
    tasks[i]? = some task ∧ outcomes[i]? = some .written ∧ task.text = some text ∧
      t'.locate? task.path = some l
  written : ∀ (i : Nat) (task : Task) (text : String), tasks[i]? = some task →
    outcomes[i]? = some .written → task.text = some text → t'.readText? task.path = some text
  kept : ∀ p ∈ paths, (∀ task ∈ tasks, task.text.isSome → ¬p.Same task.path) →
    t'.readText? p = t.readText? p
  others : ∀ q other, t.readText? q = some other →
    (∀ task ∈ tasks, task.text.isSome → t.locate? q ≠ t.locate? task.path) →
      t'.readText? q = some other

namespace Effect

theorem nil (hnames : t.isNamedAt root) (hmanifests : Discovery.manifests t root = .ok paths) :
    Effect root paths [] [] t t where
  named := hnames
  manifests := hmanifests
  changed _ hl := absurd rfl hl
  written _ _ _ htask := absurd htask (by simp)
  kept _ _ _ := rfl
  others _ _ hother _ := hother

/-- A task in front that was not written changes nothing. -/
theorem cons (h : Effect root paths tasks outcomes t t') (task : Task) (hwritten : outcome ≠ .written) :
    Effect root paths (task :: tasks) (outcome :: outcomes) t t' where
  named := h.named
  manifests := h.manifests
  changed l hl := by
    obtain ⟨i, task', text, htask, hrest⟩ := h.changed l hl
    exact ⟨i + 1, task', text, htask, hrest⟩
  written i task' text htask houtcome htext := by
    cases i with
    | zero => exact absurd (Option.some.inj houtcome) hwritten
    | succ i => exact h.written i task' text htask houtcome htext
  kept p hp hother := h.kept p hp fun task' hmem => hother task' (List.mem_cons_of_mem _ hmem)
  others q other hq hother :=
    h.others q other hq fun task' hmem => hother task' (List.mem_cons_of_mem _ hmem)

end Effect

end Task

/-- Where the tree keeps its shape, a directory stays one. -/
theorem directory_of_shape {entries : List (String × Node)} (hshape : t'.root.shape = t.root.shape)
    (hroot : t.node? root = some (.directory entries)) :
    ∃ entries', t'.node? root = some (.directory entries') := by
  have hnode := Tree.node?_of_shape hshape root
  rw [hroot, Option.map_some] at hnode
  obtain ⟨node', hnode', hshape'⟩ := Option.map_eq_some_iff.1 hnode
  cases node' with
  | directory entries' => exact ⟨entries', hnode'⟩
  | file contents => exact absurd hshape' (by simp [Node.shape])
  | link target => exact absurd hshape' (by simp [Node.shape])

/-- A root that is a file leaves room for one task at most. -/
theorem tasks_of_file {contents : Files.Contents} (hroot : t.node? root = some (.file contents))
    (hmanifests : Discovery.manifests t root = .ok paths) (htasks : ∀ task ∈ tasks, task.path ∈ paths)
    (hdistinct : tasks.Pairwise fun a b => ¬a.path.Same b.path) :
    root.fileName?.any Discovery.isManifestName ∧ paths = [root] ∧
      (tasks = [] ∨ ∃ task, tasks = [task] ∧ task.path = root) := by
  obtain ⟨hname, rfl⟩ : root.fileName?.any Discovery.isManifestName ∧ [root] = paths := by
    simp only [Discovery.manifests, hroot] at hmanifests
    split at hmanifests
    · next hname => exact ⟨hname, Except.ok.inj hmanifests⟩
    · exact absurd hmanifests (by simp)
  refine ⟨hname, rfl, ?_⟩
  cases tasks with
  | nil => exact .inl rfl
  | cons task rest =>
    have hpath := List.mem_singleton.1 (htasks task List.mem_cons_self)
    refine .inr ⟨task, ?_, hpath⟩
    refine congrArg _ (List.eq_nil_iff_forall_not_mem.2 fun task' hmem =>
      (List.pairwise_cons.1 hdistinct).1 task' hmem ?_)
    rw [hpath, List.mem_singleton.1 (htasks task' (List.mem_cons_of_mem _ hmem))]
    rfl

section Directory

variable {entries : List (String × Node)} (hnames : t.isNamedAt root)
    (hroot : t.node? root = some (.directory entries))
  (hmanifests : Discovery.manifests t root = .ok paths)
include hnames hroot hmanifests

/-- One write below a directory. -/
theorem write_of_directory {p : Path} {text old : String} (hwrite : t.write p text = .ok t')
    (hp : p ∈ paths)
    (hread : t.readText? p = some old) :
    t'.root.shape = t.root.shape ∧ ∀ q ∈ paths, ¬q.Same p → t'.readText? q = t.readText? q := by
  obtain ⟨above, hreaches⟩ := Discovery.reaches_manifests hnames hroot hmanifests
  obtain ⟨rest, hcomponents, hreached⟩ := hreaches p hp
  obtain ⟨-, hshape, hsight⟩ := Tree.write_of_reaches hwrite hread hreached
  refine ⟨hshape, fun q hq hne => Tree.readText?_of_shape hshape fun l hl => ?_⟩
  obtain ⟨rest', hcomponents', hreached'⟩ := hreaches q hq
  obtain rfl := hreached'.unique hl
  rw [hsight, if_neg]
  intro heq
  obtain rfl := List.append_cancel_left heq
  exact hne (hcomponents'.trans hcomponents.symm)

/-- Below a directory every path leads to the same location after a write, where alone something is
seen to change. -/
theorem sight?_write_of_directory {p : Path} {text old : String} (hwrite : t.write p text = .ok t')
    (hp : p ∈ paths) (hread : t.readText? p = some old) :
    ∃ l, t.locate? p = some l ∧
      ∀ other, t'.sight? other = if other = l then some (.file (.text text)) else t.sight? other := by
  obtain ⟨above, hreaches⟩ := Discovery.reaches_manifests hnames hroot hmanifests
  obtain ⟨rest, -, hreached⟩ := hreaches p hp
  obtain ⟨hl, -, hsight⟩ := Tree.write_of_reaches hwrite hread hreached
  exact ⟨_, hl, hsight⟩

/-- No write below a directory changes the shape of the tree, so that later writes leave alone what the
earlier ones wrote. -/
theorem effect_of_directory (hplain : ∀ task ∈ tasks, task.IsPlain)
    (htasks : ∀ task ∈ tasks, task.path ∈ paths ∧ (t.readText? task.path).isSome)
    (hdistinct : tasks.Pairwise fun a b => ¬a.path.Same b.path) :
    (Task.performAll tasks t).2.root.shape = t.root.shape ∧
      Task.Effect root paths tasks (Task.performAll tasks t).1 t (Task.performAll tasks t).2 := by
  induction tasks generalizing t entries with
  | nil => exact ⟨rfl, .nil hnames hmanifests⟩
  | cons task rest ih =>
    obtain ⟨hfirst, hdistinct⟩ := List.pairwise_cons.1 hdistinct
    obtain ⟨⟨hpath, hread⟩, htasks⟩ := List.forall_mem_cons.1 htasks
    obtain ⟨hplain, hplains⟩ := List.forall_mem_cons.1 hplain
    have hall : Task.performAll (task :: rest) t = ((task.perform t).1 ::
      (Task.performAll rest (task.perform t).2).1, (Task.performAll rest (task.perform t).2).2) := rfl
    rw [hall]
    rcases Task.perform_cases hplain t with ⟨hkept, hunwritten⟩ | ⟨text, htext, houtcome, hwrite⟩
    · rw [hkept]
      obtain ⟨hshape, heffect⟩ := ih hnames hroot hmanifests hplains htasks hdistinct
      exact ⟨hshape, heffect.cons task hunwritten⟩
    · obtain ⟨old, hold⟩ := Option.isSome_iff_exists.1 hread
      obtain ⟨hshape, hsame⟩ := write_of_directory hnames hroot hmanifests hwrite hpath hold
      obtain ⟨l₀, hl₀, hsight⟩ := sight?_write_of_directory hnames hroot hmanifests hwrite hpath hold
      have hnew := Tree.readText?_write hwrite hold
      have hnext q other (hq : t.readText? q = some other) (hne : t.locate? q ≠ t.locate? task.path) :=
        Tree.readText?_of_locate?_ne hwrite hold hq hne
      rw [houtcome]
      generalize (task.perform t).2 = t₁ at hshape hsame hsight hnew hnext ⊢
      obtain ⟨entries₁, hroot₁⟩ := directory_of_shape hshape hroot
      have hlater : ∀ task' ∈ rest, task'.path ∈ paths ∧ (t₁.readText? task'.path).isSome := by
        intro task' hmem
        obtain ⟨hpath', hread'⟩ := htasks task' hmem
        exact ⟨hpath', by rwa [hsame _ hpath' fun h => hfirst task' hmem h.symm]⟩
      obtain ⟨hshape', heffect⟩ := ih ((Tree.isNamedAt_of_shape hshape root).trans hnames) hroot₁
        ((Discovery.manifests_of_shape hshape root).trans hmanifests) hplains hlater hdistinct
      refine ⟨hshape'.trans hshape, heffect.named, heffect.manifests, fun l hl => ?_,
        fun i task' text' htask hwritten htext' => ?_, fun p hp hnone => ?_, fun q other hq hnone => ?_⟩
      · by_cases hkept : (Task.performAll rest t₁).2.contents? l = t₁.contents? l
        · -- what the later tasks leave alone was changed by this one
          obtain rfl : l = l₀ := by
            refine Decidable.byContradiction fun hne => hl (hkept.trans ?_)
            exact Tree.contents?_congr (by rw [hsight, if_neg hne])
          refine ⟨0, task, text, rfl, rfl, htext, ?_⟩
          rw [Tree.locate?_of_shape hshape', Tree.locate?_of_shape hshape, hl₀]
        · obtain ⟨i, task', text', htask, hrest⟩ := heffect.changed l hkept
          exact ⟨i + 1, task', text', htask, hrest⟩
      · cases i with
        | zero =>
          obtain rfl := Option.some.inj htask
          obtain rfl := Option.some.inj (htext.symm.trans htext')
          exact (heffect.kept _ hpath fun task' hmem _ => hfirst task' hmem).trans hnew
        | succ i => exact heffect.written i task' text' htask hwritten htext'
      · obtain ⟨hne, hnone⟩ := List.forall_mem_cons.1 hnone
        exact (heffect.kept p hp hnone).trans (hsame p hp (hne (by simp [htext])))
      · obtain ⟨hne, hnone⟩ := List.forall_mem_cons.1 hnone
        apply heffect.others q other (hnext q other hq (hne (by simp [htext])))
        intro task' hmem htext'
        rw [Tree.locate?_of_shape hshape, Tree.locate?_of_shape hshape]
        exact hnone task' hmem htext'

end Directory

/-- A root that is a file stands for itself, also if it was a link before. -/
theorem effect_of_file {text old : String} (hwrite : t.write task.path text = .ok t')
    (hread : t.readText? task.path = some old)
    (hname : task.path.fileName?.any Discovery.isManifestName) (htext : task.text = some text) :
    Task.Effect task.path [task.path] [task] [.written] t t' := by
  have hnew := Tree.readText?_write hwrite hread
  obtain ⟨l₀, hl₀, hfile⟩ := Tree.readText?_eq_some.1 hread
  obtain ⟨l', hl', hsight⟩ := Tree.locate?_write hwrite hl₀ hfile
  have hnode : t'.node? task.path = some (.file (.text text)) := by
    rw [Tree.node?, hl', Option.bind_some]
    exact Tree.at?_eq_file.2 (by rw [hsight, if_pos rfl])
  refine ⟨by simp [Tree.isNamedAt, hnode, Node.isNamed], by simp [Discovery.manifests, hnode, hname],
    fun l hl => ?_, fun i task' text' htask _ htext' => ?_, fun p hp hnone => ?_,
    fun q other hq hnone => ?_⟩
  · obtain rfl : l = l' := by
      refine Decidable.byContradiction fun hne => hl ?_
      exact Tree.contents?_congr (by rw [hsight, if_neg hne])
    exact ⟨0, task, text, rfl, rfl, htext, hl'⟩
  · obtain rfl := List.mem_singleton.1 (List.mem_of_getElem? htask)
    obtain rfl := Option.some.inj (htext.symm.trans htext')
    exact hnew
  · obtain rfl := List.mem_singleton.1 hp
    exact absurd rfl (hnone task List.mem_cons_self (by simp [htext]))
  · exact Tree.readText?_of_locate?_ne hwrite hread hq (hnone task List.mem_cons_self (by simp [htext]))

theorem effect_performAll (hnames : t.isNamedAt root)
    (hmanifests : Discovery.manifests t root = .ok paths) (hplain : ∀ task ∈ tasks, task.IsPlain)
    (htasks : ∀ task ∈ tasks, task.path ∈ paths ∧ (t.readText? task.path).isSome)
    (hdistinct : tasks.Pairwise fun a b => ¬a.path.Same b.path) :
    Task.Effect root paths tasks (Task.performAll tasks t).1 t (Task.performAll tasks t).2 := by
  cases hroot : t.node? root with
  | none => exact absurd hmanifests (by simp [Discovery.manifests, hroot])
  | some node =>
    cases node with
    | link target => exact absurd hmanifests (by simp [Discovery.manifests, hroot])
    | directory entries =>
      exact (effect_of_directory hnames hroot hmanifests hplain htasks hdistinct).2
    | file contents =>
      obtain ⟨hname, rfl, rfl | ⟨task, rfl, rfl⟩⟩ :=
        tasks_of_file hroot hmanifests (fun task htask => (htasks task htask).1) hdistinct
      · exact .nil hnames hmanifests
      · change Task.Effect task.path [task.path] [task] [(task.perform t).1] t (task.perform t).2
        rcases Task.perform_cases (hplain task List.mem_cons_self) t with
          ⟨hkept, hunwritten⟩ | ⟨text, htext, houtcome, hwrite⟩
        · rw [hkept]
          exact (Task.Effect.nil hnames hmanifests).cons task hunwritten
        · obtain ⟨old, hold⟩ := Option.isSome_iff_exists.1 (htasks task List.mem_cons_self).2
          rw [houtcome]
          exact effect_of_file hwrite hold hname htext

/-! ### All texts -/

/-- What the tasks leave behind. -/
structure Landed (root : Path) (paths : List Path) (tasks : List Task) (t t' : Tree) : Prop where
  named : t'.isNamedAt root
  manifests : Discovery.manifests t' root = .ok paths
  written : ∀ task ∈ tasks, ∀ text, task.text = some text → t'.readText? task.path = some text
  kept : ∀ p ∈ paths, (∀ task ∈ tasks, task.text.isSome → ¬p.Same task.path) →
    t'.readText? p = t.readText? p
  others : ∀ q other, t.readText? q = some other →
    (∀ task ∈ tasks, task.text.isSome → t.locate? q ≠ t.locate? task.path) →
      t'.readText? q = some other

/-- All texts are where they belong, and nothing else has changed. -/
theorem landed_performAll (hnames : t.isNamedAt root)
    (hmanifests : Discovery.manifests t root = .ok paths)
    (hplain : ∀ task ∈ tasks, task.IsPlain) (htasks : ∀ task ∈ tasks, task.path ∈ paths ∧
      (t.readText? task.path).isSome)
    (hdistinct : tasks.Pairwise fun a b => ¬a.path.Same b.path) (hstored : Task.Stored tasks t) :
    Landed root paths tasks t (Task.performAll tasks t).2 := by
  have heffect := effect_performAll hnames hmanifests hplain htasks hdistinct
  refine ⟨heffect.named, heffect.manifests, fun task hmem text htext => ?_, heffect.kept,
    heffect.others⟩
  obtain ⟨i, htask⟩ := List.mem_iff_getElem?.1 hmem
  obtain ⟨stored, houtcome⟩ := Task.exists_outcome (t := t) htask
  rcases Task.written_or_failed (hplain task hmem) htext stored with hwritten | ⟨message, hfailed⟩
  · exact heffect.written i task text htask (hwritten ▸ houtcome) htext
  · exact absurd hfailed (hstored _ (List.mem_of_getElem? houtcome) message)

end FeatureForwarding
