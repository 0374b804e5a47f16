import FeatureForwarding.Proofs.Run.Writing

/-! Which files a run changes. What stands at a discovered path changes exactly where a task was written
whose text is not the one that was read, so that the files that changed are as many as the tasks that were
written. -/

namespace FeatureForwarding

open Files (Path Tree Contents Location)

namespace Files.Tree

variable {t t' : Tree} {p : Path}

/-- What the file holds that a path leads to. -/
def contentsAt? (t : Tree) (p : Path) : Option Contents := (t.locate? p).bind t.contents?

theorem contentsAt?_eq_text {text : String} :
    t.contentsAt? p = some (.text text) ↔ t.readText? p = some text := by
  simp only [contentsAt?, Option.bind_eq_some_iff, contents?_eq_some, readText?_eq_some]

end Files.Tree

namespace Task

variable {t : Tree} {root : Path} {paths : List Path} {tasks : List Task} {p : Path}

/-- Tasks for discovered manifests, no two at the same path. Each of them was read, and none has the text
that it was read from. -/
structure Planned (t : Tree) (paths : List Path) (tasks : List Task) : Prop where
  plain : ∀ task ∈ tasks, task.IsPlain
  discovered : ∀ task ∈ tasks, task.path ∈ paths
  read : ∀ task ∈ tasks, ∃ old, t.readText? task.path = some old ∧ task.text ≠ some old
  distinct : tasks.Pairwise fun a b => ¬a.path.Same b.path

/-- The paths whose tasks are written. -/
def writtenPaths (tasks : List Task) (t : Tree) : List Path :=
  ((tasks.zip (performAll tasks t).1).filter (·.2 = .written)).map (·.1.path)

theorem mem_writtenPaths : p ∈ writtenPaths tasks t ↔ ∃ (i : Nat) (task : Task), tasks[i]? = some task ∧
    (performAll tasks t).1[i]? = some .written ∧ task.path = p := by
  simp only [writtenPaths, List.mem_map, List.mem_filter, decide_eq_true_eq, Prod.exists]
  constructor
  · rintro ⟨task, outcome, ⟨hmem, rfl⟩, rfl⟩
    obtain ⟨i, hi⟩ := List.mem_iff_getElem?.1 hmem
    obtain ⟨htask, houtcome⟩ := List.getElem?_zip_eq_some.1 hi
    exact ⟨i, task, htask, houtcome, rfl⟩
  · rintro ⟨i, task, htask, houtcome, rfl⟩
    exact ⟨task, .written, ⟨List.mem_iff_getElem?.2 ⟨i, List.getElem?_zip_eq_some.2 ⟨htask, houtcome⟩⟩, rfl⟩, rfl⟩

theorem sublist_writtenPaths (tasks : List Task) (t : Tree) :
    (writtenPaths tasks t).Sublist (tasks.map (·.path)) := by
  have htasks : ((tasks.zip (performAll tasks t).1).map Prod.fst) = tasks :=
    List.map_fst_zip (length_performAll tasks t).ge
  conv_rhs => rw [← htasks, List.map_map]
  exact List.filter_sublist.map _

theorem map_snd_zip (tasks : List Task) (t : Tree) :
    (tasks.zip (performAll tasks t).1).map Prod.snd = (performAll tasks t).1 :=
  List.map_snd_zip (length_performAll tasks t).le

theorem countP_zip (p : Outcome → Bool) (tasks : List Task) (t : Tree) :
    (tasks.zip (performAll tasks t).1).countP (fun e => p e.2) = (performAll tasks t).1.countP p := by
  conv_rhs => rw [← map_snd_zip, List.countP_map]
  rfl

theorem length_writtenPaths (tasks : List Task) (t : Tree) :
    (writtenPaths tasks t).length = (performAll tasks t).1.countP (· = .written) := by
  rw [writtenPaths, List.length_map, ← List.countP_eq_length_filter]
  exact countP_zip (fun outcome => decide (outcome = .written)) tasks t

/-- Only texts are written. -/
theorem exists_text_of_written {i : Nat} {task : Task} (htask : tasks[i]? = some task)
    (houtcome : (performAll tasks t).1[i]? = some .written) : ∃ text, task.text = some text := by
  obtain ⟨task', stored, htask', hwritten⟩ := exists_of_performAll houtcome
  obtain rfl := Option.some.inj (htask.symm.trans htask')
  refine Option.ne_none_iff_exists'.1 fun hnone => ?_
  cases hskipped : task.isSkipped <;> simp [outcome, hskipped, hnone] at hwritten

namespace Planned

variable (h : Planned t paths tasks)
include h

theorem readable : ∀ task ∈ tasks, task.path ∈ paths ∧ (t.readText? task.path).isSome := by
  intro task htask
  obtain ⟨old, hold, -⟩ := h.read task htask
  exact ⟨h.discovered task htask, by simp [hold]⟩

variable (hnames : t.isNamedAt root) (hmanifests : Discovery.manifests t root = .ok paths)
include hnames hmanifests

/-- Nothing changes at a discovered path that is not written. -/
theorem contentsAt?_performAll (hp : p ∈ paths) (hnot : p ∉ writtenPaths tasks t) :
    (performAll tasks t).2.contentsAt? p = t.contentsAt? p := by
  cases hroot : t.node? root with
  | none => exact absurd hmanifests (by simp [Discovery.manifests, hroot])
  | some node =>
    cases node with
    | link target => exact absurd hmanifests (by simp [Discovery.manifests, hroot])
    | directory entries =>
      obtain ⟨hshape, heffect⟩ :=
        effect_of_directory hnames hroot hmanifests h.plain h.readable h.distinct
      rw [Tree.contentsAt?, Tree.contentsAt?, Tree.locate?_of_shape hshape]
      cases hl : t.locate? p with
      | none => rfl
      | some l =>
        refine Decidable.byContradiction fun hchanged => hnot ?_
        obtain ⟨i, task, text, htask, houtcome, -, hlocate⟩ := heffect.changed l hchanged
        rw [Tree.locate?_of_shape hshape] at hlocate
        -- two discovered paths that lead to one location are the same
        have hpath := h.discovered task (List.mem_of_getElem? htask)
        obtain ⟨above, hreaches⟩ := Discovery.reaches_manifests hnames hroot hmanifests
        obtain ⟨rest, hcomponents, hreached⟩ := hreaches p hp
        obtain ⟨rest', hcomponents', hreached'⟩ := hreaches task.path hpath
        obtain rfl : rest' = rest :=
          List.append_cancel_left ((hreached'.unique hlocate).symm.trans (hreached.unique hl))
        have hsame : task.path = p := Path.eq_of_same (f := id)
          (Discovery.distinct_manifests hnames hmanifests) hpath hp (hcomponents'.trans hcomponents.symm)
        exact mem_writtenPaths.2 ⟨i, task, htask, houtcome, hsame⟩
    | file contents =>
      obtain ⟨-, rfl, rfl | ⟨task, rfl, rfl⟩⟩ := tasks_of_file hroot hmanifests h.discovered h.distinct
      · rfl
      · obtain rfl := List.mem_singleton.1 hp
        rcases perform_cases (h.plain task List.mem_cons_self) t with ⟨hkept, -⟩ | ⟨-, -, houtcome, -⟩
        · exact congrArg (Tree.contentsAt? · task.path) hkept
        · refine absurd (mem_writtenPaths.2 ⟨0, task, rfl, ?_, rfl⟩) hnot
          exact congrArg some houtcome

theorem contentsAt?_ne_iff (hp : p ∈ paths) :
    (performAll tasks t).2.contentsAt? p ≠ t.contentsAt? p ↔ p ∈ writtenPaths tasks t := by
  refine ⟨fun hchanged => ?_, fun hwritten => ?_⟩
  · by_contra hnot
    exact hchanged (h.contentsAt?_performAll hnames hmanifests hp hnot)
  · obtain ⟨i, task, htask, houtcome, rfl⟩ := mem_writtenPaths.1 hwritten
    obtain ⟨old, hold, hnew⟩ := h.read task (List.mem_of_getElem? htask)
    obtain ⟨text, htext⟩ := exists_text_of_written htask houtcome
    have hread := (effect_performAll hnames hmanifests h.plain h.readable h.distinct).written
      i task text htask houtcome htext
    rw [Tree.contentsAt?_eq_text.2 hread, Tree.contentsAt?_eq_text.2 hold]
    rintro ⟨⟩
    exact hnew htext

/-- As many files change as tasks are written. -/
theorem countP_changed :
    paths.countP (fun p => (performAll tasks t).2.contentsAt? p ≠ t.contentsAt? p) =
      (performAll tasks t).1.countP (· = .written) := by
  have hnodup {l : List Path} (hl : l.Pairwise fun p q => ¬p.Same q) : l.Nodup :=
    hl.imp fun hsame heq => hsame (congrArg Path.components heq)
  have hpaths := hnodup (Discovery.distinct_manifests hnames hmanifests)
  have hwritten : (writtenPaths tasks t).Nodup :=
    hnodup ((List.pairwise_map.2 h.distinct).sublist (sublist_writtenPaths tasks t))
  rw [← length_writtenPaths, List.countP_eq_length_filter]
  refine ((List.perm_ext_iff_of_nodup (hpaths.filter _) hwritten).2 fun p => ?_).length_eq
  rw [List.mem_filter, decide_eq_true_eq]
  refine ⟨fun ⟨hp, hchanged⟩ => (h.contentsAt?_ne_iff hnames hmanifests hp).1 hchanged, fun hp => ?_⟩
  obtain ⟨i, task, htask, -, rfl⟩ := mem_writtenPaths.1 hp
  have hpath := h.discovered task (List.mem_of_getElem? htask)
  exact ⟨hpath, (h.contentsAt?_ne_iff hnames hmanifests hpath).2 hp⟩

end Planned

end Task

end FeatureForwarding
