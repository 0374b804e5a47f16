import FeatureForwarding.Proofs.Run.Rescan

/-! What a token on the disk rests on. Repairs cascade through facts that are refreshed in memory, but
each text is written on its own, and one that cannot be written takes nothing back from the others: a
token that was written stands on the disk without its support if the dependency came to use the switch
through a repair whose text was not written. -/

namespace FeatureForwarding

open Files (Path Tree)
open Forwarding (Demands Leaves)

variable {t : Tree} {root : Path} {options : Options} {s : Plan.Scan} {plan : Plan}
  {failure : Nat → Option String} {i : Nat} {m m' o o' : Manifest} {sw : Switch} {key name : String}

/-! ### Any pattern of outcomes -/

/-- What becomes of the tasks if the texts at some places cannot be stored, for the reasons given. -/
def Plan.outcomes (plan : Plan) (failure : Nat → Option String) : List Outcome :=
  plan.tasks.mapIdx fun i task => task.outcome (failure i)

theorem outcome_of_settle (hscan : Plan.scan t root options = .ok s)
    (hwrite : Plan.write t root options = .ok plan) (failure : Nat → Option String)
    (hm' : (s.settle options).manifests[i]? = some m') :
    (plan.outcomes failure)[i]? = some ((Task.ofManifest m').outcome (failure i)) := by
  rw [Plan.outcomes, List.getElem?_mapIdx, task_of_settle hscan hwrite hm', Option.map_some]

/-- A run on a tree follows such a pattern. -/
theorem exists_outcomes_eq (plan : Plan) (t : Tree) :
    ∃ failure, (Task.performAll plan.tasks t).1 = plan.outcomes failure := by
  have hstored (i : Nat) : ∃ stored : Option String, ∀ task ∈ plan.tasks[i]?,
      (Task.performAll plan.tasks t).1[i]? = some (task.outcome stored) := by
    cases htask : plan.tasks[i]? with
    | none => simp
    | some task => simpa using Task.exists_outcome htask
  choose failure hfailure using hstored
  refine ⟨failure, List.ext_getElem? fun i => ?_⟩
  rw [Plan.outcomes, List.getElem?_mapIdx]
  cases htask : plan.tasks[i]? with
  | none =>
    have hle := List.getElem?_eq_none_iff.1 htask
    simp [Task.length_performAll, hle]
  | some task => simp [hfailure i task htask]

theorem Task.writable_of_written {stored : Option String} (h : (ofManifest m).outcome stored = .written) :
    m.hasComments = false := by
  unfold outcome at h
  split at h
  · exact absurd h (by simp)
  · next hskipped =>
    split at h
    · exact absurd h (by simp)
    · next htext =>
      rw [text_ofManifest] at htext
      cases hc : m.hasComments with
      | false => rfl
      | true => simp [hc] at htext

/-! ### What is on the disk -/

/-- Whether the manifest was written. -/
def Plan.Scan.Written (s : Plan.Scan) (options : Options) (outcomes : List Outcome) (m : Manifest) : Prop :=
  ∃ i : Nat, (s.selected options)[i]? = some m ∧ outcomes[i]? = some .written

/-- The document of a scanned manifest that is on the disk after a write run: the settled one if its
text was written, else the one that was read. -/
inductive OnDisk (s : Plan.Scan) (options : Options) (outcomes : List Outcome) (m : Manifest) :
    Manifest → Prop
  | written {i : Nat} {m' : Manifest} (place : (s.selected options)[i]? = some m)
      (result : (s.settle options).manifests[i]? = some m')
      (outcome : outcomes[i]? = some .written) : OnDisk s options outcomes m m'
  | kept (h : ¬s.Written options outcomes m) : OnDisk s options outcomes m m

section Run

variable {outcomes : List Outcome} (hnames : t.isNamedAt root) (hscan : Plan.scan t root options = .ok s)
  (hall : options.snapshotOnly = false)
include hnames hscan hall

/-- A gained token answers a mandatory entry whose package uses the switch, as the run knows in the end. -/
theorem exists_use_of_gained (hm : (s.selected options)[i]? = some m)
    (hm' : (s.settle options).manifests[i]? = some m') (hc : m'.hasComments = false)
    (hnew : m'.forwards sw key) (hold : m.forwards sw key = false) :
    ∃ d ∈ m.dependencies, d.key = key ∧ d.optional = false ∧
      (s.settle options).registry.uses d.package sw := by
  obtain ⟨r₀, hfresh, hregistry⟩ := Plan.exists_fresh_scan hscan hall
  have hdistinct := Plan.distinct_selected hnames hscan
  have hpassed := Forwarding.getElem?_passes_of_settle hm' hc
  obtain ⟨r', hr', d, hd, hoptional⟩ := Forwarding.demands_of_gained hm hpassed hnew hold
  obtain ⟨hkey, huses⟩ : d.key = key ∧ r'.uses d.package sw := by simpa using List.find?_some hd
  have hears : ∀ m ∈ s.selected options, Forwarding.Hears s.registry m := by
    rw [hregistry]
    exact fun m hm => Forwarding.hears_scan hfresh (Plan.distinct_scan hnames hscan)
      (List.filter_sublist.subset hm)
  refine ⟨d, List.mem_of_find?_eq_some hd, hkey, hoptional, ?_⟩
  exact (Forwarding.uses_passes options.effectiveSwitches hdistinct hears _).2 i r' hr' _ sw huses

/-- The supplier of a fact that the run knows in the end to use a switch activates it, as it was left. -/
theorem exists_leaves_of_supplies (ho : o ∈ s.manifests) (hsupplies : s.registry.Supplies o name)
    (huses : (s.settle options).registry.uses name sw) :
    ∃ o', Leaves options.effectiveSwitches s.registry (s.selected options) o o' ∧ o'.activates sw := by
  obtain ⟨r₀, hfresh, hregistry⟩ := Plan.exists_fresh_scan hscan hall
  have hpaths := Plan.distinct_scan hnames hscan
  have hheard : s.registry.Heard o name := by
    rw [hregistry] at hsupplies ⊢
    exact Forwarding.heard_of_supplies hfresh hpaths ho hsupplies
  obtain ⟨o', hleaves, hheard'⟩ := Forwarding.heard_settle options.effectiveSwitches hpaths
    List.filter_sublist.subset (Plan.distinct_selected hnames hscan) ho hheard
  exact ⟨o', hleaves, (hheard'.uses sw).symm.trans huses⟩

/-- On the disk the supplier activates the switch if it did before or was written. -/
theorem activates_onDisk_iff (ho : o ∈ s.manifests) (hsupplies : s.registry.Supplies o name)
    (huses : (s.settle options).registry.uses name sw) (hdisk : OnDisk s options outcomes o o') :
    o'.activates sw ↔ o.activates sw ∨ s.Written options outcomes o := by
  have hdistinct := Plan.distinct_selected hnames hscan
  cases hdisk with
  | kept h => exact ⟨.inl, fun hactive => hactive.resolve_right h⟩
  | @written j _ place result outcome =>
    refine iff_of_true ?_ (.inr ⟨j, place, outcome⟩)
    obtain ⟨o₁, hleaves, hactive⟩ := exists_leaves_of_supplies hnames hscan hall ho hsupplies huses
    have hgrows := Forwarding.grows_of_settle hdistinct place result
    cases hleaves with
    | untouched => exact hgrows.activates_mono hactive
    | settled place' _ result' =>
      obtain rfl := Forwarding.eq_of_settle hdistinct place' result' place result
      exact hactive

/-- Where the support is missing on the disk, a text that reads back could not be stored. -/
theorem exists_failed_of_unsupported (hwrite : Plan.write t root options = .ok plan)
    (ho : o ∈ s.manifests) (hsupplies : s.registry.Supplies o name)
    (huses : (s.settle options).registry.uses name sw) (hold : o.activates sw = false)
    (hunwritten : ¬s.Written options (plan.outcomes failure) o)
    (hprint : ∀ m ∈ (s.settle options).manifests, m.hasComments = false → m.ReadsBack) :
    ∃ (j : Nat) (message : String), (s.selected options)[j]? = some o ∧
      (plan.outcomes failure)[j]? = some (.failed message) := by
  obtain ⟨o₁, hleaves, hactive⟩ := exists_leaves_of_supplies hnames hscan hall ho hsupplies huses
  cases hleaves with
  | untouched => simp [hold] at hactive
  | @settled j _ place writable result =>
    have hgrows := Forwarding.grows_of_settle (Plan.distinct_selected hnames hscan) place result
    have hc : o₁.hasComments = false := hgrows.hasComments.trans writable
    have hmodified : o₁.isModified := by
      refine Decidable.byContradiction fun hsame => ?_
      have hloaded := (Manifest.load_eq_ok (Plan.load_of_mem_scan hscan ho)).2.2
      have houtline := hgrows.outline_eq hloaded (hprint o₁ (List.mem_of_getElem? result) hc)
        (by simpa using hsame)
      rw [← Manifest.activates_of_outline houtline, hold] at hactive
      exact absurd hactive (by simp)
    have houtcome := outcome_of_settle hscan hwrite failure result
    obtain ⟨message, hfailed⟩ := (Task.written_or_failed (Task.isPlain_ofManifest o₁)
      (Task.text_of_isModified hmodified hc) (failure j)).resolve_left
        fun hwritten => hunwritten ⟨j, place, by rw [houtcome, hwritten]⟩
    exact ⟨j, message, place, by rw [houtcome, hfailed]⟩

end Run

/-- Whatever becomes of the texts: a token that a write run puts into a file answers a mandatory entry
whose package uses the switch, as the run knows in the end. If a scanned manifest supplied the fact of
that package, its document on the disk activates the switch exactly if it did before or its own text
was written, so that the token is without support where a repair of the supplier could not be stored. -/
theorem written_token_supported_iff (hnames : t.isNamedAt root)
    (hscan : Plan.scan t root options = .ok s) (hall : options.snapshotOnly = false)
    (hwrite : Plan.write t root options = .ok plan) (failure : Nat → Option String)
    (hm : (s.selected options)[i]? = some m) (hm' : (s.settle options).manifests[i]? = some m')
    (houtcome : (plan.outcomes failure)[i]? = some .written)
    (hnew : m'.forwards sw key) (hold : m.forwards sw key = false) :
    ∃ d ∈ m.dependencies, d.key = key ∧ d.optional = false ∧
      (s.settle options).registry.uses d.package sw ∧
      ∀ o ∈ s.manifests, s.registry.Supplies o d.package →
        (∀ o', OnDisk s options (plan.outcomes failure) o o' →
          (o'.activates sw ↔ o.activates sw ∨ s.Written options (plan.outcomes failure) o)) ∧
        ((∀ m ∈ (s.settle options).manifests, m.hasComments = false → m.ReadsBack) →
          o.activates sw = false → ¬s.Written options (plan.outcomes failure) o →
          ∃ (j : Nat) (message : String), (s.selected options)[j]? = some o ∧
            (plan.outcomes failure)[j]? = some (.failed message)) := by
  have hc : m'.hasComments = false := by
    rw [outcome_of_settle hscan hwrite failure hm'] at houtcome
    exact Task.writable_of_written (Option.some.inj houtcome)
  obtain ⟨d, hd, hkey, hoptional, huses⟩ := exists_use_of_gained hnames hscan hall hm hm' hc hnew hold
  refine ⟨d, hd, hkey, hoptional, huses, fun o ho hsupplies => ⟨fun o' hdisk => ?_,
    fun hprint hinactive hunwritten => ?_⟩⟩
  · exact activates_onDisk_iff hnames hscan hall ho hsupplies huses hdisk
  · exact exists_failed_of_unsupported hnames hscan hall hwrite ho hsupplies huses hinactive hunwritten
      hprint

/-- Three packages of which only the last uses the standard library. -/
def chained : Tree :=
  ((Tree.empty.place ["a.toml"]
    (.file (.text "package.name=\"a\"\ndependencies.b=\"1\"\nfeatures.std=[]\n"))).place ["b.toml"]
    (.file (.text "package.name=\"b\"\ndependencies.c=\"1\"\nfeatures.std=[]\n"))).place ["c.toml"]
    (.file (.text "package.name=\"c\"\nfeatures.std=[\"x\"]\n"))

/-- The second of its texts cannot be stored, and the first one is written nonetheless. -/
def secondFails (i : Nat) : Option String := if i = 1 then some "full" else none

theorem written_token_supported_iff_chained :
    ∃ s plan a a' b, chained.isNamedAt ⟨"."⟩ ∧ Plan.scan chained ⟨"."⟩ {} = .ok s ∧
      Plan.write chained ⟨"."⟩ {} = .ok plan ∧
      plan.outcomes secondFails = [.written, .failed "full", .unchanged] ∧
      (s.selected {})[0]? = some a ∧ (s.settle {}).manifests[0]? = some a' ∧
      a'.forwards .std "b" ∧ a.forwards .std "b" = false ∧
      (s.settle {}).registry.uses "b" .std ∧ b ∈ s.manifests ∧ s.registry.Supplies b "b" ∧
      ∀ b', OnDisk s {} (plan.outcomes secondFails) b b' → b'.activates .std = false := by
  have hnames : chained.isNamedAt ⟨"."⟩ := by decide +kernel
  have htest : (Plan.scan chained ⟨"."⟩ {}).toOption.any (fun s =>
      (s.selected {})[0]?.any (fun a => !a.forwards .std "b" && a.packageName? == some "a" &&
        a.dependencies.all (·.package == "b")) &&
      (s.settle {}).manifests[0]?.any (·.forwards .std "b") &&
      s.manifests[1]?.any (fun b => !b.activates .std && b.packageName? == some "b" &&
        (s.registry.definedIn.get? "b").any fun first => first.Same b.path) &&
      ((s.settle {}).manifests.map Task.ofManifest).mapIdx (fun i task => task.outcome (secondFails i)) =
        [.written, .failed "full", .unchanged]) := by
    decide +kernel
  obtain ⟨s, hscan, htest⟩ := exists_ok_of_any htest
  obtain ⟨plan, hwrite, htasks, -⟩ := run_write hscan
  simp only [Bool.and_eq_true, Option.any_eq_true, Bool.not_eq_true', beq_iff_eq, List.all_eq_true,
    decide_eq_true_eq, ← htasks] at htest
  obtain ⟨⟨⟨⟨a, ha, ⟨hold, hname⟩, hpackage⟩, a', ha', hnew⟩, b, hb, ⟨hinactive, hname'⟩, hsupplies⟩,
    houtcomes⟩ := htest
  change plan.outcomes secondFails = _ at houtcomes
  have hmem := List.mem_of_getElem? hb
  obtain ⟨d, hd, -, -, huses, hsupport⟩ := written_token_supported_iff hnames hscan rfl hwrite
    secondFails ha ha' (by rw [houtcomes]; rfl) hnew hold
  rw [hpackage d hd] at huses hsupport
  have hunwritten : ¬s.Written {} (plan.outcomes secondFails) b := by
    rintro ⟨i, hi, houtcome⟩
    rw [houtcomes] at houtcome
    obtain rfl : i = 0 := by rcases i with _ | _ | _ | i <;> simp at houtcome ⊢
    obtain rfl := Option.some.inj (ha.symm.trans hi)
    simp [hname] at hname'
  refine ⟨s, plan, a, a', b, hnames, hscan, hwrite, houtcomes, ha, ha', hnew, hold, huses, hmem,
    hsupplies, fun b' hdisk => Bool.eq_false_iff.2 fun hactive => ?_⟩
  rcases ((hsupport b hmem hsupplies).1 b' hdisk).1 hactive with hbefore | hwritten
  · simp [hinactive] at hbefore
  · exact hunwritten hwritten

end FeatureForwarding
