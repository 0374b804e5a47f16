import FeatureForwarding.Proofs.NameMap
import FeatureForwarding.Proofs.Registry.Scan
import Mathlib.Logic.Relation

/-! What holds of a registry throughout its history. Every call on a registry comes down to steps of
two kinds: a definition is taken up, or a reference is. What both keep, every run of calls keeps:
facts stand under their own names and are well formed, what was defined is direct, and nothing that
was known is lost. A registry of such facts can be stored and restored. -/

namespace FeatureForwarding.Registry

variable {r r' r'' : Registry} {m : Manifest} {ms : List Manifest} {name : String} {s : Switch}

/-! ### Calls and steps -/

inductive Call where
  | recordDirect (m : Manifest)
  | recordIndirect (m : Manifest)
  | refreshDirect (m : Manifest)
  | scan (ms : List Manifest)

def Call.apply (r : Registry) : Call → Registry
  | .recordDirect m => (r.recordDirect m).2
  | .recordIndirect m => r.recordIndirect m
  | .refreshDirect m => r.refreshDirect m
  | .scan ms => (r.scan ms).1

/-- The registry after the calls, one after the other. -/
def after (r : Registry) (calls : List Call) : Registry := calls.foldl Call.apply r

theorem after_append (r : Registry) (calls later : List Call) :
    r.after (calls ++ later) = (r.after calls).after later :=
  List.foldl_append

/-- What a call is made of. -/
inductive Step (r : Registry) : Registry → Prop
  | define {m : Manifest} {d : Definition} (h : Definition.ofManifest? m = some d) :
    Step r (r.define d)
  | infer (e : Manifest × Dependency) : Step r (infer r e)

abbrev Steps : Registry → Registry → Prop := Relation.ReflTransGen Step

theorem steps_foldl_infer (es : List (Manifest × Dependency)) (r : Registry) :
    Steps r (es.foldl infer r) := by
  induction es generalizing r with
  | nil => exact .refl
  | cons e rest ih => exact .head (.infer e) (ih (infer r e))

theorem steps_install {d : Definition} (h : Definition.ofManifest? m = some d) (r : Registry) :
    Steps r (r.install d).2 := by
  unfold install
  split
  · exact .refl
  · exact .single (.define h)

theorem steps_installAll {ds : List Definition}
    (h : ∀ d ∈ ds, ∃ m, Definition.ofManifest? m = some d) (r : Registry) :
    Steps r (r.installAll ds).1 := by
  induction ds generalizing r with
  | nil => exact .refl
  | cons d rest ih =>
    obtain ⟨m, hm⟩ := h d List.mem_cons_self
    have hrest : ∀ r : Registry, Steps r (r.installAll rest).1 :=
      ih fun d' hd' => h d' (List.mem_cons_of_mem _ hd')
    have hfirst := steps_install hm r
    rw [installAll]
    split
    · next heq =>
      rw [heq] at hfirst
      exact hfirst.trans (hrest _)
    · next heq =>
      rw [heq] at hfirst
      exact hfirst.trans (hrest _)

theorem exists_of_mem_definitionsFrom {found : List Definition} {d : Definition}
    (h : d ∈ (definitionsFrom found ms).1) :
    d ∈ found ∨ ∃ m ∈ ms, Definition.ofManifest? m = some d := by
  induction ms generalizing found with
  | nil => exact .inl h
  | cons m rest ih =>
    have hlater {found : List Definition} (h : d ∈ (definitionsFrom found rest).1) :
        d ∈ found ∨ ∃ m' ∈ m :: rest, Definition.ofManifest? m' = some d :=
      (ih h).imp_right fun ⟨m', hm', hd⟩ => ⟨m', List.mem_cons_of_mem _ hm', hd⟩
    rw [definitionsFrom] at h
    split at h
    · exact hlater h
    · next d' hd' =>
      split at h
      · refine (hlater h).elim (fun hmem => ?_) .inr
        rcases List.mem_append.1 hmem with hmem | hmem
        · exact .inl hmem
        · obtain rfl := List.mem_singleton.1 hmem
          exact .inr ⟨m, List.mem_cons_self, hd'⟩
      · exact hlater h

theorem steps_installed (r : Registry) (ms : List Manifest) : Steps r (r.installed ms) :=
  steps_installAll (fun _ hd => ((exists_of_mem_definitionsFrom hd).resolve_left
    List.not_mem_nil).imp fun _ h => h.2) r

theorem steps_apply (r : Registry) (call : Call) : Steps r (call.apply r) := by
  cases call with
  | recordDirect m =>
    rw [Call.apply, recordDirect]
    split
    · next d hd => exact steps_install hd r
    · exact .refl
  | recordIndirect m =>
    rw [Call.apply, recordIndirect_eq]
    exact steps_foldl_infer ..
  | refreshDirect m =>
    rw [Call.apply, refreshDirect]
    split
    · exact .refl
    · next d hd =>
      split
      · exact .refl
      · exact .single (.define hd)
  | scan ms =>
    rw [Call.apply, scan_fst]
    exact (steps_installed r ms).trans (steps_foldl_infer ..)

theorem steps_after (r : Registry) (calls : List Call) : Steps r (r.after calls) := by
  induction calls generalizing r with
  | nil => exact .refl
  | cons call rest ih => exact (steps_apply r call).trans (ih (call.apply r))

/-! ### What is kept -/

/-- Whoever defined a package in this run, its fact is direct. -/
def Authoritative (r : Registry) : Prop :=
  ∀ name, (r.definedIn.get? name).isSome → r.isDirect name

theorem isDirect_define {d : Definition} (h : Definition.ofManifest? m = some d) (r : Registry)
    (name : String) : (r.define d).isDirect name = (decide (name = d.fact.name) || r.isDirect name) := by
  obtain ⟨fact, hfact, rfl⟩ := Option.map_eq_some_iff.1 h
  rw [isDirect, get?_define]
  split
  · next heq => simp [heq, (Fact.ofManifest?_eq_some hfact).2.1]
  · next hne => simp [hne, isDirect]

theorem Authoritative.step (h : r.Authoritative) (hstep : Step r r') : r'.Authoritative := by
  intro name hdefined
  cases hstep with
  | define hd =>
    rw [isDirect_define hd]
    rw [definedIn_define] at hdefined
    split at hdefined
    · next heq => simp [heq]
    · simp [h name hdefined]
  | infer e =>
    rw [isDirect_infer]
    exact h name hdefined

/-- The facts stand under their own names and are well formed. -/
structure Consistent (r : Registry) : Prop where
  named : ∀ name fact, r.get? name = some fact → fact.name = name
  wellFormed : ∀ name fact, r.get? name = some fact → fact.WellFormed
  authoritative : r.Authoritative

theorem Consistent.getD_placeholder (h : r.Consistent) (name : String) :
    ((r.get? name).getD (Fact.placeholder name)).name = name ∧
      ((r.get? name).getD (Fact.placeholder name)).WellFormed := by
  cases hget : r.get? name with
  | none => exact ⟨rfl, Fact.wellFormed_of_no_features ..⟩
  | some fact => exact ⟨h.named name fact hget, h.wellFormed name fact hget⟩

theorem Consistent.step (h : r.Consistent) (hstep : Step r r') : r'.Consistent := by
  have hfact : ∀ name fact, r'.get? name = some fact → fact.name = name ∧ fact.WellFormed := by
    intro name fact hget
    cases hstep with
    | define hd =>
      rw [get?_define] at hget
      split at hget
      · next heq =>
        obtain ⟨own, hown, rfl⟩ := Option.map_eq_some_iff.1 hd
        obtain rfl := Option.some.inj hget
        exact ⟨heq.symm, Fact.wellFormed_of_ofManifest? hown⟩
      · exact ⟨h.named name fact hget, h.wellFormed name fact hget⟩
    | infer e =>
      rw [get?_infer] at hget
      split at hget
      · obtain rfl := Option.some.inj hget
        obtain ⟨hname, hwell⟩ := h.getD_placeholder name
        exact ⟨by rw [Fact.foldl_observe_eq, hname], hwell.foldl_observe _⟩
      · exact ⟨h.named name fact hget, h.wellFormed name fact hget⟩
  exact ⟨fun name fact hget => (hfact name fact hget).1, fun name fact hget => (hfact name fact hget).2,
    h.authoritative.step hstep⟩

/-- What was known stays known, and what was direct stays direct. -/
structure Keeps (r r' : Registry) : Prop where
  known : ∀ name, (r.get? name).isSome → (r'.get? name).isSome
  direct : ∀ name, r.isDirect name → r'.isDirect name

theorem Keeps.trans (h : Keeps r r') (h' : Keeps r' r'') : Keeps r r'' :=
  ⟨fun name hname => h'.known name (h.known name hname),
    fun name hname => h'.direct name (h.direct name hname)⟩

theorem keeps_step (hstep : Step r r') : Keeps r r' := by
  cases hstep with
  | define hd =>
    refine ⟨fun name hname => ?_, fun name hname => ?_⟩
    · rw [get?_define]
      split
      · rfl
      · exact hname
    · rw [isDirect_define hd, hname, Bool.or_true]
  | infer e =>
    refine ⟨fun name hname => ?_, fun name hname => ?_⟩
    · rw [get?_infer]
      split
      · rfl
      · exact hname
    · rwa [isDirect_infer]

theorem keeps_steps (h : Steps r r') : Keeps r r' := by
  induction h with
  | refl => exact ⟨fun _ => id, fun _ => id⟩
  | tail _ hstep ih => exact ih.trans (keeps_step hstep)

theorem Authoritative.steps (h : r.Authoritative) (hsteps : Steps r r') : r'.Authoritative := by
  induction hsteps with
  | refl => exact h
  | tail _ hstep ih => exact ih.step hstep

theorem Consistent.steps (h : r.Consistent) (hsteps : Steps r r') : r'.Consistent := by
  induction hsteps with
  | refl => exact h
  | tail _ hstep ih => exact ih.step hstep

/-! ### The start of a history -/

inductive Initial : Registry → Prop
  | empty : Initial .empty
  | restored {facts : NameMap Fact} {r : Registry} (h : restore facts = .ok r) : Initial r

theorem entryInconsistency?_eq_none {entry : String × Fact} :
    entryInconsistency? entry = none ↔
      entry.2.name = entry.1 ∧ entry.2.usedFeatures ⊆ entry.2.features := by
  unfold entryInconsistency?
  split
  · next hne => simp [Ne.symm hne]
  · next heq => simp [not_not.1 heq, List.subset_def]

theorem restore_eq_ok {facts : NameMap Fact} : restore facts = .ok r ↔
    r = ⟨facts, .empty⟩ ∧ ∀ name fact, facts.get? name = some fact →
      fact.name = name ∧ fact.usedFeatures ⊆ fact.features := by
  have hentries : facts.entries.findSome? entryInconsistency? = none ↔
      ∀ name fact, facts.get? name = some fact →
        fact.name = name ∧ fact.usedFeatures ⊆ fact.features := by
    simp only [List.findSome?_eq_none_iff, entryInconsistency?_eq_none, Prod.forall,
      NameMap.mem_entries_iff]
  rw [← hentries]
  unfold restore
  split
  · next fault hfault => simp [hfault]
  · next hnone => simp [hnone, eq_comm]

theorem authoritative_of_initial (h : r.Initial) : r.Authoritative := by
  cases h with
  | empty => exact fun _ hdefined => absurd hdefined (by simp [Registry.empty])
  | restored h =>
    obtain ⟨rfl, -⟩ := restore_eq_ok.1 h
    exact fun _ hdefined => absurd hdefined (by simp)

theorem consistent_of_initial (h : r.Initial)
    (hlists : ∀ name fact, r.get? name = some fact → fact.features.Nodup ∧ fact.usedFeatures.Nodup) :
    r.Consistent := by
  have hstated : ∀ name fact, r.get? name = some fact →
      fact.name = name ∧ fact.usedFeatures ⊆ fact.features := by
    cases h with
    | empty => exact fun _ _ hget => absurd hget (by simp [Registry.empty, get?])
    | restored h =>
      obtain ⟨rfl, hfacts⟩ := restore_eq_ok.1 h
      exact hfacts
  exact ⟨fun name fact hget => (hstated name fact hget).1,
    fun name fact hget => ⟨(hstated name fact hget).2, (hlists name fact hget).1, (hlists name fact hget).2⟩,
    authoritative_of_initial h⟩

/-- Consistent facts can be stored and restored. -/
theorem Consistent.restore_facts (h : r.Consistent) :
    restore r.facts = .ok ⟨r.facts, .empty⟩ :=
  restore_eq_ok.2 ⟨rfl, fun name fact hget => ⟨h.named name fact hget, (h.wellFormed name fact hget).used⟩⟩

/-- What calls can make of an empty or a restored registry. -/
def Reachable (r : Registry) : Prop := ∃ start calls, Initial start ∧ start.after calls = r

theorem Reachable.authoritative (h : r.Reachable) : r.Authoritative := by
  obtain ⟨start, calls, hstart, rfl⟩ := h
  exact (authoritative_of_initial hstart).steps (steps_after start calls)

/-- In whatever order a registry is called, its facts stay consistent, none of them is lost or loses
its rank, and they can be stored and restored at any time. -/
theorem history_consistent {start : Registry} (hstart : start.Initial)
    (hlists : ∀ name fact, start.get? name = some fact →
      fact.features.Nodup ∧ fact.usedFeatures.Nodup)
    (calls : List Call) :
    (∀ entry ∈ (start.after calls).facts.entries, entry.1 = entry.2.name ∧
      entry.2.usedFeatures ⊆ entry.2.features ∧ entry.2.features.Nodup ∧
      entry.2.usedFeatures.Nodup) ∧
    (∀ name, ((start.after calls).definedIn.get? name).isSome → (start.after calls).isDirect name) ∧
    (∀ later name,
      (((start.after calls).get? name).isSome →
        ((start.after (calls ++ later)).get? name).isSome) ∧
      ((start.after calls).isDirect name → (start.after (calls ++ later)).isDirect name)) ∧
    (∀ m name, (start.after calls).isDirect name →
      ((start.after calls).recordIndirect m).get? name = (start.after calls).get? name) ∧
    restore (start.after calls).facts = .ok ⟨(start.after calls).facts, .empty⟩ := by
  have hconsistent : (start.after calls).Consistent :=
    (consistent_of_initial hstart hlists).steps (steps_after start calls)
  refine ⟨fun entry hentry => ?_, hconsistent.authoritative, fun later name => ?_,
    fun m name hdirect => ?_, hconsistent.restore_facts⟩
  · have hget := NameMap.mem_entries_iff.1 hentry
    obtain ⟨hused, hfeatures, husedFeatures⟩ := hconsistent.wellFormed _ _ hget
    exact ⟨(hconsistent.named _ _ hget).symm, hused, hfeatures, husedFeatures⟩
  · have hkept := keeps_steps (steps_after (start.after calls) later)
    rw [after_append]
    exact ⟨hkept.known name, hkept.direct name⟩
  · rw [recordIndirect_eq, get?_foldl_infer, if_neg (by simp [hdirect])]

/-- What an earlier run knew: one package by itself, another one by hearsay. -/
def stored : NameMap Fact :=
  .ofList [("a", ⟨"a", none, ["std"], [], true⟩), ("k", ⟨"k", none, ["std"], ["std"], false⟩)]

theorem history_consistent_stored :
    Initial ⟨stored, .empty⟩ ∧
      (∀ name fact, get? ⟨stored, .empty⟩ name = some fact →
        fact.features.Nodup ∧ fact.usedFeatures.Nodup) ∧
      ∃ m, Manifest.read? ⟨"a"⟩
          "package.name=\"a\"\ndependencies.k=\"1\"\nfeatures.try-runtime=[\"k/try-runtime\"]\n" = some m ∧
        ∃ r, after ⟨stored, .empty⟩ [.recordIndirect m, .recordDirect m, .refreshDirect m, .scan [m]] = r ∧
          r.uses "k" .std ∧ r.uses "k" .tryRuntime ∧ r.uses "a" .tryRuntime ∧ r.isDirect "a" ∧
          restore r.facts = .ok ⟨r.facts, .empty⟩ := by
  have hfacts : ∀ entry ∈ stored.entries, (entry.2.name = entry.1 ∧
      entry.2.usedFeatures ⊆ entry.2.features) ∧ entry.2.features.Nodup ∧
      entry.2.usedFeatures.Nodup := by
    decide +kernel
  have hinitial : Initial ⟨stored, .empty⟩ := .restored <| restore_eq_ok.2
    ⟨rfl, fun name fact hget => (hfacts (name, fact) (NameMap.mem_entries_iff.2 hget)).1⟩
  have hlists : ∀ name fact, get? ⟨stored, .empty⟩ name = some fact →
      fact.features.Nodup ∧ fact.usedFeatures.Nodup := fun name fact hget =>
    (hfacts (name, fact) (NameMap.mem_entries_iff.2 hget)).2
  have htest : (Manifest.read? ⟨"a"⟩
      "package.name=\"a\"\ndependencies.k=\"1\"\nfeatures.try-runtime=[\"k/try-runtime\"]\n").any fun m =>
      let r := after ⟨stored, .empty⟩ [.recordIndirect m, .recordDirect m, .refreshDirect m, .scan [m]]
      r.uses "k" .std && r.uses "k" .tryRuntime && r.uses "a" .tryRuntime &&
        (r.definedIn.get? "a").isSome := by
    decide +kernel
  obtain ⟨m, hm, htest⟩ := (Option.any_eq_true _ _).1 htest
  simp only [Bool.and_eq_true] at htest
  obtain ⟨⟨⟨hstd, hother⟩, hown⟩, hdefined⟩ := htest
  obtain ⟨-, hdirect, -, -, hrestored⟩ := history_consistent hinitial hlists
    [.recordIndirect m, .recordDirect m, .refreshDirect m, .scan [m]]
  exact ⟨hinitial, hlists, m, hm, _, rfl, hstd, hother, hown, hdirect "a" hdefined, hrestored⟩

end FeatureForwarding.Registry
