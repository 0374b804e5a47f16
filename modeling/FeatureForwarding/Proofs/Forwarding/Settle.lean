import FeatureForwarding.Proofs.Forwarding.Settling

/-! What settling leaves behind: every manifest in its place, grown by repairs, and nothing to
repair in those that may be written. -/

namespace FeatureForwarding.Forwarding

variable {switches : List Switch} {r : Registry} {m m' : Manifest} {ms : List Manifest} {i : Nat}

theorem getElem?_meetings (switches : List Switch) (r : Registry) (ms : List Manifest) (i : Nat) :
    (meetings switches r ms)[i]?.map Prod.snd = ms[i]? := by
  rw [← List.getElem?_map, manifests_meetings]

theorem getElem?_pass (h : (pass switches r ms).manifests[i]? = some m') :
    ∃ e, (meetings switches r ms)[i]? = some e ∧ ms[i]? = some e.2 ∧
      (visit switches e.1 e.2).manifest = m' := by
  rw [manifests_pass, List.getElem?_map] at h
  obtain ⟨e, he, hm'⟩ := Option.map_eq_some_iff.1 h
  exact ⟨e, he, by rw [← getElem?_meetings switches r ms, he, Option.map_some], hm'⟩

theorem getElem?_pass_of_meeting {e : Registry × Manifest}
    (h : (meetings switches r ms)[i]? = some e) :
    (pass switches r ms).manifests[i]? = some (visit switches e.1 e.2).manifest := by
  rw [manifests_pass, List.getElem?_map, h, Option.map_some]

theorem exists_meeting_at (switches : List Switch) (r : Registry) (hm : ms[i]? = some m) :
    ∃ r', (meetings switches r ms)[i]? = some (r', m) := by
  rw [← getElem?_meetings switches r ms] at hm
  obtain ⟨e, he, rfl⟩ := Option.map_eq_some_iff.1 hm
  exact ⟨e.1, he⟩

theorem Rounds.grows {result : Progress} (h : Rounds switches r ms result)
    (hm' : result.manifests[i]? = some m') :
    ∃ m, ms[i]? = some m ∧ m.Grows m' := by
  induction h with
  | last calm =>
    obtain ⟨e, -, hm, rfl⟩ := getElem?_pass hm'
    exact ⟨e.2, hm, grows_visit switches e.1 e.2⟩
  | more _ ih =>
    obtain ⟨m₁, hm₁, hlater⟩ := ih hm'
    obtain ⟨e, -, hm, rfl⟩ := getElem?_pass hm₁
    exact ⟨e.2, hm, (grows_visit switches e.1 e.2).trans hlater⟩

theorem Rounds.length {result : Progress} (h : Rounds switches r ms result) :
    result.manifests.length = ms.length := by
  induction h with
  | last calm => simpa using congrArg List.length (paths_pass switches _ _)
  | @more r ms later _ ih => exact ih.trans (by simpa using congrArg List.length (paths_pass switches r ms))

/-- What grew in the first pass has grown in the end. -/
theorem Rounds.grows_pass {result : Progress} (h : Rounds switches r ms result)
    (hm' : result.manifests[i]? = some m') :
    ∃ m₁, (pass switches r ms).manifests[i]? = some m₁ ∧ m₁.Grows m' := by
  cases h with
  | last calm => exact ⟨m', hm', .refl⟩
  | more rest => exact rest.grows hm'

/-! ### Closing -/

theorem closing_of_hasComments (r : Registry) (hc : m.hasComments) :
    closing switches r m = repair r switches m :=
  if_pos hc

theorem closing_of_not_hasComments (r : Registry) (hc : m.hasComments = false) :
    closing switches r m = ⟨m, []⟩ := by
  simp [closing, hc]

theorem grows_closing (switches : List Switch) (r : Registry) (m : Manifest) :
    m.Grows (closing switches r m).manifest := by
  unfold closing
  split
  · exact grows_repair r switches m
  · exact .refl

theorem getElem?_settle (switches : List Switch) (r : Registry) (ms : List Manifest) (i : Nat) :
    (settle switches r ms).manifests[i]? =
      (passes switches (passLimit switches ms) r ms).manifests[i]?.map fun m =>
        (closing switches (settle switches r ms).registry m).manifest := by
  simp only [settle, List.getElem?_map, Option.map_map]
  rfl

theorem length_settle (h : Distinct ms) (r : Registry) :
    (settle switches r ms).manifests.length = ms.length := by
  simp only [settle, List.length_map, (rounds_settle switches h r).length]

/-- Settling only hands on switches. -/
theorem grows_settle (switches : List Switch) (r : Registry) (h : Distinct ms)
    (hm : ms[i]? = some m) :
    ∃ m', (settle switches r ms).manifests[i]? = some m' ∧ m.Grows m' := by
  have hlt := (List.getElem?_eq_some_iff.1 hm).1
  rw [← (rounds_settle switches h r).length] at hlt
  obtain ⟨m₁, hm₁⟩ : ∃ m₁, (passes switches (passLimit switches ms) r ms).manifests[i]? = some m₁ :=
    ⟨_, List.getElem?_eq_getElem hlt⟩
  obtain ⟨m₀, hm₀, hgrows⟩ := (rounds_settle switches h r).grows hm₁
  obtain rfl := Option.some.inj (hm.symm.trans hm₀)
  refine ⟨_, by rw [getElem?_settle, hm₁, Option.map_some], ?_⟩
  exact hgrows.trans (grows_closing switches _ m₁)

/-- Every settled manifest has grown from the one in its place. -/
theorem exists_of_settle (h : Distinct ms) (hm' : (settle switches r ms).manifests[i]? = some m') :
    ∃ m, ms[i]? = some m ∧ m.Grows m' := by
  have hlt := (List.getElem?_eq_some_iff.1 hm').1
  rw [length_settle h] at hlt
  obtain ⟨m₁, hm₁, hgrows⟩ := grows_settle switches r h (List.getElem?_eq_getElem hlt)
  obtain rfl := Option.some.inj (hm'.symm.trans hm₁)
  exact ⟨_, List.getElem?_eq_getElem hlt, hgrows⟩

theorem grows_of_settle (h : Distinct ms) (hm : ms[i]? = some m)
    (hm' : (settle switches r ms).manifests[i]? = some m') : m.Grows m' := by
  obtain ⟨m₀, hm₀, hgrows⟩ := exists_of_settle h hm'
  obtain rfl := Option.some.inj (hm.symm.trans hm₀)
  exact hgrows

theorem getElem?_settle_of_passes
    (hm : (passes switches (passLimit switches ms) r ms).manifests[i]? = some m)
    (hc : m.hasComments = false) : (settle switches r ms).manifests[i]? = some m := by
  rw [getElem?_settle, hm, Option.map_some, closing_of_not_hasComments _ hc]

/-- A manifest without comments is as the passes left it. -/
theorem getElem?_passes_of_settle (hm' : (settle switches r ms).manifests[i]? = some m')
    (hc : m'.hasComments = false) :
    (passes switches (passLimit switches ms) r ms).manifests[i]? = some m' := by
  rw [getElem?_settle] at hm'
  obtain ⟨m, hm, rfl⟩ := Option.map_eq_some_iff.1 hm'
  rw [(grows_closing switches (settle switches r ms).registry m).hasComments] at hc
  rw [hm, closing_of_not_hasComments _ hc]

theorem settled_settle (h : Distinct ms) (hm' : (settle switches r ms).manifests[i]? = some m')
    (hc : m'.hasComments = false) : Settled (settle switches r ms).registry switches m' := by
  have hpassed := getElem?_passes_of_settle hm' hc
  exact (rounds_settle switches h r).allSettled m' (List.mem_of_getElem? hpassed) hc

/-- What is settled from the start stays as it is, up to a look at the manifests with comments. -/
theorem settle_of_allSettled (h : AllSettled switches r ms) :
    (settle switches r ms).registry = r ∧
      ∀ i : Nat, (settle switches r ms).manifests[i]? =
        ms[i]?.map fun m => (closing switches r m).manifest := by
  have hregistry : (settle switches r ms).registry = r :=
    (congrArg Progress.registry (passes_of_allSettled h _)).trans (pass_of_allSettled h).2.1
  refine ⟨hregistry, fun i => ?_⟩
  rw [getElem?_settle, hregistry, passes_of_allSettled h, (pass_of_allSettled h).1]

/-- If no manifest that may be written gained anything, all of them were settled. -/
theorem allSettled_of_no_gain (h : Distinct ms)
    (hgain : ∀ (i : Nat) (m m' : Manifest), ms[i]? = some m →
      (settle switches r ms).manifests[i]? = some m' →
      m.hasComments = false → ∀ s k, m'.forwards s k → m.forwards s k) :
    AllSettled switches r ms := by
  refine allSettled_of_added (added_pass.2 fun e he => ?_)
  apply Decidable.byContradiction
  intro hadded
  have hc := hasComments_of_added hadded
  obtain ⟨i, hi⟩ := List.mem_iff_getElem?.1 he
  have hm₁ := getElem?_pass_of_meeting hi
  have hm : ms[i]? = some e.2 := by rw [← getElem?_meetings switches r ms, hi, Option.map_some]
  obtain ⟨m', hm', hgrows⟩ := grows_settle switches r h hm
  have hpassed := hm'
  rw [getElem?_settle] at hpassed
  obtain ⟨m₂, hm₂, hclosed⟩ := Option.map_eq_some_iff.1 hpassed
  obtain ⟨m₃, hm₃, hlater⟩ := (rounds_settle switches h r).grows_pass hm₂
  obtain rfl := Option.some.inj (hm₁.symm.trans hm₃)
  rw [visit_of_not_hasComments hc] at hadded hlater
  obtain ⟨s, -, k, hnew, hold⟩ := exists_forwards_of_added hadded
  have hforwards : m'.forwards s k :=
    hclosed ▸ (grows_closing switches _ m₂).forwards (hlater.forwards hnew)
  simp [hgain i e.2 m' hm hm' hc s k hforwards] at hold

/-- Settling reaches a fixpoint: of all manifests that may be written, none has anything left to
repair. The limit on the passes cuts nothing off. -/
theorem settle_reaches_fixpoint (switches : List Switch) (r : Registry)
    {manifests kept selected : List Manifest}
    (hpaths : Distinct manifests) (hkept : kept.Sublist manifests) (hselected : selected.Perm kept) :
    (∀ (i : Nat) (m : Manifest), selected[i]? = some m → m.hasComments = false →
      ∃ m', (settle switches r selected).manifests[i]? = some m' ∧ m'.path = m.path ∧
        (repair (settle switches r selected).registry switches m').added = 0) ∧
    ∀ limit ≥ passLimit switches selected,
      (passes switches limit r selected).manifests =
          (passes switches (passLimit switches selected) r selected).manifests ∧
        (passes switches limit r selected).registry = (settle switches r selected).registry := by
  have hdistinct : Distinct selected :=
    (hselected.pairwise_iff fun hne hsame => hne hsame.symm).2 (hpaths.sublist hkept)
  refine ⟨fun i m hm hc => ?_, fun limit hlimit => ?_⟩
  · obtain ⟨m', hm', hgrows⟩ := grows_settle switches r hdistinct hm
    refine ⟨m', hm', hgrows.path, ?_⟩
    exact added_repair_eq_zero_iff.2 (settled_settle hdistinct hm' (hgrows.hasComments.trans hc))
  · have hslack := totalSlack_le_passLimit switches r selected
    induction hlimit with
    | refl => exact ⟨rfl, rfl⟩
    | step hlimit ih =>
      obtain ⟨hmanifests, hregistry⟩ := passes_succ hdistinct (Nat.le_trans hslack hlimit)
      exact ⟨hmanifests.trans ih.1, hregistry.trans ih.2⟩

/-- Two packages that depend on each other. -/
def cycle : List Manifest :=
  [("a", "b"), ("b", "a")].filterMap fun (name, other) =>
    Manifest.read? ⟨name⟩ s!"package.name=\"{name}\"\ndependencies.{other}=\"1\"\nfeatures.std=[\"x\"]\n"

theorem settle_reaches_fixpoint_cycle :
    Distinct cycle ∧ cycle.Sublist cycle ∧ cycle.Perm cycle ∧
      ∃ m, cycle[1]? = some m ∧ ∃ m',
        (settle [.std] (Registry.empty.scan cycle).1 cycle).manifests[1]? = some m' ∧
        m'.path = m.path ∧ (repair (settle [.std] (Registry.empty.scan cycle).1 cycle).registry
          [.std] m').added = 0 := by
  have hdistinct : Distinct cycle := by decide +kernel
  have htest : cycle[1]?.any (!·.hasComments) := by decide +kernel
  obtain ⟨m, hm, hc⟩ := (Option.any_eq_true _ _).1 htest
  obtain ⟨hfixpoint, -⟩ := settle_reaches_fixpoint [.std] (Registry.empty.scan cycle).1 hdistinct
    (.refl _) (.refl _)
  exact ⟨hdistinct, .refl _, .refl _, m, hm, hfixpoint 1 m hm (by simpa using hc)⟩

end FeatureForwarding.Forwarding
