import FeatureForwarding.Proofs.Forwarding.Settle
import Mathlib.Data.List.Find

/-! Which tokens a run adds. A manifest is asked for a token by a registry that it meets if the
first entry of the key whose package uses the switch is mandatory; an entry behind it is not looked
at, also where it differs in its package or its optional flag. -/

namespace FeatureForwarding.Forwarding

variable {switches : List Switch} {r : Registry} {m m' : Manifest} {ms : List Manifest} {i : Nat}
  {s : Switch} {key : String}

def Demands (r : Registry) (m : Manifest) (s : Switch) (key : String) : Prop :=
  ∃ d, firstUse? r m s key = some d ∧ d.optional = false

theorem demands_congr (h : m'.dependencies = m.dependencies) : Demands r m' s key ↔
    Demands r m s key := by
  simp only [Demands, firstUse?, h]

theorem forwards_repair (hstd : m.isNoStd) (htakes : m.takes s) (hs : s ∈ switches) (key : String) :
    (repair r switches m).manifest.forwards s key ↔ m.forwards s key ∨ Demands r m s key := by
  constructor
  · intro hnew
    by_cases hold : m.forwards s key
    · exact .inl hold
    · exact .inr (firstUse?_of_forwards_repair hnew (by simpa using hold)).2.2
  · rintro (hold | ⟨d, hd, hoptional⟩)
    · exact (grows_repair r switches m).forwards hold
    · by_cases hold : m.forwards s key
      · exact (grows_repair r switches m).forwards hold
      · have hfinding : .missingForwarding m.displayName key s false false ∈ findings r switches m :=
          (missingForwarding_mem_findings hs).2 ⟨hstd, rfl, rfl, by simpa using hold, d, hd,
            hoptional⟩
        refine ((answers_repair r switches m).forwards s key).2 (.inr ⟨_, hfinding, ?_, rfl⟩)
        simpa [Finding.isRepairable] using htakes

theorem forwards_of_settled (h : Settled r switches m) (hstd : m.isNoStd) (htakes : m.takes s)
    (hs : s ∈ switches)
    (hdemands : Demands r m s key) : m.forwards s key := by
  have hforwards := (forwards_repair (r := r) hstd htakes hs key).2 (.inr hdemands)
  rw [repair_of_settled h] at hforwards
  exact hforwards

/-- In a settled manifest what is asked for is there or has no place to stand. -/
theorem settled_iff : Settled r switches m ↔
    (m.isNoStd → ∀ s ∈ switches, m.takes s → ∀ key, Demands r m s key → m.forwards s key) := by
  refine ⟨fun h hstd s hs htakes key hdemands => forwards_of_settled h hstd htakes hs hdemands,
    fun h f hf => ?_⟩
  cases f with
  | missingForwarding package key s optional repaired =>
    have hs := switch_mem_of_mem_findings hf
    obtain ⟨hstd, -, -, hold, hdemands⟩ := (missingForwarding_mem_findings hs).1 hf
    apply Bool.eq_false_iff.2
    intro hrepairable
    obtain ⟨hoptional, htakes⟩ : optional = false ∧ m.takes s := by
      simpa [Finding.isRepairable] using hrepairable
    subst hoptional
    simp [h hstd s hs htakes key hdemands] at hold
  | _ => rfl

/-- The registries that the manifest at a place meets, pass by pass. -/
def met (switches : List Switch) : Nat → Registry → List Manifest → Nat → List Registry
  | 0, r, ms, i => ((meetings switches r ms)[i]?.map Prod.fst).toList
  | limit + 1, r, ms, i =>
    ((meetings switches r ms)[i]?.map Prod.fst).toList ++
      if (pass switches r ms).added = 0 then []
      else met switches limit (pass switches r ms).registry (pass switches r ms).manifests i

/-- A token is there in the end if it was there before or some registry on the way asked for it. -/
theorem forwards_passes (hm : ms[i]? = some m) (hc : m.hasComments = false) (hstd : m.isNoStd)
    (htakes : m.takes s)
    (hs : s ∈ switches) (limit : Nat) :
    ∃ m', (passes switches limit r ms).manifests[i]? = some m' ∧ m.Grows m' ∧
      ∀ key, m'.forwards s key ↔ m.forwards s key ∨ ∃ r' ∈ met switches limit r ms i,
        Demands r' m s key := by
  have hfirst : ∀ {r : Registry} {ms : List Manifest} {m : Manifest}, ms[i]? = some m →
    m.hasComments = false →
      m.isNoStd → m.takes s → ∃ r', (meetings switches r ms)[i]? = some (r', m) ∧
        ∃ m', (pass switches r ms).manifests[i]? = some m' ∧ m.Grows m' ∧
          ∀ key, m'.forwards s key ↔ m.forwards s key ∨ Demands r' m s key := by
    intro r ms m hm hc hstd htakes
    obtain ⟨r', hr'⟩ := exists_meeting_at switches r hm
    have hm' := getElem?_pass_of_meeting hr'
    rw [visit_of_not_hasComments hc] at hm'
    exact ⟨r', hr', _, hm', grows_repair r' switches m, forwards_repair hstd htakes hs⟩
  induction limit generalizing r ms m with
  | zero =>
    obtain ⟨r', hr', m', hm', hgrows, hforwards⟩ := hfirst (r := r) hm hc hstd htakes
    exact ⟨m', hm', hgrows, by simpa [met, hr'] using hforwards⟩
  | succ limit ih =>
    obtain ⟨r', hr', m₁, hm₁, hgrows, hforwards⟩ := hfirst (r := r) hm hc hstd htakes
    by_cases hadded : (pass switches r ms).added = 0
    · rw [passes, if_pos hadded]
      exact ⟨m₁, hm₁, hgrows, by simpa [met, hr', hadded] using hforwards⟩
    · obtain ⟨m', hm', hgrows', hforwards'⟩ := ih (r := (pass switches r ms).registry) hm₁
        (hgrows.hasComments.trans hc) (hgrows.isNoStd hstd) ((hgrows.takes s).trans htakes)
      simp only [passes, met, if_neg hadded]
      refine ⟨m', hm', hgrows.trans hgrows', fun key => ?_⟩
      rw [hforwards', hforwards]
      simp [hr', demands_congr hgrows.dependencies, or_assoc]

/-- Settling as a whole: what each manifest hands on that may be written. -/
theorem forwards_settle (hm : ms[i]? = some m) (hc : m.hasComments = false) (hstd : m.isNoStd)
    (htakes : m.takes s) (hs : s ∈ switches) :
    ∃ m', (settle switches r ms).manifests[i]? = some m' ∧ m.Grows m' ∧
      ∀ key, m'.forwards s key ↔
        m.forwards s key ∨ ∃ r' ∈ met switches (passLimit switches ms) r ms i,
          Demands r' m s key := by
  obtain ⟨m', hm', hgrows, hforwards⟩ :=
    forwards_passes (r := r) hm hc hstd htakes hs (passLimit switches ms)
  refine ⟨m', ?_, hgrows, hforwards⟩
  exact getElem?_settle_of_passes hm' (hgrows.hasComments.trans hc)

/-- Whatever was gained, some registry asked for it. -/
theorem demands_of_gained {limit : Nat} (hm : ms[i]? = some m)
    (hm' : (passes switches limit r ms).manifests[i]? = some m')
    (hnew : m'.forwards s key) (hold : m.forwards s key = false) :
    ∃ r' ∈ met switches limit r ms i, Demands r' m s key := by
  have hvisit {r : Registry} {m : Manifest} (hnew : (visit switches r m).manifest.forwards s key)
      (hold : m.forwards s key = false) : Demands r m s key := by
    by_cases hc : m.hasComments
    · rw [visit_of_hasComments hc, hold] at hnew
      exact absurd hnew (by simp)
    · rw [visit_of_not_hasComments (by simpa using hc)] at hnew
      exact (firstUse?_of_forwards_repair hnew hold).2.2
  induction limit generalizing r ms m with
  | zero =>
    obtain ⟨r', hr'⟩ := exists_meeting_at switches r hm
    obtain rfl := Option.some.inj ((getElem?_pass_of_meeting hr').symm.trans hm')
    exact ⟨r', by simp [met, hr'], hvisit hnew hold⟩
  | succ limit ih =>
    obtain ⟨r', hr'⟩ := exists_meeting_at switches r hm
    have hm₁ := getElem?_pass_of_meeting hr'
    have hgrows := grows_visit switches r' m
    by_cases hfirst : (visit switches r' m).manifest.forwards s key
    · exact ⟨r', by simp [met, hr'], hvisit hfirst hold⟩
    · by_cases hadded : (pass switches r ms).added = 0
      · rw [passes, if_pos hadded] at hm'
        obtain rfl := Option.some.inj (hm₁.symm.trans hm')
        exact absurd hnew hfirst
      · simp only [passes, if_neg hadded] at hm'
        obtain ⟨r'', hr'', hdemands⟩ := ih hm₁ hm' (by simpa using hfirst)
        refine ⟨r'', ?_, (demands_congr hgrows.dependencies).1 hdemands⟩
        rw [met, if_neg hadded, List.mem_append]
        exact .inr hr''

/-- If all entries of a key are about one package, the first one decides. -/
theorem demands_iff_of_package {package : String}
    (hpackage : ∀ d ∈ m.dependencies, d.key = key → d.package = package) :
    Demands r m s key ↔ r.uses package s ∧ ∃ d, m.dependencies.find? (·.key = key) = some d ∧
      d.optional = false := by
  have hfirst : firstUse? r m s key = if r.uses package s then m.dependencies.find? (·.key = key)
    else none := by
    unfold firstUse?
    split
    · next huses =>
      refine List.find?_congr fun d hd => ?_
      by_cases hkey : d.key = key
      · simp [hkey, hpackage d hd hkey, huses]
      · simp [hkey]
    · next huses =>
      refine List.find?_eq_none.2 fun d hd h => huses ?_
      obtain ⟨hkey, hused⟩ : d.key = key ∧ r.uses d.package s := by simpa using h
      exact hpackage d hd hkey ▸ hused
  rw [Demands, hfirst]
  split
  · next huses => simp [huses]
  · next huses => simp [huses]

end FeatureForwarding.Forwarding
