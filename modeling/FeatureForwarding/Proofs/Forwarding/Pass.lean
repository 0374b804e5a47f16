import FeatureForwarding.Proofs.Forwarding.Repair
import FeatureForwarding.Proofs.Registry.Refresh

/-! One pass as a list of meetings, each of a manifest with the registry that the ones before left
behind. A pass is calm if all of them met the same knowledge; whatever a calm pass leaves behind is
settled. -/

namespace FeatureForwarding.Forwarding

variable {switches : List Switch} {r r' : Registry} {m m' : Manifest} {ms : List Manifest}

/-- What a pass does with one manifest. -/
def visit (switches : List Switch) (r : Registry) (m : Manifest) : Repair :=
  if m.hasComments then ⟨m, []⟩ else repair r switches m

/-- The registry that the next manifest meets. -/
def registryAfter (switches : List Switch) (r : Registry) (m : Manifest) : Registry :=
  if (visit switches r m).added = 0 then r else r.refreshDirect (visit switches r m).manifest

def meetings (switches : List Switch) (r : Registry) : List Manifest → List (Registry × Manifest)
  | [] => []
  | m :: rest => (r, m) :: meetings switches (registryAfter switches r m) rest

theorem pass_cons (switches : List Switch) (r : Registry) (m : Manifest) (rest : List Manifest) :
    pass switches r (m :: rest) =
      let later := pass switches (registryAfter switches r m) rest
      ⟨(visit switches r m).manifest :: later.manifests, later.registry,
        (visit switches r m).report ++ later.report,
        (visit switches r m).added + later.added⟩ := by
  by_cases h : m.hasComments
  · have hadded : (visit switches r m).added = 0 := by simp [visit, h, Repair.added]
    rw [registryAfter, if_pos hadded, hadded]
    simp [pass, visit, h, Repair.report, diagnosticsAt]
  · rw [registryAfter, visit, if_neg h, pass, if_neg h]

theorem visit_of_not_hasComments (h : m.hasComments = false) :
    visit switches r m = repair r switches m := by
  simp [visit, h]

theorem visit_of_hasComments (h : m.hasComments) : visit switches r m = ⟨m, []⟩ := by
  simp [visit, h]

theorem hasComments_of_added (h : (visit switches r m).added ≠ 0) : m.hasComments = false := by
  by_cases hc : m.hasComments
  · exact absurd (by rw [visit_of_hasComments hc]; rfl) h
  · simpa using hc

theorem grows_visit (switches : List Switch) (r : Registry) (m : Manifest) :
    m.Grows (visit switches r m).manifest := by
  unfold visit
  split
  · exact .refl
  · exact grows_repair r switches m

theorem added_visit_of_settled (h : m.hasComments = false → Settled r switches m) :
    (visit switches r m).added = 0 := by
  by_cases hc : m.hasComments
  · rw [visit_of_hasComments hc]
    rfl
  · rw [visit_of_not_hasComments (by simpa using hc)]
    exact added_repair_eq_zero_iff.2 (h (by simpa using hc))

theorem manifest_visit_of_added (h : (visit switches r m).added = 0) :
    (visit switches r m).manifest = m := by
  by_cases hc : m.hasComments
  · rw [visit_of_hasComments hc]
  · rw [visit_of_not_hasComments (by simpa using hc)] at h ⊢
    rw [repair_of_settled (added_repair_eq_zero_iff.1 h)]

/-! ### The meetings of a pass -/

theorem manifests_pass (switches : List Switch) (r : Registry) (ms : List Manifest) :
    (pass switches r ms).manifests = (meetings switches r ms).map fun e => (visit switches e.1 e.2).manifest := by
  induction ms generalizing r with
  | nil => rfl
  | cons m rest ih => rw [pass_cons, meetings, List.map_cons, ← ih]

theorem manifests_meetings (switches : List Switch) (r : Registry) (ms : List Manifest) :
    (meetings switches r ms).map Prod.snd = ms := by
  induction ms generalizing r with
  | nil => rfl
  | cons m rest ih => rw [meetings, List.map_cons, ih]

theorem mem_of_mem_meetings {e : Registry × Manifest} (h : e ∈ meetings switches r ms) :
    e.2 ∈ ms := by
  rw [← manifests_meetings switches r ms]
  exact List.mem_map_of_mem h

theorem mem_manifests_pass :
    m' ∈ (pass switches r ms).manifests ↔
      ∃ e ∈ meetings switches r ms, (visit switches e.1 e.2).manifest = m' := by
  rw [manifests_pass, List.mem_map]

theorem paths_pass (switches : List Switch) (r : Registry) (ms : List Manifest) :
    (pass switches r ms).manifests.map (·.path) = ms.map (·.path) := by
  rw [manifests_pass, List.map_map, ← manifests_meetings switches r ms, List.map_map,
    manifests_meetings]
  apply List.map_congr_left
  intro e _
  exact (grows_visit switches e.1 e.2).path

theorem added_pass : (pass switches r ms).added = 0 ↔
    ∀ e ∈ meetings switches r ms, (visit switches e.1 e.2).added = 0 := by
  induction ms generalizing r with
  | nil => simp [pass, meetings]
  | cons m rest ih => rw [pass_cons, meetings, List.forall_mem_cons, Nat.add_eq_zero_iff, ih]

/-! ### Calm passes -/

/-- Nothing that the pass did changed what is known about the switches. -/
def Calm (switches : List Switch) (r : Registry) (ms : List Manifest) : Prop :=
  ∀ e ∈ meetings switches r ms, Registry.Agree switches e.1 (pass switches r ms).registry

/-- All manifests that may be written are settled. -/
def AllSettled (switches : List Switch) (r : Registry) (ms : List Manifest) : Prop :=
  ∀ m ∈ ms, m.hasComments = false → Settled r switches m

theorem allSettled_of_calm (h : Calm switches r ms) :
    AllSettled switches (pass switches r ms).registry (pass switches r ms).manifests := by
  intro m' hm' hc
  obtain ⟨e, he, rfl⟩ := mem_manifests_pass.1 hm'
  rw [(grows_visit switches e.1 e.2).hasComments] at hc
  rw [visit_of_not_hasComments hc]
  exact (settled_repair e.1 switches e.2).congr (h e he)

/-- A pass over settled manifests changes nothing. -/
theorem pass_of_allSettled (h : AllSettled switches r ms) :
    (pass switches r ms).manifests = ms ∧ (pass switches r ms).registry = r ∧
      (pass switches r ms).added = 0 ∧
      ∀ e ∈ meetings switches r ms, e.1 = r := by
  induction ms with
  | nil => exact ⟨rfl, rfl, rfl, by simp [meetings]⟩
  | cons m rest ih =>
    have hadded := added_visit_of_settled (h m List.mem_cons_self)
    have hnext : registryAfter switches r m = r := if_pos hadded
    obtain ⟨hmanifests, hregistry, hnone, hmeetings⟩ :=
      ih fun m' hm' => h m' (List.mem_cons_of_mem _ hm')
    rw [pass_cons, hnext, meetings, hnext, hadded, manifest_visit_of_added hadded]
    refine ⟨by simp only [hmanifests], hregistry, by simp only [hnone], ?_⟩
    simpa using hmeetings

theorem calm_of_allSettled (h : AllSettled switches r ms) : Calm switches r ms := by
  obtain ⟨-, hregistry, -, hmeetings⟩ := pass_of_allSettled h
  intro e he
  rw [hmeetings e he, hregistry]
  exact .refl switches r

theorem allSettled_of_added (h : (pass switches r ms).added = 0) : AllSettled switches r ms := by
  induction ms with
  | nil => simp [AllSettled]
  | cons m rest ih =>
    rw [pass_cons] at h
    obtain ⟨hadded, hrest⟩ := Nat.add_eq_zero_iff.1 h
    rw [registryAfter, if_pos hadded] at hrest
    refine fun m' hm' hc => (List.mem_cons.1 hm').elim (fun heq => ?_) fun hmem => ih hrest m' hmem hc
    subst heq
    rw [visit_of_not_hasComments hc] at hadded
    exact added_repair_eq_zero_iff.1 hadded

end FeatureForwarding.Forwarding
