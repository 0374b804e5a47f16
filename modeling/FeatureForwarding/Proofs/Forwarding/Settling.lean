import FeatureForwarding.Proofs.Files.Path
import FeatureForwarding.Proofs.Forwarding.Pass

/-! Why the passes come to rest. A manifest has slack: the checked switches that its package may
still turn out to use. All of them, as long as the registry has not heard the manifest, since a
restored fact may give way to anything; afterwards those that activate nothing yet. A visit that
changes what is known uses up slack of the visited manifest, and nobody else's slack depends on
it, so that at most as many passes change what is known as there is slack at the start. -/

namespace FeatureForwarding.Forwarding

variable {switches : List Switch} {r r' : Registry} {m m' : Manifest} {ms : List Manifest}

open Classical in
noncomputable def slack (switches : List Switch) (r : Registry) (m : Manifest) : Nat :=
  if m.hasComments then 0
  else if ∃ name, r.Heard m name then switches.countP fun s => !m.activates s
  else switches.length

noncomputable def totalSlack (switches : List Switch) (r : Registry) : List Manifest → Nat
  | [] => 0
  | m :: rest => slack switches r m + totalSlack switches r rest

/-- No two of the manifests stand at the same path. -/
def Distinct (ms : List Manifest) : Prop := ms.Pairwise fun m m' => ¬m.path.Same m'.path

instance (ms : List Manifest) : Decidable (Distinct ms) :=
  inferInstanceAs (Decidable (ms.Pairwise fun m m' => ¬m.path.Same m'.path))

theorem slack_of_hasComments (h : m.hasComments) : slack switches r m = 0 := if_pos h

theorem slack_of_heard {name : String} (hc : m.hasComments = false) (h : r.Heard m name) :
    slack switches r m = switches.countP fun s => !m.activates s := by
  rw [slack, if_neg (by simp [hc]), if_pos ⟨name, h⟩]

theorem slack_of_not_heard (hc : m.hasComments = false) (h : ∀ name, ¬r.Heard m name) :
    slack switches r m = switches.length := by
  rw [slack, if_neg (by simp [hc]), if_neg (not_exists.2 h)]

theorem slack_le_length (switches : List Switch) (r : Registry) (m : Manifest) :
    slack switches r m ≤ switches.length := by
  unfold slack
  split
  · exact Nat.zero_le _
  split
  · exact List.countP_le_length
  · exact Nat.le_refl _

theorem totalSlack_le_passLimit (switches : List Switch) (r : Registry) (ms : List Manifest) :
    totalSlack switches r ms ≤ passLimit switches ms := by
  unfold passLimit
  induction ms with
  | nil => exact Nat.zero_le _
  | cons m rest ih =>
    rw [totalSlack, List.countP_cons]
    by_cases hc : m.hasComments
    · simpa [slack, hc] using ih
    · have hslack := slack_le_length switches r m
      simp only [hc, Bool.not_false, if_true, Nat.succ_mul]
      omega

/-! ### One visit -/

/-- The visit of a manifest leaves the slack of the others alone. -/
theorem slack_registryAfter (hpath : ¬m'.path.Same m.path) :
    slack switches (registryAfter switches r m) m' = slack switches r m' := by
  have hvisited : ¬m'.path.Same (visit switches r m).manifest.path := by
    rw [(grows_visit switches r m).path]
    exact hpath
  unfold registryAfter
  split
  · rfl
  · by_cases hc : m'.hasComments
    · rw [slack_of_hasComments hc, slack_of_hasComments hc]
    · have hc : m'.hasComments = false := by simpa using hc
      by_cases hheard : ∃ name, r.Heard m' name
      · obtain ⟨name, hname⟩ := hheard
        rw [slack_of_heard hc hname, slack_of_heard hc ((Registry.heard_refreshDirect_iff hvisited).2 hname)]
      · have hnot := not_exists.1 hheard
        have hnot' name := (not_congr (Registry.heard_refreshDirect_iff hvisited)).2 (hnot name)
        rw [slack_of_not_heard hc hnot, slack_of_not_heard hc hnot']

theorem countP_activates_le (h : m.Grows m') (switches : List Switch) :
    switches.countP (fun s => !m'.activates s) ≤ switches.countP fun s => !m.activates s := by
  apply List.countP_mono_left
  intro s _ hs
  by_cases hold : m.activates s
  · exact absurd (h.activates_mono hold) (by simpa using hs)
  · simpa using hold

theorem countP_activates_lt {s : Switch} (h : m.Grows m') (hs : s ∈ switches) (hnew : m'.activates s)
    (hold : m.activates s = false) :
    switches.countP (fun s => !m'.activates s) < switches.countP fun s => !m.activates s := by
  induction switches with
  | nil => exact absurd hs List.not_mem_nil
  | cons s' rest ih =>
    have hrest := countP_activates_le h rest
    rw [List.countP_cons, List.countP_cons]
    by_cases heq : s' = s
    · subst heq
      simp only [hnew, hold, Bool.not_true, Bool.not_false, Bool.false_eq_true, if_true, if_false]
      omega
    · have hlt := ih ((List.mem_cons.1 hs).resolve_left (Ne.symm heq))
      have hstep : (if !m'.activates s' then 1 else 0) ≤ if !m.activates s' then 1 else 0 := by
        by_cases hs' : m.activates s'
        · simp [hs', h.activates_mono hs']
        · simp only [hs', Bool.not_false, if_true]
          split <;> decide
      omega

/-- A visit that adds something puts a checked switch to use. -/
theorem exists_activates_of_added (h : (visit switches r m).added ≠ 0) :
    ∃ s ∈ switches, (visit switches r m).manifest.activates s := by
  have hc := hasComments_of_added h
  rw [visit_of_not_hasComments hc] at h ⊢
  obtain ⟨s, hs, k, hnew, hold⟩ := exists_forwards_of_added h
  exact ⟨s, hs, (grows_repair r switches m).activates.2 (.inr ⟨k, hnew, hold⟩)⟩

/-- What a manifest activates that was heard before is news only if there is more of it. -/
theorem agree_refreshDirect_of_heard {name : String} (h : r.Heard m name) (hgrows : m.Grows m')
    (hsame : ∀ s ∈ switches, m'.activates s → m.activates s) :
    Registry.Agree switches r (r.refreshDirect m') := by
  have haccepts : r.Accepts m' name := by
    obtain ⟨hpackage, hfirst⟩ := h.accepts
    exact ⟨hgrows.packageName?.trans hpackage, hgrows.path ▸ hfirst⟩
  intro other s hs
  rw [(Registry.refreshDirect_of_accepts haccepts).1]
  split
  · next hother =>
    rw [hother, h.uses, Bool.eq_iff_iff]
    exact ⟨hgrows.activates_mono, hsame s hs⟩
  · rfl

/-- A visit never makes slack, and uses some up if it changes what is known. -/
theorem slack_visit (switches : List Switch) (r : Registry) (m : Manifest) :
    slack switches (registryAfter switches r m) (visit switches r m).manifest ≤ slack switches r m ∧
      (Registry.Agree switches r (registryAfter switches r m) ∨
        slack switches (registryAfter switches r m)
          (visit switches r m).manifest < slack switches r m) := by
  by_cases hadded : (visit switches r m).added = 0
  · have hsame : registryAfter switches r m = r := if_pos hadded
    rw [manifest_visit_of_added hadded, hsame]
    exact ⟨Nat.le_refl _, .inl (.refl switches r)⟩
  have hc := hasComments_of_added hadded
  have hactive := exists_activates_of_added hadded
  have hgrows := grows_visit switches r m
  rw [show registryAfter switches r m = r.refreshDirect (visit switches r m).manifest from if_neg hadded]
  generalize (visit switches r m).manifest = m' at *
  have hc' : m'.hasComments = false := hgrows.hasComments.trans hc
  by_cases haccepts : ∃ name, r.Accepts m' name
  · obtain ⟨name, hname⟩ := haccepts
    rw [slack_of_heard hc' (Registry.heard_refreshDirect hname)]
    by_cases hheard : ∃ name, r.Heard m name
    · obtain ⟨name', hname'⟩ := hheard
      rw [slack_of_heard hc hname']
      refine ⟨countP_activates_le hgrows switches, ?_⟩
      by_cases hmore : ∃ s ∈ switches, m'.activates s ∧ m.activates s = false
      · obtain ⟨s, hs, hnew, hold⟩ := hmore
        exact .inr (countP_activates_lt hgrows hs hnew hold)
      · refine .inl (agree_refreshDirect_of_heard hname' hgrows fun s hs hnew => ?_)
        by_cases hold : m.activates s
        · exact hold
        · exact absurd ⟨s, hs, hnew, by simpa using hold⟩ hmore
    · -- the registry hears the manifest for the first time, and it uses one of the switches already
      obtain ⟨s, hs, hnew⟩ := hactive
      have hlt : switches.countP (fun s => !m'.activates s) < switches.length := by
        apply Nat.lt_of_le_of_ne List.countP_le_length
        intro hall
        have hnone := List.countP_eq_length.1 hall s hs
        simp [hnew] at hnone
      rw [slack_of_not_heard hc (not_exists.1 hheard)]
      exact ⟨Nat.le_of_lt hlt, .inr hlt⟩
  · have hnot : ∀ name, ¬r.Heard m name := fun name h =>
      haccepts ⟨name, hgrows.packageName?.trans h.package, hgrows.path ▸ h.accepts.2⟩
    rw [Registry.refreshDirect_of_not_accepts (not_exists.1 haccepts), slack_of_not_heard hc hnot]
    exact ⟨slack_le_length switches r m', .inl (.refl switches r)⟩

/-! ### One pass -/

theorem Distinct.not_same (h : Distinct (m :: ms)) : ∀ m' ∈ ms, ¬m.path.Same m'.path :=
  (List.pairwise_cons.1 h).1

theorem Distinct.tail (h : Distinct (m :: ms)) : Distinct ms := (List.pairwise_cons.1 h).2

theorem Distinct.eq_of_same (h : Distinct ms) (hm : m ∈ ms) (hm' : m' ∈ ms)
    (hsame : m.path.Same m'.path) : m = m' :=
  Files.Path.eq_of_same h hm hm' hsame

theorem slack_pass (hpath : ∀ other ∈ ms, ¬m.path.Same other.path) :
    slack switches (pass switches r ms).registry m = slack switches r m := by
  induction ms generalizing r with
  | nil => rfl
  | cons other rest ih =>
    rw [pass_cons]
    refine (ih fun other' hmem => hpath other' (List.mem_cons_of_mem _ hmem)).trans ?_
    exact slack_registryAfter (hpath other List.mem_cons_self)

theorem totalSlack_registryAfter (switches : List Switch) (r : Registry)
    (hpath : ∀ other ∈ ms, ¬m.path.Same other.path) :
    totalSlack switches (registryAfter switches r m) ms = totalSlack switches r ms := by
  induction ms with
  | nil => rfl
  | cons other rest ih =>
    rw [totalSlack, totalSlack, ih fun other' hmem => hpath other' (List.mem_cons_of_mem _ hmem),
      slack_registryAfter fun hsame => hpath other List.mem_cons_self hsame.symm]

/-- A pass never makes slack, and uses some up unless it is calm. -/
theorem totalSlack_pass (switches : List Switch) (h : Distinct ms) (r : Registry) :
    totalSlack switches (pass switches r ms).registry (pass switches r ms).manifests ≤
      totalSlack switches r ms ∧
      (Registry.Agree switches r (pass switches r ms).registry ∧ Calm switches r ms ∨
        totalSlack switches (pass switches r ms).registry (pass switches r ms).manifests <
          totalSlack switches r ms) := by
  induction ms generalizing r with
  | nil => exact ⟨Nat.le_refl _, .inl ⟨.refl switches r, by simp [Calm, meetings]⟩⟩
  | cons m rest ih =>
    have hpass := pass_cons switches r m rest
    have hlater := ih h.tail (registryAfter switches r m)
    have hvisit := slack_visit switches r m
    have hothers := totalSlack_registryAfter switches r h.not_same
    have hown : slack switches (pass switches (registryAfter switches r m) rest).registry
      (visit switches r m).manifest =
        slack switches (registryAfter switches r m) (visit switches r m).manifest := by
      apply slack_pass
      intro other hmem
      rw [(grows_visit switches r m).path]
      exact h.not_same other hmem
    have hbefore : totalSlack switches r (m :: rest) = slack switches r m + totalSlack switches r
      rest := rfl
    have hafter : totalSlack switches (pass switches r (m :: rest)).registry
      (pass switches r (m :: rest)).manifests =
        slack switches (registryAfter switches r m) (visit switches r m).manifest +
          totalSlack switches (pass switches (registryAfter switches r m) rest).registry
            (pass switches (registryAfter switches r m) rest).manifests := by
      rw [hpass, ← hown]
      rfl
    rw [hbefore, hafter]
    refine ⟨by omega, ?_⟩
    rcases hvisit.2 with hagree | hlt
    · rcases hlater.2 with ⟨hrest, hcalm⟩ | hlt
      · have hregistry : (pass switches r (m :: rest)).registry =
            (pass switches (registryAfter switches r m) rest).registry := by rw [hpass]
        refine .inl ⟨hregistry ▸ hagree.trans hrest, fun e he => ?_⟩
        rw [hregistry]
        rcases List.mem_cons.1 he with rfl | he
        · exact hagree.trans hrest
        · exact hcalm e he
      · exact .inr (by omega)
    · exact .inr (by omega)

/-! ### All passes -/

/-- Passes, the last of them calm. Of those before only the repairs are reported. -/
inductive Rounds (switches : List Switch) : Registry → List Manifest → Progress → Prop
  | last {r : Registry} {ms : List Manifest} (calm : Calm switches r ms) : Rounds switches r ms (pass switches r ms)
  | more {r : Registry} {ms : List Manifest} {later : Progress}
      (rest : Rounds switches (pass switches r ms).registry (pass switches r ms).manifests later) :
      Rounds switches r ms { later with
        report := (pass switches r ms).report.keepRepaired ++ later.report
        added := (pass switches r ms).added + later.added }

theorem distinct_pass (h : Distinct ms) (r : Registry) : Distinct (pass switches r ms).manifests := by
  have hpaths (l : List Manifest) : Distinct l ↔ (l.map (·.path)).Pairwise fun p q => ¬p.Same q := by
    rw [List.pairwise_map]
    rfl
  rw [hpaths, paths_pass, ← hpaths]
  exact h

/-- Once everything is settled, the next pass is the last one. -/
theorem passes_of_allSettled (h : AllSettled switches r ms) (limit : Nat) :
    passes switches limit r ms = pass switches r ms := by
  cases limit with
  | zero => rfl
  | succ limit => rw [passes, if_pos (pass_of_allSettled h).2.2.1]

/-- With a limit of at least the slack the passes end with a calm one. -/
theorem rounds_passes {limit : Nat} (h : Distinct ms) (hlimit : totalSlack switches r ms ≤ limit) :
    Rounds switches r ms (passes switches limit r ms) := by
  induction limit generalizing r ms with
  | zero =>
    rcases (totalSlack_pass switches h r).2 with ⟨-, hcalm⟩ | hlt
    · exact .last hcalm
    · omega
  | succ limit ih =>
    rw [passes]
    split
    · next hadded => exact .last (calm_of_allSettled (allSettled_of_added hadded))
    · refine .more ?_
      rcases (totalSlack_pass switches h r).2 with ⟨-, hcalm⟩ | hlt
      · have hsettled := allSettled_of_calm hcalm
        rw [passes_of_allSettled hsettled]
        exact .last (calm_of_allSettled hsettled)
      · exact ih (distinct_pass h r) (by omega)

/-- What passes leave behind, pass by pass. -/
theorem left_passes (switches : List Switch) (limit : Nat) (r : Registry) (ms : List Manifest) :
    (passes switches (limit + 1) r ms).manifests =
        (passes switches limit (pass switches r ms).registry
          (pass switches r ms).manifests).manifests ∧
      (passes switches (limit + 1) r ms).registry =
        (passes switches limit (pass switches r ms).registry
          (pass switches r ms).manifests).registry := by
  by_cases hadded : (pass switches r ms).added = 0
  · have hsettled := allSettled_of_added hadded
    obtain ⟨hmanifests, hregistry, -⟩ := pass_of_allSettled hsettled
    rw [passes_of_allSettled hsettled, hmanifests, hregistry, passes_of_allSettled hsettled]
    exact ⟨hmanifests.symm, hregistry.symm⟩
  · simp only [passes, if_neg hadded, and_self]

/-- With that much of a limit, one more pass changes nothing. -/
theorem passes_succ {limit : Nat} (h : Distinct ms) (hlimit : totalSlack switches r ms ≤ limit) :
    (passes switches (limit + 1) r ms).manifests = (passes switches limit r ms).manifests ∧
      (passes switches (limit + 1) r ms).registry = (passes switches limit r ms).registry := by
  induction limit generalizing r ms with
  | zero =>
    obtain ⟨hmanifests, hregistry⟩ := left_passes switches 0 r ms
    rcases (totalSlack_pass switches h r).2 with ⟨-, hcalm⟩ | hlt
    · obtain ⟨hsame, hsame', -⟩ := pass_of_allSettled (allSettled_of_calm hcalm)
      exact ⟨hmanifests.trans hsame, hregistry.trans hsame'⟩
    · omega
  | succ limit ih =>
    obtain ⟨hmanifests, hregistry⟩ := left_passes switches (limit + 1) r ms
    obtain ⟨hmanifests', hregistry'⟩ := left_passes switches limit r ms
    rw [hmanifests, hregistry, hmanifests', hregistry']
    rcases (totalSlack_pass switches h r).2 with ⟨-, hcalm⟩ | hlt
    · have hsettled := allSettled_of_calm hcalm
      rw [passes_of_allSettled hsettled, passes_of_allSettled hsettled]
      exact ⟨rfl, rfl⟩
    · exact ih (distinct_pass h r) (by omega)

theorem Rounds.allSettled {result : Progress} (h : Rounds switches r ms result) :
    AllSettled switches result.registry result.manifests := by
  induction h with
  | last calm => exact allSettled_of_calm calm
  | more _ ih => exact ih

theorem rounds_settle (switches : List Switch) (h : Distinct ms) (r : Registry) :
    Rounds switches r ms (passes switches (passLimit switches ms) r ms) :=
  rounds_passes h (totalSlack_le_passLimit switches r ms)

end FeatureForwarding.Forwarding
