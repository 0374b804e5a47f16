import FeatureForwarding.Forwarding.Repair
import FeatureForwarding.Proofs.Forwarding.Findings

/-! The repair of one manifest. It reports what a check reports and marks what it repairs: the
missing tokens of mandatory dependencies whose lists have room. Afterwards the same registry
finds exactly what was not repaired. -/

namespace FeatureForwarding

namespace Finding

/-- Whether a repair of the manifest answers the finding. -/
def isRepairable (m : Manifest) : Finding → Bool
  | .missingForwarding _ _ s optional _ => !optional && m.takes s
  | _ => false

def markRepaired : Finding → Finding
  | .missingForwarding package dependency s optional _ => .missingForwarding package dependency s optional true
  | finding => finding

@[simp] theorem token?_markRepaired (f : Finding) : f.markRepaired.token? = f.token? := by
  cases f <;> rfl

/-- The findings of a repair, given those of the check. -/
def afterRepair (m : Manifest) (f : Finding) : Finding :=
  if f.isRepairable m then f.markRepaired else f

@[simp] theorem token?_afterRepair (m : Manifest) (f : Finding) :
    (f.afterRepair m).token? = f.token? := by
  unfold afterRepair
  split <;> simp

theorem isRepaired_afterRepair {m : Manifest} {f : Finding} (h : f.isRepaired = false) :
    (f.afterRepair m).isRepaired = f.isRepairable m := by
  cases f with
  | missingForwarding package dependency s optional repaired =>
    unfold afterRepair
    split
    · next hr => exact hr.symm
    · next hr => rw [h]; simpa using hr
  | _ => rfl

theorem isRepairable_congr {m m' : Manifest} (h : ∀ s, m'.takes s = m.takes s) (f : Finding) :
    f.isRepairable m' = f.isRepairable m := by
  cases f <;> simp [isRepairable, h]

theorem afterRepair_congr {m m' : Manifest} (h : ∀ s, m'.takes s = m.takes s) (f : Finding) :
    f.afterRepair m' = f.afterRepair m := by
  simp only [afterRepair, isRepairable_congr h]

end Finding

namespace Forwarding

variable {r r' : Registry} {switches : List Switch} {m m' : Manifest}

/-- What the findings to repair have in common: each names a token that is missing, no two the same
one, and none is marked yet. -/
structure Pending (m : Manifest) (fs : List Finding) : Prop where
  missing : ∀ f ∈ fs, ∀ t, f.token? = some t → m.forwards t.2 t.1 = false
  distinct : (fs.filterMap Finding.token?).Nodup
  unmarked : ∀ f ∈ fs, f.isRepaired = false

theorem pending_findings (r : Registry) (switches : List Switch) (m : Manifest) :
    Pending m (findings r switches m) where
  missing f hf t ht := by
    cases f with
    | missingForwarding package key s optional repaired =>
      obtain rfl := Option.some.inj ht
      exact ((missingForwarding_mem_findings (switch_mem_of_mem_findings hf)).1 hf).2.2.2.1
    | _ => exact absurd ht (by simp [Finding.token?])
  distinct := nodup_tokens_findings r switches m
  unmarked f hf := by
    cases f with
    | missingForwarding package key s optional repaired =>
      exact ((missingForwarding_mem_findings (switch_mem_of_mem_findings hf)).1 hf).2.2.1
    | _ => rfl

/-- What a repair does to a manifest and its findings. -/
structure Repair.Answers (repaired : Repair) (m : Manifest) (fs : List Finding) : Prop where
  grows : m.Grows repaired.manifest
  findings : repaired.findings = fs.map (·.afterRepair m)
  forwards : ∀ s k, repaired.manifest.forwards s k ↔
    m.forwards s k ∨ ∃ f ∈ fs, f.isRepairable m ∧ f.token? = some (k, s)

theorem Pending.tail {f : Finding} {fs : List Finding} (h : Pending m (f :: fs)) : Pending m fs where
  missing g hg := h.missing g (List.mem_cons_of_mem _ hg)
  distinct := by
    have hd := h.distinct
    rw [List.filterMap_cons] at hd
    split at hd
    · exact hd
    · exact (List.nodup_cons.1 hd).2
  unmarked g hg := h.unmarked g (List.mem_cons_of_mem _ hg)

/-- A token that was just added is not asked for again. -/
theorem Pending.add {f : Finding} {fs : List Finding} {key : String} {s : Switch}
    (h : Pending m (f :: fs))
    (ht : f.token? = some (key, s)) (hadd : m.addForwarding? s key = some m') : Pending m' fs where
  missing g hg t hgt := by
    have hd := h.distinct
    rw [List.filterMap_cons, ht] at hd
    have hne : t ≠ (key, s) := fun heq =>
      (List.nodup_cons.1 hd).1 (List.mem_filterMap.2 ⟨g, hg, heq ▸ hgt⟩)
    have hold := h.missing g (List.mem_cons_of_mem _ hg) t hgt
    apply Bool.eq_false_iff.2
    intro hnew
    rcases (Manifest.forwards_addForwarding? hadd t.2 t.1).1 hnew with hnew | ⟨hs, hk⟩
    · exact absurd hnew (by simp [hold])
    · exact hne (Prod.ext hk hs)
  distinct := h.tail.distinct
  unmarked := h.tail.unmarked

/-- A finding that is not repaired leaves the repair to the others. -/
theorem Repair.Answers.skip {repaired : Repair} {f : Finding} {fs : List Finding}
    (h : repaired.Answers m fs)
    (hf : f.isRepairable m = false) : Repair.Answers ⟨repaired.manifest, f :: repaired.findings⟩ m
    (f :: fs) where
  grows := h.grows
  findings := by simp [h.findings, Finding.afterRepair, hf]
  forwards s k := by simp [h.forwards, hf]

/-- The first finding is answered by its token, or it is left and the others are repaired. -/
theorem repairFindings_cons {f : Finding} {fs : List Finding} (h : Pending m (f :: fs)) :
    (f.isRepairable m = false ∧
      repairFindings m (f :: fs) = ⟨(repairFindings m fs).manifest, f :: (repairFindings m fs).findings⟩) ∨
    ∃ key s m', f.isRepairable m ∧ f.token? = some (key, s) ∧ m.addForwarding? s key = some m' ∧
      repairFindings m (f :: fs) =
        ⟨(repairFindings m' fs).manifest, f.markRepaired :: (repairFindings m' fs).findings⟩ := by
  cases f with
  | missingForwarding package key s optional repaired =>
    cases optional with
    | true => exact .inl ⟨rfl, rfl⟩
    | false =>
      rw [repairFindings]
      cases hadd : m.addForwarding? s key with
      | none =>
        have htakes := Manifest.not_takes_of_addForwarding? hadd (h.missing _ List.mem_cons_self _ rfl)
        exact .inl ⟨by simp [Finding.isRepairable, htakes], rfl⟩
      | some m' =>
        have htakes := Manifest.takes_of_addForwarding? hadd
        exact .inr ⟨key, s, m', by simp [Finding.isRepairable, htakes], rfl, hadd, rfl⟩
  | _ => exact .inl ⟨rfl, rfl⟩

theorem answers_repairFindings {fs : List Finding} (h : Pending m fs) :
    (repairFindings m fs).Answers m fs := by
  induction fs generalizing m with
  | nil => exact ⟨.refl, rfl, by simp [repairFindings]⟩
  | cons f fs ih =>
    obtain ⟨hf, hrepaired⟩ | ⟨key, s, m', hf, htoken, added, hrepaired⟩ := repairFindings_cons h
    · rw [hrepaired]
      exact (ih h.tail).skip hf
    · have hsame := Manifest.takes_addForwarding? added
      obtain ⟨hgrows, hfindings, hforwards⟩ := ih (h.add htoken added)
      rw [hrepaired]
      refine ⟨(Manifest.Grows.refl.add added).trans hgrows, ?_, fun s' k => (hforwards s' k).trans ?_⟩
      · rw [List.map_cons, Finding.afterRepair, hf, if_pos rfl, hfindings]
        simp only [Finding.afterRepair_congr hsame]
      · simp only [Manifest.forwards_addForwarding? added, Finding.isRepairable_congr hsame,
          List.mem_cons, exists_eq_or_imp, hf, htoken, Option.some.injEq, Prod.mk.injEq, true_and, or_assoc,
          eq_comm (a := key), eq_comm (a := s), and_comm (a := k = key)]

theorem answers_repair (r : Registry) (switches : List Switch) (m : Manifest) :
    (repair r switches m).Answers m (findings r switches m) :=
  answers_repairFindings (pending_findings r switches m)

theorem grows_repair (r : Registry) (switches : List Switch) (m : Manifest) :
    m.Grows (repair r switches m).manifest :=
  (answers_repair r switches m).grows

/-! ### Settled manifests -/

/-- Nothing is left to repair. -/
def Settled (r : Registry) (switches : List Switch) (m : Manifest) : Prop :=
  ∀ f ∈ findings r switches m, f.isRepairable m = false

theorem Settled.congr (h : Settled r switches m) (hr : Registry.Agree switches r r') :
    Settled r' switches m := by
  unfold Settled
  rw [← findings_congr hr]
  exact h

theorem added_repair (r : Registry) (switches : List Switch) (m : Manifest) :
    (repair r switches m).added = (findings r switches m).countP (·.isRepairable m) := by
  rw [Repair.added, (answers_repair r switches m).findings, List.countP_map]
  apply List.countP_congr
  intro f hf
  simp [Finding.isRepaired_afterRepair ((pending_findings r switches m).unmarked f hf)]

theorem added_repair_eq_zero_iff : (repair r switches m).added = 0 ↔ Settled r switches m := by
  simp [added_repair, List.countP_eq_zero, Settled]

theorem repairFindings_of_settled {fs : List Finding} (h : ∀ f ∈ fs, f.isRepairable m = false)
    (hp : Pending m fs) : repairFindings m fs = ⟨m, fs⟩ := by
  induction fs with
  | nil => rfl
  | cons f fs ih =>
    obtain ⟨hf, hfs⟩ := List.forall_mem_cons.1 h
    obtain ⟨-, hrepaired⟩ | ⟨key, s, m', hrepairable, -⟩ := repairFindings_cons hp
    · rw [hrepaired, ih hfs hp.tail]
    · exact absurd hrepairable (by simp [hf])

theorem repair_of_settled (h : Settled r switches m) :
    repair r switches m = ⟨m, findings r switches m⟩ :=
  repairFindings_of_settled h (pending_findings r switches m)

/-- Two findings about one token say the same. -/
theorem eq_of_token?_eq {f g : Finding} {t : String × Switch} (hf : f ∈ findings r switches m)
    (hg : g ∈ findings r switches m) (hft : f.token? = some t) (hgt : g.token? = some t) : f = g := by
  cases f with
  | missingForwarding package key s optional repaired =>
    cases g with
    | missingForwarding package' key' s' optional' repaired' =>
      obtain rfl := Option.some.inj hft
      obtain ⟨rfl, rfl⟩ := Prod.mk.inj (Option.some.inj hgt)
      have hs := switch_mem_of_mem_findings hf
      obtain ⟨-, rfl, rfl, -, d, hd, rfl⟩ := (missingForwarding_mem_findings hs).1 hf
      obtain ⟨-, rfl, rfl, -, d', hd', rfl⟩ := (missingForwarding_mem_findings hs).1 hg
      obtain rfl := Option.some.inj (hd.symm.trans hd')
      rfl
    | _ => exact absurd hgt (by simp [Finding.token?])
  | _ => exact absurd hft (by simp [Finding.token?])

theorem findings_of_not_isNoStd (h : ¬m.isNoStd) : findings r switches m = [] := by
  rw [findings, if_neg h]

/-- Against the same registry a repaired manifest shows what was not repaired, in the same order. -/
theorem findings_repair (r : Registry) (switches : List Switch) (m : Manifest) :
    findings r switches (repair r switches m).manifest =
      (repair r switches m).findings.filter fun f => !f.isRepaired := by
  by_cases hstd : m.isNoStd
  · have hp := pending_findings r switches m
    obtain ⟨hgrows, hfindings, hforwards⟩ := answers_repair r switches m
    have hanswered : ∀ f ∈ findings r switches m,
        (f.token?.all fun t => !(repair r switches m).manifest.forwards t.2 t.1)
          = !f.isRepairable m := by
      intro f hf
      cases ht : f.token? with
      | none =>
        cases f with
        | missingForwarding => exact absurd ht (by simp [Finding.token?])
        | _ => rfl
      | some t =>
        obtain ⟨k, s⟩ := t
        have hnew : (repair r switches m).manifest.forwards s k = f.isRepairable m := by
          rw [Bool.eq_iff_iff, hforwards, hp.missing f hf _ ht]
          refine ⟨fun h => ?_, fun h => .inr ⟨f, hf, h, ht⟩⟩
          obtain ⟨g, hg, hrepairable, hgt⟩ := h.resolve_left (by simp)
          exact eq_of_token?_eq hg hf hgt ht ▸ hrepairable
        rw [Option.all_some, hnew]
    have hunmarked : ∀ f ∈ findings r switches m,
        (!(f.afterRepair m).isRepaired) = !f.isRepairable m := by
      intro f hf
      rw [Finding.isRepaired_afterRepair (hp.unmarked f hf)]
    have hkept : ∀ f ∈ (findings r switches m).filter fun f => !f.isRepairable m,
      f.afterRepair m = f := by
      intro f hf
      have hnot := (List.mem_filter.1 hf).2
      rw [Finding.afterRepair, if_neg (by simpa using hnot)]
    rw [findings_grows hgrows hstd, List.filter_congr hanswered, hfindings, List.filter_map]
    change _ = List.map _ (List.filter (fun f : Finding => !(f.afterRepair m).isRepaired) _)
    rw [List.filter_congr hunmarked, List.map_congr_left hkept, List.map_id']
  · have hnone : findings r switches m = [] := findings_of_not_isNoStd hstd
    have hsettled : Settled r switches m := by simp [Settled, hnone]
    simp [repair_of_settled hsettled, hnone]

theorem settled_repair (r : Registry) (switches : List Switch) (m : Manifest) :
    Settled r switches (repair r switches m).manifest := by
  intro f hf
  obtain ⟨hgrows, hfindings, -⟩ := answers_repair r switches m
  rw [findings_repair, hfindings] at hf
  obtain ⟨hmem, hunrepaired⟩ := List.mem_filter.1 hf
  obtain ⟨g, hg, rfl⟩ := List.mem_map.1 hmem
  rw [Finding.isRepaired_afterRepair ((pending_findings r switches m).unmarked g hg)] at hunrepaired
  have hg' : g.isRepairable m = false := by simpa using hunrepaired
  rw [Finding.isRepairable_congr hgrows.takes, Finding.afterRepair, if_neg (by simp [hg']), hg']

/-- What a repair adds is asked for by a mandatory first use. -/
theorem firstUse?_of_forwards_repair {s : Switch} {k : String}
    (hnew : (repair r switches m).manifest.forwards s k)
    (hold : m.forwards s k = false) :
    s ∈ switches ∧ m.takes s ∧ ∃ d, firstUse? r m s k = some d ∧ d.optional = false := by
  obtain ⟨f, hf, hrepairable, ht⟩ :=
    (((answers_repair r switches m).forwards s k).1 hnew).resolve_left (by simp [hold])
  cases f with
  | missingForwarding package key s' optional repaired =>
    obtain ⟨rfl, rfl⟩ := Prod.mk.inj (Option.some.inj ht)
    have hs := switch_mem_of_mem_findings hf
    simp only [Finding.isRepairable, Bool.and_eq_true, Bool.not_eq_true'] at hrepairable
    obtain ⟨-, -, -, -, d, hd, hoptional⟩ := (missingForwarding_mem_findings hs).1 hf
    exact ⟨hs, hrepairable.2, d, hd, hoptional.trans hrepairable.1⟩
  | _ => exact absurd ht (by simp [Finding.token?])

/-- A repair that adds something hands on some switch for the first time. -/
theorem exists_forwards_of_added (h : (repair r switches m).added ≠ 0) :
    ∃ s ∈ switches, ∃ k, (repair r switches m).manifest.forwards s k ∧ m.forwards s k = false := by
  rw [added_repair] at h
  obtain ⟨f, hf, hrepairable⟩ := List.countP_pos_iff.1 (Nat.pos_of_ne_zero h)
  cases f with
  | missingForwarding package key s optional repaired =>
    refine ⟨s, switch_mem_of_mem_findings hf, key, ?_, (pending_findings r switches m).missing _ hf
      (key, s) rfl⟩
    exact ((answers_repair r switches m).forwards s key).2 (.inr ⟨_, hf, hrepairable, rfl⟩)
  | _ => exact absurd hrepairable (by simp [Finding.isRepairable])

end Forwarding

end FeatureForwarding
