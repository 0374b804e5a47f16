import FeatureForwarding.Proofs.Forwarding.Account
import FeatureForwarding.Proofs.Forwarding.Accuracy
import FeatureForwarding.Proofs.Manifest.Addition

/-! The repair of one manifest is its check and the least edit that answers it: what is reported is what the
check reports, what is marked as repaired was added to the document in that order and nothing else was, and
what is left is found again. -/

namespace FeatureForwarding

namespace Forwarding

open Manifest (Gives)

variable {r : Registry} {switches : List Switch} {m : Manifest} {fs : List Finding}

/-- The tokens that a repair of the findings adds, in their order. -/
def answeredTokens (m : Manifest) (fs : List Finding) : List (String × Switch) :=
  tokens (fs.filter (·.isRepairable m))

theorem gives_repairFindings (h : Pending m fs) :
    Gives (answeredTokens m fs) m (repairFindings m fs).manifest := by
  induction fs generalizing m with
  | nil => exact .refl m
  | cons f fs ih =>
    obtain ⟨hf, hrepaired⟩ | ⟨key, s, m', hf, htoken, added, hrepaired⟩ := repairFindings_cons h
    · rw [hrepaired, answeredTokens, List.filter_cons_of_neg (by simp [hf])]
      exact ih h.tail
    · have hanswered : answeredTokens m (f :: fs) = [(key, s)] ++ answeredTokens m' fs := by
        simp only [answeredTokens, Finding.isRepairable_congr (Manifest.takes_addForwarding? added)]
        rw [List.filter_cons_of_pos hf, tokens, List.filterMap_cons_some htoken]
        rfl
      rw [hrepaired, hanswered]
      exact (Manifest.gives_addForwarding? added).trans (ih (h.add htoken added))

/-- The tokens of the findings that were marked, in their order. -/
theorem tokens_repaired (r : Registry) (switches : List Switch) (m : Manifest) :
    tokens ((repair r switches m).findings.filter Finding.isRepaired) =
      answeredTokens m (findings r switches m) := by
  have hmarked : ∀ f ∈ findings r switches m, (f.afterRepair m).isRepaired = f.isRepairable m :=
    fun f hf => Finding.isRepaired_afterRepair ((pending_findings r switches m).unmarked f hf)
  rw [(answers_repair r switches m).findings, List.filter_map]
  simp only [tokens, answeredTokens, List.filterMap_map, Function.comp_def, Finding.token?_afterRepair]
  rw [List.filter_congr hmarked]

/-- A repair of the manifest is its check and the least edit that answers it. -/
structure IsMinimal (r : Registry) (switches : List Switch) (m : Manifest) (repaired : Repair) : Prop where
  /-- The flags apart, the check reports the same. -/
  report : repaired.report.map (fun d => { d with finding := d.finding.unrepaired }) = check r switches m
  /-- What is mandatory is repaired if its feature is a list or not there yet. -/
  marked : ∀ f ∈ repaired.findings, f.isRepaired ↔
    ∃ package key s marked, f = .missingForwarding package key s false marked ∧
      ∀ list, Toml.find? s.name m.featureItems = some list → list.array?.isSome
  added : repaired.added = (tokens (repaired.findings.filter Finding.isRepaired)).length
  gives : Gives (tokens (repaired.findings.filter Finding.isRepaired)) m repaired.manifest
  remaining : findings r switches repaired.manifest = repaired.findings.filter (!·.isRepaired)
  /-- A second repair changes and marks nothing. -/
  again : repair r switches repaired.manifest =
    ⟨repaired.manifest, repaired.findings.filter (!·.isRepaired)⟩
  added_again : (repair r switches repaired.manifest).added = 0

/-- A marked finding of a check is unmarked again. -/
theorem unrepaired_afterRepair {f : Finding} (h : f ∈ findings r switches m) :
    (f.afterRepair m).unrepaired = f := by
  have hunmarked := (pending_findings r switches m).unmarked f h
  cases f with
  | missingForwarding package key s optional marked =>
    obtain rfl : marked = false := hunmarked
    unfold Finding.afterRepair
    split <;> rfl
  | _ => unfold Finding.afterRepair; split <;> rfl

theorem isRepairable_iff {f : Finding} (h : f ∈ findings r switches m) : f.isRepairable m ↔
    ∃ package key s marked, f = .missingForwarding package key s false marked ∧
      ∀ list, Toml.find? s.name m.featureItems = some list → list.array?.isSome := by
  have hstd : m.isNoStd := by
    by_contra hstd
    simp [findings_of_not_isNoStd hstd] at h
  cases f with
  | missingForwarding package key s optional marked =>
    simp only [Finding.isRepairable, Manifest.takes_of_isNoStd hstd, Option.all_eq_true, Bool.and_eq_true,
      Bool.not_eq_true', Finding.missingForwarding.injEq]
    constructor
    · rintro ⟨rfl, hroom⟩
      exact ⟨package, key, s, marked, ⟨rfl, rfl, rfl, rfl, rfl⟩, hroom⟩
    · rintro ⟨_, _, _, _, ⟨-, -, rfl, rfl, -⟩, hroom⟩
      exact ⟨rfl, hroom⟩
  | _ => simp [Finding.isRepairable]

/-- A mark leaves the dependency and the switch of a finding as they are. -/
theorem afterRepair_eq_missingForwarding {f : Finding} {package key : String} {s : Switch} {optional : Bool} :
    (∃ marked, f.afterRepair m = .missingForwarding package key s optional marked) ↔
      ∃ marked, f = .missingForwarding package key s optional marked := by
  unfold Finding.afterRepair
  split
  · cases f <;> simp [Finding.markRepaired]
  · rfl

theorem repair_isMinimal (r : Registry) (switches : List Switch) (m : Manifest) :
    IsMinimal r switches m (repair r switches m) := by
  have hanswers := answers_repair r switches m
  have hunmarked := (pending_findings r switches m).unmarked
  have hagain := repair_of_settled (settled_repair r switches m)
  refine ⟨?_, fun f hf => ?_, ?_, ?_, findings_repair r switches m, ?_, ?_⟩
  · rw [Repair.report, check, diagnosticsAt, diagnosticsAt, hanswers.grows.path, hanswers.findings]
    simp only [List.map_map]
    exact List.map_congr_left fun f hf => by simp [unrepaired_afterRepair hf]
  · rw [hanswers.findings] at hf
    obtain ⟨g, hg, rfl⟩ := List.mem_map.1 hf
    rw [Finding.isRepaired_afterRepair (hunmarked g hg), isRepairable_iff hg]
    simp only [exists_and_right, afterRepair_eq_missingForwarding]
  · -- whatever is marked has a token
    have htoken : ∀ f : Finding, f.isRepaired → f.token?.isSome := by
      intro f hf
      cases f with
      | missingForwarding => rfl
      | _ => exact absurd hf (by simp [Finding.isRepaired])
    rw [Repair.added, tokens, List.length_filterMap_eq_countP, List.countP_filter]
    exact List.countP_congr fun f _ => by simpa using htoken f
  · rw [tokens_repaired]
    exact gives_repairFindings (pending_findings r switches m)
  · rw [hagain, findings_repair]
  · exact added_repair_eq_zero_iff.2 (settled_repair r switches m)

example : mixed.map (fun m => (repair known [.tryRuntime, .std] m).findings) =
    some [.missingDefaultFeatures "a" "k", .missingForwarding "a" "k" .tryRuntime true false,
      .missingForwarding "a" "l" .tryRuntime false true, .missingForwarding "a" "l" .std false true] := by
  decide +kernel

end Forwarding

end FeatureForwarding
