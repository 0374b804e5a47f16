import FeatureForwarding.Proofs.Forwarding.Findings
import FeatureForwarding.Proofs.Manifest.Dependencies
import Mathlib.Data.List.Nodup

/-! What a check finds, described without its walk over the entries: every missing token and every
dependency that keeps its default features is found once, nothing else is, and checking several
switches together finds what checking them one by one does. -/

namespace FeatureForwarding

/-- The dependency of a finding about default features. -/
def Finding.defaults? : Finding → Option String
  | .missingDefaultFeatures _ dependency => some dependency
  | _ => none

namespace Forwarding

variable {r : Registry} {switches : List Switch} {m : Manifest} {denies : Toml.Item → Bool}

/-- Some entry of the key keeps the default features of a package that uses one of the switches. -/
def KeepsDefaults (denies : Toml.Item → Bool) (r : Registry) (switches : List Switch) (m : Manifest)
    (key : String) : Prop :=
  ∃ e ∈ m.declarations, e.key = key ∧ denies e.item = false ∧
    ∃ d, e.dependency? = some d ∧ ∃ s ∈ switches, r.uses d.package s

/-- A package that can do without the standard library is told what its manifest lacks, each lack
once. `denies` says which entries opt out of the default features. -/
structure Accurate (denies : Toml.Item → Bool) (r : Registry) (switches : List Switch) (m : Manifest) :
    Prop where
  silent : m.isNoStd = false → findings r switches m = []
  token : m.isNoStd → ∀ key, ∀ s ∈ switches, ∀ d, firstUse? r m s key = some d →
    m.forwards s key = false → (findings r switches m).filter (·.token? = some (key, s)) =
      [.missingForwarding m.displayName key s d.optional false]
  no_token : ∀ key s, s ∉ switches ∨ firstUse? r m s key = none ∨ m.forwards s key →
    (findings r switches m).filter (·.token? = some (key, s)) = []
  defaults : m.isNoStd → ∀ key, KeepsDefaults denies r switches m key →
    (findings r switches m).filter (·.defaults? = some key) =
      [.missingDefaultFeatures m.displayName key]
  no_defaults : ∀ key, ¬ KeepsDefaults denies r switches m key →
    (findings r switches m).filter (·.defaults? = some key) = []
  kinds : ∀ f ∈ findings r switches m, f.token?.isSome ∨ f.defaults?.isSome
  union : ∀ f, f ∈ findings r switches m ↔ ∃ s ∈ switches, f ∈ findings r [s] m

/-! ### Each finding once -/

theorem nodup_findingsFrom (m : Manifest) (defaults : List String)
    (forwarded : List (String × Switch)) (us : List (Dependency × Switch)) :
    (findingsFrom m defaults forwarded us).Nodup := by
  induction us generalizing defaults forwarded with
  | nil => exact .nil
  | cons u us ih =>
    obtain ⟨d, s⟩ := u
    -- what is reported for the head counts as seen in the rest
    have hdefaults (forwarded) : .missingDefaultFeatures m.displayName d.key ∉
        findingsFrom m (d.key :: defaults) forwarded us := by
      simp [missingDefaultFeatures_mem_findingsFrom]
    have hforwarding (defaults) : .missingForwarding m.displayName d.key s d.optional false ∉
        findingsFrom m defaults ((d.key, s) :: forwarded) us := by
      simp [missingForwarding_mem_findingsFrom]
    rw [findingsFrom]
    cases (!d.disablesDefaults && !defaults.contains d.key) <;>
      cases (!m.forwards s d.key && !forwarded.contains (d.key, s)) <;>
        simp [ih, hdefaults, hforwarding]

theorem nodup_findings (r : Registry) (switches : List Switch) (m : Manifest) :
    (findings r switches m).Nodup := by
  unfold findings
  split
  · exact nodup_findingsFrom ..
  · exact .nil

/-- What only one finding of a list without repetitions can be is found once. -/
theorem filter_eq_singleton {fs : List Finding} (hnodup : fs.Nodup) {p : Finding → Bool} {f : Finding}
    (hf : f ∈ fs) (hp : p f) (honly : ∀ f' ∈ fs, p f' → f' = f) : fs.filter p = [f] := by
  refine List.perm_singleton.1 ((List.perm_ext_iff_of_nodup (hnodup.filter p) (List.nodup_singleton f)).2
    fun f' => ?_)
  rw [List.mem_filter, List.mem_singleton]
  exact ⟨fun h => honly f' h.1 h.2, fun h => h ▸ ⟨hf, hp⟩⟩

theorem filter_token {key : String} {s : Switch} {d : Dependency} (hstd : m.isNoStd) (hs : s ∈ switches)
    (hd : firstUse? r m s key = some d) (hf : m.forwards s key = false) :
    (findings r switches m).filter (·.token? = some (key, s)) =
      [.missingForwarding m.displayName key s d.optional false] := by
  refine filter_eq_singleton (nodup_findings ..)
    ((missingForwarding_mem_findings hs).2 ⟨hstd, rfl, rfl, hf, d, hd, rfl⟩) (decide_eq_true rfl)
    fun f hmem htoken => ?_
  cases f with
  | missingForwarding package key' s' optional repaired =>
    obtain ⟨rfl, rfl⟩ := Prod.mk.inj (Option.some.inj (of_decide_eq_true htoken))
    obtain ⟨-, rfl, rfl, -, d', hd', rfl⟩ := (missingForwarding_mem_findings hs).1 hmem
    rw [Option.some.inj (hd'.symm.trans hd)]
  | _ => exact absurd (of_decide_eq_true htoken) nofun

theorem filter_token_eq_nil {key : String} {s : Switch}
    (h : s ∉ switches ∨ firstUse? r m s key = none ∨ m.forwards s key) :
    (findings r switches m).filter (·.token? = some (key, s)) = [] := by
  refine List.filter_eq_nil_iff.2 fun f hmem htoken => ?_
  cases f with
  | missingForwarding package key' s' optional repaired =>
    obtain ⟨rfl, rfl⟩ := Prod.mk.inj (Option.some.inj (of_decide_eq_true htoken))
    have hs := switch_mem_of_mem_findings hmem
    obtain ⟨-, -, -, hf, d, hd, -⟩ := (missingForwarding_mem_findings hs).1 hmem
    simp [hs, hf, hd] at h
  | _ => exact absurd (of_decide_eq_true htoken) nofun

theorem filter_defaults {key : String}
    (h : .missingDefaultFeatures m.displayName key ∈ findings r switches m) :
    (findings r switches m).filter (·.defaults? = some key) =
      [.missingDefaultFeatures m.displayName key] := by
  refine filter_eq_singleton (nodup_findings ..) h (decide_eq_true rfl) fun f hmem hdefaults => ?_
  cases f with
  | missingDefaultFeatures package key' =>
    obtain rfl := Option.some.inj (of_decide_eq_true hdefaults)
    rw [(missingDefaultFeatures_mem_findings.1 hmem).2.1]
  | _ => exact absurd (of_decide_eq_true hdefaults) nofun

theorem filter_defaults_eq_nil {key : String}
    (h : .missingDefaultFeatures m.displayName key ∉ findings r switches m) :
    (findings r switches m).filter (·.defaults? = some key) = [] := by
  refine List.filter_eq_nil_iff.2 fun f hmem hdefaults => ?_
  cases f with
  | missingDefaultFeatures package key' =>
    obtain rfl := Option.some.inj (of_decide_eq_true hdefaults)
    obtain rfl := (missingDefaultFeatures_mem_findings.1 hmem).2.1
    exact h hmem
  | _ => exact absurd (of_decide_eq_true hdefaults) nofun

theorem mem_findings_iff_exists_switch {f : Finding} :
    f ∈ findings r switches m ↔ ∃ s ∈ switches, f ∈ findings r [s] m := by
  constructor
  · intro h
    obtain ⟨d, -, s, hs, -, rfl | rfl⟩ := exists_use_of_mem_findings h
    · obtain ⟨hstd, -, d', hd', hkey, hdisables, s', hs', huses⟩ :=
        missingDefaultFeatures_mem_findings.1 h
      exact ⟨s', hs', missingDefaultFeatures_mem_findings.2
        ⟨hstd, rfl, d', hd', hkey, hdisables, s', List.mem_singleton_self s', huses⟩⟩
    · exact ⟨s, hs, (missingForwarding_mem_findings (List.mem_singleton_self s)).2
        ((missingForwarding_mem_findings hs).1 h)⟩
  · rintro ⟨s, hs, h⟩
    obtain ⟨d, -, s', hs', -, rfl | rfl⟩ := exists_use_of_mem_findings h
    · obtain ⟨hstd, -, d', hd', hkey, hdisables, s', hs', huses⟩ :=
        missingDefaultFeatures_mem_findings.1 h
      obtain rfl := List.mem_singleton.1 hs'
      exact missingDefaultFeatures_mem_findings.2 ⟨hstd, rfl, d', hd', hkey, hdisables, s', hs, huses⟩
    · obtain rfl := List.mem_singleton.1 hs'
      exact (missingForwarding_mem_findings hs).2 ((missingForwarding_mem_findings hs').1 h)

/-! ### The description -/

/-- A reading of the entries that agrees with their flags tells who keeps the default features. -/
theorem keepsDefaults_iff (h : ∀ e ∈ m.declarations, ∀ d, e.dependency? = some d →
      denies e.item = d.disablesDefaults) {key : String} :
    m.isNoStd ∧ KeepsDefaults denies r switches m key ↔
      .missingDefaultFeatures m.displayName key ∈ findings r switches m := by
  rw [missingDefaultFeatures_mem_findings, m.dependencies_eq]
  constructor
  · rintro ⟨hstd, e, he, rfl, hdenies, d, hd, s, hs, huses⟩
    exact ⟨hstd, rfl, d, List.mem_filterMap.2 ⟨e, he, hd⟩, Declaration.key_of_dependency? hd,
      h e he d hd ▸ hdenies, s, hs, huses⟩
  · rintro ⟨hstd, -, d, hd, rfl, hdisables, s, hs, huses⟩
    obtain ⟨e, he, hd⟩ := List.mem_filterMap.1 hd
    exact ⟨hstd, e, he, (Declaration.key_of_dependency? hd).symm, (h e he d hd).trans hdisables, d,
      hd, s, hs, huses⟩

theorem accurate (h : ∀ e ∈ m.declarations, ∀ d, e.dependency? = some d →
      denies e.item = d.disablesDefaults) (r : Registry) (switches : List Switch) :
    Accurate denies r switches m where
  silent hstd := by rw [findings, if_neg (by simp [hstd])]
  token hstd _ _ hs _ hd hf := filter_token hstd hs hd hf
  no_token _ _ := filter_token_eq_nil
  defaults hstd _ hkeeps := filter_defaults ((keepsDefaults_iff h).1 ⟨hstd, hkeeps⟩)
  no_defaults _ hkeeps := filter_defaults_eq_nil fun hmem => hkeeps ((keepsDefaults_iff h).2 hmem).2
  kinds f hf := by
    obtain ⟨d, -, s, -, -, rfl | rfl⟩ := exists_use_of_mem_findings hf
    · exact .inr rfl
    · exact .inl rfl
  union _ := mem_findings_iff_exists_switch

/-- Where no entry has both spellings of the field, either one set to false opts out. -/
theorem accurate_deniesEither (h : ∀ e ∈ m.declarations, e.item.field? "default-features" = none ∨
      e.item.field? "default_features" = none) (r : Registry) (switches : List Switch) :
    Accurate Toml.Item.deniesEither r switches m := by
  refine accurate (fun e he d hd => ?_) r switches
  rw [Declaration.disablesDefaults_of_dependency? hd, Toml.Item.deniesDefaults_eq (h e he)]

/-- Findings are sound, complete and without repetition, and those over several switches are those
over each of them. -/
theorem findings_accurate (r : Registry) (switches : List Switch) (m : Manifest) :
    Accurate Toml.Item.deniesDefaults r switches m :=
  accurate (fun _ _ _ hd => (Declaration.disablesDefaults_of_dependency? hd).symm) r switches

/-- The key `k` is listed as optional and for a target, and `l` is another name of its package. -/
def mixed : Option Manifest := Manifest.read? ⟨"a"⟩
  "package.name=\"a\"
dependencies.k.optional=true
dependencies.l.package=\"k\"
dependencies.l.default_features=false
target.x.dependencies.k.default-features=false
features.std=[\"k/std\"]
"

/-- The package `k` uses two switches. -/
def known : Registry :=
  ⟨NameMap.empty.insert "k" ([.std, .tryRuntime].foldl Fact.observe (.placeholder "k")), .empty⟩

example : mixed.map (findings known [.tryRuntime, .std, .std]) =
    some [.missingDefaultFeatures "a" "k", .missingForwarding "a" "k" .tryRuntime true false,
      .missingForwarding "a" "l" .tryRuntime false false, .missingForwarding "a" "l" .std false false] := by
  decide +kernel

/-- Its only dependency sets one spelling of the field to true and the other one to false. -/
def doubled : Option Manifest := Manifest.read? ⟨"a"⟩
  "package.name=\"a\"
dependencies.k.default-features=true
dependencies.k.default_features=false
features.std=[\"k/std\"]
"

/-- Either spelling set to false does not describe the check. -/
theorem findings_doubled :
    ∃ m, doubled = some m ∧ (∀ e ∈ m.declarations, e.item.deniesEither) ∧
      findings (Registry.empty.scan [m]).1 [.std] m = [.missingDefaultFeatures "a" "k"] ∧
      ¬ Accurate Toml.Item.deniesEither (Registry.empty.scan [m]).1 [.std] m := by
  have htest : doubled.any fun m => m.declarations.all (·.item.deniesEither) ∧
      findings (Registry.empty.scan [m]).1 [.std] m = [.missingDefaultFeatures "a" "k"] := by
    decide +kernel
  obtain ⟨m, hm, h⟩ := (Option.any_eq_true ..).1 htest
  obtain ⟨hdenies, hfindings⟩ := of_decide_eq_true h
  have hdenies := List.all_eq_true.1 hdenies
  refine ⟨m, hm, hdenies, hfindings, fun haccurate => ?_⟩
  have hnone := haccurate.no_defaults "k" fun ⟨e, he, _, hkeeps, _⟩ =>
    absurd (hdenies e he) (by simp [hkeeps])
  rw [hfindings] at hnone
  exact absurd hnone (by decide)

end Forwarding

end FeatureForwarding
