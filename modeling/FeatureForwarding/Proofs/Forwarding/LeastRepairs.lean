import FeatureForwarding.Proofs.Forwarding.Reread
import Mathlib.Order.Bounds.Basic

/-! Which tokens a run adds, without the run. A manifest needs a token if the package behind it is
known to use the switch, or comes to use it because the manifest that supplied its fact needs a token
of that switch itself. What settling adds is the least set closed under this need, so that the order
of the visits does not matter. Every registry of a run stays within a closed set; the settled one has
left nothing out. -/

namespace FeatureForwarding.Forwarding

variable {switches : List Switch} {r r' : Registry} {m m' : Manifest} {ms ms' : List Manifest}
  {name key : String} {s : Switch}

/-- A manifest, the key of a dependency and the switch that is handed on. -/
abbrev Token := Manifest × String × Switch

variable {T : Set Token}

/-- What is known once the tokens stand: the registry reports the use, or a manifest that may be
written supplied the fact of the package and has gained a token of the switch. -/
def Known (r : Registry) (ms : List Manifest) (T : Set Token) (name : String) (s : Switch) : Prop :=
  r.uses name s ∨
    ∃ m ∈ ms, m.hasComments = false ∧ r.Supplies m name ∧ ∃ key, (m, key, s) ∈ T

/-- When a manifest needs a token, given the tokens that stand already. -/
structure Needs (switches : List Switch) (r : Registry) (ms : List Manifest) (T : Set Token)
    (m : Manifest) (key : String) (s : Switch) : Prop where
  selected : m ∈ ms
  writable : m.hasComments = false
  isNoStd : m.isNoStd
  checked : s ∈ switches
  missing : m.forwards s key = false
  room : (Toml.find? s.name m.featureItems).all (·.array?.isSome)
  entry : ∃ d, m.dependencies.find? (·.key = key) = some d ∧ d.optional = false ∧
    Known r ms T d.package s

def IsClosed (switches : List Switch) (r : Registry) (ms : List Manifest) (T : Set Token) : Prop :=
  ∀ m key s, Needs switches r ms T m key s → (m, key, s) ∈ T

/-- The tokens that settling adds to the manifests that may be written. -/
def additions (switches : List Switch) (r : Registry) (ms : List Manifest) : Set Token :=
  {token | ∃ (i : Nat) (m' : Manifest), ms[i]? = some token.1 ∧ token.1.hasComments = false ∧
    (settle switches r ms).manifests[i]? = some m' ∧ m'.forwards token.2.2 token.2.1 ∧
    token.1.forwards token.2.2 token.2.1 = false}

theorem Needs.congr (hms : ∀ m, m ∈ ms ↔ m ∈ ms') (h : Needs switches r ms T m key s) :
    Needs switches r ms' T m key s where
  selected := (hms m).1 h.selected
  writable := h.writable
  isNoStd := h.isNoStd
  checked := h.checked
  missing := h.missing
  room := h.room
  entry := by
    obtain ⟨d, hd, hoptional, hknown⟩ := h.entry
    refine ⟨d, hd, hoptional, hknown.imp_right ?_⟩
    rintro ⟨m', hm', hsupplies⟩
    exact ⟨m', (hms m').1 hm', hsupplies⟩

theorem isClosed_congr (hms : ∀ m, m ∈ ms ↔ m ∈ ms') :
    IsClosed switches r ms T ↔ IsClosed switches r ms' T :=
  ⟨fun h m key s hneeds => h m key s (hneeds.congr fun m => (hms m).symm),
    fun h m key s hneeds => h m key s (hneeds.congr hms)⟩

/-- Where no key stands for two packages, the first entry of the key decides. -/
theorem demands_iff (hkeys : m.HasPlainKeys) : Demands r m s key ↔
    ∃ d, m.dependencies.find? (·.key = key) = some d ∧ d.optional = false ∧ r.uses d.package s := by
  cases hfirst : m.dependencies.find? (·.key = key) with
  | none =>
    have hnone : firstUse? r m s key = none := by
      refine List.find?_eq_none.2 fun d hd h => List.find?_eq_none.1 hfirst d hd ?_
      simpa using (of_decide_eq_true h).1
    simp [Demands, hnone]
  | some d =>
    have hkey : d.key = key := by simpa using List.find?_some hfirst
    have hd := List.mem_of_find?_eq_some hfirst
    have hpackage : ∀ d' ∈ m.dependencies, d'.key = key → d'.package = d.package :=
      fun d' hd' hkey' => hkeys d' hd' d hd (hkey'.trans hkey.symm)
    rw [demands_iff_of_package hpackage, hfirst]
    simp [and_comm]

/-! ### Nothing that is not needed -/

/-- A manifest that has grown by tokens of the set only. -/
structure GrownWithin (T : Set Token) (m m' : Manifest) : Prop where
  grows : m.Grows m'
  isNoStd : m'.isNoStd → m.isNoStd
  gained : ∀ s key, m'.forwards s key → m.forwards s key = false → (m, key, s) ∈ T

theorem GrownWithin.refl (T : Set Token) (m : Manifest) : GrownWithin T m m where
  grows := .refl
  isNoStd := id
  gained s key hnew hold := by simp [hnew] at hold

theorem visit_of_not_isNoStd (h : ¬m.isNoStd) : (visit switches r m).manifest = m := by
  refine manifest_visit_of_added (added_visit_of_settled fun _ => ?_)
  simp [Settled, findings_of_not_isNoStd h]

/-- A registry of the run knows no more than the closed set allows, and everybody who supplied a fact
still speaks for it. -/
structure Bounded (r : Registry) (ms : List Manifest) (T : Set Token) (r' : Registry) : Prop where
  speakers : ∀ name first, r.definedIn.get? name = some first →
    ∃ first', r'.definedIn.get? name = some first' ∧ first'.Same first
  known : ∀ name s, r'.uses name s → Known r ms T name s

theorem Bounded.refl (r : Registry) (ms : List Manifest) (T : Set Token) : Bounded r ms T r where
  speakers _ first hfirst := ⟨first, hfirst, rfl⟩
  known _ _ := .inl

theorem GrownWithin.visit (hclosed : IsClosed switches r ms T) (hm : m ∈ ms) (hkeys : m.HasPlainKeys)
    (hbounded : Bounded r ms T r') (h : GrownWithin T m m') :
    GrownWithin T m (visit switches r' m').manifest := by
  by_cases hstd : m'.isNoStd
  · refine ⟨h.grows.trans (grows_visit switches r' m'), fun _ => h.isNoStd hstd,
      fun s key hnew hold => ?_⟩
    by_cases hbefore : m'.forwards s key
    · exact h.gained s key hbefore hold
    by_cases hc : m'.hasComments
    · rw [visit_of_hasComments hc] at hnew
      exact absurd hnew hbefore
    have hc : m'.hasComments = false := by simpa using hc
    rw [visit_of_not_hasComments hc] at hnew
    obtain ⟨hs, htakes, hdemands⟩ := firstUse?_of_forwards_repair hnew (by simpa using hbefore)
    obtain ⟨d, hd, hoptional, huses⟩ :=
      (demands_iff hkeys).1 ((demands_congr h.grows.dependencies).1 hdemands)
    refine hclosed m key s {
      selected := hm
      writable := h.grows.hasComments.symm.trans hc
      isNoStd := h.isNoStd hstd
      checked := hs
      missing := hold
      room := ?_
      entry := ⟨d, hd, hoptional, hbounded.known _ _ huses⟩ }
    rw [← Manifest.takes_of_isNoStd (h.isNoStd hstd), ← h.grows.takes]
    exact htakes
  · rwa [visit_of_not_isNoStd hstd]

/-- Refreshing the fact of a manifest that grew within the set stays within it. -/
theorem Bounded.refresh (hbounded : Bounded r ms T r') (hm : m ∈ ms) (hc : m.hasComments = false)
    (hheard : ∀ name, m.packageName? = some name → ∃ m₀, r.Heard m₀ name)
    (hsupplies : ∀ name, r.Supplies m name → r.Heard m name) (h : GrownWithin T m m') :
    Bounded r ms T (r'.refreshDirect m') := by
  by_cases haccepts : ∃ own, r'.Accepts m' own
  · obtain ⟨own, hown⟩ := haccepts
    obtain ⟨huses, hdefined⟩ := Registry.refreshDirect_of_accepts hown
    have hown' : m.packageName? = some own := h.grows.packageName?.symm.trans hown.1
    obtain ⟨m₀, hm₀⟩ := hheard own hown'
    obtain ⟨first, hfirst, -⟩ := hm₀.speaker
    obtain ⟨first', hfirst', hsame⟩ := hbounded.speakers own first hfirst
    have hspeaks : first'.Same m'.path := hown.2 first' hfirst'
    have hsupplied : r.Supplies m own := ⟨first, hfirst, by
      rw [← h.grows.path]
      exact hsame.symm.trans hspeaks⟩
    refine ⟨fun name other hother => ?_, fun name s hs => ?_⟩
    · rw [hdefined]
      split
      · next hname =>
        subst hname
        obtain rfl := Option.some.inj (hfirst.symm.trans hother)
        exact ⟨m'.path, rfl, hspeaks.symm.trans hsame⟩
      · exact hbounded.speakers name other hother
    · rw [huses] at hs
      split at hs
      · next hname =>
        subst hname
        rcases h.grows.activates.1 hs with hold | ⟨k, hnew, hold⟩
        · exact .inl (((hsupplies name hsupplied).uses s).trans hold)
        · exact .inr ⟨m, hm, hc, hsupplied, k, h.gained s k hnew hold⟩
      · exact hbounded.known name s hs
  · rwa [Registry.refreshDirect_of_not_accepts (not_exists.1 haccepts)]

section Scanned

variable {r₀ : Registry} (hfresh : r₀.Fresh) {manifests : List Manifest} (hpaths : Distinct manifests)
  (hms : ms ⊆ manifests) (hdistinct : Distinct ms) (hkeys : ∀ m ∈ ms, m.HasPlainKeys)
include hfresh hpaths hms hdistinct hkeys

/-- Whatever set is closed, settling adds nothing but tokens of it. -/
theorem additions_subset (hclosed : IsClosed switches (r₀.scan manifests).1 ms T) :
    additions switches (r₀.scan manifests).1 ms ⊆ T := by
  have hvisit {r' : Registry} {m' : Manifest} (hm' : ∃ m ∈ ms, GrownWithin T m m')
      (hr' : Bounded (r₀.scan manifests).1 ms T r') :
      (∃ m ∈ ms, GrownWithin T m (visit switches r' m').manifest) ∧
        Bounded (r₀.scan manifests).1 ms T (registryAfter switches r' m') := by
    obtain ⟨m, hm, hgrown⟩ := hm'
    have hvisited := hgrown.visit hclosed hm (hkeys m hm) hr'
    refine ⟨⟨m, hm, hvisited⟩, ?_⟩
    unfold registryAfter
    split
    · exact hr'
    · next hadded =>
      have hc := hasComments_of_added hadded
      refine hr'.refresh hm (hgrown.grows.hasComments.symm.trans hc) (fun name hname => ?_)
        (fun name => heard_of_supplies hfresh hpaths (hms hm)) hvisited
      obtain ⟨m₀, hm₀⟩ : ∃ m₀, Registry.owner? manifests name = some m₀ :=
        Option.isSome_iff_exists.1 (List.find?_isSome.2 ⟨m, hms hm, by simpa using hname⟩)
      exact ⟨m₀, Registry.heard_scan hfresh hm₀⟩
  obtain ⟨hgrown, -⟩ := passes_keep (R := fun m' => ∃ m ∈ ms, GrownWithin T m m') hvisit
    (fun m hm => ⟨m, hm, .refl T m⟩) (Bounded.refl _ ms T) (passLimit switches ms)
  rintro ⟨m, key, s⟩ ⟨i, m', hm, hc, hm', hnew, hold⟩
  have hgrows := grows_of_settle hdistinct hm hm'
  have hpassed := getElem?_passes_of_settle hm' (hgrows.hasComments.trans hc)
  obtain ⟨m₀, hm₀, hwithin⟩ := hgrown m' (List.mem_of_getElem? hpassed)
  obtain rfl : m₀ = m := by
    refine hdistinct.eq_of_same hm₀ (List.mem_of_getElem? hm) ?_
    exact congrArg Files.Path.components (hwithin.grows.path.symm.trans hgrows.path)
  exact hwithin.gained s key hnew hold

/-! ### Nothing left out -/

omit hkeys in
/-- The settled registry knows what the added tokens make known. -/
theorem uses_settle_of_known
    (h : Known (r₀.scan manifests).1 ms (additions switches (r₀.scan manifests).1 ms) name s) :
    (settle switches (r₀.scan manifests).1 ms).registry.uses name s := by
  rcases h with huses | ⟨m, hm, hc, hsupplies, key, i, m', hi, -, hm', hnew, hold⟩
  · exact uses_settle_of_scan hfresh hpaths hms hdistinct huses
  · have hheard := heard_of_supplies hfresh hpaths (hms hm) hsupplies
    obtain ⟨m₁, hleaves, hheard'⟩ :=
      heard_settle switches hpaths hms hdistinct (hms hm) hheard
    rw [hheard'.uses]
    cases hleaves with
    | settled place _ result =>
      have hgrows := grows_of_settle hdistinct place result
      obtain rfl := eq_of_settle hdistinct place result hi hm'
      exact hgrows.activates.2 (.inr ⟨key, hnew, hold⟩)
    | untouched h => exact absurd h (by simp [hm, hc])

theorem isClosed_additions : IsClosed switches (r₀.scan manifests).1 ms
    (additions switches (r₀.scan manifests).1 ms) := by
  intro m key s h
  obtain ⟨i, hi⟩ := List.mem_iff_getElem?.1 h.selected
  obtain ⟨m', hm', hgrows⟩ := grows_settle switches (r₀.scan manifests).1 hdistinct hi
  refine ⟨i, m', hi, h.writable, hm', ?_, h.missing⟩
  obtain ⟨d, hd, hoptional, hknown⟩ := h.entry
  have hdemands : Demands (settle switches (r₀.scan manifests).1 ms).registry m s key :=
    (demands_iff (hkeys m h.selected)).2
      ⟨d, hd, hoptional, uses_settle_of_known hfresh hpaths hms hdistinct hknown⟩
  have hsettled := settled_settle hdistinct hm' (hgrows.hasComments.trans h.writable)
  refine forwards_of_settled hsettled (hgrows.isNoStd h.isNoStd) ?_ h.checked
    ((demands_congr hgrows.dependencies).2 hdemands)
  rw [hgrows.takes, Manifest.takes_of_isNoStd h.isNoStd]
  exact h.room

end Scanned

/-- Settling adds the least set of tokens that is closed under need, in whatever order the selected
manifests are visited. -/
theorem additions_isLeast (switches : List Switch) {r₀ : Registry} (hfresh : r₀.Fresh)
    {manifests kept selected : List Manifest} (hpaths : Distinct manifests)
    (hkept : kept.Sublist manifests) (hselected : selected.Perm kept)
    (hkeys : ∀ m ∈ manifests, m.HasPlainKeys) :
    IsLeast {T | IsClosed switches (r₀.scan manifests).1 kept T}
        (additions switches (r₀.scan manifests).1 selected) ∧
      ∀ other : List Manifest, other.Perm kept →
        additions switches (r₀.scan manifests).1 other =
          additions switches (r₀.scan manifests).1 selected := by
  have hleast (ms : List Manifest) (hms : ms.Perm kept) :
      IsLeast {T | IsClosed switches (r₀.scan manifests).1 kept T}
        (additions switches (r₀.scan manifests).1 ms) := by
    have hdistinct : Distinct ms :=
      (hms.pairwise_iff fun hne hsame => hne hsame.symm).2 (hpaths.sublist hkept)
    have hsub : ms ⊆ manifests := fun m hm => hkept.subset (hms.mem_iff.1 hm)
    have hkeys' : ∀ m ∈ ms, m.HasPlainKeys := fun m hm => hkeys m (hsub hm)
    have hsame {T : Set Token} : IsClosed switches (r₀.scan manifests).1 kept T ↔
        IsClosed switches (r₀.scan manifests).1 ms T :=
      isClosed_congr fun m => hms.mem_iff.symm
    refine ⟨hsame.2 (isClosed_additions hfresh hpaths hsub hdistinct hkeys'), fun T hT => ?_⟩
    exact additions_subset hfresh hpaths hsub hdistinct hkeys' (hsame.1 hT)
  exact ⟨hleast selected hselected, fun other hother => (hleast other hother).unique (hleast selected hselected)⟩

/-- Only the last of three packages uses the standard library from the start. -/
def chain : List Manifest :=
  [("a", "dependencies.b=\"1\"\nfeatures.std=[]\n"), ("b", "dependencies.c=\"1\"\nfeatures.std=[]\n"),
    ("c", "features.std=[\"x\"]\n")].filterMap fun (name, rest) =>
      Manifest.read? ⟨name⟩ ("package.name=\"" ++ name ++ "\"\n" ++ rest)

theorem additions_isLeast_chain :
    Distinct chain ∧ chain.Sublist chain ∧ chain.reverse.Perm chain ∧
      (∀ m ∈ chain, m.HasPlainKeys) ∧
      IsLeast {T | IsClosed [.std] (Registry.empty.scan chain).1 chain T}
        (additions [.std] (Registry.empty.scan chain).1 chain.reverse) ∧
      ∃ a, chain[0]? = some a ∧ (Registry.empty.scan chain).1.uses "b" .std = false ∧
        (a, "b", .std) ∈ additions [.std] (Registry.empty.scan chain).1 chain.reverse := by
  have hdistinct : Distinct chain := by decide +kernel
  have hkeys : ∀ m ∈ chain, m.HasPlainKeys := by decide +kernel
  have htest : chain[0]?.any fun a => !a.hasComments && !a.forwards .std "b" &&
      (settle [.std] (Registry.empty.scan chain).1 chain).manifests[0]?.any (·.forwards .std "b") := by
    decide +kernel
  have hfresh : Registry.empty.Fresh := fun _ => rfl
  obtain ⟨hleast, horder⟩ :=
    additions_isLeast [.std] hfresh hdistinct (.refl _) (List.reverse_perm chain) hkeys
  refine ⟨hdistinct, .refl _, List.reverse_perm chain, hkeys, hleast, ?_⟩
  obtain ⟨a, ha, htest⟩ := (Option.any_eq_true _ _).1 htest
  simp only [Bool.and_eq_true, Bool.not_eq_true', Option.any_eq_true] at htest
  obtain ⟨⟨hc, hold⟩, a', ha', hnew⟩ := htest
  refine ⟨a, ha, by decide +kernel, ?_⟩
  rw [← horder chain (.refl _)]
  exact ⟨0, a', ha, hc, ha', hnew, hold⟩

end FeatureForwarding.Forwarding
