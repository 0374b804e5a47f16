import FeatureForwarding.Registry.Basic
import FeatureForwarding.Proofs.Manifest.Growth
import FeatureForwarding.Proofs.Registry.Fact

/-! Refreshing a fact. A manifest speaks for its package unless another manifest did so before in
this run; once it has been heard, the registry knows of the package what the manifest activates,
and nobody else can change that. -/

namespace FeatureForwarding

open Files (Path)

namespace Fact

theorem foldl_declare (features : List (String × List String)) (fact : Fact) :
    (features.foldl declare fact).name = fact.name ∧
      (features.foldl declare fact).direct = fact.direct ∧
      ∀ name, name ∈ (features.foldl declare fact).usedFeatures ↔
        name ∈ fact.usedFeatures ∨ ∃ feature ∈ features, feature.1 = name ∧ feature.2 ≠ [] := by
  induction features generalizing fact with
  | nil => simp
  | cons feature rest ih =>
    obtain ⟨hname, hdirect, hused⟩ := ih (fact.declare feature)
    refine ⟨hname, hdirect, fun name => ?_⟩
    rw [List.foldl_cons, hused]
    by_cases hempty : feature.2 = []
    · simp [declare, hempty]
    · simp [declare, hempty, mem_addNew, or_assoc, eq_comm (a := name)]

theorem ofManifest?_eq_some {m : Manifest} {fact : Fact} (h : ofManifest? m = some fact) :
    m.packageName? = some fact.name ∧ fact.direct ∧ ∀ s, fact.uses s = m.activates s := by
  obtain ⟨name, hname, rfl⟩ := Option.map_eq_some_iff.1 h
  obtain ⟨hsame, hdirect, hused⟩ := foldl_declare m.features ⟨name, m.packageVersion?, [], [], true⟩
  refine ⟨hname.trans (congrArg some hsame.symm), hdirect, fun s => ?_⟩
  rw [Bool.eq_iff_iff, uses, List.contains_iff_mem, hused]
  simp [Manifest.activates]

theorem isSome_ofManifest? (m : Manifest) : (ofManifest? m).isSome = m.packageName?.isSome := by
  simp [ofManifest?]

/-- A manifest with a package name states a direct fact. -/
theorem exists_ofManifest? {m : Manifest} {name : String} (h : m.packageName? = some name) :
    ∃ fact, ofManifest? m = some fact ∧ fact.name = name ∧ fact.direct ∧
      ∀ s, fact.uses s = m.activates s := by
  obtain ⟨fact, hfact⟩ : ∃ fact, ofManifest? m = some fact :=
    Option.isSome_iff_exists.1 (by rw [isSome_ofManifest?, h]; rfl)
  obtain ⟨hname, hdirect, huses⟩ := ofManifest?_eq_some hfact
  exact ⟨fact, hfact, Option.some.inj (hname.symm.trans h), hdirect, huses⟩

end Fact

namespace Registry

variable {r : Registry} {m m' : Manifest} {name : String}

/-- Whether the manifest may speak for the package: nobody else did so in this run. -/
def Accepts (r : Registry) (m : Manifest) (name : String) : Prop :=
  m.packageName? = some name ∧ ∀ first, r.definedIn.get? name = some first → first.Same m.path

/-- Whether the fact of the package comes from the manifest. -/
def Supplies (r : Registry) (m : Manifest) (name : String) : Prop :=
  ∃ first, r.definedIn.get? name = some first ∧ first.Same m.path

/-- The registry knows of the package what the manifest tells about it. -/
structure Heard (r : Registry) (m : Manifest) (name : String) : Prop where
  package : m.packageName? = some name
  speaker : ∃ first, r.definedIn.get? name = some first ∧ first.Same m.path
  uses : ∀ s, r.uses name s = m.activates s

theorem Heard.accepts (h : r.Heard m name) : r.Accepts m name := by
  obtain ⟨first, hfirst, hsame⟩ := h.speaker
  refine ⟨h.package, fun other hother => ?_⟩
  obtain rfl := Option.some.inj (hfirst.symm.trans hother)
  exact hsame

theorem accepts_of_grows (h : m.Grows m') : r.Accepts m' name ↔ r.Accepts m name := by
  rw [Accepts, Accepts, h.path, h.packageName?]

theorem uses_define (r : Registry) (d : Definition) (name : String) (s : Switch) :
    (r.define d).uses name s = if name = d.fact.name then d.fact.uses s else r.uses name s := by
  simp only [uses, get?, define, NameMap.get?_insert]
  split <;> rfl

theorem refreshDirect_of_accepts (h : r.Accepts m name) :
    (∀ other s, (r.refreshDirect m).uses other s = if other = name then m.activates s else r.uses other s) ∧
    ∀ other, (r.refreshDirect m).definedIn.get? other =
      if other = name then some m.path else r.definedIn.get? other := by
  obtain ⟨fact, hfact, rfl, -, huses⟩ := Fact.exists_ofManifest? h.1
  have hrefresh : r.refreshDirect m = r.define ⟨fact, m.path⟩ := by
    have hnot : ¬(r.definedIn.get? fact.name).any fun first => !decide (first.Same m.path) := by
      cases hfirst : r.definedIn.get? fact.name with
      | none => simp
      | some first => simp [h.2 first hfirst]
    simp only [refreshDirect, Definition.ofManifest?, hfact, Option.map_some]
    exact if_neg hnot
  rw [hrefresh]
  refine ⟨fun other s => ?_, fun other => ?_⟩
  · rw [uses_define]
    simp [huses]
  · simp [define, NameMap.get?_insert]

theorem refreshDirect_of_not_accepts (h : ∀ name, ¬r.Accepts m name) : r.refreshDirect m = r := by
  unfold refreshDirect
  split
  · rfl
  · next d hd =>
    obtain ⟨fact, hfact, rfl⟩ := Option.map_eq_some_iff.1 hd
    obtain ⟨hname, -, -⟩ := Fact.ofManifest?_eq_some hfact
    refine if_pos ?_
    by_cases hany : (r.definedIn.get? fact.name).any fun first => !decide (first.Same m.path)
    · exact hany
    · refine absurd ⟨hname, fun first hfirst => ?_⟩ (h fact.name)
      simpa [hfirst] using hany

/-- A refreshed manifest has been heard. -/
theorem heard_refreshDirect (h : r.Accepts m name) : (r.refreshDirect m).Heard m name := by
  obtain ⟨huses, hdefined⟩ := refreshDirect_of_accepts h
  exact ⟨h.1, ⟨m.path, by simp [hdefined], rfl⟩, fun s => by simp [huses]⟩

/-- Who has been heard is not touched by a refresh for another manifest. -/
theorem heard_refreshDirect_iff (hpath : ¬m'.path.Same m.path) : (r.refreshDirect m).Heard m' name ↔
    r.Heard m' name := by
  by_cases hm : ∃ own, r.Accepts m own
  · obtain ⟨own, hown⟩ := hm
    obtain ⟨huses, hdefined⟩ := refreshDirect_of_accepts hown
    by_cases hname : name = own
    · subst hname
      refine iff_of_false (fun h => ?_) (fun h => ?_)
      · obtain ⟨first, hfirst, hsame⟩ := h.speaker
        rw [hdefined, if_pos rfl] at hfirst
        exact hpath (Option.some.inj hfirst ▸ hsame).symm
      · obtain ⟨first, hfirst, hsame⟩ := h.speaker
        exact hpath (hsame.symm.trans (hown.2 first hfirst))
    · constructor
      · rintro ⟨hpackage, hspeaker, hactive⟩
        simp only [huses, hdefined, if_neg hname] at hspeaker hactive
        exact ⟨hpackage, hspeaker, hactive⟩
      · rintro ⟨hpackage, hspeaker, hactive⟩
        refine ⟨hpackage, ?_, ?_⟩ <;> simpa only [huses, hdefined, if_neg hname]
  · rw [refreshDirect_of_not_accepts (not_exists.1 hm)]

end Registry

end FeatureForwarding
