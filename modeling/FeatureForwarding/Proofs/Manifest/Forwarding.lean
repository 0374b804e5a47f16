import FeatureForwarding.Registry.Fact
import FeatureForwarding.Proofs.Toml.Entries

/-! Handing on one more switch. The edit goes through exactly where the token is missing and the
feature can hold it; it appends one token to one list and leaves the package, the dependencies
and every other list as they were. -/

namespace FeatureForwarding.Manifest

open Toml (Key Item Value Table)

variable {m m' : Manifest} {s : Switch} {dependency : String}

/-- Whether the list of the switch can be extended: it is a list or not there yet, in a feature
table that is a table or not there yet. -/
def takes (m : Manifest) (s : Switch) : Bool :=
  (m.item? "features").all fun item => item.tableLike?.any fun fields =>
    (Toml.find? s.name fields).all (·.array?.isSome)

/-- Whether the feature of the switch activates something. -/
def activates (m : Manifest) (s : Switch) : Bool :=
  m.features.any fun feature => feature.1 == s.name && !feature.2.isEmpty

theorem token_inj {s : Switch} {k l : String} : s.token k = s.token l ↔ k = l := by
  simp only [Switch.token, String.append_left_inj]

/-! ### Lists -/

theorem activations_extendListItem? {content : String} {old : Option Item} {new : Item}
    (h : extendListItem? content old = some new) :
    activations new = (old.map activations).getD [] ++ [content] ∧ new.array?.isSome := by
  unfold extendListItem? at h
  split at h
  · obtain ⟨v, hv, rfl⟩ := Option.map_eq_some_iff.1 h
    obtain rfl := Option.some.inj hv
    simp [activations, Item.array?, newElementDecor, Value.ofText, Value.withDecor, Value.text?]
  · obtain ⟨v, hv, rfl⟩ := Option.map_eq_some_iff.1 h
    simp only [extendList?] at hv
    unfold appendText? at hv
    split at hv
    · obtain rfl := Option.some.inj hv
      simp [activations, Item.array?, Value.ofText, Value.withDecor, Value.text?]
    · exact absurd hv (by simp)
  · exact absurd h (by simp)

theorem isSome_extendListItem? (content : String) (old : Option Item) :
    (extendListItem? content old).isSome = old.all (·.array?.isSome) := by
  unfold extendListItem?
  split
  · rfl
  · next v => cases v <;> rfl
  · next item hvalue =>
    cases item with
    | value v => exact absurd rfl (hvalue v)
    | table t => rfl
    | tables ts => rfl

/-- The two forms of a table are extended alike. -/
theorem extendListItem?_map (content : String) (old : Option Value) :
    extendListItem? content (old.map .value) = (extendList? content old).map .value := by
  cases old <;> rfl

/-! ### The feature table -/

theorem tableLike?_extendFeature? {feature content : String} {old : Option Item} {new : Item}
    (h : extendFeature? feature content old = some new) :
    ∃ fields, new.tableLike? = some fields ∧
      Toml.revise? (Key.new feature) (extendListItem? content)
        ((old.bind Item.tableLike?).getD []) = some fields := by
  unfold extendFeature? at h
  split at h
  · obtain ⟨entries, hentries, rfl⟩ := Option.map_eq_some_iff.1 h
    exact ⟨entries, rfl, hentries⟩
  · obtain ⟨entries, hentries, rfl⟩ := Option.map_eq_some_iff.1 h
    exact ⟨entries, rfl, hentries⟩
  · obtain ⟨entries, hentries, rfl⟩ := Option.map_eq_some_iff.1 h
    refine ⟨_, rfl, ?_⟩
    have hmap := Toml.revise?_map (extendListItem?_map content) (Key.new feature)
    simp only [Option.bind_some, Item.tableLike?, Option.getD_some]
    rw [hmap, hentries, Option.map_some]
  · exact absurd h (by simp)

theorem isSome_extendFeature? (feature content : String) (old : Option Item) :
    (extendFeature? feature content old).isSome =
      old.all fun item => item.tableLike?.any fun fields =>
        (Toml.find? feature fields).all (·.array?.isSome) := by
  unfold extendFeature?
  split
  · simp [Toml.isSome_revise?, Toml.find?, extendListItem?, extendList?, appendText?]
  · next t => simp [Toml.isSome_revise?, isSome_extendListItem?, Item.tableLike?, Key.new]
  · next decor dotted preamble entries =>
    have h := isSome_extendListItem? content ((Toml.find? feature entries).map .value)
    rw [extendListItem?_map, Option.isSome_map] at h
    simp [Toml.isSome_revise?, Item.tableLike?, Key.new, Toml.find?_map, h]
  · next item htable hinline =>
    cases item with
    | value v =>
      cases v with
      | scalar decor content => rfl
      | array decor elements comma trailing => rfl
      | inline decor dotted preamble entries => exact absurd rfl (hinline decor dotted preamble entries)
    | table t => exact absurd rfl (htable t)
    | tables ts => rfl

/-! ### The manifest -/

theorem addForwarding?_eq_some (h : m.addForwarding? s dependency = some m') :
    m.forwards s dependency = false ∧
      ∃ entries, m' = { m with document :=
        { m.document with root := m.document.root.withEntries entries } } ∧
      Toml.revise? (Key.new "features") (extendFeature? s.name (s.token dependency))
        m.document.root.entries =
        some entries := by
  unfold addForwarding? at h
  split at h
  · exact absurd h (by simp)
  · next hf =>
    obtain ⟨entries, hentries, rfl⟩ := Option.map_eq_some_iff.1 h
    exact ⟨by simpa using hf, entries, rfl, hentries⟩

/-- The edit goes through exactly where the token is missing and there is room for it. -/
theorem isSome_addForwarding? (m : Manifest) (s : Switch) (dependency : String) :
    (m.addForwarding? s dependency).isSome = (!m.forwards s dependency && m.takes s) := by
  unfold addForwarding?
  split
  · next h => simp [h]
  · next h => simp [h, Toml.isSome_revise?, isSome_extendFeature?, takes, item?, Key.new]

theorem takes_of_addForwarding? (h : m.addForwarding? s dependency = some m') : m.takes s := by
  have hsome := isSome_addForwarding? m s dependency
  rw [h, (addForwarding?_eq_some h).1] at hsome
  simpa using hsome.symm

/-- Where the token is missing, the edit is refused only for lack of room. -/
theorem not_takes_of_addForwarding? (h : m.addForwarding? s dependency = none)
    (hf : m.forwards s dependency = false) : m.takes s = false := by
  have hsome := isSome_addForwarding? m s dependency
  rw [h, hf] at hsome
  simpa using hsome.symm

theorem takes_eq_of_tableLike (h : ∀ item, m.item? "features" = some item → item.tableLike?.isSome)
    (s : Switch) :
    m.takes s = (Toml.find? s.name m.featureItems).all (·.array?.isSome) := by
  unfold takes featureItems
  cases hitem : m.item? "features" with
  | none => rfl
  | some item =>
    obtain ⟨fields, hfields⟩ := Option.isSome_iff_exists.1 (h item hitem)
    simp [hfields]

/-- A manifest that has a feature has a table of them. -/
theorem takes_of_isNoStd (h : m.isNoStd) (s : Switch) :
    m.takes s = (Toml.find? s.name m.featureItems).all (·.array?.isSome) := by
  refine takes_eq_of_tableLike (fun item hitem => ?_) s
  cases htable : item.tableLike? with
  | some fields => rfl
  | none =>
    have hnone : m.featureItems = [] := by simp [featureItems, hitem, htable]
    simp [isNoStd, exposes, hnone, Toml.hasKey, Toml.find?] at h

section Added

variable (h : m.addForwarding? s dependency = some m')
include h

theorem path_addForwarding? : m'.path = m.path := by
  obtain ⟨-, entries, rfl, -⟩ := addForwarding?_eq_some h
  rfl

theorem source_addForwarding? : m'.source = m.source := by
  obtain ⟨-, entries, rfl, -⟩ := addForwarding?_eq_some h
  rfl

theorem item?_addForwarding? {name : String} (hname : name ≠ "features") :
    m'.item? name = m.item? name := by
  obtain ⟨-, entries, rfl, hentries⟩ := addForwarding?_eq_some h
  exact Toml.find?_revise?_of_ne hentries hname

/-- The feature table after the edit, whatever its form. -/
theorem item?_features_addForwarding? :
    ∃ item fields, m'.item? "features" = some item ∧ item.tableLike? = some fields ∧
      Toml.revise? (Key.new s.name) (extendListItem? (s.token dependency)) m.featureItems =
        some fields := by
  obtain ⟨-, entries, rfl, hentries⟩ := addForwarding?_eq_some h
  obtain ⟨item, hitem, hfound⟩ := Toml.find?_revise?_self hentries
  obtain ⟨fields, hfields, hrevised⟩ := tableLike?_extendFeature? hitem
  exact ⟨item, fields, hfound, hfields, hrevised⟩

theorem featureItems_addForwarding? :
    Toml.revise? (Key.new s.name) (extendListItem? (s.token dependency)) m.featureItems =
      some m'.featureItems := by
  obtain ⟨item, fields, hitem, hfields, hrevised⟩ := item?_features_addForwarding? h
  rw [hrevised, featureItems, hitem, Option.bind_some, hfields, Option.getD_some]

theorem packageField?_addForwarding? (field : String) :
    m'.packageField? field = m.packageField? field := by
  simp only [packageField?, item?_addForwarding? h (show "package" ≠ "features" by decide)]

theorem packageName?_addForwarding? : m'.packageName? = m.packageName? :=
    packageField?_addForwarding? h "name"

theorem dependencies_addForwarding? : m'.dependencies = m.dependencies := by
  simp only [dependencies, item?_addForwarding? h (show "dependencies" ≠ "features" by decide),
    item?_addForwarding? h (show "target" ≠ "features" by decide)]

/-- One token is forwarded that was not before. -/
theorem forwards_addForwarding? (s' : Switch) (k : String) :
    m'.forwards s' k ↔ m.forwards s' k ∨ s' = s ∧ k = dependency := by
  have hrevised := featureItems_addForwarding? h
  by_cases hs : s' = s
  · subst hs
    obtain ⟨new, hnew, hfound⟩ := Toml.find?_revise?_self hrevised
    change extendListItem? _ (Toml.find? s'.name m.featureItems) = some new at hnew
    change Toml.find? s'.name m'.featureItems = some new at hfound
    simp only [forwards, hfound, (activations_extendListItem? hnew).1]
    cases Toml.find? s'.name m.featureItems <;> simp [token_inj]
  · have hname : s'.name ≠ s.name := fun hn => hs (Switch.name_inj.1 hn)
    have hsame : Toml.find? s'.name m'.featureItems = Toml.find? s'.name m.featureItems :=
      Toml.find?_revise?_of_ne hrevised hname
    simp [forwards, hsame, hs]

theorem exposes_addForwarding? (feature : String) : m'.exposes feature ↔ m.exposes feature ∨
    feature = s.name := by
  have hrevised := featureItems_addForwarding? h
  by_cases hf : feature = s.name
  · subst hf
    obtain ⟨new, -, hfound⟩ := Toml.find?_revise?_self hrevised
    change Toml.find? s.name m'.featureItems = some new at hfound
    simp [exposes, Toml.hasKey, hfound]
  · have hsame : Toml.find? feature m'.featureItems = Toml.find? feature m.featureItems :=
      Toml.find?_revise?_of_ne hrevised hf
    simp [exposes, Toml.hasKey, hsame, hf]

/-- Room is neither made nor lost. -/
theorem takes_addForwarding? (s' : Switch) : m'.takes s' = m.takes s' := by
  have hrevised := featureItems_addForwarding? h
  have htakes : m.takes s = true := takes_of_addForwarding? h
  have hbefore : ∀ item, m.item? "features" = some item → item.tableLike?.isSome := by
    intro item hitem
    rw [takes, hitem, Option.all_some] at htakes
    exact Option.isSome_of_any htakes
  have hafter : ∀ item, m'.item? "features" = some item → item.tableLike?.isSome := by
    intro item hitem
    obtain ⟨item', fields, hitem', hfields, -⟩ := item?_features_addForwarding? h
    obtain rfl := Option.some.inj (hitem.symm.trans hitem')
    simp [hfields]
  rw [takes_eq_of_tableLike hbefore, takes_eq_of_tableLike hafter]
  by_cases hs : s' = s
  · subst hs
    obtain ⟨new, hnew, hfound⟩ := Toml.find?_revise?_self hrevised
    change extendListItem? _ (Toml.find? s'.name m.featureItems) = some new at hnew
    change Toml.find? s'.name m'.featureItems = some new at hfound
    rw [hfound, Option.all_some, (activations_extendListItem? hnew).2, ← isSome_extendListItem?
      (s'.token dependency), hnew]
    rfl
  · have hname : s'.name ≠ s.name := fun hn => hs (Switch.name_inj.1 hn)
    have hsame : Toml.find? s'.name m'.featureItems = Toml.find? s'.name m.featureItems :=
      Toml.find?_revise?_of_ne hrevised hname
    rw [hsame]

/-- One more feature activates something. -/
theorem activates_addForwarding? (s' : Switch) : m'.activates s' ↔ m.activates s' ∨ s' = s := by
  have hrevised := featureItems_addForwarding? h
  have hadded : ∀ {old : Option Item} {new : Item}, extendListItem? (s.token dependency)
    old = some new →
      (activations new).isEmpty = false := by
    intro old new hnew
    simp [(activations_extendListItem? hnew).1]
  simp only [activates, features, List.any_map]
  rcases Toml.revise?_eq_some hrevised with ⟨-, new, hnew, hitems⟩ | ⟨front, key, old, back, new,
    hitems, hkey, -, hnew, hitems'⟩
  · rw [hitems]
    simp [Key.new, hadded hnew, eq_comm (a := s)]
  · rw [hitems, hitems']
    change key.name = s.name at hkey
    by_cases hs : s' = s
    · subst hs
      simp [hkey, hadded hnew]
    · simp [hkey, hs, Ne.symm hs]

end Added

end FeatureForwarding.Manifest
