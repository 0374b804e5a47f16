import FeatureForwarding.Proofs.Manifest.Forwarding

/-! Handing a switch on in place, one step after the other: a feature table is made where there is none, in it
the list of the switch, and in that the token. A step that finds something else stops, and nothing has been
made by then, so that no document is left half changed. -/

namespace FeatureForwarding

open Toml (Key Item Value Table)

/-- A list that no text contains yet. -/
def Toml.Item.emptyList : Item := .value (.array {} [] false "")

namespace Manifest

variable {m : Manifest} {s : Switch} {dependency : String}

def withRoot (m : Manifest) (entries : List (Key × Item)) : Manifest :=
  { m with document := { m.document with root := m.document.root.withEntries entries } }

theorem withRoot_root (m : Manifest) : m.withRoot m.document.root.entries = m := by
  rw [withRoot, Toml.Table.withEntries_entries]

/-- Puts a text behind the elements of a list. -/
def pushText (content : String) : Value → Value
  | .array decor elements comma trailing =>
    .array decor (elements ++ [(Value.ofText content).withDecor (newElementDecor elements)]) comma trailing
  | v => v

def pushItemText (content : String) : Item → Item
  | .value v => .value (pushText content v)
  | item => item

/-- Takes up the list of a feature, in a table of either form. -/
def ensureList (feature : String) : Item → Item
  | .table t => .table (t.withEntries (Toml.ensure feature .emptyList t.entries))
  | .value (.inline decor dotted preamble entries) =>
    .value (.inline decor dotted preamble (Toml.ensure feature (.array {} [] false "") entries))
  | item => item

/-- Puts a text behind those of a feature, in a table of either form. -/
def pushFeatureText (feature content : String) : Item → Item
  | .table t => .table (t.withEntries (Toml.modify feature (pushItemText content) t.entries))
  | .value (.inline decor dotted preamble entries) =>
    .value (.inline decor dotted preamble (Toml.modify feature (pushText content) entries))
  | item => item

def ensureFeatures (m : Manifest) : Manifest :=
  m.withRoot (Toml.ensure "features" (.table .new) m.document.root.entries)

def modifyFeatures (m : Manifest) (f : Item → Item) : Manifest :=
  m.withRoot (Toml.modify "features" f m.document.root.entries)

/-- Hands the switch on step by step, and tells whether that came to its end: there has to be a feature
table, in it the list of the switch, and in that the token. What the steps so far have made stays where a
later one finds no table or no list. -/
def forwardInPlace (m : Manifest) (s : Switch) (dependency : String) : Manifest × Bool :=
  if m.forwards s dependency then (m, false)
  else
    let m := m.ensureFeatures
    if !(m.item? "features").any (·.tableLike?.isSome) then (m, false)
    else
      let m := m.modifyFeatures (ensureList s.name)
      if !(Toml.find? s.name m.featureItems).any (·.array?.isSome) then (m, false)
      else (m.modifyFeatures (pushFeatureText s.name (s.token dependency)), true)

theorem extendList?_none (content : String) :
    extendList? content none = some (pushText content (.array {} [] false "")) := rfl

theorem extendListItem?_none (content : String) :
    extendListItem? content none = some (pushItemText content .emptyList) := rfl

theorem extendList?_eq (content : String) (v : Value) :
    extendList? content (some v) = if (Item.value v).array?.isSome then some (pushText content v) else none := by
  cases v <;> rfl

theorem extendListItem?_eq (content : String) (item : Item) :
    extendListItem? content (some item) =
      if item.array?.isSome then some (pushItemText content item) else none := by
  rcases item with (_ | _ | _) | _ | _ <;> rfl

/-- The edit of a table that is there. -/
theorem extendFeature?_eq (feature content : String) (item : Item) :
    extendFeature? feature content (some item) =
      if item.tableLike?.any fun fields => (Toml.find? feature fields).all (·.array?.isSome) then
        some (pushFeatureText feature content (ensureList feature item))
      else none := by
  rcases item with (_ | _ | ⟨decor, dotted, preamble, entries⟩) | t | _
  · rfl
  · rfl
  · rw [extendFeature?, Toml.revise?_eq_modify_ensure (extendList?_none content) (extendList?_eq content)]
    cases hfits : (Toml.find? feature entries).all fun v => (Item.value v).array?.isSome <;>
      simp [hfits, Item.tableLike?, Toml.find?_map, Option.all_map, ensureList,
        pushFeatureText]
  · rw [extendFeature?, Toml.revise?_eq_modify_ensure (extendListItem?_none content) (extendListItem?_eq content)]
    cases hfits : (Toml.find? feature t.entries).all (·.array?.isSome) <;>
      simp [hfits, Item.tableLike?, ensureList, pushFeatureText]
  · rfl

/-- The whole edit: the list is taken up, if it has to be, and then the token. -/
theorem addForwarding?_eq (hf : m.forwards s dependency = false) :
    m.addForwarding? s dependency =
      if m.takes s then
        some (m.ensureFeatures.modifyFeatures fun item =>
          pushFeatureText s.name (s.token dependency) (ensureList s.name item))
      else none := by
  have hnew : extendFeature? s.name (s.token dependency) none =
      some (pushFeatureText s.name (s.token dependency) (ensureList s.name (.table .new))) := by
    simp [extendFeature?, Toml.revise?, extendListItem?, extendList?, appendText?, pushFeatureText,
      ensureList, Toml.ensure, Toml.hasKey, Toml.find?, Toml.modify, Key.new, pushItemText, pushText,
      Item.emptyList, Table.withEntries, Table.new]
  have hroot := Toml.revise?_eq_modify_ensure (g := fun item =>
    pushFeatureText s.name (s.token dependency) (ensureList s.name item)) hnew
    (extendFeature?_eq s.name (s.token dependency)) "features" m.document.root.entries
  rw [addForwarding?, if_neg (by simp [hf])]
  simp only [hroot]
  change Option.map _ (if m.takes s then _ else none) = _
  split <;> rfl

/-! ### The steps -/

theorem ensureFeatures_of_item? {item : Item} (h : m.item? "features" = some item) : m.ensureFeatures = m := by
  rw [ensureFeatures, Toml.ensure_of_find? h, withRoot_root]

theorem item?_ensureFeatures (m : Manifest) :
    m.ensureFeatures.item? "features" = some ((m.item? "features").getD (.table .new)) :=
  Toml.find?_ensure "features" _ _

theorem item?_modifyFeatures (m : Manifest) (f : Item → Item) :
    (m.modifyFeatures f).item? "features" = (m.item? "features").map f := by
  simp [modifyFeatures, withRoot, item?, Toml.find?_modify]

theorem modifyFeatures_modifyFeatures (m : Manifest) (f g : Item → Item) :
    (m.modifyFeatures f).modifyFeatures g = m.modifyFeatures fun item => g (f item) := by
  simp [modifyFeatures, withRoot, Toml.modify_modify]

theorem modifyFeatures_self {f : Item → Item} {item : Item} (h : m.item? "features" = some item)
    (hf : f item = item) : m.modifyFeatures f = m := by
  rw [modifyFeatures, Toml.modify_self h hf, withRoot_root]

theorem tableLike?_ensureList {item : Item} {fields : List (Key × Item)} (h : item.tableLike? = some fields)
    (feature : String) :
    (ensureList feature item).tableLike? = some (Toml.ensure feature .emptyList fields) := by
  rcases item with (_ | _ | ⟨decor, dotted, preamble, entries⟩) | t | _
  · exact absurd h nofun
  · exact absurd h nofun
  · obtain rfl := Option.some.inj h
    exact congrArg some (Toml.ensure_map Item.value _ _ _).symm
  · obtain rfl := Option.some.inj h
    rfl
  · exact absurd h nofun

/-- A list that is there is not taken up again. -/
theorem ensureList_self {item : Item} {fields : List (Key × Item)} (h : item.tableLike? = some fields)
    {feature : String} {old : Item} (hold : Toml.find? feature fields = some old) :
    ensureList feature item = item := by
  rcases item with (_ | _ | ⟨decor, dotted, preamble, entries⟩) | t | _
  · rfl
  · rfl
  · obtain rfl := Option.some.inj h
    rw [Toml.find?_map] at hold
    obtain ⟨v, hv, -⟩ := Option.map_eq_some_iff.1 hold
    rw [ensureList, Toml.ensure_of_find? hv]
  · obtain rfl := Option.some.inj h
    rw [ensureList, Toml.ensure_of_find? hold, Toml.Table.withEntries_entries]
  · rfl

/-- Only an empty table can have been made. -/
theorem ensureFeatures_eq {item : Item} (h : m.ensureFeatures.item? "features" = some item)
    (hfields : item.tableLike? ≠ some []) : m.ensureFeatures = m := by
  rw [item?_ensureFeatures] at h
  cases hitem : m.item? "features" with
  | some old => exact ensureFeatures_of_item? hitem
  | none =>
    rw [hitem] at h
    obtain rfl := Option.some.inj h
    exact absurd rfl hfields

/-- Step by step the same manifest is reached, or the edit stops and has changed nothing. -/
theorem forwardInPlace_eq (m : Manifest) (s : Switch) (dependency : String) :
    m.forwardInPlace s dependency =
      ((m.addForwarding? s dependency).getD m, (m.addForwarding? s dependency).isSome) := by
  rw [Manifest.isSome_addForwarding?]
  cases hf : m.forwards s dependency with
  | true => simp [forwardInPlace, addForwarding?, hf]
  | false =>
    rw [addForwarding?_eq hf]
    -- what stands under the name once something does
    obtain ⟨item, hitem⟩ : ∃ item, m.ensureFeatures.item? "features" = some item :=
      ⟨_, m.item?_ensureFeatures⟩
    have htakes : m.takes s =
        item.tableLike?.any fun fields => (Toml.find? s.name fields).all (·.array?.isSome) := by
      obtain rfl := Option.some.inj (hitem.symm.trans m.item?_ensureFeatures)
      rw [takes]
      cases m.item? "features" <;> rfl
    cases htable : item.tableLike? with
    | none =>
      have hkept : m.ensureFeatures = m := ensureFeatures_eq hitem (by simp [htable])
      rw [hkept] at hitem
      simp [forwardInPlace, hf, hitem, htakes, htable, hkept]
    | some fields =>
      have hfields : (m.ensureFeatures.modifyFeatures (ensureList s.name)).featureItems =
          Toml.ensure s.name .emptyList fields := by
        rw [featureItems, item?_modifyFeatures, hitem, Option.map_some, Option.bind_some,
          tableLike?_ensureList htable, Option.getD_some]
      have hlist := Toml.find?_ensure s.name Item.emptyList fields
      rw [← hfields] at hlist
      cases hold : Toml.find? s.name fields with
      | none =>
        have hfresh : Item.emptyList.array?.isSome = true := rfl
        simp [forwardInPlace, hf, hitem, htakes, htable, hlist, hold, hfresh, modifyFeatures_modifyFeatures]
      | some old =>
        cases harray : old.array?.isSome with
        | true =>
          simp [forwardInPlace, hf, hitem, htakes, htable, hlist, hold, harray, modifyFeatures_modifyFeatures]
        | false =>
          have hkept : m.ensureFeatures = m := by
            refine ensureFeatures_eq hitem fun hnone => ?_
            obtain rfl := Option.some.inj (htable.symm.trans hnone)
            exact absurd hold (by simp [Toml.find?])
          have hkept' : m.ensureFeatures.modifyFeatures (ensureList s.name) = m := by
            rw [modifyFeatures_self hitem (ensureList_self htable hold), hkept]
          rw [hkept'] at hlist
          simp [forwardInPlace, hf, hitem, htakes, htable, hlist, hold, harray, hkept']

end Manifest

end FeatureForwarding
