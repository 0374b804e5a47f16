import FeatureForwarding.Proofs.Lint.Canonical

/-! What comes out of the canonical form is in canonical form, as long as it is not written and read
again: the fields state the standards, the sections and the lists are in order, and the blank lines
between sections do not undo any of it. -/

namespace FeatureForwarding

open Toml (Key Item Value Table Document find? names)

namespace Toml

variable {α β : Type}

theorem find?_mapNamed (g : String → α → β) (name : String) (entries : List (Key × α)) :
    find? name (entries.map fun (key, content) => (key, g key.name content)) =
      (find? name entries).map (g name) := by
  induction entries with
  | nil => rfl
  | cons entry rest ih =>
    obtain ⟨key, content⟩ := entry
    rw [List.map_cons, find?, find?, ih]
    split
    · next hname => rw [hname]; rfl
    · rfl

end Toml

namespace Lint

variable {standards : Standards} {root : Table} {first : Option HeaderPath} {path : HeaderPath}
  {item other : Item}

/-! ### Package fields -/

theorem isNeeded_eq_content (wanted : String) (current : Option Item) :
    Standards.isNeeded wanted current =
      match current.map Item.content with
      | none => true
      | some c => c.text?.any (· != wanted) := by
  cases current with
  | none => rfl
  | some item => rw [Standards.isNeeded, item.text?_eq_content]; rfl

/-- Whether fields are stated does not depend on the text around them. -/
theorem IsStandard.of_content (h : IsStandard standards item) (hcontent : other.content = item.content) :
    IsStandard standards other := by
  intro fields hfields
  have hmembers := other.members?_content
  rw [hcontent, item.members?_content, hfields] at hmembers
  obtain ⟨old, hold, heq⟩ := Option.map_eq_some_iff.1 hmembers
  have hsame (name : String) : (find? name fields).map Item.content =
      (find? name old).map Item.content := congrFun heq.symm name
  obtain ⟨hedition, hhomepage⟩ := h old hold
  rw [isNeeded_eq_content] at hedition hhomepage ⊢
  rw [isNeeded_eq_content, hsame, hsame]
  exact ⟨hedition, hhomepage⟩

theorem isNeeded_ofText (wanted : String) :
    Standards.isNeeded wanted (some (.value (Value.ofText wanted))) = false := by
  simp [Standards.isNeeded, Item.text?, Value.text?, Value.ofText]

/-- A field that was set is stated, and the others are as they were. -/
theorem isNeeded_setField {field wanted : String} {fields : List (Key × Item)}
    (hfields : fields ∈ (Standards.setField field wanted item).tableLike?) :
    Standards.isNeeded wanted (find? field fields) = false ∧
      ∃ old ∈ item.tableLike?, ∀ name ≠ field, find? name fields = find? name old := by
  rw [Option.mem_def, tableLike?_setField, Option.map_eq_some_iff] at hfields
  obtain ⟨old, hold, rfl⟩ := hfields
  split
  · refine ⟨?_, old, hold, fun name hne => ?_⟩
    · rw [Toml.find?_put, if_pos rfl, isNeeded_ofText]
    · rw [Toml.find?_put, if_neg hne]
  · next hstated => exact ⟨by simpa using hstated, old, hold, fun _ _ => rfl⟩

theorem isStandard_setFields (standards : Standards) (item : Item) :
    IsStandard standards (standards.setFields item) := by
  intro fields hfields
  obtain ⟨hhomepage, old, hold, hsame⟩ := isNeeded_setField hfields
  obtain ⟨hedition, -⟩ := isNeeded_setField hold
  exact ⟨by rwa [hsame "edition" (by decide)], hhomepage⟩

/-! ### Sections -/

theorem isTable_inlineSection {entry : Key × Item} {entries : List (Key × Item)}
    (h : entry ∈ inlineSection entries) : isTable entry.2 = false := by
  fun_induction inlineSection entries with
  | case1 => exact absurd h List.not_mem_nil
  | case2 key t rest ih =>
    rcases List.mem_cons.1 h with rfl | h
    · rfl
    · exact ih h
  | case3 other rest hother ih =>
    rcases List.mem_cons.1 h with rfl | h
    · obtain ⟨key, item⟩ := entry
      cases item with
      | table t => exact absurd rfl (hother key t)
      | value _ | tables _ => rfl
    · exact ih h

theorem inlineSection_ne_nil {entries : List (Key × Item)} (h : entries ≠ []) :
    inlineSection entries ≠ [] := by
  fun_cases inlineSection entries with
  | case1 => exact absurd rfl h
  | case2 | case3 => exact List.cons_ne_nil _ _

theorem isTable_orderFields (item : Item) : isTable (orderFields item) = isTable item := by
  unfold orderFields
  split <;> rfl

theorem isOrdered_orderSection {t : Table} (h : t.entries ≠ []) : IsOrdered (orderSection t) := by
  have hperm := Text.stableSort_perm entryBefore (inlineSection t.entries)
  have hentries : (orderSection t).entries = (Text.stableSort entryBefore (inlineSection t.entries)).map
      fun entry => (entry.1, orderFields entry.2) := rfl
  constructor
  · intro hnil
    rw [hentries, List.map_eq_nil_iff] at hnil
    rw [hnil] at hperm
    exact inlineSection_ne_nil h hperm.nil_eq.symm
  · intro entry hentry
    obtain ⟨old, hold, rfl⟩ := List.mem_map.1 (hentries ▸ hentry)
    rw [isTable_orderFields, isTable_inlineSection (hperm.mem_iff.1 hold)]
  · intro entry hentry
    obtain ⟨old, -, rfl⟩ := List.mem_map.1 (hentries ▸ hentry)
    exact orderFields_orderFields old.2
  · rw [hentries, List.pairwise_map]
    refine (Text.stableSort_pairwise orders_entryBefore _).imp fun {a b} hab => ?_
    rw [entryBefore, hasPath_orderFields, hasPath_orderFields]
    exact hab

theorem isOrdered_tidied {t : Table} (h : tidied (some item) = some (.table t)) : IsOrdered t := by
  cases item with
  | value _ => simp [tidied] at h
  | tables _ => simp [tidied] at h
  | table old =>
    rw [tidied] at h
    split at h
    · simp at h
    · next hempty =>
      rw [Option.some.injEq, Item.table.injEq] at h
      rw [← h]
      exact isOrdered_orderSection (by simpa using hempty)

/-! ### Lists -/

theorem texts?_zipWith {texts : List String} {vs : List Value} (h : texts.length = vs.length) :
    texts? (texts.zipWith (fun text place => (Value.ofText text).withDecor place.decor) vs) = some texts := by
  induction texts generalizing vs with
  | nil => rfl
  | cons text texts ih =>
    cases vs with
    | nil => exact absurd h nofun
    | cons v vs =>
      rw [List.zipWith_cons_cons, texts?, ih (Nat.succ.inj h)]
      rfl

theorem length_texts? {texts : List String} {vs : List Value} (h : texts? vs = some texts) :
    texts.length = vs.length := by
  fun_induction texts? vs generalizing texts with
  | case1 => rw [← Option.some.inj h]; rfl
  | case2 v vs ih =>
    obtain ⟨text, -, rest, hrest, h⟩ : ∃ text, v.text? = some text ∧ ∃ rest, texts? vs = some rest ∧
        some (text :: rest) = some texts := by
      simpa [Option.bind_eq_some_iff] using h
    rw [← Option.some.inj h, List.length_cons, List.length_cons, ih hrest]

theorem orders_texts : Text.Orders fun a b : String => decide (a < b) where
  asymm a b h := decide_eq_false (String.not_lt.2 (Std.le_of_lt (of_decide_eq_true h)))
  trans a b c hab hbc := by
    simp only [decide_eq_false_iff_not, String.not_lt] at *
    exact Std.le_trans hab hbc

theorem sortTexts_sortTexts (vs : List Value) : sortTexts (sortTexts vs) = sortTexts vs := by
  cases hvs : texts? vs with
  | none => simp only [sortTexts, hvs]
  | some texts =>
    by_cases hsorted : isSorted texts
    · simp only [sortTexts, hvs, hsorted, if_true]
    · have hlength := (Text.stableSort_perm (fun a b : String => a < b) texts).length_eq.trans
        (length_texts? hvs)
      have hagain : isSorted (Text.stableSort (fun a b : String => a < b) texts) = true := by
        refine decide_eq_true ((Text.stableSort_pairwise orders_texts texts).imp fun {a b} hab => ?_)
        exact String.not_lt.1 (of_decide_eq_false hab)
      simp only [sortTexts, hvs, hsorted, Bool.false_eq_true, if_false, texts?_zipWith hlength, hagain,
        if_true]

theorem sortList_sortList (v : Value) : sortList (sortList v) = sortList v := by
  match v with
  | .scalar _ _ => rfl
  | .inline _ _ _ _ => rfl
  | .array decor vs comma trailing => rw [sortList, sortList, sortTexts_sortTexts]

theorem hasSortedLists_sortFeatureLists (item : Item) : HasSortedLists (sortFeatureLists item) := by
  intro fields hfields entry hentry v hv
  cases item with
  | tables _ => simp [sortFeatureLists, Item.tableLike?] at hfields
  | table t =>
    rw [Option.mem_def, sortFeatureLists, Item.tableLike?, Option.some.injEq] at hfields
    rw [← hfields] at hentry
    obtain ⟨⟨key, old⟩, -, rfl⟩ := List.mem_map.1 hentry
    cases old with
    | value old => rw [← Item.value.inj hv, sortList_sortList]
    | table _ => simp at hv
    | tables _ => simp at hv
  | value content =>
    cases content with
    | scalar _ _ => simp [sortFeatureLists, Item.tableLike?] at hfields
    | array _ _ _ _ => simp [sortFeatureLists, Item.tableLike?] at hfields
    | inline _ _ _ entries =>
      rw [Option.mem_def, sortFeatureLists, Item.tableLike?, Option.some.injEq, List.map_map] at hfields
      rw [← hfields] at hentry
      obtain ⟨⟨key, old⟩, -, rfl⟩ := List.mem_map.1 hentry
      rw [← Item.value.inj hv, sortList_sortList]

/-! ### Blank lines -/

/-- The entries of a table below blank lines are the same or have blank lines below themselves. -/
theorem entries_of_spaceItem {name : String} {t : Table} (h : spaceItem first path name item = .table t) :
    ∃ old, item = .table old ∧
      (t.entries = old.entries ∨ t.entries = spaceIn first (path ++ [name]) old.entries) := by
  cases item with
  | value _ => exact absurd h nofun
  | tables _ => exact absurd h nofun
  | table old =>
    rw [spaceItem, Item.table.injEq] at h
    subst h
    refine ⟨old, rfl, ?_⟩
    split
    · exact .inl rfl
    · exact .inr (entries_spaceBelow ..)
    · exact .inr (entries_spaceBelow ..)

theorem IsOrdered.spaced {name : String} {t t' : Table} (h : IsOrdered t)
    (hspaced : spaceItem first path name (.table t) = .table t') : IsOrdered t' := by
  obtain ⟨_, heq, hentries⟩ := entries_of_spaceItem hspaced
  cases heq
  rcases hentries with hentries | hentries
  · exact ⟨hentries ▸ h.nonempty, hentries ▸ h.inline, hentries ▸ h.fields, hentries ▸ h.entries⟩
  · rw [spaceIn_eq_map] at hentries
    constructor
    · simpa [hentries] using h.nonempty
    · intro entry hentry
      obtain ⟨⟨key, old⟩, hold, rfl⟩ := List.mem_map.1 (hentries ▸ hentry)
      have hinline := h.inline _ hold
      cases old <;> exact hinline
    · intro entry hentry
      obtain ⟨⟨key, old⟩, hold, rfl⟩ := List.mem_map.1 (hentries ▸ hentry)
      have hinline := h.inline _ hold
      have hfields := h.fields _ hold
      cases old with
      | value v => exact hfields
      | table _ => exact absurd hinline nofun
      | tables _ => rfl
    · rw [hentries, List.pairwise_map]
      refine h.entries.imp fun {a b} hab => ?_
      rw [entryBefore, hasPath_eq_content, hasPath_eq_content, Item.content, Item.content, data_spaceItem,
        data_spaceItem, ← Item.content, ← Item.content, ← hasPath_eq_content, ← hasPath_eq_content]
      exact hab

theorem HasSortedLists.spaced {name : String} (h : HasSortedLists item) :
    HasSortedLists (spaceItem first path name item) := by
  cases hspaced : spaceItem first path name item with
  | tables _ => exact fun fields hfields => absurd hfields nofun
  | value v =>
    have hitem : item = .value v := by
      cases item with
      | value _ => exact hspaced
      | table _ => exact absurd hspaced nofun
      | tables _ => exact absurd hspaced nofun
    exact hitem ▸ h
  | table t =>
    obtain ⟨old, rfl, hentries⟩ := entries_of_spaceItem hspaced
    rintro fields ⟨⟩ entry hentry v hv
    rcases hentries with hentries | hentries
    · exact h old.entries rfl entry (hentries ▸ hentry) v hv
    · rw [hentries, spaceIn_eq_map] at hentry
      obtain ⟨⟨key, inner⟩, hold, rfl⟩ := List.mem_map.1 hentry
      cases inner with
      | value _ => exact h old.entries rfl _ hold v hv
      | table _ => exact absurd hv nofun
      | tables _ => exact absurd hv nofun

/-! ### The canonical form -/

theorem find?_normalize (standards : Standards) {doc : Document} (name : String) :
    find? name (doc.normalize standards).root.entries =
      (find? name (arranged standards doc.root).entries).map
        (spaceItem (firstHeader (arranged standards doc.root)) [] name) := by
  rw [Document.normalize, spaceHeaders, entries_spaceBelow, spaceIn_eq_map, ← Toml.find?_mapNamed]
  rfl

/-- What comes out of the canonical form is in canonical form. -/
theorem canonical_normalize (standards : Standards) {doc : Document}
    (h : (names doc.root.entries).Nodup) : Canonical standards (doc.normalize standards).root where
  package item hitem := by
    rw [Option.mem_def, find?_normalize, find?_arranged standards h, if_pos rfl, Option.map_map,
      Option.map_eq_some_iff] at hitem
    obtain ⟨old, -, rfl⟩ := hitem
    exact (isStandard_setFields standards old).of_content (congrArg Toml.Datum.content (data_spaceItem _ _))
  sections name hname t ht := by
    have hplain : name ≠ "package" := by rintro rfl; revert hname; decide
    rw [find?_normalize, find?_arranged standards h, if_neg hplain, if_pos hname,
      Option.map_eq_some_iff] at ht
    obtain ⟨old, hold, hspaced⟩ := ht
    obtain ⟨t', rfl, -⟩ := entries_of_spaceItem hspaced
    cases hfound : find? name doc.root.entries with
    | none => rw [hfound] at hold; exact absurd hold nofun
    | some item => exact (isOrdered_tidied (hfound ▸ hold)).spaced hspaced
  features item hitem := by
    rw [Option.mem_def, find?_normalize, find?_arranged standards h, if_neg (by decide),
      if_neg (by decide), if_pos rfl, Option.map_map, Option.map_eq_some_iff] at hitem
    obtain ⟨old, -, rfl⟩ := hitem
    exact (hasSortedLists_sortFeatureLists old).spaced
  headers := spaceHeaders_spaceHeaders _

/-- The canonical form of a document in memory stays as it is. -/
theorem normalize_normalize (standards : Standards) {doc : Document}
    (h : (names doc.root.entries).Nodup) :
    (doc.normalize standards).normalize standards = doc.normalize standards :=
  (canonical_normalize standards h).normalize

end Lint

end FeatureForwarding
