import FeatureForwarding.Lint.CanonicalForm
import FeatureForwarding.Proofs.Toml.Data

/-! What the canonical form does to the data of a document. Blank lines do not touch it, and neither
does turning tables into inline tables; fields and dependencies are put into another order; a list of
texts is sorted; and of a package only the fields of the standards are set. -/

namespace FeatureForwarding

open Toml (Key Item Value Table Decor Datum Content find? names)

namespace Text

variable {α : Type} {before : α → α → Bool}

/-- Entries of one name keep their order, so that the first of them stays the first. -/
theorem find?_stableSort {before : Key × α → Key × α → Bool}
    (hname : ∀ a b, before a b → a.1.name ≠ b.1.name) (name : String) (entries : List (Key × α)) :
    find? name (stableSort before entries) = find? name entries := by
  have hinsert (entry : Key × α) (entries : List (Key × α)) :
      find? name (insertBy before entry entries) = find? name (entry :: entries) := by
    induction entries with
    | nil => rfl
    | cons other rest ih =>
      obtain ⟨key, content⟩ := entry
      obtain ⟨key', content'⟩ := other
      rw [insertBy]
      split
      · next hbefore =>
        have hne : key'.name ≠ key.name := hname _ _ hbefore
        rw [find?, ih, find?, find?, find?]
        by_cases hkey : key'.name = name
        · rw [if_pos hkey, if_neg fun heq => hne (hkey.trans heq.symm), if_pos hkey]
        · rw [if_neg hkey, if_neg hkey]
      · rfl
  induction entries with
  | nil => rfl
  | cons entry rest ih =>
    obtain ⟨key, content⟩ := entry
    rw [stableSort, hinsert, find?, find?, ih]

end Text

namespace Lint

/-! ### Blank lines -/

mutual

theorem data_spaceBelow (first : Option HeaderPath) (path : HeaderPath) (t : Table) :
    (spaceBelow first path t).data = t.data := by
  obtain ⟨_, _, _, entries⟩ := t
  rw [spaceBelow, Table.data, Table.data, dataIn_spaceIn first path entries]
  termination_by structural t

theorem dataIn_spaceIn (first : Option HeaderPath) (path : HeaderPath) (entries : List (Key × Item)) :
    Item.dataIn (spaceIn first path entries) = Item.dataIn entries := by
  match entries with
  | [] => rfl
  | (key, .value v) :: rest => rw [spaceIn, Item.dataIn, Item.dataIn, dataIn_spaceIn first path rest]
  | (key, .table t) :: rest =>
    have hspaced := data_spaceBelow first (path ++ [key.name]) t
    rw [spaceIn, Item.dataIn, Item.dataIn, dataIn_spaceIn first path rest, Item.data, Item.data]
    split
    · rfl
    · rw [hspaced]
    · rw [spaceHeader, Table.data_eq, ← Table.data_eq (spaceBelow ..), hspaced]
  | (key, .tables ts) :: rest =>
    rw [spaceIn, Item.dataIn, Item.dataIn, dataIn_spaceIn first path rest, Item.data, Item.data,
      dataAll_spaceArray first path key.name 0 ts]
  termination_by structural entries

theorem dataAll_spaceArray (first : Option HeaderPath) (path : HeaderPath) (name : String)
    (index : Nat) (ts : List Table) :
    Table.dataAll (spaceArray first path name index ts) = Table.dataAll ts := by
  match ts with
  | [] => rfl
  | t :: ts =>
    rw [spaceArray, Table.dataAll, Table.dataAll, dataAll_spaceArray first path name (index + 1) ts,
      spaceHeader, Table.data_eq, ← Table.data_eq (spaceBelow ..),
      data_spaceBelow first (path ++ [elementName name index]) t]
  termination_by structural ts

end

theorem data_spaceHeaders (root : Table) : (spaceHeaders root).data = root.data :=
  data_spaceBelow (firstHeader root) [] root

/-! ### Inline tables -/

theorem dataIn_unsetDecor (entries : List (Key × Value)) :
    Value.dataIn (unsetDecor entries) = Value.dataIn entries := by
  simp [unsetDecor, Value.dataIn_eq_map]

theorem dataAll_spaceElements (vs : List Value) : Value.dataAll (spaceElements vs) = Value.dataAll vs := by
  cases vs <;> simp [spaceElements, Value.dataAll_eq_map]

mutual

theorem data_inlineItem (item : Item) : (inlineItem item).data = item.data := by
  match item with
  | .value v => rfl
  | .table t => rw [inlineItem, Item.data, data_inlineTable t]
  | .tables ts => rw [inlineItem, Item.data, Value.data, dataAll_spaceElements, dataAll_inlineTables ts]
  termination_by structural item

theorem data_inlineTable (t : Table) : (inlineTable t).data = .table t.data := by
  obtain ⟨_, _, _, entries⟩ := t
  rw [inlineTable, Value.data, dataIn_unsetDecor, Table.data, dataIn_inlineEntries entries]
  termination_by structural t

theorem dataAll_inlineTables (ts : List Table) : Value.dataAll (inlineTables ts) = Table.dataAll ts := by
  match ts with
  | [] => rfl
  | t :: ts =>
    rw [inlineTables, Value.dataAll, Table.dataAll, data_inlineTable t, dataAll_inlineTables ts]
  termination_by structural ts

theorem dataIn_inlineEntries (entries : List (Key × Item)) :
    Value.dataIn (inlineEntries entries) = Item.dataIn entries := by
  match entries with
  | [] => rfl
  | (key, item) :: rest =>
    rw [inlineEntries, Value.dataIn, Item.dataIn, data_inlineItem item, dataIn_inlineEntries rest]
  termination_by structural entries

end

theorem dataIn_inlineSection (entries : List (Key × Item)) :
    Item.dataIn (inlineSection entries) = Item.dataIn entries := by
  fun_induction inlineSection entries with
  | case1 => rfl
  | case2 key t rest ih => rw [Item.dataIn, Item.dataIn, ih, Item.data, Item.data, data_inlineTable]
  | case3 entry rest _ ih => rw [Item.dataIn, Item.dataIn, ih]

/-! ### The order of fields -/

theorem name_ne_of_fieldBefore (a b : Key × Value) (h : fieldBefore a b) : a.1.name ≠ b.1.name := by
  intro heq
  simp [fieldBefore, heq] at h

theorem content_inline (decor : Decor) (dotted : Bool) (preamble : String)
    (entries : List (Key × Value)) :
    (Value.inline decor dotted preamble entries).content =
      .table fun name => (find? name entries).map Value.content := by
  rw [Value.content, Value.data, Datum.content]
  congr 1
  funext name
  rw [Datum.contentIn_eq_lookup, Value.lookup_dataIn, Option.map_map]
  rfl

mutual

theorem content_sortDotted (v : Value) : (sortDotted v).content = v.content := by
  match v with
  | .scalar _ _ => rfl
  | .array _ _ _ _ => rfl
  | .inline _ false _ _ => rfl
  | .inline decor true preamble entries =>
    rw [sortDotted, content_inline, content_inline]
    congr 1
    funext name
    rw [Text.find?_stableSort name_ne_of_fieldBefore, content_sortDottedEntries entries name]
  termination_by structural v

theorem content_sortDottedEntries (entries : List (Key × Value)) (name : String) :
    (find? name (sortDottedEntries entries)).map Value.content =
      (find? name entries).map Value.content := by
  match entries with
  | [] => rfl
  | (key, v) :: rest =>
    rw [sortDottedEntries, find?, find?]
    split
    · rw [Option.map_some, Option.map_some, content_sortDotted v]
    · exact content_sortDottedEntries rest name
  termination_by structural entries

end

theorem content_sortFields (entries : List (Key × Value)) (name : String) :
    (find? name (sortFields entries)).map Value.content = (find? name entries).map Value.content := by
  rw [sortFields, Text.find?_stableSort name_ne_of_fieldBefore, content_sortDottedEntries]

theorem content_unsetDecor (entries : List (Key × Value)) (name : String) :
    (find? name (unsetDecor entries)).map Value.content = (find? name entries).map Value.content := by
  have hcontent : Value.content = Datum.content ∘ Value.data := rfl
  rw [hcontent, ← Option.map_map, ← Value.lookup_dataIn, dataIn_unsetDecor, Value.lookup_dataIn,
    Option.map_map]

theorem content_orderFields (item : Item) : (orderFields item).content = item.content := by
  match item with
  | .value (.scalar _ _) => rfl
  | .value (.array _ _ _ _) => rfl
  | .table _ => rfl
  | .tables _ => rfl
  | .value (.inline decor dotted preamble entries) =>
    have hfields (sorted : List (Key × Value))
        (h : ∀ name, (find? name sorted).map Value.content = (find? name entries).map Value.content) :
        (Value.inline decor dotted preamble sorted).content =
          (Value.inline decor dotted preamble entries).content := by
      rw [content_inline, content_inline]
      congr 1
      funext name
      exact h name
    rw [orderFields]
    refine hfields _ fun name => ?_
    split
    · rw [content_unsetDecor, content_sortFields]
    · exact content_sortFields entries name

/-- A section is put into another order, and its entries keep their content. -/
theorem data_orderSection_perm (t : Table) :
    ((orderSection t).data.map fun (key, d) => (key, d.content)).Perm
      (t.data.map fun (key, d) => (key, d.content)) := by
  have hmap (entries : List (Key × Item)) : (Item.dataIn entries).map (fun (key, d) => (key, d.content)) =
      entries.map fun entry => (entry.1.name, entry.2.content) := by
    rw [Item.dataIn_eq_map, List.map_map]
    rfl
  rw [orderSection, Table.data_withEntries, Table.data_eq t, ← dataIn_inlineSection t.entries, hmap, hmap,
    List.map_map]
  simp only [Function.comp_def, content_orderFields]
  exact (Text.stableSort_perm entryBefore _).map _

theorem content_of_tableLike? {item : Item} {fields : List (Key × Item)}
    (h : item.tableLike? = some fields) :
    item.content = .table fun name => (find? name fields).map Item.content := by
  have hmembers := item.members?_content
  rw [h, Option.map_some] at hmembers
  cases hcontent : item.content <;> rw [hcontent] at hmembers <;>
    simp_all [Content.members?]

/-- A section whose keys are distinct keeps its content. -/
theorem content_orderSection {t : Table} (h : (names t.entries).Nodup) :
    (Item.table (orderSection t)).content = (Item.table t).content := by
  have hinline (name : String) : (find? name (inlineSection t.entries)).map Item.content =
      (find? name t.entries).map Item.content := by
    have hcontent : Item.content = Datum.content ∘ Item.data := rfl
    rw [hcontent, ← Option.map_map, ← Option.map_map, ← Item.lookup_dataIn, ← Item.lookup_dataIn,
      dataIn_inlineSection]
  have hnames : (names (inlineSection t.entries)).Nodup := by
    have hdata (entries : List (Key × Item)) : names entries = (Item.dataIn entries).map (·.1) := by
      rw [Item.dataIn_eq_map, List.map_map]
      rfl
    rwa [hdata, dataIn_inlineSection, ← hdata]
  have htable (t : Table) : (Item.table t).content = .table fun name =>
      (find? name t.entries).map Item.content := content_of_tableLike? rfl
  rw [htable, htable]
  congr 1
  funext name
  have hsorted := Toml.find?_perm hnames (Text.stableSort_perm entryBefore (inlineSection t.entries)) name
  rw [← hinline, ← hsorted, orderSection, Table.withEntries, Toml.find?_map, Option.map_map]
  exact congrArg (Option.map · _) (funext content_orderFields)

/-! ### Lists of texts -/

/-- Sorts a list that holds nothing but texts. -/
def sortedTexts : Datum → Datum
  | .list elements =>
    if elements.all (·.text?.isSome) then
      .list ((Text.stableSort (fun a b => a < b) (elements.filterMap Datum.text?)).map .text)
    else .list elements
  | d => d

theorem texts?_eq (vs : List Value) :
    texts? vs = if vs.all (·.text?.isSome) then some (vs.filterMap Value.text?) else none := by
  induction vs with
  | nil => rfl
  | cons v vs ih =>
    rw [texts?, ih, List.all_cons]
    cases hv : v.text? with
    | none => rfl
    | some content =>
      rw [List.filterMap_cons_some hv]
      cases vs.all (·.text?.isSome) <;> rfl

theorem data_ofText (content : String) : (Value.ofText content).data = .text content := rfl

theorem dataAll_zipWith {texts : List String} {vs : List Value} (h : texts.length = vs.length) :
    Value.dataAll (texts.zipWith (fun text place => (Value.ofText text).withDecor place.decor) vs) =
      texts.map .text := by
  induction texts generalizing vs with
  | nil => rfl
  | cons text texts ih =>
    cases vs with
    | nil => exact absurd h nofun
    | cons v vs =>
      rw [List.zipWith_cons_cons, Value.dataAll, ih (Nat.succ.inj h), Value.data_withDecor, data_ofText,
        List.map_cons]

theorem text?_data (v : Value) : v.data.text? = v.text? := ((Item.value v).text?_eq_data).symm

theorem eq_texts_of_all {ds : List Datum} (h : ds.all (·.text?.isSome)) :
    ds = (ds.filterMap Datum.text?).map .text := by
  induction ds with
  | nil => rfl
  | cons d ds ih =>
    rw [List.all_cons, Bool.and_eq_true] at h
    obtain ⟨content, hcontent⟩ := Option.isSome_iff_exists.1 h.1
    have hd : d = .text content := by cases d <;> simp_all [Datum.text?]
    rw [List.filterMap_cons_some hcontent, List.map_cons, ← ih h.2, hd]

theorem data_sortList (v : Value) : (sortList v).data = sortedTexts v.data := by
  match v with
  | .scalar _ content => cases content <;> rfl
  | .inline _ _ _ _ => rfl
  | .array decor vs comma trailing =>
    have htexts : (Value.dataAll vs).filterMap Datum.text? = vs.filterMap Value.text? := by
      rw [Value.dataAll_eq_map, List.filterMap_map]
      exact congrArg (List.filterMap · vs) (funext text?_data)
    have hall : (Value.dataAll vs).all (·.text?.isSome) = vs.all (·.text?.isSome) := by
      rw [Value.dataAll_eq_map, List.all_map]
      exact congrArg (List.all vs) (funext fun v => by simp [text?_data])
    rw [sortList, Value.data, Value.data, sortedTexts, hall, htexts, sortTexts, texts?_eq]
    by_cases hvs : vs.all (·.text?.isSome)
    · have hdata : Value.dataAll vs = (vs.filterMap Value.text?).map .text := by
        rw [← htexts, ← eq_texts_of_all (hall ▸ hvs)]
      have hlength : (vs.filterMap Value.text?).length = vs.length := by
        simpa [Value.dataAll_eq_map] using (congrArg List.length hdata).symm
      rw [if_pos hvs, if_pos hvs]
      dsimp only
      split
      · next hsorted =>
        have hordered := of_decide_eq_true hsorted
        rw [Text.stableSort_of_pairwise (hordered.imp fun hle => decide_eq_false (String.not_lt.2 hle)), ← hdata]
      · rw [dataAll_zipWith ((Text.stableSort_perm _ _).length_eq.trans hlength)]
    · rw [if_neg hvs, if_neg hvs]

theorem data_sortFeatureLists (item : Item) : (sortFeatureLists item).data =
    match item.data with
    | .table members => .table (members.map fun (name, d) => (name, sortedTexts d))
    | d => d := by
  cases item with
  | tables _ => rfl
  | value v =>
    cases v with
    | scalar _ content => cases content <;> rfl
    | array _ _ _ _ => rfl
    | inline decor dotted preamble entries =>
      rw [sortFeatureLists, Item.data, Item.data, Value.data, Value.data]
      simp only [Value.dataIn_eq_map, List.map_map, Function.comp_def, data_sortList]
  | table t =>
    -- only a value can be a list of texts
    have hlist (ts : List Table) : sortedTexts (.list (Table.dataAll ts)) = .list (Table.dataAll ts) := by
      cases ts with
      | nil => rfl
      | cons t ts => simp [sortedTexts, Table.dataAll, Datum.text?]
    rw [sortFeatureLists, Item.data, Item.data, Table.data_withEntries, Table.data_eq]
    simp only [Item.dataIn_eq_map, List.map_map]
    congr 1
    refine List.map_congr_left fun entry _ => ?_
    obtain ⟨key, item⟩ := entry
    cases item with
    | value v => simp [Item.data, data_sortList]
    | table _ => simp [Item.data, sortedTexts]
    | tables ts => simp [Item.data, hlist]

/-! ### The fields of a package -/

/-- What a field holds that states the wanted text unless it holds something else than a text. -/
def stated (wanted : String) : Option Content → Option Content
  | none => some (.text wanted)
  | some (.text _) => some (.text wanted)
  | other => other

def withField (field wanted : String) : Content → Content
  | .table members => .table fun name =>
    if name = field then stated wanted (members name) else members name
  | c => c

theorem stated_of_needed {wanted : String} {current : Option Item}
    (h : Standards.isNeeded wanted current = true) :
    stated wanted (current.map Item.content) = some (.text wanted) := by
  cases current with
  | none => rfl
  | some item =>
    have htext := item.text?_eq_content
    cases hcontent : item.content <;> simp_all [Standards.isNeeded, stated, Content.text?]

theorem stated_of_not_needed {wanted : String} {current : Option Item}
    (h : Standards.isNeeded wanted current = false) :
    stated wanted (current.map Item.content) = current.map Item.content := by
  cases current with
  | none => exact absurd h nofun
  | some item =>
    have htext := item.text?_eq_content
    cases hcontent : item.content <;> simp_all [Standards.isNeeded, stated, Content.text?]

theorem tableLike?_setField (field wanted : String) (item : Item) :
    (Standards.setField field wanted item).tableLike? = item.tableLike?.map fun fields =>
      if Standards.isNeeded wanted (find? field fields) then
        Toml.put field (.value (Value.ofText wanted)) fields
      else fields := by
  cases item with
  | tables _ => rfl
  | table t =>
    rw [Standards.setField]
    split
    · next hneeded => simp [Item.tableLike?, hneeded, Table.withEntries]
    · next hstated => simp [Item.tableLike?, hstated]
  | value v =>
    cases v with
    | scalar _ _ => rfl
    | array _ _ _ _ => rfl
    | inline decor dotted preamble entries =>
      have hput (entries : List (Key × Value)) :
          (Toml.put field (Value.ofText wanted) entries).map (fun entry => (entry.1, Item.value entry.2)) =
            Toml.put field (.value (Value.ofText wanted))
              (entries.map fun entry => (entry.1, .value entry.2)) := by
        induction entries with
        | nil => rfl
        | cons entry rest ih =>
          rw [Toml.put, List.map_cons, Toml.put]
          split
          · rfl
          · rw [List.map_cons, ih]
      rw [Standards.setField, Item.tableLike?, Option.map_some, Toml.find?_map]
      split
      · exact congrArg some (hput entries)
      · rw [Item.tableLike?]

theorem content_setField (field wanted : String) (item : Item) :
    (Standards.setField field wanted item).content = withField field wanted item.content := by
  have htable := tableLike?_setField field wanted item
  cases hfields : item.tableLike? with
  | none =>
    have hsame : Standards.setField field wanted item = item := by
      match item with
      | .value (.scalar _ _) => rfl
      | .value (.array _ _ _ _) => rfl
      | .tables _ => rfl
    have hmembers := item.members?_content
    rw [hfields, Option.map_none] at hmembers
    rw [hsame]
    cases hcontent : item.content <;> rw [hcontent] at hmembers <;>
      first | rfl | exact absurd hmembers nofun
  | some fields =>
    rw [hfields, Option.map_some] at htable
    rw [content_of_tableLike? htable, content_of_tableLike? hfields, withField]
    congr 1
    funext name
    split
    · next hneeded =>
      rw [Toml.find?_put]
      by_cases hname : name = field
      · rw [if_pos hname, if_pos hname, hname, stated_of_needed hneeded]
        rfl
      · rw [if_neg hname, if_neg hname]
    · next hstated =>
      by_cases hname : name = field
      · rw [if_pos hname, hname, stated_of_not_needed (by simpa using hstated)]
      · rw [if_neg hname]

end Lint

end FeatureForwarding
