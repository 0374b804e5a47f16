import FeatureForwarding.Proofs.Lint.Canonical
import FeatureForwarding.Proofs.Toml.Regrouping
import FeatureForwarding.Proofs.Toml.ReadValues

/-! Values that are put in order can be read again: fields that are set, tables that become inline, fields
of entries and lists of features. -/

namespace FeatureForwarding

open Toml (Decor Key Item Scalar Value Table names)

namespace Lint

variable {key : Key} {v : Value} {vs : List Value} {entries : List (Key × Value)} {name text : String}

/-! ### New fields -/

theorem isLegible_new (hne : name ≠ "") (hbare : name.toList.all Toml.isBareKeyChar) :
    (Key.new name).IsLegible := by
  have hshown : (Key.new name).shown = name := by simp [Key.shown, Key.new, hne, hbare]
  refine ⟨?_, Decor.isBlank_unset⟩
  rw [hshown]
  exact Toml.spells_bare hne (List.all_eq_true.1 hbare)

theorem isLegible_ofText (text : String) : (Value.ofText text).IsLegible := Toml.isLegible_text text

theorem makesLine_new (hname : (Key.new name).IsLegible) (text : String) :
    (Key.new name).MakesLine (Value.ofText text) :=
  ⟨hname, by simp [Decor.IsLead, Key.new], by simp [Key.new], rfl, by simp [Value.ofText, Value.decor],
    by simp [Decor.EndsLine, Value.ofText, Value.decor], isLegible_ofText text⟩

theorem isLegibleAt_new (hname : (Key.new name).IsLegible) (text : String) :
    (Value.ofText text).IsLegibleAt (Key.new name) :=
  ⟨hname, fun _ => ⟨Decor.isBlank_unset, Decor.isBlank_unset⟩, isLegible_ofText text⟩

theorem areEntries_put (hname : (Key.new name).IsLegible) (text : String) (h : Value.AreEntries entries) :
    Value.AreEntries (Toml.put name (Value.ofText text) entries) where
  legible entry hentry := by
    rcases Toml.mem_put hentry with rfl | hentry
    · exact isLegibleAt_new hname text
    · exact h.legible entry hentry
  nodup := Toml.nodup_names_put name _ h.nodup

/-! ### Inline tables -/

theorem isLegible_unset (h : key.IsLegible) : ({ key with decor := {}, dotDecor := {} } : Key).IsLegible :=
  ⟨h.spells, Decor.isBlank_unset⟩

theorem areEntries_unsetDecor (h : ∀ entry ∈ entries, entry.1.IsLegible ∧ entry.2.IsLegible)
    (hnames : (names entries).Nodup) : Value.AreEntries (unsetDecor entries) where
  legible := by
    rw [unsetDecor, List.forall_mem_map]
    intro entry hentry
    obtain ⟨hkey, hv⟩ := h entry hentry
    exact ⟨isLegible_unset hkey, fun _ =>
      ⟨Decor.isBlank_unset, by rw [Toml.decor_withDecor]; exact Decor.isBlank_unset⟩,
      (Toml.isLegible_withDecor ..).2 hv⟩
  nodup := by rwa [names, names_unsetDecor]

theorem areLegible_spaceElements (h : ∀ v ∈ vs, v.IsLegible ∧ v.isDotted = false) :
    Value.AreLegible (spaceElements vs) := by
  have hgap {text : String} (hblank : Toml.IsBlank text) : Decor.IsGap ⟨some text, some ""⟩ := by
    refine ⟨?_, by simpa [Toml.withoutReturns] using Toml.isBlank_empty.isGap⟩
    simpa [hblank.withoutReturns] using hblank.isGap
  have hspaced {v : Value} (hv : v.IsLegible ∧ v.isDotted = false) {text : String}
    (hblank : Toml.IsBlank text) :
      ((v.withDecor ⟨some text, some ""⟩).isDotted = false ∧ (v.withDecor ⟨some text, some ""⟩).decor.IsGap) ∧
        (v.withDecor ⟨some text, some ""⟩).IsLegible := by
    rw [Toml.isDotted_withDecor, Toml.decor_withDecor, Toml.isLegible_withDecor]
    exact ⟨⟨hv.2, hgap hblank⟩, hv.1⟩
  cases vs with
  | nil => trivial
  | cons v vs =>
    obtain ⟨hv, hvs⟩ := List.forall_mem_cons.1 h
    rw [spaceElements, Toml.Value.areLegible_iff, List.forall_mem_cons, List.forall_mem_map]
    exact ⟨hspaced hv Toml.isBlank_empty, fun v hmem => hspaced (hvs v hmem) Toml.isBlank_space⟩

theorem names_inlineEntries (entries : List (Key × Item)) :
    names (inlineEntries entries) = names entries := by
  induction entries with
  | nil => rfl
  | cons entry rest ih => exact congrArg _ ih

/-- The key of a legible entry is legible. -/
theorem isLegible_of_entry {item : Item} (h : Item.AreLegible [(key, item)]) : key.IsLegible := by
  cases item with
  | value v => exact h.1.legible
  | table t => exact h.1.1
  | tables ts => exact h.1.1

mutual

theorem isLegible_inlineItem (item : Item) (key : Key) (h : Item.AreLegible [(key, item)])
    (horderly : Item.AreOrderly [(key, item)]) :
    (inlineItem item).IsLegible ∧ (inlineItem item).isDotted = false := by
  match item with
  | .value v => exact ⟨h.1.value, h.1.isDotted⟩
  | .table t => exact isLegible_inlineTable t h.2.1 horderly.2.1
  | .tables ts =>
    refine ⟨⟨areLegible_spaceElements (isLegible_inlineTables ts h.2.1 horderly.2.1), rfl,
      fun _ _ => rfl⟩, rfl⟩
  termination_by structural item

theorem isLegible_inlineTable (t : Table) (h : t.IsLegible) (horderly : t.IsOrderly) :
    (inlineTable t).IsLegible ∧ (inlineTable t).isDotted = false := by
  obtain ⟨_, _, _, entries⟩ := t
  have hentries := areEntries_unsetDecor (isLegible_inlineEntries entries h horderly.2)
    (by rw [names_inlineEntries]; exact horderly.1)
  exact ⟨⟨Value.isLegibleIn_iff.2 hentries.legible, hentries.nodup, Toml.isBlank_empty, fun _ => rfl⟩, rfl⟩
  termination_by structural t

theorem isLegible_inlineTables (ts : List Table) (h : Table.AreLegible ts) (horderly : Table.AreOrderly ts) :
    ∀ v ∈ inlineTables ts, v.IsLegible ∧ v.isDotted = false := by
  match ts with
  | [] => exact fun v hv => absurd hv List.not_mem_nil
  | t :: ts =>
    exact List.forall_mem_cons.2 ⟨isLegible_inlineTable t h.2.1 horderly.1,
      isLegible_inlineTables ts h.2.2 horderly.2⟩
  termination_by structural ts

theorem isLegible_inlineEntries (entries : List (Key × Item)) (h : Item.AreLegible entries)
    (horderly : Item.AreOrderly entries) :
    ∀ entry ∈ inlineEntries entries, entry.1.IsLegible ∧ entry.2.IsLegible := by
  match entries with
  | [] => exact fun v hv => absurd hv List.not_mem_nil
  | (key, item) :: rest =>
    obtain ⟨hfirst, hrest⟩ := Item.areLegible_cons.1 h
    obtain ⟨hfirst', hrest'⟩ := Item.areOrderly_cons.1 horderly
    exact List.forall_mem_cons.2 ⟨⟨isLegible_of_entry hfirst,
      (isLegible_inlineItem item key hfirst hfirst').1⟩,
      isLegible_inlineEntries rest hrest hrest'⟩
  termination_by structural entries

end

/-! ### Fields in order -/

theorem areEntries_perm {entries' : List (Key × Value)} (hperm : entries'.Perm entries)
    (h : Value.AreEntries entries) : Value.AreEntries entries' where
  legible entry hentry := h.legible entry (hperm.mem_iff.1 hentry)
  nodup := (hperm.map _).nodup_iff.2 h.nodup

theorem names_sortDottedEntries (entries : List (Key × Value)) :
    names (sortDottedEntries entries) = names entries := by
  induction entries with
  | nil => rfl
  | cons entry rest ih => exact congrArg (entry.1.name :: ·) ih

theorem eq_nil_of_sortFields (h : sortFields entries = []) : entries = [] := by
  have hperm := Text.stableSort_perm fieldBefore (sortDottedEntries entries)
  rw [sortFields] at h
  rw [h] at hperm
  have hnames := names_sortDottedEntries entries
  rw [hperm.nil_eq.symm] at hnames
  exact List.map_eq_nil_iff.1 hnames.symm

mutual

theorem isLegible_sortDotted (v : Value) (h : v.IsLegible) :
    (sortDotted v).IsLegible ∧ (sortDotted v).isDotted = v.isDotted ∧ (sortDotted v).decor = v.decor := by
  match v with
  | .scalar _ _ | .array _ _ _ _ | .inline _ false _ _ => exact ⟨h, rfl, rfl⟩
  | .inline _ true _ entries =>
    obtain ⟨hentries, hnodup, hne⟩ := h
    have hsorted := areEntries_perm (Text.stableSort_perm fieldBefore _)
      ⟨isLegibleAt_sortDottedEntries entries hentries, by rwa [names_sortDottedEntries]⟩
    exact ⟨⟨Value.isLegibleIn_iff.2 hsorted.legible, hsorted.nodup,
      fun hnil => hne (eq_nil_of_sortFields hnil)⟩, rfl, rfl⟩
  termination_by structural v

theorem isLegibleAt_sortDottedEntries (entries : List (Key × Value)) (h : Value.IsLegibleIn entries) :
    ∀ entry ∈ sortDottedEntries entries, entry.2.IsLegibleAt entry.1 := by
  match entries with
  | [] => exact fun v hv => absurd hv List.not_mem_nil
  | (key, v) :: rest =>
    obtain ⟨⟨hkey, haround⟩, hv, hrest⟩ := h
    obtain ⟨hsorted, hdotted, hdecor⟩ := isLegible_sortDotted v hv
    refine List.forall_mem_cons.2 ⟨⟨hkey, ?_, hsorted⟩, isLegibleAt_sortDottedEntries rest hrest⟩
    rw [hdotted, hdecor]
    exact haround
  termination_by structural entries

end

theorem areEntries_sortFields (h : Value.AreEntries entries) : Value.AreEntries (sortFields entries) :=
  areEntries_perm (Text.stableSort_perm fieldBefore _)
    ⟨isLegibleAt_sortDottedEntries entries (Value.isLegibleIn_iff.2 h.legible), by
      rw [names_sortDottedEntries]
      exact h.nodup⟩

theorem makesLine_orderFields {item : Item} (h : Item.AreLegible [(key, item)])
    (horderly : Item.AreOrderly [(key, item)]) :
    Item.AreLegible [(key, orderFields item)] ∧ Item.AreOrderly [(key, orderFields item)] := by
  match item with
  | .table _ | .tables _ | .value (.scalar _ _) | .value (.array _ _ _ _) => exact ⟨h, horderly⟩
  | .value (.inline decor dotted preamble entries) =>
    obtain ⟨hline, -⟩ := h
    obtain rfl : dotted = false := hline.isDotted
    obtain ⟨hentries, hnodup, hpreamble, hempty⟩ := hline.value
    have hsorted := areEntries_sortFields ⟨Value.isLegibleIn_iff.1 hentries, hnodup⟩
    have hunset := areEntries_unsetDecor (fun entry hentry => ⟨(hsorted.legible entry hentry).legible,
      (hsorted.legible entry hentry).value⟩) hsorted.nodup
    have hne (hne : sortFields entries ≠ []) : preamble = "" := by
      refine hempty ?_
      rintro rfl
      exact hne rfl
    rw [orderFields]
    refine ⟨⟨⟨hline.legible, hline.lead, hline.behindKey, rfl, hline.beforeValue, hline.tail, ?_⟩,
      trivial⟩, rfl, trivial⟩
    split
    · exact ⟨Value.isLegibleIn_iff.2 hunset.legible, hunset.nodup, hpreamble,
        fun hne' => hne (by simpa [unsetDecor] using hne')⟩
    · exact ⟨Value.isLegibleIn_iff.2 hsorted.legible, hsorted.nodup, hpreamble, hne⟩

/-! ### Lists in order -/

/-- Texts are put in the places of elements. -/
theorem areLegible_zipWith (texts : List String) (h : Value.AreLegible vs) :
    Value.AreLegible (texts.zipWith (fun text place => (Value.ofText text).withDecor place.decor) vs) := by
  induction texts generalizing vs with
  | nil => trivial
  | cons text texts ih =>
    cases vs with
    | nil => trivial
    | cons v vs =>
      obtain ⟨⟨-, hgap⟩, -, hvs⟩ := h
      refine ⟨⟨rfl, ?_⟩, (Toml.isLegible_withDecor ..).2 (isLegible_ofText text), ih hvs⟩
      rwa [Toml.decor_withDecor]

theorem areLegible_sortTexts (h : Value.AreLegible vs) :
    Value.AreLegible (sortTexts vs) ∧ (sortTexts vs ≠ [] → vs ≠ []) := by
  refine ⟨?_, fun hne => by rintro rfl; exact hne rfl⟩
  unfold sortTexts
  split
  · exact h
  · split
    · exact h
    · exact areLegible_zipWith _ h

theorem isLegible_sortList (h : v.IsLegible) :
    (sortList v).IsLegible ∧ (sortList v).isDotted = v.isDotted ∧ (sortList v).decor = v.decor := by
  match v with
  | .scalar _ _ | .inline _ _ _ _ => exact ⟨h, rfl, rfl⟩
  | .array _ vs comma trailing =>
    obtain ⟨hvs, htrailing, hcomma⟩ := h
    obtain ⟨hsorted, hne⟩ := areLegible_sortTexts hvs
    exact ⟨⟨hsorted, htrailing, fun hfalse hsome => hcomma hfalse (hne hsome)⟩, rfl, rfl⟩

theorem isDotted_sortList (v : Value) : (sortList v).isDotted = v.isDotted := by
  cases v <;> rfl

theorem makesLine_sortList (h : key.MakesLine v) : key.MakesLine (sortList v) := by
  obtain ⟨hsorted, hdotted, hdecor⟩ := isLegible_sortList h.value
  refine ⟨h.legible, h.lead, h.behindKey, hdotted.trans h.isDotted, ?_, ?_, hsorted⟩
  · rw [hdecor]
    exact h.beforeValue
  · rw [hdecor]
    exact h.tail

theorem areEntries_sortList (h : Value.AreEntries entries) :
    Value.AreEntries (entries.map fun (key, v) => (key, sortList v)) where
  legible := by
    rw [List.forall_mem_map]
    intro entry hentry
    obtain ⟨hkey, haround, hv⟩ := h.legible entry hentry
    obtain ⟨hsorted, hdotted, hdecor⟩ := isLegible_sortList hv
    refine ⟨hkey, ?_, hsorted⟩
    rw [hdotted, hdecor]
    exact haround
  nodup := by
    rw [names, List.map_map]
    exact h.nodup

end Lint

end FeatureForwarding
