import FeatureForwarding.Proofs.Lint.Legible
import FeatureForwarding.Proofs.Lint.OnDisk
import FeatureForwarding.Proofs.Toml.Joined
import FeatureForwarding.Proofs.Toml.Readable

/-! Entries of the root that are put in order can be printed and read back. -/

namespace FeatureForwarding

open Toml (Decor Key Item Value Table Piece names)

namespace Lint

variable {news : String → Prop} {key : Key} {v : Value} {item : Item} {t : Table}
    {entries : List (Key × Item)}
  {name : String}

/-! ### Entries of the root -/

/-- The entry can be read back, and every header below it was read or stands for one of the news. -/
structure IsReadable (news : String → Prop) (entry : Key × Item) : Prop where
  legible : Item.AreLegible [entry]
  orderly : Item.AreOrderly [entry]
  shown : ∀ q ∈ Item.pieces [entry], q.isShown →
    q.isHeader ∧ q.table.position.isSome ∨ news entry.1.name ∧ IsNewHeader q

theorem isReadable_value (h : key.MakesLine v) : IsReadable news (key, .value v) :=
  ⟨⟨h, trivial⟩, ⟨h.isDotted, trivial⟩, by simp [Item.pieces]⟩

/-- What a table that is only implied must be like to get a header. -/
structure CanShow (news : String → Prop) (key : Key) (t : Table) : Prop where
  ends : key.EndsHeader
  new : news key.name
  plain : '[' ∉ key.name.toList
  position : t.position = none

theorem forall_pieces_table {P : Piece → Prop} : (∀ q ∈ Item.pieces [(key, .table t)], P q) ↔
    (t.origin ≠ .dotted → P ⟨[.key key.name], key, [], false, t⟩) ∧
      ∀ q ∈ t.pieces, P (q.under key (.key key.name)) := by
  rw [Item.pieces, Item.pieces, List.append_nil, List.forall_mem_append, List.forall_mem_map, Piece.ofTable]
  refine and_congr_left fun _ => ?_
  split
  · next hdotted => simp [hdotted]
  · next hdotted => simp [hdotted]

/-- What a table must be like to stand in the place of another one: what is below it was there before, something
is written for it, and if it has a header that was not read, it may have one. -/
structure Replaces (news : String → Prop) (key : Key) (t t' : Table) : Prop where
  shows : t.origin = .implied → t'.origin ≠ .implied ∨ t'.pairs ≠ [] → CanShow news key t
  decor : t'.decor = t.decor
  position : t'.position = t.position
  origin : t'.origin = t.origin ∨ t.origin = .implied ∧ t'.origin = .explicit
  legible : t'.IsLegible
  orderly : t'.IsOrderly
  pieces : t'.pieces ⊆ t.pieces
  written : t'.origin ≠ .explicit → t'.pairs ≠ [] ∨ ∃ q ∈ t'.pieces, q.isShown
  package : t'.origin = .implied → t'.pairs ≠ [] →
    key.name = "package" ∧ t.decor.before = none ∧ LeadsToHeader t'

namespace Replaces

variable {t' : Table}

theorem isDotted_iff (h : Replaces news key t t') : t'.origin = .dotted ↔ t.origin = .dotted := by
  rcases h.origin with heq | ⟨himplied, hexplicit⟩
  · rw [heq]
  · simp [himplied, hexplicit]

theorem exists_shown (h : Replaces news key t t') (hheader : t'.origin ≠ .explicit) (hempty : t'.pairs = []) :
    ∃ q ∈ t'.pieces, q.isShown :=
  (h.written hheader).resolve_left (absurd hempty)

theorem areOrderly (h : Replaces news key t t') (hold : Item.AreOrderly [(key, .table t)]) :
    Item.AreOrderly [(key, .table t')] := by
  obtain ⟨hplace, -⟩ := hold
  refine ⟨?_, h.orderly, trivial⟩
  split at hplace
  · next hgroup =>
    have hnone : t'.pieces = [] := List.eq_nil_of_subset_nil (hplace.pieces ▸ h.pieces)
    rw [if_pos (h.isDotted_iff.2 hgroup)]
    refine ⟨hnone, fun hempty => ?_⟩
    obtain ⟨q, hq, -⟩ := h.exists_shown (by simp [h.isDotted_iff.2 hgroup]) hempty
    rw [hnone] at hq
    exact absurd hq List.not_mem_nil
  · next hheader =>
    rw [if_neg (mt h.isDotted_iff.1 hheader)]
    refine ⟨fun hnew => ?_, fun himplied => h.exists_shown (by simp [himplied])⟩
    cases hcases : t.origin with
    | explicit => exact hplace.ends (.inl (by simp [hcases]))
    | implied => exact (h.shows hcases hnew).ends
    | dotted => exact absurd hcases hheader

/-- A table that stays implied writes a header only as a package that gets lines. -/
theorem isNewHeader_of_implied (h : Replaces news key t t') (himplied : t'.origin = .implied)
    (hpairs : t'.pairs ≠ []) :
    news key.name ∧ IsNewHeader ⟨[.key key.name], key, [], false, t'⟩ := by
  have hbefore : t.origin = .implied := by
    rcases h.origin with heq | ⟨-, hexplicit⟩
    · rw [← heq, himplied]
    · rw [himplied] at hexplicit
      exact absurd hexplicit nofun
  obtain ⟨-, hname, hplain, hnone⟩ := h.shows hbefore (.inr hpairs)
  obtain ⟨hpackage, hunset, hleads⟩ := h.package himplied hpairs
  rw [← h.position] at hnone
  rw [← h.decor] at hunset
  exact ⟨hname, ⟨_, hplain, rfl⟩, hnone, .inr ⟨by rw [hpackage], rfl, himplied, hunset, hleads⟩⟩

end Replaces

/-- The entry can be read with another table in the place of its own. -/
theorem IsReadable.replace {t' : Table} (h : IsReadable news (key, .table t))
    (hnew : Replaces news key t t') :
    IsReadable news (key, .table t') := by
  obtain ⟨⟨⟨hkey, haround⟩, -⟩, horderly, hshown⟩ := h
  rw [forall_pieces_table] at hshown
  refine ⟨⟨⟨hkey, fun hheader => ?_⟩, hnew.legible, trivial⟩, hnew.areOrderly horderly, forall_pieces_table.2
    ⟨fun hheader hmember => ?_, fun q hq => hshown.2 q (hnew.pieces hq)⟩⟩
  · rw [hnew.decor]
    exact haround (mt hnew.isDotted_iff.2 hheader)
  · cases horigin : t'.origin with
    | dotted => exact absurd horigin hheader
    | implied =>
      have hpairs : t'.pairs ≠ [] := by simpa [Piece.isShown, horigin] using hmember
      exact .inr (hnew.isNewHeader_of_implied horigin hpairs)
    | explicit =>
      have hheader : (⟨[.key key.name], key, [], false, t'⟩ : Piece).isHeader := by
        simp [Piece.isHeader, horigin]
      rcases hnew.origin with heq | ⟨hbefore, -⟩
      · have hold : t.origin = .explicit := heq.symm.trans horigin
        rcases hshown.1 (by simp [hold]) (by simp [Piece.isShown, hold]) with ⟨-, hplaced⟩ | ⟨hname, hold⟩
        · rw [← hnew.position] at hplaced
          exact .inl ⟨hheader, hplaced⟩
        · exact .inr ⟨hname, hold.steps, hnew.position.trans hold.position, .inl hheader⟩
      · obtain ⟨-, hname, hplain, hnone⟩ := hnew.shows hbefore (.inl (by simp [horigin]))
        exact .inr ⟨hname, ⟨_, hplain, rfl⟩, hnew.position.trans hnone, .inl hheader⟩

/-- Only an implied package has lines. -/
theorem IsReadable.pairs_eq_nil (h : IsReadable news (key, .table t)) (hkey : key.name ≠ "package")
    (himplied : t.origin = .implied) : t.pairs = [] := by
  by_contra hpairs
  have hshown := (forall_pieces_table.1 h.shown).1 (by simp [himplied]) (by simp [Piece.isShown, hpairs])
  have hheader : (⟨[.key key.name], key, [], false, t⟩ : Piece).isHeader = false := by
    simp [Piece.isHeader, himplied]
  rcases hshown with ⟨hold, -⟩ | ⟨-, hnew⟩
  · exact absurd hold (by simp [hheader])
  · rcases hnew.kind with hold | hpackage
    · exact absurd hold (by simp [hheader])
    · exact hkey (Toml.Step.key.inj (List.cons.inj hpackage.steps).1)

/-! ### Package fields -/

theorem mem_put_self {α : Type} (name : String) (content : α) (entries : List (Key × α)) :
    (Key.new name, content) ∈ Toml.put name content entries := by
  induction entries with
  | nil => exact List.mem_singleton_self _
  | cons entry rest ih =>
    rw [Toml.put]
    split
    · exact List.mem_cons_self
    · exact List.mem_cons_of_mem _ ih

theorem pairs_ne_nil_of_mem (h : (key, .value v) ∈ entries) (hdotted : v.isDotted = false) :
    Item.pairs entries ≠ [] := by
  induction entries with
  | nil => exact absurd h List.not_mem_nil
  | cons entry rest ih =>
    rcases List.mem_cons.1 h with rfl | hmem
    · rw [Item.pairs, Value.pairsAt_of_isDotted_eq_false key hdotted]
      exact List.cons_ne_nil _ _
    · obtain ⟨key', _ | _ | _⟩ := entry
      · exact List.append_ne_nil_of_right_ne_nil _ (ih hmem)
      · exact List.append_ne_nil_of_right_ne_nil _ (ih hmem)
      · exact ih hmem

theorem isValue_of_isNeeded {wanted : String} {current : Option Item}
    (h : Standards.isNeeded wanted current) :
    ∀ item ∈ current, ∃ v, item = .value v := by
  rintro item rfl
  cases item with
  | value v => exact ⟨v, rfl⟩
  | table _ | tables _ => exact absurd h nofun

/-- No header goes where a value is put in the place of another. -/
theorem pieces_put (h : ∀ item ∈ Toml.find? name entries, ∃ v, item = .value v) (v : Value) :
    Item.pieces (Toml.put name (.value v) entries) = Item.pieces entries := by
  induction entries with
  | nil => rfl
  | cons entry rest ih =>
    obtain ⟨key, item⟩ := entry
    rw [Toml.find?] at h
    rw [Toml.put]
    split
    · next hname =>
      rw [if_pos hname] at h
      obtain ⟨old, rfl⟩ := h item rfl
      rfl
    · next hname =>
      rw [if_neg hname] at h
      rw [Item.pieces_cons, ih h, ← Item.pieces_cons]

/-- What a package that is only implied must be like to get lines of its own. -/
structure CanHead (news : String → Prop) (key : Key) (t : Table) : Prop extends CanShow news key t where
  before : t.decor.before = none
  leads : LeadsToHeader t

theorem isReadable_setField (hname : (Key.new name).IsLegible) (wanted : String)
    (h : IsReadable news (key, .table t))
    (hkey : key.name = "package") (hhead : t.origin = .implied → CanHead news key t) :
    ∃ t', Standards.setField name wanted (.table t) = .table t' ∧
    (t'.origin = .implied → CanHead news key t') ∧
      IsReadable news (key, .table t') := by
  rw [Standards.setField]
  split
  · next hneeded =>
    have hpieces : (t.withEntries (Toml.put name (.value (Value.ofText wanted)) t.entries)).pieces =
        t.pieces := by
      rw [Table.pieces_eq, Table.pieces_eq, Table.entries_withEntries,
        pieces_put (isValue_of_isNeeded hneeded)]
    have hhead' (himplied : t.origin = .implied) :
        CanHead news key (t.withEntries (Toml.put name (.value (Value.ofText wanted)) t.entries)) := by
      obtain ⟨⟨hends, hnew, hplain, hposition⟩, hbefore, hleads⟩ := hhead himplied
      refine ⟨⟨hends, hnew, hplain, hposition⟩, hbefore, ?_⟩
      rw [LeadsToHeader, hpieces]
      exact hleads
    refine ⟨_, rfl, hhead', ?_⟩
    have hlegible := Item.areLegible_iff.1 (Table.isLegible_iff.1 h.legible.2.1)
    obtain ⟨hnodup, horderly⟩ := Table.isOrderly_iff.1 h.orderly.2.1
    have horderly := Item.areOrderly_iff.1 horderly
    have hwritten : Item.pairs (Toml.put name (.value (Value.ofText wanted)) t.entries) ≠ [] :=
      pairs_ne_nil_of_mem (mem_put_self ..) rfl
    refine h.replace ⟨fun himplied _ => (hhead himplied).toCanShow, rfl, rfl, .inl rfl,
      Table.isLegible_iff.2 (Item.areLegible_iff.2 ?_),
      Table.isOrderly_iff.2 ⟨Toml.nodup_names_put name _ hnodup, Item.areOrderly_iff.2 ?_⟩,
      hpieces ▸ List.Subset.refl _, fun _ => .inl ?_,
      fun himplied _ => ⟨hkey, (hhead himplied).before, (hhead' himplied).leads⟩⟩
    · intro entry hentry
      rcases Toml.mem_put hentry with rfl | hentry
      · exact ⟨makesLine_new hname wanted, trivial⟩
      · exact hlegible entry hentry
    · intro entry hentry
      rcases Toml.mem_put hentry with rfl | hentry
      · exact ⟨rfl, trivial⟩
      · exact horderly entry hentry
    · rwa [Table.pairs_eq]
  · exact ⟨t, rfl, hhead, h⟩

theorem isLegible_edition : (Key.new "edition").IsLegible := isLegible_new (by decide) (by decide)

theorem isLegible_homepage : (Key.new "homepage").IsLegible := isLegible_new (by decide) (by decide)

/-- A field that is put among entries in braces stands in front of the others only where it is a scalar. -/
theorem areJoinable_put {preamble : String} {entries : List (Key × Value)} (hname : (Key.new name).IsLegible)
    (wanted : String) (h : Value.AreJoinable preamble entries) :
    Value.AreJoinable preamble (Toml.put name (Value.ofText wanted) entries) := by
  refine ⟨areEntries_put hname wanted h.all, h.blank, fun _ => ?_⟩
  cases entries with
  | nil => exact .inr ⟨_, _, _, _, rfl⟩
  | cons entry rest =>
    rw [Toml.put]
    split
    · exact .inr ⟨_, _, _, _, rfl⟩
    · rcases h.first (List.cons_ne_nil _ _) with hempty | ⟨key, d, s, rest', heq⟩
      · exact .inl hempty
      · obtain ⟨rfl, rfl⟩ := List.cons.inj heq
        exact .inr ⟨_, _, _, _, rfl⟩

theorem areJoinable_setField {preamble : String} {d : Decor} {entries : List (Key × Value)}
    (hname : (Key.new name).IsLegible) (wanted : String) (h : Value.AreJoinable preamble entries) :
    ∃ entries', Standards.setField name wanted (.value (.inline d false preamble entries)) =
      .value (.inline d false preamble entries') ∧ Value.AreJoinable preamble entries' := by
  rw [Standards.setField]
  split
  · exact ⟨_, rfl, areJoinable_put hname wanted h⟩
  · exact ⟨_, rfl, h⟩

/-- The entry with the blanks behind its brace joined. -/
def joinEntry (entry : Key × Item) : Key × Item := (entry.1, entry.2.joined)

theorem IsReadable.joined {entry : Key × Item} (h : IsReadable news entry) :
    IsReadable news (joinEntry entry) := by
  obtain ⟨key, v | t | ts⟩ := entry
  · exact isReadable_value h.legible.1.joined
  · exact h
  · exact h

theorem isReadable_setFields (standards : Standards) (h : IsReadable news (key, item))
    (hkey : key.name = "package")
    (hhead : ∀ t, item = .table t → t.origin = .implied → CanHead news key t) :
    IsReadable news (joinEntry (key, standards.setFields item)) := by
  match item with
  | .table t =>
    obtain ⟨t', hedition, hhead', h'⟩ :=
      isReadable_setField isLegible_edition standards.edition h hkey (hhead t rfl)
    obtain ⟨t'', hhomepage, -, h''⟩ :=
      isReadable_setField isLegible_homepage standards.homepage h' hkey hhead'
    rw [Standards.setFields, hedition, hhomepage]
    exact h''.joined
  | .tables _ | .value (.scalar _ _) | .value (.array _ _ _ _) => exact h.joined
  | .value (.inline d dotted preamble entries) =>
    obtain ⟨hline, -⟩ := h.legible
    obtain rfl : dotted = false := hline.isDotted
    obtain ⟨entries', hedition, h'⟩ := areJoinable_setField (d := d) isLegible_edition standards.edition
      (Value.areJoinable_of_isLegible hline.value)
    obtain ⟨entries'', hhomepage, h''⟩ :=
      areJoinable_setField (d := d) isLegible_homepage standards.homepage h'
    rw [Standards.setFields, hedition, hhomepage]
    refine isReadable_value ⟨hline.legible, hline.lead, hline.behindKey, ?_, ?_, ?_, h''.isLegible⟩
    · exact Value.isDotted_joined _
    · rw [Value.decor_joined]
      exact hline.beforeValue
    · rw [Value.decor_joined]
      exact hline.tail

/-! ### Dependencies -/

theorem forall_inlineSection {P : Key × Item → Prop} (hall : ∀ entry ∈ entries, P entry)
    (htable : ∀ key t, P (key, .table t) → P ({ key with decor := {} }, .value (inlineTable t))) :
    ∀ entry ∈ inlineSection entries, P entry := by
  fun_induction inlineSection entries with
  | case1 => exact hall
  | case2 key t rest ih =>
    obtain ⟨hfirst, hrest⟩ := List.forall_mem_cons.1 hall
    exact List.forall_mem_cons.2 ⟨htable key t hfirst, ih hrest⟩
  | case3 entry rest _ ih =>
    obtain ⟨hfirst, hrest⟩ := List.forall_mem_cons.1 hall
    exact List.forall_mem_cons.2 ⟨hfirst, ih hrest⟩

theorem pieces_inlineSection (entries : List (Key × Item)) :
    (Item.pieces (inlineSection entries)).Sublist (Item.pieces entries) := by
  fun_induction inlineSection entries with
  | case1 => exact .slnil
  | case2 key t rest ih =>
    rw [Item.pieces_cons, Item.pieces_cons (key, .table t)]
    exact (List.nil_sublist _).append ih
  | case3 entry rest _ ih =>
    rw [Item.pieces_cons entry (inlineSection rest), Item.pieces_cons entry rest]
    exact (List.Sublist.refl _).append ih

theorem inlineSection_of_noTable (h : (entries.any fun entry => isTable entry.2) = false) :
    inlineSection entries = entries := by
  fun_induction inlineSection entries with
  | case1 => rfl
  | case2 key t rest ih => exact absurd h (by simp [isTable])
  | case3 entry rest _ ih =>
    rw [List.any_cons, Bool.or_eq_false_iff] at h
    rw [ih h.2]

theorem entries_orderSection (t : Table) : (orderSection t).entries =
    (Text.stableSort entryBefore (inlineSection t.entries)).map fun entry =>
    (entry.1, orderFields entry.2) := rfl

theorem pieces_orderFields (key : Key) (item : Item) :
    Item.pieces [(key, orderFields item)] = Item.pieces [(key, item)] := by
  unfold orderFields
  split <;> rfl

theorem pieces_orderSection (t : Table) : (orderSection t).pieces ⊆ t.pieces := by
  have hfields (entries : List (Key × Item)) :
      Item.pieces (entries.map fun entry => (entry.1, orderFields entry.2)) = Item.pieces entries := by
    induction entries with
    | nil => rfl
    | cons entry rest ih =>
      rw [List.map_cons, Item.pieces_cons, ih, pieces_orderFields, ← Item.pieces_cons]
  rw [Table.pieces_eq, Table.pieces_eq, entries_orderSection, hfields]
  intro q hq
  exact (pieces_inlineSection t.entries).subset
    ((Item.perm_pieces (Text.stableSort_perm entryBefore (inlineSection t.entries))).mem_iff.1 hq)

/-- Something is written for values and arrays. -/
theorem written_of_noTable (horderly : Item.AreOrderly entries) (hne : entries ≠ [])
    (h : ∀ entry ∈ entries, isTable entry.2 = false) :
    Item.pairs entries ≠ [] ∨ ∃ q ∈ Item.pieces entries, q.isShown := by
  obtain ⟨⟨key, v | t | ts⟩, rest, rfl⟩ := List.exists_cons_of_ne_nil hne
  · exact .inl (pairs_ne_nil_of_mem List.mem_cons_self horderly.1)
  · exact absurd (h _ List.mem_cons_self) (by simp [isTable])
  · obtain ⟨⟨-, hturn⟩, -⟩ := horderly
    obtain ⟨t, ts, rfl⟩ := List.exists_cons_of_ne_nil hturn.nonempty
    refine .inr ⟨⟨[.element key.name 0], key, [], true, t⟩, ?_, rfl⟩
    rw [Item.pieces, Table.piecesOfArray, Piece.ofTable, if_neg (hturn.origin t List.mem_cons_self)]
    simp

theorem exists_value_of_pairs (h : ∀ entry ∈ entries, isTable entry.2 = false)
    (hpairs : Item.pairs entries ≠ []) :
    ∃ key v, (key, .value v) ∈ entries := by
  induction entries with
  | nil => exact absurd rfl hpairs
  | cons entry rest ih =>
    obtain ⟨hfirst, hrest⟩ := List.forall_mem_cons.1 h
    obtain ⟨key, v | t | ts⟩ := entry
    · exact ⟨key, v, List.mem_cons_self⟩
    · exact absurd hfirst (by simp [isTable])
    · obtain ⟨key', v, hmem⟩ := ih hrest hpairs
      exact ⟨key', v, List.mem_cons_of_mem _ hmem⟩

/-- A section without tables has lines in order only if it had lines before. -/
theorem pairs_of_orderSection (horderly : Item.AreOrderly t.entries)
    (hnone : (t.entries.any fun entry => isTable entry.2) = false) (hne : t.entries ≠ [])
    (h : (orderSection t).pairs ≠ []) : t.pairs ≠ [] := by
  rw [Table.pairs_eq] at h ⊢
  obtain ⟨key, v, hmem⟩ := exists_value_of_pairs (isOrdered_orderSection hne).inline h
  rw [entries_orderSection, inlineSection_of_noTable hnone] at hmem
  obtain ⟨⟨key', item⟩, hentry, heq⟩ := List.mem_map.1 hmem
  have hentry : (key', item) ∈ t.entries := Text.mem_stableSort.1 hentry
  cases item with
  | value old => exact pairs_ne_nil_of_mem hentry (Item.areOrderly_iff.1 horderly _ hentry).1
  | table _ | tables _ => exact absurd (Prod.mk.inj heq).2 nofun

theorem areReadable_orderSection (hlegible : Item.AreLegible t.entries)
    (horderly : Item.AreOrderly t.entries) :
    ∀ entry ∈ (orderSection t).entries, Item.AreLegible [entry] ∧ Item.AreOrderly [entry] := by
  have hinline : ∀ entry ∈ inlineSection t.entries, Item.AreLegible [entry] ∧ Item.AreOrderly [entry] := by
    refine forall_inlineSection (fun entry hentry => ⟨Item.areLegible_iff.1 hlegible entry hentry,
      Item.areOrderly_iff.1 horderly entry hentry⟩) fun key t ⟨⟨⟨hkey, _⟩, ht, _⟩, _, ht', _⟩ => ?_
    obtain ⟨hv, hdotted⟩ := isLegible_inlineTable t ht ht'
    have hunset : (inlineTable t).decor = {} := by cases t; rfl
    refine ⟨⟨⟨⟨hkey.spells, hkey.dots⟩, by simp [Decor.IsLead], by simp, hdotted, ?_, ?_, hv⟩,
      trivial⟩, hdotted, trivial⟩
    · simp [hunset]
    · simp [hunset, Decor.EndsLine]
  rw [entries_orderSection, List.forall_mem_map]
  intro entry hentry
  obtain ⟨hlegible, horderly⟩ := hinline entry (Text.mem_stableSort.1 hentry)
  exact makesLine_orderFields hlegible horderly

theorem nodup_names_orderSection (h : (names t.entries).Nodup) : (names (orderSection t).entries).Nodup := by
  have hperm := (Text.stableSort_perm entryBefore (inlineSection t.entries)).map fun entry => entry.1.name
  have hnames : names (orderSection t).entries =
      names (Text.stableSort entryBefore (inlineSection t.entries)) := by
    rw [entries_orderSection, names, List.map_map]
    rfl
  rw [hnames]
  exact hperm.nodup_iff.2 ((allWithin_inlineSection t.entries).names h)

theorem isReadable_orderSection (h : IsReadable news (key, .table t)) (hkey : key.name ≠ "package")
    (hshows : t.origin = .implied → CanShow news key t) (hne : t.entries ≠ []) :
    IsReadable news (key, .table (orderSection t)) := by
  obtain ⟨hnodup, horderly⟩ := Table.isOrderly_iff.1 h.orderly.2.1
  have hlegible := Table.isLegible_iff.1 h.legible.2.1
  have hordered := isOrdered_orderSection hne
  have hall := areReadable_orderSection hlegible horderly
  have horderly' := Item.areOrderly_iff.2 fun entry hentry => (hall entry hentry).2
  have horigin : (orderSection t).origin =
      if (t.entries.any fun entry => isTable entry.2) && t.origin =
        .implied then .explicit else t.origin := rfl
  refine h.replace ⟨fun himplied _ => hshows himplied, rfl, rfl, ?_,
    Table.isLegible_iff.2 (Item.areLegible_iff.2 fun entry hentry => (hall entry hentry).1),
    Table.isOrderly_iff.2 ⟨nodup_names_orderSection hnodup, horderly'⟩, pieces_orderSection t, ?_, ?_⟩
  · rw [horigin]
    split
    · next hconverted => exact .inr ⟨by simpa using (Bool.and_eq_true_iff.1 hconverted).2, rfl⟩
    · exact .inl rfl
  · rw [Table.pairs_eq, Table.pieces_eq]
    intro _
    exact written_of_noTable horderly' hordered.nonempty hordered.inline
  · intro himplied hpairs
    -- where no table became a line, an implied section had no lines before
    have hboth : (t.entries.any fun entry => isTable entry.2) = false ∧ t.origin = .implied := by
      rw [horigin] at himplied
      split at himplied
      · exact absurd himplied nofun
      · next hkept => exact ⟨by simpa [himplied] using hkept, himplied⟩
    exact absurd (h.pairs_eq_nil hkey hboth.2) (pairs_of_orderSection horderly hboth.1 hne hpairs)

/-! ### Features -/

/-- A list among the lines of a table is put in order. -/
def sortLine (entry : Key × Item) : Key × Item :=
  match entry with
  | (key, .value v) => (key, .value (sortList v))
  | entry => entry

theorem name_sortLine (entry : Key × Item) : (sortLine entry).1.name = entry.1.name := by
  obtain ⟨key, _ | _ | _⟩ := entry <;> rfl

theorem pieces_map_sortLine (entries : List (Key × Item)) :
    Item.pieces (entries.map sortLine) = Item.pieces entries := by
  induction entries with
  | nil => rfl
  | cons entry rest ih =>
    obtain ⟨key, _ | _ | _⟩ := entry
    · exact ih
    · exact congrArg (_ ++ ·) ih
    · exact congrArg (_ ++ ·) ih

theorem pairs_map_sortLine (h : Item.AreOrderly entries) :
    Item.pairs (entries.map sortLine) = [] ↔ Item.pairs entries = [] := by
  induction entries with
  | nil => exact Iff.rfl
  | cons entry rest ih =>
    obtain ⟨key, v | t | ts⟩ := entry
    · have hsorted : (sortList v).isDotted = false := (isDotted_sortList v).trans h.1
      have hline : sortLine (key, .value v) = (key, .value (sortList v)) := rfl
      rw [List.map_cons, hline, Item.pairs, Item.pairs, Value.pairsAt_of_isDotted_eq_false key h.1,
        Value.pairsAt_of_isDotted_eq_false key hsorted]
      simp
    · have hline : sortLine (key, .table t) = (key, .table t) := rfl
      rw [List.map_cons, hline, Item.pairs, Item.pairs, List.append_eq_nil_iff,
        List.append_eq_nil_iff, ih h.2.2]
    · exact ih h.2.2

theorem areReadable_sortLine (h : ∀ entry ∈ entries, Item.AreLegible [entry] ∧ Item.AreOrderly [entry]) :
    ∀ entry ∈ entries.map sortLine, Item.AreLegible [entry] ∧ Item.AreOrderly [entry] := by
  rw [List.forall_mem_map]
  intro entry hentry
  obtain ⟨hlegible, horderly⟩ := h entry hentry
  obtain ⟨key, v | t | ts⟩ := entry
  · exact ⟨⟨makesLine_sortList hlegible.1, trivial⟩, (isDotted_sortList v).trans horderly.1, trivial⟩
  · exact ⟨hlegible, horderly⟩
  · exact ⟨hlegible, horderly⟩

theorem sortFeatureLists_table (t : Table) :
    sortFeatureLists (.table t) = .table (t.withEntries (t.entries.map sortLine)) := rfl

theorem isReadable_sortFeatureLists (h : IsReadable news (key, item)) (hkey : key.name ≠ "package") :
    IsReadable news (key, sortFeatureLists item) := by
  match item with
  | .tables _ | .value (.scalar _ _) | .value (.array _ _ _ _) => exact h
  | .value (.inline d dotted preamble entries) =>
    obtain ⟨hline, -⟩ := h.legible
    obtain rfl : dotted = false := hline.isDotted
    obtain ⟨hentries, hnodup, hblank, hempty⟩ := hline.value
    have hsorted := areEntries_sortList ⟨Value.isLegibleIn_iff.1 hentries, hnodup⟩
    exact isReadable_value ⟨hline.legible, hline.lead, hline.behindKey, rfl, hline.beforeValue, hline.tail,
      Value.isLegibleIn_iff.2 hsorted.legible, hsorted.nodup, hblank, fun hne => hempty (by simpa using hne)⟩
  | .table t =>
    obtain ⟨hnodup, horderly⟩ := Table.isOrderly_iff.1 h.orderly.2.1
    have hlegible := Table.isLegible_iff.1 h.legible.2.1
    have hall := areReadable_sortLine fun entry hentry =>
      ⟨Item.areLegible_iff.1 hlegible entry hentry, Item.areOrderly_iff.1 horderly entry hentry⟩
    have hpairs : (t.withEntries (t.entries.map sortLine)).pairs = [] ↔ t.pairs = [] := by
      rw [Table.pairs_eq, Table.pairs_eq]
      exact pairs_map_sortLine horderly
    have hpieces : (t.withEntries (t.entries.map sortLine)).pieces = t.pieces := by
      rw [Table.pieces_eq, Table.pieces_eq]
      exact pieces_map_sortLine t.entries
    have hnames : names (t.entries.map sortLine) = names t.entries := by
      rw [names, List.map_map]
      exact List.map_congr_left fun entry _ => name_sortLine entry
    obtain ⟨hplace, -⟩ := h.orderly
    rw [sortFeatureLists_table]
    refine h.replace ⟨fun himplied hnew => ?_, rfl, rfl, .inl rfl,
      Table.isLegible_iff.2 (Item.areLegible_iff.2 fun entry hentry => (hall entry hentry).1),
      Table.isOrderly_iff.2 ⟨hnames ▸ hnodup,
        Item.areOrderly_iff.2 fun entry hentry => (hall entry hentry).2⟩,
      hpieces ▸ List.Subset.refl _, fun hheader => ?_,
      fun himplied hline => absurd (h.pairs_eq_nil hkey himplied) (mt hpairs.2 hline)⟩
    · rcases hnew with hheader | hline
      · exact absurd himplied hheader
      · exact absurd (h.pairs_eq_nil hkey himplied) (mt hpairs.2 hline)
    · rw [hpieces]
      split at hplace
      · exact .inl (mt hpairs.1 hplace.pairs)
      · next hgroup =>
        have himplied : t.origin = .implied := by
          change t.origin ≠ .explicit at hheader
          cases hcases : t.origin <;> simp_all
        exact .inr (hplace.leads himplied (h.pairs_eq_nil hkey himplied))

/-! ### The root -/

theorem forall_modify {P Q : Key × Item → Prop} {g : Item → Item} (h : ∀ entry ∈ entries, P entry)
    (hkept : ∀ entry, P entry → Q entry)
    (hg : ∀ key item, key.name = name → Toml.find? name entries = some item → P (key, item) →
    Q (key, g item)) :
    ∀ entry ∈ Toml.modify name g entries, Q entry := by
  induction entries with
  | nil => simp [Toml.modify]
  | cons entry rest ih =>
    obtain ⟨key, item⟩ := entry
    obtain ⟨hfirst, hrest⟩ := List.forall_mem_cons.1 h
    rw [Toml.modify]
    split
    · next hname =>
      exact List.forall_mem_cons.2 ⟨hg key item hname (if_pos hname) hfirst,
        fun entry hentry => hkept entry (hrest entry hentry)⟩
    · next hname =>
      exact List.forall_mem_cons.2 ⟨hkept _ hfirst, ih hrest fun key item hkey hfind =>
        hg key item hkey ((if_neg hname).trans hfind)⟩

/-- If the entry is a table that is only implied, it can get a header. -/
def CanShowImplied (news : String → Prop) (entry : Key × Item) : Prop :=
  ∀ t, entry.2 = .table t → t.origin = .implied → CanShow news entry.1 t

/-- An entry of the root while the root is brought into order. Only the blanks of a package in braces may
have to be joined before it can be read back. -/
structure IsReady (news : String → Prop) (entry : Key × Item) : Prop where
  joined : IsReadable news (joinEntry entry)
  readable : entry.1.name ≠ "package" → IsReadable news entry
  shows : entry.1.name ∈ dependencySections → CanShowImplied news entry

theorem forall_ready_apply (standards : Standards) (h : ∀ entry ∈ t.entries, IsReadable news entry)
    (hhead : ∀ entry ∈ t.entries, entry.1.name = "package" →
      ∀ t, entry.2 = .table t → t.origin = .implied → CanHead news entry.1 t)
    (hshows : ∀ entry ∈ t.entries, entry.1.name ∈ dependencySections → CanShowImplied news entry) :
    ∀ entry ∈ (standards.apply t).entries, IsReady news entry := by
  refine forall_modify (P := fun entry => IsReadable news entry ∧ (entry.1.name = "package" →
      ∀ t, entry.2 = .table t → t.origin = .implied → CanHead news entry.1 t) ∧
      (entry.1.name ∈ dependencySections → CanShowImplied news entry))
    (fun entry hentry => ⟨h entry hentry, hhead entry hentry, hshows entry hentry⟩)
    (fun entry h => ⟨h.1.joined, fun _ => h.1, h.2.2⟩) fun key item hname _ h => ?_
  exact ⟨isReadable_setFields standards h.1 hname (h.2.1 hname), fun hother => absurd hname hother,
    fun hsection => absurd (hname ▸ hsection) (by decide)⟩

theorem CanShowImplied.orderSection (h : CanShowImplied news (key, .table t)) :
    CanShowImplied news (key, .table (Lint.orderSection t)) := by
  intro t' ht' himplied
  obtain rfl : Lint.orderSection t = t' := Item.table.inj ht'
  have horigin : (if (t.entries.any fun entry => isTable entry.2) && t.origin =
    .implied then .explicit else t.origin) =
      Toml.Origin.implied := himplied
  split at horigin
  · exact absurd horigin nofun
  · obtain ⟨hends, hnew, hplain, hposition⟩ := h t rfl horigin
    exact ⟨hends, hnew, hplain, hposition⟩

theorem forall_ready_orderSectionAt (hname : name ∈ dependencySections)
    (h : ∀ entry ∈ t.entries, IsReady news entry) :
    ∀ entry ∈ (orderSectionAt t name).entries, IsReady news entry := by
  have hpackage : name ≠ "package" := fun heq => absurd (heq ▸ hname) (by decide)
  unfold orderSectionAt
  split
  · next section' hsection =>
    split
    · exact fun entry hentry => h entry ((Toml.erase_sublist name t.entries).subset hentry)
    · next hne =>
      refine forall_modify h (fun entry h => h) fun key item hkey hfind hready => ?_
      obtain rfl : .table section' = item := Option.some.inj (hsection.symm.trans hfind)
      have hother : key.name ≠ "package" := hkey ▸ hpackage
      have hshows := hready.shows (hkey ▸ hname)
      have hordered := isReadable_orderSection (hready.readable hother) hother (hshows section' rfl)
        (by simpa using hne)
      exact ⟨hordered.joined, fun _ => hordered, fun _ => hshows.orderSection⟩
  · exact h

theorem forall_ready_orderFeatures (h : ∀ entry ∈ t.entries, IsReady news entry) :
    ∀ entry ∈ (orderFeatures t).entries, IsReady news entry := by
  refine forall_modify h (fun entry h => h) fun key item hkey _ hready => ?_
  have hother : key.name ≠ "package" := by simp [hkey]
  have hsorted := isReadable_sortFeatureLists (hready.readable hother) hother
  exact ⟨hsorted.joined, fun _ => hsorted, fun hsection => absurd (hkey ▸ hsection) (by decide)⟩

/-- Entries of the root that are put in order can be read back, once the blanks of the package are joined. -/
theorem isReadable_arranged (standards : Standards) (h : ∀ entry ∈ t.entries, IsReadable news entry)
    (hhead : ∀ entry ∈ t.entries, entry.1.name = "package" →
      ∀ t, entry.2 = .table t → t.origin = .implied → CanHead news entry.1 t)
    (hshows : ∀ entry ∈ t.entries, entry.1.name ∈ dependencySections → CanShowImplied news entry) :
    ∀ entry ∈ Item.joinAll (arranged standards t).entries, IsReadable news entry := by
  have hready : ∀ entry ∈ (arranged standards t).entries, IsReady news entry :=
    forall_ready_orderFeatures (forall_ready_orderSectionAt (by decide)
      (forall_ready_orderSectionAt (by decide)
      (forall_ready_apply standards h hhead hshows)))
  rw [Item.joinAll, List.forall_mem_map]
  exact fun entry hentry => (hready entry hentry).joined

end Lint

end FeatureForwarding
