import FeatureForwarding.Manifest
import FeatureForwarding.Proofs.Toml.Entries

/-! Keys of documents that were read. Every place of a tree is defined once, so that the keys of a
table are distinct, and an edit keeps them so. Inline tables are values here and are not looked into. -/

namespace FeatureForwarding.Toml

mutual

def Item.HasDistinctKeys : Item → Prop
  | .value _ => True
  | .table t => Table.HasDistinctKeys t
  | .tables ts => Table.HaveDistinctKeys ts
  termination_by structural item => item

def Table.HasDistinctKeys : Table → Prop
  | ⟨_, _, _, entries⟩ => (names entries).Nodup ∧ Item.HaveDistinctKeys entries
  termination_by structural t => t

def Table.HaveDistinctKeys : List Table → Prop
  | [] => True
  | t :: ts => Table.HasDistinctKeys t ∧ Table.HaveDistinctKeys ts
  termination_by structural ts => ts

def Item.HaveDistinctKeys : List (Key × Item) → Prop
  | [] => True
  | (_, item) :: rest => Item.HasDistinctKeys item ∧ Item.HaveDistinctKeys rest
  termination_by structural entries => entries

end

variable {α : Type} {key : Key} {entries revised : List (Key × Item)} {t t' : Table} {item : Item}

theorem Item.haveDistinctKeys_iff :
    HaveDistinctKeys entries ↔ ∀ entry ∈ entries, entry.2.HasDistinctKeys := by
  induction entries with
  | nil => simp [HaveDistinctKeys]
  | cons entry rest ih => simp [HaveDistinctKeys, ih]

theorem Table.haveDistinctKeys_iff {ts : List Table} :
    HaveDistinctKeys ts ↔ ∀ t ∈ ts, t.HasDistinctKeys := by
  induction ts with
  | nil => simp [HaveDistinctKeys]
  | cons t rest ih => simp [HaveDistinctKeys, ih]

theorem Table.hasDistinctKeys_iff :
    t.HasDistinctKeys ↔ (names t.entries).Nodup ∧ ∀ entry ∈ t.entries, entry.2.HasDistinctKeys := by
  obtain ⟨_, _, _, entries⟩ := t
  rw [HasDistinctKeys, Item.haveDistinctKeys_iff]

/-! ### Revisions -/

theorem revise?_of_new {entries : List (Key × α)} (h : find? key.name entries = none)
    (f : Option α → Option α) :
    revise? key f entries = (f none).map fun content => entries ++ [(key, content)] := by
  induction entries with
  | nil => rfl
  | cons entry rest ih =>
    obtain ⟨other, content⟩ := entry
    rw [find?] at h
    split at h
    · exact absurd h nofun
    · next hne =>
      rw [revise?, if_neg hne, ih h, Option.map_map]
      rfl

theorem nodup_names_revise? {f : Option α → Option α} {entries revised : List (Key × α)}
    (h : revise? key f entries = some revised) (hnodup : (names entries).Nodup) :
    (names revised).Nodup := by
  rcases revise?_eq_some h with ⟨hnone, new, -, rfl⟩ | ⟨front, other, old, back, new, rfl, -, -, -, rfl⟩
  · rw [names, List.map_append]
    refine List.nodup_append.2 ⟨hnodup, by simp, ?_⟩
    rintro name hname other hother rfl
    obtain rfl : name = key.name := by simpa using hother
    exact find?_eq_none.1 hnone hname
  · simpa [names] using hnodup

/-- A revision keeps the keys distinct, if what it puts in has distinct keys. -/
theorem Table.HasDistinctKeys.revise? {f : Option Item → Option Item}
    (hf : ∀ old new, (∀ item ∈ old, Item.HasDistinctKeys item) → f old = some new →
      Item.HasDistinctKeys new)
    (ht : t.HasDistinctKeys) (h : Toml.revise? key f t.entries = some revised) :
    (t.withEntries revised).HasDistinctKeys := by
  obtain ⟨hnodup, hitems⟩ := hasDistinctKeys_iff.1 ht
  refine hasDistinctKeys_iff.2 ⟨nodup_names_revise? h hnodup, ?_⟩
  rcases revise?_eq_some h with ⟨-, new, hnew, rfl⟩ | ⟨front, other, old, back, new, hsplit, -, -, hnew,
    rfl⟩
  · intro entry hentry
    rcases List.mem_append.1 hentry with hentry | hentry
    · exact hitems entry hentry
    · rw [List.mem_singleton.1 hentry]
      exact hf none new nofun hnew
  · rw [hsplit] at hitems
    have hold := hitems (other, old) (List.mem_append_right _ List.mem_cons_self)
    intro entry hentry
    rcases List.mem_append.1 hentry with hentry | hentry
    · exact hitems entry (List.mem_append_left _ hentry)
    rcases List.mem_cons.1 hentry with rfl | hentry
    · exact hf (some old) new (fun item hitem => Option.some.inj hitem ▸ hold) hnew
    · exact hitems entry (List.mem_append_right _ (List.mem_cons_of_mem _ hentry))

theorem Table.HaveDistinctKeys.reviseLast? {f : Table → Option Table}
    (hf : ∀ t t', t.HasDistinctKeys → f t = some t' → t'.HasDistinctKeys) {ts ts' : List Table}
    (hts : HaveDistinctKeys ts) (h : Toml.reviseLast? f ts = some ts') : HaveDistinctKeys ts' := by
  induction ts generalizing ts' with
  | nil => exact absurd h nofun
  | cons t rest ih =>
    cases rest with
    | nil =>
      obtain ⟨new, hnew, rfl⟩ := Option.map_eq_some_iff.1 h
      exact ⟨hf t new hts.1 hnew, trivial⟩
    | cons next rest =>
      obtain ⟨later, hlater, rfl⟩ := Option.map_eq_some_iff.1 h
      exact ⟨hts.1, ih hts.2 hlater⟩

namespace Table

theorem hasDistinctKeys_empty (origin : Origin) (decor : Decor) (position : Option Nat) :
    HasDistinctKeys ⟨origin, decor, position, []⟩ :=
  ⟨.nil, trivial⟩

/-! ### Assembly -/

/-- What a place in a table turns into on the way down to a change. -/
theorem HasDistinctKeys.onWay (f : Table → Option Table) (start : Table) (bars : Table → Bool)
    (hf : ∀ t t', t.HasDistinctKeys → f t = some t' → t'.HasDistinctKeys) (hstart : start.HasDistinctKeys)
    {old : Option Item} {new : Item} (hold : ∀ item ∈ old, Item.HasDistinctKeys item)
    (h : (match old with
      | none => (f start).map .table
      | some (.table inner) => if bars inner then none else (f inner).map .table
      | some (.tables ts) => (Toml.reviseLast? f ts).map .tables
      | some (.value _) => none) = some new) : new.HasDistinctKeys := by
  match old with
  | none =>
    obtain ⟨t, ht, rfl⟩ := Option.map_eq_some_iff.1 h
    exact hf _ t hstart ht
  | some (.table inner) =>
    dsimp only at h
    split at h
    · exact absurd h nofun
    · obtain ⟨t, ht, rfl⟩ := Option.map_eq_some_iff.1 h
      exact hf inner t (hold _ rfl) ht
  | some (.tables ts) =>
    obtain ⟨ts', hts, rfl⟩ := Option.map_eq_some_iff.1 h
    exact HaveDistinctKeys.reviseLast? hf (hold _ rfl) hts
  | some (.value _) => exact absurd h nofun

theorem HasDistinctKeys.descend? {f : Table → Option Table}
    (hf : ∀ t t', t.HasDistinctKeys → f t = some t' → t'.HasDistinctKeys) (keys : List Key)
    (ht : t.HasDistinctKeys) (h : Table.descend? f keys t = some t') : t'.HasDistinctKeys := by
  induction keys generalizing t t' with
  | nil => exact hf t t' ht h
  | cons key keys ih =>
    obtain ⟨revised, hrevised, rfl⟩ := Option.map_eq_some_iff.1 h
    refine ht.revise? (fun old new hold hnew => ?_) hrevised
    refine onWay (Table.descend? f keys) (passage .implied) (fun _ => false)
      (fun t t' ht h => ih ht h) (hasDistinctKeys_empty ..) hold ?_
    rw [← hnew]
    rcases old with _ | (_ | _ | _) <;> rfl

theorem HasDistinctKeys.assignIn? {last : Key} {v : Value} {isBelow : Bool} {keys : List Key}
    (ht : t.HasDistinctKeys) (h : Table.assignIn? last v isBelow keys t = some t') :
    t'.HasDistinctKeys := by
  induction keys generalizing t t' isBelow with
  | nil =>
    rw [Table.assignIn?] at h
    split at h
    · exact absurd h nofun
    · obtain ⟨revised, hrevised, rfl⟩ := Option.map_eq_some_iff.1 h
      refine ht.revise? (fun old new hold hnew => ?_) hrevised
      cases old with
      | none => exact Option.some.inj hnew ▸ trivial
      | some item => exact absurd hnew nofun
  | cons key keys ih =>
    obtain ⟨revised, hrevised, rfl⟩ := Option.map_eq_some_iff.1 h
    refine ht.revise? (fun old new hold hnew => ?_) hrevised
    refine onWay (Table.assignIn? last v true keys) (passage .dotted)
      (fun inner => decide (inner.origin = .explicit)) (fun t t' ht h => ih ht h)
      (hasDistinctKeys_empty ..) hold ?_
    rw [← hnew]
    rcases old with _ | (_ | _ | _) <;> simp

theorem HasDistinctKeys.assignAll? {lines : List Assignment} (ht : t.HasDistinctKeys)
    (h : Table.assignAll? t lines = some t') : t'.HasDistinctKeys := by
  induction lines generalizing t with
  | nil => exact Option.some.inj h ▸ ht
  | cons a rest ih =>
    obtain ⟨next, hnext, hrest⟩ := Option.bind_eq_some_iff.1 h
    exact ih (ht.assignIn? hnext) hrest

/-- A table takes up an item under a new name. -/
theorem HasDistinctKeys.append (ht : t.HasDistinctKeys) (hnone : find? key.name t.entries = none)
    (hitem : item.HasDistinctKeys) :
    (t.withEntries (t.entries ++ [(key, item)])).HasDistinctKeys := by
  have hnew : Toml.revise? key (fun _ => some item) t.entries = some (t.entries ++ [(key, item)]) :=
    revise?_of_new hnone _
  exact ht.revise? (fun _ _ _ heq => Option.some.inj heq ▸ hitem) hnew

theorem HasDistinctKeys.erase (ht : t.HasDistinctKeys) (name : String) :
    (t.withEntries (erase name t.entries)).HasDistinctKeys := by
  obtain ⟨hnodup, hitems⟩ := hasDistinctKeys_iff.1 ht
  exact hasDistinctKeys_iff.2 ⟨hnodup.sublist (names_erase_sublist name t.entries),
    fun entry hentry => hitems entry ((erase_sublist name t.entries).subset hentry)⟩

theorem HasDistinctKeys.addSection? {s : Section} {position : Nat} (ht : t.HasDistinctKeys)
    (h : Table.addSection? s position t = some t') : t'.HasDistinctKeys := by
  obtain ⟨hnodup, hitems⟩ := hasDistinctKeys_iff.1 ht
  unfold Table.addSection? ofSection? at h
  dsimp only at h
  split at h
  · obtain ⟨new, hnew, h⟩ := Option.bind_eq_some_iff.1 h
    obtain ⟨revised, hrevised, rfl⟩ := Option.map_eq_some_iff.1 h
    have hdistinct : new.HasDistinctKeys := (hasDistinctKeys_empty ..).assignAll? hnew
    refine ht.revise? (fun old item hold hitem => ?_) hrevised
    match old with
    | none => exact Option.some.inj hitem ▸ ⟨hdistinct, trivial⟩
    | some (.tables ts) =>
      refine Option.some.inj hitem ▸ haveDistinctKeys_iff.2 fun t ht => ?_
      rcases List.mem_append.1 ht with ht | ht
      · exact haveDistinctKeys_iff.1 (hold _ rfl) t ht
      · exact List.mem_singleton.1 ht ▸ hdistinct
  split at h
  · next hnone =>
    obtain ⟨new, hnew, rfl⟩ := Option.map_eq_some_iff.1 h
    have hdistinct : Item.HasDistinctKeys (.table new) := (hasDistinctKeys_empty ..).assignAll? hnew
    exact ht.append hnone hdistinct
  · next known hsome =>
    obtain ⟨new, hnew, rfl⟩ := Option.map_eq_some_iff.1 h
    obtain ⟨key, -, hknown⟩ := mem_of_find? hsome
    have hdistinct : HasDistinctKeys ⟨.explicit, s.decor, some position, known⟩ :=
      hasDistinctKeys_iff.2 (hasDistinctKeys_iff.1 (hitems _ hknown))
    have hfree : find? s.path.last.name (Toml.erase s.path.last.name t.entries) = none := by
      rw [find?_erase hnodup, if_pos rfl]
    have hnew : Item.HasDistinctKeys (.table new) := hdistinct.assignAll? hnew
    exact (ht.erase s.path.last.name).append hfree hnew
  · exact absurd h nofun

theorem HasDistinctKeys.addSectionsFrom? {sections : List Section} {position : Nat}
    (ht : t.HasDistinctKeys) (h : Table.addSectionsFrom? position t sections = some t') :
    t'.HasDistinctKeys := by
  induction sections generalizing t position with
  | nil => exact Option.some.inj h ▸ ht
  | cons s rest ih =>
    obtain ⟨next, hnext, hrest⟩ := Option.bind_eq_some_iff.1 h
    exact ih (ht.descend? (fun _ _ ht h => ht.addSection? h) _ hnext) hrest

end Table

theorem Document.hasDistinctKeys_read? {text : String} {doc : Document} (h : read? text = some doc) :
    doc.root.HasDistinctKeys := by
  unfold read? assemble? at h
  simp only [Option.bind_eq_bind, Option.bind_eq_some_iff, Option.some.injEq] at h
  obtain ⟨lines, -, root, hroot, root', hroot', rfl⟩ := h
  exact ((Table.hasDistinctKeys_empty ..).assignAll? hroot).addSectionsFrom? hroot'

end FeatureForwarding.Toml

namespace FeatureForwarding.Manifest

open Toml (Item Table)

variable {m : Manifest}

theorem hasDistinctKeys_read? {path : Files.Path} {text : String} (h : read? path text = some m) :
    m.document.root.HasDistinctKeys := by
  obtain ⟨document, hdocument, rfl⟩ := Option.map_eq_some_iff.1 h
  exact Toml.Document.hasDistinctKeys_read? hdocument

end FeatureForwarding.Manifest
