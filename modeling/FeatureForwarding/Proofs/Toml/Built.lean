import FeatureForwarding.Proofs.Toml.ReadLines

/-! Trees that were built from lines and headers. Every key and value can be read again, every header has
a place of its own in the order of the text, and what leads to lines or headers is not empty. -/

namespace FeatureForwarding.Toml

variable {key : Key} {v : Value} {item : Item} {t t' : Table} {ts ts' : List Table}
    {entries : List (Key × Item)}
  {first first' next next' : Nat} {f : Table → Option Table}

/-! ### Built trees -/

/-- The header of the table is one of those from the one place on and in front of the other. -/
structure Table.HasHeader (first next : Nat) (t : Table) : Prop where
  decor : t.decor.IsAroundHeader
  position : ∃ n ∈ t.position, first ≤ n ∧ n < next

/-- How a table stands under its key. -/
structure Table.StandsUnder (first next : Nat) (key : Key) (t : Table) : Prop where
  explicit : t.origin = .explicit → key.decor.IsBlank ∧ key.EndsHeader ∧ t.HasHeader first next
  implied : t.origin = .implied → key.decor.IsBlank ∧ t.decor = {} ∧ t.position = none
  nonempty : t.origin ≠ .explicit → t.entries ≠ []

mutual

def Item.IsBuilt (first next : Nat) (key : Key) : Item → Prop
  | .value v => key.MakesLine v
  | .table t => (key.IsLegible ∧ t.StandsUnder first next key) ∧ t.IsBuilt first next
  | .tables ts =>
    (key.IsLegible ∧ key.decor.IsBlank ∧ key.EndsHeader ∧ ts ≠ []) ∧ Table.AreBuilt first next ts
  termination_by structural item => item

/-- The table was built from lines and from the headers from the one place on and in front of the other. -/
def Table.IsBuilt (first next : Nat) : Table → Prop
  | ⟨_, _, _, entries⟩ => (names entries).Nodup ∧ Item.AreBuilt first next entries
  termination_by structural t => t

/-- The elements of an array are built one after another. -/
def Table.AreBuilt (first next : Nat) : List Table → Prop
  | [] => first ≤ next
  | t :: ts =>
    ∃ n mid, (t.origin = .explicit ∧ t.decor.IsAroundHeader ∧ t.position = some n ∧ first ≤ n ∧
      n < mid) ∧
      t.IsBuilt n mid ∧ Table.AreBuilt mid next ts
  termination_by structural ts => ts

def Item.AreBuilt (first next : Nat) : List (Key × Item) → Prop
  | [] => True
  | (key, item) :: rest => item.IsBuilt first next key ∧ Item.AreBuilt first next rest
  termination_by structural entries => entries

end

theorem Item.areBuilt_iff : AreBuilt first next entries ↔
    ∀ entry ∈ entries, entry.2.IsBuilt first next entry.1 := by
  induction entries with
  | nil => simp [AreBuilt]
  | cons entry rest ih => simp [AreBuilt, ih]

theorem Table.isBuilt_iff : t.IsBuilt first next ↔
    (names t.entries).Nodup ∧ ∀ entry ∈ t.entries, entry.2.IsBuilt first next entry.1 := by
  obtain ⟨_, _, _, entries⟩ := t
  rw [IsBuilt, Item.areBuilt_iff]

theorem Table.isBuilt_nil {origin : Origin} {decor : Decor} {position : Option Nat} :
    IsBuilt first next ⟨origin, decor, position, []⟩ := ⟨.nil, trivial⟩

theorem Table.AreBuilt.le (h : AreBuilt first next ts) : first ≤ next := by
  induction ts generalizing first with
  | nil => exact h
  | cons t ts ih =>
    obtain ⟨n, mid, ⟨-, -, -, hle, hlt⟩, -, hrest⟩ := h
    have hmid := ih hrest
    omega

theorem Table.StandsUnder.mono (hfirst : first' ≤ first) (hnext : next ≤ next')
    (h : t.StandsUnder first next key) :
    t.StandsUnder first' next' key := by
  refine ⟨fun horigin => ?_, h.implied, h.nonempty⟩
  obtain ⟨hdecor, hends, haround, n, hn, hle, hlt⟩ := h.explicit horigin
  exact ⟨hdecor, hends, haround, n, hn, by omega, by omega⟩

mutual

theorem Item.IsBuilt.mono (hfirst : first' ≤ first) (hnext : next ≤ next') (key : Key) (item : Item)
    (h : item.IsBuilt first next key) : item.IsBuilt first' next' key := by
  match item with
  | .value _ => exact h
  | .table t => exact ⟨⟨h.1.1, h.1.2.mono hfirst hnext⟩, Table.IsBuilt.mono hfirst hnext t h.2⟩
  | .tables ts => exact ⟨h.1, Table.AreBuilt.mono hfirst hnext ts h.2⟩
  termination_by structural item

theorem Table.IsBuilt.mono (hfirst : first' ≤ first) (hnext : next ≤ next') (t : Table)
    (h : t.IsBuilt first next) : t.IsBuilt first' next' := by
  obtain ⟨_, _, _, entries⟩ := t
  exact ⟨h.1, Item.AreBuilt.mono hfirst hnext entries h.2⟩
  termination_by structural t

theorem Table.AreBuilt.mono {first first' : Nat} (hfirst : first' ≤ first) (hnext : next ≤ next')
    (ts : List Table)
    (h : Table.AreBuilt first next ts) : Table.AreBuilt first' next' ts := by
  match ts with
  | [] => exact Nat.le_trans hfirst (Nat.le_trans h hnext)
  | t :: ts =>
    obtain ⟨n, mid, ⟨horigin, hdecor, hposition, hle, hlt⟩, ht, hrest⟩ := h
    exact ⟨n, mid, ⟨horigin, hdecor, hposition, Nat.le_trans hfirst hle, hlt⟩, ht,
      Table.AreBuilt.mono (Nat.le_refl _) hnext ts hrest⟩
  termination_by structural ts

theorem Item.AreBuilt.mono (hfirst : first' ≤ first) (hnext : next ≤ next') (entries : List (Key × Item))
    (h : Item.AreBuilt first next entries) : Item.AreBuilt first' next' entries := by
  match entries with
  | [] => trivial
  | (key, item) :: rest =>
    exact ⟨Item.IsBuilt.mono hfirst hnext key item h.1, Item.AreBuilt.mono hfirst hnext rest h.2⟩
  termination_by structural entries

end

/-! ### Changes -/

namespace Table

/-- A change of a table puts something into it, and what was built from the headers in front of the one place is
then built from those in front of the other. -/
structure Keeps (next next' : Nat) (f : Table → Option Table) : Prop where
  built {first : Nat} {t t' : Table} : first ≤ next → t.IsBuilt first next → f t = some t' →
    t'.IsBuilt first next'
  kept {t t' : Table} : f t = some t' → ∃ entries, entries ≠ [] ∧ t' = t.withEntries entries

variable (hf : Keeps next next' f) (hle : next ≤ next')

include hf hle

theorem Keeps.reviseLast? (h : AreBuilt first next ts) (hrevised : Toml.reviseLast? f ts = some ts') :
    AreBuilt first next' ts' ∧ ts' ≠ [] := by
  induction ts generalizing first ts' with
  | nil => exact absurd hrevised nofun
  | cons t ts ih =>
    obtain ⟨n, mid, ⟨horigin, hdecor, hposition, hfirst, hlt⟩, ht, hrest⟩ := h
    cases ts with
    | nil =>
      obtain ⟨t', ht', rfl⟩ := Option.map_eq_some_iff.1 hrevised
      obtain ⟨entries, -, rfl⟩ := hf.kept ht'
      have hmid : mid ≤ next := hrest
      have ht' := hf.built (Nat.le_trans (Nat.le_of_lt hlt) hmid)
        (Table.IsBuilt.mono (Nat.le_refl n) hmid t ht) ht'
      exact ⟨⟨n, next', ⟨horigin, hdecor, hposition, hfirst, by omega⟩, ht', Nat.le_refl next'⟩,
        List.cons_ne_nil _ _⟩
    | cons u ts =>
      obtain ⟨more, hmore, rfl⟩ := Option.map_eq_some_iff.1 hrevised
      exact ⟨⟨n, mid, ⟨horigin, hdecor, hposition, hfirst, hlt⟩, ht, (ih hrest hmore).1⟩,
        List.cons_ne_nil _ _⟩

omit hf

theorem Keeps.revise {g : Option Item → Option Item}
    (hnew : ∀ {first new}, first ≤ next → g none = some new → Item.IsBuilt first next' key new)
    (hold : ∀ {first other old new}, first ≤ next → Item.IsBuilt first next other old →
    g (some old) = some new →
      Item.IsBuilt first next' other new) :
    Keeps next next' fun t => (Toml.revise? key g t.entries).map t.withEntries where
  built hfirst ht h := by
    obtain ⟨revised, hrevised, rfl⟩ := Option.map_eq_some_iff.1 h
    obtain ⟨hnodup, hitems⟩ := isBuilt_iff.1 ht
    exact isBuilt_iff.2 ⟨nodup_names_revise? hrevised hnodup, forall_mem_revise? hrevised hitems
      (fun entry hentry => Item.IsBuilt.mono (Nat.le_refl _) hle entry.1 entry.2 hentry)
        (fun _ => hnew hfirst)
      fun _ _ _ => hold hfirst⟩
  kept h := by
    obtain ⟨revised, hrevised, rfl⟩ := Option.map_eq_some_iff.1 h
    exact ⟨revised, revise?_ne_nil hrevised, rfl⟩

include hf

/-- A change further down is a change, also where it makes the tables on the way. -/
theorem Keeps.below (origin : Origin) (hpassage : origin ≠ .explicit) (bars : Table → Bool)
    (hkey : key.IsLegible)
    (hdecor : key.decor = {}) :
    Keeps next next' fun t => (Toml.revise? key (fun old : Option Item => match old with
      | none => (f (passage origin)).map .table
      | some (.table inner) => if bars inner then none else (f inner).map .table
      | some (.tables ts) => (Toml.reviseLast? f ts).map .tables
      | some (.value _) => none) t.entries).map t.withEntries := by
  refine Keeps.revise hle (fun hfirst hnew => ?_) fun {_ other old _} hfirst hold h => ?_
  · obtain ⟨t, ht, rfl⟩ := Option.map_eq_some_iff.1 hnew
    have hbuilt := hf.built hfirst isBuilt_nil ht
    obtain ⟨entries, hne, rfl⟩ := hf.kept ht
    refine ⟨⟨hkey, fun horigin => absurd horigin hpassage, fun _ => ⟨?_, rfl, rfl⟩, fun _ => hne⟩, hbuilt⟩
    rw [hdecor]
    exact Decor.isBlank_unset
  · match old with
    | .table inner =>
      dsimp only at h
      split at h
      · exact absurd h nofun
      · obtain ⟨t, ht, rfl⟩ := Option.map_eq_some_iff.1 h
        obtain ⟨⟨hother, hstands⟩, hinner⟩ := hold
        have hbuilt := hf.built hfirst hinner ht
        obtain ⟨entries, hne, rfl⟩ := hf.kept ht
        refine ⟨⟨hother, fun horigin => ?_, hstands.implied, fun _ => hne⟩, hbuilt⟩
        obtain ⟨hdecor, hends, haround, hposition⟩ := (hstands.mono (Nat.le_refl _) hle).explicit horigin
        exact ⟨hdecor, hends, haround, hposition⟩
    | .tables ts =>
      obtain ⟨ts', hts, rfl⟩ := Option.map_eq_some_iff.1 h
      obtain ⟨⟨hother, hblank, hends, -⟩, hbuilt⟩ := hold
      obtain ⟨hbuilt', hne⟩ := hf.reviseLast? hle hbuilt hts
      exact ⟨⟨hother, hblank, hends, hne⟩, hbuilt'⟩
    | .value _ => exact absurd h nofun

omit hf hle

/-! ### Assembly -/

theorem Keeps.assignIn? {last : Key} (hlast : last.MakesLine v) {keys : List Key}
    (hkeys : ∀ key ∈ keys, key.IsLegible ∧ key.decor = {}) (next : Nat) (isBelow : Bool) :
    Keeps next next (Table.assignIn? last v isBelow keys) := by
  induction keys generalizing isBelow with
  | nil =>
    have hinsert : Keeps next next fun t => (insertNew? last (.value v) t.entries).map t.withEntries :=
      Keeps.revise (Nat.le_refl next) (fun _ hnew => Option.some.inj hnew ▸ hlast)
        fun _ _ hold => absurd hold (Option.some_ne_none _).symm
    refine ⟨fun hfirst ht h => ?_, fun h => ?_⟩
    · rw [Table.assignIn?] at h
      split at h
      · exact absurd h (Option.some_ne_none _).symm
      · exact hinsert.built hfirst ht h
    · rw [Table.assignIn?] at h
      split at h
      · exact absurd h (Option.some_ne_none _).symm
      · exact hinsert.kept h
  | cons key keys ih =>
    obtain ⟨⟨hkey, hdecor⟩, hkeys⟩ := List.forall_mem_cons.1 hkeys
    have hbelow := (ih hkeys true).below (Nat.le_refl next) .dotted (by decide)
      (fun inner => decide (inner.origin = .explicit)) hkey hdecor
    simp only [decide_eq_true_eq] at hbelow
    exact hbelow

theorem Keeps.descend? (hf : Keeps next next' f) (hle : next ≤ next') {keys : List Key}
    (hkeys : ∀ key ∈ keys, key.IsLegible ∧ key.decor = {}) : Keeps next next' (Table.descend? f keys) := by
  induction keys with
  | nil => exact hf
  | cons key keys ih =>
    obtain ⟨⟨hkey, hdecor⟩, hkeys⟩ := List.forall_mem_cons.1 hkeys
    have hbelow := (ih hkeys).below hle .implied (by decide) (fun _ => false) hkey hdecor
    simp only [Bool.false_eq_true, if_false] at hbelow
    exact hbelow

theorem IsBuilt.assignAll? {lines : List Assignment} (hlines : ∀ a ∈ lines, a.IsLine) (hle : first ≤ next)
    (ht : t.IsBuilt first next) (h : Table.assignAll? t lines = some t') :
    t'.IsBuilt first next ∧ ∃ entries, t' = t.withEntries entries := by
  induction lines generalizing t with
  | nil => exact Option.some.inj h ▸ ⟨ht, t.entries, (withEntries_entries t).symm⟩
  | cons a rest ih =>
    obtain ⟨ha, hrest⟩ := List.forall_mem_cons.1 hlines
    obtain ⟨mid, hmid, hrevised⟩ := Option.bind_eq_some_iff.1 h
    have hkeeps := Keeps.assignIn? ha.last ha.parents next false
    have hbuilt := hkeeps.built hle ht hmid
    obtain ⟨entries, -, rfl⟩ := hkeeps.kept hmid
    obtain ⟨hbuilt', entries', rfl⟩ := ih hrest hbuilt hrevised
    exact ⟨hbuilt', entries', rfl⟩

variable {s : Section}

/-- The table of a section takes the next place. -/
theorem ofSection?_eq_some {known : List (Key × Item)} (hs : s.IsLegible) (hle : first ≤ next)
    (hknown : IsBuilt first next ⟨.explicit, s.decor, some next, known⟩)
    (h : ofSection? s next known = some t) :
    t.IsBuilt first next ∧ t.origin = .explicit ∧ t.decor.IsAroundHeader ∧ t.position = some next := by
  obtain ⟨hbuilt, entries, rfl⟩ := hknown.assignAll? hs.body hle h
  exact ⟨hbuilt, rfl, hs.decor, rfl⟩

theorem AreBuilt.concat (h : AreBuilt first next ts) (ht : t.IsBuilt next (next + 1))
    (horigin : t.origin = .explicit)
    (hdecor : t.decor.IsAroundHeader) (hposition : t.position = some next) :
    AreBuilt first (next + 1) (ts ++ [t]) := by
  induction ts generalizing first with
  | nil => exact ⟨next, next + 1, ⟨horigin, hdecor, hposition, h, Nat.lt_add_one next⟩, ht, Nat.le_refl _⟩
  | cons u ts ih =>
    obtain ⟨n, mid, hu, hbuilt, hrest⟩ := h
    exact ⟨n, mid, hu, hbuilt, ih hrest⟩

/-- An element goes to the end of its array. -/
theorem Keeps.addElement? (hs : s.IsLegible) (next : Nat) : Keeps next (next + 1) fun parent =>
    (ofSection? s next []).bind fun t => (Toml.revise? s.path.last (fun old : Option Item => match old with
      | none => some (.tables [t])
      | some (.tables ts) => some (.tables (ts ++ [t]))
      | some _ => none) parent.entries).map parent.withEntries := by
  have hrevise {t : Table} (ht : ofSection? s next [] = some t) :
      Keeps next (next + 1) fun parent => (Toml.revise? s.path.last (fun old : Option Item => match old with
        | none => some (.tables [t])
        | some (.tables ts) => some (.tables (ts ++ [t]))
        | some _ => none) parent.entries).map parent.withEntries := by
    obtain ⟨hbuilt, horigin, hdecor, hposition⟩ := ofSection?_eq_some hs (Nat.le_refl next) isBuilt_nil ht
    have hbuilt := Table.IsBuilt.mono (Nat.le_refl next) (Nat.le_succ next) t hbuilt
    refine Keeps.revise (Nat.le_succ next) (fun hle hnew => ?_) fun {_ other old _} hle hold hnew => ?_
    · obtain rfl := Option.some.inj hnew
      have hnone : AreBuilt _ next [] := hle
      exact ⟨⟨hs.last, hs.around, hs.ends, List.cons_ne_nil _ _⟩,
        hnone.concat hbuilt horigin hdecor hposition⟩
    · match old with
      | .tables ts =>
        obtain rfl := Option.some.inj hnew
        obtain ⟨⟨hother, hblank, hends, -⟩, hts⟩ := hold
        exact ⟨⟨hother, hblank, hends, by simp⟩, hts.concat hbuilt horigin hdecor hposition⟩
      | .value _ | .table _ => exact absurd hnew nofun
  refine ⟨fun hle ht h => ?_, fun h => ?_⟩
  · obtain ⟨t, hread, h⟩ := Option.bind_eq_some_iff.1 h
    exact (hrevise hread).built hle ht h
  · obtain ⟨t, hread, h⟩ := Option.bind_eq_some_iff.1 h
    exact (hrevise hread).kept h

/-- A single table goes to the end, behind what stays. -/
theorem IsBuilt.addTable {known rest : List (Key × Item)} {parent : Table} (hs : s.IsLegible)
    (hle : first ≤ next)
    (hrest : ∀ entry ∈ rest, entry.2.IsBuilt first next entry.1) (hnodup : (names rest).Nodup)
    (hfree : find? s.path.last.name rest = none)
    (hknown : IsBuilt first next ⟨.explicit, s.decor, some next, known⟩)
    (h : ofSection? s next known = some t) :
    (parent.withEntries (rest ++ [(s.path.last, .table t)])).IsBuilt first (next + 1) := by
  obtain ⟨ht, horigin, hdecor, hposition⟩ := ofSection?_eq_some hs hle hknown h
  refine isBuilt_iff.2 ⟨nodup_names_revise? (revise?_of_new hfree fun _ => some (.table t)) hnodup, ?_⟩
  rw [entries_withEntries, List.forall_mem_append, List.forall_mem_singleton]
  refine ⟨fun entry hentry => Item.IsBuilt.mono (Nat.le_refl _) (Nat.le_succ _) _ _ (hrest entry hentry),
    ⟨⟨hs.last, fun _ => ⟨hs.around, hs.ends, hdecor, next, hposition, hle, Nat.lt_add_one next⟩,
      fun himplied => ?_, fun hne => absurd horigin hne⟩,
        Table.IsBuilt.mono (Nat.le_refl _) (Nat.le_succ _) t ht⟩⟩
  rw [horigin] at himplied
  exact absurd himplied nofun

theorem Keeps.addSection? (hs : s.IsLegible) (next : Nat) :
    Keeps next (next + 1) (Table.addSection? s next) := by
  have harray := Keeps.addElement? hs next
  refine ⟨fun {first parent _} hle ht h => ?_, fun h => ?_⟩
  · obtain ⟨hnodup, hitems⟩ := isBuilt_iff.1 ht
    unfold Table.addSection? at h
    dsimp only at h
    split at h
    · exact harray.built hle ht h
    split at h
    · next hfree =>
      obtain ⟨t, hread, rfl⟩ := Option.map_eq_some_iff.1 h
      exact IsBuilt.addTable hs hle hitems hnodup hfree isBuilt_nil hread
    · next known hsome =>
      obtain ⟨t, hread, rfl⟩ := Option.map_eq_some_iff.1 h
      obtain ⟨key, -, hmem⟩ := mem_of_find? hsome
      obtain ⟨-, hknown⟩ := hitems _ hmem
      exact IsBuilt.addTable hs hle (fun entry hentry => hitems entry ((erase_sublist _ _).subset hentry))
        (hnodup.sublist (names_erase_sublist _ _)) (by rw [find?_erase hnodup, if_pos rfl]) hknown hread
    · exact absurd h nofun
  · unfold Table.addSection? at h
    dsimp only at h
    split at h
    · exact harray.kept h
    split at h
    · obtain ⟨t, -, rfl⟩ := Option.map_eq_some_iff.1 h
      exact ⟨_, by simp, rfl⟩
    · obtain ⟨t, -, rfl⟩ := Option.map_eq_some_iff.1 h
      exact ⟨_, by simp, rfl⟩
    · exact absurd h nofun

theorem IsBuilt.addSectionsFrom? {sections : List Section} (hsections : ∀ s ∈ sections, s.IsLegible)
    (hle : first ≤ next) (ht : t.IsBuilt first next) (h : Table.addSectionsFrom? next t sections = some t') :
    t'.IsBuilt first (next + sections.length) ∧ ∃ entries, t' = t.withEntries entries := by
  induction sections generalizing t next with
  | nil => exact Option.some.inj h ▸ ⟨ht, t.entries, (withEntries_entries t).symm⟩
  | cons s rest ih =>
    obtain ⟨hs, hrest⟩ := List.forall_mem_cons.1 hsections
    obtain ⟨mid, hmid, hadded⟩ := Option.bind_eq_some_iff.1 h
    have hkeeps := (Keeps.addSection? hs next).descend? (Nat.le_succ next) hs.parents
    have hbuilt := hkeeps.built hle ht hmid
    obtain ⟨entries, -, rfl⟩ := hkeeps.kept hmid
    obtain ⟨hbuilt', entries', rfl⟩ := ih hrest (Nat.le_succ_of_le hle) hbuilt hadded
    rw [List.length_cons, Nat.add_comm rest.length, ← Nat.add_assoc]
    exact ⟨hbuilt', entries', rfl⟩

end Table

/-- A document that was read. -/
structure Document.IsBuilt (doc : Document) : Prop where
  root : doc.HasPlainRoot
  table : ∃ next, doc.root.IsBuilt 1 next
  trailing : IsTrailing (withoutReturns doc.trailing)

theorem Document.isBuilt_read? {text : String} {doc : Document} (h : read? text = some doc) :
    doc.IsBuilt := by
  obtain ⟨lines, hlines, h⟩ := Option.bind_eq_some_iff.1 h
  obtain ⟨root, hroot, h⟩ := Option.bind_eq_some_iff.1 h
  obtain ⟨root', hroot', heq⟩ := Option.bind_eq_some_iff.1 h
  obtain rfl := Option.some.inj heq
  obtain ⟨hbody, hsections, htrailing⟩ := areLegible_of_lines hlines
  obtain ⟨hbuilt, entries, rfl⟩ := Table.isBuilt_nil.assignAll? hbody (Nat.le_refl 1) hroot
  obtain ⟨hbuilt', entries', rfl⟩ := hbuilt.addSectionsFrom? hsections (Nat.le_refl 1) hroot'
  exact ⟨⟨rfl, rfl⟩, ⟨_, hbuilt'⟩, htrailing⟩

end FeatureForwarding.Toml
