import FeatureForwarding.Proofs.Toml.Legible

/-! Lines that dotted keys group. The lines of a table are put together again, in order, behind what
headers have made of it so far. -/

namespace FeatureForwarding.Toml

/-! ### Orderly tables -/

namespace Table

/-- The header of the table stands in front of those below it. -/
def HeadsBelow (t : Table) : Prop :=
  ∃ n, t.position = some n ∧ ∀ q ∈ t.pieces, q.isShown → ∃ k, q.table.position = some k ∧ n ≤ k

/-- The headers from the one table on stand in front of those from the other on. -/
def Precedes (t u : Table) : Prop :=
  ∀ n ∈ u.position, (∀ k ∈ t.position, k ≤ n) ∧ ∀ q ∈ t.pieces, q.isShown → ∀ k ∈ q.table.position, k ≤ n

/-- The elements of an array of tables stand one after another, each with all that is below it. -/
structure InTurn (ts : List Table) : Prop where
  nonempty : ts ≠ []
  origin : ∀ t ∈ ts, t.origin ≠ .dotted
  heads : ∀ t ∈ ts, t.HeadsBelow
  pairwise : ts.Pairwise Precedes

end Table

/-- A header has no blanks of a dot behind its key. -/
def Key.EndsHeader (key : Key) : Prop := key.dotDecor.textAfter .headerPath = ""

instance (key : Key) : Decidable key.EndsHeader := inferInstanceAs (Decidable (_ = _))

/-- Tables made by dotted keys have lines and no headers below them. -/
structure Table.IsGroup (t : Table) : Prop where
  pieces : t.pieces = []
  pairs : t.pairs ≠ []

/-- A table with a header, or one that leads to headers. -/
structure Table.IsHeaded (key : Key) (t : Table) : Prop where
  ends : t.origin ≠ .implied ∨ t.pairs ≠ [] → key.EndsHeader
  leads : t.origin = .implied → t.pairs = [] → ∃ q ∈ t.pieces, q.isShown

mutual

/-- The headers below the table can be read in the order in which they stand. -/
def Table.IsOrderly : Table → Prop
  | ⟨_, _, _, entries⟩ => (names entries).Nodup ∧ Item.AreOrderly entries
  termination_by structural t => t

def Item.AreOrderly : List (Key × Item) → Prop
  | [] => True
  | (_, .value v) :: rest => v.isDotted = false ∧ Item.AreOrderly rest
  | (key, .table t) :: rest =>
    (if t.origin = .dotted then t.IsGroup else t.IsHeaded key) ∧ t.IsOrderly ∧ Item.AreOrderly rest
  | (key, .tables ts) :: rest => (key.EndsHeader ∧ Table.InTurn ts) ∧ Table.AreOrderly ts ∧
    Item.AreOrderly rest
  termination_by structural entries => entries

def Table.AreOrderly : List Table → Prop
  | [] => True
  | t :: ts => t.IsOrderly ∧ Table.AreOrderly ts
  termination_by structural ts => ts

end

variable {key : Key} {t : Table} {entries front : List (Key × Item)} {isTop : Bool}

theorem Table.isOrderly_iff : t.IsOrderly ↔ (names t.entries).Nodup ∧ Item.AreOrderly t.entries := by
  cases t
  rw [IsOrderly]

theorem Item.areOrderly_cons {entry : Key × Item} :
    Item.AreOrderly (entry :: entries) ↔ Item.AreOrderly [entry] ∧ Item.AreOrderly entries := by
  obtain ⟨key, _ | _ | _⟩ := entry <;> simp [Item.AreOrderly, and_assoc]

theorem Item.areOrderly_iff : Item.AreOrderly entries ↔ ∀ entry ∈ entries, Item.AreOrderly [entry] := by
  induction entries with
  | nil => simp [Item.AreOrderly]
  | cons entry rest ih => rw [Item.areOrderly_cons, List.forall_mem_cons, ih]

mutual

theorem Table.IsOrderly.hasClosedGroups (t : Table) (h : t.IsOrderly) : t.HasClosedGroups := by
  obtain ⟨_, _, _, entries⟩ := t
  exact Item.haveClosedGroups_of_orderly entries h.2
  termination_by structural t

theorem Item.haveClosedGroups_of_orderly (entries : List (Key × Item)) (h : Item.AreOrderly entries) :
    Item.HaveClosedGroups entries := by
  match entries with
  | [] => trivial
  | (_, .value _) :: rest => exact ⟨trivial, Item.haveClosedGroups_of_orderly rest h.2⟩
  | (_, .table t) :: rest =>
    obtain ⟨htable, ht, hrest⟩ := h
    refine ⟨⟨fun hdotted => ?_, Table.IsOrderly.hasClosedGroups t ht⟩,
      Item.haveClosedGroups_of_orderly rest hrest⟩
    rw [if_pos hdotted] at htable
    exact htable.pieces
  | (_, .tables ts) :: rest =>
    obtain ⟨⟨-, hturn⟩, hts, hrest⟩ := h
    exact ⟨Table.haveClosedGroups_of_orderly ts hts hturn.origin, Item.haveClosedGroups_of_orderly rest hrest⟩
  termination_by structural entries

theorem Table.haveClosedGroups_of_orderly (ts : List Table) (h : Table.AreOrderly ts)
    (horigin : ∀ t ∈ ts, t.origin ≠ .dotted) : Table.HaveClosedGroups ts := by
  match ts with
  | [] => trivial
  | t :: ts =>
    obtain ⟨hfirst, hrest⟩ := List.forall_mem_cons.1 horigin
    exact ⟨hfirst, Table.IsOrderly.hasClosedGroups t h.1, Table.haveClosedGroups_of_orderly ts h.2 hrest⟩
  termination_by structural ts

end

/-! ### What the lines leave -/

mutual

/-- What is in a table made by dotted keys after its lines are read back. -/
def Table.rereadBelow : Table → List (Key × Item)
  | ⟨_, _, _, entries⟩ => Item.rereadOwn false entries
  termination_by structural t => t

/-- The entries that a table writes in lines, as they are read back. -/
def Item.rereadOwn (isTop : Bool) : List (Key × Item) → List (Key × Item)
  | [] => []
  | (key, .value v) :: rest => (key.reread isTop .key false, .value (v.reread .value)) ::
    Item.rereadOwn isTop rest
  | (key, .table t) :: rest =>
    (if t.origin = .dotted then [(key.reread isTop .key true,
      .table ⟨.dotted, {}, none, t.rereadBelow⟩)] else [])
      ++ Item.rereadOwn isTop rest
  | (_, .tables _) :: rest => Item.rereadOwn isTop rest
  termination_by structural entries => entries

end

/-- The pairs of a table as they are read back. -/
def Pair.rereadLines (isTop : Bool) (ps : List Pair) : List Assignment :=
  ps.map (Pair.assignment isTop .key .value)

theorem Pair.rereadLines_under (isTop : Bool) (key : Key) (ps : List Pair) :
    rereadLines isTop (ps.map (Pair.under key)) =
      (rereadLines false ps).map (Assignment.under (key.passed (key.before isTop))) := by
  simp only [rereadLines, List.map_map]
  exact List.map_congr_left fun p _ => Pair.assignment_under isTop .key .value key p

theorem names_rereadOwn_sublist (isTop : Bool) (entries : List (Key × Item)) :
    (names (Item.rereadOwn isTop entries)).Sublist (names entries) := by
  induction entries with
  | nil => exact .slnil
  | cons entry rest ih =>
    obtain ⟨key, _ | t | _⟩ := entry
    · exact ih.cons_cons _
    · rw [Item.rereadOwn]
      split
      · exact ih.cons_cons _
      · exact ih.cons _
    · exact ih.cons _

namespace Table

/-- Assigns one line after another; `isBelow` is known from where the lines stand. -/
def assignEach? (isBelow : Bool) (t : Table) : List Assignment → Option Table
  | [] => some t
  | a :: rest =>
    (assignIn? a.path.last a.value isBelow a.path.parents t).bind fun t =>
      assignEach? isBelow t rest

theorem assignAll?_eq (t : Table) (as : List Assignment) : assignAll? t as = assignEach? false t as := by
  induction as generalizing t with
  | nil => rfl
  | cons a as ih => exact congrArg _ (funext ih)

theorem assignEach?_append (isBelow : Bool) (t : Table) (as bs : List Assignment) :
    assignEach? isBelow t (as ++ bs) = (assignEach? isBelow t as).bind fun t => assignEach? isBelow t bs := by
  induction as generalizing t with
  | nil => rfl
  | cons a as ih =>
    rw [List.cons_append, assignEach?, assignEach?, Option.bind_assoc]
    exact congrArg _ (funext ih)

/-- Lines below one key change the table under it. -/
theorem assignEach?_under {inner : Table} (h : find? key.name front = none) (hinner : inner.origin = .dotted)
    (isBelow : Bool) (as : List Assignment) (t : Table) :
    assignEach? isBelow (t.withEntries (front ++ [(key, .table inner)])) (as.map (Assignment.under key)) =
      (assignEach? true inner as).map fun inner => t.withEntries (front ++ [(key, .table inner)]) := by
  induction as generalizing inner with
  | nil => rfl
  | cons a as ih =>
    have hbarred : inner.origin ≠ .explicit := by simp [hinner]
    rw [List.map_cons, assignEach?, assignEach?, Assignment.under, assignIn?, entries_withEntries,
      Value.revise?_last h]
    dsimp only
    rw [if_neg hbarred]
    cases hnext : assignIn? a.path.last a.value true a.path.parents inner with
    | none => rfl
    | some next =>
      have horigin : next.origin = .dotted := by
        rw [← hinner]
        exact origin_assignIn? hnext
      simpa using ih horigin
where
  origin_assignIn? {last : Key} {v : Value} {isBelow : Bool} {keys : List Key} {t t' : Table}
      (h : assignIn? last v isBelow keys t = some t') : t'.origin = t.origin := by
    cases keys with
    | nil =>
      rw [assignIn?] at h
      split at h
      · simp at h
      · obtain ⟨_, -, rfl⟩ := Option.map_eq_some_iff.1 h
        rfl
    | cons key keys =>
      obtain ⟨_, -, rfl⟩ := Option.map_eq_some_iff.1 h
      rfl

theorem assignEach?_under_new (h : find? key.name t.entries = none) (isBelow : Bool) {as : List Assignment}
    (has : as ≠ []) :
    assignEach? isBelow t (as.map (Assignment.under key)) =
      (assignEach? true (passage .dotted) as).map fun inner =>
      t.withEntries (t.entries ++ [(key, .table inner)]) := by
  obtain ⟨a, as, rfl⟩ := List.exists_cons_of_ne_nil has
  rw [List.map_cons, assignEach?, assignEach?, Assignment.under, assignIn?, revise?_of_new h]
  dsimp only
  cases hnext : assignIn? a.path.last a.value true a.path.parents (passage .dotted) with
  | none => rfl
  | some next =>
    have horigin : next.origin = .dotted := assignEach?_under.origin_assignIn? hnext
    simpa using assignEach?_under h horigin isBelow as t

theorem assignEach?_pair (isTop isBelow : Bool) (ht : isBelow = true → t.origin = .dotted)
    (key : Key) (v : Value)
    (h : find? key.name t.entries = none) :
    assignEach? isBelow t (Pair.rereadLines isTop [⟨key, [], v⟩]) =
      some (t.withEntries (t.entries ++ [(key.reread isTop .key false, .value (v.reread .value))])) := by
  have hnew : find? (key.reread isTop .key false).name t.entries = none := h
  have hinsert := revise?_of_new hnew fun old : Option Item =>
    if old.isNone then some (.value (v.reread .value)) else none
  have hbarred : (isBelow && t.origin != .dotted) = false := by
    cases isBelow with
    | false => rfl
    | true => simp [ht rfl]
  change (assignIn? (key.reread isTop .key false) (v.reread .value) isBelow [] t).bind some = _
  rw [assignIn?, hbarred, if_neg Bool.false_ne_true, insertNew?, hinsert]
  rfl

mutual

theorem assignEach?_below (t : Table) (h : t.IsOrderly) :
    assignEach? true (passage .dotted) (Pair.rereadLines false t.pairs) =
      some ⟨.dotted, {}, none, t.rereadBelow⟩ := by
  obtain ⟨_, _, _, entries⟩ := t
  rw [pairs, rereadBelow]
  exact assignEach?_pairs false true entries h.2 h.1 (fun _ => rfl) fun _ _ => rfl
  termination_by structural t

theorem assignEach?_pairs (isTop isBelow : Bool) (entries : List (Key × Item)) (h : Item.AreOrderly entries)
    (hnames : (names entries).Nodup) {t : Table} (ht : isBelow = true → t.origin = .dotted)
    (hnew : ∀ name ∈ names (Item.rereadOwn isTop entries), find? name t.entries = none) :
    assignEach? isBelow t (Pair.rereadLines isTop (Item.pairs entries)) =
      some (t.withEntries (t.entries ++ Item.rereadOwn isTop entries)) := by
  -- a first entry is put behind what is there, and then the rest behind that
  have hcons {k : Key} {item : Item} {rest : List (Key × Item)} (hkey : k.name ∉ names rest)
      {t : Table} (hnew : ∀ name ∈ names (Item.rereadOwn isTop rest), find? name t.entries = none) :
      ∀ name ∈ names (Item.rereadOwn isTop rest),
        find? name (t.withEntries (t.entries ++ [(k, item)])).entries = none := fun name hname =>
    Value.find?_append_none (hnew name hname)
      (by rintro rfl; exact hkey ((names_rereadOwn_sublist isTop rest).subset hname))
  match entries with
  | [] => simp [Item.pairs, Pair.rereadLines, assignEach?, Item.rereadOwn, withEntries_entries]
  | (key, .value v) :: rest =>
    obtain ⟨hdotted, hrest⟩ := h
    obtain ⟨hkey, hnames⟩ := List.nodup_cons.1 hnames
    obtain ⟨hfirst, hlater⟩ := List.forall_mem_cons.1 hnew
    have hread := assignEach?_pairs isTop isBelow rest hrest hnames
      (t := t.withEntries (t.entries ++ [(key.reread isTop .key false, .value (v.reread .value))])) ht
      (hcons (k := key.reread isTop .key false) hkey hlater)
    rw [Item.pairs, Value.pairsAt_of_isDotted_eq_false key hdotted, Pair.rereadLines, List.map_append,
      ← Pair.rereadLines, ← Pair.rereadLines, assignEach?_append,
        assignEach?_pair isTop isBelow ht key v hfirst,
      Option.bind_some, hread, Item.rereadOwn]
    simp
  | (key, .table t') :: rest =>
    obtain ⟨htable, ht', hrest⟩ := h
    obtain ⟨hkey, hnames⟩ := List.nodup_cons.1 hnames
    by_cases hdotted : t'.origin = .dotted
    · rw [if_pos hdotted] at htable
      rw [Item.rereadOwn, if_pos hdotted] at hnew ⊢
      obtain ⟨hfirst, hlater⟩ := List.forall_mem_cons.1 hnew
      have hread := assignEach?_pairs isTop isBelow rest hrest hnames
        (t := t.withEntries (t.entries ++
          [(key.reread isTop .key true, .table ⟨.dotted, {}, none, t'.rereadBelow⟩)])) ht
        (hcons (k := key.reread isTop .key true) hkey hlater)
      have hne : Pair.rereadLines false t'.pairs ≠ [] := by simpa [Pair.rereadLines] using htable.pairs
      have hkey' : find? (key.passed (key.before isTop)).name t.entries = none := hfirst
      have hhere := assignEach?_under_new hkey' isBelow hne
      rw [assignEach?_below t' ht', Option.map_some] at hhere
      rw [Item.pairs, if_pos hdotted, Pair.rereadLines, List.map_append, ← Pair.rereadLines,
        ← Pair.rereadLines, assignEach?_append, Pair.rereadLines_under, hhere, Option.bind_some]
      exact hread.trans (by simp)
    · rw [Item.rereadOwn, if_neg hdotted, List.nil_append] at hnew ⊢
      rw [Item.pairs, if_neg hdotted, List.nil_append]
      exact assignEach?_pairs isTop isBelow rest hrest hnames ht hnew
  | (_, .tables _) :: rest =>
    exact assignEach?_pairs isTop isBelow rest h.2.2 (List.nodup_cons.1 hnames).2 ht hnew
  termination_by structural entries

end

/-- The lines of a table are put behind what headers have made of it. -/
theorem assignAll?_pairs (h : t.IsOrderly) (isTop : Bool) (start : Table)
    (hnew : ∀ name ∈ names (Item.rereadOwn isTop t.entries), find? name start.entries = none) :
    assignAll? start (Pair.rereadLines isTop t.pairs) =
      some (start.withEntries (start.entries ++ Item.rereadOwn isTop t.entries)) := by
  obtain ⟨hnames, hentries⟩ := isOrderly_iff.1 h
  rw [assignAll?_eq, pairs_eq]
  exact assignEach?_pairs isTop false t.entries hentries hnames nofun hnew

end Table

end FeatureForwarding.Toml
