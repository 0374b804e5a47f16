import FeatureForwarding.Proofs.Toml.Built

/-! Documents that were read are legible, and they are orderly if no header stands below a table made by
dotted keys and no lines stand in a table that is only implied. -/

namespace FeatureForwarding.Toml

variable {key : Key} {t : Table} {entries : List (Key × Item)} {first next : Nat}

/-! ### Legible trees -/

mutual

theorem Table.IsBuilt.isLegible (t : Table) (first next : Nat) (h : t.IsBuilt first next) : t.IsLegible := by
  obtain ⟨_, _, _, entries⟩ := t
  exact Item.AreBuilt.areLegible entries first next h.2
  termination_by structural t

theorem Item.AreBuilt.areLegible (entries : List (Key × Item)) (first next : Nat)
    (h : Item.AreBuilt first next entries) : Item.AreLegible entries := by
  match entries with
  | [] => trivial
  | (_, .value _) :: rest => exact ⟨h.1, Item.AreBuilt.areLegible rest first next h.2⟩
  | (key, .table t) :: rest =>
    obtain ⟨⟨⟨hkey, hstands⟩, ht⟩, hrest⟩ := h
    refine ⟨⟨hkey, fun hdotted => ?_⟩, Table.IsBuilt.isLegible t first next ht,
      Item.AreBuilt.areLegible rest first next hrest⟩
    cases horigin : t.origin with
    | explicit =>
      obtain ⟨hdecor, -, hheader⟩ := hstands.explicit horigin
      exact ⟨hdecor, hheader.decor⟩
    | implied =>
      obtain ⟨hdecor, hunset, -⟩ := hstands.implied horigin
      rw [hunset]
      exact ⟨hdecor, by simp [Decor.IsLead], by simp [Decor.EndsLine]⟩
    | dotted => exact absurd horigin hdotted
  | (key, .tables ts) :: rest =>
    obtain ⟨⟨⟨hkey, hdecor, -⟩, hts⟩, hrest⟩ := h
    exact ⟨⟨hkey, hdecor⟩, Table.AreBuilt.areLegible ts first next hts,
      Item.AreBuilt.areLegible rest first next hrest⟩
  termination_by structural entries

theorem Table.AreBuilt.areLegible (ts : List Table) (first next : Nat) (h : Table.AreBuilt first next ts) :
    Table.AreLegible ts := by
  match ts with
  | [] => trivial
  | t :: ts =>
    obtain ⟨n, mid, ⟨-, hdecor, -⟩, ht, hts⟩ := h
    exact ⟨hdecor, Table.IsBuilt.isLegible t n mid ht, Table.AreBuilt.areLegible ts mid next hts⟩
  termination_by structural ts

end

theorem Document.IsBuilt.isLegible {doc : Document} (h : doc.IsBuilt) : doc.IsLegible := by
  obtain ⟨next, htable⟩ := h.table
  exact ⟨h.root, Table.IsBuilt.isLegible doc.root 1 next htable, h.trailing⟩

/-! ### Places of headers -/

/-- Where the header of a built table stands, if it has one. -/
def Piece.IsPlaced (first next : Nat) (q : Piece) : Prop :=
  (q.table.origin = .explicit ∧ ∃ n ∈ q.table.position, first ≤ n ∧ n < next) ∨
    (q.table.origin = .implied ∧ q.isArray = false ∧ q.table.position = none)

theorem Piece.IsPlaced.mono {first' next' : Nat} {q : Piece} (hfirst : first' ≤ first) (hnext : next ≤ next')
    (h : q.IsPlaced first next) : q.IsPlaced first' next' := by
  rcases h with ⟨horigin, n, hn, hle, hlt⟩ | h
  · exact .inl ⟨horigin, n, hn, by omega, by omega⟩
  · exact .inr h

mutual

theorem Table.IsBuilt.isPlaced (t : Table) (first next : Nat) (h : t.IsBuilt first next) :
    ∀ q ∈ t.pieces, q.IsPlaced first next := by
  obtain ⟨_, _, _, entries⟩ := t
  rw [Table.pieces]
  exact Item.AreBuilt.isPlaced entries first next h.2
  termination_by structural t

theorem Item.AreBuilt.isPlaced (entries : List (Key × Item)) (first next : Nat)
    (h : Item.AreBuilt first next entries) : ∀ q ∈ Item.pieces entries, q.IsPlaced first next := by
  match entries with
  | [] => simp [Item.pieces]
  | (_, .value _) :: rest => exact Item.AreBuilt.isPlaced rest first next h.2
  | (key, .table t) :: rest =>
    obtain ⟨⟨⟨-, hstands⟩, ht⟩, hrest⟩ := h
    rw [Item.pieces, List.forall_mem_append, List.forall_mem_append, List.forall_mem_map]
    refine ⟨⟨?_, Table.IsBuilt.isPlaced t first next ht⟩, Item.AreBuilt.isPlaced rest first next hrest⟩
    rw [Piece.ofTable]
    split
    · simp
    · next hdotted =>
      rw [List.forall_mem_singleton]
      cases horigin : t.origin with
      | explicit => exact .inl ⟨horigin, (hstands.explicit horigin).2.2.position⟩
      | implied => exact .inr ⟨horigin, rfl, (hstands.implied horigin).2.2⟩
      | dotted => exact absurd horigin hdotted
  | (key, .tables ts) :: rest =>
    rw [Item.pieces, List.forall_mem_append]
    exact ⟨Table.AreBuilt.isPlaced key 0 ts first next h.1.2, Item.AreBuilt.isPlaced rest first next h.2⟩
  termination_by structural entries

theorem Table.AreBuilt.isPlaced (key : Key) (index : Nat) (ts : List Table) (first next : Nat)
    (h : Table.AreBuilt first next ts) : ∀ q ∈ Table.piecesOfArray key index ts, q.IsPlaced first next := by
  match ts with
  | [] => simp [Table.piecesOfArray]
  | t :: ts =>
    obtain ⟨n, mid, ⟨horigin, -, hposition, hle, hlt⟩, ht, hts⟩ := h
    have hnext : mid ≤ next := Table.AreBuilt.le hts
    rw [Table.piecesOfArray, List.forall_mem_append, List.forall_mem_append, List.forall_mem_map]
    refine ⟨⟨?_, fun q hq => (Table.IsBuilt.isPlaced t n mid ht q hq).mono hle hnext⟩,
      fun q hq => (Table.AreBuilt.isPlaced key (index + 1) ts mid next hts q hq).mono (by omega)
        (Nat.le_refl next)⟩
    rw [Piece.ofTable, if_neg (by simp [horigin]), List.forall_mem_singleton]
    exact .inl ⟨horigin, n, hposition, hle, by omega⟩
  termination_by structural ts

end

/-! ### Orderly trees -/

/-- No lines stand in a table that is only implied. -/
def Piece.HasOwnLines (q : Piece) : Prop := q.table.origin = .implied → q.table.pairs = []

instance (q : Piece) : Decidable q.HasOwnLines := inferInstanceAs (Decidable (_ → _))

/-- No table has both lines that dotted keys put there and headers that lead through it. -/
structure Table.KeepsApart (t : Table) : Prop where
  groups : t.HasClosedGroups
  lines : ∀ q ∈ t.pieces, q.HasOwnLines

instance (t : Table) : Decidable t.KeepsApart :=
  decidable_of_iff (t.HasClosedGroups ∧ ∀ q ∈ t.pieces, q.HasOwnLines)
    ⟨fun h => ⟨h.1, h.2⟩, fun h => ⟨h.1, h.2⟩⟩

/-- A piece that is shown has a place. -/
theorem Piece.IsPlaced.exists_position {q : Piece} (h : q.IsPlaced first next) (hlines : q.HasOwnLines)
    (hshown : q.isShown) : ∃ n, q.table.position = some n ∧ first ≤ n ∧ n < next := by
  rcases h with ⟨-, n, hn, hle⟩ | ⟨horigin, hsingle, -⟩
  · exact ⟨n, hn, hle⟩
  · simp [isShown, hsingle, horigin, hlines horigin] at hshown

theorem Piece.IsPlaced.lt {q : Piece} (h : q.IsPlaced first next) : ∀ k ∈ q.table.position, k < next := by
  intro k hk
  rcases h with ⟨-, n, hn, -, hlt⟩ | ⟨-, -, hnone⟩
  · obtain rfl := Option.mem_unique hk hn
    exact hlt
  · rw [hnone] at hk
    exact absurd hk nofun

theorem Table.AreBuilt.inTurn {ts : List Table} (h : AreBuilt first next ts) (hne : ts ≠ [])
    (hlines : ∀ t ∈ ts, ∀ q ∈ t.pieces, q.HasOwnLines) : InTurn ts := by
  have hall : (∀ t ∈ ts, t.origin = .explicit ∧ (∃ n ∈ t.position, first ≤ n) ∧ t.HeadsBelow) ∧
      ts.Pairwise Precedes := by
    clear hne
    induction ts generalizing first with
    | nil => exact ⟨by simp, .nil⟩
    | cons t ts ih =>
      obtain ⟨n, mid, ⟨horigin, -, hposition, hle, hlt⟩, ht, hts⟩ := h
      obtain ⟨hown, hlines⟩ := List.forall_mem_cons.1 hlines
      obtain ⟨hrest, hpairwise⟩ := ih hts hlines
      have hplaced := Table.IsBuilt.isPlaced t n mid ht
      refine ⟨List.forall_mem_cons.2 ⟨⟨horigin, ⟨n, hposition, hle⟩, n, hposition, fun q hq hshown => ?_⟩,
        fun u hu => ?_⟩, List.pairwise_cons.2 ⟨fun u hu k hk => ?_, hpairwise⟩⟩
      · obtain ⟨k, hk, hnk, -⟩ := (hplaced q hq).exists_position (hown q hq) hshown
        exact ⟨k, hk, hnk⟩
      · obtain ⟨hu, ⟨k, hk, hmid⟩, hheads⟩ := hrest u hu
        exact ⟨hu, ⟨k, hk, by omega⟩, hheads⟩
      · obtain ⟨-, ⟨l, hl, hmid⟩, -⟩ := hrest u hu
        obtain rfl := Option.mem_unique hk hl
        refine ⟨fun l hl => ?_, fun q hq _ l hl => ?_⟩
        · rw [hposition] at hl
          obtain rfl := Option.some.inj hl
          omega
        · have hlt := (hplaced q hq).lt l hl
          omega
  exact ⟨hne, fun t ht => by simp [(hall.1 t ht).1], fun t ht => (hall.1 t ht).2.2, hall.2⟩

/-- What holds of the pieces of an array holds of those of its elements. -/
theorem forall_pieces_of_array {index : Nat} {ts : List Table}
    (h : ∀ q ∈ Table.piecesOfArray key index ts, q.HasOwnLines) :
    ∀ t ∈ ts, ∀ q ∈ t.pieces, q.HasOwnLines := by
  induction ts generalizing index with
  | nil => simp
  | cons t ts ih =>
    rw [Table.piecesOfArray, List.forall_mem_append, List.forall_mem_append, List.forall_mem_map] at h
    exact List.forall_mem_cons.2 ⟨h.1.2, ih h.2⟩

mutual

/-- Something is written for every built table that holds something. -/
theorem Table.IsBuilt.pairs_ne_nil (t : Table) (h : t.IsBuilt first next) (hgroups : t.HasClosedGroups)
    (hpieces : ∀ q ∈ t.pieces, q.isShown = false ∧ q.HasOwnLines) (hne : t.entries ≠ []) : t.pairs ≠ [] := by
  obtain ⟨_, _, _, entries⟩ := t
  exact Item.AreBuilt.pairs_ne_nil entries h.2 hgroups hpieces hne
  termination_by structural t

theorem Item.AreBuilt.pairs_ne_nil (entries : List (Key × Item)) (h : Item.AreBuilt first next entries)
    (hgroups : Item.HaveClosedGroups entries)
    (hpieces : ∀ q ∈ Item.pieces entries, q.isShown = false ∧ q.HasOwnLines) (hne : entries ≠ []) :
    Item.pairs entries ≠ [] := by
  match entries with
  | [] => exact absurd rfl hne
  | (key, .value v) :: rest =>
    rw [Item.pairs, Value.pairsAt_of_isDotted_eq_false key h.1.isDotted]
    simp
  | (key, .table t) :: rest =>
    obtain ⟨⟨⟨-, hstands⟩, ht⟩, -⟩ := h
    obtain ⟨⟨-, hclosed⟩, -⟩ := hgroups
    rw [Item.pieces, List.forall_mem_append, List.forall_mem_append, List.forall_mem_map] at hpieces
    obtain ⟨⟨hhere, hbelow⟩, -⟩ := hpieces
    rw [Piece.ofTable] at hhere
    have hpairs (hne : t.entries ≠ []) := Table.IsBuilt.pairs_ne_nil t ht hclosed hbelow hne
    by_cases hdotted : t.origin = .dotted
    · rw [Item.pairs, if_pos hdotted]
      have hne : t.pairs ≠ [] := hpairs (hstands.nonempty (by simp [hdotted]))
      simp [hne]
    · rw [if_neg hdotted, List.forall_mem_singleton] at hhere
      obtain ⟨hhidden, hlines⟩ := hhere
      have himplied : t.origin = .implied := by
        simp only [Piece.isShown] at hhidden
        simpa using (by simpa using hhidden : t.origin = .implied ∧ _).1
      exact absurd (hlines himplied) (hpairs (hstands.nonempty (by simp [himplied])))
  | (key, .tables ts) :: rest =>
    obtain ⟨⟨⟨-, -, -, hts⟩, hbuilt⟩, -⟩ := h
    obtain ⟨t, ts, rfl⟩ := List.exists_cons_of_ne_nil hts
    obtain ⟨n, mid, ⟨horigin, -⟩, -⟩ := hbuilt
    rw [Item.pieces, List.forall_mem_append, Table.piecesOfArray, Piece.ofTable,
      if_neg (by simp [horigin])] at hpieces
    have hshown := (hpieces.1 ⟨[.element key.name 0], key, [], true, t⟩ (by simp)).1
    exact absurd hshown (by simp [Piece.isShown])
  termination_by structural entries

end

mutual

theorem Table.IsBuilt.isOrderly (t : Table) (first next : Nat) (h : t.IsBuilt first next)
    (hgroups : t.HasClosedGroups)
    (hlines : ∀ q ∈ t.pieces, q.HasOwnLines) : t.IsOrderly := by
  obtain ⟨_, _, _, entries⟩ := t
  rw [Table.pieces] at hlines
  exact ⟨h.1, Item.AreBuilt.areOrderly entries first next h.2 hgroups hlines⟩
  termination_by structural t

theorem Item.AreBuilt.areOrderly (entries : List (Key × Item)) (first next : Nat)
    (h : Item.AreBuilt first next entries) (hgroups : Item.HaveClosedGroups entries)
    (hlines : ∀ q ∈ Item.pieces entries, q.HasOwnLines) : Item.AreOrderly entries := by
  match entries with
  | [] => trivial
  | (_, .value _) :: rest => exact ⟨h.1.isDotted,
    Item.AreBuilt.areOrderly rest first next h.2 hgroups.2 hlines⟩
  | (key, .table t) :: rest =>
    obtain ⟨⟨⟨-, hstands⟩, ht⟩, hrest⟩ := h
    obtain ⟨⟨hclosed, hinner⟩, hgroups⟩ := hgroups
    rw [Item.pieces, List.forall_mem_append, List.forall_mem_append, List.forall_mem_map] at hlines
    obtain ⟨⟨hhere, hbelow⟩, hlines⟩ := hlines
    refine ⟨?_, Table.IsBuilt.isOrderly t first next ht hinner hbelow,
      Item.AreBuilt.areOrderly rest first next hrest hgroups hlines⟩
    split
    · next hdotted =>
      refine ⟨hclosed hdotted, Table.IsBuilt.pairs_ne_nil t ht hinner ?_
        (hstands.nonempty (by simp [hdotted]))⟩
      rw [hclosed hdotted]
      simp
    · next hdotted =>
      rw [Piece.ofTable, if_neg hdotted, List.forall_mem_singleton] at hhere
      refine ⟨fun hheader => ?_, fun himplied hempty => ?_⟩
      · cases horigin : t.origin with
        | explicit => exact (hstands.explicit horigin).2.1
        | implied => exact absurd (hhere horigin) (hheader.resolve_left (by simp [horigin]))
        | dotted => exact absurd horigin hdotted
      · by_contra hnone
        refine Table.IsBuilt.pairs_ne_nil t ht hinner (fun q hq => ⟨?_, hbelow q hq⟩)
          (hstands.nonempty (by simp [himplied])) hempty
        exact Bool.eq_false_iff.2 fun hshown => hnone ⟨q, hq, hshown⟩
  | (key, .tables ts) :: rest =>
    obtain ⟨⟨⟨-, -, hends, hne⟩, hts⟩, hrest⟩ := h
    obtain ⟨hinner, hgroups⟩ := hgroups
    rw [Item.pieces, List.forall_mem_append] at hlines
    have hbelow := forall_pieces_of_array hlines.1
    exact ⟨⟨hends, hts.inTurn hne hbelow⟩, Table.AreBuilt.areOrderly ts first next hts hinner hbelow,
      Item.AreBuilt.areOrderly rest first next hrest hgroups hlines.2⟩
  termination_by structural entries

theorem Table.AreBuilt.areOrderly (ts : List Table) (first next : Nat) (h : Table.AreBuilt first next ts)
    (hgroups : Table.HaveClosedGroups ts) (hlines : ∀ t ∈ ts, ∀ q ∈ t.pieces, q.HasOwnLines) :
    Table.AreOrderly ts := by
  match ts with
  | [] => trivial
  | t :: ts =>
    obtain ⟨n, mid, -, ht, hts⟩ := h
    obtain ⟨-, hinner, hgroups⟩ := hgroups
    obtain ⟨hown, hlines⟩ := List.forall_mem_cons.1 hlines
    exact ⟨Table.IsBuilt.isOrderly t n mid ht hinner hown,
      Table.AreBuilt.areOrderly ts mid next hts hgroups hlines⟩
  termination_by structural ts

end

end FeatureForwarding.Toml
