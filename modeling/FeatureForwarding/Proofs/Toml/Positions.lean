import FeatureForwarding.Proofs.Toml.Spots
import Mathlib.Algebra.GroupWithZero.Nat

/-! Positions of tables. Every header of a text gets a position of its own and tables without headers
get none, so that in a document that was read no two tables stand at one position. -/

namespace FeatureForwarding.Toml

variable {k position : Nat} {key : Key} {entries revised : List (Key × Item)} {t t' : Table} {item : Item}

def Spot.isAt (k : Nat) (spot : Spot) : Bool := spot.table.position = some k

/-- How many tables below this one stand at the position. -/
def Table.countBelow (k : Nat) (t : Table) : Nat := t.spots.countP (Spot.isAt k)

/-- The same, the table itself included. -/
def Table.countFrom (k : Nat) (t : Table) : Nat :=
  (if t.position = some k then 1 else 0) + t.countBelow k

def Item.countAt (k : Nat) : Item → Nat
  | .value _ => 0
  | .table t => t.countFrom k
  | .tables ts => (ts.map (Table.countFrom k)).sum

def Item.countIn (k : Nat) (entries : List (Key × Item)) : Nat :=
  (entries.map fun entry => entry.2.countAt k).sum

theorem Table.countP_spotsFrom (k : Nat) (step : Step) (t : Table) :
    (t.spotsFrom step).countP (Spot.isAt k) = t.countFrom k := by
  have hself : Spot.isAt k (.atStep step t) = true ↔ t.position = some k := decide_eq_true_iff
  rw [Table.spotsFrom, List.countP_cons, List.countP_map, Nat.add_comm, Table.countFrom,
    Table.countBelow]
  simp only [hself]
  rfl

theorem Table.countP_spotsOfArray (k : Nat) (name : String) (index : Nat) (ts : List Table) :
    (Table.spotsOfArray name index ts).countP (Spot.isAt k) = (ts.map (Table.countFrom k)).sum := by
  induction ts generalizing index with
  | nil => rfl
  | cons t ts ih =>
    rw [Table.spotsOfArray, List.countP_append, ← Table.spotsFrom, Table.countP_spotsFrom, ih,
      List.map_cons, List.sum_cons]

theorem Table.countBelow_eq (k : Nat) (t : Table) : t.countBelow k = Item.countIn k t.entries := by
  rw [Table.countBelow, Table.spots_eq]
  induction t.entries with
  | nil => rfl
  | cons entry rest ih =>
    obtain ⟨key, _ | t | ts⟩ := entry
    · rw [Item.spotsIn, ih]
      simp [Item.countIn, Item.countAt]
    · rw [Item.spotsIn, List.countP_append, ← Table.spotsFrom, Table.countP_spotsFrom, ih]
      rfl
    · rw [Item.spotsIn, List.countP_append, Table.countP_spotsOfArray, ih]
      rfl

theorem Table.countFrom_eq (k : Nat) (t : Table) :
    t.countFrom k = (if t.position = some k then 1 else 0) + Item.countIn k t.entries := by
  rw [Table.countFrom, Table.countBelow_eq]

/-- New entries change the count of a table by as much as the count of its entries. -/
theorem Table.countFrom_withEntries_le {more : Nat}
    (h : Item.countIn k entries ≤ Item.countIn k t.entries + more) :
    (t.withEntries entries).countFrom k ≤ t.countFrom k + more := by
  rw [Table.countFrom_eq, Table.countFrom_eq, Nat.add_assoc]
  exact Nat.add_le_add_left h _

theorem Item.countIn_append (k : Nat) (front back : List (Key × Item)) :
    Item.countIn k (front ++ back) = Item.countIn k front + Item.countIn k back := by
  simp [Item.countIn]

theorem Item.countIn_cons (k : Nat) (key : Key) (item : Item) (rest : List (Key × Item)) :
    Item.countIn k ((key, item) :: rest) = item.countAt k + Item.countIn k rest := by
  simp [Item.countIn]

/-! ### Assembly -/

/-- A revision adds what it adds to the one item that it changes. -/
theorem Item.countIn_revise? {more : Nat} {f : Option Item → Option Item}
    (hf : ∀ old new, f old = some new → new.countAt k ≤ (old.map (Item.countAt k)).getD 0 + more)
    (h : revise? key f entries = some revised) :
    Item.countIn k revised ≤ Item.countIn k entries + more := by
  rcases revise?_eq_some h with ⟨-, new, hnew, rfl⟩ | ⟨front, other, old, back, new, rfl, -, -, hnew, rfl⟩
  · have hle := hf none new hnew
    rw [Item.countIn_append, Item.countIn_cons]
    simp only [Option.map_none, Option.getD_none, Item.countIn, List.map_nil, List.sum_nil] at *
    omega
  · have hle := hf (some old) new hnew
    rw [Item.countIn_append, Item.countIn_append, Item.countIn_cons, Item.countIn_cons]
    simp only [Option.map_some, Option.getD_some] at hle
    omega

theorem Table.sum_reviseLast? {more : Nat} {f : Table → Option Table}
    (hf : ∀ t t', f t = some t' → t'.countFrom k ≤ t.countFrom k + more) {ts ts' : List Table}
    (h : reviseLast? f ts = some ts') :
    (ts'.map (Table.countFrom k)).sum ≤ (ts.map (Table.countFrom k)).sum + more := by
  induction ts generalizing ts' with
  | nil => exact absurd h nofun
  | cons t rest ih =>
    cases rest with
    | nil =>
      obtain ⟨new, hnew, rfl⟩ := Option.map_eq_some_iff.1 h
      simpa using hf t new hnew
    | cons next rest =>
      obtain ⟨later, hlater, rfl⟩ := Option.map_eq_some_iff.1 h
      have hle := ih hlater
      rw [List.map_cons, List.map_cons, List.sum_cons, List.sum_cons]
      omega

namespace Table

/-- What a place in a table turns into on the way down to a change. -/
theorem countAt_onWay {more : Nat} (f : Table → Option Table) {start : Table} (bars : Table → Bool)
    (hf : ∀ t t', f t = some t' → t'.countFrom k ≤ t.countFrom k + more)
    (hstart : start.countFrom k = 0) {old : Option Item} {new : Item}
    (h : (match old with
      | none => (f start).map .table
      | some (.table inner) => if bars inner then none else (f inner).map .table
      | some (.tables ts) => (Toml.reviseLast? f ts).map .tables
      | some (.value _) => none) = some new) :
    new.countAt k ≤ (old.map (Item.countAt k)).getD 0 + more := by
  match old with
  | none =>
    obtain ⟨t, ht, rfl⟩ := Option.map_eq_some_iff.1 h
    have hle := hf start t ht
    rwa [hstart] at hle
  | some (.table inner) =>
    dsimp only at h
    split at h
    · exact absurd h nofun
    · obtain ⟨t, ht, rfl⟩ := Option.map_eq_some_iff.1 h
      exact hf inner t ht
  | some (.tables ts) =>
    obtain ⟨ts', hts, rfl⟩ := Option.map_eq_some_iff.1 h
    exact sum_reviseLast? hf hts
  | some (.value _) => exact absurd h nofun

theorem countFrom_passage (k : Nat) (origin : Origin) : (passage origin).countFrom k = 0 := by
  rw [countFrom_eq]
  rfl

theorem countFrom_descend? {more : Nat} {f : Table → Option Table}
    (hf : ∀ t t', f t = some t' → t'.countFrom k ≤ t.countFrom k + more) (keys : List Key)
    (h : descend? f keys t = some t') : t'.countFrom k ≤ t.countFrom k + more := by
  induction keys generalizing t t' with
  | nil => exact hf t t' h
  | cons key keys ih =>
    obtain ⟨revised, hrevised, rfl⟩ := Option.map_eq_some_iff.1 h
    refine countFrom_withEntries_le (Item.countIn_revise? (fun old new hnew => ?_) hrevised)
    refine countAt_onWay (descend? f keys) (fun _ => false) (fun t t' h => ih h)
      (countFrom_passage k .implied) ?_
    rw [← hnew]
    rcases old with _ | (_ | _ | _) <;> rfl

theorem countFrom_assignIn? {last : Key} {v : Value} {isBelow : Bool} {keys : List Key}
    (h : assignIn? last v isBelow keys t = some t') : t'.countFrom k ≤ t.countFrom k + 0 := by
  induction keys generalizing t t' isBelow with
  | nil =>
    rw [assignIn?] at h
    split at h
    · simp at h
    · obtain ⟨revised, hrevised, rfl⟩ := Option.map_eq_some_iff.1 h
      refine countFrom_withEntries_le (Item.countIn_revise? (fun old new hnew => ?_) hrevised)
      cases old with
      | none => exact Option.some.inj hnew ▸ Nat.zero_le _
      | some item => simp at hnew
  | cons key keys ih =>
    obtain ⟨revised, hrevised, rfl⟩ := Option.map_eq_some_iff.1 h
    refine countFrom_withEntries_le (Item.countIn_revise? (fun old new hnew => ?_) hrevised)
    refine countAt_onWay (assignIn? last v true keys)
      (fun inner => decide (inner.origin = .explicit)) (fun t t' h => ih h)
      (countFrom_passage k .dotted) ?_
    rw [← hnew]
    rcases old with _ | (_ | _ | _) <;> simp

theorem countFrom_assignAll? {lines : List Assignment} (h : assignAll? t lines = some t') :
    t'.countFrom k ≤ t.countFrom k := by
  induction lines generalizing t with
  | nil => exact Option.some.inj h ▸ Nat.le_refl _
  | cons a rest ih =>
    obtain ⟨next, hnext, hrest⟩ := Option.bind_eq_some_iff.1 h
    exact Nat.le_trans (ih hrest) (countFrom_assignIn? hnext)

theorem countIn_erase {name : String} {item : Item} (h : find? name entries = some item) :
    Item.countIn k entries = Item.countIn k (erase name entries) + item.countAt k := by
  induction entries with
  | nil => exact absurd h nofun
  | cons entry rest ih =>
    obtain ⟨key, first⟩ := entry
    rw [find?] at h
    rw [erase, Item.countIn_cons]
    split at h
    · next hname => rw [if_pos hname, Option.some.inj h, Nat.add_comm]
    · next hname => rw [if_neg hname, Item.countIn_cons, ih h, Nat.add_assoc]

/-- A section adds one table at its position. -/
theorem countFrom_addSection? {s : Section} (h : addSection? s position t = some t') :
    t'.countFrom k ≤ t.countFrom k + if position = k then 1 else 0 := by
  have hsection (known : List (Key × Item)) (new : Table)
      (hnew : ofSection? s position known = some new) :
      new.countFrom k ≤ Item.countIn k known + if position = k then 1 else 0 := by
    have hle := countFrom_assignAll? (k := k) hnew
    rw [countFrom_eq k ⟨_, _, _, _⟩] at hle
    simp only [Option.some.injEq] at hle
    omega
  unfold addSection? at h
  dsimp only at h
  split at h
  · obtain ⟨new, hnew, h⟩ := Option.bind_eq_some_iff.1 h
    obtain ⟨revised, hrevised, rfl⟩ := Option.map_eq_some_iff.1 h
    have hle := hsection [] new hnew
    refine countFrom_withEntries_le (Item.countIn_revise? (fun old item hitem => ?_) hrevised)
    rcases old with _ | (_ | _ | ts)
    · rw [← Option.some.inj hitem]
      simpa [Item.countAt, Item.countIn] using hle
    · simp at hitem
    · simp at hitem
    · rw [← Option.some.inj hitem]
      simpa [Item.countAt, Item.countIn] using hle
  split at h
  · obtain ⟨new, hnew, rfl⟩ := Option.map_eq_some_iff.1 h
    have hle := hsection [] new hnew
    refine countFrom_withEntries_le ?_
    rw [Item.countIn_append]
    simpa [Item.countAt, Item.countIn] using hle
  · next decor old known hsome =>
    obtain ⟨new, hnew, rfl⟩ := Option.map_eq_some_iff.1 h
    have hle := hsection known new hnew
    have hknown : Item.countIn k known ≤ Item.countAt k (.table ⟨.implied, decor, old, known⟩) := by
      rw [Item.countAt, countFrom_eq]
      exact Nat.le_add_left ..
    refine countFrom_withEntries_le ?_
    rw [Item.countIn_append, countIn_erase hsome, Item.countIn_cons, Item.countAt]
    simp only [Item.countIn, List.map_nil, List.sum_nil] at *
    omega
  · simp at h

theorem countFrom_addSectionsFrom? {sections : List Section}
    (h : addSectionsFrom? position t sections = some t') :
    t'.countFrom k ≤ t.countFrom k + if position ≤ k then 1 else 0 := by
  induction sections generalizing t position with
  | nil => exact Option.some.inj h ▸ Nat.le_add_right ..
  | cons s rest ih =>
    obtain ⟨next, hnext, hrest⟩ := Option.bind_eq_some_iff.1 h
    have hhere := countFrom_descend? (k := k) (fun _ _ h => countFrom_addSection? h) _ hnext
    have hlater := ih hrest
    split at hhere <;> split at hlater <;> split <;> omega

end Table

/-- No two tables stand at one position. -/
def Table.HasDistinctPositions (t : Table) : Prop := ∀ k, t.countBelow k ≤ 1

theorem Document.hasDistinctPositions_read? {text : String} {doc : Document}
    (h : read? text = some doc) : doc.root.HasDistinctPositions := by
  unfold read? assemble? at h
  simp only [Option.bind_eq_bind, Option.bind_eq_some_iff, Option.some.injEq] at h
  obtain ⟨lines, -, root, hroot, root', hroot', rfl⟩ := h
  intro k
  have hbody := Table.countFrom_assignAll? (k := k) hroot
  have hsections := Table.countFrom_addSectionsFrom? (k := k) hroot'
  have hnew : Table.new.countFrom k = 0 := by
    rw [Table.countFrom_eq]
    rfl
  rw [Table.countFrom] at hsections
  dsimp only
  split at hsections <;> split at hsections <;> omega

theorem Table.HasDistinctPositions.eq_of_position {spot other : Spot} {n : Nat}
    (h : t.HasDistinctPositions) (hspot : spot ∈ t.spots) (hother : other ∈ t.spots)
    (hn : spot.table.position = some n) (hn' : other.table.position = some n) : spot = other := by
  have hcount := h n
  rw [Table.countBelow, List.countP_eq_length_filter] at hcount
  have hmem : spot ∈ t.spots.filter (Spot.isAt n) := List.mem_filter.2 ⟨hspot, by simp [Spot.isAt, hn]⟩
  have hmem' : other ∈ t.spots.filter (Spot.isAt n) :=
    List.mem_filter.2 ⟨hother, by simp [Spot.isAt, hn']⟩
  obtain ⟨only, honly⟩ := List.length_eq_one_iff.1
    (Nat.le_antisymm hcount (List.length_pos_of_mem hmem))
  rw [honly, List.mem_singleton] at hmem hmem'
  rw [hmem, hmem']

end FeatureForwarding.Toml

namespace FeatureForwarding.Manifest

theorem hasDistinctPositions_read? {path : Files.Path} {text : String} {m : Manifest}
    (h : read? path text = some m) : m.document.root.HasDistinctPositions := by
  obtain ⟨document, hdocument, rfl⟩ := Option.map_eq_some_iff.1 h
  exact Toml.Document.hasDistinctPositions_read? hdocument

end FeatureForwarding.Manifest
