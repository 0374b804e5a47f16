import FeatureForwarding.Proofs.Toml.DistinctKeys
import Mathlib.Data.List.Nodup

/-! The tables below a table, at any depth, with the steps that lead to them. Where keys are distinct,
the steps lead to one table only. Some of the tables have headers of their own. -/

namespace FeatureForwarding.Toml

/-- A step down to the table under a key, or to an element of the array of tables there. -/
inductive Step where
  | key (name : String)
  | element (name : String) (index : Nat)
  deriving DecidableEq

namespace Step

def name : Step → String
  | .key name => name
  | .element name _ => name

/-- A key leads to a table that came about through dotted keys. -/
def isDotted (t : Table) : Step → Bool
  | .key _ => t.origin = .dotted
  | .element _ _ => false

/-- A table is written with a header if it came about through one, and so is every element of an
array. -/
def isHeader (t : Table) : Step → Bool
  | .key _ => t.origin = .explicit
  | .element _ _ => true

end Step

/-- A table below another one, with the way there up to the last step, and whether it leads through a
table made by dotted keys. -/
structure Spot where
  way : List Step
  last : Step
  isUnderDotted : Bool
  table : Table

namespace Spot

def place (spot : Spot) : List Step := spot.way ++ [spot.last]

def isHeader (spot : Spot) : Bool := spot.last.isHeader spot.table

/-- The spot of the table at the end of a step. -/
def atStep (step : Step) (t : Table) : Spot := ⟨[], step, false, t⟩

/-- A spot below the table at the end of a step, seen from above that step. -/
def under (step : Step) (t : Table) (spot : Spot) : Spot :=
  { spot with way := step :: spot.way, isUnderDotted := step.isDotted t || spot.isUnderDotted }

end Spot

mutual

/-- The tables below a table in the order of the text of its keys, each before those below it. -/
def Table.spots : Table → List Spot
  | ⟨_, _, _, entries⟩ => Item.spotsIn entries
  termination_by structural t => t

def Item.spotsIn : List (Key × Item) → List Spot
  | [] => []
  | (_, .value _) :: rest => Item.spotsIn rest
  | (key, .table t) :: rest =>
    .atStep (.key key.name) t :: t.spots.map (Spot.under (.key key.name) t) ++ Item.spotsIn rest
  | (key, .tables ts) :: rest => Table.spotsOfArray key.name 0 ts ++ Item.spotsIn rest
  termination_by structural entries => entries

def Table.spotsOfArray (name : String) (index : Nat) : List Table → List Spot
  | [] => []
  | t :: ts =>
    .atStep (.element name index) t :: t.spots.map (Spot.under (.element name index) t)
      ++ Table.spotsOfArray name (index + 1) ts
  termination_by structural ts => ts

end

variable {step : Step} {t : Table} {spot other : Spot} {entries : List (Key × Item)} {name : String}

theorem Table.spots_eq (t : Table) : t.spots = Item.spotsIn t.entries := by
  cases t
  rw [Table.spots]

/-- The tables with headers of their own. -/
def Table.headers (t : Table) : List Spot := t.spots.filter Spot.isHeader

/-! ### Places -/

/-- The table at the end of a step and all below it. -/
def Table.spotsFrom (step : Step) (t : Table) : List Spot :=
  .atStep step t :: t.spots.map (Spot.under step t)

theorem Table.places_spotsFrom (step : Step) (t : Table) :
    (t.spotsFrom step).map Spot.place = [step] :: (t.spots.map Spot.place).map (step :: ·) := by
  rw [Table.spotsFrom, List.map_cons, List.map_map, List.map_map]
  rfl

theorem Table.head_of_mem_spotsFrom (h : spot ∈ t.spotsFrom step) :
    ∃ rest, spot.place = step :: rest := by
  rcases List.mem_cons.1 h with rfl | h
  · exact ⟨[], rfl⟩
  · obtain ⟨below, -, rfl⟩ := List.mem_map.1 h
    exact ⟨below.place, rfl⟩

theorem Table.head_of_mem_spotsOfArray {index : Nat} {ts : List Table}
    (h : spot ∈ Table.spotsOfArray name index ts) :
    ∃ later rest, index ≤ later ∧ spot.place = .element name later :: rest := by
  induction ts generalizing index with
  | nil => exact absurd h List.not_mem_nil
  | cons t ts ih =>
    rw [Table.spotsOfArray] at h
    rcases List.mem_append.1 h with h | h
    · obtain ⟨rest, hrest⟩ := Table.head_of_mem_spotsFrom h
      exact ⟨index, rest, Nat.le_refl _, hrest⟩
    · obtain ⟨later, rest, hle, hrest⟩ := ih h
      exact ⟨later, rest, by omega, hrest⟩

theorem Item.head_of_mem_spotsIn (h : spot ∈ Item.spotsIn entries) :
    ∃ step rest, step.name ∈ names entries ∧ spot.place = step :: rest := by
  have hlater {key : Key} {item : Item} {rest : List (Key × Item)}
      (h : ∃ step tail, step.name ∈ names rest ∧ spot.place = step :: tail) :
      ∃ step tail, step.name ∈ names ((key, item) :: rest) ∧ spot.place = step :: tail := by
    obtain ⟨step, tail, hname, htail⟩ := h
    exact ⟨step, tail, List.mem_cons_of_mem _ hname, htail⟩
  induction entries with
  | nil => exact absurd h List.not_mem_nil
  | cons entry rest ih =>
    obtain ⟨key, _ | t | ts⟩ := entry
    · exact hlater (ih h)
    · rcases List.mem_append.1 h with h | h
      · obtain ⟨tail, htail⟩ := Table.head_of_mem_spotsFrom h
        exact ⟨_, tail, List.mem_cons_self, htail⟩
      · exact hlater (ih h)
    · rcases List.mem_append.1 h with h | h
      · obtain ⟨later, tail, -, htail⟩ := Table.head_of_mem_spotsOfArray h
        exact ⟨_, tail, List.mem_cons_self, htail⟩
      · exact hlater (ih h)

theorem Table.nodup_places_spotsFrom (step : Step) (h : (t.spots.map Spot.place).Nodup) :
    ((t.spotsFrom step).map Spot.place).Nodup := by
  rw [Table.places_spotsFrom, List.nodup_cons]
  refine ⟨fun hmem => ?_, h.map (List.cons_injective)⟩
  obtain ⟨place, hplace, heq⟩ := List.mem_map.1 hmem
  obtain ⟨spot, -, rfl⟩ := List.mem_map.1 hplace
  simp [Spot.place] at heq

/-- What lies below different steps has different places. -/
theorem nodup_places_append {front back : List Spot} (hfront : (front.map Spot.place).Nodup)
    (hback : (back.map Spot.place).Nodup)
    (h : ∀ spot ∈ front, ∀ other ∈ back, spot.place.head? ≠ other.place.head?) :
    ((front ++ back).map Spot.place).Nodup := by
  rw [List.map_append]
  refine List.nodup_append.2 ⟨hfront, hback, fun place hplace place' hplace' heq => ?_⟩
  obtain ⟨spot, hspot, rfl⟩ := List.mem_map.1 hplace
  obtain ⟨other, hother, rfl⟩ := List.mem_map.1 hplace'
  exact h spot hspot other hother (by rw [heq])

mutual

theorem Table.HasDistinctKeys.nodup_places (t : Table) (h : t.HasDistinctKeys) :
    (t.spots.map Spot.place).Nodup := by
  obtain ⟨_, _, _, entries⟩ := t
  rw [Table.spots]
  exact Item.nodup_places entries h.1 h.2
  termination_by structural t

theorem Item.nodup_places (entries : List (Key × Item)) (hnames : (names entries).Nodup)
    (h : Item.HaveDistinctKeys entries) : ((Item.spotsIn entries).map Spot.place).Nodup := by
  match entries with
  | [] => exact .nil
  | (key, .value _) :: rest => exact Item.nodup_places rest (List.nodup_cons.1 hnames).2 h.2
  | (key, .table t) :: rest =>
    obtain ⟨hkey, hrest⟩ := List.nodup_cons.1 hnames
    refine nodup_places_append (Table.nodup_places_spotsFrom _ (Table.HasDistinctKeys.nodup_places t h.1))
      (Item.nodup_places rest hrest h.2) fun spot hspot other hother heq => ?_
    obtain ⟨_, hplace⟩ := Table.head_of_mem_spotsFrom hspot
    obtain ⟨step, _, hname, hplace'⟩ := Item.head_of_mem_spotsIn hother
    rw [hplace, hplace', List.head?_cons, List.head?_cons, Option.some.injEq] at heq
    rw [← heq] at hname
    exact hkey hname
  | (key, .tables ts) :: rest =>
    obtain ⟨hkey, hrest⟩ := List.nodup_cons.1 hnames
    refine nodup_places_append (Table.nodup_placesOfArray key.name 0 ts h.1)
      (Item.nodup_places rest hrest h.2) fun spot hspot other hother heq => ?_
    obtain ⟨_, _, -, hplace⟩ := Table.head_of_mem_spotsOfArray hspot
    obtain ⟨step, _, hname, hplace'⟩ := Item.head_of_mem_spotsIn hother
    rw [hplace, hplace', List.head?_cons, List.head?_cons, Option.some.injEq] at heq
    rw [← heq] at hname
    exact hkey hname
  termination_by structural entries

theorem Table.nodup_placesOfArray (name : String) (index : Nat) (ts : List Table)
    (h : Table.HaveDistinctKeys ts) : ((Table.spotsOfArray name index ts).map Spot.place).Nodup := by
  match ts with
  | [] => exact .nil
  | t :: ts =>
    refine nodup_places_append (Table.nodup_places_spotsFrom _ (Table.HasDistinctKeys.nodup_places t h.1))
      (Table.nodup_placesOfArray name (index + 1) ts h.2) fun spot hspot other hother heq => ?_
    obtain ⟨_, hplace⟩ := Table.head_of_mem_spotsFrom hspot
    obtain ⟨later, _, hle, hplace'⟩ := Table.head_of_mem_spotsOfArray hother
    rw [hplace, hplace', List.head?_cons, List.head?_cons, Option.some.injEq, Step.element.injEq] at heq
    omega
  termination_by structural ts

end

theorem Table.HasDistinctKeys.eq_of_place (h : t.HasDistinctKeys) (hspot : spot ∈ t.spots)
    (hother : other ∈ t.spots) (hplace : spot.place = other.place) : spot = other :=
  List.inj_on_of_nodup_map (Table.HasDistinctKeys.nodup_places t h) hspot hother hplace

end FeatureForwarding.Toml
