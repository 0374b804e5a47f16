/-! Finite maps from names, listed in increasing order of the names. Names
compare code point by code point, which is also the order of their UTF-8 bytes.
Two maps with the same lookups are equal. -/

namespace FeatureForwarding

/-- The entries are strictly increasing, so each name occurs once. -/
structure NameMap (α : Type) where
  entries : List (String × α)
  sorted : entries.Pairwise fun a b => a.1 < b.1

namespace NameMap

variable {α : Type}

def empty : NameMap α := ⟨[], .nil⟩

instance : EmptyCollection (NameMap α) := ⟨empty⟩

instance : Inhabited (NameMap α) := ⟨empty⟩

instance [DecidableEq α] : DecidableEq (NameMap α) := fun m n =>
  decidable_of_iff (m.entries = n.entries) (by cases m; cases n; simp)

def lookupIn (name : String) : List (String × α) → Option α
  | [] => none
  | (other, value) :: rest => if name = other then some value else lookupIn name rest

/-- Replaces the value under the name or takes the name up at its place. -/
def insertIn (name : String) (value : α) : List (String × α) → List (String × α)
  | [] => [(name, value)]
  | (other, old) :: rest =>
    if name < other then (name, value) :: (other, old) :: rest
    else if name = other then (name, value) :: rest
    else (other, old) :: insertIn name value rest

theorem mem_insertIn {name : String} {value : α} {entries : List (String × α)}
    {entry : String × α} (h : entry ∈ insertIn name value entries) :
    entry = (name, value) ∨ entry ∈ entries := by
  induction entries with
  | nil => simpa [insertIn] using h
  | cons head rest ih =>
    obtain ⟨other, old⟩ := head
    simp only [insertIn] at h
    split at h
    · simpa using h
    split at h
    · rcases List.mem_cons.1 h with rfl | h
      · exact .inl rfl
      · exact .inr (List.mem_cons_of_mem _ h)
    · rcases List.mem_cons.1 h with rfl | h
      · exact .inr List.mem_cons_self
      · exact (ih h).imp id (List.mem_cons_of_mem _)

theorem sorted_insertIn (name : String) (value : α) {entries : List (String × α)}
    (h : entries.Pairwise fun a b => a.1 < b.1) :
    (insertIn name value entries).Pairwise fun a b => a.1 < b.1 := by
  induction entries with
  | nil => simp [insertIn]
  | cons head rest ih =>
    obtain ⟨other, old⟩ := head
    obtain ⟨hhead, hrest⟩ := List.pairwise_cons.1 h
    simp only [insertIn]
    split
    · next hlt =>
      refine List.pairwise_cons.2 ⟨fun entry hm => ?_, h⟩
      rcases List.mem_cons.1 hm with rfl | hm
      · exact hlt
      · exact String.lt_trans hlt (hhead entry hm)
    split
    · next heq =>
      subst heq
      exact List.pairwise_cons.2 ⟨hhead, hrest⟩
    · next hlt hne =>
      refine List.pairwise_cons.2 ⟨fun entry hm => ?_, ih hrest⟩
      rcases mem_insertIn hm with rfl | hm
      · rcases Std.lt_trichotomy name other with h | h | h
        · exact absurd h hlt
        · exact absurd h hne
        · exact h
      · exact hhead entry hm

def get? (m : NameMap α) (name : String) : Option α := lookupIn name m.entries

def contains (m : NameMap α) (name : String) : Bool := (m.get? name).isSome

def insert (m : NameMap α) (name : String) (value : α) : NameMap α :=
  ⟨insertIn name value m.entries, sorted_insertIn name value m.sorted⟩

def size (m : NameMap α) : Nat := m.entries.length

def isEmpty (m : NameMap α) : Bool := m.entries.isEmpty

/-- Later entries win over earlier ones of the same name. -/
def ofList (entries : List (String × α)) : NameMap α :=
  entries.foldl (fun m entry => m.insert entry.1 entry.2) empty

@[simp] theorem get?_empty (name : String) : (empty : NameMap α).get? name = none := rfl

theorem lookupIn_insertIn (name other : String) (value : α) (entries : List (String × α)) :
    lookupIn other (insertIn name value entries) =
      if other = name then some value else lookupIn other entries := by
  induction entries with
  | nil => simp [insertIn, lookupIn]
  | cons head rest ih =>
    obtain ⟨key, old⟩ := head
    simp only [insertIn]
    split
    · simp [lookupIn]
    split
    · next heq =>
      subst heq
      simp only [lookupIn]
      split <;> rfl
    · next hne =>
      simp only [lookupIn, ih]
      by_cases h : other = key
      · subst h
        simp [Ne.symm hne]
      · simp [h]

theorem get?_insert (m : NameMap α) (name other : String) (value : α) :
    (m.insert name value).get? other = if other = name then some value else m.get? other :=
  lookupIn_insertIn name other value m.entries

end NameMap

end FeatureForwarding
