import FeatureForwarding.Toml.Basic

/-! Look-ups in the entries of a table and what a revision does to them. A revision changes the
first entry of its name or takes up a new one at the end, so that every other look-up and the
order of the entries stay. -/

namespace FeatureForwarding.Toml

variable {α β : Type} {name : String} {key : Key} {f : Option α → Option α}
  {entries revised : List (Key × α)}

theorem find?_append (name : String) (front back : List (Key × α)) :
    find? name (front ++ back) = (find? name front).or (find? name back) := by
  induction front with
  | nil => simp [find?]
  | cons entry front ih =>
    obtain ⟨key, content⟩ := entry
    simp only [List.cons_append, find?]
    split
    · rfl
    · exact ih

theorem find?_map (g : α → β) (name : String) (entries : List (Key × α)) :
    find? name (entries.map fun (key, content) => (key, g content)) = (find? name entries).map g := by
  induction entries with
  | nil => rfl
  | cons entry entries ih =>
    obtain ⟨key, content⟩ := entry
    simp only [List.map_cons, find?]
    split
    · rfl
    · exact ih

/-- A revision works at one place: either the name is new and goes to the end, or the first entry
of the name gets new content under its old key. -/
theorem revise?_eq_some (h : revise? key f entries = some revised) :
    (find? key.name entries = none ∧ ∃ new, f none = some new ∧ revised = entries ++ [(key, new)]) ∨
    ∃ front other old back new, entries = front ++ (other, old) :: back ∧ other.name = key.name ∧
      find? key.name front = none ∧ f (some old) = some new ∧
        revised = front ++ (other, new) :: back := by
  induction entries generalizing revised with
  | nil =>
    obtain ⟨new, hnew, rfl⟩ := Option.map_eq_some_iff.1 h
    exact .inl ⟨rfl, new, hnew, rfl⟩
  | cons entry entries ih =>
    obtain ⟨other, old⟩ := entry
    rw [revise?] at h
    split at h
    · next hname =>
      obtain ⟨new, hnew, rfl⟩ := Option.map_eq_some_iff.1 h
      exact .inr ⟨[], other, old, entries, new, rfl, hname, rfl, hnew, rfl⟩
    · next hname =>
      obtain ⟨rest, hrest, rfl⟩ := Option.map_eq_some_iff.1 h
      rcases ih hrest with ⟨hnone, new, hnew, rfl⟩ | ⟨front, k, v, back, new, rfl, hk, hnone,
        hnew, rfl⟩
      · exact .inl ⟨by simp [find?, hname, hnone], new, hnew, rfl⟩
      · exact .inr ⟨(other, old) :: front, k, v, back, new, rfl, hk, by simp [find?, hname, hnone],
          hnew, rfl⟩

/-- Whether a revision is refused depends on what it finds. -/
theorem isSome_revise? (key : Key) (f : Option α → Option α) (entries : List (Key × α)) :
    (revise? key f entries).isSome = (f (find? key.name entries)).isSome := by
  induction entries with
  | nil => simp [revise?, find?]
  | cons entry entries ih =>
    obtain ⟨other, old⟩ := entry
    rw [revise?, find?]
    split
    · simp
    · simp [ih]

theorem find?_revise?_self (h : revise? key f entries = some revised) :
    ∃ new, f (find? key.name entries) = some new ∧ find? key.name revised = some new := by
  rcases revise?_eq_some h with ⟨hnone, new, hnew, rfl⟩ | ⟨front, k, v, back, new, rfl, hk, hnone,
    hnew, rfl⟩
  · exact ⟨new, by rw [hnone, hnew], by simp [find?_append, hnone, find?]⟩
  · exact ⟨new, by simp [find?_append, hnone, find?, hk, hnew],
      by simp [find?_append, hnone, find?, hk]⟩

theorem find?_revise?_of_ne (h : revise? key f entries = some revised) (hname : name ≠ key.name) :
    find? name revised = find? name entries := by
  rcases revise?_eq_some h with ⟨hnone, new, hnew, rfl⟩ | ⟨front, k, v, back, new, rfl, hk, hnone,
    hnew, rfl⟩
  · simp [find?_append, find?, Ne.symm hname]
  · simp [find?_append, find?, hk, Ne.symm hname]

theorem revise?_map {g : α → β} {f' : Option β → Option β}
    (hf : ∀ old, f' (old.map g) = (f old).map g) (key : Key) (entries : List (Key × α)) :
    revise? key f' (entries.map fun (key, content) => (key, g content)) =
      (revise? key f entries).map (List.map fun (key, content) => (key, g content)) := by
  induction entries with
  | nil =>
    have h := hf none
    simp only [Option.map_none] at h
    simp [revise?, h, Option.map_map, Function.comp_def]
  | cons entry entries ih =>
    obtain ⟨other, old⟩ := entry
    have h := hf (some old)
    simp only [Option.map_some] at h
    simp only [List.map_cons, revise?, h, ih]
    split <;> simp [Option.map_map, Function.comp_def]

/-! ### Names -/

def names (entries : List (Key × α)) : List String := entries.map (·.1.name)

theorem find?_eq_none : find? name entries = none ↔ name ∉ names entries := by
  induction entries with
  | nil => simp [find?, names]
  | cons entry entries ih =>
    obtain ⟨other, content⟩ := entry
    rw [find?, names, List.map_cons, List.mem_cons, not_or, ← names, ← ih]
    by_cases h : other.name = name
    · simp [h]
    · simp [h, Ne.symm h]

theorem mem_of_find? {content : α} (h : find? name entries = some content) :
    ∃ key, key.name = name ∧ (key, content) ∈ entries := by
  induction entries with
  | nil => exact absurd h nofun
  | cons entry entries ih =>
    obtain ⟨other, first⟩ := entry
    rw [find?] at h
    split at h
    · next hname => exact ⟨other, hname, by simp [Option.some.inj h]⟩
    · obtain ⟨key, hname, hmem⟩ := ih h
      exact ⟨key, hname, List.mem_cons_of_mem _ hmem⟩

theorem names_modify (name : String) (g : α → α) (entries : List (Key × α)) :
    names (modify name g entries) = names entries := by
  unfold names
  induction entries with
  | nil => rfl
  | cons entry entries ih =>
    obtain ⟨other, content⟩ := entry
    rw [modify]
    split
    · rfl
    · rw [List.map_cons, List.map_cons, ih]

theorem find?_modify (name other : String) (g : α → α) (entries : List (Key × α)) :
    find? other (modify name g entries) =
      if other = name then (find? name entries).map g else find? other entries := by
  induction entries with
  | nil => simp [modify, find?]
  | cons entry entries ih =>
    obtain ⟨key, content⟩ := entry
    rw [modify]
    by_cases hkey : key.name = name
    · rw [if_pos hkey, find?, find?, find?, if_pos hkey, hkey]
      by_cases hother : other = name
      · simp [hother]
      · simp [hother, Ne.symm hother]
    · rw [if_neg hkey, find?, find?, find?, if_neg hkey, ih]
      by_cases hother : other = name
      · simp [hother, hkey]
      · simp [hother]

theorem find?_put (name other : String) (content : α) (entries : List (Key × α)) :
    find? other (put name content entries) =
      if other = name then some content else find? other entries := by
  induction entries with
  | nil => simp [put, find?, Key.new, eq_comm (a := other)]
  | cons entry entries ih =>
    obtain ⟨key, old⟩ := entry
    rw [put]
    by_cases hkey : key.name = name
    · rw [if_pos hkey, find?, find?, Key.new, hkey]
      by_cases hother : other = name
      · simp [hother]
      · simp [hother, Ne.symm hother]
    · rw [if_neg hkey, find?, find?, ih]
      by_cases hother : other = name
      · simp [hother, hkey]
      · simp [hother]

theorem mem_put {content : α} {entry : Key × α} (h : entry ∈ put name content entries) :
    entry = (Key.new name, content) ∨ entry ∈ entries := by
  induction entries with
  | nil => exact .inl (List.mem_singleton.1 h)
  | cons first rest ih =>
    rw [put] at h
    split at h <;> rcases List.mem_cons.1 h with rfl | h
    · exact .inl rfl
    · exact .inr (List.mem_cons_of_mem _ h)
    · exact .inr List.mem_cons_self
    · exact (ih h).imp_right (List.mem_cons_of_mem _)

theorem nodup_names_put (name : String) (content : α) (h : (names entries).Nodup) :
    (names (put name content entries)).Nodup := by
  induction entries with
  | nil => exact List.pairwise_singleton ..
  | cons entry rest ih =>
    obtain ⟨key, old⟩ := entry
    obtain ⟨hkey, hrest⟩ := List.nodup_cons.1 h
    rw [put]
    split
    · next hname => exact List.nodup_cons.2 ⟨hname ▸ hkey, hrest⟩
    · next hname =>
      refine List.nodup_cons.2 ⟨fun hmem => ?_, ih hrest⟩
      obtain ⟨entry, hentry, heq⟩ := List.mem_map.1 hmem
      rcases mem_put hentry with rfl | hentry
      · exact hname heq.symm
      · exact hkey (heq ▸ List.mem_map_of_mem hentry)

theorem erase_sublist (name : String) (entries : List (Key × α)) :
    (erase name entries).Sublist entries := by
  induction entries with
  | nil => exact .slnil
  | cons entry entries ih =>
    rw [erase]
    split
    · exact List.sublist_cons_self _ _
    · exact ih.cons_cons _

theorem names_erase_sublist (name : String) (entries : List (Key × α)) :
    (names (erase name entries)).Sublist (names entries) :=
  (erase_sublist name entries).map _

theorem erase_of_find?_eq_none (h : find? name entries = none) : erase name entries = entries := by
  induction entries with
  | nil => rfl
  | cons entry rest ih =>
    rw [find?] at h
    split at h
    · exact absurd h nofun
    · next hname => rw [erase, if_neg hname, ih h]

/-- Where names are distinct, nothing comes to light behind what is erased. -/
theorem find?_erase (h : (names entries).Nodup) (name other : String) :
    find? other (erase name entries) = if other = name then none else find? other entries := by
  induction entries with
  | nil => simp [erase, find?]
  | cons entry entries ih =>
    obtain ⟨key, content⟩ := entry
    obtain ⟨hkey, hrest⟩ := List.nodup_cons.1 h
    rw [erase, find?]
    by_cases hname : key.name = name
    · rw [if_pos hname]
      by_cases hother : other = name
      · rw [if_pos hother, find?_eq_none]
        rwa [hother, ← hname]
      · rw [if_neg hother, if_neg fun heq => hother (heq.symm.trans hname)]
    · rw [if_neg hname, find?, ih hrest]
      by_cases hother : other = name
      · simp [hother, hname]
      · simp [hother]

/-- Where names are distinct, the order of the entries does not matter. -/
theorem find?_perm {entries' : List (Key × α)} (h : (names entries).Nodup)
    (hperm : entries'.Perm entries) (name : String) : find? name entries' = find? name entries := by
  induction hperm with
  | nil => rfl
  | cons entry _ ih =>
    obtain ⟨key, content⟩ := entry
    rw [find?, find?, ih (List.nodup_cons.1 h).2]
  | swap entry entry' rest =>
    obtain ⟨⟨key, content⟩, ⟨key', content'⟩⟩ := entry, entry'
    have hne : key.name ≠ key'.name := by simp_all [names]
    simp only [find?]
    by_cases hkey : key.name = name
    · rw [if_pos hkey, if_neg fun heq => hne (hkey.trans heq.symm)]
      simp [hkey]
    · simp [hkey]
  | trans hfirst hsecond ih ih' =>
    have hnames : (names _).Nodup := (hsecond.map fun entry : Key × α => entry.1.name).nodup_iff.2 h
    rw [ih hnames, ih' h]

/-! ### Taking up a name -/

/-- Takes up a name at the end, unless it is there. -/
def ensure (name : String) (content : α) (entries : List (Key × α)) : List (Key × α) :=
  if hasKey name entries then entries else entries ++ [(Key.new name, content)]

theorem ensure_of_find? {old : α} (h : find? name entries = some old) (content : α) :
    ensure name content entries = entries := by
  simp [ensure, hasKey, h]

theorem ensure_of_not_find? (h : find? name entries = none) (content : α) :
    ensure name content entries = entries ++ [(Key.new name, content)] := by
  simp [ensure, hasKey, h]

theorem find?_ensure (name : String) (content : α) (entries : List (Key × α)) :
    find? name (ensure name content entries) = some ((find? name entries).getD content) := by
  cases h : find? name entries with
  | none => simp [ensure_of_not_find? h, find?_append, h, find?, Key.new]
  | some old => rw [ensure_of_find? h, h, Option.getD_some]

theorem ensure_map {β : Type} (g : α → β) (name : String) (content : α) (entries : List (Key × α)) :
    ensure name (g content) (entries.map fun (key, content) => (key, g content)) =
      (ensure name content entries).map fun (key, content) => (key, g content) := by
  have hmap := find?_map g name entries
  cases h : find? name entries with
  | none =>
    rw [h] at hmap
    rw [ensure_of_not_find? h, ensure_of_not_find? hmap, List.map_append, List.map_singleton]
  | some old =>
    rw [h] at hmap
    rw [ensure_of_find? h, ensure_of_find? hmap]

theorem modify_modify (name : String) (f g : α → α) (entries : List (Key × α)) :
    modify name g (modify name f entries) = modify name (fun content => g (f content)) entries := by
  induction entries with
  | nil => rfl
  | cons entry rest ih =>
    obtain ⟨key, content⟩ := entry
    by_cases h : key.name = name
    · simp [modify, h]
    · simp [modify, h, ih]

theorem modify_self {g : α → α} {old : α} (h : find? name entries = some old) (hg : g old = old) :
    modify name g entries = entries := by
  induction entries with
  | nil => rfl
  | cons entry rest ih =>
    obtain ⟨key, content⟩ := entry
    rw [find?] at h
    by_cases hname : key.name = name
    · rw [if_pos hname] at h
      obtain rfl := Option.some.inj h
      simp [modify, hname, hg]
    · rw [if_neg hname] at h
      simp [modify, hname, ih h]

/-- A revision that may refuse what it finds takes up the name and then changes what stands there. -/
theorem revise?_eq_modify_ensure {f : Option α → Option α} {g : α → α} {fits : α → Bool} {fresh : α}
    (hnone : f none = some (g fresh)) (hsome : ∀ old, f (some old) = if fits old then some (g old) else none)
    (name : String) (entries : List (Key × α)) :
    revise? (Key.new name) f entries =
      if (find? name entries).all fits then some (modify name g (ensure name fresh entries)) else none := by
  induction entries with
  | nil => simp [revise?, find?, ensure, hasKey, modify, hnone, Key.new]
  | cons entry rest ih =>
    obtain ⟨other, old⟩ := entry
    have hnew : (Key.new name).name = name := rfl
    rw [revise?, hnew, find?]
    by_cases hname : other.name = name
    · have hkept : ensure name fresh ((other, old) :: rest) = (other, old) :: rest :=
        ensure_of_find? (by rw [find?, if_pos hname]) fresh
      rw [if_pos hname, if_pos hname, hkept, modify, if_pos hname, hsome, Option.all_some]
      cases fits old <;> rfl
    · have hlater : ensure name fresh ((other, old) :: rest) = (other, old) :: ensure name fresh rest := by
        rw [ensure, ensure, hasKey, hasKey, find?, if_neg hname]
        split <;> rfl
      rw [if_neg hname, if_neg hname, hlater, modify, if_neg hname, ih]
      split <;> rfl

theorem hasKey_eq (name : String) (entries : List (Key × α)) :
    hasKey name entries = decide (name ∈ names entries) := by
  by_cases h : name ∈ names entries
  · rw [decide_eq_true h, hasKey, ← Option.ne_none_iff_isSome]
    exact fun hnone => find?_eq_none.1 hnone h
  · simp [hasKey, find?_eq_none.2 h, h]

/-- A revision keeps the order of the names and adds its own at the end. -/
theorem names_revise? {f : Option α → Option α} (h : revise? key f entries = some revised) :
    names revised = names entries ++ if hasKey key.name entries then [] else [key.name] := by
  rcases revise?_eq_some h with ⟨hnone, new, -, rfl⟩ | ⟨front, other, old, back, new, rfl, hname, hnone, -, rfl⟩
  · simp [names, hasKey, hnone]
  · simp [names, hasKey, find?_append, find?, hname, hnone]

/-- Entries of other names are kept as they are. -/
theorem filter_revise? {f : Option α → Option α} (h : revise? key f entries = some revised)
    {p : String → Bool} (hp : p key.name = false) :
    revised.filter (fun entry => p entry.1.name) = entries.filter (fun entry => p entry.1.name) := by
  rcases revise?_eq_some h with ⟨-, new, -, rfl⟩ | ⟨front, other, old, back, new, rfl, hname, -, -, rfl⟩
  · simp [hp]
  · simp [hname, hp]

/-! ### Tables -/

theorem Table.withEntries_entries (t : Table) : t.withEntries t.entries = t := by
  cases t
  rfl

@[simp] theorem Table.entries_withEntries (t : Table) (entries : List (Key × Item)) :
    (t.withEntries entries).entries = entries := rfl

@[simp] theorem Table.withEntries_withEntries (t : Table) (entries entries' : List (Key × Item)) :
    (t.withEntries entries).withEntries entries' = t.withEntries entries' := rfl

end FeatureForwarding.Toml
