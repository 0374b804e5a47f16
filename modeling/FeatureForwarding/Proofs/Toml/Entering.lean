import FeatureForwarding.Proofs.Toml.DistinctKeys

/-! Sections seen from one key. A section only changes the entry that its path starts with, so that a run of
sections over a table falls apart into the runs over its entries. -/

namespace FeatureForwarding.Toml

variable {α : Type} {name name' : String} {key : Key} {entries entries' : List (Key × α)} {e : Key × α}

/-! ### Entries of a name -/

/-- The entry of the name, together with its key. -/
def stored? (name : String) (entries : List (Key × α)) : Option (Key × α) :=
  (entries.filter fun e => e.1.name = name).head?

theorem stored?_cons (name : String) (e : Key × α) (entries : List (Key × α)) :
    stored? name (e :: entries) = if e.1.name = name then some e else stored? name entries := by
  rw [stored?, List.filter_cons]
  by_cases h : e.1.name = name
  · simp [h]
  · simp [h, stored?]

theorem stored?_append (name : String) (front back : List (Key × α)) :
    stored? name (front ++ back) = (stored? name front).or (stored? name back) := by
  rw [stored?, List.filter_append, List.head?_append]
  rfl

theorem find?_eq_stored? (name : String) (entries : List (Key × α)) :
    find? name entries = (stored? name entries).map Prod.snd := by
  induction entries with
  | nil => rfl
  | cons e entries ih =>
    obtain ⟨key, content⟩ := e
    rw [find?, stored?_cons, ih]
    split <;> rfl

theorem stored?_eq_none : stored? name entries = none ↔ name ∉ names entries := by
  rw [← find?_eq_none, find?_eq_stored?, Option.map_eq_none_iff]

theorem mem_of_stored? (h : stored? name entries = some e) : e ∈ entries ∧ e.1.name = name := by
  have hmem := List.mem_of_mem_head? h
  rw [List.mem_filter] at hmem
  exact ⟨hmem.1, of_decide_eq_true hmem.2⟩

/-- Where names are distinct, an entry is found under its name. -/
theorem stored?_of_mem (h : (names entries).Nodup) (he : e ∈ entries) :
    stored? e.1.name entries = some e := by
  induction entries with
  | nil => exact absurd he List.not_mem_nil
  | cons first entries ih =>
    obtain ⟨hfirst, hrest⟩ := List.nodup_cons.1 h
    rw [stored?_cons]
    rcases List.mem_cons.1 he with rfl | he
    · exact if_pos rfl
    · rw [if_neg fun heq : first.1.name = e.1.name => hfirst (List.mem_map.2 ⟨e, he, heq.symm⟩), ih hrest he]

/-- The entry of the name has become this one, and all others stay, in their order. -/
structure Enters (name : String) (e : Key × α) (entries entries' : List (Key × α)) : Prop where
  nodup : (names entries').Nodup
  entry : stored? name entries' = some e
  others : ∀ p : String → Bool, p name = false →
    entries'.filter (fun e => p e.1.name) = entries.filter fun e => p e.1.name

theorem Enters.other (h : Enters name e entries entries') (hne : name' ≠ name) :
    stored? name' entries' = stored? name' entries :=
  congrArg List.head? (h.others (· = name') (decide_eq_false hne.symm))

/-- A revision enters what it makes of the old content under the old key, or under its own. -/
theorem revise?_enters (hnodup : (names entries).Nodup) {f : Option α → Option α} {new : α}
    (h : f ((stored? key.name entries).map Prod.snd) = some new) :
    ∃ revised, revise? key f entries = some revised ∧
      Enters key.name (((stored? key.name entries).map Prod.fst).getD key, new) entries revised := by
  have hsome : (revise? key f entries).isSome := by
    rw [isSome_revise?, find?_eq_stored?, h]
    rfl
  obtain ⟨revised, hrevised⟩ := Option.isSome_iff_exists.1 hsome
  refine ⟨revised, hrevised, nodup_names_revise? hrevised hnodup, ?_, fun p hp => filter_revise? hrevised hp⟩
  rcases revise?_eq_some hrevised with ⟨hnone, new', hnew, rfl⟩ |
    ⟨front, other, old, back, new', rfl, hname, hnone, hnew, rfl⟩
  · have hnone : stored? key.name entries = none := by rw [stored?_eq_none, ← find?_eq_none, hnone]
    rw [hnone, Option.map_none, hnew] at h
    rw [stored?_append, hnone, Option.none_or, stored?_cons, if_pos rfl, ← Option.some.inj h]
    rfl
  · have hnone : stored? key.name front = none := by rw [stored?_eq_none, ← find?_eq_none, hnone]
    rw [stored?_append, hnone, Option.none_or, stored?_cons, if_pos hname, Option.map_some, hnew] at h
    rw [stored?_append, stored?_append, hnone, Option.none_or, Option.none_or, stored?_cons,
      stored?_cons, if_pos hname, if_pos hname, Option.some.inj h]
    rfl

/-- A new entry takes the place of an old one at the end. -/
theorem erase_enters (hnodup : (names entries).Nodup) (key : Key) (content : α) :
    Enters key.name (key, content) entries (erase key.name entries ++ [(key, content)]) where
  nodup := by
    have hfree : find? key.name (erase key.name entries) = none := by
      rw [find?_erase hnodup, if_pos rfl]
    have hrevise := revise?_of_new hfree fun _ => some content
    exact nodup_names_revise? hrevise (hnodup.sublist (names_erase_sublist ..))
  entry := by
    have hfree : stored? key.name (erase key.name entries) = none := by
      rw [stored?_eq_none, ← find?_eq_none, find?_erase hnodup, if_pos rfl]
    rw [stored?_append, hfree, Option.none_or, stored?_cons, if_pos rfl]
  others p hp := by
    rw [List.filter_append, List.filter_cons_of_neg (by simp [hp]), List.filter_nil, List.append_nil]
    clear hnodup
    induction entries with
    | nil => rfl
    | cons first entries ih =>
      rw [erase]
      split
      · next hname => rw [List.filter_cons_of_neg (by simp [hname, hp])]
      · rw [List.filter_cons, List.filter_cons, ih]

/-! ### One section -/

/-- The name of the entry that the path of the section starts with. -/
def Section.head (s : Section) : String := (s.path.parents.head?.getD s.path.last).name

namespace Table

/-- What a change some keys further down makes of what stands under a key. -/
def itemBelow? (f : Table → Option Table) (keys : List Key) : Option Item → Option Item
  | none => (descend? f keys (passage .implied)).map .table
  | some (.table inner) => (descend? f keys inner).map .table
  | some (.tables ts) => (reviseLast? (descend? f keys) ts).map .tables
  | some (.value _) => none

/-- An array of tables with one more element. -/
def withElement? (t : Table) : Option Item → Option Item
  | none => some (.tables [t])
  | some (.tables ts) => some (.tables (ts ++ [t]))
  | some _ => none

/-- What the header of a single table finds under its key. -/
def implied? : Option Item → Option (List (Key × Item))
  | none => some []
  | some (.table ⟨.implied, _, _, known⟩) => some known
  | some _ => none

/-- The changed entry keeps its key. -/
def keepKey? (key : Key) (f : Option Item → Option Item) (old : Option (Key × Item)) : Option (Key × Item) :=
  (f (old.map Prod.snd)).map fun item => ((old.map Prod.fst).getD key, item)

/-- What a section makes of the entry at the end of its path. -/
def enterHere? (n : Nat) (s : Section) (old : Option (Key × Item)) : Option (Key × Item) :=
  if s.isArray then (ofSection? s n []).bind fun t => keepKey? s.path.last (withElement? t) old
  else (implied? (old.map Prod.snd)).bind fun known =>
    (ofSection? s n known).map fun t => (s.path.last, .table t)

/-- What a section makes of the entry that its path starts with. -/
def enter? (n : Nat) (s : Section) : Option (Key × Item) → Option (Key × Item) :=
  match s.path.parents with
  | [] => enterHere? n s
  | key :: keys => keepKey? key (itemBelow? (addSection? s n) keys)

variable {t : Table} {n : Nat} {s : Section} {old : Option (Key × Item)} {new : Key × Item}

theorem descend?_cons (f : Table → Option Table) (key : Key) (keys : List Key) (t : Table) :
    descend? f (key :: keys) t = (revise? key (itemBelow? f keys) t.entries).map t.withEntries := by
  rw [descend?]
  rfl

theorem addSection?_eq (s : Section) (n : Nat) (t : Table) : addSection? s n t =
    if s.isArray then (ofSection? s n []).bind fun inner =>
      (revise? s.path.last (withElement? inner) t.entries).map t.withEntries
    else (implied? (find? s.path.last.name t.entries)).bind fun known =>
    (ofSection? s n known).map fun inner =>
      t.withEntries (erase s.path.last.name t.entries ++ [(s.path.last, .table inner)]) := by
  unfold addSection?
  dsimp only
  split
  · rfl
  · cases hfind : find? s.path.last.name t.entries with
    | none => rw [erase_of_find?_eq_none hfind]; rfl
    | some item => rcases item with _ | ⟨_ | _ | _, _, _, _⟩ | _ <;> rfl

theorem keepKey?_enters {f : Option Item → Option Item} (hnodup : (names t.entries).Nodup)
    (h : keepKey? key f (stored? key.name t.entries) = some new) :
    ∃ entries, (revise? key f t.entries).map t.withEntries = some (t.withEntries entries) ∧
      Enters key.name new t.entries entries := by
  obtain ⟨item, hitem, rfl⟩ := Option.map_eq_some_iff.1 h
  obtain ⟨revised, hrevised, henters⟩ := revise?_enters hnodup hitem
  exact ⟨revised, by rw [hrevised]; rfl, henters⟩

theorem enterHere?_enters (hnodup : (names t.entries).Nodup)
    (h : enterHere? n s (stored? s.path.last.name t.entries) = some new) :
    ∃ entries, addSection? s n t = some (t.withEntries entries) ∧
    Enters s.path.last.name new t.entries entries := by
  rw [addSection?_eq]
  unfold enterHere? at h
  split at h <;> rename_i harray
  · obtain ⟨inner, hinner, h⟩ := Option.bind_eq_some_iff.1 h
    rw [if_pos harray, hinner]
    exact keepKey?_enters hnodup h
  · obtain ⟨known, hknown, h⟩ := Option.bind_eq_some_iff.1 h
    obtain ⟨inner, hinner, rfl⟩ := Option.map_eq_some_iff.1 h
    refine ⟨_, ?_, erase_enters hnodup s.path.last (Item.table inner)⟩
    rw [if_neg harray, find?_eq_stored?, hknown, Option.bind_some, hinner]
    rfl

/-- A section enters what it makes of the entry that its path starts with. -/
theorem descend?_enters (hnodup : (names t.entries).Nodup)
    (h : enter? n s (stored? s.head t.entries) = some new) :
    ∃ entries, descend? (addSection? s n) s.path.parents t = some (t.withEntries entries) ∧
      Enters s.head new t.entries entries := by
  unfold enter? at h
  rw [Section.head] at *
  cases hparents : s.path.parents with
  | nil =>
    rw [hparents] at h
    exact enterHere?_enters hnodup h
  | cons key keys =>
    rw [hparents] at h
    obtain ⟨entries, hentries, henters⟩ := keepKey?_enters hnodup h
    exact ⟨entries, (descend?_cons ..).trans hentries, henters⟩

/-! ### Runs of sections -/

/-- Adds sections, each at its position. -/
def addAll? (t : Table) : List (Nat × Section) → Option Table
  | [] => some t
  | (n, s) :: rest => (descend? (addSection? s n) s.path.parents t).bind fun t => addAll? t rest

/-- What sections whose paths start with one name make of its entry. -/
def enterAll? (old : Option (Key × Item)) : List (Nat × Section) → Option (Option (Key × Item))
  | [] => some old
  | (n, s) :: rest => (enter? n s old).bind fun new => enterAll? (some new) rest

theorem enterAll?_append (old : Option (Key × Item)) (front back : List (Nat × Section)) :
    enterAll? old (front ++ back) = (enterAll? old front).bind fun new => enterAll? new back := by
  induction front generalizing old with
  | nil => rfl
  | cons s front ih =>
    rw [List.cons_append, enterAll?, enterAll?, Option.bind_assoc]
    exact congrArg _ (funext fun new => ih (some new))

/-- The sections whose paths start with the name. -/
def startingWith (name : String) (ss : List (Nat × Section)) : List (Nat × Section) :=
  ss.filter fun s => s.2.head = name

theorem startingWith_cons (name : String) (s : Nat × Section) (ss : List (Nat × Section)) :
    startingWith name (s :: ss) =
      if s.2.head = name then s :: startingWith name ss else startingWith name ss := by
  rw [startingWith, List.filter_cons]
  simp only [decide_eq_true_eq]
  rfl

/-- A run of sections succeeds if it does for every name, and then each entry is what its run made of it. -/
theorem addAll?_eq_some {ss : List (Nat × Section)} (hnodup : (names t.entries).Nodup)
    (h : ∀ name, (enterAll? (stored? name t.entries) (startingWith name ss)).isSome) :
    ∃ entries, addAll? t ss = some (t.withEntries entries) ∧ (names entries).Nodup ∧
      (∀ name, enterAll? (stored? name t.entries) (startingWith name ss) = some (stored? name entries)) ∧
      ∀ p : String → Bool, (∀ s ∈ ss, p s.2.head = false) →
        entries.filter (fun e => p e.1.name) = t.entries.filter fun e => p e.1.name := by
  induction ss generalizing t with
  | nil => exact ⟨t.entries, by rw [addAll?, withEntries_entries], hnodup, fun _ => rfl, fun _ _ => rfl⟩
  | cons section' ss ih =>
    obtain ⟨n, s⟩ := section'
    have hhead := h s.head
    rw [startingWith_cons, if_pos rfl, enterAll?] at hhead
    obtain ⟨last, hlast⟩ := Option.isSome_iff_exists.1 hhead
    obtain ⟨new, hnew, -⟩ := Option.bind_eq_some_iff.1 hlast
    obtain ⟨next, hnext, henters⟩ := descend?_enters hnodup hnew
    -- the run of every name goes on from what the first section has left
    have hstep (name : String) : enterAll? (stored? name t.entries) (startingWith name ((n, s) :: ss)) =
        enterAll? (stored? name next) (startingWith name ss) := by
      rw [startingWith_cons]
      dsimp only
      split
      · next hname =>
        subst hname
        rw [enterAll?, hnew, Option.bind_some, henters.entry]
      · next hname => rw [henters.other (Ne.symm hname)]
    have hrest := ih (t := t.withEntries next) henters.nodup fun name => hstep name ▸ h name
    obtain ⟨entries, hentries, hnodup', hrun, hothers⟩ := hrest
    refine ⟨entries, ?_, hnodup', fun name => (hstep name).trans (hrun name), fun p hp => ?_⟩
    · rw [addAll?, hnext, Option.bind_some, hentries, withEntries_withEntries]
    · obtain ⟨hfirst, hp⟩ := List.forall_mem_cons.1 hp
      rw [hothers p hp]
      exact henters.others p hfirst

/-! ### Sections below an entry -/

theorem reviseLast?_append {f : α → Option α} (as : List α) (a : α) :
    reviseLast? f (as ++ [a]) = (f a).map fun a => as ++ [a] := by
  induction as with
  | nil => rfl
  | cons b as ih =>
    obtain ⟨c, cs, hcs⟩ : ∃ c cs, as ++ [a] = c :: cs := List.exists_cons_of_ne_nil (by simp)
    rw [List.cons_append, hcs, reviseLast?, ← hcs, ih, Option.map_map]
    rfl

end Table

/-- The section seen from below the first key of its path. -/
def Section.below (s : Section) : Section := { s with path := ⟨s.path.parents.tail, s.path.last⟩ }

namespace Table

variable {ss : List (Nat × Section)}

theorem addAll?_below {keys : List Key} (hparents : s.path.parents = key :: keys) (t : Table)
    (rest : List (Nat × Section)) : addAll? t ((n, s.below) :: rest) =
      (descend? (addSection? s n) keys t).bind fun t => addAll? t rest := by
  have hkeys : s.below.path.parents = keys := congrArg List.tail hparents
  rw [addAll?, hkeys]
  rfl

theorem enterAll?_table (hss : ∀ s ∈ ss, s.2.path.parents ≠ []) (key : Key) (inner : Table) :
    enterAll? (some (key, .table inner)) ss =
      (addAll? inner (ss.map (Prod.map id Section.below))).map fun t => some (key, .table t) := by
  induction ss generalizing inner with
  | nil => rfl
  | cons s ss ih =>
    obtain ⟨n, s⟩ := s
    obtain ⟨hs, hss⟩ := List.forall_mem_cons.1 hss
    obtain ⟨first, keys, hparents⟩ := List.exists_cons_of_ne_nil hs
    have henter (old : Option (Key × Item)) :
        enter? n s old = keepKey? first (itemBelow? (addSection? s n) keys) old := by
      rw [enter?, hparents]
    rw [enterAll?, henter, List.map_cons]
    change _ = (addAll? inner ((n, s.below) :: _)).map _
    rw [addAll?_below hparents]
    change ((((descend? (addSection? s n) keys inner).map Item.table).map fun item => (key, item)).bind _) = _
    cases descend? (addSection? s n) keys inner with
    | none => rfl
    | some next => exact ih hss next

/-- Where nothing is under the key, an implied table comes about. -/
theorem enterAll?_none {s : Section} {keys : List Key} (hparents : s.path.parents = key :: keys)
    (hss : ∀ s ∈ ss, s.2.path.parents ≠ []) :
    enterAll? none ((n, s) :: ss) =
    (addAll? (passage .implied) (((n, s) :: ss).map (Prod.map id Section.below))).map
      fun t => some (key, .table t) := by
  have henter : enter? n s none = keepKey? key (itemBelow? (addSection? s n) keys) none := by
    rw [enter?, hparents]
  rw [enterAll?, henter, List.map_cons]
  change _ = (addAll? (passage .implied) ((n, s.below) :: _)).map _
  rw [addAll?_below hparents]
  change ((((descend? (addSection? s n) keys (passage .implied)).map Item.table).map fun item =>
    (key, item)).bind _) = _
  cases descend? (addSection? s n) keys (passage .implied) with
  | none => rfl
  | some next => exact enterAll?_table hss key next

/-- Of an array the last element is meant. -/
theorem enterAll?_tables (hss : ∀ s ∈ ss, s.2.path.parents ≠ []) (key : Key) (ts : List Table)
    (inner : Table) :
    enterAll? (some (key, .tables (ts ++ [inner]))) ss =
      (addAll? inner (ss.map (Prod.map id Section.below))).map fun t => some (key, .tables (ts ++ [t])) := by
  induction ss generalizing inner with
  | nil => rfl
  | cons s ss ih =>
    obtain ⟨n, s⟩ := s
    obtain ⟨hs, hss⟩ := List.forall_mem_cons.1 hss
    obtain ⟨first, keys, hparents⟩ := List.exists_cons_of_ne_nil hs
    have henter (old : Option (Key × Item)) :
        enter? n s old = keepKey? first (itemBelow? (addSection? s n) keys) old := by
      rw [enter?, hparents]
    rw [enterAll?, henter, List.map_cons]
    change _ = (addAll? inner ((n, s.below) :: _)).map _
    rw [addAll?_below hparents]
    change ((((reviseLast? (descend? (addSection? s n) keys) (ts ++ [inner])).map Item.tables).map
      fun item => (key, item)).bind _) = _
    rw [reviseLast?_append]
    cases descend? (addSection? s n) keys inner with
    | none => rfl
    | some next => exact ih hss next

/-! ### Sections in a row -/

/-- Numbers the elements of a list. -/
def numbered {α : Type} (n : Nat) : List α → List (Nat × α)
  | [] => []
  | a :: as => (n, a) :: numbered (n + 1) as

theorem map_snd_numbered {α : Type} (n : Nat) (as : List α) : (numbered n as).map Prod.snd = as := by
  induction as generalizing n with
  | nil => rfl
  | cons a as ih => rw [numbered, List.map_cons, ih]

theorem le_of_mem_numbered {α : Type} {n : Nat} {a : Nat × α} {as : List α}
    (h : a ∈ numbered n as) : n ≤ a.1 := by
  induction as generalizing n with
  | nil => exact absurd h List.not_mem_nil
  | cons b as ih =>
    rcases List.mem_cons.1 h with rfl | h
    · exact Nat.le_refl n
    · exact Nat.le_of_succ_le (ih h)

theorem pairwise_numbered {α : Type} (n : Nat) (as : List α) :
    (numbered n as).Pairwise fun a b => a.1 < b.1 := by
  induction as generalizing n with
  | nil => exact .nil
  | cons a as ih => exact List.pairwise_cons.2 ⟨fun b hb => le_of_mem_numbered hb, ih (n + 1)⟩

theorem addSectionsFrom?_eq (n : Nat) (t : Table) (ss : List Section) :
    addSectionsFrom? n t ss = addAll? t (numbered n ss) := by
  induction ss generalizing n t with
  | nil => rfl
  | cons s ss ih => exact congrArg _ (funext fun t => ih (n + 1) t)

end Table

end FeatureForwarding.Toml
