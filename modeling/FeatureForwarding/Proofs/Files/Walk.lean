import FeatureForwarding.Proofs.Files.Place

/-! Following a path, one piece after the other. A path leads to one place only, however many links
may be followed on the way; a way on which no link is met can be taken after any other. -/

namespace FeatureForwarding.Files.Tree

variable {t t' : Tree} {here there mid : Location} {piece name : String} {ps qs : List String}
    {n n' : Nat}

/-- Where one piece leads: on, or along the target of a link. -/
inductive Turn where
  | go (there : Location)
  | follow (here : Location) (pieces : List String)

/-- Where something in a directory leads. -/
def turnAt (here : Location) (piece : String) : Entry → Turn
  | .link target =>
    let (here, pieces) := start here (Path.pieces ⟨target⟩)
    .follow here pieces
  | _ => .go (here ++ [piece])

def turn? (t : Tree) (here : Location) (piece : String) : Option Turn :=
  if !t.isDirectoryAt here then none
  else if !Path.isStep piece then some (.go here)
  else if piece = ".." then some (.go (up here))
  else (t.sight? (here ++ [piece])).map (turnAt here piece)

theorem walkLinks_nil (t : Tree) (n : Nat) (here : Location) : t.walkLinks n here [] = some here := by
  cases n <;> rfl

theorem walkLinks_cons (t : Tree) (n : Nat) (here : Location) (piece : String) (rest : List String) :
    t.walkLinks n here (piece :: rest) =
      match t.turn? here piece with
      | none => none
      | some (.go there) => t.walkLinks n there rest
      | some (.follow there pieces) =>
        match n with
        | 0 => none
        | n + 1 => t.walkLinks n there (pieces ++ rest) := by
  have hwalk (follow : Location → List String → Option Location) :
    t.walk follow here (piece :: rest) =
      match t.turn? here piece with
      | none => none
      | some (.go there) => t.walk follow there rest
      | some (.follow there pieces) => follow there (pieces ++ rest) := by
    unfold turn? sight?
    rw [walk]
    split
    · rfl
    split
    · rfl
    split
    · rfl
    · cases t.at? (here ++ [piece]) with
      | none => rfl
      | some node => cases node <;> rfl
  cases n <;> exact hwalk _

/-- The pieces lead from one place to another through at most so many links. -/
inductive Leads (t : Tree) : Nat → Location → List String → Location → Prop
  | done {n : Nat} {here : Location} : Leads t n here [] here
  | go {n : Nat} {here next there : Location} {piece : String} {rest : List String}
      (turn : t.turn? here piece = some (.go next)) (onward : Leads t n next rest there) :
        Leads t n here (piece :: rest) there
  | follow {n : Nat} {here next there : Location} {piece : String} {pieces rest : List String}
      (turn : t.turn? here piece = some (.follow next pieces))
        (onward : Leads t n next (pieces ++ rest) there) :
      Leads t (n + 1) here (piece :: rest) there

theorem leads_iff : t.Leads n here ps there ↔ t.walkLinks n here ps = some there := by
  refine ⟨fun h => ?_, fun h => ?_⟩
  · induction h with
    | done => exact walkLinks_nil t _ _
    | go turn _ ih => rw [walkLinks_cons, turn, ← ih]
    | follow turn _ ih => rw [walkLinks_cons, turn, ← ih]
  · -- a link costs one of the limit, any other piece is behind afterwards
    induction n generalizing here ps with
    | zero =>
      induction ps generalizing here with
      | nil =>
        obtain rfl := Option.some.inj ((walkLinks_nil t 0 here).symm.trans h)
        exact .done
      | cons piece rest ih =>
        rw [walkLinks_cons] at h
        split at h
        · exact absurd h (by simp)
        · next next turn => exact .go turn (ih h)
        · exact absurd h (by simp)
    | succ n ihn =>
      induction ps generalizing here with
      | nil =>
        obtain rfl := Option.some.inj ((walkLinks_nil t _ here).symm.trans h)
        exact .done
      | cons piece rest ih =>
        rw [walkLinks_cons] at h
        split at h
        · exact absurd h (by simp)
        · next next turn => exact .go turn (ih h)
        · next next pieces turn => exact .follow turn (ihn h)

namespace Leads

/-- More links do no harm. -/
theorem mono (hle : n ≤ n') (h : t.Leads n here ps there) : t.Leads n' here ps there := by
  induction h generalizing n' with
  | done => exact .done
  | go turn _ ih => exact .go turn (ih hle)
  | follow turn _ ih =>
    obtain ⟨k, rfl⟩ := Nat.exists_eq_succ_of_ne_zero (Nat.ne_zero_of_lt hle)
    exact .follow turn (ih (Nat.le_of_succ_le_succ hle))

/-- A path leads to one place. -/
theorem unique {there' : Location} (h : t.Leads n here ps there) (h' : t.Leads n' here ps there') :
    there = there' := by
  have hmax := leads_iff.1 (h.mono (Nat.le_max_left n n'))
  rw [leads_iff.1 (h'.mono (Nat.le_max_right n n'))] at hmax
  exact (Option.some.inj hmax).symm

theorem of_nil (h : t.Leads n here [] there) : there = here := by
  cases h
  rfl

/-- A way in two stretches comes by some place in between. -/
theorem split (h : t.Leads n here (ps ++ qs) there) :
    ∃ mid n', t.Leads n here ps mid ∧ t.Leads n' mid qs there := by
  generalize hall : ps ++ qs = all at h
  induction h generalizing ps with
  | done =>
    obtain ⟨rfl, rfl⟩ := List.append_eq_nil_iff.1 hall
    exact ⟨_, 0, .done, .done⟩
  | @go n here next there piece rest turn onward ih =>
    cases ps with
    | nil =>
      obtain rfl : qs = piece :: rest := hall
      exact ⟨here, n, .done, .go turn onward⟩
    | cons first ps =>
      obtain ⟨rfl, rfl⟩ := List.cons.inj hall
      obtain ⟨mid, n', hmid, hlater⟩ := ih rfl
      exact ⟨mid, n', .go turn hmid, hlater⟩
  | @follow n here next there piece pieces rest turn onward ih =>
    cases ps with
    | nil =>
      obtain rfl : qs = piece :: rest := hall
      exact ⟨here, n + 1, .done, .follow turn onward⟩
    | cons first ps =>
      obtain ⟨rfl, rfl⟩ := List.cons.inj hall
      obtain ⟨mid, n', hmid, hlater⟩ := ih (List.append_assoc pieces ps qs)
      exact ⟨mid, n', .follow turn hmid, hlater⟩

/-- Where no link is met any more, the limit does not matter. -/
theorem append (h : t.Leads n here ps mid) (h' : t.Leads 0 mid qs there) :
    t.Leads n here (ps ++ qs) there := by
  induction h with
  | done => exact h'.mono (Nat.zero_le _)
  | go turn _ ih => exact .go turn (ih h')
  | follow turn _ ih =>
    have hway := ih h'
    rw [List.append_assoc] at hway
    exact .follow turn hway

theorem isDirectoryAt (h : t.Leads n here (piece :: ps) there) : t.isDirectoryAt here := by
  by_cases hdirectory : t.isDirectoryAt here
  · exact hdirectory
  · have hnone : t.turn? here piece = none := by simp [turn?, hdirectory]
    cases h with
    | go turn _ => simp [hnone] at turn
    | follow turn _ => simp [hnone] at turn

end Leads

/-! ### Trees of one shape -/

theorem at?_of_shape (h : t'.root.shape = t.root.shape) (l : Location) :
    (t'.at? l).map Node.shape = (t.at? l).map Node.shape := by
  simp only [at?, ← Node.below?_shape, h]

theorem turn?_of_shape (h : t'.root.shape = t.root.shape) (here : Location) (piece : String) :
    t'.turn? here piece = t.turn? here piece := by
  have hdirectory : t'.isDirectoryAt here = t.isDirectoryAt here := by
    have hshape : (fun node => Node.isDirectory (Node.shape node)) = Node.isDirectory := by
      funext node
      cases node <;> rfl
    have hnode := congrArg (Option.any Node.isDirectory) (at?_of_shape h here)
    simpa only [Tree.isDirectoryAt, Option.any_map, hshape] using hnode
  have hturn : (t'.sight? (here ++ [piece])).map (turnAt here piece)
    = (t.sight? (here ++ [piece])).map (turnAt here piece) := by
    have hshape : (turnAt here piece ∘ Node.entry) ∘ Node.shape = turnAt here piece ∘ Node.entry := by
      funext node
      cases node <;> rfl
    have hnode := congrArg (Option.map (turnAt here piece ∘ Node.entry))
      (at?_of_shape h (here ++ [piece]))
    simpa only [sight?, Option.map_map, hshape] using hnode
  rw [turn?, turn?, hdirectory, hturn]

/-- What a file holds does not matter on the way. -/
theorem walkLinks_of_shape (h : t'.root.shape = t.root.shape) (n : Nat) (here : Location)
    (ps : List String) :
    t'.walkLinks n here ps = t.walkLinks n here ps := by
  have hleads {t t' : Tree} (h : t'.root.shape = t.root.shape) {n : Nat} {here there : Location}
    {ps : List String}
      (hway : t.Leads n here ps there) : t'.Leads n here ps there := by
    induction hway with
    | done => exact .done
    | go turn _ ih => exact .go (turn?_of_shape h _ _ ▸ turn) ih
    | follow turn _ ih => exact .follow (turn?_of_shape h _ _ ▸ turn) ih
  apply Option.ext
  intro there
  rw [← leads_iff, ← leads_iff]
  exact ⟨hleads h.symm, hleads h⟩

theorem locate?_of_shape (h : t'.root.shape = t.root.shape) (p : Path) :
    t'.locate? p = t.locate? p := by
  have hsome (l : Location) : (t'.at? l).isSome = (t.at? l).isSome := by
    simpa using congrArg Option.isSome (at?_of_shape h l)
  simp only [locate?, walkLinks_of_shape h, hsome]

/-! ### A file in the place of something else -/

/-- A text stands at a location where no directory was, and all else is seen as before. -/
structure Puts (t t' : Tree) (l : Location) (content : String) : Prop where
  sight : ∀ l', t'.sight? l' = if l' = l then some (.file (.text content)) else t.sight? l'
  before : t.isDirectoryAt l = false

theorem Puts.isDirectoryAt {l : Location} {content : String} (h : Puts t t' l content) (l' : Location) :
    t'.isDirectoryAt l' = t.isDirectoryAt l' := by
  by_cases hl : l' = l
  · rw [hl, h.before, isDirectoryAt_eq, h.sight, if_pos rfl]
    rfl
  · rw [isDirectoryAt_eq, isDirectoryAt_eq, h.sight, if_neg hl]

/-- A file takes the place of what was at a location, a file itself or a link to one. -/
structure Replaced (t t' : Tree) (above : Location) (name : String) (content : String)
    (old : Location) : Prop where
  sight : ∀ l, t'.sight? l = if l = above ++ [name] then some (.file (.text content)) else t.sight? l
  before : t.isDirectoryAt (above ++ [name]) = false
  isFile : t.isDirectoryAt old = false
  led : ∀ target, t.sight? (above ++ [name]) = some (.link target) →
    ∃ n, t.Leads n (start above (Path.pieces ⟨target⟩)).1 (start above (Path.pieces ⟨target⟩)).2 old

namespace Replaced

variable {above old : Location} {content : String}

theorem puts (h : Replaced t t' above name content old) : Puts t t' (above ++ [name]) content :=
  ⟨h.sight, h.before⟩

theorem isDirectoryAt (h : Replaced t t' above name content old) (l : Location) :
    t'.isDirectoryAt l = t.isDirectoryAt l :=
  h.puts.isDirectoryAt l

theorem turn? (h : Replaced t t' above name content old) {here : Location}
    (hne : here ++ [piece] ≠ above ++ [name]) :
    t'.turn? here piece = t.turn? here piece := by
  simp only [Tree.turn?, h.isDirectoryAt, h.sight, if_neg hne]

/-- The way along the link at the place, if there was one, leads to the old file. -/
theorem ends (h : Replaced t t' above name content old) {next : Location} {pieces : List String}
    (hturn : t.turn? above name = some (.follow next pieces)) : ∃ n, t.Leads n next pieces old := by
  unfold Tree.turn? at hturn
  split at hturn
  · exact absurd hturn (by simp)
  split at hturn
  · exact absurd hturn (by simp)
  split at hturn
  · exact absurd hturn (by simp)
  · obtain ⟨entry, hentry, hfollow⟩ := Option.map_eq_some_iff.1 hturn
    cases entry with
    | link target =>
      obtain ⟨rfl, rfl⟩ := Turn.follow.inj hfollow
      exact h.led target hentry
    | file contents => exact absurd hfollow (by simp [turnAt])
    | directory => exact absurd hfollow (by simp [turnAt])

/-- Where a way went on, it does so now. -/
theorem turn?_eq_go (h : Replaced t t' above name content old) {next : Location}
    (hturn : t.turn? here piece = some (.go next)) : t'.turn? here piece = some (.go next) := by
  by_cases hhere : here ++ [piece] = above ++ [name]
  · rw [← hturn]
    simp only [Tree.turn?, h.isDirectoryAt, h.sight, if_pos hhere]
    unfold Tree.turn? at hturn
    split at hturn
    · exact absurd hturn (by simp)
    split at hturn
    · next hstep => simp [hstep]
    split at hturn
    · next hup => simp [hup]
    · obtain ⟨entry, hentry, hgo⟩ := Option.map_eq_some_iff.1 hturn
      rw [hentry]
      cases entry with
      | link target => exact absurd hgo (by simp [turnAt])
      | file contents => rfl
      | directory => rfl
  · rw [h.turn? hhere, hturn]

/-- Ways that do not end at the old file are as before: a link to it cannot be passed, since nothing
lies behind a file. -/
theorem leads (h : Replaced t t' above name content old) (hway : t.Leads n here ps there)
    (hne : there ≠ old) :
    t'.Leads n here ps there := by
  induction hway with
  | done => exact .done
  | go turn _ ih => exact .go (h.turn?_eq_go turn) (ih hne)
  | @follow n here next there piece pieces rest turn onward ih =>
    by_cases hhere : here ++ [piece] = above ++ [name]
    · exfalso
      obtain ⟨rfl, hpiece⟩ := List.append_inj' hhere rfl
      obtain rfl := (List.cons.inj hpiece).1
      obtain ⟨k, hold⟩ := h.ends turn
      obtain ⟨mid, n', hmid, hrest⟩ := onward.split
      obtain rfl := hmid.unique hold
      cases rest with
      | nil =>
        obtain rfl := hrest.of_nil
        exact hne rfl
      | cons first rest => exact absurd hrest.isDirectoryAt (by simp [h.isFile])
    · exact .follow (by rw [h.turn? hhere]; exact turn) (ih hne)

end Replaced

end FeatureForwarding.Files.Tree
