import FeatureForwarding.Proofs.Lint.Readable
import FeatureForwarding.Proofs.Lint.Settled

/-! Linting what lint wrote. The text that a manifest has in canonical form is read back, unless it goes on
too long, and a second run leaves it alone exactly if the text starts with the header that no blank line was
put above. -/

namespace FeatureForwarding

open Toml (Key Item Value Table Document Piece names find?)

namespace Lint

variable {standards : Standards} {doc : Document} {root : Table} {item : Item}
    {first : Option HeaderPath} {path : HeaderPath}

/-! ### Joined blanks -/

theorem spaceIn_joinAll (entries : List (Key × Item)) :
    spaceIn first path (Item.joinAll entries) = Item.joinAll (spaceIn first path entries) := by
  rw [spaceIn_eq_map, spaceIn_eq_map, Item.joinAll, Item.joinAll, List.map_map, List.map_map]
  refine List.map_congr_left fun entry _ => ?_
  obtain ⟨_, item⟩ := entry
  cases item <;> rfl

theorem spaceBelow_joined (t : Table) :
    spaceBelow first path t.joined = (spaceBelow first path t).joined := by
  obtain ⟨origin, decor, position, entries⟩ := t
  exact congrArg (Table.mk origin decor position) (spaceIn_joinAll entries)

theorem headersIn_joinAll (entries : List (Key × Item)) :
    headersIn path (Item.joinAll entries) = headersIn path entries := by
  induction entries with
  | nil => rfl
  | cons entry rest ih =>
    obtain ⟨key, v | t | ts⟩ := entry
    · exact ih
    · simp only [Item.joinAll, List.map_cons, Item.joined, headersIn] at ih ⊢
      rw [ih]
    · exact congrArg (_ ++ ·) ih

theorem headersBelow_joined (t : Table) : headersBelow path t.joined = headersBelow path t := by
  obtain ⟨_, _, _, entries⟩ := t
  exact headersIn_joinAll entries

theorem hasValues_joined (root : Table) : hasValues root.joined = hasValues root := by
  have hentries : root.joined.entries = Item.joinAll root.entries := rfl
  rw [hasValues, hasValues, hentries, Item.joinAll, List.any_map]
  refine congrArg (List.any root.entries) (funext fun entry => ?_)
  obtain ⟨_, item⟩ := entry
  cases item <;> rfl

theorem firstHeader_joined (root : Table) : firstHeader root.joined = firstHeader root := by
  have hvalues := hasValues_joined root
  rw [hasValues, hasValues] at hvalues
  rw [firstHeader, firstHeader, hvalues, headersBelow_joined]

theorem spaceHeaders_joined (root : Table) : spaceHeaders root.joined = (spaceHeaders root).joined := by
  rw [spaceHeaders, spaceHeaders, firstHeader_joined, spaceBelow_joined]

theorem startsAsRead_joined (doc : Document) : StartsAsRead doc.joined ↔ StartsAsRead doc := by
  have hprinted : doc.joined.printed = doc.printed :=
    congrArg (Piece.inOrder 0) (Table.pieces_joined doc.root)
  have hvalues : hasValues doc.joined.root = hasValues doc.root := hasValues_joined doc.root
  rw [StartsAsRead, StartsAsRead, hprinted, hvalues]

theorem hasDistinctPositions_joined (h : root.HasDistinctPositions) : root.joined.HasDistinctPositions := by
  have hcount (k : Nat) (entries : List (Key × Item)) :
      Item.countIn k (Item.joinAll entries) = Item.countIn k entries := by
    induction entries with
    | nil => rfl
    | cons entry rest ih =>
      obtain ⟨key, v | t | ts⟩ := entry
      · exact congrArg (0 + ·) ih
      · exact congrArg (_ + ·) ih
      · exact congrArg (_ + ·) ih
  intro k
  rw [Table.countBelow_eq]
  exact Nat.le_trans (Nat.le_of_eq (hcount k root.entries)) (Table.countBelow_eq k root ▸ h k)

theorem hasDistinctPositions_spaceBelow (h : root.HasDistinctPositions) :
    (spaceBelow first [] root).HasDistinctPositions := by
  intro k
  rw [Table.countBelow, spots_spaceBelow, List.countP_map]
  have hsame : Toml.Spot.isAt k ∘ spaced first [] = Toml.Spot.isAt k := by
    funext spot
    rw [Function.comp_apply, Toml.Spot.isAt, Toml.Spot.isAt, position_spaced]
  rw [hsame]
  exact h k

/-- Joined blanks are no matter for the fields of an entry. -/
theorem fields_joined (item : Item) : ∀ fields' ∈ item.joined.tableLike?, ∃ fields ∈ item.tableLike?,
    (∀ name, find? name fields' = find? name fields) ∧
    ∀ entry ∈ fields', ∃ other ∈ fields, entry.2 = other.2 := by
  intro fields' hfields'
  have hsame (h : item.joined = item) : ∃ fields ∈ item.tableLike?,
      (∀ name, find? name fields' = find? name fields) ∧
        ∀ entry ∈ fields', ∃ other ∈ fields, entry.2 = other.2 :=
    ⟨fields', h ▸ hfields', fun _ => rfl, fun entry hentry => ⟨entry, hentry, rfl⟩⟩
  match item with
  | .table _ | .tables _ | .value (.scalar _ _) | .value (.array _ _ _ _) | .value (.inline _ true _ _)
  | .value (.inline _ false _ []) | .value (.inline _ false _ ((_, .array _ _ _ _) :: _))
  | .value (.inline _ false _ ((_, .inline _ _ _ _) :: _)) => exact hsame rfl
  | .value (.inline d false preamble ((key, .scalar d' s) :: rest)) =>
    obtain rfl := Option.some.inj hfields'
    refine ⟨_, rfl, fun _ => rfl, fun entry hentry => ?_⟩
    rcases List.mem_cons.1 hentry with rfl | hentry
    · exact ⟨_, List.mem_cons_self, rfl⟩
    · exact ⟨entry, List.mem_cons_of_mem _ hentry, rfl⟩

theorem find?_joined (root : Table) (name : String) :
    find? name root.joined.entries = (find? name root.entries).map Item.joined :=
  Toml.find?_map ..

theorem Canonical.joined (h : Canonical standards root) : Canonical standards root.joined where
  package item hitem := by
    rw [Option.mem_def, find?_joined, Option.map_eq_some_iff] at hitem
    obtain ⟨old, hold, rfl⟩ := hitem
    intro fields' hfields'
    obtain ⟨fields, hfields, hfind, -⟩ := fields_joined old fields' hfields'
    rw [hfind, hfind]
    exact h.package old hold fields hfields
  sections name hname t ht := by
    rw [find?_joined, Option.map_eq_some_iff] at ht
    obtain ⟨old, hold, hjoined⟩ := ht
    cases old with
    | table t' =>
      obtain rfl : t' = t := Item.table.inj hjoined
      exact h.sections name hname t' hold
    | value v => exact absurd hjoined nofun
    | tables _ => exact absurd hjoined nofun
  features item hitem := by
    rw [Option.mem_def, find?_joined, Option.map_eq_some_iff] at hitem
    obtain ⟨old, hold, rfl⟩ := hitem
    intro fields' hfields' entry hentry v hv
    obtain ⟨fields, hfields, -, hall⟩ := fields_joined old fields' hfields'
    obtain ⟨other, hother, heq⟩ := hall entry hentry
    exact h.features old hold fields hfields other hother v (heq ▸ hv)
  headers := by rw [spaceHeaders_joined, h.headers]

/-! ### What lint writes -/

theorem IsNewPackage.spaced {q : Piece} (hclosed : root.HasClosedGroups) (hq : q ∈ root.pieces)
    (h : IsNewPackage q) :
    IsNewPackage (q.spaced first path) := by
  refine ⟨h.steps, h.isArray, (Piece.origin_spaced first path q).trans h.origin, ?_, ?_⟩
  · rw [Piece.decor_spaced first path q h.isHeader_eq_false]
    exact h.before
  · rw [Table.pieces_eq] at hq
    obtain ⟨key, hentry, -, -⟩ := exists_of_steps hq h.steps
    have hbelow : q.table.HasClosedGroups :=
      (Item.haveClosedGroups_iff.1 (Table.hasClosedGroups_eq root ▸ hclosed) _ hentry).2
    obtain ⟨below, hmem, hheader, hposition⟩ := h.leads
    refine ⟨below.spaced first (path ++ q.labels), ?_, ?_, ?_⟩
    · rw [Piece.spaced, if_neg (by simp [h.isHeader_eq_false]), pieces_spaceBelow _ _ _ hbelow]
      exact List.mem_map_of_mem hmem
    · rwa [Piece.isHeader_spaced]
    · rwa [Piece.position_spaced]

theorem IsNewHeader.spaced {q : Piece} (hclosed : root.HasClosedGroups) (hq : q ∈ root.pieces)
    (h : IsNewHeader q) :
    IsNewHeader (q.spaced first path) := by
  refine ⟨h.steps, (Piece.position_spaced first path q).trans h.position, ?_⟩
  rw [Piece.isHeader_spaced]
  exact h.kind.imp_right (IsNewPackage.spaced hclosed hq)

theorem hasPlainRoot_arranged (standards : Standards) (h : doc.HasPlainRoot) :
    (arranged standards doc.root).origin = .explicit ∧ (arranged standards doc.root).position = none := by
  have hsection (root : Table) (name : String) : (orderSectionAt root name).origin = root.origin ∧
      (orderSectionAt root name).position = root.position := by
    unfold orderSectionAt
    split
    · split <;> exact ⟨rfl, rfl⟩
    · exact ⟨rfl, rfl⟩
  have hfirst := hsection (standards.apply doc.root) "dependencies"
  have hsecond := hsection (orderSectionAt (standards.apply doc.root) "dependencies") "dev-dependencies"
  exact ⟨hsecond.1.trans (hfirst.1.trans h.origin), hsecond.2.trans (hfirst.2.trans h.position)⟩

/-- A section that can be written with a header that was not read: the table is only implied. -/
def isImpliedSection (entry : Key × Item) : Bool :=
  match entry.2 with
  | .table t => t.origin = .implied && ("package" :: dependencySections).contains entry.1.name
  | _ => false

/-- The names of such sections. -/
def IsImpliedIn (doc : Document) (name : String) : Prop :=
  ∃ entry ∈ doc.root.entries, isImpliedSection entry ∧ entry.1.name = name

section

variable (hbuilt : doc.IsBuilt) (hapart : doc.root.KeepsApart)

include hbuilt hapart

/-- The entries of a document that was read can be read again. -/
theorem isReadable_of_built : ∀ entry ∈ doc.root.entries, IsReadable (IsImpliedIn doc) entry := by
  obtain ⟨next, htable⟩ := hbuilt.table
  have hlegible := Table.isLegible_iff.1 hbuilt.isLegible.table
  obtain ⟨-, horderly⟩ :=
    Table.isOrderly_iff.1 (Table.IsBuilt.isOrderly doc.root 1 next htable hapart.groups
      hapart.lines)
  intro entry hentry
  refine ⟨Item.areLegible_iff.1 hlegible entry hentry, Item.areOrderly_iff.1 horderly entry hentry,
    fun q hq hshown => .inl ?_⟩
  have hpiece : q ∈ doc.root.pieces := by
    rw [Table.pieces_eq]
    exact Item.mem_pieces_iff.2 ⟨entry, hentry, hq⟩
  rcases Table.IsBuilt.isPlaced doc.root 1 next htable q hpiece with ⟨hexplicit, n, hn, -⟩ |
    ⟨himplied, harray, -⟩
  · exact ⟨by simp [Piece.isHeader, hexplicit], Option.isSome_of_mem hn⟩
  · simp [Piece.isShown, himplied, harray, hapart.lines q hpiece himplied] at hshown

/-- A table of the root that is only implied leads to a header of the text. -/
theorem leadsToHeader_of_built {key : Key} {t : Table} (hentry : (key, .table t) ∈ doc.root.entries)
    (himplied : t.origin = .implied) : LeadsToHeader t := by
  have hreadable := isReadable_of_built hbuilt hapart _ hentry
  have hpieces : Item.pieces [(key, .table t)] =
      ⟨[.key key.name], key, [], false, t⟩ :: t.pieces.map (Piece.under key (.key key.name)) := by
    simp [Item.pieces, Piece.ofTable, himplied]
  have hlines : t.pairs = [] := by
    refine hapart.lines ⟨[.key key.name], key, [], false, t⟩ ?_ himplied
    rw [Table.pieces_eq]
    exact Item.mem_pieces_iff.2 ⟨_, hentry, hpieces ▸ List.mem_cons_self⟩
  obtain ⟨hplace, -⟩ := hreadable.orderly
  rw [if_neg (by simp [himplied])] at hplace
  obtain ⟨q, hq, hshown⟩ := hplace.leads himplied hlines
  have hbelow : q.under key (.key key.name) ∈ Item.pieces [(key, .table t)] :=
    hpieces ▸ List.mem_cons_of_mem _ (List.mem_map_of_mem hq)
  rcases hreadable.shown _ hbelow hshown with hread | ⟨-, hnew⟩
  · exact ⟨q, hq, hread⟩
  · obtain ⟨name, -, hsteps⟩ := hnew.steps
    exact absurd (List.cons.inj hsteps).2 (steps_ne_nil (Table.pieces_eq t ▸ hq))

variable (hends : ∀ entry ∈ doc.root.entries, isImpliedSection entry → entry.1.EndsHeader)

include hends

omit hapart in
theorem canShow_of_built {key : Key} {t : Table} (hentry : (key, .table t) ∈ doc.root.entries)
    (hname : key.name ∈ "package" :: dependencySections) (himplied : t.origin = .implied) :
    t.decor.before = none ∧ CanShow (IsImpliedIn doc) key t := by
  obtain ⟨next, htable⟩ := hbuilt.table
  obtain ⟨⟨-, hstands⟩, -⟩ := (Table.isBuilt_iff.1 htable).2 _ hentry
  obtain ⟨-, hdecor, hposition⟩ := hstands.implied himplied
  have hsection : isImpliedSection (key, .table t) := by simp [isImpliedSection, himplied, hname]
  have hplain : ∀ name ∈ "package" :: dependencySections, '[' ∉ name.toList := by decide
  have hends : key.EndsHeader := hends (key, .table t) hentry hsection
  have hnew : IsImpliedIn doc key.name := ⟨(key, .table t), hentry, hsection, rfl⟩
  exact ⟨by rw [hdecor], hends, hnew, hplain key.name hname, hposition⟩

theorem isReadable_normalized (standards : Standards) :
    ∀ entry ∈ (arranged standards doc.root).joined.entries, IsReadable (IsImpliedIn doc) entry := by
  refine isReadable_arranged standards (isReadable_of_built hbuilt hapart)
    (fun entry hentry hname t ht himplied => ?_)
    fun entry hentry hname t ht himplied => ?_
  all_goals
    obtain ⟨key, item⟩ := entry
    obtain rfl : item = .table t := ht
  · obtain ⟨hbefore, hshow⟩ := canShow_of_built hbuilt hends hentry (List.mem_cons.2 (.inl hname)) himplied
    exact ⟨hshow, hbefore, leadsToHeader_of_built hbuilt hapart hentry himplied⟩
  · exact (canShow_of_built hbuilt hends hentry (List.mem_cons_of_mem _ hname) himplied).2

theorem isOrderly_arranged (standards : Standards) : (arranged standards doc.root).joined.IsOrderly := by
  obtain ⟨next, htable⟩ := hbuilt.table
  obtain ⟨hnodup, -⟩ := Table.isBuilt_iff.1 htable
  refine Table.isOrderly_iff.2 ⟨?_, Item.areOrderly_iff.2 fun entry hentry =>
    (isReadable_normalized hbuilt hapart hends standards entry hentry).orderly⟩
  have hnames : names (arranged standards doc.root).joined.entries =
      names (arranged standards doc.root).entries :=
    Item.names_joinAll _
  rw [hnames]
  exact (allWithin_arranged standards doc.root).names hnodup

omit hbuilt hapart hends in
theorem root_normalized (standards : Standards) (doc : Document) :
    (doc.normalize standards).joined.root = spaceHeaders (arranged standards doc.root).joined :=
  (spaceHeaders_joined _).symm

theorem isLegible_normalized (standards : Standards) : (doc.normalize standards).joined.IsLegible := by
  obtain ⟨horigin, hposition⟩ := hasPlainRoot_arranged standards hbuilt.root
  refine ⟨⟨?_, ?_⟩, ?_, hbuilt.trailing⟩
  · rw [root_normalized]
    exact (origin_spaceBelow _).trans horigin
  · rw [root_normalized]
    exact (position_spaceBelow _).trans hposition
  · rw [root_normalized]
    exact isLegible_spaceBelow _ [] _ (Table.isLegible_iff.2 (Item.areLegible_iff.2 fun entry hentry =>
      (isReadable_normalized hbuilt hapart hends standards entry hentry).legible))

theorem isOrderly_normalized (standards : Standards) : (doc.normalize standards).joined.root.IsOrderly := by
  rw [root_normalized]
  exact isOrderly_spaceBelow _ [] _ (isOrderly_arranged hbuilt hapart hends standards)

/-- Every header that lint writes was read or belongs to an implied section. -/
theorem shown_normalized (standards : Standards) {q : Piece}
    (hq : q ∈ (doc.normalize standards).joined.root.pieces)
    (hshown : q.isShown) : q.isHeader ∧ q.table.position.isSome ∨
    (∃ name, IsImpliedIn doc name) ∧ IsNewHeader q := by
  have hclosed := Table.IsOrderly.hasClosedGroups _ (isOrderly_arranged hbuilt hapart hends standards)
  rw [root_normalized, spaceHeaders, pieces_spaceBelow _ [] _ hclosed] at hq
  obtain ⟨old, hold, rfl⟩ := List.mem_map.1 hq
  rw [isShown_spaced] at hshown
  have hpiece := hold
  rw [Table.pieces_eq] at hold
  obtain ⟨entry, hentry, hold⟩ := Item.mem_pieces_iff.1 hold
  rw [Piece.isHeader_spaced, Piece.position_spaced]
  rcases (isReadable_normalized hbuilt hapart hends standards entry hentry).shown old hold
    hshown with hread | ⟨hname, hnew⟩
  · exact .inl hread
  · exact .inr ⟨⟨_, hname⟩, hnew.spaced hclosed hpiece⟩

theorem startsAsRead_normalized (standards : Standards) (h : ∀ name, ¬ IsImpliedIn doc name) :
    StartsAsRead (doc.normalize standards) := by
  rw [← startsAsRead_joined]
  intro _ q hhead
  obtain ⟨hq, hshown⟩ := Piece.mem_inOrder (List.mem_of_mem_head? hhead)
  rcases shown_normalized hbuilt hapart hends standards hq hshown with ⟨-, hread⟩ | ⟨⟨name, hname⟩, -⟩
  · exact hread
  · exact absurd hname (h name)

/-- The text that lint gives a document is read back, and lint leaves it alone exactly if it does not start
with a new header. -/
theorem exists_readBack_normalized (standards : Standards) (hdistinct : doc.root.HasDistinctPositions)
    (hfits : (doc.normalize standards).fits) :
    ∃ again, Document.read? (doc.normalize standards).print = some again ∧
      again.print = (doc.normalize standards).print ∧
      ((again.normalize standards).print = (doc.normalize standards).print ↔
      StartsAsRead (doc.normalize standards)) := by
  obtain ⟨next, htable⟩ := hbuilt.table
  have hlegible := isLegible_normalized hbuilt hapart hends standards
  have horderly := isOrderly_normalized hbuilt hapart hends standards
  have hcanonical := (canonical_normalize standards (Table.isBuilt_iff.1 htable).1).joined
  have hheaders : HasSettledHeaders (doc.normalize standards).joined := fun q hq hshown =>
    (shown_normalized hbuilt hapart hends standards hq hshown).imp_right And.right
  have hpositions : (doc.normalize standards).joined.root.HasDistinctPositions := by
    rw [root_normalized]
    exact hasDistinctPositions_spaceBelow
      (hasDistinctPositions_joined (hasDistinctPositions_arranged standards hdistinct))
  rw [← Document.fits_joined] at hfits
  obtain ⟨again, hread, hback⟩ := hlegible.exists_readBack horderly hfits
  have hsettled := print_normalize_readBack_iff hheaders hcanonical horderly hpositions hlegible hback
  have hprint := hback.print_eq hlegible.root hlegible.table
  rw [Document.print_joined] at hread hprint hsettled
  rw [startsAsRead_joined] at hsettled
  exact ⟨again, hread, hprint, hsettled⟩

end

/-! ### Manifests -/

/-- Enough for what lint writes to be read back as it is: dotted keys and headers do not share tables, no blanks
stand in front of a dot behind the key of an implied section, and neither keys nor brackets go on too long. -/
structure StaysLegible (standards : Standards) (m : Manifest) : Prop where
  apart : m.document.root.KeepsApart
  ends : ∀ entry ∈ m.document.root.entries, isImpliedSection entry → entry.1.EndsHeader
  fits : (m.normalize standards).document.fits

instance (standards : Standards) (m : Manifest) : Decidable (StaysLegible standards m) :=
  decidable_of_iff (m.document.root.KeepsApart ∧
      (∀ entry ∈ m.document.root.entries, isImpliedSection entry → entry.1.EndsHeader) ∧
      (m.normalize standards).document.fits)
    ⟨fun h => ⟨h.1, h.2.1, h.2.2⟩, fun h => ⟨h.apart, h.ends, h.fits⟩⟩

/-- The text that lint writes is read back and printed as it is. A second lint leaves it alone exactly if it
starts with a line or with a header that was there before, which it does where neither the package nor a
section of dependencies is only implied. -/
theorem lint_again_on_disk (standards : Standards) {path : Files.Path} {text : String} {m : Manifest}
    (hread : Manifest.read? path text = some m) (hlegible : StaysLegible standards m) :
    ∃ again, Manifest.read? path (m.normalize standards).render = some again ∧ again.isModified = false ∧
      ((again.normalize standards).render = (m.normalize standards).render ↔
        StartsAsRead (m.normalize standards).document) ∧
      ((again.normalize standards).isModified = false ↔ StartsAsRead (m.normalize standards).document) ∧
      ((∀ entry ∈ m.document.root.entries, isImpliedSection entry = false) →
        StartsAsRead (m.normalize standards).document) := by
  have hdistinct := Manifest.hasDistinctPositions_read? hread
  obtain ⟨doc, hdoc, rfl⟩ := Option.map_eq_some_iff.1 hread
  obtain ⟨hapart, hends, hfits⟩ := hlegible
  have hbuilt := Document.isBuilt_read? hdoc
  obtain ⟨again, hagain, hprint, hsettled⟩ :=
    exists_readBack_normalized hbuilt hapart hends standards hdistinct hfits
  refine ⟨⟨path, (doc.normalize standards).print, again⟩, ?_, ?_, hsettled, ?_, fun hnone => ?_⟩
  · exact Option.map_eq_some_iff.2 ⟨again, hagain, rfl⟩
  · exact bne_eq_false_iff_eq.2 hprint
  · exact bne_eq_false_iff_eq.trans hsettled
  · refine startsAsRead_normalized hbuilt hapart hends standards fun name => ?_
    rintro ⟨entry, hentry, hsection, -⟩
    rw [hnone entry hentry] at hsection
    exact Bool.false_ne_true hsection

/-- An implied section that becomes visible behind another header does no harm, but a package that becomes
visible above the header that opened the text does. -/
theorem lint_again_on_disk_implied :
    (∃ m again, Manifest.read? ⟨"a"⟩ "[a]\nx = 1\n[dependencies.foo]\nversion = \"1\"\n" = some m ∧
      StaysLegible {} m ∧ Manifest.read? ⟨"a"⟩ (m.normalize {}).render = some again ∧
      (again.normalize {}).isModified = false) ∧
    ∃ m again, Manifest.read? ⟨"a"⟩ "[package.metadata]\nk = 1\n" = some m ∧
      StaysLegible {} m ∧ Manifest.read? ⟨"a"⟩ (m.normalize {}).render = some again ∧
      (again.normalize {}).isModified = true := by
  constructor
  · have htest : (Manifest.read? ⟨"a"⟩ "[a]\nx = 1\n[dependencies.foo]\nversion = \"1\"\n").any fun m =>
        decide (StaysLegible {} m) && decide (StartsAsRead (m.normalize {}).document) := by
      decide +kernel
    obtain ⟨m, hread, htest⟩ := (Option.any_eq_true _ _).1 htest
    obtain ⟨hlegible, hstarts⟩ : StaysLegible {} m ∧ StartsAsRead (m.normalize {}).document := by
      simpa using htest
    obtain ⟨again, hagain, -, -, hsilent, -⟩ := lint_again_on_disk {} hread hlegible
    exact ⟨m, again, hread, hlegible, hagain, hsilent.2 hstarts⟩
  · have htest : (Manifest.read? ⟨"a"⟩ "[package.metadata]\nk = 1\n").any fun m =>
        decide (StaysLegible {} m) && !decide (StartsAsRead (m.normalize {}).document) := by
      decide +kernel
    obtain ⟨m, hread, htest⟩ := (Option.any_eq_true _ _).1 htest
    obtain ⟨hlegible, hstarts⟩ : StaysLegible {} m ∧ ¬ StartsAsRead (m.normalize {}).document := by
      simpa using htest
    obtain ⟨again, hagain, -, -, hsilent, -⟩ := lint_again_on_disk {} hread hlegible
    exact ⟨m, again, hread, hlegible, hagain, by simpa using mt hsilent.1 hstarts⟩

end Lint

end FeatureForwarding
