import FeatureForwarding.Proofs.Lint.Settled

/-! The canonical form without the steps that bring it about: what the fields of the package state, in
which order entries, fields and lists stand, and what is above each header. The documents in this form
are those that the canonical form leaves alone. -/

namespace FeatureForwarding

open Toml (Key Item Value Table Document find? names)

namespace Lint

variable {standards : Standards} {root : Table} {first : Option HeaderPath} {path : HeaderPath}
  {name : String} {item : Item} {fields : List (Key × Value)}

/-! ### Package fields -/

/-- The field is there, and where it is a text it is the one that is wanted. -/
def States (wanted : String) (current : Option Item) : Prop :=
  ∃ item, current = some item ∧ ∀ text, item.text? = some text → text = wanted

theorem isNeeded_eq_false_iff {wanted : String} {current : Option Item} :
    Standards.isNeeded wanted current = false ↔ States wanted current := by
  cases current with
  | none => simp [Standards.isNeeded, States]
  | some item =>
    cases htext : item.text? <;> simp [Standards.isNeeded, States, htext]

/-! ### The order of fields -/

/-- Known keys come first, as they are listed, and the others follow by name. -/
def FieldsFollow (a b : Key × Value) : Prop :=
  fieldRank a.1.name < fieldRank b.1.name ∨
    fieldRank a.1.name = fieldRank b.1.name ∧ a.1.name ≤ b.1.name

theorem fieldBefore_eq_false_iff (a b : Key × Value) : fieldBefore b a = false ↔ FieldsFollow a b := by
  simp only [fieldBefore, Bool.or_eq_false_iff, Bool.and_eq_false_imp, decide_eq_true_eq,
    decide_eq_false_iff_not, String.not_lt, FieldsFollow]
  constructor
  · rintro ⟨hle, hsame⟩
    rcases Nat.lt_or_eq_of_le (Nat.not_lt.1 hle) with hlt | heq
    · exact .inl hlt
    · exact .inr ⟨heq, hsame heq.symm⟩
  · rintro (hlt | ⟨heq, hle⟩)
    · exact ⟨by omega, fun heq => by omega⟩
    · exact ⟨by omega, fun _ => hle⟩

/-- The fields are in order, and so are those of the groups that dotted keys make. -/
inductive Ordered : List (Key × Value) → Prop
  | intro {fields : List (Key × Value)} (fields_follow : fields.Pairwise FieldsFollow)
      (groups : ∀ key decor preamble group, (key, .inline decor true preamble group) ∈ fields →
        Ordered group) : Ordered fields

theorem Ordered.sortFields (h : Ordered fields) : sortFields fields = fields := by
  induction h with
  | @intro fields follow _ ih =>
    refine sortFields_of_ordered (follow.imp fun {a b} hab => (fieldBefore_eq_false_iff a b).2 hab) ?_
    rintro ⟨key, v⟩ hentry
    match v with
    | .scalar _ _ => rfl
    | .array _ _ _ _ => rfl
    | .inline _ false _ _ => rfl
    | .inline decor true preamble group =>
      exact congrArg (Value.inline decor true preamble) (ih key decor preamble group hentry)

theorem ordered_of_groups (h : sortFields fields = fields)
    (hgroups : ∀ entry ∈ fields, ∀ decor preamble group, entry.2 = .inline decor true preamble group →
      sortDotted entry.2 = entry.2 → Ordered group) : Ordered fields := by
  have hpairwise := pairwise_sortFields fields
  rw [h] at hpairwise
  refine .intro (hpairwise.imp fun {a b} hab => (fieldBefore_eq_false_iff a b).1 hab) ?_
  intro key decor preamble group hentry
  exact hgroups _ hentry decor preamble group rfl (sortDotted_of_sortFields h _ hentry)

mutual

theorem ordered_of_sortDotted (v : Value) {decor : Toml.Decor} {preamble : String}
    {group : List (Key × Value)} (hv : v = .inline decor true preamble group)
    (h : sortDotted v = v) : Ordered group := by
  match v with
  | .inline _ true _ inner =>
    have hinner : inner = group := by injection hv
    rw [sortDotted, ← sortFields, Value.inline.injEq] at h
    exact hinner ▸ ordered_of_groups h.2.2.2 (ordered_of_mem inner)
  termination_by structural v

theorem ordered_of_mem (fields : List (Key × Value)) : ∀ entry ∈ fields,
    ∀ decor preamble group, entry.2 = .inline decor true preamble group →
      sortDotted entry.2 = entry.2 → Ordered group := by
  match fields with
  | [] => exact fun _ h => absurd h List.not_mem_nil
  | (key, v) :: rest =>
    intro entry hentry decor preamble group hv h
    rcases List.mem_cons.1 hentry with rfl | hentry
    · exact ordered_of_sortDotted v hv h
    · exact ordered_of_mem rest entry hentry decor preamble group hv h
  termination_by structural fields

end

theorem sortFields_eq_iff : sortFields fields = fields ↔ Ordered fields :=
  ⟨fun h => ordered_of_groups h (ordered_of_mem fields), Ordered.sortFields⟩

/-- An entry stays as it is if it is no inline table or has its fields in order. -/
theorem orderFields_eq_iff : orderFields item = item ↔
    ∀ decor dotted preamble fields, item = .value (.inline decor dotted preamble fields) →
      Ordered fields := by
  match item with
  | .value (.scalar _ _) => exact ⟨fun _ => nofun, fun _ => rfl⟩
  | .value (.array _ _ _ _) => exact ⟨fun _ => nofun, fun _ => rfl⟩
  | .table _ => exact ⟨fun _ => nofun, fun _ => rfl⟩
  | .tables _ => exact ⟨fun _ => nofun, fun _ => rfl⟩
  | .value (.inline decor dotted preamble fields) =>
    constructor
    · rintro h _ _ _ _ ⟨⟩
      rw [orderFields] at h
      have hfields : (if (sortFields fields).map (·.1.name) != fields.map (·.1.name) then
          unsetDecor (sortFields fields) else sortFields fields) = fields := by
        simpa only [Item.value.injEq, Value.inline.injEq, true_and] using h
      split at hfields
      · next hmoved =>
        -- layout is dropped only where the names change their places
        have hnames := names_unsetDecor (sortFields fields)
        rw [hfields] at hnames
        simp [hnames] at hmoved
      · exact sortFields_eq_iff.1 hfields
    · intro h
      simp [orderFields, (h decor dotted preamble fields rfl).sortFields]

/-! ### Sections -/

/-- Entries without a path come first, and each group is in the order of the names. -/
def EntriesFollow (a b : Key × Item) : Prop :=
  hasPath a.2 = false ∧ hasPath b.2 = true ∨ hasPath a.2 = hasPath b.2 ∧ a.1.name ≤ b.1.name

theorem entryBefore_eq_false_iff_follow (a b : Key × Item) :
    entryBefore b a = false ↔ EntriesFollow a b := by
  rw [entryBefore_eq_false_iff, EntriesFollow, and_comm, @eq_comm _ (hasPath b.2) (hasPath a.2)]

/-- The section is not empty, no entry has a header of its own, and entries and fields are in order. -/
structure IsTidy (t : Table) : Prop where
  nonempty : t.entries ≠ []
  inline : ∀ entry ∈ t.entries, isTable entry.2 = false
  entries : t.entries.Pairwise EntriesFollow
  fields : ∀ key decor dotted preamble fields,
    (key, .value (.inline decor dotted preamble fields)) ∈ t.entries → Ordered fields

theorem isOrdered_iff_isTidy {t : Table} : IsOrdered t ↔ IsTidy t := by
  constructor
  · intro h
    refine ⟨h.nonempty, h.inline, h.entries.imp fun {a b} => (entryBefore_eq_false_iff_follow a b).1, ?_⟩
    intro key decor dotted preamble fields hentry
    exact orderFields_eq_iff.1 (h.fields _ hentry) decor dotted preamble fields rfl
  · intro h
    refine ⟨h.nonempty, h.inline, fun entry hentry => orderFields_eq_iff.2 ?_,
      h.entries.imp fun {a b} => (entryBefore_eq_false_iff_follow a b).2⟩
    intro decor dotted preamble fields heq
    exact h.fields entry.1 decor dotted preamble fields (heq ▸ hentry)

/-! ### Lists -/

theorem sortTexts_eq_iff {elements : List Value} : sortTexts elements = elements ↔
    ∀ texts, texts? elements = some texts → texts.Pairwise fun a b => a ≤ b := by
  cases htexts : texts? elements with
  | none => simp [sortTexts, htexts]
  | some texts =>
    simp only [Option.some.injEq, forall_eq', sortTexts, htexts]
    split
    · next hsorted => exact iff_of_true rfl (of_decide_eq_true hsorted)
    · next hunsorted =>
      refine iff_of_false (fun h => hunsorted (decide_eq_true ?_)) fun h => hunsorted (decide_eq_true h)
      have hlength := (Text.stableSort_perm (fun a b : String => a < b) texts).length_eq.trans
        (length_texts? htexts)
      have hsame := texts?_zipWith hlength
      rw [h, htexts, Option.some.injEq] at hsame
      rw [hsame]
      exact (Text.stableSort_pairwise orders_texts texts).imp fun {a b} hab =>
        String.not_lt.1 (of_decide_eq_false hab)

/-- The entry is no list, or one that does not hold texts only, or sorted. -/
def IsSortedList (item : Item) : Prop :=
  ∀ elements, item.array? = some elements → ∀ texts, texts? elements = some texts →
    texts.Pairwise fun a b => a ≤ b

theorem sortList_eq_iff {v : Value} : sortList v = v ↔ IsSortedList (.value v) := by
  match v with
  | .scalar _ _ => exact iff_of_true rfl nofun
  | .inline _ _ _ _ => exact iff_of_true rfl nofun
  | .array decor elements comma trailing =>
    have hsorted : sortList (.array decor elements comma trailing) = .array decor elements comma trailing ↔
        sortTexts elements = elements := by
      simp [sortList]
    rw [hsorted, sortTexts_eq_iff]
    exact ⟨fun h _ heq => Option.some.inj heq ▸ h, fun h => h elements rfl⟩

theorem hasSortedLists_iff : HasSortedLists item ↔
    ∀ fields ∈ item.tableLike?, ∀ entry ∈ fields, IsSortedList entry.2 := by
  refine forall₂_congr fun fields _ => forall₂_congr fun entry _ => ?_
  constructor
  · intro h
    match hentry : entry.2 with
    | .value v => exact sortList_eq_iff.1 (h v hentry)
    | .table _ | .tables _ => exact nofun
  · intro h v hv
    exact sortList_eq_iff.2 (hv ▸ h)

/-! ### Blank lines -/

mutual

/-- The tables below a table that have headers, each with the keys that lead to it. -/
def tablesBelow (path : HeaderPath) : Table → List (HeaderPath × Table)
  | ⟨_, _, _, entries⟩ => tablesIn path entries
  termination_by structural t => t

def tablesIn (path : HeaderPath) : List (Key × Item) → List (HeaderPath × Table)
  | [] => []
  | (_, .value _) :: rest => tablesIn path rest
  | (key, .table t) :: rest =>
    let here := path ++ [key.name]
    match t.origin with
    | .dotted => tablesIn path rest
    | .implied => tablesBelow here t ++ tablesIn path rest
    | .explicit => (here, t) :: tablesBelow here t ++ tablesIn path rest
  | (key, .tables ts) :: rest => tablesOfArray path key.name 0 ts ++ tablesIn path rest
  termination_by structural entries => entries

def tablesOfArray (path : HeaderPath) (name : String) (index : Nat) :
    List Table → List (HeaderPath × Table)
  | [] => []
  | t :: ts =>
    let here := path ++ [elementName name index]
    (here, t) :: tablesBelow here t ++ tablesOfArray path name (index + 1) ts
  termination_by structural ts => ts

end

/-- What is above the header is as it should be. -/
def IsSpaced (first : Option HeaderPath) (header : HeaderPath × Table) : Prop :=
  header.2.decor.before = some (if first = some header.1 then "" else "\n")

theorem spaceHeader_eq_iff {t : Table} : spaceHeader first path (spaceBelow first path t) = t ↔
    IsSpaced first (path, t) ∧ spaceBelow first path t = t := by
  obtain ⟨origin, ⟨before, behind⟩, position, entries⟩ := t
  simp [spaceBelow, spaceHeader, IsSpaced, eq_comm]

mutual

theorem spaceBelow_eq_iff (first : Option HeaderPath) (path : HeaderPath) (t : Table) :
    spaceBelow first path t = t ↔ ∀ header ∈ tablesBelow path t, IsSpaced first header := by
  obtain ⟨_, _, _, entries⟩ := t
  have hentries := spaceIn_eq_iff first path entries
  rw [tablesBelow, ← hentries]
  simp [spaceBelow]
  termination_by structural t

theorem spaceIn_eq_iff (first : Option HeaderPath) (path : HeaderPath) (entries : List (Key × Item)) :
    spaceIn first path entries = entries ↔ ∀ header ∈ tablesIn path entries, IsSpaced first header := by
  match entries with
  | [] => exact iff_of_true rfl (by simp [tablesIn])
  | (key, .value v) :: rest =>
    have hrest := spaceIn_eq_iff first path rest
    rw [tablesIn, ← hrest]
    simp [spaceIn]
  | (key, .table t) :: rest =>
    have hbelow := spaceBelow_eq_iff first (path ++ [key.name]) t
    have hrest := spaceIn_eq_iff first path rest
    rw [spaceIn, tablesIn, List.cons_eq_cons, Prod.mk.injEq, Item.table.injEq]
    cases t.origin with
    | dotted => simp only [← hrest, true_and]
    | implied => simp only [List.forall_mem_append, ← hrest, ← hbelow, true_and]
    | explicit =>
      simp only [List.cons_append, List.forall_mem_cons, List.forall_mem_append, ← hrest, ← hbelow,
        spaceHeader_eq_iff, true_and, and_assoc]
  | (key, .tables ts) :: rest =>
    have hinner := spaceArray_eq_iff first path key.name 0 ts
    have hrest := spaceIn_eq_iff first path rest
    rw [spaceIn, tablesIn, List.forall_mem_append, ← hrest, ← hinner]
    simp
  termination_by structural entries

theorem spaceArray_eq_iff (first : Option HeaderPath) (path : HeaderPath) (name : String) (index : Nat)
    (ts : List Table) : spaceArray first path name index ts = ts ↔
      ∀ header ∈ tablesOfArray path name index ts, IsSpaced first header := by
  match ts with
  | [] => exact iff_of_true rfl (by simp [tablesOfArray])
  | t :: ts =>
    have hbelow := spaceBelow_eq_iff first (path ++ [elementName name index]) t
    have hrest := spaceArray_eq_iff first path name (index + 1) ts
    rw [spaceArray, tablesOfArray, List.cons_append, List.forall_mem_cons, List.forall_mem_append,
      ← hrest, ← hbelow, List.cons_eq_cons, spaceHeader_eq_iff, and_assoc]
  termination_by structural ts

end

/-! ### The form -/

/-- The canonical form of a document. -/
structure InForm (standards : Standards) (root : Table) : Prop where
  package : ∀ item, find? "package" root.entries = some item → ∀ fields ∈ item.tableLike?,
    States standards.edition (find? "edition" fields) ∧
      States standards.homepage (find? "homepage" fields)
  sections : ∀ name ∈ dependencySections, ∀ t, find? name root.entries = some (.table t) → IsTidy t
  features : ∀ item, find? "features" root.entries = some item → ∀ fields ∈ item.tableLike?,
    ∀ entry ∈ fields, IsSortedList entry.2
  headers : ∀ header ∈ tablesBelow [] root, IsSpaced (firstHeader root) header

theorem canonical_iff_inForm : Canonical standards root ↔ InForm standards root := by
  have hheaders := spaceBelow_eq_iff (firstHeader root) [] root
  constructor
  · intro h
    refine ⟨fun item hitem fields hfields => ?_, fun name hname t ht =>
      isOrdered_iff_isTidy.1 (h.sections name hname t ht), fun item hitem =>
        hasSortedLists_iff.1 (h.features item hitem), hheaders.1 h.headers⟩
    obtain ⟨hedition, hhomepage⟩ := h.package item hitem fields hfields
    exact ⟨isNeeded_eq_false_iff.1 hedition, isNeeded_eq_false_iff.1 hhomepage⟩
  · intro h
    refine ⟨fun item hitem fields hfields => ?_, fun name hname t ht =>
      isOrdered_iff_isTidy.2 (h.sections name hname t ht), fun item hitem =>
        hasSortedLists_iff.2 (h.features item hitem), hheaders.2 h.headers⟩
    obtain ⟨hedition, hhomepage⟩ := h.package item hitem fields hfields
    exact ⟨isNeeded_eq_false_iff.2 hedition, isNeeded_eq_false_iff.2 hhomepage⟩

/-- What comes out has the canonical form, and the documents that have it are those that stay as they
are, so that a second time changes nothing. -/
theorem inForm_normalize (standards : Standards) {doc : Document} (h : (names doc.root.entries).Nodup) :
    InForm standards (doc.normalize standards).root ∧
      (InForm standards doc.root ↔ doc.normalize standards = doc) ∧
      (doc.normalize standards).normalize standards = doc.normalize standards := by
  have hform := canonical_iff_inForm.1 (canonical_normalize standards h)
  refine ⟨hform, ⟨fun h => (canonical_iff_inForm.2 h).normalize, fun hfixed => ?_⟩,
    normalize_normalize standards h⟩
  rwa [hfixed] at hform

/-- An entry with a path in front of one without, fields and a list out of order, and no blank line. -/
def untidyText : String :=
  "[dependencies]\nb=\x7bpath=\"p\",version=\"2\"\x7d\na=\"1\"\n[features]\nstd=[\"y\",\"x\"]\n"

def tidyText : String :=
  "[dependencies]\na=\"1\"\nb=\x7b version = \"2\", path = \"p\" \x7d\n\n[features]\nstd=[\"x\",\"y\"]\n"

theorem inForm_normalize_untidy : ∃ doc, Document.read? untidyText = some doc ∧
    (names doc.root.entries).Nodup ∧ ¬ InForm {} doc.root ∧ InForm {} (doc.normalize {}).root ∧
      (doc.normalize {}).print = tidyText ∧ (doc.normalize {}).normalize {} = doc.normalize {} := by
  have htest : (Document.read? untidyText).any fun doc => decide (names doc.root.entries).Nodup &&
      doc.print != tidyText && (doc.normalize {}).print == tidyText := by
    decide +kernel
  obtain ⟨doc, hdoc, htest⟩ := (Option.any_eq_true _ _).1 htest
  simp only [Bool.and_eq_true, decide_eq_true_eq, bne_iff_ne, beq_iff_eq] at htest
  obtain ⟨⟨hnames, huntidy⟩, htidy⟩ := htest
  obtain ⟨hform, hfixed, hagain⟩ := inForm_normalize {} hnames
  refine ⟨doc, hdoc, hnames, fun h => huntidy ?_, hform, htidy, hagain⟩
  rw [← htidy, hfixed.1 h]

end Lint

end FeatureForwarding
