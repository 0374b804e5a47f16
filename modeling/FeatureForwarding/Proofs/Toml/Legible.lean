import FeatureForwarding.Proofs.Toml.Lines

/-! Documents whose text can be read line by line: every key is spelled as its name, nothing but blanks and
comments stands around nodes, and neither brackets nor keys go on too long. -/

namespace FeatureForwarding.Toml

open Lexeme

/-! ### Legible tables -/

/-- The key and the value make up a line. -/
structure Key.MakesLine (key : Key) (v : Value) : Prop where
  legible : key.IsLegible
  lead : key.decor.IsLead
  behindKey : ∀ text ∈ key.decor.after, IsBlank text
  isDotted : v.isDotted = false
  beforeValue : ∀ text ∈ v.decor.before, IsBlank text
  tail : v.decor.EndsLine
  value : v.IsLegible

/-- The text around a header. -/
structure Decor.IsAroundHeader (d : Decor) : Prop where
  lead : d.IsLead
  tail : d.EndsLine

mutual

/-- The lines of the table and what is below it can be read, as long as nothing goes on too long. -/
def Table.IsLegible : Table → Prop
  | ⟨_, _, _, entries⟩ => Item.AreLegible entries
  termination_by structural t => t

def Item.AreLegible : List (Key × Item) → Prop
  | [] => True
  | (key, .value v) :: rest => key.MakesLine v ∧ Item.AreLegible rest
  | (key, .table t) :: rest =>
    (key.IsLegible ∧ (t.origin ≠ .dotted → key.decor.IsBlank ∧ t.decor.IsAroundHeader)) ∧ t.IsLegible ∧
      Item.AreLegible rest
  | (key, .tables ts) :: rest =>
    (key.IsLegible ∧ key.decor.IsBlank) ∧ Table.AreLegible ts ∧ Item.AreLegible rest
  termination_by structural entries => entries

def Table.AreLegible : List Table → Prop
  | [] => True
  | t :: ts => t.decor.IsAroundHeader ∧ t.IsLegible ∧ Table.AreLegible ts
  termination_by structural ts => ts

end

mutual

/-- Whether the headers below some keys and the lines below some keys of a header stay within what is read. -/
def Table.fits (above inLine : Nat) : Table → Bool
  | ⟨_, _, _, entries⟩ => Item.allFit above inLine entries
  termination_by structural t => t

def Item.allFit (above inLine : Nat) : List (Key × Item) → Bool
  | [] => true
  | (_, .value v) :: rest =>
    (inLine + 1 < keyPartLimit && v.fits (Reading.nestingLimit - 1)) && Item.allFit above inLine rest
  | (_, .table t) :: rest =>
    (above + 1 < keyPartLimit && t.fits (above + 1) (if t.origin = .dotted then inLine + 1 else 0))
      && Item.allFit above inLine rest
  | (_, .tables ts) :: rest =>
    (above + 1 < keyPartLimit && Table.allFit (above + 1) ts) && Item.allFit above inLine rest
  termination_by structural entries => entries

def Table.allFit (above : Nat) : List Table → Bool
  | [] => true
  | t :: ts => t.fits above 0 && Table.allFit above ts
  termination_by structural ts => ts

end

variable {key : Key} {t : Table} {entries : List (Key × Item)} {p : Pair} {q : Piece}

theorem Table.isLegible_iff : t.IsLegible ↔ Item.AreLegible t.entries := by
  cases t
  rw [IsLegible]

theorem Item.areLegible_cons {entry : Key × Item} :
    Item.AreLegible (entry :: entries) ↔ Item.AreLegible [entry] ∧ Item.AreLegible entries := by
  obtain ⟨key, _ | _ | _⟩ := entry <;> simp [Item.AreLegible, and_assoc]

theorem Item.areLegible_iff : Item.AreLegible entries ↔ ∀ entry ∈ entries, Item.AreLegible [entry] := by
  induction entries with
  | nil => simp [Item.AreLegible]
  | cons entry rest ih => rw [Item.areLegible_cons, List.forall_mem_cons, ih]

theorem Table.fits_eq (above inLine : Nat) (t : Table) :
    t.fits above inLine = Item.allFit above inLine t.entries := by
  cases t
  rw [fits]

/-! ### Lines -/

theorem Pair.ReadsAsLine.under (hkey : key.IsLegible) (hp : p.ReadsAsLine)
    (hlimit : p.keys.length + 2 < keyPartLimit) :
    (p.under key).ReadsAsLine where
  keys := List.forall_mem_cons.2 ⟨hkey, hp.keys⟩
  limit := hlimit
  lead := hp.lead
  behindKey := hp.behindKey
  isDotted := hp.isDotted
  beforeValue := hp.beforeValue
  tail := hp.tail
  value := hp.value

mutual

theorem Table.readsAsLine (above inLine : Nat) (t : Table) (h : t.IsLegible) (hfits : t.fits above inLine) :
    ∀ p ∈ t.pairs, p.ReadsAsLine ∧ inLine + p.keys.length + 1 < keyPartLimit := by
  obtain ⟨_, _, _, entries⟩ := t
  rw [Table.pairs]
  exact Item.readsAsLine above inLine entries h hfits
  termination_by structural t

theorem Item.readsAsLine (above inLine : Nat) (entries : List (Key × Item)) (h : Item.AreLegible entries)
    (hfit : Item.allFit above inLine entries) :
    ∀ p ∈ Item.pairs entries, p.ReadsAsLine ∧ inLine + p.keys.length + 1 < keyPartLimit := by
  match entries with
  | [] => simp [Item.pairs]
  | (key, .value v) :: rest =>
    obtain ⟨hline, hrest⟩ := h
    obtain ⟨hhere, hfit⟩ := Bool.and_eq_true_iff.1 hfit
    obtain ⟨hlimit, hfits⟩ := Bool.and_eq_true_iff.1 hhere
    have hlimit : inLine + 1 < keyPartLimit := of_decide_eq_true hlimit
    rw [Item.pairs, Value.pairsAt_of_isDotted_eq_false key hline.isDotted, List.forall_mem_append,
      List.forall_mem_singleton]
    exact ⟨⟨⟨List.forall_mem_singleton.2 hline.legible,
      Nat.lt_of_le_of_lt (Nat.le_add_left ..) hlimit, hline.lead,
      hline.behindKey, hline.isDotted, hline.beforeValue, hline.tail,
      Value.readsBack_valueWithin _ v hline.value hfits⟩, hlimit⟩,
        Item.readsAsLine above inLine rest hrest hfit⟩
  | (key, .table t) :: rest =>
    obtain ⟨⟨hkey, -⟩, ht, hrest⟩ := h
    obtain ⟨hhere, hfit⟩ := Bool.and_eq_true_iff.1 hfit
    obtain ⟨-, hfits⟩ := Bool.and_eq_true_iff.1 hhere
    rw [Item.pairs, List.forall_mem_append]
    refine ⟨?_, Item.readsAsLine above inLine rest hrest hfit⟩
    split
    · next hdotted =>
      rw [if_pos hdotted] at hfits
      have hbelow := Table.readsAsLine (above + 1) (inLine + 1) t ht hfits
      rw [List.forall_mem_map]
      intro p hp
      obtain ⟨hp, hlimit⟩ := hbelow p hp
      have hlength : (p.under key).keys.length = p.keys.length + 1 := rfl
      exact ⟨hp.under hkey (by omega), by omega⟩
    · simp
  | (_, .tables _) :: rest =>
    obtain ⟨-, -, hrest⟩ := h
    obtain ⟨-, hfit⟩ := Bool.and_eq_true_iff.1 hfit
    rw [Item.pairs]
    exact Item.readsAsLine above inLine rest hrest hfit
  termination_by structural entries

end

/-! ### Headers -/

theorem Piece.ReadsAsSection.under (hkey : key.IsLegible) (step : Step) (hq : q.ReadsAsSection)
    (hlimit : q.keys.length + 2 < keyPartLimit) : (q.under key step).ReadsAsSection where
  keys := List.forall_mem_cons.2 ⟨hkey, hq.keys⟩
  limit := hlimit
  around := hq.around
  lead := hq.lead
  tail := hq.tail
  pairs := hq.pairs

/-- The header of a table below some keys, and those below it. -/
theorem Piece.readsAsSection_table {above : Nat} {step : Step} {isArray : Bool} (hkey : key.IsLegible)
    (hheader : t.origin ≠ .dotted → key.decor.IsBlank ∧ t.decor.IsAroundHeader) (ht : t.IsLegible)
    (hlimit : above + 1 < keyPartLimit) (hfits : t.origin ≠ .dotted → t.fits (above + 1) 0)
    (hbelow : ∀ q ∈ t.pieces, q.ReadsAsSection ∧ above + 1 + q.keys.length + 1 < keyPartLimit) :
    ∀ q ∈ Piece.ofTable key step isArray t ++ t.pieces.map (Piece.under key step),
      q.ReadsAsSection ∧ above + q.keys.length + 1 < keyPartLimit := by
  rw [List.forall_mem_append, List.forall_mem_map]
  constructor
  · rw [Piece.ofTable]
    split
    · simp
    · next hdotted =>
      obtain ⟨hdecor, haround⟩ := hheader hdotted
      exact List.forall_mem_singleton.2 ⟨⟨List.forall_mem_singleton.2 hkey,
        Nat.lt_of_le_of_lt (Nat.le_add_left ..) hlimit, hdecor, haround.lead, haround.tail,
        fun p hp => (Table.readsAsLine (above + 1) 0 t ht (hfits hdotted) p hp).1⟩, hlimit⟩
  · intro q hq
    obtain ⟨hq, hlimit⟩ := hbelow q hq
    have hlength : (q.under key step).keys.length = q.keys.length + 1 := rfl
    exact ⟨hq.under hkey step (by omega), by omega⟩

mutual

theorem Table.readsAsSection (above inLine : Nat) (t : Table) (h : t.IsLegible)
    (hfits : t.fits above inLine) :
    ∀ q ∈ t.pieces, q.ReadsAsSection ∧ above + q.keys.length + 1 < keyPartLimit := by
  obtain ⟨_, _, _, entries⟩ := t
  rw [Table.pieces]
  exact Item.readsAsSection above inLine entries h hfits
  termination_by structural t

theorem Item.readsAsSection (above inLine : Nat) (entries : List (Key × Item)) (h : Item.AreLegible entries)
    (hfit : Item.allFit above inLine entries) :
    ∀ q ∈ Item.pieces entries, q.ReadsAsSection ∧ above + q.keys.length + 1 < keyPartLimit := by
  match entries with
  | [] => simp [Item.pieces]
  | (_, .value _) :: rest =>
    obtain ⟨-, hfit⟩ := Bool.and_eq_true_iff.1 hfit
    exact Item.readsAsSection above inLine rest h.2 hfit
  | (key, .table t) :: rest =>
    obtain ⟨⟨hkey, hheader⟩, ht, hrest⟩ := h
    obtain ⟨hhere, hfit⟩ := Bool.and_eq_true_iff.1 hfit
    obtain ⟨hlimit, hfits⟩ := Bool.and_eq_true_iff.1 hhere
    rw [Item.pieces, List.forall_mem_append]
    refine ⟨?_, Item.readsAsSection above inLine rest hrest hfit⟩
    exact Piece.readsAsSection_table hkey hheader ht (of_decide_eq_true hlimit)
      (fun hdotted => by rwa [if_neg hdotted] at hfits) (Table.readsAsSection (above + 1) _ t ht hfits)
  | (key, .tables ts) :: rest =>
    obtain ⟨⟨hkey, hdecor⟩, hts, hrest⟩ := h
    obtain ⟨hhere, hfit⟩ := Bool.and_eq_true_iff.1 hfit
    obtain ⟨hlimit, hfits⟩ := Bool.and_eq_true_iff.1 hhere
    rw [Item.pieces, List.forall_mem_append]
    exact ⟨Table.readsAsSectionOfArray above key hkey hdecor (of_decide_eq_true hlimit) 0 ts hts hfits,
      Item.readsAsSection above inLine rest hrest hfit⟩
  termination_by structural entries

theorem Table.readsAsSectionOfArray (above : Nat) (key : Key) (hkey : key.IsLegible)
    (hdecor : key.decor.IsBlank)
    (hlimit : above + 1 < keyPartLimit) (index : Nat) (ts : List Table) (h : Table.AreLegible ts)
    (hfit : Table.allFit (above + 1) ts) :
    ∀ q ∈ Table.piecesOfArray key index ts, q.ReadsAsSection ∧ above + q.keys.length + 1 < keyPartLimit := by
  match ts with
  | [] => simp [Table.piecesOfArray]
  | t :: ts =>
    obtain ⟨haround, ht, hts⟩ := h
    obtain ⟨hfits, hfit⟩ := Bool.and_eq_true_iff.1 hfit
    rw [Table.piecesOfArray, List.forall_mem_append]
    exact ⟨Piece.readsAsSection_table hkey (fun _ => ⟨hdecor, haround⟩) ht hlimit (fun _ => hfits)
      (Table.readsAsSection (above + 1) 0 t ht hfits),
      Table.readsAsSectionOfArray above key hkey hdecor hlimit (index + 1) ts hts hfit⟩
  termination_by structural ts

end

namespace Document

variable {doc : Document}

/-- The document can be read as it is printed, as long as nothing goes on too long. -/
structure IsLegible (doc : Document) : Prop where
  root : doc.HasPlainRoot
  table : doc.root.IsLegible
  trailing : IsTrailing (withoutReturns doc.trailing)

def fits (doc : Document) : Bool := doc.root.fits 0 0

theorem mem_printed {q : Piece} (h : q ∈ doc.printed) : q ∈ doc.root.pieces := (Piece.mem_inOrder h).1

theorem IsLegible.readsByLine (h : doc.IsLegible) (hfits : doc.fits) : doc.ReadsByLine where
  root := h.root
  body p hp := (Table.readsAsLine 0 0 doc.root h.table hfits p hp).1
  sections q hq := (Table.readsAsSection 0 0 doc.root h.table hfits q (mem_printed hq)).1
  trailing := h.trailing

end Document

end FeatureForwarding.Toml
