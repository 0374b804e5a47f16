import FeatureForwarding.Proofs.Toml.Legible
import FeatureForwarding.Proofs.Toml.ReadValues

/-! Blanks behind a brace. They are printed alike whether they belong to the table in braces or to its
first key, and only the latter is what is read. -/

namespace FeatureForwarding.Toml

variable {d : Decor} {preamble : String} {entries : List (Key × Value)} {v : Value} {item : Item}

namespace Value

/-- The blanks behind the brace belong to the first key. -/
def joined : Value → Value
  | .inline d false preamble ((key, .scalar d' s) :: rest) =>
    let before := preamble ++ key.decor.before.getD Surround.inlineKey.before
    .inline d false "" (({ key with decor := ⟨some before, key.decor.after⟩ }, .scalar d' s) :: rest)
  | v => v

theorem isDotted_joined (v : Value) : v.joined.isDotted = v.isDotted := by
  unfold joined
  split <;> rfl

theorem decor_joined (v : Value) : v.joined.decor = v.decor := by
  unfold joined
  split <;> rfl

theorem withoutReturns_append (text other : String) :
    withoutReturns (text ++ other) = withoutReturns text ++ withoutReturns other := by
  simp [withoutReturns]

theorem shown_joined (v : Value) : v.joined.shown = v.shown := by
  unfold joined
  split
  · next d preamble key d' s rest =>
    have hempty : withoutReturns "" = "" := rfl
    rw [shown, shown, leaves_cons, leaves_cons key]
    cases hrest : leaves rest with
    | nil =>
      simp [leaves, hempty, Leaf.inlineText, pathText, dottedTail, Decor.textBefore, Decor.textAfter,
        withoutReturns_append, String.append_assoc, Key.shown]
    | cons leaf more =>
      simp [leaves, hempty, Leaf.inlineText, pathText, dottedTail, Decor.textBefore, Decor.textAfter,
        withoutReturns_append, String.append_assoc, Key.shown]
  · rfl

/-- Where blanks stand behind the brace, the first entry is one that was put there later. -/
structure AreJoinable (preamble : String) (entries : List (Key × Value)) : Prop where
  all : AreEntries entries
  blank : IsBlank preamble
  first : entries ≠ [] → preamble = "" ∨ ∃ key d s rest, entries = (key, .scalar d s) :: rest

/-- A table in braces that got its entries later can be read once the blanks are joined. -/
theorem AreJoinable.isLegible (h : AreJoinable preamble entries) :
    (joined (.inline d false preamble entries)).IsLegible := by
  obtain ⟨h, hblank, hfirst⟩ := h
  unfold joined
  split
  · next d preamble key d' s rest heq =>
    obtain ⟨rfl, -, rfl, rfl⟩ := Value.inline.inj heq
    obtain ⟨hentry, hrest⟩ := List.forall_mem_cons.1 h.legible
    obtain ⟨hkey, haround, hv⟩ := hentry
    obtain ⟨⟨hbefore, hafter⟩, hdecor⟩ := haround rfl
    have hbefore' : IsBlank (preamble ++ key.decor.before.getD Surround.inlineKey.before) := by
      have hown : IsBlank (key.decor.before.getD Surround.inlineKey.before) := by
        cases hcases : key.decor.before with
        | none => exact isBlank_space
        | some text => exact hbefore text hcases
      intro c hc
      rw [String.toList_append, List.mem_append] at hc
      exact hc.elim (hblank c) (hown c)
    refine ⟨isLegibleIn_iff.2 (List.forall_mem_cons.2 ⟨⟨⟨hkey.spells, hkey.dots⟩,
      fun _ => ⟨⟨by simpa using hbefore', hafter⟩, hdecor⟩, hv⟩, hrest⟩), h.nodup, isBlank_empty,
        fun _ => rfl⟩
  · next hother =>
    refine ⟨isLegibleIn_iff.2 h.legible, h.nodup, hblank, fun hne => ?_⟩
    rcases hfirst hne with hempty | ⟨key, d', s, rest, rfl⟩
    · exact hempty
    · exact absurd rfl (hother d preamble key d' s rest)

theorem leaves_joined (key : Key) (v : Value) : leaves [(key, v.joined)] = leaves [(key, v)] := by
  cases hdotted : v.isDotted with
  | true =>
    cases v with
    | scalar | array => exact absurd hdotted nofun
    | inline d dotted preamble entries =>
      obtain rfl : dotted = true := hdotted
      rfl
  | false =>
    rw [leaves_singleton, leaves_singleton, pairsAt_of_isDotted_eq_false key hdotted,
      pairsAt_of_isDotted_eq_false key ((isDotted_joined v).trans hdotted)]
    simp [Pair.leaf, shown_joined]

theorem fits_joined (depth : Nat) (v : Value) : v.joined.fits depth = v.fits depth := by
  unfold joined
  split <;> rfl

theorem areJoinable_of_isLegible (h : IsLegible (.inline d false preamble entries)) :
    AreJoinable preamble entries := by
  obtain ⟨hentries, hnodup, hblank, hempty⟩ := h
  exact ⟨⟨isLegibleIn_iff.1 hentries, hnodup⟩, hblank, fun hne => .inl (hempty hne)⟩

theorem isLegible_joined (h : v.IsLegible) : v.joined.IsLegible := by
  match v with
  | .scalar _ _ | .array _ _ _ _ | .inline _ true _ _ => exact h
  | .inline _ false _ _ => exact (areJoinable_of_isLegible h).isLegible

end Value

theorem Key.MakesLine.joined {key : Key} (h : key.MakesLine v) : key.MakesLine v.joined := by
  refine ⟨h.legible, h.lead, h.behindKey, (Value.isDotted_joined v).trans h.isDotted, ?_, ?_,
    Value.isLegible_joined h.value⟩
  · rw [Value.decor_joined]
    exact h.beforeValue
  · rw [Value.decor_joined]
    exact h.tail

namespace Item

def joined : Item → Item
  | .value v => .value v.joined
  | item => item

/-- The entries with the blanks behind braces joined. -/
def joinAll (entries : List (Key × Item)) : List (Key × Item) :=
    entries.map fun entry => (entry.1, entry.2.joined)

theorem names_joinAll (entries : List (Key × Item)) : names (joinAll entries) = names entries := by
  simp [names, joinAll]

theorem leaves_joinAll (entries : List (Key × Item)) :
    Item.leaves (joinAll entries) = Item.leaves entries := by
  induction entries with
  | nil => rfl
  | cons entry rest ih =>
    obtain ⟨key, v | t | ts⟩ := entry
    · exact congrArg₂ _ (Value.leaves_joined key v) ih
    · exact congrArg (_ ++ ·) ih
    · exact ih

theorem blocks_joinAll (path : List Key) (last : Nat) (entries : List (Key × Item)) :
    Item.blocks path last (joinAll entries) = Item.blocks path last entries := by
  induction entries generalizing last with
  | nil => rfl
  | cons entry rest ih =>
    obtain ⟨key, v | t | ts⟩ := entry
    · exact ih last
    · simp only [joinAll, List.map_cons, joined, Item.blocks] at ih ⊢
      rw [ih]
    · simp only [joinAll, List.map_cons, joined, Item.blocks] at ih ⊢
      rw [ih]

theorem pieces_joinAll (entries : List (Key × Item)) :
    Item.pieces (joinAll entries) = Item.pieces entries := by
  induction entries with
  | nil => rfl
  | cons entry rest ih =>
    obtain ⟨key, v | t | ts⟩ := entry
    · exact ih
    · exact congrArg (_ ++ ·) ih
    · exact congrArg (_ ++ ·) ih

theorem allFit_joinAll (above inLine : Nat) (entries : List (Key × Item)) :
    Item.allFit above inLine (joinAll entries) = Item.allFit above inLine entries := by
  induction entries with
  | nil => rfl
  | cons entry rest ih =>
    obtain ⟨key, v | t | ts⟩ := entry
    · simp only [joinAll, List.map_cons, joined, Item.allFit, Value.fits_joined] at ih ⊢
      rw [ih]
    · exact congrArg (_ && ·) ih
    · exact congrArg (_ && ·) ih

end Item

/-- The table with the blanks behind the braces of its own entries joined. -/
def Table.joined (t : Table) : Table := t.withEntries (Item.joinAll t.entries)

theorem Table.pieces_joined (t : Table) : t.joined.pieces = t.pieces := by
  rw [Table.pieces_eq, Table.pieces_eq]
  exact Item.pieces_joinAll t.entries

def Document.joined (doc : Document) : Document := { doc with root := doc.root.joined }

theorem Document.print_joined (doc : Document) : doc.joined.print = doc.print := by
  obtain ⟨⟨origin, decor, position, entries⟩, trailing⟩ := doc
  have hblocks : Document.blocks (joined ⟨⟨origin, decor, position, entries⟩, trailing⟩) =
      Document.blocks ⟨⟨origin, decor, position, entries⟩, trailing⟩ := by
    simp only [Document.blocks, joined, Table.joined, Table.withEntries, Table.blocks,
      Item.leaves_joinAll, Item.blocks_joinAll]
  rw [Document.print, hblocks]
  rfl

theorem Document.fits_joined (doc : Document) : doc.joined.fits = doc.fits := by
  rw [Document.fits, Document.fits, Table.fits_eq, Table.fits_eq]
  exact Item.allFit_joinAll 0 0 doc.root.entries

end FeatureForwarding.Toml
