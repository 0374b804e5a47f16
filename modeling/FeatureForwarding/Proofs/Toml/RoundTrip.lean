import FeatureForwarding.Proofs.Toml.Rereading

/-! Documents that are read back from what they print. An orderly and legible document that keeps within
what is read is read as one with the same headers and lines, which prints the same text again. -/

namespace FeatureForwarding.Toml

/-! ### Sections in a row -/

/-- The first of the headers, which opens the text unless there is a line in front of it. -/
def opensAt (isFirst : Bool) (first n : Nat) : Bool := isFirst && n == first

theorem opensAt_self (isFirst : Bool) (first : Nat) : opensAt isFirst first first = isFirst := by
  simp [opensAt]

theorem opensAt_of_lt (isFirst : Bool) {first n : Nat} (h : first < n) : opensAt isFirst first n = false := by
  simp [opensAt, Nat.ne_of_gt h]

namespace Piece

variable {opens : Nat → Bool} {e : Nat × Piece} {q : Piece}

theorem numbered_asSections (isFirst : Bool) (n : Nat) (qs : List Piece) (h : opens n = isFirst)
    (hlater : ∀ k, n < k → opens k = false) :
    Table.numbered n (asSections isFirst qs) = (Table.numbered n qs).map (sectionOf opens true) := by
  induction qs generalizing n isFirst with
  | nil => rfl
  | cons q qs ih =>
    rw [asSections, Table.numbered, Table.numbered, List.map_cons, sectionOf, h,
      ih false (n + 1) (hlater _ (Nat.lt_succ_self n)) fun k hk => hlater k (Nat.lt_of_succ_lt hk)]
    rfl

/-! ### Texts -/

theorem RebuiltAs.text_eq (h : RebuiltAs opens true e q) : q.text (opens e.1) = e.2.text (opens e.1) := by
  have hbefore : q.table.decor.textBefore (surround (opens e.1)) =
      e.2.table.decor.textBefore (surround (opens e.1)) := by
    rw [h.decor, Decor.textBefore_written]
  have hafter : q.table.decor.textAfter (surround (opens e.1)) =
      e.2.table.decor.textAfter (surround (opens e.1)) := by
    rw [h.decor, Decor.textAfter_written]
  have hopening : q.opening = e.2.opening := by rw [opening, opening, h.isArray]
  have hclosing : q.closing = e.2.closing := by rw [closing, closing, h.isArray]
  rw [surround] at hbefore hafter
  rw [text, text, Block.headerText, Block.headerText, h.path.pathText_eq, h.lines, hopening, hclosing]
  simp only [hbefore, hafter]

theorem textAll_eq {ps qs : List Piece} {n : Nat} {isFirst : Bool}
    (h : List.Forall₂ (RebuiltAs opens true) (Table.numbered n ps) qs) (hfirst : opens n = isFirst)
    (hlater : ∀ k, n < k → opens k = false) : textAll isFirst qs = textAll isFirst ps := by
  induction ps generalizing n isFirst qs with
  | nil =>
    cases h
    rfl
  | cons p ps ih =>
    obtain ⟨q, qs, hq, hqs, rfl⟩ := List.forall₂_cons_left_iff.1 h
    have hhere := hq.text_eq
    dsimp only at hhere
    rw [hfirst] at hhere
    rw [textAll, textAll, hhere, ih hqs (hlater _ (Nat.lt_succ_self n)) fun k hk =>
      hlater k (Nat.lt_of_succ_lt hk)]

/-! ### The order of headers -/

/-- Headers stand in the order of their positions. -/
theorem Matches.inOrder {isTop : Bool} {ps qs : List Piece} {n : Nat}
    (h : Matches opens isTop (Table.numbered n ps) (qs.filter isShown)) (last : Nat) :
    List.Forall₂ (RebuiltAs opens isTop) (Table.numbered n ps) (inOrder last qs) := by
  obtain ⟨es, hperm, hes⟩ := h
  have hfilter : ((placed last qs).filter fun p => p.2.isShown).map Prod.snd = qs.filter isShown := by
    rw [← map_snd_placed last qs, List.filter_map, map_snd_placed]
    rfl
  rw [← hfilter, List.forall₂_map_right_iff] at hes
  -- every header is placed at its position
  have hplaced : List.Forall₂ (fun e p => RebuiltAs opens isTop e p.2 ∧ p.1 = e.1) es
      ((placed last qs).filter fun p => p.2.isShown) := by
    have hmem := (List.forall₂_and_left (R := fun p e => RebuiltAs opens isTop e p.2)
      (p := fun p => p ∈ placed last qs) _ _).2 ⟨fun p hp => List.mem_of_mem_filter hp, hes.flip⟩
    refine hmem.flip.imp fun e p hp => ⟨hp.2, (mem_placed hp.1).2 e.1 hp.2.position⟩
  obtain ⟨sorted, hsorted, hperm'⟩ := List.perm_comp_forall₂ hperm hplaced
  have hnumbers : sorted.map Prod.fst = (Table.numbered n ps).map Prod.fst := by
    rw [← List.forall₂_eq_eq_eq, List.forall₂_map_left_iff, List.forall₂_map_right_iff]
    exact (hsorted.imp fun e p hp => hp.2).flip
  have hpairwise : sorted.Pairwise fun a b => isBefore a b = true := by
    have hfirsts : ((Table.numbered n ps).map Prod.fst).Pairwise (· < ·) :=
      List.pairwise_map.2 (Table.pairwise_numbered n ps)
    rw [← hnumbers, List.pairwise_map] at hfirsts
    exact hfirsts.imp fun h => decide_eq_true h
  rw [Piece.inOrder, Text.stableSort_eq_of_perm orders_isBefore hpairwise hperm'.symm,
    List.forall₂_map_right_iff]
  exact hsorted.imp fun e p hp => hp.1

end Piece

/-! ### Documents -/

namespace Document

variable {doc again : Document}

/-- Whether a header opens the text of a document. -/
def opens (doc : Document) : Nat → Bool := opensAt doc.root.pairs.isEmpty 1

/-- The document is what was read from the text of the other one. -/
structure ReadBackFrom (doc again : Document) : Prop where
  root : again.HasPlainRoot
  entries : Item.AllRebuilt Item.Rebuilt doc.root.entries again.root.entries
  headers : List.Forall₂ (Piece.RebuiltAs doc.opens true) (Table.numbered 1 doc.printed) again.printed
  trailing : again.trailing = withoutReturns doc.trailing

theorem ReadBackFrom.print_eq (h : doc.ReadBackFrom again) (hroot : doc.HasPlainRoot)
    (htable : doc.root.IsLegible) :
    again.print = doc.print := by
  have halike := Item.pairs_rereadOwn true doc.root.entries (Table.isLegible_iff.1 htable)
  have hpairs : again.root.pairs = Item.pairs (Item.rereadOwn true doc.root.entries) := by
    rw [Table.pairs_eq, h.entries.pairs_eq]
  have hlines : Pair.lines again.root.pairs = Pair.lines doc.root.pairs := by
    rw [hpairs, halike.lines_eq, Table.pairs_eq]
  have hempty : again.root.pairs.isEmpty = doc.root.pairs.isEmpty := by
    rw [hpairs, halike.isEmpty_eq, Table.pairs_eq]
  rw [Document.print_eq h.root, Document.print_eq hroot, hlines, hempty, h.trailing,
    withoutReturns_withoutReturns,
    Piece.textAll_eq h.headers (opensAt_self _ 1) fun k hk => opensAt_of_lt _ hk]

/-- The text of an orderly document can be read, and what is read prints that text. -/
theorem IsLegible.exists_readBack (h : doc.IsLegible) (horderly : doc.root.IsOrderly) (hfits : doc.fits) :
    ∃ again, read? doc.print = some again ∧ doc.ReadBackFrom again := by
  obtain ⟨known, hknown, hnew, hstart⟩ := Table.rebuilds doc.opens true doc.root horderly h.table []
    (Table.numbered 1 doc.printed) ⟨0, Table.map_snd_numbered 1 doc.printed⟩
  obtain rfl : [] = known := congrArg Table.entries (Option.some.inj hknown)
  obtain ⟨new, hadd, hrebuilt, hmatches⟩ :=
    hstart (Table.new.withEntries (Item.rereadOwn true doc.root.entries)) rfl
  have hbody : Table.assignAll? Table.new (doc.root.pairs.map Pair.line) =
      some (Table.new.withEntries (Item.rereadOwn true doc.root.entries)) :=
    Table.assignAll?_pairs horderly true Table.new fun _ _ => rfl
  have hsections : Table.numbered 1 doc.sections =
      (Table.numbered 1 doc.printed).map (Piece.sectionOf doc.opens true) :=
    Piece.numbered_asSections _ 1 doc.printed (opensAt_self _ 1) fun k hk => opensAt_of_lt _ hk
  rw [List.nil_append] at hmatches
  refine ⟨⟨Table.new.withEntries new, withoutReturns doc.trailing⟩, ?_, ⟨rfl, rfl⟩, hrebuilt, ?_, rfl⟩
  · rw [(h.readsByLine hfits).read?, assemble?, hbody]
    simp only [Option.bind_eq_bind, Option.bind_some, Table.addSectionsFrom?_eq, hsections, hadd]
    rfl
  · exact hmatches.inOrder 0

/-- What an orderly and legible document prints is read as a document that prints the same text. -/
theorem IsLegible.print_readBack (h : doc.IsLegible) (horderly : doc.root.IsOrderly) (hfits : doc.fits) :
    ∃ again, read? doc.print = some again ∧ again.print = doc.print := by
  obtain ⟨again, hread, hback⟩ := h.exists_readBack horderly hfits
  exact ⟨again, hread, hback.print_eq h.root h.table⟩

end Document

end FeatureForwarding.Toml
