import FeatureForwarding.Proofs.Toml.Regrouping

/-! Values and lines that were read back are printed as they were printed before: texts that were left to
the printer have become texts of their own. -/

namespace FeatureForwarding.Toml

variable {unset : Surround} {isTop : Bool} {key key' first first' : Key} {keys keys' : List Key} {p p' : Pair}

/-! ### Paths -/

/-- The last key of a path. -/
def lastKey (first : Key) (keys : List Key) : Key := (first :: keys).getLast (List.cons_ne_nil first keys)

/-- The paths are printed alike; the text in front of the first key only counts behind a dot. -/
structure PathsAlike (unset : Surround) (isTop : Bool) (first : Key) (keys : List Key) (first' : Key)
    (keys' : List Key) : Prop where
  outer : (lastKey first' keys').decor.textBefore unset = (lastKey first keys).decor.textBefore unset
  parts : first'.shown ++ dottedTail unset first' keys' = first.shown ++ dottedTail unset first keys
  between : isTop = false → first'.between = first.between

theorem PathsAlike.pathText_eq (h : PathsAlike unset isTop first keys first' keys') :
    pathText unset (first' :: keys') = pathText unset (first :: keys) := by
  have houter := h.outer
  rw [lastKey, lastKey] at houter
  rw [pathText, pathText, houter, String.append_assoc, h.parts, String.append_assoc]

/-- The keys are printed alike where a path goes on behind them. -/
structure Key.PassesAlike (isTop : Bool) (key key' : Key) : Prop where
  shown : key'.shown = key.shown
  after : key'.dotDecor.textAfter .headerPath = key.dotDecor.textAfter .headerPath
  between : isTop = false → key'.between = key.between

theorem PathsAlike.under (h : PathsAlike unset false first keys first' keys')
    (hkey : key.PassesAlike isTop key') :
    PathsAlike unset isTop key (first :: keys) key' (first' :: keys') where
  outer := h.outer
  parts := by
    have hbetween := h.between rfl
    have hparts := h.parts
    rw [Key.between, Key.between] at hbetween
    rw [dottedTail, dottedTail, hkey.shown, hkey.after, hbetween]
    simp only [String.append_assoc]
    rw [hparts]
  between := hkey.between

theorem passesAlike_passed (isTop : Bool) (key : Key) :
    key.PassesAlike isTop (key.passed (key.before isTop)) where
  shown := rfl
  after := withoutReturns_withoutReturns _
  between h := by
    subst h
    exact withoutReturns_withoutReturns _

theorem pathsAlike_ended (unset : Surround) (isTop : Bool) (key : Key) : PathsAlike unset isTop key []
    (key.ended (key.decor.textBefore unset) (key.before isTop) unset) [] where
  outer := withoutReturns_withoutReturns _
  parts := congrArg (key.shown ++ ·) (withoutReturns_withoutReturns _)
  between h := by
    subst h
    exact withoutReturns_withoutReturns _

/-! ### Pairs -/

namespace Pair

/-- The pairs are printed alike, each with its own texts around its value; the last value of the first list
may have other texts around it than those before. -/
def Alike (unsetKey : Surround) (isTop : Bool) (unset : Surround) : List Pair → List Pair → Prop
  | [], [] => True
  | p :: ps, p' :: ps' =>
    (PathsAlike unsetKey isTop p.first p.keys p'.first p'.keys ∧
      p'.value.shown = ⟨p.value.decor.written (if ps.isEmpty then unset else .value), p.value.shown.bare⟩) ∧
    Alike unsetKey isTop unset ps ps'
  | _, _ => False

variable {unsetKey : Surround} {ps ps' qs qs' : List Pair}

theorem Alike.append (h : Alike unsetKey isTop .value ps ps') (hne : qs ≠ [])
    (h' : Alike unsetKey isTop unset qs qs') : Alike unsetKey isTop unset (ps ++ qs) (ps' ++ qs') := by
  induction ps generalizing ps' with
  | nil =>
    cases ps' with
    | nil => exact h'
    | cons => exact h.elim
  | cons p ps ih =>
    cases ps' with
    | nil => exact h.elim
    | cons p' ps' =>
      obtain ⟨⟨hpath, hvalue⟩, hrest⟩ := h
      refine ⟨⟨hpath, ?_⟩, ih hrest⟩
      rw [hvalue]
      simp [hne]

/-- Where all values have the same texts around them, it does not matter which one is last. -/
theorem Alike.append_value (h : Alike unsetKey isTop .value ps ps')
    (h' : Alike unsetKey isTop .value qs qs') :
    Alike unsetKey isTop .value (ps ++ qs) (ps' ++ qs') := by
  cases qs with
  | nil =>
    cases qs' with
    | nil => simpa using h
    | cons => exact h'.elim
  | cons q qs => exact h.append (List.cons_ne_nil q qs) h'

theorem Alike.under (hkey : key.PassesAlike isTop key') (h : Alike unsetKey false unset ps ps') :
    Alike unsetKey isTop unset (ps.map (Pair.under key)) (ps'.map (Pair.under key')) := by
  induction ps generalizing ps' with
  | nil =>
    cases ps' with
    | nil => trivial
    | cons => exact h.elim
  | cons p ps ih =>
    cases ps' with
    | nil => exact h.elim
    | cons p' ps' =>
      obtain ⟨⟨hpath, hvalue⟩, hrest⟩ := h
      refine ⟨⟨hpath.under hkey, ?_⟩, ih hrest⟩
      rw [List.isEmpty_map]
      exact hvalue

theorem text_written (d : Decor) (bare : String) (unset unset' : Surround) :
    Shown.text ⟨d.written unset, bare⟩ unset' = Shown.text ⟨d, bare⟩ unset := by
  rw [Shown.text, Shown.text, Decor.textBefore_written, Decor.textAfter_written]

theorem shown_eta (v : Value) : v.shown = ⟨v.decor, v.shown.bare⟩ := by
  rw [← Value.decor_shown v]

theorem Alike.inlineText_eq (h : Alike .inlineKey isTop .lastInline ps ps') :
    Leaf.inlineText (ps'.map Pair.leaf) = Leaf.inlineText (ps.map Pair.leaf) := by
  induction ps generalizing ps' with
  | nil =>
    cases ps' with
    | nil => rfl
    | cons => exact h.elim
  | cons p ps ih =>
    cases ps' with
    | nil => exact h.elim
    | cons p' ps' =>
      obtain ⟨⟨hpath, hvalue⟩, hrest⟩ := h
      have hlater := ih hrest
      have hshown := shown_eta p.value
      match ps, ps', hrest with
      | [], [], _ =>
        simp only [List.map_cons, List.map_nil, Leaf.inlineText, Pair.leaf, hpath.pathText_eq, hvalue,
          List.isEmpty_nil, if_true, text_written]
        rw [← hshown]
      | next :: ps, next' :: ps', _ =>
        simp only [List.map_cons, Leaf.inlineText, Pair.leaf, hpath.pathText_eq, hvalue, List.isEmpty_cons,
          Bool.false_eq_true, if_false, text_written] at hlater ⊢
        rw [← hshown, hlater]

theorem Alike.lines_eq (h : Alike .key isTop .value ps ps') : Pair.lines ps' = Pair.lines ps := by
  induction ps generalizing ps' with
  | nil =>
    cases ps' with
    | nil => rfl
    | cons => exact h.elim
  | cons p ps ih =>
    cases ps' with
    | nil => exact h.elim
    | cons p' ps' =>
      obtain ⟨⟨hpath, hvalue⟩, hrest⟩ := h
      have hshown := shown_eta p.value
      have hline : p'.leaf.line = p.leaf.line := by
        simp only [Leaf.line, Pair.leaf, hpath.pathText_eq, hvalue, ite_self, text_written]
        rw [← hshown]
      have hlater := ih hrest
      rw [Pair.lines, Pair.lines] at hlater ⊢
      rw [List.map_cons, List.map_cons, String.join_cons, String.join_cons, hline, hlater]

theorem Alike.isEmpty_eq (h : Alike unsetKey isTop unset ps ps') : ps'.isEmpty = ps.isEmpty := by
  cases ps <;> cases ps' <;> first | rfl | exact h.elim

end Pair

/-! ### Values -/

namespace Value

theorem isDotted_reread (unset : Surround) (v : Value) : (v.reread unset).isDotted = v.isDotted := by
  match v with
  | .scalar _ _ | .array _ _ _ _ | .inline _ true _ _ | .inline _ false _ _ => simp [reread, isDotted]

mutual

theorem shown_reread (unset : Surround) (v : Value) (h : v.IsLegible) (hdotted : v.isDotted = false) :
    (v.reread unset).shown = ⟨v.decor.written unset, v.shown.bare⟩ := by
  match v with
  | .scalar d s => simp [reread, shown, decor, Scalar.shown_reread]
  | .array d elements comma trailing =>
    have helements := elementsText_rereadAll .firstElement elements h.1
    have hempty : (rereadAll .firstElement elements).isEmpty = elements.isEmpty := by
      cases elements <;> simp [rereadAll]
    simp only [reread, shown, decor, helements, hempty, withoutReturns_withoutReturns]
    cases comma <;> cases elements.isEmpty <;> rfl
  | .inline d false preamble entries =>
    have hentries := (pairs_rereadIn true .lastInline entries h.1).inlineText_eq
    simp only [reread, Bool.false_eq_true, if_false, shown, decor, leaves_eq, hentries]
  termination_by structural v

theorem elementsText_rereadAll (unset : Surround) (vs : List Value) (h : AreLegible vs) :
    Shown.elementsFrom unset (shownElements (rereadAll unset vs)) =
    Shown.elementsFrom unset (shownElements vs) := by
  match vs with
  | [] => simp [rereadAll]
  | v :: vs =>
    obtain ⟨⟨hdotted, -⟩, hv, hvs⟩ := h
    have hshown := shown_reread unset v hv hdotted
    have hlater := elementsText_rereadAll .value vs hvs
    have hbare := Pair.shown_eta v
    match vs with
    | [] =>
      simp only [rereadAll, shownElements, Shown.elementsFrom, hshown, Pair.text_written]
      rw [← hbare]
    | next :: vs =>
      simp only [rereadAll, shownElements, Shown.elementsFrom, hshown, Pair.text_written] at hlater ⊢
      rw [← hbare, hlater]
  termination_by structural vs

theorem pairs_rereadIn (isTop : Bool) (unset : Surround) (entries : List (Key × Value))
    (h : IsLegibleIn entries) :
    Pair.Alike .inlineKey isTop unset (pairs entries) (pairs (rereadIn isTop unset entries)) := by
  -- the last entry has other texts around it than those before
  have hcons {key : Key} {v : Value} {rest : List (Key × Value)} (hrest : IsLegibleIn rest)
      (hfirst : ∀ unset, Pair.Alike .inlineKey isTop unset (v.pairsAt key)
        ((v.reread unset).pairsAt (key.reread isTop .inlineKey v.isDotted)))
      (hlater : Pair.Alike .inlineKey isTop unset (pairs rest) (pairs (rereadIn isTop unset rest))) :
      Pair.Alike .inlineKey isTop unset (pairs ((key, v) :: rest))
        (pairs (rereadIn isTop unset ((key, v) :: rest))) := by
    rw [rereadIn, pairs, pairs]
    cases rest with
    | nil => simpa [pairs, rereadIn] using hfirst unset
    | cons next rest => exact (hfirst .value).append (pairs_ne_nil _ hrest (by simp)) hlater
  have hsingle (key : Key) {v : Value} (hdotted : v.isDotted = false)
      (hv : ∀ unset, (v.reread unset).shown = ⟨v.decor.written unset, v.shown.bare⟩) (unset : Surround) :
      Pair.Alike .inlineKey isTop unset (v.pairsAt key)
        ((v.reread unset).pairsAt (key.reread isTop .inlineKey v.isDotted)) := by
    rw [pairsAt_of_isDotted_eq_false _ hdotted, hdotted,
      pairsAt_of_isDotted_eq_false _ ((isDotted_reread unset v).trans hdotted)]
    exact ⟨⟨pathsAlike_ended .inlineKey isTop key, hv unset⟩, trivial⟩
  match entries with
  | [] => simp [rereadIn, pairs, Pair.Alike]
  | (key, .inline d true preamble inner) :: rest =>
    obtain ⟨-, ⟨hinner, -⟩, hrest⟩ := h
    refine hcons hrest (fun unset => ?_) (pairs_rereadIn isTop unset rest hrest)
    have hbelow := pairs_rereadIn false unset inner hinner
    simp only [reread, if_true, pairsAt, isDotted]
    exact hbelow.under (passesAlike_passed isTop key)
  | (key, .scalar d s) :: rest | (key, .array d elements comma trailing) :: rest
  | (key, .inline d false preamble inner) :: rest =>
    obtain ⟨-, hv, hrest⟩ := h
    exact hcons hrest (hsingle key rfl fun unset => shown_reread unset _ hv rfl)
      (pairs_rereadIn isTop unset rest hrest)
  termination_by structural entries

end

end Value

/-! ### Lines -/

mutual

theorem Table.pairs_rereadBelow (t : Table) (h : t.IsLegible) :
    Pair.Alike .key false .value t.pairs (Item.pairs t.rereadBelow) := by
  obtain ⟨_, _, _, entries⟩ := t
  rw [Table.pairs, Table.rereadBelow]
  exact Item.pairs_rereadOwn false entries h
  termination_by structural t

theorem Item.pairs_rereadOwn (isTop : Bool) (entries : List (Key × Item)) (h : Item.AreLegible entries) :
    Pair.Alike .key isTop .value (Item.pairs entries) (Item.pairs (Item.rereadOwn isTop entries)) := by
  match entries with
  | [] => simp [Item.rereadOwn, Item.pairs, Pair.Alike]
  | (key, .value v) :: rest =>
    obtain ⟨hline, hrest⟩ := h
    have hlater := Item.pairs_rereadOwn isTop rest hrest
    have hreread : (v.reread .value).isDotted = false := (Value.isDotted_reread .value v).trans hline.isDotted
    rw [Item.rereadOwn, Item.pairs, Item.pairs, Value.pairsAt_of_isDotted_eq_false _ hline.isDotted,
      Value.pairsAt_of_isDotted_eq_false _ hreread]
    refine ⟨⟨pathsAlike_ended .key isTop key, ?_⟩, hlater⟩
    rw [ite_self]
    exact Value.shown_reread .value v hline.value hline.isDotted
  | (key, .table t) :: rest =>
    obtain ⟨-, ht, hrest⟩ := h
    have hlater := Item.pairs_rereadOwn isTop rest hrest
    rw [Item.rereadOwn, Item.pairs]
    split
    · have hbelow := (Table.pairs_rereadBelow t ht).under (passesAlike_passed isTop key)
      rw [List.singleton_append, Item.pairs, if_pos rfl, Table.pairs]
      exact hbelow.append_value hlater
    · exact hlater
  | (_, .tables _) :: rest =>
    obtain ⟨-, -, hrest⟩ := h
    rw [Item.rereadOwn, Item.pairs]
    exact Item.pairs_rereadOwn isTop rest hrest
  termination_by structural entries

end

end FeatureForwarding.Toml
