import FeatureForwarding.Proofs.Toml.Quotes

/-! Keys and the paths that they make up. A path that is written part by part, with dots and blanks
between the parts, is read part by part. -/

namespace FeatureForwarding.Toml

open Lexeme

variable {cs rest front : List Char} {name spelling before : String} {key first : Key} {keys : List Key}
  {unset : Surround}

/-! ### Blanks around nodes -/

namespace Decor

/-- The texts that are set are blank. -/
def IsBlank (d : Decor) : Prop :=
  (∀ text ∈ d.before, Toml.IsBlank text) ∧ ∀ text ∈ d.after, Toml.IsBlank text

end Decor

def Surround.IsBlank (s : Surround) : Prop := Toml.IsBlank s.before ∧ Toml.IsBlank s.after

namespace Surround

theorem isBlank_headerPath : Surround.headerPath.IsBlank := ⟨isBlank_empty, isBlank_empty⟩

theorem isBlank_inlineKey : Surround.inlineKey.IsBlank := ⟨isBlank_space, isBlank_space⟩

theorem isBlank_value : Surround.value.IsBlank := ⟨isBlank_space, isBlank_empty⟩

theorem isBlank_lastInline : Surround.lastInline.IsBlank := ⟨isBlank_space, isBlank_space⟩

theorem isBlank_firstElement : Surround.firstElement.IsBlank := ⟨isBlank_empty, isBlank_empty⟩

end Surround

namespace Decor

variable {d : Decor}

theorem isBlank_unset : Decor.IsBlank {} := ⟨by simp, by simp⟩

theorem IsBlank.textBefore (h : d.IsBlank) (hunset : unset.IsBlank) :
    Toml.IsBlank (d.textBefore unset) := by
  have hblank : Toml.IsBlank (d.before.getD unset.before) := by
    cases hbefore : d.before with
    | none => exact hunset.1
    | some text => exact h.1 text hbefore
  rwa [Decor.textBefore, hblank.withoutReturns]

theorem IsBlank.textAfter (h : d.IsBlank) (hunset : unset.IsBlank) :
    Toml.IsBlank (d.textAfter unset) := by
  have hblank : Toml.IsBlank (d.after.getD unset.after) := by
    cases hafter : d.after with
    | none => exact hunset.2
    | some text => exact h.2 text hafter
  rwa [Decor.textAfter, hblank.withoutReturns]

end Decor

/-! ### One part -/

/-- What follows belongs to no bare key. -/
def StopsKey (cs : List Char) : Prop := ∀ c ∈ cs.head?, isBareKeyChar c = false

/-- The text is read as the name, whatever follows it. -/
def Spells (spelling name : String) : Prop :=
  ∀ rest, StopsKey rest → keyPart (spelling.toList ++ rest) = some ((name, spelling), rest)

theorem keyPart_bare (hne : cs ≠ []) (h : ∀ c ∈ cs, isBareKeyChar c) (hrest : StopsKey rest) :
    keyPart (cs ++ rest) = some ((String.ofList cs, String.ofList cs), rest) := by
  have hnone : rest.takeWhile isBareKeyChar = [] := by
    cases rest with
    | nil => rfl
    | cons c rest => exact List.takeWhile_cons_of_neg (by simp [hrest c rfl])
  have htake : (cs ++ rest).takeWhile (fun c => c.isAlphanum || c == '-' || c == '_') = cs := by
    change (cs ++ rest).takeWhile isBareKeyChar = cs
    rw [List.takeWhile_append_of_pos h, hnone, List.append_nil]
  have hquote : ((cs ++ rest).head? == some '"' || (cs ++ rest).head? == some '\'') = false := by
    obtain ⟨c, cs, rfl⟩ := List.exists_cons_of_ne_nil hne
    have hc := h c List.mem_cons_self
    have hdouble : c ≠ '"' := by rintro rfl; revert hc; decide
    have hsingle : c ≠ '\'' := by rintro rfl; revert hc; decide
    simp [hdouble, hsingle]
  rw [keyPart, hquote, if_neg Bool.false_ne_true, htake]
  simp [hne]

theorem keyPart_eq (cs : List Char) : keyPart cs =
    if cs.head? == some '"' || cs.head? == some '\'' then
      (lineText cs).map fun r => ((r.1, consumed cs r.2), r.2)
    else if (cs.takeWhile isBareKeyChar).isEmpty then none
    else some ((String.ofList (cs.takeWhile isBareKeyChar), String.ofList (cs.takeWhile isBareKeyChar)),
      cs.drop (cs.takeWhile isBareKeyChar).length) := rfl

/-- What was read as a part of a key spells its name. -/
theorem exists_of_keyPart (h : keyPart cs = some ((name, spelling), rest)) :
    cs = spelling.toList ++ rest ∧ Spells spelling name := by
  rw [keyPart_eq] at h
  split at h
  · next hquote =>
    obtain ⟨⟨_, _⟩, hread, h⟩ := Option.map_eq_some_iff.1 h
    obtain ⟨hname, rfl⟩ := Prod.mk.inj h
    obtain ⟨rfl, rfl⟩ := Prod.mk.inj hname
    obtain ⟨front, rfl, hfront⟩ := exists_of_lineText hread
    obtain ⟨c, front, rfl⟩ : ∃ c more, front = c :: more :=
      List.exists_cons_of_ne_nil fun hnil => absurd (hnil ▸ (hfront []).1) nofun
    rw [consumed_append, String.toList_ofList]
    refine ⟨rfl, fun rest' _ => ?_⟩
    rw [String.toList_ofList, keyPart_eq, if_pos (by simpa using hquote), (hfront rest').1, Option.map_some,
      consumed_append]
  split at h
  · simp at h
  · next hne =>
    obtain ⟨hname, rfl⟩ := Prod.mk.inj (Option.some.inj h)
    obtain ⟨rfl, rfl⟩ := Prod.mk.inj hname
    have hbare : ∀ c ∈ cs.takeWhile isBareKeyChar, isBareKeyChar c := fun c hc => List.mem_takeWhile_imp hc
    rw [String.toList_ofList]
    refine ⟨?_, fun rest' hrest' => ?_⟩
    · exact (List.prefix_iff_eq_append.1 (List.takeWhile_prefix _)).symm
    · rw [String.toList_ofList, keyPart_bare (by simpa using hne) hbare hrest']

theorem spells_bare (hne : name ≠ "") (h : ∀ c ∈ name.toList, isBareKeyChar c) : Spells name name := by
  intro rest hrest
  rw [keyPart_bare (by simpa using hne) h hrest, String.ofList_toList]

/-- A key starts with a quote or a bare character. -/
theorem head_of_spells (h : Spells spelling name) :
    ∃ c ∈ spelling.toList.head?, c = '"' ∨ c = '\'' ∨ isBareKeyChar c := by
  have hread := h [] (by simp [StopsKey])
  rw [List.append_nil, keyPart_eq] at hread
  cases hspelling : spelling.toList with
  | nil => simp [hspelling] at hread
  | cons c cs =>
    refine ⟨c, rfl, ?_⟩
    rw [hspelling] at hread
    by_cases hbare : isBareKeyChar c = true
    · exact .inr (.inr hbare)
    · simp only [List.head?_cons, List.takeWhile_cons_of_neg hbare] at hread
      split at hread
      · next hquote => simpa [or_assoc] using Or.inl hquote
      · simp at hread

/-! ### Paths -/

/-- What follows goes on neither with a path nor with the blanks behind it. -/
def StopsPath (cs : List Char) : Prop :=
  ∀ c ∈ cs.head?, isSpace c = false ∧ isBareKeyChar c = false ∧ c ≠ '.'

namespace Key

/-- The key can be read where it stands: its text spells its name, and blanks stand next to the dots. -/
structure IsLegible (key : Key) : Prop where
  spells : Spells key.shown key.name
  dots : key.dotDecor.IsBlank

/-- The text between the dot in front of the key and the key. -/
def between (key : Key) : String := key.dotDecor.textBefore .headerPath

/-- The key as it is read before it is known where the path ends. -/
def part (before after : String) (key : Key) : Key :=
  ⟨key.name, some key.shown, {}, ⟨some before, some after⟩⟩

/-- The key as it is read on the way to others. -/
def passed (before : String) (key : Key) : Key :=
  key.part before (key.dotDecor.textAfter .headerPath)

/-- The key as it is read at the end of a path, which has some text in front of itself as a whole. -/
def ended (outer before : String) (unset : Surround) (key : Key) : Key :=
  ⟨key.name, some key.shown, ⟨some outer, some (key.decor.textAfter unset)⟩, ⟨some before, some ""⟩⟩

end Key

/-- The keys of a path but the last one, as they are read. -/
def passedFrom (before : String) : Key → List Key → List Key
  | _, [] => []
  | first, key :: keys => first.passed before :: passedFrom key.between key keys

/-- The last key of a path as it is read. -/
def endedFrom (outer before : String) (unset : Surround) : Key → List Key → Key
  | last, [] => last.ended outer before unset
  | _, key :: keys => endedFrom outer key.between unset key keys

/-- A path as it is read. -/
def rereadPath (outer : String) (unset : Surround) (first : Key) (keys : List Key) : KeyPath :=
  ⟨passedFrom "" first keys, endedFrom outer "" unset first keys⟩

/-- The parts of a path before it is known which is the last one. -/
def partsFrom (before : String) (unset : Surround) : Key → List Key → List Key
  | last, [] => [last.part before (last.decor.textAfter unset)]
  | first, key :: keys => first.passed before :: partsFrom key.between unset key keys

theorem length_partsFrom (before : String) (unset : Surround) (first : Key) (keys : List Key) :
    (partsFrom before unset first keys).length = keys.length + 1 := by
  induction keys generalizing before first with
  | nil => rfl
  | cons key keys ih => rw [partsFrom, List.length_cons, ih, List.length_cons]

theorem IsBlank.stopsKey {text : String} (h : IsBlank text) (hrest : StopsKey rest) :
    StopsKey (text.toList ++ rest) := by
  cases htext : text.toList with
  | nil => exact hrest
  | cons c cs =>
    have hc := h c (by rw [htext]; exact List.mem_cons_self)
    simp only [isSpace, Bool.or_eq_true, beq_iff_eq] at hc
    rcases hc with rfl | rfl <;> simp [StopsKey, isBareKeyChar]

theorem stopsBlank_spells (h : Spells spelling name) (rest : List Char) :
    StopsBlank (spelling.toList ++ rest) := by
  obtain ⟨c, hc, hhead⟩ := head_of_spells h
  obtain ⟨cs, hcs⟩ := List.head?_eq_some_iff.1 hc
  rw [hcs]
  refine stopsBlank_cons ?_ _
  rcases hhead with rfl | rfl | hbare
  · decide
  · decide
  · by_contra hspace
    simp only [isSpace, Bool.not_eq_false, Bool.or_eq_true, beq_iff_eq] at hspace
    rcases hspace with rfl | rfl <;> exact absurd hbare (by decide)

theorem keyPartsFrom_dot {after : String} (fuel : Nat) (hbefore : IsBlank before) (hkey : key.IsLegible)
    (hafter : IsBlank after) (cs : List Char) :
    keyPartsFrom (fuel + 1) (before.toList ++ (key.shown.toList ++ (after.toList ++ '.' :: cs))) =
      (keyPartsFrom fuel cs).map fun r => (key.part before after :: r.1, r.2) := by
  rw [keyPartsFrom, spaces_append hbefore (stopsBlank_spells hkey.spells _)]
  dsimp only
  rw [hkey.spells _ (hafter.stopsKey (by simp [StopsKey, isBareKeyChar])), Option.bind_some]
  dsimp only
  rw [spaces_append hafter (stopsBlank_cons (by decide) _)]
  rfl

theorem keyPartsFrom_last {after : String} (fuel : Nat) (hbefore : IsBlank before) (hkey : key.IsLegible)
    (hafter : IsBlank after) (hrest : StopsPath rest) :
    keyPartsFrom (fuel + 1) (before.toList ++ (key.shown.toList ++ (after.toList ++ rest))) =
      some ([key.part before after], rest) := by
  rw [keyPartsFrom, spaces_append hbefore (stopsBlank_spells hkey.spells _)]
  dsimp only
  rw [hkey.spells _ (hafter.stopsKey fun c hc => (hrest c hc).2.1), Option.bind_some]
  dsimp only
  rw [spaces_append hafter fun c hc => (hrest c hc).1]
  dsimp only
  split
  · exact absurd rfl (hrest _ rfl).2.2
  · rfl

/-- A path is read part by part. -/
theorem keyPartsFrom_append {fuel : Nat} (hbefore : IsBlank before) (hfirst : first.IsLegible)
    (hkeys : ∀ key ∈ keys, key.IsLegible)
    (hlast : IsBlank (((first :: keys).getLast (List.cons_ne_nil first keys)).decor.textAfter unset))
    (hrest : StopsPath rest) (hfuel : keys.length < fuel) :
    keyPartsFrom fuel (before.toList ++
    (first.shown.toList ++ ((dottedTail unset first keys).toList ++ rest))) =
      some (partsFrom before unset first keys, rest) := by
  induction keys generalizing before first fuel with
  | nil =>
    obtain ⟨fuel, rfl⟩ := Nat.exists_eq_add_one.2 hfuel
    exact keyPartsFrom_last fuel hbefore hfirst hlast hrest
  | cons key keys ih =>
    obtain ⟨fuel, rfl⟩ := Nat.exists_eq_add_one.2 (Nat.zero_lt_of_lt hfuel)
    obtain ⟨hkey, hkeys⟩ := List.forall_mem_cons.1 hkeys
    have hbetween : IsBlank key.between := hkey.dots.textBefore Surround.isBlank_headerPath
    have hread := ih hbetween hkey hkeys hlast (by simpa using hfuel)
    have htail : (dottedTail unset first (key :: keys)).toList ++ rest =
        (first.dotDecor.textAfter .headerPath).toList ++ '.' :: (key.between.toList ++ (key.shown.toList ++
          ((dottedTail unset key keys).toList ++ rest))) := by
      simp [dottedTail, Key.between]
    rw [htail, keyPartsFrom_dot fuel hbefore hfirst
      (hfirst.dots.textAfter Surround.isBlank_headerPath), hread]
    rfl

theorem exists_last_partsFrom (before : String) (unset : Surround) (first : Key) (keys : List Key) :
    ∃ last, (partsFrom before unset first keys).getLast? = some last ∧
      (partsFrom before unset first keys).dropLast = passedFrom before first keys ∧
      ∀ outer, (⟨last.name, last.spelling, ⟨some outer, last.dotDecor.after⟩,
        ⟨last.dotDecor.before, some ""⟩⟩ : Key) = endedFrom outer before unset first keys := by
  induction keys generalizing before first with
  | nil => exact ⟨_, rfl, rfl, fun _ => rfl⟩
  | cons key keys ih =>
    obtain ⟨last, hlast, hparents, hended⟩ := ih key.between key
    have hne : partsFrom key.between unset key keys ≠ [] := fun hnil => by simp [hnil] at hlast
    refine ⟨last, ?_, ?_, hended⟩
    · rw [partsFrom, List.getLast?_cons_of_ne_nil hne, hlast]
    · rw [partsFrom, List.dropLast_cons_of_ne_nil hne, hparents]
      rfl

theorem ofParts?_cons (first : Key) (parts : List Key) : KeyPath.ofParts? (first :: parts) =
    let parts := { first with dotDecor := ⟨some "", first.dotDecor.after⟩ } :: parts
    parts.getLast?.map fun last => ⟨parts.dropLast,
      ⟨last.name, last.spelling, ⟨first.dotDecor.before, last.dotDecor.after⟩,
        ⟨last.dotDecor.before, some ""⟩⟩⟩ := by
  have hrest : (parts.mapIdx fun i key =>
      if i + 1 = 0 then { key with dotDecor := { key.dotDecor with before := some "" } } else key) = parts :=
    List.ext_getElem (by simp) (by simp)
  simp only [KeyPath.ofParts?, List.mapIdx_cons, hrest]
  rfl

theorem ofParts?_partsFrom (before : String) (unset : Surround) (first : Key) (keys : List Key) :
    KeyPath.ofParts? (partsFrom before unset first keys) = some (rereadPath before unset first keys) := by
  cases keys with
  | nil => rfl
  | cons key keys =>
    obtain ⟨last, hlast, hparents, hended⟩ := exists_last_partsFrom key.between unset key keys
    have hne : partsFrom key.between unset key keys ≠ [] := fun hnil => by simp [hnil] at hlast
    rw [partsFrom, ofParts?_cons]
    dsimp only
    rw [List.getLast?_cons_of_ne_nil hne, hlast, List.dropLast_cons_of_ne_nil hne, hparents, Option.map_some]
    exact congrArg some (congrArg₂ KeyPath.mk rfl (hended before))

theorem length_dottedTail (unset : Surround) (first : Key) (keys : List Key) :
    keys.length ≤ (dottedTail unset first keys).toList.length := by
  induction keys generalizing first with
  | nil => exact Nat.zero_le _
  | cons key keys ih =>
    have hle := ih key
    simp only [dottedTail, String.toList_append, List.length_append, List.length_cons]
    have hdot : ".".toList.length = 1 := rfl
    omega

/-- A path is read as it is written, with the text in front of it. -/
theorem keyPath_append (hbefore : IsBlank before) (hfirst : first.IsLegible)
    (hkeys : ∀ key ∈ keys, key.IsLegible)
    (hlast : IsBlank (((first :: keys).getLast (List.cons_ne_nil first keys)).decor.textAfter unset))
    (hlimit : keys.length + 1 < keyPartLimit) (hrest : StopsPath rest) :
    keyPath (before.toList ++ (first.shown.toList ++ ((dottedTail unset first keys).toList ++ rest))) =
      some (rereadPath before unset first keys, rest) := by
  have hfuel : keys.length < (before.toList ++ (first.shown.toList ++
      ((dottedTail unset first keys).toList ++ rest))).length := by
    obtain ⟨c, hc, -⟩ := head_of_spells hfirst.spells
    obtain ⟨cs, hcs⟩ := List.head?_eq_some_iff.1 hc
    have hle := length_dottedTail unset first keys
    simp only [hcs, List.length_append, List.length_cons]
    omega
  rw [keyPath, keyPartsFrom_append hbefore hfirst hkeys hlast hrest hfuel, Option.bind_some]
  dsimp only
  rw [length_partsFrom, if_pos hlimit, ofParts?_partsFrom]
  rfl

/-! ### Paths that were read -/

theorem isLegible_of_keyPartsFrom {fuel : Nat} {parts : List Key}
    (h : keyPartsFrom fuel cs = some (parts, rest)) :
    ∀ part ∈ parts, part.IsLegible ∧ part.decor = {} := by
  induction fuel generalizing cs parts with
  | zero => exact absurd h nofun
  | succ fuel ih =>
    rw [keyPartsFrom] at h
    dsimp only at h
    obtain ⟨⟨⟨name, spelling⟩, between⟩, hkey, h⟩ := Option.bind_eq_some_iff.1 h
    have hpart : (⟨name, some spelling, {}, ⟨some (spaces cs).1, some (spaces between).1⟩⟩ : Key).IsLegible :=
      ⟨(exists_of_keyPart hkey).2, by
        simpa [Decor.IsBlank] using ⟨(exists_of_spaces (h := rfl)).1, (exists_of_spaces (h := rfl)).1⟩⟩
    dsimp only at h
    split at h
    · obtain ⟨⟨more, _⟩, hmore, h⟩ := Option.map_eq_some_iff.1 h
      obtain ⟨rfl, rfl⟩ := Prod.mk.inj h
      exact List.forall_mem_cons.2 ⟨⟨hpart, rfl⟩, ih hmore⟩
    · obtain ⟨rfl, rfl⟩ := Prod.mk.inj (Option.some.inj h)
      simpa using hpart

theorem isLegible_of_keyPath {path : KeyPath} (h : keyPath cs = some (path, rest)) :
    (∀ key ∈ path.parents, key.IsLegible ∧ key.decor = {}) ∧ path.last.IsLegible ∧
      path.last.decor.IsBlank ∧ path.last.dotDecor.after = some "" := by
  obtain ⟨⟨parts, _⟩, hparts, h⟩ := Option.bind_eq_some_iff.1 h
  have hall := isLegible_of_keyPartsFrom hparts
  dsimp only at h
  split at h
  · cases parts with
    | nil => simp [KeyPath.ofParts?] at h
    | cons first parts =>
      obtain ⟨hfirst, hparts⟩ := List.forall_mem_cons.1 hall
      rw [ofParts?_cons, Option.map_map] at h
      obtain ⟨last, hlast, h⟩ := Option.map_eq_some_iff.1 h
      obtain ⟨rfl, rfl⟩ := Prod.mk.inj h
      -- the first part only loses the text in front of itself
      have hall' : ∀ part ∈ (⟨first.name, first.spelling, first.decor,
        ⟨some "", first.dotDecor.after⟩⟩ : Key) :: parts,
          part.IsLegible ∧ part.decor = {} :=
        List.forall_mem_cons.2 ⟨⟨⟨hfirst.1.spells, by simpa using isBlank_empty, hfirst.1.dots.2⟩,
          hfirst.2⟩, hparts⟩
      obtain ⟨hlegible, -⟩ := hall' last (List.mem_of_getLast? hlast)
      refine ⟨fun key hkey => hall' key (List.dropLast_subset _ hkey), ⟨hlegible.spells, hlegible.dots.1, ?_⟩,
        ⟨hfirst.1.dots.1, hlegible.dots.2⟩, rfl⟩
      simpa using isBlank_empty
  · simp at h

end FeatureForwarding.Toml
