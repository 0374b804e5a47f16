import FeatureForwarding.Proofs.Toml.Spelling
import FeatureForwarding.Proofs.Toml.Values

/-! Values that were read can be read again. Whatever the reader takes for a value it takes for one in
front of any other text, and what it keeps around values is blanks or gaps. -/

namespace FeatureForwarding.Toml

open Lexeme Reading Numeral

variable {cs rest : List Char} {v : Value} {vs : List Value} {key : Key} {depth fuel : Nat}

/-! ### Scalars -/

theorem text_eq_none (h : ∀ c ∈ cs.head?, c ∉ ['"', '\'']) : Lexeme.text cs = none := by
  unfold Lexeme.text
  split
  · exact absurd (by decide) (h _ rfl)
  · exact absurd (by decide) (h _ rfl)
  · unfold lineText
    split
    · exact absurd (by decide) (h _ rfl)
    · exact absurd (by decide) (h _ rfl)
    · rfl

theorem simpleValue_of_text {content : String} (h : Lexeme.text cs = some (content, rest)) :
    simpleValue cs = some (.scalar {} (.text content (some (consumed cs rest))), rest) := by
  cases cs with
  | nil => exact absurd h nofun
  | cons c cs =>
    by_cases hdouble : c = '"'
    · rw [hdouble] at h ⊢
      rw [simpleValue, h]
      rfl
    · by_cases hsingle : c = '\''
      · rw [hsingle] at h ⊢
        rw [simpleValue, h]
        rfl
      · rw [text_eq_none (by simpa using ⟨hdouble, hsingle⟩)] at h
        exact absurd h nofun

/-- A text is spelled so that it can be read. -/
theorem isLegible_text (content : String) : (Scalar.text content none).IsLegible := by
  intro rest hrest
  have hstops : StopsText rest := ⟨EndsValue.head?_ne hrest (by decide), EndsValue.head?_ne hrest (by decide)⟩
  have hread := simpleValue_of_text (Spelling.text_text content hstops)
  rw [consumed_append, String.ofList_toList] at hread
  exact hread

/-- Numbers and dates keep their spelling. -/
theorem spelled_of_scalar {content : Scalar} (h : Numeral.scalar cs = some (content, rest)) :
    content.shown = consumed cs rest ∧ content.reread = content := by
  have hspelled {kind : String → Scalar} (hkind : ∀ spelling, (kind spelling).shown = spelling ∧
      (kind spelling).reread = kind spelling) {skipped : Option (List Char)}
      (h : spelled kind cs skipped = some (content, rest)) :
      content.shown = consumed cs rest ∧ content.reread = content := by
    obtain ⟨_, -, heq⟩ := Option.map_eq_some_iff.1 h
    obtain ⟨rfl, rfl⟩ := Prod.mk.inj heq
    exact hkind _
  simp only [Numeral.scalar, Option.orElse_eq_orElse, Option.orElse_eq_or, Option.or_eq_some_iff] at h
  rcases h with h | ⟨-, h | ⟨-, h | ⟨-, h⟩⟩⟩
  all_goals exact hspelled (fun _ => ⟨rfl, rfl⟩) h

theorem isLegible_of_simpleValue (h : simpleValue cs = some (v, rest)) (hrest : EndsValue rest) :
    ∃ s, v = .scalar {} s ∧ s.IsLegible := by
  have htext {content : String} (h : Lexeme.text cs = some (content, rest)) :
      (Scalar.text content (some (consumed cs rest))).IsLegible := by
    obtain ⟨front, rfl, hfront⟩ := exists_of_text h
    rw [consumed_append]
    intro rest' hrest'
    have hstops : StopsText rest' :=
      ⟨EndsValue.head?_ne hrest' (by decide), EndsValue.head?_ne hrest' (by decide)⟩
    have hread := simpleValue_of_text (hfront rest' hstops)
    rw [consumed_append] at hread
    have hshown : (Scalar.text content (some (String.ofList front))).shown = String.ofList front := rfl
    rw [hshown, String.toList_ofList, hread]
    rfl
  unfold simpleValue at h
  split at h
  · obtain ⟨⟨content, _⟩, hread, heq⟩ := Option.map_eq_some_iff.1 h
    obtain ⟨rfl, rfl⟩ := Prod.mk.inj heq
    exact ⟨_, rfl, htext hread⟩
  · obtain ⟨⟨content, _⟩, hread, heq⟩ := Option.map_eq_some_iff.1 h
    obtain ⟨rfl, rfl⟩ := Prod.mk.inj heq
    exact ⟨_, rfl, htext hread⟩
  · obtain ⟨rfl, rfl⟩ := Prod.mk.inj (Option.some.inj h)
    exact ⟨_, rfl, fun rest' _ => rfl⟩
  · obtain ⟨rfl, rfl⟩ := Prod.mk.inj (Option.some.inj h)
    exact ⟨_, rfl, fun rest' _ => rfl⟩
  · obtain ⟨⟨content, _⟩, hread, heq⟩ := Option.map_eq_some_iff.1 h
    obtain ⟨rfl, rfl⟩ := Prod.mk.inj heq
    obtain ⟨front, rfl, hfront⟩ := exists_of_scalar hread hrest
    obtain ⟨hshown, hreread⟩ := spelled_of_scalar hread
    refine ⟨_, rfl, fun rest' hrest' => ?_⟩
    have hhead : ∀ c ∈ (front ++ rest').head?, c ∉ ['"', '\'', 't', 'f'] := by
      intro c hc hmem
      obtain ⟨more, hmore⟩ := List.head?_eq_some_iff.1 hc
      have hall : ∀ c ∈ ['"', '\'', 't', 'f'], Text.isDigit c = false ∧ c ∉ ['-', '+', 'i', 'n'] :=
        List.all_iff_forall_prop.1 (by decide)
      have hnone := hfront rest' hrest'
      rw [hmore, scalar_eq_none (hall c hmem).1 (hall c hmem).2] at hnone
      exact absurd hnone nofun
    rw [hshown, consumed_append, String.toList_ofList, simpleValue_of_head hhead,
      hfront rest' hrest', hreread]
    rfl

/-! ### What follows a value -/

theorem head_of_dropGapFrom {c d : Char} (h : dropGapFrom false (d :: cs) = c :: rest) (hc : isDelimiter c) :
    isDelimiter d := by
  rw [dropGapFrom, Bool.false_and, if_neg Bool.false_ne_true] at h
  by_cases hblank : (isSpace d || d == '\n') = true
  · have hcases : isSpace d = true ∨ d = '\n' := by simpa using hblank
    rcases hcases with hspace | rfl
    · simp [isDelimiter, hspace]
    · decide
  rw [if_neg hblank] at h
  split at h
  · next hreturn =>
    obtain rfl : d = '\r' := by simpa using (Bool.and_eq_true_iff.1 hreturn).1
    decide
  split at h
  · next hmark =>
    obtain rfl : d = '#' := by simpa using hmark
    decide
  · rw [(List.cons.inj h).1]
    exact hc

/-- A value ends in front of the gap that another one or the end of the array follows. -/
theorem endsValue_of_gap {c : Char} (h : dropGapFrom false cs = c :: rest)
    (hc : c = ',' ∨ c = ']') : EndsValue cs := by
  have hdelimiter : isDelimiter c := by rcases hc with rfl | rfl <;> decide
  cases cs with
  | nil => trivial
  | cons d more =>
    refine ⟨head_of_dropGapFrom h hdelimiter, ?_⟩
    rintro rfl e he
    obtain ⟨more, rfl⟩ := List.head?_eq_some_iff.1 he
    exact isDigit_of_isDelimiter (head_of_dropGapFrom h hdelimiter)

/-- A value ends in front of the blanks that another one or the end of the braces follows. -/
theorem endsValue_of_spaces {c : Char} (h : cs.dropWhile isSpace = c :: rest) (hc : isDelimiter c) :
    EndsValue cs := by
  have hhead {d : Char} {more : List Char} (h : (d :: more).dropWhile isSpace = c :: rest) :
      isDelimiter d := by
    rw [List.dropWhile_cons] at h
    split at h
    · next hspace => simp [isDelimiter, hspace]
    · rw [(List.cons.inj h).1]
      exact hc
  cases cs with
  | nil => trivial
  | cons d more =>
    refine ⟨hhead h, ?_⟩
    rintro rfl e he
    obtain ⟨more, rfl⟩ := List.head?_eq_some_iff.1 he
    rw [List.dropWhile_cons_of_pos (by decide)] at h
    exact isDigit_of_isDelimiter (hhead h)

/-- A value ends in front of the end of its line. -/
theorem endsValue_of_lineTail {text : String} (h : lineTail cs = some (text, rest)) : EndsValue cs := by
  obtain ⟨next, hnext, -⟩ := Option.map_eq_some_iff.1 h
  cases hdrop : cs.dropWhile isSpace with
  | nil =>
    have hall := List.dropWhile_eq_nil_iff.1 hdrop
    cases cs with
    | nil => trivial
    | cons d more =>
      refine ⟨by simp [isDelimiter, hall d List.mem_cons_self], fun _ e he => ?_⟩
      have hspace := hall e (List.mem_cons_of_mem _ (List.mem_of_mem_head? he))
      exact isDigit_of_isDelimiter (by simp [isDelimiter, hspace])
  | cons c more =>
    refine endsValue_of_spaces hdrop ?_
    rw [hdrop] at hnext
    by_cases hmark : c = '#'
    · rw [hmark]
      decide
    · rw [dropComment_of_ne (by simpa using hmark)] at hnext
      obtain ⟨mark, hmark, hmore⟩ := exists_of_newline hnext
      rcases hmark with rfl | rfl
      · rw [(List.cons.inj hmore).1]
        decide
      · rw [(List.cons.inj hmore).1]
        decide

/-! ### Arrays -/

/-- What a reader of values takes for one. -/
structure ReadsLegibly (read : Text.Reader Value) : Prop where
  legible : ∀ {cs v rest}, read cs = some (v, rest) → EndsValue rest → v.IsLegible ∧ v.isDotted = false
  head : ∀ {cs r}, read cs = some r → ∃ c more, cs = c :: more ∧ isPrintable c

theorem isGap_of_gap {c : Char} {text : String} (h : gap cs = (text, c :: rest)) (hc : isPrintable c) :
    IsGap (withoutReturns text) := by
  obtain ⟨front, hcs, after, hafter, hopen⟩ := exists_of_dropGapFrom false cs
  obtain ⟨htext, hrest⟩ := Prod.mk.inj h
  rw [hrest] at hcs hopen htext
  rw [hcs, consumed_append] at htext
  -- the comment is closed, since what follows could have gone on with it
  obtain rfl : after = false := Bool.eq_false_iff.2 fun htrue => by simp [htrue, hc] at hopen
  rw [IsGap, ← htext, withoutReturns_ofList, String.toList_ofList, hafter]

theorem isDotted_withDecor (d : Decor) (v : Value) : (v.withDecor d).isDotted = v.isDotted := by
  cases v <;> rfl

theorem decor_withDecor (d : Decor) (v : Value) : (v.withDecor d).decor = d := by
  cases v <;> rfl

theorem isLegible_withDecor (d : Decor) (v : Value) : (v.withDecor d).IsLegible ↔ v.IsLegible := by
  cases v <;> exact Iff.rfl

theorem Value.areLegible_iff :
    Value.AreLegible vs ↔ ∀ v ∈ vs, (v.isDotted = false ∧ v.decor.IsGap) ∧ v.IsLegible := by
  induction vs with
  | nil => simp [Value.AreLegible]
  | cons v vs ih => rw [Value.AreLegible, ih, List.forall_mem_cons, and_assoc (c := ∀ v ∈ vs, _)]

/-- An element stands between gaps. -/
theorem areLegible_cons_of_gaps {before after : String} (hv : v.IsLegible ∧ v.isDotted = false)
    (hbefore : IsGap (withoutReturns before)) (hafter : IsGap (withoutReturns after))
    (hvs : Value.AreLegible vs) :
    Value.AreLegible (v.withDecor ⟨some before, some after⟩ :: vs) := by
  refine ⟨⟨(isDotted_withDecor ..).trans hv.2, ?_⟩, (isLegible_withDecor ..).2 hv.1, hvs⟩
  rw [decor_withDecor]
  exact ⟨by simpa using hbefore, by simpa using hafter⟩

theorem areLegible_of_elementsFrom {read : Text.Reader Value} (hread : ReadsLegibly read) {afterComma : Bool}
    {elements : Elements} (h : elementsFrom read afterComma fuel cs = some (elements, rest)) :
    Value.AreLegible elements.values ∧ IsGap (withoutReturns elements.trailing) ∧
      (elements.trailingComma = false → elements.values ≠ [] → withoutReturns elements.trailing = "") ∧
      (elements.values = [] → elements.trailingComma = afterComma) := by
  induction fuel generalizing afterComma cs elements with
  | zero => exact absurd h (Option.some_ne_none _).symm
  | succ fuel ih =>
    rw [elementsFrom] at h
    cases hbefore : gap cs with
    | mk before start =>
    rw [hbefore] at h
    dsimp only at h
    split at h
    · obtain ⟨rfl, rfl⟩ := Prod.mk.inj (Option.some.inj h)
      exact ⟨trivial, isGap_of_gap hbefore (by decide), fun _ hne => absurd rfl hne, fun _ => rfl⟩
    · obtain ⟨⟨v, next⟩, hv, hbehind⟩ := Option.bind_eq_some_iff.1 h
      obtain ⟨c, more, rfl, hc⟩ := hread.head hv
      have hbefore : IsGap (withoutReturns before) := isGap_of_gap hbefore hc
      cases hafter : gap next with
      | mk after behind =>
      simp only [hafter] at hbehind
      have hdrop : dropGapFrom false next = behind := (Prod.mk.inj hafter).2
      split at hbehind
      · have hv := hread.legible hv (endsValue_of_gap hdrop (.inl rfl))
        obtain ⟨⟨elements', _⟩, helements, heq⟩ := Option.bind_eq_some_iff.1 hbehind
        obtain ⟨rfl, rfl⟩ := Prod.mk.inj (Option.some.inj heq)
        obtain ⟨hvs, htrailing, hcomma, hempty⟩ := ih helements
        refine ⟨areLegible_cons_of_gaps hv hbefore (isGap_of_gap hafter (by decide)) hvs, htrailing,
          ?_, by simp⟩
        intro hfalse _
        refine hcomma hfalse fun hnil => ?_
        exact absurd (hempty hnil) (by rw [hfalse]; decide)
      · have hv := hread.legible hv (endsValue_of_gap hdrop (.inr rfl))
        obtain ⟨rfl, rfl⟩ := Prod.mk.inj (Option.some.inj hbehind)
        exact ⟨areLegible_cons_of_gaps hv hbefore (isGap_of_gap hafter (by decide)) trivial, rfl,
          fun _ _ => rfl, by simp⟩
      · exact absurd hbehind (Option.some_ne_none _).symm

/-! ### Tables in braces -/

/-- The key and the value make up an entry of a table in braces. -/
structure Value.IsLegibleAt (key : Key) (v : Value) : Prop where
  legible : key.IsLegible
  around : v.isDotted = false → key.decor.IsBlank ∧ v.decor.IsBlank
  value : v.IsLegible

theorem Value.isLegibleIn_iff {entries : List (Key × Value)} :
    Value.IsLegibleIn entries ↔ ∀ entry ∈ entries, entry.2.IsLegibleAt entry.1 := by
  induction entries with
  | nil => simp [Value.IsLegibleIn]
  | cons entry rest ih =>
    rw [List.forall_mem_cons, ← ih]
    exact ⟨fun ⟨⟨hkey, haround⟩, hv, hrest⟩ => ⟨⟨hkey, haround, hv⟩, hrest⟩,
      fun ⟨⟨hkey, haround, hv⟩, hrest⟩ => ⟨⟨hkey, haround⟩, hv, hrest⟩⟩

/-- A pair in braces can be read again. -/
structure Assignment.IsLegible (a : Assignment) : Prop where
  parents : ∀ key ∈ a.path.parents, key.IsLegible
  isDotted : a.value.isDotted = false
  last : a.value.IsLegibleAt a.path.last

theorem isLegible_of_pairsFrom {read : Text.Reader Value} (hread : ReadsLegibly read) {mayEnd : Bool}
    {preamble : String} {pairs : List Assignment}
    (h : pairsFrom read mayEnd fuel cs = some ((preamble, pairs), rest)) :
    IsBlank preamble ∧ (pairs ≠ [] → preamble = "") ∧ ∀ a ∈ pairs, a.IsLegible := by
  induction fuel generalizing mayEnd cs preamble pairs with
  | zero => exact absurd h (Option.some_ne_none _).symm
  | succ fuel ih =>
    rw [pairsFrom] at h
    cases hblank : spaces cs with
    | mk blank start =>
    rw [hblank] at h
    dsimp only at h
    split at h
    · obtain ⟨heq, -⟩ := Prod.mk.inj (Option.some.inj h)
      obtain ⟨rfl, rfl⟩ := Prod.mk.inj heq
      exact ⟨(exists_of_spaces hblank).1, fun hne => absurd rfl hne, by simp⟩
    · obtain ⟨⟨path, next⟩, hpath, h⟩ := Option.bind_eq_some_iff.1 h
      obtain ⟨next', -, h⟩ := Option.bind_eq_some_iff.1 h
      cases hbefore : spaces next' with
      | mk before start =>
      simp only [hbefore] at h
      obtain ⟨⟨v, next''⟩, hv, h⟩ := Option.bind_eq_some_iff.1 h
      cases hafter : spaces next'' with
      | mk after behind =>
      simp only [hafter] at h
      have hdrop : next''.dropWhile isSpace = behind := (Prod.mk.inj hafter).2
      obtain ⟨hparents, hlast, hdecor, -⟩ := isLegible_of_keyPath hpath
      have hpair (hends : EndsValue next'') :
          Assignment.IsLegible ⟨path, v.withDecor ⟨some before, some after⟩⟩ := by
        obtain ⟨hlegible, hdotted⟩ := hread.legible hv hends
        refine ⟨fun key hkey => (hparents key hkey).1, (isDotted_withDecor ..).trans hdotted, hlast,
          fun _ => ⟨hdecor, ?_⟩, (isLegible_withDecor ..).2 hlegible⟩
        rw [decor_withDecor]
        exact ⟨by simpa using (exists_of_spaces hbefore).1, by simpa using (exists_of_spaces hafter).1⟩
      split at h
      · obtain ⟨⟨⟨_, more⟩, _⟩, hmore, heq⟩ := Option.bind_eq_some_iff.1 h
        obtain ⟨hpairs, rfl⟩ := Prod.mk.inj (Option.some.inj heq)
        obtain ⟨rfl, rfl⟩ := Prod.mk.inj hpairs
        have hlater := (ih hmore).2.2
        exact ⟨isBlank_empty, fun _ => rfl, List.forall_mem_cons.2
          ⟨hpair (endsValue_of_spaces hdrop (by decide)), hlater⟩⟩
      · obtain ⟨heq, -⟩ := Prod.mk.inj (Option.some.inj h)
        obtain ⟨rfl, rfl⟩ := Prod.mk.inj heq
        exact ⟨isBlank_empty, fun _ => rfl, List.forall_mem_singleton.2
          (hpair (endsValue_of_spaces hdrop (by decide)))⟩
      · exact absurd h (Option.some_ne_none _).symm

/-- What holds of every entry holds after a revision, if it holds of what that puts in. -/
theorem forall_mem_revise? {α : Type} {P Q : Key × α → Prop} {f : Option α → Option α}
    {entries revised : List (Key × α)} (h : revise? key f entries = some revised)
    (hall : ∀ entry ∈ entries, P entry)
    (himp : ∀ entry, P entry → Q entry) (hnew : ∀ new, f none = some new → Q (key, new))
    (hold : ∀ other old new, P (other, old) → f (some old) = some new → Q (other, new)) :
    ∀ entry ∈ revised, Q entry := by
  rcases revise?_eq_some h with ⟨-, new, heq, rfl⟩ | ⟨front, other, old, back, new, rfl, -, -, heq, rfl⟩
  · rw [List.forall_mem_append, List.forall_mem_singleton]
    exact ⟨fun entry hentry => himp entry (hall entry hentry), hnew new heq⟩
  · obtain ⟨hfront, hback⟩ := List.forall_mem_append.1 hall
    obtain ⟨hentry, hback⟩ := List.forall_mem_cons.1 hback
    rw [List.forall_mem_append, List.forall_mem_cons]
    exact ⟨fun entry hmem => himp entry (hfront entry hmem), hold other old new hentry heq,
      fun entry hmem => himp entry (hback entry hmem)⟩

theorem revise?_ne_nil {α : Type} {f : Option α → Option α} {entries revised : List (Key × α)}
    (h : revise? key f entries = some revised) : revised ≠ [] := by
  rcases revise?_eq_some h with ⟨-, new, -, rfl⟩ | ⟨front, other, old, back, new, -, -, -, -, rfl⟩ <;> simp

namespace Value

/-- What the entries of a table in braces, or of a group among them, are like. -/
structure AreEntries (entries : List (Key × Value)) : Prop where
  legible : ∀ entry ∈ entries, entry.2.IsLegibleAt entry.1
  nodup : (names entries).Nodup

theorem areEntries_nil : AreEntries [] := ⟨by simp, .nil⟩

theorem AreEntries.assignIn? {last : Key} {keys : List Key} {entries assigned : List (Key × Value)}
    (hkeys : ∀ key ∈ keys, key.IsLegible) (hlast : v.IsLegibleAt last) (hentries : AreEntries entries)
    (h : Value.assignIn? last v keys entries = some assigned) : AreEntries assigned ∧ assigned ≠ [] := by
  induction keys generalizing entries assigned with
  | nil =>
    refine ⟨⟨forall_mem_revise? h hentries.legible (fun _ h => h) (fun new hnew => ?_) fun _ _ _ _ hold => ?_,
      nodup_names_revise? h hentries.nodup⟩, revise?_ne_nil h⟩
    · exact Option.some.inj hnew ▸ hlast
    · exact absurd hold nofun
  | cons key keys ih =>
    obtain ⟨hkey, hkeys⟩ := List.forall_mem_cons.1 hkeys
    -- what dotted keys group is never empty
    have hgroup {key : Key} (hkey : key.IsLegible) (d : Decor) (preamble : String)
      {inner : List (Key × Value)}
        (hinner : AreEntries inner ∧ inner ≠ []) : IsLegibleAt key (.inline d true preamble inner) :=
      ⟨hkey, nofun, isLegibleIn_iff.2 hinner.1.legible, hinner.1.nodup, hinner.2⟩
    refine ⟨⟨forall_mem_revise? h hentries.legible (fun _ h => h) (fun new hnew => ?_)
      fun other old new hold hrevised => ?_,
      nodup_names_revise? h hentries.nodup⟩, revise?_ne_nil h⟩
    · obtain ⟨inner, hinner, rfl⟩ := Option.map_eq_some_iff.1 hnew
      exact hgroup hkey {} "" (ih hkeys areEntries_nil hinner)
    · match old with
      | .inline d true preamble inner =>
        obtain ⟨inner', hinner', rfl⟩ := Option.map_eq_some_iff.1 hrevised
        obtain ⟨hlegible, hnodup, -⟩ := hold.value
        exact hgroup hold.legible d preamble (ih hkeys ⟨isLegibleIn_iff.1 hlegible, hnodup⟩ hinner')
      | .scalar _ _ | .array _ _ _ _ | .inline _ false _ _ => exact absurd hrevised nofun

theorem AreEntries.assignAll? {pairs : List Assignment} {entries assigned : List (Key × Value)}
    (hpairs : ∀ a ∈ pairs, a.IsLegible) (hentries : AreEntries entries)
    (h : Value.assignAll? entries pairs = some assigned) :
    AreEntries assigned ∧ (assigned ≠ [] → entries ≠ [] ∨ pairs ≠ []) := by
  induction pairs generalizing entries with
  | nil => exact Option.some.inj h ▸ ⟨hentries, .inl⟩
  | cons a rest ih =>
    obtain ⟨ha, hrest⟩ := List.forall_mem_cons.1 hpairs
    obtain ⟨next, hnext, hassigned⟩ := Option.bind_eq_some_iff.1 h
    exact ⟨(ih hrest (hentries.assignIn? ha.parents ha.last hnext).1 hassigned).1,
      fun _ => .inr (List.cons_ne_nil a rest)⟩

end Value

/-! ### Values -/

theorem isPrintable_of_isDigit {c : Char} (h : Text.isDigit c) : isPrintable c := by
  simp only [Text.isDigit, Bool.and_eq_true, decide_eq_true_eq, Char.le_def, UInt32.le_iff_toNat_le] at h
  have hbounds : 48 ≤ c.toNat ∧ c.toNat ≤ 57 := h
  simp only [isPrintable, Bool.or_eq_true, Bool.and_eq_true, decide_eq_true_eq, bne_iff_ne]
  omega

theorem head_of_valueWithin {r : Value × List Char} (h : valueWithin depth cs = some r) :
    ∃ c more, cs = c :: more ∧ isPrintable c := by
  cases cs with
  | nil => cases depth <;> exact absurd h nofun
  | cons c more =>
    refine ⟨c, more, rfl, ?_⟩
    by_contra hc
    have hne : ∀ d ∈ ['[', '\x7b', '"', '\'', 't', 'f', '-', '+', 'i', 'n'], c ≠ d := by
      have hall : ∀ d ∈ ['[', '\x7b', '"', '\'', 't', 'f', '-', '+', 'i', 'n'], isPrintable d :=
        List.all_iff_forall_prop.1 (by decide)
      rintro d hd rfl
      exact hc (hall c hd)
    have hdigit : Text.isDigit c = false :=
      Bool.eq_false_iff.2 fun hdigit => hc (isPrintable_of_isDigit hdigit)
    rw [valueWithin_of_head (by simp [hne]), simpleValue_of_head (by simp [hne]),
      scalar_eq_none hdigit (by simp [hne])] at h
    exact absurd h nofun

theorem readsLegibly_valueWithin (depth : Nat) : ReadsLegibly (valueWithin depth) := by
  have hsimple {cs rest : List Char} {v : Value} (h : simpleValue cs = some (v, rest))
    (hrest : EndsValue rest) :
      v.IsLegible ∧ v.isDotted = false := by
    obtain ⟨s, rfl, hs⟩ := isLegible_of_simpleValue h hrest
    exact ⟨hs, rfl⟩
  induction depth with
  | zero =>
    refine ⟨fun h hrest => ?_, head_of_valueWithin⟩
    rw [valueWithin] at h
    split at h
    · exact absurd h nofun
    · exact hsimple h hrest
  | succ depth ih =>
    refine ⟨fun h hrest => ?_, head_of_valueWithin⟩
    unfold valueWithin at h
    split at h
    · obtain ⟨⟨elements, _⟩, helements, heq⟩ := Option.bind_eq_some_iff.1 h
      obtain ⟨rfl, rfl⟩ := Prod.mk.inj (Option.some.inj heq)
      obtain ⟨hvs, htrailing, hcomma, -⟩ := areLegible_of_elementsFrom ih helements
      exact ⟨⟨hvs, htrailing, hcomma⟩, rfl⟩
    · obtain ⟨⟨⟨preamble, pairs⟩, _⟩, hpairs, h⟩ := Option.bind_eq_some_iff.1 h
      obtain ⟨entries, hentries, heq⟩ := Option.bind_eq_some_iff.1 h
      obtain ⟨rfl, rfl⟩ := Prod.mk.inj (Option.some.inj heq)
      obtain ⟨hblank, hempty, hall⟩ := isLegible_of_pairsFrom ih hpairs
      obtain ⟨hlegible, hne⟩ := Value.areEntries_nil.assignAll? hall hentries
      exact ⟨⟨Value.isLegibleIn_iff.2 hlegible.legible, hlegible.nodup, hblank,
        fun h => hempty ((hne h).resolve_left (absurd rfl))⟩, rfl⟩
    · exact hsimple h hrest

end FeatureForwarding.Toml
