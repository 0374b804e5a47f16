import FeatureForwarding.Proofs.Toml.Legible
import FeatureForwarding.Proofs.Toml.ReadValues
import FeatureForwarding.Proofs.Toml.Regrouping

/-! Lines and headers that were read can be read again, and so can the text around them. -/

namespace FeatureForwarding.Toml

open Lexeme Reading

variable {cs rest : List Char} {lead : String} {fuel : Nat}

/-! ### Lines -/

/-- A line can be read again. -/
structure Assignment.IsLine (a : Assignment) : Prop where
  parents : ∀ key ∈ a.path.parents, key.IsLegible ∧ key.decor = {}
  last : a.path.last.MakesLine a.value

/-- The header and the lines below it can be read again. -/
structure Section.IsLegible (s : Section) : Prop where
  parents : ∀ key ∈ s.path.parents, key.IsLegible ∧ key.decor = {}
  last : s.path.last.IsLegible
  around : s.path.last.decor.IsBlank
  ends : s.path.last.EndsHeader
  decor : s.decor.IsAroundHeader
  body : ∀ a ∈ s.body, a.IsLine

theorem endsLine_of_lineTail {before : Option String} {text : String} (h : lineTail cs = some (text, rest)) :
    Decor.EndsLine ⟨before, some text⟩ := by
  obtain ⟨htail, htext, -⟩ := exists_of_lineTail h
  simpa [Decor.EndsLine, htext] using htail

theorem isLine_of_assignment {a : Assignment} (hlead : IsGap (withoutReturns lead))
    (h : Reading.assignment lead cs = some (a, rest)) : a.IsLine := by
  obtain ⟨⟨path, next⟩, hpath, h⟩ := Option.bind_eq_some_iff.1 h
  obtain ⟨next', -, h⟩ := Option.bind_eq_some_iff.1 h
  cases hbefore : spaces next' with
  | mk before start =>
  simp only [hbefore] at h
  obtain ⟨⟨v, next''⟩, hv, h⟩ := Option.bind_eq_some_iff.1 h
  obtain ⟨⟨after, _⟩, hafter, heq⟩ := Option.bind_eq_some_iff.1 h
  obtain ⟨rfl, rfl⟩ := Prod.mk.inj (Option.some.inj heq)
  obtain ⟨hparents, hlast, hdecor, -⟩ := isLegible_of_keyPath hpath
  obtain ⟨hlegible, hdotted⟩ := (readsLegibly_valueWithin _).legible hv (endsValue_of_lineTail hafter)
  refine ⟨hparents, ⟨⟨hlast.spells, hlast.dots⟩, by simpa [Decor.IsLead] using hlead,
    hdecor.2, (isDotted_withDecor ..).trans hdotted, ?_, ?_, (isLegible_withDecor ..).2 hlegible⟩⟩
  · rw [decor_withDecor]
    simpa using (exists_of_spaces hbefore).1
  · rw [decor_withDecor]
    exact endsLine_of_lineTail hafter

/-! ### Headers -/

theorem isLegible_of_header {s : Section} (hlead : IsGap (withoutReturns lead))
    (h : Reading.header lead cs = some (s, rest)) : s.IsLegible := by
  have hheader {isArray : Bool} {path : KeyPath} {after : String} {cs cs' rest rest' : List Char}
      (hpath : keyPath cs = some (path, rest)) (hafter : lineTail cs' = some (after, rest')) :
      Section.IsLegible ⟨isArray, path, ⟨some lead, some after⟩, []⟩ := by
    obtain ⟨hparents, hlast, hdecor, hdots⟩ := isLegible_of_keyPath hpath
    refine ⟨hparents, hlast, hdecor, ?_,
      ⟨by simpa [Decor.IsLead] using hlead, endsLine_of_lineTail hafter⟩, by simp⟩
    rw [Key.EndsHeader, Decor.textAfter, hdots]
    rfl
  unfold Reading.header at h
  split at h
  · obtain ⟨⟨path, next⟩, hpath, h⟩ := Option.bind_eq_some_iff.1 h
    obtain ⟨_, -, h⟩ := Option.bind_eq_some_iff.1 h
    obtain ⟨_, -, h⟩ := Option.bind_eq_some_iff.1 h
    obtain ⟨⟨after, _⟩, hafter, heq⟩ := Option.bind_eq_some_iff.1 h
    obtain ⟨rfl, rfl⟩ := Prod.mk.inj (Option.some.inj heq)
    exact hheader hpath hafter
  · obtain ⟨⟨path, next⟩, hpath, h⟩ := Option.bind_eq_some_iff.1 h
    obtain ⟨_, -, h⟩ := Option.bind_eq_some_iff.1 h
    obtain ⟨⟨after, _⟩, hafter, heq⟩ := Option.bind_eq_some_iff.1 h
    obtain ⟨rfl, rfl⟩ := Prod.mk.inj (Option.some.inj heq)
    exact hheader hpath hafter
  · exact absurd h (Option.some_ne_none _).symm

/-! ### Texts -/

/-- What the lines of a text are like. -/
structure Reading.Lines.AreLegible (read : Lines) : Prop where
  body : ∀ a ∈ read.body, a.IsLine
  sections : ∀ s ∈ read.sections, s.IsLegible
  trailing : IsTrailing (withoutReturns read.trailing)

theorem areLegible_of_lines {read : Lines} (h : lines fuel cs = some read) : read.AreLegible := by
  induction fuel generalizing cs read with
  | zero => exact absurd h nofun
  | succ fuel ih =>
    obtain ⟨start, hstart, h⟩ := Option.bind_eq_some_iff.1 h
    obtain ⟨front, rfl, -, after, hafter, hopen⟩ := exists_of_dropLeadFrom hstart
    rw [consumed_append] at h
    have htrailing : IsTrailing (withoutReturns (String.ofList front)) := by
      rw [IsTrailing, withoutReturns_ofList, String.toList_ofList, hafter]
      rfl
    -- in front of a line or header every comment is closed
    have hlead (hne : start ≠ []) : IsGap (withoutReturns (String.ofList front)) := by
      obtain rfl : after = false := Bool.eq_false_iff.2 fun htrue => hne (hopen htrue)
      rw [IsGap, withoutReturns_ofList, String.toList_ofList, hafter]
    split at h
    · obtain rfl := Option.some.inj h
      exact ⟨by simp, by simp, htrailing⟩
    · obtain ⟨⟨s, next⟩, hs, h⟩ := Option.bind_eq_some_iff.1 h
      obtain ⟨below, hbelow, heq⟩ := Option.bind_eq_some_iff.1 h
      obtain rfl := Option.some.inj heq
      obtain ⟨hparents, hlast, haround, hends, hdecor, -⟩ := isLegible_of_header (hlead (by simp)) hs
      obtain ⟨hbody, hsections, htrailing⟩ := ih hbelow
      exact ⟨by simp, List.forall_mem_cons.2
        ⟨⟨hparents, hlast, haround, hends, hdecor, hbody⟩, hsections⟩, htrailing⟩
    · next hne _ =>
      obtain ⟨⟨a, next⟩, ha, h⟩ := Option.bind_eq_some_iff.1 h
      obtain ⟨below, hbelow, heq⟩ := Option.bind_eq_some_iff.1 h
      obtain rfl := Option.some.inj heq
      obtain ⟨hbody, hsections, htrailing⟩ := ih hbelow
      exact ⟨List.forall_mem_cons.2 ⟨isLine_of_assignment (hlead hne) ha, hbody⟩, hsections, htrailing⟩

end FeatureForwarding.Toml
