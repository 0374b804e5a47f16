import FeatureForwarding.Lint.Spacing
import FeatureForwarding.Proofs.Toml.Positions

/-! The two walks over the headers of a document, the one that collects them and the one that gives them
blank lines. Both reach the spots that are not under a table made by dotted keys, and both spell the way
to a spot in the same manner; brackets in keys make that ambiguous. -/

namespace FeatureForwarding

open Toml (Key Item Table Step Spot)

namespace Toml

/-- How a step is spelled where headers are told apart. -/
def Step.label : Step → String
  | .key name => name
  | .element name index => Lint.elementName name index

def Spot.labels (spot : Spot) : List String := spot.place.map Step.label

/-- A header that is found without passing a table made by dotted keys. -/
def Spot.isReached (spot : Spot) : Bool := !spot.isUnderDotted && spot.isHeader

def Table.reachedHeaders (t : Table) : List Spot := t.spots.filter Spot.isReached

end Toml

namespace Lint

variable {first : Option HeaderPath} {path : HeaderPath} {root : Table} {spot other : Spot}

/-! ### Labels -/

theorem toList_elementName (name : String) (index : Nat) :
    (elementName name index).toList = name.toList ++ '[' :: (Nat.toDigits 10 index ++ [']']) := by
  simp [elementName]

/-- Without brackets in keys labels tell steps apart. -/
theorem eq_of_label {step step' : Step} (h : '[' ∉ step.name.toList) (h' : '[' ∉ step'.name.toList)
    (heq : step.label = step'.label) : step = step' := by
  have htext := congrArg String.toList heq
  cases step <;> cases step' <;> simp only [Step.label, Step.name, toList_elementName] at h h' htext
  case key.key name name' => rw [String.toList_inj.1 htext]
  case key.element name name' index => simp [htext] at h
  case element.key name index name' => simp [← htext] at h'
  case element.element name index name' index' =>
    have hdigits : '[' ∉ Nat.toDigits 10 index ++ [']'] := fun hmem => by
      rcases List.mem_append.1 hmem with hmem | hmem
      · exact absurd (Nat.isDigit_of_mem_toDigits (by decide) (by decide) hmem) (by decide)
      · exact absurd hmem (by decide)
    obtain ⟨hname, -, hindex⟩ := (List.append_cons_inj_of_notMem h hdigits).1 htext
    have hvalue := congrArg (Nat.ofDigitChars 10 · 0) (List.append_cancel_right hindex)
    simp only [Nat.ofDigitChars_ten_toDigits] at hvalue
    rw [String.toList_inj.1 hname, hvalue]

theorem place_eq_of_labels (h : ∀ step ∈ spot.place, '[' ∉ step.name.toList)
    (h' : ∀ step ∈ other.place, '[' ∉ step.name.toList) (heq : spot.labels = other.labels) :
    spot.place = other.place := by
  unfold Spot.labels at heq
  generalize spot.place = place at *
  generalize other.place = place' at *
  induction place generalizing place' with
  | nil => exact (List.map_eq_nil_iff.1 heq.symm).symm
  | cons step rest ih =>
    obtain ⟨step', rest', rfl, hstep, hrest⟩ := List.map_eq_cons_iff.1 heq.symm
    obtain ⟨hfree, hfree'⟩ := List.forall_mem_cons.1 h, List.forall_mem_cons.1 h'
    rw [eq_of_label hfree.1 hfree'.1 hstep.symm, ih hfree.2 rest' hfree'.2 hrest.symm]

/-! ### The headers that are collected -/

def headerAt (path : HeaderPath) (spot : Spot) : Header :=
  ⟨spot.table.position, path ++ spot.labels⟩

theorem isReached_under (step : Step) (t : Table) (spot : Spot) :
    (spot.under step t).isReached = (!step.isDotted t && spot.isReached) := by
  simp [Spot.isReached, Spot.under, Spot.isHeader, Bool.and_assoc]

theorem labels_under (step : Step) (t : Table) (spot : Spot) :
    (spot.under step t).labels = [step.label] ++ spot.labels := rfl

theorem headerAt_under (path : HeaderPath) (step : Step) (t : Table) (spot : Spot) :
    headerAt path (spot.under step t) = headerAt (path ++ [step.label]) spot := by
  rw [headerAt, headerAt, List.append_assoc, ← labels_under step t]
  rfl

theorem isHeader_of_isDotted {step : Step} {t : Table} (h : step.isDotted t = true) :
    step.isHeader t = false := by
  cases step <;> simp_all [Step.isDotted, Step.isHeader]

/-- What is found at the end of a step: nothing if dotted keys made the table, and else its header, if
it has one, and those below it. -/
theorem reached_spotsFrom (path : HeaderPath) (step : Step) (t : Table) :
    ((t.spotsFrom step).filter Spot.isReached).map (headerAt path) =
      if step.isDotted t then []
      else (if step.isHeader t then [⟨t.position, path ++ [step.label]⟩] else []) ++
        t.reachedHeaders.map (headerAt (path ++ [step.label])) := by
  have hbelow : ((t.spots.map (Spot.under step t)).filter Spot.isReached).map (headerAt path) =
      (t.spots.filter fun spot => !step.isDotted t && spot.isReached).map
        (headerAt (path ++ [step.label])) := by
    rw [List.filter_map, List.map_map]
    simp only [Function.comp_def, isReached_under, headerAt_under]
  have hself : (Spot.atStep step t).isReached = step.isHeader t := rfl
  rw [Table.spotsFrom, List.filter_cons, hself]
  by_cases hdotted : step.isDotted t = true
  · rw [isHeader_of_isDotted hdotted, if_pos hdotted]
    simp [hbelow, hdotted]
  · rw [if_neg hdotted]
    have hdotted : step.isDotted t = false := by simpa using hdotted
    rw [hdotted] at hbelow
    simp only [Bool.not_false, Bool.true_and] at hbelow
    split
    · rw [List.map_cons, hbelow]
      rfl
    · rw [hbelow]
      rfl

mutual

theorem headersBelow_eq (path : HeaderPath) (t : Table) :
    headersBelow path t = t.reachedHeaders.map (headerAt path) := by
  obtain ⟨_, _, _, entries⟩ := t
  rw [headersBelow, headersIn_eq path entries, Table.reachedHeaders, Table.spots]
  termination_by structural t

theorem headersIn_eq (path : HeaderPath) (entries : List (Key × Item)) :
    headersIn path entries = ((Item.spotsIn entries).filter Spot.isReached).map (headerAt path) := by
  match entries with
  | [] => rfl
  | (_, .value _) :: rest => exact headersIn_eq path rest
  | (key, .table t) :: rest =>
    have hbelow := headersBelow_eq (path ++ [key.name]) t
    rw [headersIn, Item.spotsIn, ← Table.spotsFrom, List.filter_append, List.map_append,
      reached_spotsFrom, ← headersIn_eq path rest]
    cases horigin : t.origin <;> simp [Step.isDotted, Step.isHeader, Step.label, horigin, hbelow]
  | (key, .tables ts) :: rest =>
    rw [headersIn, Item.spotsIn, List.filter_append, List.map_append, ← headersIn_eq path rest,
      headersOfArray_eq path key.name 0 ts]
  termination_by structural entries

theorem headersOfArray_eq (path : HeaderPath) (name : String) (index : Nat) (ts : List Table) :
    headersOfArray path name index ts =
      ((Table.spotsOfArray name index ts).filter Spot.isReached).map (headerAt path) := by
  match ts with
  | [] => rfl
  | t :: ts =>
    have hbelow := headersBelow_eq (path ++ [elementName name index]) t
    rw [headersOfArray, Table.spotsOfArray, ← Table.spotsFrom, List.filter_append, List.map_append,
      reached_spotsFrom, ← headersOfArray_eq path name (index + 1) ts]
    simp [Step.isDotted, Step.isHeader, Step.label, hbelow]
  termination_by structural ts

end

/-! ### The headers that get blank lines -/

/-- What becomes of the table at the end of a step. -/
def spaceStep (first : Option HeaderPath) (here : HeaderPath) (step : Step) (t : Table) : Table :=
  if step.isDotted t then t
  else if step.isHeader t then spaceHeader first here (spaceBelow first here t)
  else spaceBelow first here t

def spaced (first : Option HeaderPath) (path : HeaderPath) (spot : Spot) : Spot :=
  if spot.isUnderDotted then spot
  else { spot with table := spaceStep first (path ++ spot.labels) spot.last spot.table }

theorem spots_spaceHeader (t : Table) : (spaceHeader first path t).spots = t.spots := by
  rw [Table.spots_eq, Table.spots_eq]
  rfl

theorem origin_spaceBelow (t : Table) : (spaceBelow first path t).origin = t.origin := by
  cases t
  rw [spaceBelow]

theorem position_spaceBelow (t : Table) : (spaceBelow first path t).position = t.position := by
  cases t
  rw [spaceBelow]

theorem decor_spaceBelow (t : Table) : (spaceBelow first path t).decor = t.decor := by
  cases t
  rw [spaceBelow]

theorem origin_spaceStep (step : Step) (t : Table) :
    (spaceStep first path step t).origin = t.origin := by
  unfold spaceStep
  split
  · rfl
  · split <;> exact origin_spaceBelow t

theorem position_spaceStep (step : Step) (t : Table) :
    (spaceStep first path step t).position = t.position := by
  unfold spaceStep
  split
  · rfl
  · split <;> exact position_spaceBelow t

theorem decor_spaceStep (step : Step) (t : Table) : (spaceStep first path step t).decor =
    if step.isHeader t then { t.decor with before := some (if first = some path then "" else "\n") }
    else t.decor := by
  unfold spaceStep
  split
  · next hdotted => rw [if_neg (by simp [isHeader_of_isDotted hdotted])]
  · split
    · rw [spaceHeader, decor_spaceBelow]
    · exact decor_spaceBelow t

theorem isDotted_spaceStep (step : Step) (t : Table) :
    step.isDotted (spaceStep first path step t) = step.isDotted t := by
  cases step
  · simp only [Step.isDotted, origin_spaceStep]
  · rfl

theorem spaced_under {step : Step} {t t' : Table} (h : step.isDotted t = false)
    (h' : step.isDotted t' = false) :
    spaced first path (spot.under step t) = (spaced first (path ++ [step.label]) spot).under step t' := by
  have hunder : (spot.under step t).isUnderDotted = spot.isUnderDotted := by simp [Spot.under, h]
  unfold spaced
  rw [hunder, labels_under, ← List.append_assoc]
  split <;> simp [Spot.under, h, h']

theorem spaced_spotsFrom (step : Step) {t : Table} (hbelow :
    (spaceBelow first (path ++ [step.label]) t).spots = t.spots.map (spaced first (path ++ [step.label]))) :
    (spaceStep first (path ++ [step.label]) step t).spotsFrom step =
      (t.spotsFrom step).map (spaced first path) := by
  rw [Table.spotsFrom, Table.spotsFrom, List.map_cons, List.map_map]
  have hself : spaced first path (.atStep step t) =
      .atStep step (spaceStep first (path ++ [step.label]) step t) := rfl
  rw [hself, List.cons.injEq]
  refine ⟨rfl, ?_⟩
  by_cases hdotted : step.isDotted t = true
  · -- below a table made by dotted keys nothing changes
    rw [spaceStep, if_pos hdotted]
    refine List.map_congr_left fun spot _ => ?_
    rw [Function.comp_apply, spaced, if_pos (by simp [Spot.under, hdotted])]
  · have hdotted : step.isDotted t = false := by simpa using hdotted
    have hspots : (spaceStep first (path ++ [step.label]) step t).spots =
        t.spots.map (spaced first (path ++ [step.label])) := by
      rw [← hbelow, spaceStep, if_neg (by simp [hdotted])]
      split
      · exact spots_spaceHeader _
      · rfl
    rw [hspots, List.map_map]
    refine List.map_congr_left fun spot _ => (spaced_under hdotted ?_).symm
    rw [isDotted_spaceStep, hdotted]

mutual

theorem spots_spaceBelow (first : Option HeaderPath) (path : HeaderPath) (t : Table) :
    (spaceBelow first path t).spots = t.spots.map (spaced first path) := by
  obtain ⟨_, _, _, entries⟩ := t
  rw [spaceBelow, Table.spots, Table.spots, spotsIn_spaceIn first path entries]
  termination_by structural t

theorem spotsIn_spaceIn (first : Option HeaderPath) (path : HeaderPath) (entries : List (Key × Item)) :
    Item.spotsIn (spaceIn first path entries) = (Item.spotsIn entries).map (spaced first path) := by
  match entries with
  | [] => rfl
  | (_, .value _) :: rest => exact spotsIn_spaceIn first path rest
  | (key, .table t) :: rest =>
    have hbelow := spots_spaceBelow first (path ++ [key.name]) t
    have hstep : spaceIn first path ((key, .table t) :: rest) =
        (key, .table (spaceStep first (path ++ [key.name]) (.key key.name) t)) ::
          spaceIn first path rest := by
      rw [spaceIn, spaceStep]
      cases horigin : t.origin <;> simp [Step.isDotted, Step.isHeader, horigin]
    rw [hstep, Item.spotsIn, Item.spotsIn, ← Table.spotsFrom, ← Table.spotsFrom, List.map_append,
      spotsIn_spaceIn first path rest, ← spaced_spotsFrom (.key key.name) hbelow]
    rfl
  | (key, .tables ts) :: rest =>
    rw [spaceIn, Item.spotsIn, Item.spotsIn, List.map_append, spotsIn_spaceIn first path rest,
      spotsOfArray_spaceArray first path key.name 0 ts]
  termination_by structural entries

theorem spotsOfArray_spaceArray (first : Option HeaderPath) (path : HeaderPath) (name : String)
    (index : Nat) (ts : List Table) :
    Table.spotsOfArray name index (spaceArray first path name index ts) =
      (Table.spotsOfArray name index ts).map (spaced first path) := by
  match ts with
  | [] => rfl
  | t :: ts =>
    have hbelow := spots_spaceBelow first (path ++ [elementName name index]) t
    have hstep : spaceHeader first (path ++ [elementName name index])
          (spaceBelow first (path ++ [elementName name index]) t) =
        spaceStep first (path ++ [elementName name index]) (.element name index) t := rfl
    rw [spaceArray, Table.spotsOfArray, Table.spotsOfArray, ← Table.spotsFrom, ← Table.spotsFrom,
      List.map_append, spotsOfArray_spaceArray first path name (index + 1) ts,
      ← spaced_spotsFrom (.element name index) hbelow, hstep]
    rfl
  termination_by structural ts

end

/-! ### The header that opens the text -/

theorem leastFrom_eq_some {best : Option (Nat × HeaderPath)} {headers : List Header}
    (h : leastFrom best headers = some path) :
    ∃ n, (best = some (n, path) ∨
        ∃ header ∈ headers, header.position = some n ∧ header.path = path) ∧
      (∀ known ∈ best, n ≤ known.1) ∧ ∀ header ∈ headers, ∀ m ∈ header.position, n ≤ m := by
  fun_induction leastFrom best headers with
  | case1 best =>
    obtain ⟨⟨n, _⟩, rfl, rfl⟩ := Option.map_eq_some_iff.1 h
    exact ⟨n, .inl rfl, by simp, nofun⟩
  | case2 best header rest hnone ih =>
    obtain ⟨n, hfrom, hbest, hrest⟩ := ih h
    exact ⟨n, hfrom.imp_right List.exists_mem_cons_of_exists, hbest,
      List.forall_mem_cons.2 ⟨by simp [hnone], hrest⟩⟩
  | case3 header rest position hposition ih =>
    obtain ⟨n, hfrom, hbest, hrest⟩ := ih h
    refine ⟨n, .inr ?_, nofun, List.forall_mem_cons.2 ⟨by simpa [hposition] using hbest, hrest⟩⟩
    rcases hfrom with hfrom | hfound
    · obtain ⟨rfl, rfl⟩ := Prod.mk.inj (Option.some.inj hfrom)
      exact ⟨header, List.mem_cons_self, hposition, rfl⟩
    · exact List.exists_mem_cons_of_exists hfound
  | case4 header rest position least path' hposition hlt ih =>
    obtain ⟨n, hfrom, hbest, hrest⟩ := ih h
    have hle : n ≤ position := hbest _ rfl
    refine ⟨n, .inr ?_, by simp; omega,
      List.forall_mem_cons.2 ⟨by simpa [hposition] using hle, hrest⟩⟩
    rcases hfrom with hfrom | hfound
    · obtain ⟨rfl, rfl⟩ := Prod.mk.inj (Option.some.inj hfrom)
      exact ⟨header, List.mem_cons_self, hposition, rfl⟩
    · exact List.exists_mem_cons_of_exists hfound
  | case5 header rest position least path' hposition hlt ih =>
    obtain ⟨n, hfrom, hbest, hrest⟩ := ih h
    have hle : n ≤ least := hbest _ rfl
    exact ⟨n, hfrom.imp_right List.exists_mem_cons_of_exists, hbest,
      List.forall_mem_cons.2 ⟨by simp [hposition]; omega, hrest⟩⟩

theorem leastFrom_eq_none {best : Option (Nat × HeaderPath)} {headers : List Header} :
    leastFrom best headers = none ↔ best = none ∧ ∀ header ∈ headers, header.position = none := by
  fun_induction leastFrom best headers with
  | case1 best => simp
  | case2 best header rest hnone ih => simp [ih, hnone]
  | case3 header rest position hposition ih => simp [ih, hposition]
  | case4 header rest position least path' hposition hlt ih => simp [ih]
  | case5 header rest position least path' hposition hlt ih => simp [ih]

end Lint

end FeatureForwarding
