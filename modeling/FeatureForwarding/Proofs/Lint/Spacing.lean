import FeatureForwarding.Proofs.Lint.Arranged
import FeatureForwarding.Proofs.Lint.Canonical
import FeatureForwarding.Proofs.Lint.Headers

/-! Which headers get which blank line. One header can open the text, and the pass recognizes it by how
the way to it is spelled; what it leaves above each header, and when that is right for all of them,
follows from which headers it reaches and which of those are spelled alike. -/

namespace FeatureForwarding

open Toml (Key Item Table Step Spot)

namespace Lint

variable {root : Table} {spot other : Spot} {headers : List Spot}

/-! ### The header that opens the text -/

def hasValues (root : Table) : Bool := root.entries.any fun entry => isValue entry.2

/-- The spot has a position, and none of the others has a smaller one. -/
def IsFirst (spots : List Spot) (spot : Spot) : Prop :=
  ∃ n ∈ spot.table.position, ∀ other ∈ spots, ∀ m ∈ other.table.position, n ≤ m

instance (spots : List Spot) (spot : Spot) : Decidable (IsFirst spots spot) :=
  inferInstanceAs (Decidable (∃ n ∈ spot.table.position, _))

/-- No value stands above the headers, and this one is the first of them. -/
def Opens (root : Table) (headers : List Spot) (spot : Spot) : Prop :=
  hasValues root = false ∧ IsFirst headers spot

instance (root : Table) (headers : List Spot) (spot : Spot) : Decidable (Opens root headers spot) :=
  inferInstanceAs (Decidable (_ ∧ _))

/-- What a header should have above itself. -/
def above (root : Table) (spot : Spot) : String :=
  if Opens root root.headers spot then "" else "\n"

/-- One blank line above every header except the one that opens the text. -/
def HasBlankLines (root : Table) : Prop :=
  ∀ spot ∈ root.headers, spot.table.decor.before = some (above root spot)

instance (root : Table) : Decidable (HasBlankLines root) :=
  inferInstanceAs (Decidable (∀ spot ∈ root.headers, _))

theorem mem_reachedHeaders :
    spot ∈ root.reachedHeaders ↔ spot ∈ root.headers ∧ spot.isUnderDotted = false := by
  rw [Table.reachedHeaders, Table.headers, List.mem_filter, List.mem_filter, Spot.isReached]
  simp only [Bool.and_eq_true, Bool.not_eq_true']
  exact ⟨fun h => ⟨⟨h.1, h.2.2⟩, h.2.1⟩, fun h => ⟨h.1.1, h.2, h.1.2⟩⟩

/-- Of two first spots neither has the smaller position. -/
theorem IsFirst.eq (hroot : root.HasDistinctPositions) (h : IsFirst headers spot)
    (h' : IsFirst headers other) (hspot : spot ∈ headers) (hother : other ∈ headers)
    (hheaders : headers ⊆ root.spots) : spot = other := by
  obtain ⟨n, hn, hle⟩ := h
  obtain ⟨m, hm, hle'⟩ := h'
  have heq : n = m := Nat.le_antisymm (hle other hother m hm) (hle' spot hspot n hn)
  exact hroot.eq_of_position (hheaders hspot) (hheaders hother) hn (heq ▸ hm)

theorem firstHeader_eq_some_iff (hroot : root.HasDistinctPositions) {labels : HeaderPath} :
    firstHeader root = some labels ↔
      ∃ first ∈ root.reachedHeaders, Opens root root.reachedHeaders first ∧ first.labels = labels := by
  have hcollected : headersBelow [] root = root.reachedHeaders.map (headerAt []) := headersBelow_eq [] root
  have hfound {labels : HeaderPath} (h : firstHeader root = some labels) :
      ∃ first ∈ root.reachedHeaders, Opens root root.reachedHeaders first ∧ first.labels = labels := by
    unfold firstHeader at h
    split at h
    · simp at h
    · next hvalues =>
      obtain ⟨n, hfrom, -, hle⟩ := leastFrom_eq_some h
      rw [hcollected] at hfrom hle
      obtain ⟨header, hheader, hn, rfl⟩ := hfrom.resolve_left (by simp)
      obtain ⟨first, hfirst, rfl⟩ := List.mem_map.1 hheader
      refine ⟨first, hfirst, ⟨by simpa [hasValues] using hvalues, n, hn, fun other hother => ?_⟩, rfl⟩
      exact hle (headerAt [] other) (List.mem_map_of_mem hother)
  refine ⟨hfound, ?_⟩
  rintro ⟨first, hfirst, ⟨hvalues, hleast⟩, rfl⟩
  cases h : firstHeader root with
  | none =>
    obtain ⟨n, hn, -⟩ := hleast
    rw [hasValues] at hvalues
    rw [firstHeader, hvalues, if_neg Bool.false_ne_true, hcollected] at h
    have hnone := (leastFrom_eq_none.1 h).2 (headerAt [] first) (List.mem_map_of_mem hfirst)
    exact absurd (hn.symm.trans hnone) (Option.some_ne_none n)
  | some labels =>
    obtain ⟨found, hmem, ⟨-, hfirst'⟩, rfl⟩ := hfound h
    rw [hfirst'.eq hroot hleast hmem hfirst (List.filter_subset_self _)]

/-! ### What becomes of a header -/

/-- The first header that is reached is spelled like this one. -/
def IsSpelledFirst (root : Table) (spot : Spot) : Prop :=
  ∃ first ∈ root.reachedHeaders, Opens root root.reachedHeaders first ∧ first.labels = spot.labels

instance (root : Table) (spot : Spot) : Decidable (IsSpelledFirst root spot) :=
  inferInstanceAs (Decidable (∃ first ∈ root.reachedHeaders, _))

/-- The text around a header after the pass. -/
def decorAfter (root : Table) (spot : Spot) : Toml.Decor :=
  if spot.isUnderDotted then spot.table.decor
  else { spot.table.decor with before := some (if IsSpelledFirst root spot then "" else "\n") }

theorem place_spaced (first : Option HeaderPath) (path : HeaderPath) (spot : Spot) :
    (spaced first path spot).place = spot.place := by
  unfold spaced
  split <;> rfl

theorem position_spaced (first : Option HeaderPath) (path : HeaderPath) (spot : Spot) :
    (spaced first path spot).table.position = spot.table.position := by
  unfold spaced
  split
  · rfl
  · exact position_spaceStep ..

theorem isHeader_spaced (first : Option HeaderPath) (path : HeaderPath) (spot : Spot) :
    (spaced first path spot).isHeader = spot.isHeader := by
  unfold spaced
  split
  · rfl
  · cases hlast : spot.last <;> simp [Spot.isHeader, Step.isHeader, hlast, origin_spaceStep]

theorem headers_spaceBelow (first : Option HeaderPath) (root : Table) :
    (spaceBelow first [] root).headers = root.headers.map (spaced first []) := by
  rw [Table.headers, spots_spaceBelow, List.filter_map]
  simp only [Function.comp_def, isHeader_spaced]
  rfl

theorem decor_spaced (hroot : root.HasDistinctPositions) (hspot : spot ∈ root.headers) :
    (spaced (firstHeader root) [] spot).table.decor = decorAfter root spot := by
  unfold spaced decorAfter
  split
  · rfl
  · have hheader : spot.last.isHeader spot.table = true := (List.mem_filter.1 hspot).2
    have hfirst : firstHeader root = some ([] ++ spot.labels) ↔ IsSpelledFirst root spot :=
      firstHeader_eq_some_iff hroot
    rw [decor_spaceStep, if_pos hheader]
    simp only [hfirst]

/-- The pass does not change what headers should have above them. -/
theorem above_spaced (first : Option HeaderPath) (root : Table) (spot : Spot) :
    above (spaceBelow first [] root) (spaced first [] spot) = above root spot := by
  have hopens : Opens (spaceBelow first [] root) (spaceBelow first [] root).headers (spaced first [] spot) ↔
      Opens root root.headers spot := by
    unfold Opens IsFirst hasValues
    rw [any_isValue_spaceBelow, position_spaced, headers_spaceBelow]
    simp only [List.forall_mem_map, position_spaced]
  simp only [above, hopens]

theorem above_eq_empty_iff : above root spot = "" ↔ Opens root root.headers spot := by
  unfold above
  split <;> simp_all

/-- Of the headers that are found the first one is the first of all, and no other is spelled like it. -/
def FindsFirst (root : Table) : Prop :=
  ∀ first ∈ root.reachedHeaders, Opens root root.reachedHeaders first →
    Opens root root.headers first ∧
      ∀ other ∈ root.reachedHeaders, other.labels = first.labels → other.place = first.place

theorem hasBlankLines_spaceHeaders_iff (hkeys : root.HasDistinctKeys) (hroot : root.HasDistinctPositions) :
    HasBlankLines (spaceHeaders root) ↔
      (∀ spot ∈ root.headers, spot.isUnderDotted = true →
        spot.table.decor.before = some (above root spot)) ∧ FindsFirst root := by
  have hafter : HasBlankLines (spaceHeaders root) ↔
      ∀ spot ∈ root.headers, (decorAfter root spot).before = some (above root spot) := by
    unfold HasBlankLines spaceHeaders
    rw [headers_spaceBelow, List.forall_mem_map]
    refine forall₂_congr fun spot hspot => ?_
    rw [decor_spaced hroot hspot, above_spaced]
  rw [hafter]
  constructor
  · intro h
    have hspelled {spot : Spot} (hspot : spot ∈ root.reachedHeaders) (hfirst : IsSpelledFirst root spot) :
        Opens root root.headers spot := by
      obtain ⟨hheader, hdotted⟩ := mem_reachedHeaders.1 hspot
      have habove := h spot hheader
      rw [decorAfter, if_neg (by simp [hdotted]), if_pos hfirst] at habove
      exact above_eq_empty_iff.1 (Option.some.inj habove).symm
    refine ⟨fun spot hspot hdotted => ?_, fun first hfirst hopens => ?_⟩
    · have habove := h spot hspot
      rwa [decorAfter, if_pos hdotted] at habove
    · have hall := hspelled hfirst ⟨first, hfirst, hopens, rfl⟩
      refine ⟨hall, fun other hother hlabels => ?_⟩
      have hother' := hspelled hother ⟨first, hfirst, hopens, hlabels.symm⟩
      rw [hother'.2.eq hroot hall.2 (mem_reachedHeaders.1 hother).1 (mem_reachedHeaders.1 hfirst).1
        (List.filter_subset_self _)]
  · rintro ⟨hdotted, hfinds⟩ spot hspot
    by_cases hunder : spot.isUnderDotted = true
    · rw [decorAfter, if_pos hunder]
      exact hdotted spot hspot hunder
    have hreached : spot ∈ root.reachedHeaders := mem_reachedHeaders.2 ⟨hspot, by simpa using hunder⟩
    have hiff : IsSpelledFirst root spot ↔ Opens root root.headers spot := by
      constructor
      · rintro ⟨first, hfirst, hopens, hlabels⟩
        obtain ⟨hall, hothers⟩ := hfinds first hfirst hopens
        rwa [hkeys.eq_of_place (List.mem_of_mem_filter hreached) (List.mem_of_mem_filter hfirst)
          (hothers spot hreached hlabels.symm)]
      · rintro ⟨hvalues, n, hn, hle⟩
        exact ⟨spot, hreached, ⟨hvalues, n, hn, fun other hother =>
          hle other (mem_reachedHeaders.1 hother).1⟩, rfl⟩
    rw [decorAfter, if_neg hunder, above]
    simp only [hiff]

/-- Without brackets in keys no two headers are spelled alike. -/
theorem findsFirst_of_plain (hkeys : ∀ spot ∈ root.headers, ∀ step ∈ spot.place, '[' ∉ step.name.toList)
    (hdotted : ∀ spot ∈ root.headers, spot.isUnderDotted = false) : FindsFirst root := by
  intro first hfirst ⟨hvalues, n, hn, hle⟩
  refine ⟨⟨hvalues, n, hn, fun other hother => ?_⟩, fun other hother hlabels => ?_⟩
  · exact hle other (mem_reachedHeaders.2 ⟨hother, hdotted other hother⟩)
  · exact place_eq_of_labels (hkeys other (mem_reachedHeaders.1 hother).1)
      (hkeys first (mem_reachedHeaders.1 hfirst).1) hlabels

/-! ### Documents that were read -/

/-- What the pass leaves around each header of a document, as it was read or with its entries in order,
and when that is right for all of them: those below dotted keys must be right before, and the first one
must be found and not be spelled like another. It is where neither dotted keys nor brackets lead to a
header. -/
theorem header_spacing_exact (standards : Standards) {path : Files.Path} {text : String} {m : Manifest}
    (hread : Manifest.read? path text = some m)
    (hroot : root = m.document.root ∨ root = arranged standards m.document.root) :
    (spaceHeaders root).headers.map (fun spot => (spot.place, spot.table.decor)) =
        root.headers.map (fun spot => (spot.place, decorAfter root spot)) ∧
      (HasBlankLines (spaceHeaders root) ↔
        (∀ spot ∈ root.headers, spot.isUnderDotted = true →
          spot.table.decor.before = some (above root spot)) ∧ FindsFirst root) ∧
      ((∀ spot ∈ root.headers, spot.isUnderDotted = false) →
        (∀ spot ∈ root.headers, ∀ step ∈ spot.place, '[' ∉ step.name.toList) →
          HasBlankLines (spaceHeaders root)) := by
  have hkeys : root.HasDistinctKeys := by
    rcases hroot with rfl | rfl
    · exact Manifest.hasDistinctKeys_read? hread
    · exact hasDistinctKeys_arranged standards (Manifest.hasDistinctKeys_read? hread)
  have hpositions : root.HasDistinctPositions := by
    rcases hroot with rfl | rfl
    · exact Manifest.hasDistinctPositions_read? hread
    · exact hasDistinctPositions_arranged standards (Manifest.hasDistinctPositions_read? hread)
  refine ⟨?_, hasBlankLines_spaceHeaders_iff hkeys hpositions, fun hdotted hplain => ?_⟩
  · rw [spaceHeaders, headers_spaceBelow, List.map_map]
    refine List.map_congr_left fun spot hspot => ?_
    rw [Function.comp_apply, place_spaced, decor_spaced hpositions hspot]
  · refine (hasBlankLines_spaceHeaders_iff hkeys hpositions).2 ⟨fun spot hspot hunder => ?_,
      findsFirst_of_plain hplain hdotted⟩
    exact absurd hunder (by simp [hdotted spot hspot])

/-- A header below dotted keys is passed over, and others are not. -/
theorem header_spacing_exact_under_dotted :
    (∃ m, Manifest.read? ⟨"a"⟩ "[a]\nb.c = 1\n[a.b.d]\n" = some m ∧
      ¬ (∀ spot ∈ m.document.root.headers, spot.isUnderDotted = true →
        spot.table.decor.before = some (above m.document.root spot)) ∧
      ¬ HasBlankLines (spaceHeaders m.document.root)) ∧
    ∃ m, Manifest.read? ⟨"a"⟩ "[a]\n[[b.c]]\n" = some m ∧
      HasBlankLines (spaceHeaders (arranged {} m.document.root)) := by
  constructor
  · have htest : (Manifest.read? ⟨"a"⟩ "[a]\nb.c = 1\n[a.b.d]\n").any fun m =>
        !decide (∀ spot ∈ m.document.root.headers, spot.isUnderDotted = true →
          spot.table.decor.before = some (above m.document.root spot)) := by
      decide +kernel
    obtain ⟨m, hread, htest⟩ := (Option.any_eq_true _ _).1 htest
    have hmissed := of_decide_eq_false (Bool.not_eq_true' _ ▸ htest)
    have hexact := (header_spacing_exact {} hread (.inl rfl)).2.1
    exact ⟨m, hread, hmissed, fun hspaced => hmissed (hexact.1 hspaced).1⟩
  · have htest : (Manifest.read? ⟨"a"⟩ "[a]\n[[b.c]]\n").any fun m =>
        (arranged {} m.document.root).headers.all fun spot =>
          !spot.isUnderDotted && spot.place.all fun step => !step.name.toList.elem '[' := by
      decide +kernel
    obtain ⟨m, hread, htest⟩ := (Option.any_eq_true _ _).1 htest
    have hplain : ∀ spot ∈ (arranged {} m.document.root).headers, spot.isUnderDotted = false ∧
        ∀ step ∈ spot.place, '[' ∉ step.name.toList := by
      simpa using htest
    exact ⟨m, hread, (header_spacing_exact {} hread (.inr rfl)).2.2
      (fun spot hspot => (hplain spot hspot).1) (fun spot hspot => (hplain spot hspot).2)⟩

/-- An element of an array that is spelled like the first header gets no blank line either. -/
example : (Manifest.read? ⟨"a"⟩ "[\"a[0]\"]\n[[a]]\n").any
    fun m => !decide (HasBlankLines (spaceHeaders m.document.root)) := by
  decide +kernel

end Lint

end FeatureForwarding
