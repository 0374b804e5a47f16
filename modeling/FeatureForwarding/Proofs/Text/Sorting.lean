import FeatureForwarding.Text.Order
import Mathlib.Data.List.Pairwise
import Mathlib.Data.List.Perm.Basic

/-! The order that a stable sort brings about, and how sorting goes together with selecting and joining:
what is selected from a sorted list is sorted by itself, and lists of which one comes before the other
are sorted one by one. -/

namespace FeatureForwarding.Text

variable {α β : Type} {before : α → α → Bool} {a b : α} {as bs : List α}

/-- The parts of a strict order that sorting needs. -/
structure Orders (before : α → α → Bool) : Prop where
  asymm : ∀ a b, before a b → before b a = false
  trans : ∀ a b c, before b a = false → before c b = false → before c a = false

theorem mem_insertBy : b ∈ insertBy before a bs ↔ b = a ∨ b ∈ bs := by
  rw [(insertBy_perm before a bs).mem_iff, List.mem_cons]

theorem mem_stableSort : a ∈ stableSort before as ↔ a ∈ as := (stableSort_perm before as).mem_iff

theorem pairwise_insertBy (h : Orders before) (hbs : bs.Pairwise fun a b => before b a = false) :
    (insertBy before a bs).Pairwise fun a b => before b a = false := by
  induction bs with
  | nil => exact List.pairwise_singleton _ a
  | cons b bs ih =>
    obtain ⟨hb, hrest⟩ := List.pairwise_cons.1 hbs
    rw [insertBy]
    split
    · next hba =>
      refine List.pairwise_cons.2 ⟨fun c hc => ?_, ih hrest⟩
      rcases mem_insertBy.1 hc with rfl | hc
      · exact h.asymm b c hba
      · exact hb c hc
    · next hba =>
      refine List.pairwise_cons.2 ⟨fun c hc => ?_, hbs⟩
      have hba : before b a = false := by simpa using hba
      rcases List.mem_cons.1 hc with rfl | hc
      · exact hba
      · exact h.trans a b c hba (hb c hc)

theorem stableSort_pairwise (h : Orders before) (as : List α) :
    (stableSort before as).Pairwise fun a b => before b a = false := by
  induction as with
  | nil => exact .nil
  | cons a as ih => exact pairwise_insertBy h ih

/-- Where equal elements are the same the order leaves no choice. -/
theorem stableSort_eq_of_perm (h : Orders before) (hbs : bs.Pairwise fun a b => before a b = true)
    (hperm : as.Perm bs) : stableSort before as = bs := by
  have hsorted := stableSort_pairwise h as
  have hbs' : bs.Pairwise fun a b => before b a = false := hbs.imp fun {a b} hab => h.asymm a b hab
  refine List.Perm.eq_of_pairwise (fun a b ha hb hab hba => ?_) hsorted hbs'
    ((stableSort_perm ..).trans hperm)
  by_contra hne
  have heither : bs.Pairwise fun a b => before a b = true ∨ before b a = true := hbs.imp .inl
  have : Std.Symm fun a b => before a b = true ∨ before b a = true := ⟨fun _ _ => Or.symm⟩
  have hone := heither.forall (hperm.subset (mem_stableSort.1 ha)) hb hne
  simp [hab, hba] at hone

theorem exists_of_insertBy (before : α → α → Bool) (a : α) (bs : List α) :
    ∃ front back, bs = front ++ back ∧ insertBy before a bs = front ++ a :: back := by
  induction bs with
  | nil => exact ⟨[], [], rfl, rfl⟩
  | cons b bs ih =>
    rw [insertBy]
    split
    · obtain ⟨front, back, rfl, hinsert⟩ := ih
      exact ⟨b :: front, back, rfl, by rw [hinsert, List.cons_append]⟩
    · exact ⟨[], b :: bs, rfl, rfl⟩

/-! ### Selecting -/

theorem insertBy_of_forall (h : ∀ b ∈ bs, before b a = false) : insertBy before a bs = a :: bs := by
  cases bs with
  | nil => rfl
  | cons b bs => rw [insertBy, h b List.mem_cons_self]; rfl

theorem filter_insertBy (h : Orders before) (p : α → Bool) (hbs : bs.Pairwise fun a b => before b a = false) :
    (insertBy before a bs).filter p =
      if p a then insertBy before a (bs.filter p) else bs.filter p := by
  induction bs with
  | nil => simp [insertBy, List.filter_cons]
  | cons b bs ih =>
    obtain ⟨hb, hrest⟩ := List.pairwise_cons.1 hbs
    rw [insertBy]
    split
    · next hba =>
      rw [List.filter_cons, List.filter_cons, ih hrest]
      by_cases ha : p a = true <;> by_cases hpb : p b = true <;> simp [ha, hpb, insertBy, hba]
    · next hba =>
      -- nothing behind the place of the element comes before it
      have hall : ∀ c ∈ b :: bs, before c a = false := List.forall_mem_cons.2
        ⟨by simpa using hba, fun c hc => h.trans a b c (by simpa using hba) (hb c hc)⟩
      rw [List.filter_cons, insertBy_of_forall fun c hc => hall c (List.mem_of_mem_filter hc)]

theorem filter_stableSort (h : Orders before) (p : α → Bool) (as : List α) :
    (stableSort before as).filter p = stableSort before (as.filter p) := by
  induction as with
  | nil => rfl
  | cons a as ih =>
    rw [stableSort, filter_insertBy h p (stableSort_pairwise h as), ih, List.filter_cons]
    split <;> rfl

theorem map_stableSort {before' : β → β → Bool} {f : α → β} (h : ∀ a b, before' (f a) (f b) = before a b)
    (as : List α) : (stableSort before as).map f = stableSort before' (as.map f) := by
  have hinsert (a : α) (bs : List α) : (insertBy before a bs).map f = insertBy before' (f a) (bs.map f) := by
    induction bs with
    | nil => rfl
    | cons b bs ih =>
      rw [insertBy, List.map_cons, insertBy, h]
      split
      · rw [List.map_cons, ih]
      · rfl
  induction as with
  | nil => rfl
  | cons a as ih => rw [stableSort, hinsert, ih, List.map_cons, stableSort]

/-! ### Joining -/

theorem insertBy_append (h : ∀ b ∈ bs, before b a = false) (as : List α) :
    insertBy before a (as ++ bs) = insertBy before a as ++ bs := by
  induction as with
  | nil => exact insertBy_of_forall h
  | cons b as ih =>
    rw [List.cons_append, insertBy, insertBy, ih]
    split <;> rfl

theorem stableSort_append (h : ∀ a ∈ as, ∀ b ∈ bs, before b a = false) :
    stableSort before (as ++ bs) = stableSort before as ++ stableSort before bs := by
  induction as with
  | nil => rfl
  | cons a as ih =>
    obtain ⟨ha, has⟩ := List.forall_mem_cons.1 h
    rw [List.cons_append, stableSort, ih has,
      insertBy_append fun b hb => ha b (mem_stableSort.1 hb), stableSort]

theorem stableSort_cons (h : ∀ b ∈ bs, before b a = false) :
    stableSort before (a :: bs) = a :: stableSort before bs :=
  insertBy_of_forall fun b hb => h b (mem_stableSort.1 hb)

end FeatureForwarding.Text
