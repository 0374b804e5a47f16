/-! A stable sort. Elements that compare as equal keep their order, and a list
that is in order already is returned as it is. -/

namespace FeatureForwarding.Text

variable {α : Type}

/-- Puts an element behind the leading ones that must precede it. -/
def insertBy (before : α → α → Bool) (a : α) : List α → List α
  | [] => [a]
  | b :: bs => if before b a then b :: insertBy before a bs else a :: b :: bs

/-- Sorts so that of two neighbours the later one is never strictly before the
earlier one; `before` is the strict order. -/
def stableSort (before : α → α → Bool) : List α → List α
  | [] => []
  | a :: as => insertBy before a (stableSort before as)

theorem insertBy_perm (before : α → α → Bool) (a : α) (bs : List α) :
    (insertBy before a bs).Perm (a :: bs) := by
  fun_induction insertBy before a bs with
  | case1 => exact .refl _
  | case2 b bs _ ih => exact (ih.cons b).trans (.swap a b bs)
  | case3 => exact .refl _

theorem stableSort_perm (before : α → α → Bool) (as : List α) :
    (stableSort before as).Perm as := by
  induction as with
  | nil => exact .refl _
  | cons a as ih => exact (insertBy_perm before a _).trans (ih.cons a)

/-- What is in order stays as it is. -/
theorem stableSort_of_pairwise {before : α → α → Bool} {as : List α} (h : as.Pairwise fun a b => before b a = false) :
    stableSort before as = as := by
  induction as with
  | nil => rfl
  | cons a as ih =>
    obtain ⟨ha, has⟩ := List.pairwise_cons.1 h
    rw [stableSort, ih has]
    cases as with
    | nil => rfl
    | cons b bs => rw [insertBy, ha b List.mem_cons_self]; rfl

end FeatureForwarding.Text
