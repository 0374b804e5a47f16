import FeatureForwarding.NameMap
import Mathlib.Data.List.Sort

/-! A map is known by its look-ups. What stands under a name is listed in the entries, and since
these are in order, two maps that answer alike are the same. -/

namespace FeatureForwarding.NameMap

variable {α : Type} {name : String} {value : α} {entries : List (String × α)} {m n : NameMap α}

theorem mem_of_lookupIn (h : lookupIn name entries = some value) : (name, value) ∈ entries := by
  induction entries with
  | nil => exact absurd h (by simp [lookupIn])
  | cons head rest ih =>
    obtain ⟨other, old⟩ := head
    rw [lookupIn] at h
    split at h
    · next heq =>
      subst heq
      obtain rfl := Option.some.inj h
      exact List.mem_cons_self
    · exact List.mem_cons_of_mem _ (ih h)

theorem lookupIn_of_mem (hsorted : entries.Pairwise fun a b => a.1 < b.1)
    (h : (name, value) ∈ entries) : lookupIn name entries = some value := by
  induction entries with
  | nil => exact absurd h List.not_mem_nil
  | cons head rest ih =>
    obtain ⟨hhead, hrest⟩ := List.pairwise_cons.1 hsorted
    rw [lookupIn]
    rcases List.mem_cons.1 h with rfl | hmem
    · exact if_pos rfl
    · rw [if_neg (Std.ne_of_lt (hhead _ hmem)).symm, ih hrest hmem]

/-- A name in front of all others is not among them. -/
theorem lookupIn_eq_none (h : ∀ entry ∈ entries, name < entry.1) : lookupIn name entries = none := by
  refine Option.eq_none_iff_forall_ne_some.2 fun value hvalue => ?_
  exact String.lt_irrefl name (h _ (mem_of_lookupIn hvalue))

theorem mem_entries_iff : (name, value) ∈ m.entries ↔ m.get? name = some value :=
  ⟨lookupIn_of_mem m.sorted, mem_of_lookupIn⟩

theorem ext_get? (h : ∀ name, m.get? name = n.get? name) : m = n := by
  have hmem (entry : String × α) : entry ∈ m.entries ↔ entry ∈ n.entries := by
    rw [mem_entries_iff, mem_entries_iff, h]
  let before (a b : String × α) : Prop := a.1 < b.1
  have : Std.Antisymm before := ⟨fun a b h h' => (String.lt_asymm (a := a.1) (b := b.1) h h').elim⟩
  have : Std.Irrefl before := ⟨fun a => Std.lt_irrefl (a := a.1)⟩
  obtain ⟨_, hm⟩ := m
  obtain ⟨_, hn⟩ := n
  obtain rfl := List.Pairwise.eq_of_mem_iff (r := before) hm hn hmem
  rfl

end FeatureForwarding.NameMap
