import FeatureForwarding.Proofs.Files.Write

/-! Where a write puts its text: under the last name of the path, in the directory that the rest of it
leads to. Nothing else is seen to change, whether something stood there before or not, and no path comes
to lead to a directory that it did not lead to. -/

namespace FeatureForwarding.Files

namespace Node

/-- An entry of a directory that is no directory itself is all that is seen to change, also where it
is a new one. -/
theorem entry_below?_place_into {node new : Node} {above l' : List String} {name : String}
    (habove : (node.below? above).any isDirectory)
    (hfree : (node.below? (above ++ [name])).any isDirectory = false) (hnew : new.isDirectory = false)
    (hne : l' ≠ above ++ [name]) :
    ((place new (above ++ [name]) node).below? l').map entry = (node.below? l').map entry := by
  induction above generalizing node l' with
  | nil =>
    cases node with
    | directory entries =>
      cases l' with
      | nil => rfl
      | cons name' rest =>
        rw [List.nil_append, place, below?, below?, NameMap.lookupIn_insertIn]
        split
        · next hname =>
          subst hname
          obtain ⟨next, rest, rfl⟩ : ∃ next rest', rest = next :: rest' :=
            List.exists_cons_of_ne_nil fun hrest => hne (by rw [hrest]; rfl)
          rw [Option.bind_some, place, below?_of_not_isDirectory hnew]
          cases hold : NameMap.lookupIn name' entries with
          | none => rfl
          | some old =>
            simp only [List.nil_append, below?, hold, Option.bind_some, Option.any_some] at hfree
            rw [Option.bind_some, below?_of_not_isDirectory hfree]
        · rfl
    | file contents => exact absurd habove (by simp [below?, isDirectory])
    | link target => exact absurd habove (by simp [below?, isDirectory])
  | cons first rest ih =>
    cases hbelow : node.below? (first :: rest) with
    | none => simp [hbelow] at habove
    | some parent =>
      obtain ⟨entries, next, rfl, hnext, hparent⟩ := directory_of_below?_cons hbelow
      have hin : (next.below? rest).any isDirectory := by rw [hparent, ← hbelow]; exact habove
      have hout : (next.below? (rest ++ [name])).any isDirectory = false := by
        rwa [List.cons_append, below?, hnext, Option.bind_some] at hfree
      cases l' with
      | nil => rfl
      | cons name' rest' =>
        rw [List.cons_append, place, hnext, Option.getD_some, below?, below?, NameMap.lookupIn_insertIn]
        split
        · next hname =>
          subst hname
          rw [hnext]
          exact ih hin hout fun heq => hne (by rw [heq, List.cons_append])
        · rfl

end Node

namespace Tree

variable {t t' : Tree} {p : Path} {here there l l' : Location} {piece content : String}
  {ps : List String} {n : Nat}

namespace Puts

/-- A piece leads where it led before, or to the new text. -/
theorem turn?_eq (h : Puts t t' l content) {turn : Turn} (hturn : t'.turn? here piece = some turn) :
    t.turn? here piece = some turn ∨ turn = .go l := by
  unfold Tree.turn? at hturn ⊢
  rw [h.isDirectoryAt] at hturn
  split at hturn
  · exact absurd hturn (by simp)
  split at hturn
  · next hdirectory hstep => exact .inl (by rw [if_neg hdirectory, if_pos hstep, hturn])
  split at hturn
  · next hdirectory hstep hup =>
    exact .inl (by rw [if_neg hdirectory, if_neg hstep, if_pos hup, hturn])
  · next hdirectory hstep hup =>
    by_cases hl : here ++ [piece] = l
    · rw [h.sight, if_pos hl] at hturn
      exact .inr ((Option.some.inj hturn).symm.trans (congrArg Turn.go hl))
    · rw [h.sight, if_neg hl] at hturn
      exact .inl (by rw [if_neg hdirectory, if_neg hstep, if_neg hup, hturn])

/-- Nothing lies behind a text, so that ways to a directory are those that there were. -/
theorem leads (h : Puts t t' l content) (hway : t'.Leads n here ps there)
    (hthere : t'.isDirectoryAt there) : t.Leads n here ps there := by
  have hfile : t'.isDirectoryAt l = false := by rw [h.isDirectoryAt, h.before]
  induction hway with
  | done => exact .done
  | @go n here next there piece rest turn onward ih =>
    rcases h.turn?_eq turn with hturn | hgo
    · exact .go hturn (ih hthere)
    · obtain rfl := Turn.go.inj hgo
      cases rest with
      | nil =>
        obtain rfl := onward.of_nil
        simp [hfile] at hthere
      | cons next rest => exact absurd onward.isDirectoryAt (by simp [hfile])
  | follow turn _ ih =>
    rcases h.turn?_eq turn with hturn | hgo
    · exact .follow hturn (ih hthere)
    · exact absurd hgo nofun

end Puts

/-- The directory of a path with the name that the path ends with. -/
def target? (t : Tree) (p : Path) : Option Location := do
  let above ← (t.locate? p.directory).filter t.isDirectoryAt
  let name ← p.pieces.getLast?.filter Path.isName
  some (above ++ [name])

theorem target?_eq_some : t.target? p = some l ↔ ∃ front name above, p.pieces = front ++ [name] ∧
    Path.isName name ∧ t.locate? p.directory = some above ∧ t.isDirectoryAt above ∧
      l = above ++ [name] := by
  simp only [target?, bind, Option.bind_eq_some_iff, Option.filter_eq_some_iff, Option.some.injEq,
    List.getLast?_eq_some_iff]
  constructor
  · rintro ⟨above, ⟨habove, hdirectory⟩, name, ⟨⟨front, hfront⟩, hname⟩, rfl⟩
    exact ⟨front, name, above, hfront, hname, habove, hdirectory, rfl⟩
  · rintro ⟨front, name, above, hfront, hname, habove, hdirectory, rfl⟩
    exact ⟨above, ⟨habove, hdirectory⟩, name, ⟨⟨front, hfront⟩, hname⟩, rfl⟩

/-- A write puts its text in the place of what the path leads to, or of a link on the way there. -/
theorem eq_or_link_of_target? (htarget : t.target? p = some l) (hl : t.locate? p = some l') :
    l' = l ∨ ∃ text, t.sight? l = some (.link text) := by
  obtain ⟨front, name, above, hfront, hname, habove, -, rfl⟩ := target?_eq_some.1 htarget
  obtain ⟨here, fs, n, -, -, hlast⟩ := leads_through_directory hfront hname habove hl
  obtain ⟨entry, hentry, ⟨text, -, rfl, -⟩ | ⟨-, heq⟩⟩ := hlast.of_name hname
  · exact .inr ⟨text, hentry⟩
  · exact .inl heq

theorem puts_of_write (h : t.write p content = .ok t') :
    ∃ l, t.target? p = some l ∧ Puts t t' l content := by
  obtain ⟨front, name, above, hfront, hname, habove, hdirectory, hfree, rfl⟩ := write_eq_ok h
  refine ⟨_, target?_eq_some.2 ⟨front, name, above, hfront, hname, habove, hdirectory, rfl⟩, ?_, hfree⟩
  intro l'
  split
  · next heq =>
    subst heq
    exact congrArg _ (Node.below?_place (.file (.text content)) (above ++ [name]) t.root)
  · next hne => exact Node.entry_below?_place_into hdirectory hfree rfl hne

/-- A write does not move the place of another one. -/
theorem target?_of_puts (h : Puts t t' l content) (htarget : t'.target? p = some l') :
    t.target? p = some l' := by
  obtain ⟨front, name, above, hfront, hname, habove, hdirectory, rfl⟩ := target?_eq_some.1 htarget
  obtain ⟨husable, hway, -⟩ := locate?_eq_some.1 habove
  have hbefore : t.isDirectoryAt above := h.isDirectoryAt above ▸ hdirectory
  have hsome : (t.sight? above).isSome := by
    rw [isDirectoryAt_eq, decide_eq_true_eq] at hbefore
    rw [hbefore]
    rfl
  exact target?_eq_some.2 ⟨front, name, above, hfront, hname,
    locate?_eq_some.2 ⟨husable, h.leads hway hdirectory, hsome⟩, hbefore, rfl⟩

/-! ### Several writes -/

/-- What writes at the paths do to a tree, whichever of them succeed. -/
structure Altered (t t' : Tree) (ps : List Path) : Prop where
  changed : ∀ l, t'.sight? l ≠ t.sight? l → ∃ p ∈ ps, t.target? p = some l
  targets : ∀ p l, t'.target? p = some l → t.target? p = some l

namespace Altered

variable {t'' : Tree} {paths paths' : List Path}

theorem refl (t : Tree) (paths : List Path) : Altered t t paths where
  changed _ hl := absurd rfl hl
  targets _ _ := id

theorem trans (h : Altered t t' paths) (h' : Altered t' t'' paths') :
    Altered t t'' (paths ++ paths') where
  changed l hl := by
    by_cases hfirst : t'.sight? l = t.sight? l
    · obtain ⟨p, hp, htarget⟩ := h'.changed l (hfirst ▸ hl)
      exact ⟨p, List.mem_append_right _ hp, h.targets p l htarget⟩
    · obtain ⟨p, hp, htarget⟩ := h.changed l hfirst
      exact ⟨p, List.mem_append_left _ hp, htarget⟩
  targets p l hl := h.targets p l (h'.targets p l hl)

theorem of_write (h : t.write p content = .ok t') : Altered t t' [p] := by
  obtain ⟨l, htarget, hputs⟩ := puts_of_write h
  refine ⟨fun l' hl' => ⟨p, List.mem_singleton_self p, ?_⟩, fun q l' => target?_of_puts hputs⟩
  obtain rfl : l' = l :=
    Decidable.byContradiction fun hne => hl' (by rw [hputs.sight, if_neg hne])
  exact htarget

end Altered

end Tree

end FeatureForwarding.Files
