import FeatureForwarding.Proofs.Files.Path
import FeatureForwarding.Proofs.Files.Walk

/-! Writing over a file. The path leads to the new text afterwards, also where it led through a link
before, and every other file is found where it was. -/

namespace FeatureForwarding.Files.Tree

variable {t t' : Tree} {p q : Path} {here there above : Location} {ps fs : List String}
    {name content : String} {n : Nat}

/-- Pieces that lead nowhere can be left out. -/
theorem Leads.filter (h : t.Leads n here ps there) :
    t.Leads n here (ps.filter Path.isStep) there := by
  -- behind a link only the rest of the path is thinned out, not the target
  have hbehind : ∀ before behind, ps = before ++ behind →
    t.Leads n here (before ++ behind.filter Path.isStep) there := by
    induction h with
    | done =>
      intro before behind hsplit
      obtain ⟨rfl, rfl⟩ := List.append_eq_nil_iff.1 hsplit.symm
      exact .done
    | @go n here next there piece rest turn onward ih =>
      intro before behind hsplit
      cases before with
      | nil =>
        obtain rfl : piece :: rest = behind := hsplit
        have hrest := ih [] rest rfl
        by_cases hstep : Path.isStep piece
        · rw [List.filter_cons_of_pos hstep]
          exact .go turn hrest
        · obtain rfl : here = next := by
            unfold turn? at turn
            split at turn
            · exact absurd turn (by simp)
            · simpa [hstep] using turn
          rw [List.filter_cons_of_neg hstep]
          exact hrest
      | cons first before =>
        obtain ⟨rfl, rfl⟩ := List.cons.inj hsplit
        exact .go turn (ih before behind rfl)
    | @follow n here next there piece pieces rest turn onward ih =>
      intro before behind hsplit
      cases before with
      | nil =>
        obtain rfl : piece :: rest = behind := hsplit
        have hstep : Path.isStep piece := by
          by_cases hstep : Path.isStep piece
          · exact hstep
          · unfold turn? at turn
            split at turn
            · exact absurd turn (by simp)
            · simp [hstep] at turn
        rw [List.nil_append, List.filter_cons_of_pos hstep]
        exact .follow turn (ih pieces rest rfl)
      | cons first before =>
        obtain ⟨rfl, rfl⟩ := List.cons.inj hsplit
        have hrest := ih (pieces ++ before) behind (List.append_assoc ..).symm
        rw [List.append_assoc] at hrest
        exact .follow turn hrest
  exact hbehind [] ps rfl

theorem start_of_head (here : Location) {ps : List String} (h : ps.head? ≠ some "") :
    start here ps = (here, ps) := by
  unfold start
  split
  · exact absurd rfl h
  · rfl

theorem start_append (here : Location) (ps : List String) (name : String) :
    start here (ps ++ [name]) = if ps.head? = some "" then (["/"], ps.tail ++ [name]) else
      (here, ps ++ [name]) := by
  cases ps with
  | nil => simp [start]
  | cons first rest =>
    split
    · next hfirst =>
      obtain rfl := Option.some.inj hfirst
      cases rest <;> rfl
    · next hfirst => exact start_of_head here hfirst

/-- Where a path starts does not depend on its last name. -/
theorem exists_start (here : Location) (ps : List String) :
    ∃ there fs, (∀ name, start here (ps ++ [name]) = (there, fs ++ [name])) ∧
      (ps ≠ [""] → start here ps = (there, fs)) := by
  by_cases hhead : ps.head? = some ""
  · refine ⟨["/"], ps.tail, fun name => by rw [start_append, if_pos hhead], fun hroot => ?_⟩
    obtain ⟨rest, rfl⟩ := List.head?_eq_some_iff.1 hhead
    cases rest with
    | nil => exact absurd rfl hroot
    | cons next rest => rfl
  · exact ⟨here, ps, fun name => by rw [start_append, if_neg hhead],
      fun _ => start_of_head here hhead⟩

/-- The path of a directory goes the same way as the path of something in it, up to the name. -/
theorem start_directory {front : List String} (h : p.pieces = front ++ [name])
    (hname : Path.isStep name) :
    (start [] p.directory.pieces).1 = (start [] (front ++ [name])).1 ∧
      (start [] (front ++ [name])).2.filter Path.isStep = (start [] p.directory.pieces).2.filter
        Path.isStep ++ [name] := by
  have hlast (ps idle : List String) (hidle : ∀ piece ∈ idle, Path.isStep piece = false) :
      (ps ++ idle ++ [name]).filter Path.isStep = ps.filter Path.isStep ++ [name] := by
    have hnone : idle.filter Path.isStep = [] :=
      List.filter_eq_nil_iff.2 fun piece hpiece => by simp [hidle piece hpiece]
    rw [List.filter_append, List.filter_append, hnone, List.append_nil,
      List.filter_cons_of_pos hname, List.filter_nil]
  rw [start_append]
  rcases Path.pieces_directory h hname with ⟨rfl, hpieces⟩ | ⟨kept, idle, rfl, hidle, hkept⟩
  · rw [hpieces]
    exact ⟨rfl, hlast [] [] (by simp)⟩
  rcases hkept with ⟨rfl, hpieces⟩ | ⟨hne, hroot, hpieces⟩
  · rw [hpieces]
    exact ⟨rfl, hlast [] idle hidle⟩
  · obtain ⟨first, rest, rfl⟩ := List.exists_cons_of_ne_nil hne
    rw [hpieces]
    by_cases hfirst : first = ""
    · subst hfirst
      cases rest with
      | nil => exact absurd rfl hroot
      | cons next rest => exact ⟨rfl, hlast (next :: rest) idle hidle⟩
    · have hhead : (first :: rest).head? ≠ some "" := by simpa using hfirst
      rw [start_of_head [] hhead, if_neg (by simpa using hfirst)]
      exact ⟨rfl, hlast (first :: rest) idle hidle⟩

theorem locate?_eq_some {l : Location} :
    t.locate? p = some l ↔
      p.isUsable ∧ t.Leads linkLimit (start [] p.pieces).1 (start [] p.pieces).2 l ∧
        (t.sight? l).isSome := by
  unfold locate? sight?
  split
  · next husable => simp [husable, leads_iff, Option.filter_eq_some_iff]
  · next husable => simp [husable]

/-- Where a name in a directory leads. -/
theorem turn?_of_isName (hname : Path.isName name) (habove : t.isDirectoryAt above) :
    t.turn? above name = (t.sight? (above ++ [name])).map (turnAt above name) := by
  simp only [Path.isName, Bool.and_eq_true, bne_iff_ne, ne_eq] at hname
  simp [turn?, habove, hname.1.1]

/-- A name leads along a link or to what stands under it. -/
theorem Leads.of_name {l : Location} (hname : Path.isName name) (h : t.Leads n above [name] l) :
    ∃ entry, t.sight? (above ++ [name]) = some entry ∧
      ((∃ target n', entry = .link target ∧
          t.Leads n' (start above (Path.pieces ⟨target⟩)).1
            (start above (Path.pieces ⟨target⟩)).2 l) ∨
        (∀ target, entry ≠ .link target) ∧ l = above ++ [name]) := by
  have hturn := turn?_of_isName hname h.isDirectoryAt
  cases h with
  | go turn onward =>
    obtain rfl := onward.of_nil
    obtain ⟨entry, hentry, hgo⟩ := Option.map_eq_some_iff.1 (hturn.symm.trans turn)
    refine ⟨entry, hentry, .inr ?_⟩
    cases entry with
    | link target => exact absurd hgo (by simp [turnAt])
    | file contents => exact ⟨by simp, (Turn.go.inj hgo).symm⟩
    | directory => exact ⟨by simp, (Turn.go.inj hgo).symm⟩
  | follow turn onward =>
    obtain ⟨entry, hentry, hfollow⟩ := Option.map_eq_some_iff.1 (hturn.symm.trans turn)
    refine ⟨entry, hentry, .inl ?_⟩
    cases entry with
    | link target =>
      obtain ⟨rfl, rfl⟩ := Turn.follow.inj hfollow
      rw [List.append_nil] at onward
      exact ⟨target, _, rfl, onward⟩
    | file contents => exact absurd hfollow (by simp [turnAt])
    | directory => exact absurd hfollow (by simp [turnAt])

theorem write_eq_ok (h : t.write p content = .ok t') :
    ∃ front name above, p.pieces = front ++ [name] ∧ Path.isName name ∧
      t.locate? p.directory = some above ∧
      t.isDirectoryAt above ∧ t.isDirectoryAt (above ++ [name]) = false ∧
      t' = t.place (above ++ [name]) (.file (.text content)) := by
  unfold write temporaryPlace? at h
  split at h
  · exact absurd h (by simp)
  · next above habove =>
    split at h
    · exact absurd h (by simp)
    · next name hname =>
      obtain ⟨hlast, hname⟩ := Option.filter_eq_some_iff.1 hname
      obtain ⟨front, hfront⟩ := List.getLast?_eq_some_iff.1 hlast
      split at habove
      · obtain ⟨hlocate, hdirectory⟩ := Option.filter_eq_some_iff.1 habove
        dsimp only at h
        split at h
        · exact absurd h (by simp)
        · next hfree =>
          simp only [Bool.or_eq_true, not_or, Bool.not_eq_true] at hfree
          exact ⟨front, name, above, hfront, hname, hlocate, hdirectory, hfree.2,
            (Except.ok.inj h).symm⟩
      · exact absurd habove (by simp)

/-- The way to something leads through the directory of its path. -/
theorem leads_through_directory {front : List String} {l : Location}
    (hfront : p.pieces = front ++ [name]) (hname : Path.isName name)
    (habove : t.locate? p.directory = some above) (hl : t.locate? p = some l) :
    ∃ here fs n, start [] p.pieces = (here, fs ++ [name]) ∧ t.Leads linkLimit here fs above ∧
      t.Leads n above [name] l := by
  have hstep : Path.isStep name := by
    simp only [Path.isName, Bool.and_eq_true] at hname
    exact hname.1.1.1
  obtain ⟨here, fs, hstart, -⟩ := exists_start [] front
  obtain ⟨-, hway, -⟩ := locate?_eq_some.1 hl
  obtain ⟨-, hway', -⟩ := locate?_eq_some.1 habove
  obtain ⟨hhere, hthin⟩ := start_directory hfront hstep
  rw [hfront, hstart name] at hway
  rw [hhere, hstart name] at hway'
  rw [hstart name] at hthin
  -- both ways are the same up to pieces that lead nowhere
  obtain ⟨mid, n, hmid, hlast⟩ := hway.split
  obtain rfl : mid = above := by
    have hsame : fs.filter Path.isStep = (start [] p.directory.pieces).2.filter Path.isStep := by
      rw [List.filter_append, List.filter_cons_of_pos hstep, List.filter_nil] at hthin
      exact List.append_cancel_right hthin
    have hthinned := hmid.filter
    rw [hsame] at hthinned
    exact hthinned.unique hway'.filter
  exact ⟨here, fs, n, hfront ▸ hstart name, hmid, hlast⟩

/-- What a write over a file replaces. -/
theorem replaced_of_write {l : Location} {old : Contents} (h : t.write p content = .ok t')
    (hl : t.locate? p = some l)
    (hfile : t.sight? l = some (.file old)) :
    ∃ here fs above name, start [] p.pieces = (here, fs ++ [name]) ∧ Path.isName name ∧
      t.isDirectoryAt above ∧
      t.Leads linkLimit here fs above ∧ t' = t.place (above ++ [name]) (.file (.text content)) ∧
      Replaced t t' above name content l ∧ (∀ c, t.sight? (above ++ [name]) = some (.file c) →
        l = above ++ [name]) := by
  obtain ⟨front, name, above, hfront, hname, habove, hdirectory, hfree, rfl⟩ := write_eq_ok h
  obtain ⟨here, fs, n, hstart, hmid, hlast⟩ := leads_through_directory hfront hname habove hl
  obtain ⟨entry, hentry, hled⟩ := hlast.of_name hname
  refine ⟨here, fs, above, name, hstart, hname, hdirectory, hmid, rfl, ⟨?_, hfree, ?_, ?_⟩, ?_⟩
  · refine sight?_place content hentry fun heq => ?_
    simp [isDirectoryAt_eq, hentry, heq] at hfree
  · simp [isDirectoryAt_eq, hfile]
  · intro target htarget
    obtain rfl := Option.some.inj (hentry.symm.trans htarget)
    rcases hled with ⟨target', n, heq, hled⟩ | ⟨hnot, -⟩
    · obtain rfl := Entry.link.inj heq
      exact ⟨n, hled⟩
    · exact absurd rfl (hnot target)
  · intro c hc
    obtain rfl := Option.some.inj (hentry.symm.trans hc)
    rcases hled with ⟨target', n, heq, -⟩ | ⟨-, heq⟩
    · exact absurd heq (by simp)
    · exact heq

theorem readText?_eq_some {content : String} :
    t.readText? p = some content ↔ ∃ l, t.locate? p = some l ∧
      t.sight? l = some (.file (.text content)) := by
  simp only [← at?_eq_file]
  unfold readText? node?
  cases t.locate? p with
  | none => simp
  | some l =>
    simp only [Option.bind_some, Option.some.injEq, exists_eq_left']
    split
    · next found hfound => simp [hfound]
    · next hother => exact ⟨by simp, fun h => absurd h (hother content)⟩

/-- The path leads to the new text, and nothing else is seen to change. -/
theorem locate?_write {l : Location} {old : Contents} (h : t.write p content = .ok t')
    (hl : t.locate? p = some l)
    (hfile : t.sight? l = some (.file old)) :
    ∃ l', t'.locate? p = some l' ∧
      ∀ other, t'.sight? other = if other = l' then some (.file (.text content)) else t.sight? other := by
  obtain ⟨here, fs, above, name, hstart, hname, hdirectory, hway, -, hreplaced, -⟩ :=
    replaced_of_write h hl hfile
  have hsight : t'.sight? (above ++ [name]) = some (.file (.text content)) := by
    rw [hreplaced.sight, if_pos rfl]
  refine ⟨above ++ [name], locate?_eq_some.2 ⟨(locate?_eq_some.1 hl).1, ?_, by simp [hsight]⟩,
    hreplaced.sight⟩
  have hne : above ≠ l := by
    rintro rfl
    simp [hreplaced.isFile] at hdirectory
  have hlast : t'.Leads 0 above [name] (above ++ [name]) := by
    refine .go ?_ .done
    rw [turn?_of_isName hname (by rw [hreplaced.isDirectoryAt, hdirectory]), hsight]
    rfl
  rw [hstart]
  exact (hreplaced.leads hway hne).append hlast

theorem readText?_write {old : String} (h : t.write p content = .ok t')
    (hread : t.readText? p = some old) :
    t'.readText? p = some content := by
  obtain ⟨l, hl, hfile⟩ := readText?_eq_some.1 hread
  obtain ⟨l', hl', hsight⟩ := locate?_write h hl hfile
  exact readText?_eq_some.2 ⟨l', hl', by rw [hsight, if_pos rfl]⟩

/-- Another file that could be read is read as before. -/
theorem readText?_of_locate?_ne {old other : String} (h : t.write p content = .ok t')
    (hread : t.readText? p = some old)
    (hother : t.readText? q = some other) (hne : t.locate? q ≠ t.locate? p) :
      t'.readText? q = some other := by
  obtain ⟨l, hl, hfile⟩ := readText?_eq_some.1 hread
  obtain ⟨lq, hlq, hfileq⟩ := readText?_eq_some.1 hother
  obtain ⟨here, fs, above, name, hstart, hname, hdirectory, hway, -, hreplaced, hkept⟩ :=
    replaced_of_write h hl hfile
  have hnel : lq ≠ l := fun heq => hne (by rw [hlq, hl, heq])
  have hnew : lq ≠ above ++ [name] := by
    rintro rfl
    exact hnel (hkept _ hfileq).symm
  have hsight : t'.sight? lq = some (.file (.text other)) := by rw [hreplaced.sight,
    if_neg hnew, hfileq]
  obtain ⟨husable, hwayq, -⟩ := locate?_eq_some.1 hlq
  exact readText?_eq_some.2 ⟨lq, locate?_eq_some.2 ⟨husable, hreplaced.leads hwayq hnel,
    by simp [hsight]⟩, hsight⟩

/-- Where the tree kept its shape, only what stands at the end of a path can make a difference. -/
theorem readText?_of_shape (h : t'.root.shape = t.root.shape)
    (hsight : ∀ l, t.locate? q = some l → t'.sight? l = t.sight? l) :
      t'.readText? q = t.readText? q := by
  apply Option.ext
  intro other
  rw [readText?_eq_some, readText?_eq_some, locate?_of_shape h]
  refine exists_congr fun l => and_congr_right fun hl => ?_
  rw [hsight l hl]

end FeatureForwarding.Files.Tree
