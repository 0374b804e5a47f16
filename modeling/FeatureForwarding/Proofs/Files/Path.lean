import FeatureForwarding.Files.Path

/-! Paths of things in a directory: one component more than the path of the directory. -/

namespace FeatureForwarding.Files.Path

/-- Whether a name can stand between two slashes. -/
def isPlain (name : String) : Bool := name != "" && !name.toList.contains '/'

/-- The components from the pieces. -/
def ofPieces : List String → List String
  | [] => []
  | "" :: [] => []
  | "" :: rest => "/" :: rest.filter isStep
  | first :: rest => first :: rest.filter isStep

/-- Where no two things stand at the same path, the path tells them apart. -/
theorem eq_of_same {α : Type} {f : α → Path} {l : List α} {a b : α}
    (h : l.Pairwise fun a b => ¬(f a).Same (f b))
    (ha : a ∈ l) (hb : b ∈ l) (hsame : (f a).Same (f b)) : a = b := by
  induction l with
  | nil => exact absurd ha List.not_mem_nil
  | cons first rest ih =>
    obtain ⟨hfirst, hrest⟩ := List.pairwise_cons.1 h
    rcases List.mem_cons.1 ha with rfl | hbehind
    · rcases List.mem_cons.1 hb with rfl | hbehind'
      · rfl
      · exact absurd hsame (hfirst b hbehind')
    · rcases List.mem_cons.1 hb with rfl | hbehind'
      · exact absurd hsame.symm (hfirst a hbehind)
      · exact ih hrest hbehind hbehind'

theorem components_eq (p : Path) : p.components = ofPieces p.pieces := rfl

theorem pieces_ne_nil (p : Path) : p.pieces ≠ [] := by
  simp [pieces, List.splitOnP_ne_nil]

theorem pieces_of_not_contains {name : String} (h : '/' ∉ name.toList) : pieces ⟨name⟩ = [name] := by
  have hnone : ∀ c ∈ name.toList, (c == '/') = false :=
    fun c hc => beq_eq_false_iff_ne.2 fun heq => h (heq ▸ hc)
  simp [pieces, List.splitOnP_eq_singleton hnone]

/-- A slash separates the pieces before it from those behind. -/
theorem pieces_append (before behind : String) :
    pieces ⟨before ++ "/" ++ behind⟩ = pieces ⟨before⟩ ++ pieces ⟨behind⟩ := by
  have hslash : (before ++ "/" ++ behind).toList = before.toList ++ '/' :: behind.toList := by simp
  simp only [pieces, hslash]
  rw [List.splitOnP_append_cons _ _ (by simp), List.map_append]

theorem not_contains_of_mem_pieces {p : Path} {piece : String} (h : piece ∈ p.pieces) :
    '/' ∉ piece.toList := by
  have hsplit (cs : List Char) : ∀ part ∈ cs.splitOnP (· == '/'), '/' ∉ part := by
    induction cs with
    | nil => simp
    | cons c cs ih =>
      obtain ⟨first, rest, hfirst⟩ := List.exists_cons_of_ne_nil (List.splitOnP_ne_nil (· == '/') cs)
      rw [List.splitOnP_cons_eq_if_modifyHead]
      split
      · exact List.forall_mem_cons.2 ⟨List.not_mem_nil, ih⟩
      · next hc =>
        rw [hfirst] at ih ⊢
        obtain ⟨hhead, htail⟩ := List.forall_mem_cons.1 ih
        refine List.forall_mem_cons.2 ⟨fun hmem => ?_, htail⟩
        rcases List.mem_cons.1 hmem with rfl | hmem
        · exact hc rfl
        · exact hhead hmem
  obtain ⟨part, hpart, rfl⟩ := List.mem_map.1 h
  simpa using hsplit _ part hpart

/-- Pieces that were joined with slashes are found again. -/
theorem pieces_intercalate {ps : List String} (hne : ps ≠ []) (h : ∀ piece ∈ ps, '/' ∉ piece.toList) :
    pieces ⟨"/".intercalate ps⟩ = ps := by
  have hparts : ∀ part ∈ ps.map String.toList, '/' ∉ part := by simpa using h
  have hsplit := List.splitOn_intercalate '/' hparts (by simpa using hne)
  rw [List.splitOn_eq_splitOnP] at hsplit
  have hslash : "/".toList = ['/'] := rfl
  rw [pieces, String.toList_intercalate, hslash, hsplit, List.map_map]
  exact List.map_id'' (fun piece => String.ofList_toList) ps

theorem text_of_pieces {p : Path} (h : p.pieces = [""]) : p.text = "" := by
  have hsplit : p.text.toList.splitOnP (· == '/') = [[]] := by
    have hmap := congrArg (List.map String.toList) h
    simpa [pieces, List.map_map, Function.comp_def] using hmap
  have hnil : p.text.toList = [] := by
    cases htext : p.text.toList with
    | nil => rfl
    | cons c cs =>
      rw [htext, List.splitOnP_cons_eq_if_modifyHead] at hsplit
      split at hsplit
      · exact absurd (List.cons.inj hsplit).2 (List.splitOnP_ne_nil _ _)
      · obtain ⟨first, rest, hfirst⟩ :=
          List.exists_cons_of_ne_nil (List.splitOnP_ne_nil (· == '/') cs)
        simp [hfirst] at hsplit
  simpa using hnil

theorem ofPieces_append {ps : List String} {name : String} (hps : ps ≠ []) (hempty : ps ≠ [""])
    (h : isStep name) :
    ofPieces (ps ++ [name]) = ofPieces ps ++ [name] := by
  obtain ⟨first, rest, rfl⟩ := List.exists_cons_of_ne_nil hps
  by_cases hfirst : first = ""
  · subst hfirst
    cases rest with
    | nil => exact absurd rfl hempty
    | cons next rest =>
      change "/" :: (next :: rest ++ [name]).filter isStep = "/" ::
        (next :: rest).filter isStep ++ [name]
      rw [List.filter_append, List.filter_cons_of_pos h, List.filter_nil, List.cons_append]
  · simp [ofPieces, hfirst, h]

/-- A slash at the end makes no difference, except that it stands for itself at the start. -/
theorem ofPieces_append_empty {ps : List String} (hps : ps ≠ []) :
    ofPieces (ps ++ [""]) = if ps = [""] then ["/"] else ofPieces ps := by
  have hidle : isStep "" = false := rfl
  obtain ⟨first, rest, rfl⟩ := List.exists_cons_of_ne_nil hps
  by_cases hfirst : first = ""
  · subst hfirst
    cases rest with
    | nil => rfl
    | cons next rest => simp [ofPieces, List.filter_cons, hidle]
  · simp [ofPieces, hfirst, hidle]

/-- The name comes behind the pieces of the directory, in the place of a slash at its end. -/
theorem pieces_child (p : Path) {name : String} (hplain : isPlain name) :
    ∃ ps, (p.child name).pieces = ps ++ [name] ∧ (p.pieces = ps ++ [""] ∨ p.pieces = ps ∧
      ps ≠ [""]) := by
  obtain ⟨-, hslash⟩ : name ≠ "" ∧ '/' ∉ name.toList := by simpa [isPlain] using hplain
  have hnone : pieces ⟨""⟩ = [""] := pieces_of_not_contains (by simp)
  obtain ⟨text⟩ := p
  by_cases hempty : text = ""
  · subst hempty
    exact ⟨[], by simp [child, pieces_of_not_contains hslash], .inl hnone⟩
  · by_cases hlast : text.toList.getLast? = some '/'
    · obtain ⟨front, hfront⟩ := List.getLast?_eq_some_iff.1 hlast
      obtain rfl : text = String.ofList front ++ "/" ++ "" := by
        rw [← String.toList_inj, hfront]
        simp
      have hchild : child ⟨String.ofList front ++ "/" ++ ""⟩
        name = ⟨String.ofList front ++ "/" ++ name⟩ := by
        simp [child]
      refine ⟨pieces ⟨String.ofList front⟩, ?_, .inl ?_⟩
      · rw [hchild, pieces_append, pieces_of_not_contains hslash]
      · rw [pieces_append, hnone]
    · have hchild : child ⟨text⟩ name = ⟨text ++ "/" ++ name⟩ := by simp [child, hempty, hlast]
      refine ⟨pieces ⟨text⟩, ?_, .inr ⟨rfl, fun h => hempty (text_of_pieces h)⟩⟩
      rw [hchild, pieces_append, pieces_of_not_contains hslash]

theorem components_child (p : Path) {name : String} (hplain : isPlain name) (hstep : isStep name) :
    (p.child name).components = p.components ++ [name] := by
  have hname : name ≠ "" := by
    simp only [isPlain, Bool.and_eq_true, bne_iff_ne] at hplain
    exact hplain.1
  obtain ⟨ps, hchild, hslash | ⟨hpieces, hroot⟩⟩ := pieces_child p hplain
  · rw [components_eq, components_eq, hchild, hslash]
    by_cases hps : ps = []
    · subst hps
      simp [ofPieces, hname]
    · rw [ofPieces_append_empty hps]
      split
      · next hroot => simp [hroot, ofPieces, hstep]
      · next hroot => exact ofPieces_append hps hroot hstep
  · rw [components_eq, components_eq, hchild, hpieces]
    exact ofPieces_append (hpieces ▸ pieces_ne_nil p) hroot hstep

/-! ### Extensions -/

/-- Names with an extension have a dot in front of it and something in front of the dot. -/
theorem extension?_eq_some {name extension : String} : extension? name = some extension ↔
    ∃ stem, stem ≠ "" ∧ name = stem ++ "." ++ extension ∧ '.' ∉ extension.toList := by
  have hdot : ".".toList = ['.'] := rfl
  simp only [extension?]
  constructor
  · intro h
    have hsplit := List.takeWhile_append_dropWhile (p := (· != '.')) (l := name.toList.reverse)
    have hbehind : ∀ c ∈ name.toList.reverse.takeWhile (· != '.'), c ≠ '.' := fun c hc => by
      simpa using List.all_eq_true.1 List.all_takeWhile c hc
    have hhead := List.head?_dropWhile_not (· != '.') name.toList.reverse
    generalize name.toList.reverse.takeWhile (· != '.') = behind at h hsplit hbehind
    generalize name.toList.reverse.dropWhile (· != '.') = front at hsplit hhead
    rw [← hsplit, List.drop_append, List.drop_of_length_le (Nat.le_succ _), List.nil_append,
      Nat.add_sub_cancel_left] at h
    split at h
    · exact absurd h nofun
    · next hstem =>
      obtain rfl := Option.some.inj h
      obtain ⟨c, more, rfl⟩ : ∃ c more, front = c :: more :=
        List.exists_cons_of_ne_nil fun hnil => hstem (by rw [hnil]; rfl)
      obtain rfl : c = '.' := by simpa using hhead
      refine ⟨String.ofList more.reverse, by simpa using hstem, ?_, by simpa using hbehind '.'⟩
      rw [← String.toList_inj, ← List.reverse_inj, ← hsplit]
      simp [hdot]
  · rintro ⟨stem, hstem, rfl, hextension⟩
    have hplain : ∀ c ∈ extension.toList.reverse, (c != '.') = true := fun c hc =>
      bne_iff_ne.2 fun heq => hextension (by simpa [heq] using hc)
    have hreverse : (stem ++ "." ++ extension).toList.reverse =
        extension.toList.reverse ++ '.' :: stem.toList.reverse := by
      simp [hdot]
    rw [hreverse, List.takeWhile_append_of_pos hplain, List.takeWhile_cons_of_neg (by simp), List.append_nil,
      List.drop_append, List.drop_of_length_le (Nat.le_succ _), List.nil_append, Nat.add_sub_cancel_left]
    split
    · next hnil => exact absurd hnil (by simpa using hstem)
    · rw [List.reverse_reverse, String.ofList_toList]

/-! ### Paths below a directory -/

/-- The path of what stands at a location below a directory. -/
def below (here : Path) (names : List String) : Path := names.foldl child here

@[simp] theorem below_nil (here : Path) : here.below [] = here := rfl

@[simp] theorem below_cons (here : Path) (name : String) (rest : List String) :
    here.below (name :: rest) = (here.child name).below rest := rfl

theorem components_below (here : Path) {names : List String}
    (h : ∀ name ∈ names, isPlain name ∧ isStep name) :
    (here.below names).components = here.components ++ names := by
  induction names generalizing here with
  | nil => exact (List.append_nil _).symm
  | cons name rest ih =>
    obtain ⟨⟨hplain, hstep⟩, hrest⟩ := List.forall_mem_cons.1 h
    rw [below_cons, ih _ hrest, components_child here hplain hstep, List.append_assoc, List.singleton_append]

/-- The order of paths below a directory, component by component. -/
def Before (p q : Path) : Prop := p.components < q.components

instance (p q : Path) : Decidable (p.Before q) := inferInstanceAs (Decidable (_ < _))

theorem Before.not_same {p q : Path} (h : p.Before q) : ¬p.Same q := fun hsame =>
  List.lt_irrefl q.components (by rwa [Before, show p.components = q.components from hsame] at h)

/-! ### Lengths -/

theorem size_child_le (p : Path) (name : String) :
    p.text.utf8ByteSize + name.utf8ByteSize ≤ (p.child name).text.utf8ByteSize := by
  unfold child
  split <;> simp [String.utf8ByteSize_append]

theorem not_isUsable_child {p : Path} {name : String}
    (h : lengthLimit < p.text.utf8ByteSize + name.utf8ByteSize) : (p.child name).isUsable = false := by
  have hsize := size_child_le p name
  have hroom : ¬(p.child name).text.utf8ByteSize ≤ lengthLimit := by omega
  simp [isUsable, hasRoom, hroom]

/-- A path of twice so many bytes that stays where it starts. -/
def idle : Nat → Path
  | 0 => ⟨""⟩
  | n + 1 => ⟨"." ++ "/" ++ (idle n).text⟩

theorem pieces_idle (n : Nat) : (idle n).pieces = List.replicate n "." ++ [""] := by
  induction n with
  | zero => exact pieces_of_not_contains (by simp)
  | succ n ih =>
    have hdot : pieces ⟨"."⟩ = ["."] := pieces_of_not_contains (by decide)
    rw [idle, pieces_append, hdot, ih]
    rfl

theorem size_idle (n : Nat) : (idle n).text.utf8ByteSize = 2 * n := by
  induction n with
  | zero => rfl
  | succ n ih =>
    have hone : (".".utf8ByteSize = 1) ∧ "/".utf8ByteSize = 1 := ⟨by decide +kernel, by decide +kernel⟩
    rw [idle, String.utf8ByteSize_append, String.utf8ByteSize_append, ih, hone.1, hone.2]
    omega

theorem isUsable_idle {n : Nat} (h : 2 * (n + 1) ≤ lengthLimit) : (idle (n + 1)).isUsable := by
  have hnul : ∀ n, '\x00' ∉ (idle n).text.toList := fun n => by
    induction n with
    | zero => simp [idle]
    | succ n ih => simp [idle, ih]
  have hempty : (idle (n + 1)).text ≠ "" := fun heq => by
    have hsize := size_idle (n + 1)
    rw [heq] at hsize
    simp at hsize
  simp [isUsable, hasRoom, size_idle, h, hnul, hempty]

/-! ### The directory of a path -/

/-- Only pieces that lead nowhere are dropped, and never all of them. -/
theorem dropIdle_spec (ps : List String) :
    ∃ idle, ps = idle ++ dropIdle ps ∧ (∀ piece ∈ idle, isStep piece = false) ∧
      (ps ≠ [] → dropIdle ps ≠ []) := by
  fun_induction dropIdle ps with
  | case1 => exact ⟨[], rfl, by simp, id⟩
  | case2 first => exact ⟨[], rfl, by simp, id⟩
  | case3 piece rest hrest hstep => exact ⟨[], rfl, by simp, id⟩
  | case4 piece rest hrest hidle ih =>
    obtain ⟨idle, hsplit, hall, hne⟩ := ih
    refine ⟨piece :: idle, by rw [List.cons_append, ← hsplit], ?_, fun _ => hne hrest⟩
    exact List.forall_mem_cons.2 ⟨by simpa using hidle, hall⟩

/-- The directory has the pieces in front of the name, as far as they lead somewhere. -/
theorem pieces_directory {p : Path} {front : List String} {name : String}
    (h : p.pieces = front ++ [name])
    (hname : isStep name) :
    (front = [] ∧ p.directory.pieces = ["."]) ∨
      ∃ kept idle, front = kept ++ idle ∧ (∀ piece ∈ idle, isStep piece = false) ∧
        (kept = [""] ∧ p.directory.pieces = ["", ""] ∨ kept ≠ [] ∧ kept ≠ [""] ∧
          p.directory.pieces = kept) := by
  have hnamed : dropIdle p.pieces.reverse = name :: front.reverse := by
    rw [h, List.reverse_append, List.reverse_singleton, List.singleton_append]
    cases front.reverse with
    | nil => rfl
    | cons piece rest => rw [dropIdle, if_pos hname]; exact List.cons_ne_nil _ _
  simp only [directory, hnamed]
  obtain ⟨idle, hsplit, hidle, hne⟩ := dropIdle_spec front.reverse
  by_cases hfront : front = []
  · subst hfront
    exact .inl ⟨rfl, pieces_of_not_contains (by simp)⟩
  · have hkept : front = (dropIdle front.reverse).reverse ++ idle.reverse := by
      rw [← List.reverse_append, ← hsplit, List.reverse_reverse]
    have hkept' : (dropIdle front.reverse).reverse ≠ [] := by
      simpa using hne (by simpa using hfront)
    refine .inr ⟨_, _, hkept, by simpa using hidle, ?_⟩
    have hslash : ∀ piece ∈ (dropIdle front.reverse).reverse, '/' ∉ piece.toList := by
      intro piece hpiece
      refine not_contains_of_mem_pieces (p := p) ?_
      rw [h, hkept]
      simp [hpiece]
    generalize (dropIdle front.reverse).reverse = kept at hkept' hslash ⊢
    split
    · exact absurd rfl hkept'
    · exact .inl ⟨rfl, by decide +kernel⟩
    · next hroot => exact .inr ⟨hkept', hroot, pieces_intercalate hkept' hslash⟩

end FeatureForwarding.Files.Path
