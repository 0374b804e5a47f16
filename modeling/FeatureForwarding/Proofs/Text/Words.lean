import FeatureForwarding.Text.Words

/-! The words of a text. They are its maximal runs of characters that separate nothing, each at its
place and in order; and whatever separators stand between them, the words are the same. -/

namespace FeatureForwarding.Text

variable {c : Char} {text front back run : List Char} {start : Nat}

theorem isSeparator_iff : isSeparator c = true ↔ c = ',' ∨ isBlank c = true := by
  simp [isSeparator]

theorem isSeparator_eq_false_iff : isSeparator c = false ↔ c ≠ ',' ∧ isBlank c = false := by
  simp [isSeparator]

/-- The words of a text as lists of characters. -/
def wordsOf (text : List Char) : List (List Char) :=
  (text.splitOnP isSeparator).filter (!·.isEmpty)

theorem words_eq (text : String) : words text = (wordsOf text.toList).map String.ofList := rfl

/-- A separator ends a word. -/
theorem wordsOf_append_separator (hc : isSeparator c = true) (front back : List Char) :
    wordsOf (front ++ c :: back) = wordsOf front ++ wordsOf back := by
  rw [wordsOf, List.splitOnP_append_cons front back hc, List.filter_append]
  rfl

theorem wordsOf_of_plain (h : ∀ c ∈ text, isSeparator c = false) :
    wordsOf text = if text = [] then [] else [text] := by
  rw [wordsOf, List.splitOnP_eq_singleton h]
  split <;> simp_all

theorem wordsOf_separators (h : ∀ c ∈ front, isSeparator c = true) :
    wordsOf (front ++ back) = wordsOf back := by
  induction front with
  | nil => rfl
  | cons c front ih =>
    have hc := wordsOf_append_separator (h c List.mem_cons_self) [] (front ++ back)
    rw [List.nil_append, ih fun c hc => h c (List.mem_cons_of_mem _ hc)] at hc
    exact hc

theorem plain_or_separated (text : List Char) : (∀ c ∈ text, isSeparator c = false) ∨
    ∃ front c back, text = front ++ c :: back ∧ (∀ c ∈ front, isSeparator c = false) ∧
      isSeparator c = true := by
  induction text with
  | nil => exact .inl nofun
  | cons first rest ih =>
    by_cases hfirst : isSeparator first = true
    · exact .inr ⟨[], first, rest, rfl, nofun, hfirst⟩
    have hfirst : isSeparator first = false := by simpa using hfirst
    rcases ih with hplain | ⟨front, c, back, rfl, hplain, hc⟩
    · exact .inl (List.forall_mem_cons.2 ⟨hfirst, hplain⟩)
    · exact .inr ⟨first :: front, c, back, rfl, List.forall_mem_cons.2 ⟨hfirst, hplain⟩, hc⟩

/-- A text holds no separator, or it goes on behind its first one. -/
theorem separator_induction {motive : List Char → Prop}
    (plain : ∀ text, (∀ c ∈ text, isSeparator c = false) → motive text)
    (separated : ∀ front c back, (∀ c ∈ front, isSeparator c = false) → isSeparator c = true →
      motive back → motive (front ++ c :: back)) (text : List Char) : motive text := by
  rcases plain_or_separated text with hplain | ⟨front, c, back, hsplit, hplain, hc⟩
  · exact plain text hplain
  · have : back.length < text.length := by rw [hsplit, List.length_append, List.length_cons]; omega
    rw [hsplit]
    exact separated front c back hplain hc (separator_induction plain separated back)
  termination_by text.length

/-- A comma turned into a blank, and any other character as it is. -/
def blankComma (c : Char) : Char := if c = ',' then ' ' else c

/-- It is the same to split at commas and blanks, or at blanks once no comma is left. -/
theorem filter_splitOnP_blankComma (text : List Char) :
    ((text.map blankComma).splitOnP isBlank).filter (!·.isEmpty) = wordsOf text := by
  have hplain (text : List Char) (h : ∀ c ∈ text, isSeparator c = false) :
      ((text.map blankComma).splitOnP isBlank).filter (!·.isEmpty) = wordsOf text := by
    have hsame : text.map blankComma = text :=
      (List.map_congr_left fun c hc => if_neg (isSeparator_eq_false_iff.1 (h c hc)).1).trans
        (List.map_id text)
    rw [hsame, wordsOf, List.splitOnP_eq_singleton h,
      List.splitOnP_eq_singleton fun c hc => (isSeparator_eq_false_iff.1 (h c hc)).2]
  induction text using separator_induction with
  | plain text h => exact hplain text h
  | separated front c back hfront hc ih =>
    have hblank : isBlank (blankComma c) = true := by
      unfold blankComma
      split
      · decide
      · next hcomma => exact (isSeparator_iff.1 hc).resolve_left hcomma
    rw [List.map_append, List.map_cons, List.splitOnP_append_cons _ _ hblank, List.filter_append,
      hplain front hfront, ih, wordsOf_append_separator hc]

/-! ### Maximal runs -/

/-- The run of characters that are neither commas nor blanks stands at that offset of the text, and
on both sides the text ends or such a character follows. -/
structure IsMaximalRun (text : List Char) (start : Nat) (run : List Char) : Prop where
  nonempty : run ≠ []
  plain : ∀ c ∈ run, c ≠ ',' ∧ isBlank c = false
  stands : ∃ before after, text = before ++ run ++ after ∧ before.length = start ∧
    (∀ c ∈ before.getLast?, c = ',' ∨ isBlank c = true) ∧
    ∀ c ∈ after.head?, c = ',' ∨ isBlank c = true

theorem isMaximalRun_iff : IsMaximalRun text start run ↔ run ≠ [] ∧ (∀ c ∈ run, isSeparator c = false) ∧
    ∃ before after, text = before ++ run ++ after ∧ before.length = start ∧
      (∀ c ∈ before.getLast?, isSeparator c = true) ∧ ∀ c ∈ after.head?, isSeparator c = true := by
  simp only [isSeparator_iff, isSeparator_eq_false_iff]
  exact ⟨fun h => ⟨h.nonempty, h.plain, h.stands⟩, fun ⟨h, h', h''⟩ => ⟨h, h', h''⟩⟩

theorem eq_nil_of_getLast? (hplain : ∀ c ∈ text, isSeparator c = false)
    (hlast : ∀ c ∈ text.getLast?, isSeparator c = true) : text = [] := by
  cases h : text.getLast? with
  | none => exact List.getLast?_eq_none_iff.1 h
  | some c => exact absurd (hplain c (List.mem_of_getLast? h)) (by simp [hlast c h])

theorem eq_nil_of_head? (hplain : ∀ c ∈ text, isSeparator c = false)
    (hhead : ∀ c ∈ text.head?, isSeparator c = true) : text = [] := by
  cases text with
  | nil => rfl
  | cons c text => exact absurd (hplain c List.mem_cons_self) (by simp [hhead c rfl])

/-- The only run of a text without separators is the text itself. -/
theorem isMaximalRun_of_plain (h : ∀ c ∈ text, isSeparator c = false) :
    IsMaximalRun text start run ↔ start = 0 ∧ run = text ∧ text ≠ [] := by
  rw [isMaximalRun_iff]
  constructor
  · rintro ⟨hne, -, before, after, rfl, rfl, hbefore, hafter⟩
    obtain rfl := eq_nil_of_getLast? (fun c hc => h c (by simp [hc])) hbefore
    obtain rfl := eq_nil_of_head? (fun c hc => h c (by simp [hc])) hafter
    exact ⟨rfl, by simp, by simpa using hne⟩
  · rintro ⟨rfl, rfl, hne⟩
    exact ⟨hne, h, [], [], by simp, rfl, nofun, nofun⟩

/-- The runs of a text are what stands before its first separator, if anything does, and the runs
behind it. -/
theorem isMaximalRun_append_separator (hfront : ∀ c ∈ front, isSeparator c = false)
    (hc : isSeparator c = true) :
    IsMaximalRun (front ++ c :: back) start run ↔
      start = 0 ∧ run = front ∧ front ≠ [] ∨
        ∃ later, start = front.length + 1 + later ∧ IsMaximalRun back later run := by
  simp only [isMaximalRun_iff]
  constructor
  · rintro ⟨hne, hplain, before, after, hsplit, rfl, hbefore, hafter⟩
    rw [List.append_assoc] at hsplit
    rcases List.append_eq_append_iff.1 hsplit with ⟨m, rfl, hback⟩ | ⟨m, rfl, hrun⟩
    · -- the run lies behind the first separator, which is no part of it
      cases m with
      | nil =>
        obtain ⟨first, run, rfl⟩ := List.exists_cons_of_ne_nil hne
        obtain ⟨rfl, -⟩ := List.cons.inj hback
        exact absurd (hplain c List.mem_cons_self) (by simp [hc])
      | cons _ before =>
        obtain ⟨rfl, rfl⟩ := List.cons.inj hback
        refine .inr ⟨before.length, by simp; omega, hne, hplain, before, after, by simp, rfl, ?_,
          hafter⟩
        intro d hd
        refine hbefore d ?_
        cases before with
        | nil => exact absurd hd nofun
        | cons _ before => simpa using hd
    · -- the run begins within the front, hence with it, and ends with it
      obtain rfl := eq_nil_of_getLast? (fun c hc => hfront c (List.mem_append_left _ hc)) hbefore
      rcases List.append_eq_append_iff.1 hrun with ⟨more, rfl, rfl⟩ | ⟨more, rfl, hback⟩
      · have hmore : more = [] := by
          refine eq_nil_of_head? (fun c hc => hfront c (by simp [hc])) fun d hd => hafter d ?_
          rw [List.head?_append, Option.mem_def.1 hd]
          rfl
        exact .inl ⟨rfl, by simp [hmore], by simpa [hmore] using hne⟩
      · cases more with
        | nil => exact .inl ⟨rfl, by simp, by simpa using hne⟩
        | cons _ more =>
          obtain ⟨rfl, -⟩ := List.cons.inj hback
          exact absurd (hplain c (by simp)) (by simp [hc])
  · rintro (⟨rfl, rfl, hne⟩ | ⟨_, rfl, hne, hplain, before, after, rfl, rfl, hbefore, hafter⟩)
    · exact ⟨hne, hfront, [], c :: back, by simp, rfl, nofun, by simp [hc]⟩
    · refine ⟨hne, hplain, front ++ c :: before, after, by simp, by simp; omega, ?_, hafter⟩
      cases before with
      | nil => simp [hc]
      | cons d before => simpa using hbefore

/-- The words are the maximal runs, from left to right. -/
theorem exists_maximalRuns (text : List Char) : ∃ runs : List (Nat × List Char),
    runs.Pairwise (fun a b => a.1 < b.1) ∧
      (∀ start run, (start, run) ∈ runs ↔ IsMaximalRun text start run) ∧
        wordsOf text = runs.map (·.2) := by
  induction text using separator_induction with
  | plain text hplain =>
    refine ⟨if text = [] then [] else [(0, text)], ?_, fun start run => ?_, ?_⟩
    · split <;> simp
    · rw [isMaximalRun_of_plain hplain]
      split <;> simp_all
    · rw [wordsOf_of_plain hplain]
      split <;> rfl
  | separated front c back hfront hc ih =>
    obtain ⟨runs, hordered, hmem, hwords⟩ := ih
    let here : List (Nat × List Char) := if front = [] then [] else [(0, front)]
    let later := runs.map fun run => (front.length + 1 + run.1, run.2)
    have hhere (start : Nat) (run : List Char) :
        (start, run) ∈ here ↔ start = 0 ∧ run = front ∧ front ≠ [] := by
      by_cases hempty : front = [] <;> simp [here, hempty]
    refine ⟨here ++ later, List.pairwise_append.2 ⟨?_, ?_, ?_⟩, fun start run => ?_, ?_⟩
    · by_cases hempty : front = [] <;> simp [here, hempty]
    · exact List.pairwise_map.2 (hordered.imp fun hlt => by simpa using hlt)
    · rintro ⟨start, run⟩ hrun _ hother
      obtain ⟨other, -, rfl⟩ := List.mem_map.1 hother
      obtain ⟨rfl, -⟩ := (hhere start run).1 hrun
      simp only
      omega
    · rw [isMaximalRun_append_separator hfront hc, List.mem_append, hhere]
      refine or_congr_right (List.mem_map.trans ?_)
      constructor
      · rintro ⟨⟨start, run⟩, hrun, rfl, rfl⟩
        exact ⟨start, rfl, (hmem start run).1 hrun⟩
      · rintro ⟨start, rfl, hrun⟩
        exact ⟨(start, run), (hmem start run).2 hrun, rfl⟩
    · rw [wordsOf_append_separator hc, wordsOf_of_plain hfront, hwords, List.map_append, List.map_map]
      by_cases hempty : front = [] <;> simp [here, hempty, Function.comp_def]

/-! ### Words joined -/

/-- Words with separators between them, each of them one or more commas and blanks. -/
inductive Joined : List String → String → Prop
  | single (word : String) : Joined [word] word
  | cons {words : List String} {text : String} (word separator : String) (hne : separator ≠ "")
    (h : ∀ c ∈ separator.toList, c = ',' ∨ isBlank c = true) (hrest : Joined words text) :
    Joined (word :: words) (word ++ separator ++ text)

theorem words_of_joined {names : List String} {text : String} (h : Joined names text)
    (hplain : ∀ name ∈ names, name ≠ "" ∧ ∀ c ∈ name.toList, isSeparator c = false) :
    words text = names := by
  induction h with
  | single word =>
    obtain ⟨hne, hword⟩ := hplain word List.mem_cons_self
    rw [words_eq, wordsOf_of_plain hword, if_neg (by simpa using hne)]
    simp
  | @cons names text word separator hne hseparator _ ih =>
    obtain ⟨⟨hword, hletters⟩, hrest⟩ := List.forall_mem_cons.1 hplain
    obtain ⟨c, more, hcs⟩ := List.exists_cons_of_ne_nil (l := separator.toList) (by simpa using hne)
    have hall : ∀ c ∈ separator.toList, isSeparator c = true := fun c hc =>
      isSeparator_iff.2 (hseparator c hc)
    rw [hcs] at hall
    obtain ⟨hc, hmore⟩ := List.forall_mem_cons.1 hall
    have hwords : wordsOf (word ++ separator ++ text).toList = word.toList :: wordsOf text.toList := by
      rw [String.toList_append, String.toList_append, hcs, List.append_assoc, List.cons_append,
        wordsOf_append_separator hc, wordsOf_separators hmore, wordsOf_of_plain hletters,
        if_neg (by simpa using hword)]
      rfl
    rw [words_eq, hwords, List.map_cons, ← words_eq, ih hrest, String.ofList_toList]

end FeatureForwarding.Text
