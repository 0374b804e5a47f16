import FeatureForwarding.Proofs.Text.Words
import FeatureForwarding.Switch
import Mathlib.Data.List.Basic

/-! Lists of switches as they are read from a text: the words of the text, each a switch, without
repetitions and in the order in which they first occur. -/

namespace FeatureForwarding.Switch

variable {names seen : List String} {name : String} {s : Switch} {found ss : List Switch}

theorem read_eq_ok : read name = .ok s ↔ s.name = name := by
  unfold read
  constructor
  · intro h
    split at h
    · next s' hs =>
      obtain rfl := Except.ok.inj h
      simpa using List.find?_some hs
    · exact absurd h nofun
  · rintro rfl
    rw [ofName?_name]

theorem read_eq_error {unknown : Unknown} :
    read name = .error unknown ↔ unknown.name = name ∧ ∀ s : Switch, s.name ≠ name := by
  constructor
  · intro h
    refine ⟨?_, fun s hs => absurd (h.symm.trans (read_eq_ok.2 hs)) nofun⟩
    unfold read at h
    split at h
    · exact absurd h nofun
    · rw [← Except.error.inj h]
  · rintro ⟨rfl, hnone⟩
    cases hread : read unknown.name with
    | ok s => exact absurd (read_eq_ok.1 hread) (hnone s)
    | error other =>
      unfold read at hread
      split at hread
      · exact absurd hread nofun
      · exact hread.symm

/-- The switches that are named, each once, ordered by where their names occur first. -/
structure IsDistinct (names : List String) (ss : List Switch) : Prop where
  named : ∀ s, s ∈ ss ↔ s.name ∈ names
  ordered : ss.Pairwise fun s s' => names.idxOf s.name < names.idxOf s'.name

namespace IsDistinct

theorem nodup (h : IsDistinct names ss) : ss.Nodup :=
  h.ordered.imp fun {a b} hlt heq => by rw [heq] at hlt; exact Nat.lt_irrefl _ hlt

theorem snoc (h : IsDistinct names ss) (s : Switch) :
    IsDistinct (names ++ [s.name]) (if s ∈ ss then ss else ss ++ [s]) := by
  have hsame : ∀ known ∈ ss, (names ++ [s.name]).idxOf known.name = names.idxOf known.name :=
    fun known hknown => List.idxOf_append_of_mem ((h.named known).1 hknown)
  have hordered : ss.Pairwise fun s' s'' =>
      (names ++ [s.name]).idxOf s'.name < (names ++ [s.name]).idxOf s''.name :=
    h.ordered.imp_of_mem fun {a b} ha hb hlt => by rwa [hsame a ha, hsame b hb]
  split
  · next hknown =>
    refine ⟨fun other => ?_, hordered⟩
    rw [List.mem_append, List.mem_singleton, name_inj, h.named other]
    exact ⟨.inl, fun hor => hor.elim id fun heq => heq ▸ (h.named s).1 hknown⟩
  · next hnew =>
    refine ⟨fun other => by simp [h.named other], List.pairwise_append.2 ⟨hordered, by simp, ?_⟩⟩
    intro known hknown other hother
    obtain rfl := List.mem_singleton.1 hother
    have hlt := List.idxOf_lt_length_of_mem ((h.named known).1 hknown)
    rw [hsame known hknown, List.idxOf_append_of_notMem (mt (h.named other).2 hnew)]
    omega

end IsDistinct

/-- Names that can be read are all switches, and what was found goes on with the distinct ones. -/
theorem readNamesFrom_eq_ok (h : IsDistinct seen found) (hread : readNamesFrom found names = .ok ss) :
    (∀ name ∈ names, ∃ s : Switch, s.name = name) ∧ IsDistinct (seen ++ names) ss := by
  induction names generalizing seen found with
  | nil => exact ⟨nofun, by rwa [List.append_nil, ← Except.ok.inj hread]⟩
  | cons name names ih =>
    rw [readNamesFrom] at hread
    split at hread
    · exact absurd hread nofun
    · next s hs =>
      obtain rfl := read_eq_ok.1 hs
      obtain ⟨hnames, hdistinct⟩ := ih (h.snoc s) hread
      rw [List.append_assoc, List.singleton_append] at hdistinct
      exact ⟨List.forall_mem_cons.2 ⟨⟨s, rfl⟩, hnames⟩, hdistinct⟩

/-- Reading stops at the first name that is no switch. -/
theorem readNamesFrom_eq_error {unknown : Unknown} (hread : readNamesFrom found names = .error unknown) :
    ∃ known rest, names = known ++ unknown.name :: rest ∧
      (∀ name ∈ known, ∃ s : Switch, s.name = name) ∧ ∀ s : Switch, s.name ≠ unknown.name := by
  induction names generalizing found with
  | nil => exact absurd hread nofun
  | cons name names ih =>
    rw [readNamesFrom] at hread
    split at hread
    · next other hs =>
      obtain rfl := Except.error.inj hread
      obtain ⟨rfl, hnone⟩ := read_eq_error.1 hs
      exact ⟨[], names, rfl, nofun, hnone⟩
    · next s hs =>
      obtain rfl := read_eq_ok.1 hs
      obtain ⟨known, rest, rfl, hknown, hnone⟩ := ih hread
      exact ⟨s.name :: known, rest, rfl, List.forall_mem_cons.2 ⟨⟨s, rfl⟩, hknown⟩, hnone⟩

/-- Distinct switches that were named are found again. -/
theorem readNamesFrom_names (found : List Switch) (h : (found ++ ss).Nodup) :
    readNamesFrom found (ss.map Switch.name) = .ok (found ++ ss) := by
  induction ss generalizing found with
  | nil => rw [List.append_nil]; rfl
  | cons s ss ih =>
    have hnew : s ∉ found := fun hs => (List.nodup_append.1 h).2.2 s hs s List.mem_cons_self rfl
    rw [List.map_cons, readNamesFrom, read_eq_ok.2 rfl]
    dsimp only
    rw [if_neg hnew, ih _ (by simpa using h), List.append_assoc, List.singleton_append]

/-! ### Lists as text -/

theorem isPlain_name (s : Switch) : s.name ≠ "" ∧ ∀ c ∈ s.name.toList, Text.isSeparator c = false := by
  have hletters : s.name.toList.all (!Text.isSeparator ·) = true := by cases s <;> decide
  exact ⟨by cases s <;> decide, by simpa using hletters⟩

theorem readList_eq_ok {text : String} (h : readList text = .ok ss) :
    (∀ word ∈ Text.words text, ∃ s : Switch, s.name = word) ∧
      (Text.words text = [] ∧ ss = all ∨ ss ≠ [] ∧ IsDistinct (Text.words text) ss) := by
  unfold readList at h
  have hstart : IsDistinct [] [] := ⟨by simp, .nil⟩
  split at h
  · next hread =>
    obtain ⟨hnames, hdistinct⟩ := readNamesFrom_eq_ok hstart hread
    have hnil : Text.words text = [] := by
      refine List.eq_nil_iff_forall_not_mem.2 fun word hword => ?_
      obtain ⟨s, rfl⟩ := hnames word hword
      exact absurd ((hdistinct.named s).2 hword) List.not_mem_nil
    exact ⟨hnames, .inl ⟨hnil, (Except.ok.inj h).symm⟩⟩
  · next hne =>
    obtain ⟨hnames, hdistinct⟩ := readNamesFrom_eq_ok hstart h
    exact ⟨hnames, .inr ⟨fun hnil => hne (hnil ▸ h), hdistinct⟩⟩

theorem readList_eq_error {text : String} {unknown : Unknown} (h : readList text = .error unknown) :
    ∃ known rest, Text.words text = known ++ unknown.name :: rest ∧
      (∀ word ∈ known, ∃ s : Switch, s.name = word) ∧ ∀ s : Switch, s.name ≠ unknown.name := by
  unfold readList at h
  split at h
  · exact absurd h nofun
  · exact readNamesFrom_eq_error h

/-- The distinct switches of a text are read again where they stand with separators between them. -/
theorem readList_of_joined {text : String} (hne : ss ≠ []) (hnodup : ss.Nodup)
    (h : Text.Joined (ss.map Switch.name) text) : readList text = .ok ss := by
  have hwords : Text.words text = ss.map Switch.name := by
    refine Text.words_of_joined h fun word hword => ?_
    obtain ⟨s, -, rfl⟩ := List.mem_map.1 hword
    exact isPlain_name s
  have hread : readNamesFrom [] (Text.words text) = .ok ss := by
    rw [hwords, readNamesFrom_names [] hnodup, List.nil_append]
  obtain ⟨s, rest, rfl⟩ := List.exists_cons_of_ne_nil hne
  rw [readList, hread]

theorem intercalate_names : ", ".intercalate (all.map Switch.name) =
    "std, runtime-benchmarks, try-runtime" := by
  decide +kernel

theorem listMessage_eq (unknown : Unknown) :
    unknown.listMessage = "unknown capability switch '" ++ unknown.name ++
      "' (expected one of: std, runtime-benchmarks, try-runtime)" := by
  unfold Unknown.listMessage Unknown.message
  simp only [intercalate_names, toString]
  simp only [String.append_assoc]
  rfl

/-- The words of a text are its maximal runs of characters that are neither commas nor blanks, in order.
A list of switches is read iff each word is one of them; it holds the distinct ones in the order of their
first occurrence, or all if there is no word, and it is read again however its names are joined. Otherwise
the message is about the first word that is no switch. -/
theorem readList_exact (text : String) :
    (∃ runs : List (Nat × List Char), runs.Pairwise (fun a b => a.1 < b.1) ∧
      (∀ start run, (start, run) ∈ runs ↔ Text.IsMaximalRun text.toList start run) ∧
        Text.words text = runs.map fun run => String.ofList run.2) ∧
    ((∃ ss, readList text = .ok ss) ↔ ∀ word ∈ Text.words text, ∃ s : Switch, s.name = word) ∧
    (∀ ss, readList text = .ok ss → ss ≠ [] ∧ ss.Nodup ∧
      (Text.words text = [] → ss = all) ∧ (Text.words text ≠ [] → IsDistinct (Text.words text) ss) ∧
        ∀ joined, Text.Joined (ss.map Switch.name) joined → readList joined = .ok ss) ∧
    ∀ unknown, readList text = .error unknown →
      (∃ known rest, Text.words text = known ++ unknown.name :: rest ∧
        (∀ word ∈ known, ∃ s : Switch, s.name = word) ∧ ∀ s : Switch, s.name ≠ unknown.name) ∧
      unknown.listMessage = "unknown capability switch '" ++ unknown.name ++
        "' (expected one of: std, runtime-benchmarks, try-runtime)" := by
  refine ⟨?_, ⟨?_, fun hnames => ?_⟩, fun ss hss => ?_, fun unknown hunknown => ?_⟩
  · obtain ⟨runs, hordered, hmem, hwords⟩ := Text.exists_maximalRuns text.toList
    exact ⟨runs, hordered, hmem, by rw [Text.words_eq, hwords, List.map_map]; rfl⟩
  · rintro ⟨ss, hss⟩
    exact (readList_eq_ok hss).1
  · cases hread : readList text with
    | ok ss => exact ⟨ss, rfl⟩
    | error unknown =>
      obtain ⟨known, rest, hwords, -, hnone⟩ := readList_eq_error hread
      obtain ⟨s, hs⟩ := hnames unknown.name (by simp [hwords])
      exact absurd hs (hnone s)
  · obtain ⟨-, ⟨hnil, rfl⟩ | ⟨hne, hdistinct⟩⟩ := readList_eq_ok hss
    · have hnodup : all.Nodup := by decide
      exact ⟨by decide, hnodup, fun _ => rfl, fun hne => absurd hnil hne,
        fun joined hjoined => readList_of_joined (by decide) hnodup hjoined⟩
    · have hword : Text.words text ≠ [] := by
        obtain ⟨s, rest, rfl⟩ := List.exists_cons_of_ne_nil hne
        exact List.ne_nil_of_mem ((hdistinct.named s).1 List.mem_cons_self)
      exact ⟨hne, hdistinct.nodup, fun hnil => absurd hnil hword, fun _ => hdistinct,
        fun joined hjoined => readList_of_joined hne hdistinct.nodup hjoined⟩
  · exact ⟨readList_eq_error hunknown, listMessage_eq unknown⟩

/-- Repeated names, blanks of other kinds than the space, and a name that is no switch. -/
theorem readList_exact_repeated :
    readList "try-runtime,\u3000std\u00a0try-runtime" = .ok [.tryRuntime, .std] ∧
      (∀ joined, Text.Joined ["try-runtime", "std"] joined → readList joined = .ok [.tryRuntime, .std]) ∧
        ∃ known rest, Text.words "std, serde,alloc" = known ++ "serde" :: rest ∧
          ∀ word ∈ known, ∃ s : Switch, s.name = word := by
  have hread : readList "try-runtime,\u3000std\u00a0try-runtime" = .ok [.tryRuntime, .std] := by
    decide +kernel
  have herror : readList "std, serde,alloc" = .error ⟨"serde"⟩ := by
    decide +kernel
  obtain ⟨-, -, hok, -⟩ := readList_exact "try-runtime,\u3000std\u00a0try-runtime"
  obtain ⟨-, -, -, hunknown⟩ := readList_exact "std, serde,alloc"
  obtain ⟨⟨known, rest, hwords, hknown, -⟩, -⟩ := hunknown ⟨"serde"⟩ herror
  exact ⟨hread, (hok _ hread).2.2.2.2, known, rest, hwords, hknown⟩

end FeatureForwarding.Switch
