import FeatureForwarding.Proofs.Manifest.InPlace

/-! What handing switches on changes in a document: tokens come behind the elements of feature lists, lists
and a feature table that are missing are made, and everything else stays as it is written. -/

namespace FeatureForwarding

open Toml (Key Item Value Table)

/-- The table without its entries. -/
def Toml.Item.shell : Item → Item
  | .table t => .table (t.withEntries [])
  | .value (.inline decor dotted preamble _) => .value (.inline decor dotted preamble [])
  | item => item

namespace Manifest

variable {m m' m'' : Manifest} {s : Switch} {dependency : String}

/-! ### What is added and what is kept -/

/-- The entries of tokens for a switch, in order. -/
def entriesFor (s : Switch) (new : List (String × Switch)) : List String :=
  (new.filter (·.2 = s)).map fun token => s.token token.1

/-- The texts come behind the elements of a list, which are kept as they are written; a list that was not
there is one that no text contains. -/
def Appended (texts : List String) (old new : Option Item) : Prop :=
  ∃ decor elements comma trailing added,
    old.getD .emptyList = .value (.array decor elements comma trailing) ∧
      new = some (.value (.array decor (elements ++ added) comma trailing)) ∧
      added.map Value.text? = texts.map some

/-- The tokens were added to the manifest, in order, and nothing else has changed. -/
structure Gives (new : List (String × Switch)) (m m' : Manifest) : Prop where
  /-- Only entries of the root change. -/
  root : m' = m.withRoot m'.document.root.entries
  /-- All but feature tables are as they were written. -/
  kept : m'.document.root.entries.filter (·.1.name ≠ "features") =
    m.document.root.entries.filter (·.1.name ≠ "features")
  /-- A feature table that was not there comes at the end. -/
  names : Toml.names m'.document.root.entries = Toml.names m.document.root.entries ++
    if new = [] ∨ Toml.hasKey "features" m.document.root.entries then [] else ["features"]
  /-- A feature table keeps its form and what is written around it; a new one is a table. -/
  shell : ((m'.item? "features").getD (.table .new)).shell = ((m.item? "features").getD (.table .new)).shell
  /-- The features that get no token are as they were written. -/
  keptFeatures : ∀ p : String → Bool, (∀ token ∈ new, p token.2.name = false) →
    m'.featureItems.filter (p ·.1.name) = m.featureItems.filter (p ·.1.name)
  /-- Features that were not there come at the end, each once. -/
  featureNames : ∃ added, Toml.names m'.featureItems = Toml.names m.featureItems ++ added ∧
    added.Nodup ∧ ∀ name, name ∈ added ↔
      (∃ token ∈ new, token.2.name = name) ∧ name ∉ Toml.names m.featureItems
  /-- Each list grows by the tokens of its switch. -/
  lists : ∀ s, entriesFor s new ≠ [] → Appended (entriesFor s new)
    (Toml.find? s.name m.featureItems) (Toml.find? s.name m'.featureItems)

theorem entriesFor_append (s : Switch) (new later : List (String × Switch)) :
    entriesFor s (new ++ later) = entriesFor s new ++ entriesFor s later := by
  simp [entriesFor]

theorem entriesFor_eq_nil {new : List (String × Switch)} :
    entriesFor s new = [] ↔ ∀ token ∈ new, token.2 ≠ s := by
  simp [entriesFor, List.filter_eq_nil_iff]

theorem Appended.trans {texts later : List String} {old mid new : Option Item}
    (h : Appended texts old mid) (h' : Appended later mid new) : Appended (texts ++ later) old new := by
  obtain ⟨decor, elements, comma, trailing, added, hold, rfl, hadded⟩ := h
  obtain ⟨decor', elements', comma', trailing', added', hmid, rfl, hadded'⟩ := h'
  simp only [Option.getD_some, Item.value.injEq, Value.array.injEq] at hmid
  obtain ⟨rfl, rfl, rfl, rfl⟩ := hmid
  exact ⟨decor, elements, comma, trailing, added ++ added', hold, by rw [List.append_assoc],
    by rw [List.map_append, List.map_append, hadded, hadded']⟩

theorem appended_extendListItem? {content : String} {old : Option Item} {new : Item}
    (h : extendListItem? content old = some new) : Appended [content] old (some new) := by
  have hnew (elements : List Value) :
      [(Value.ofText content).withDecor (newElementDecor elements)].map Value.text? =
        [content].map some := rfl
  rcases old with _ | (_ | ⟨decor, elements, comma, trailing⟩ | _) | _ | _
  · obtain rfl := Option.some.inj h
    exact ⟨_, _, _, _, _, rfl, rfl, hnew []⟩
  · exact absurd h nofun
  · obtain rfl := Option.some.inj h
    exact ⟨_, _, _, _, _, rfl, rfl, hnew elements⟩
  all_goals exact absurd h nofun

theorem shell_extendFeature? {feature content : String} {old : Option Item} {new : Item}
    (h : extendFeature? feature content old = some new) :
    new.shell = (old.getD (.table .new)).shell := by
  rcases old with _ | (_ | _ | ⟨decor, dotted, preamble, entries⟩) | t | _
  · rw [extendFeature?] at h
    obtain ⟨entries, -, rfl⟩ := Option.map_eq_some_iff.1 h
    rfl
  · exact absurd h (by simp [extendFeature?])
  · exact absurd h (by simp [extendFeature?])
  · obtain ⟨entries, -, rfl⟩ := Option.map_eq_some_iff.1 h
    rfl
  · obtain ⟨entries, -, rfl⟩ := Option.map_eq_some_iff.1 h
    rfl
  · exact absurd h (by simp [extendFeature?])

namespace Gives

variable {new later : List (String × Switch)}

theorem refl (m : Manifest) : Gives [] m m where
  root := m.withRoot_root.symm
  kept := rfl
  names := by simp
  shell := rfl
  keptFeatures _ _ := rfl
  featureNames := ⟨[], by simp, .nil, by simp⟩
  lists s h := absurd rfl h

/-- What stands under another name than those of the tokens is as it was. -/
theorem find?_eq (h : Gives new m m') {name : String} (hname : ∀ token ∈ new, token.2.name ≠ name) :
    Toml.find? name m'.featureItems = Toml.find? name m.featureItems := by
  have hfilter (entries : List (Key × Item)) :
      Toml.find? name (entries.filter (·.1.name = name)) = Toml.find? name entries := by
    induction entries with
    | nil => rfl
    | cons entry rest ih =>
      obtain ⟨key, item⟩ := entry
      by_cases hkey : key.name = name <;> simp [Toml.find?, hkey, ih]
  rw [← hfilter, ← hfilter m.featureItems,
    h.keptFeatures (· = name) fun token htoken => decide_eq_false (hname token htoken)]

theorem hasKey_features (h : Gives new m m') : Toml.hasKey "features" m'.document.root.entries =
    (!new.isEmpty || Toml.hasKey "features" m.document.root.entries) := by
  rw [Toml.hasKey_eq, Toml.hasKey_eq, h.names, Toml.hasKey_eq]
  cases new <;> by_cases hmem : "features" ∈ Toml.names m.document.root.entries <;> simp [hmem]

theorem trans (h : Gives new m m') (h' : Gives later m' m'') : Gives (new ++ later) m m'' where
  root := by rw [h'.root, h.root]; rfl
  kept := h'.kept.trans h.kept
  names := by
    rw [h'.names, h.names, h.hasKey_features]
    cases new <;> cases later <;> cases Toml.hasKey "features" m.document.root.entries <;> simp
  shell := h'.shell.trans h.shell
  keptFeatures p hp := by
    rw [h'.keptFeatures p fun token htoken => hp token (List.mem_append_right _ htoken),
      h.keptFeatures p fun token htoken => hp token (List.mem_append_left _ htoken)]
  featureNames := by
    obtain ⟨added, hnames, hnodup, hmem⟩ := h.featureNames
    obtain ⟨added', hnames', hnodup', hmem'⟩ := h'.featureNames
    rw [hnames] at hmem'
    refine ⟨added ++ added', by rw [hnames', hnames, List.append_assoc], ?_, fun name => ?_⟩
    · refine List.nodup_append.2 ⟨hnodup, hnodup', fun name hearly name' hlate heq => ?_⟩
      exact ((hmem' name').1 hlate).2 (List.mem_append_right _ (heq ▸ hearly))
    · simp only [List.mem_append, hmem, hmem']
      grind
  lists s hs := by
    have hother {new : List (String × Switch)} (hnil : entriesFor s new = []) :
        ∀ token ∈ new, token.2.name ≠ s.name :=
      fun token htoken heq => entriesFor_eq_nil.1 hnil token htoken (Switch.name_inj.1 heq)
    rw [entriesFor_append] at hs ⊢
    by_cases hnew : entriesFor s new = []
    · rw [hnew, List.nil_append] at hs ⊢
      rw [← h.find?_eq (hother hnew)]
      exact h'.lists s hs
    · by_cases hlater : entriesFor s later = []
      · rw [hlater, List.append_nil, h'.find?_eq (hother hlater)]
        exact h.lists s hnew
      · exact (h.lists s hnew).trans (h'.lists s hlater)

end Gives

theorem gives_addForwarding? (h : m.addForwarding? s dependency = some m') :
    Gives [(dependency, s)] m m' := by
  obtain ⟨-, entries, hm', hentries⟩ := addForwarding?_eq_some h
  have hroot : m'.document.root.entries = entries := by
    subst hm'
    rfl
  rw [← hroot] at hentries
  have hrevised := featureItems_addForwarding? h
  refine ⟨by rw [hroot]; exact hm', ?_, ?_, ?_, fun p hp => ?_, ?_, fun s' hs' => ?_⟩
  · exact Toml.filter_revise? hentries (p := (· ≠ "features")) (by simp [Key.new])
  · rw [Toml.names_revise? hentries, Key.new]
    cases Toml.hasKey "features" m.document.root.entries <;> simp
  · obtain ⟨item, hitem, hfound⟩ := Toml.find?_revise?_self hentries
    change m'.item? "features" = some item at hfound
    rw [hfound]
    exact shell_extendFeature? hitem
  · exact Toml.filter_revise? hrevised (hp _ List.mem_cons_self)
  · refine ⟨_, Toml.names_revise? hrevised, ?_, fun name => ?_⟩
    · split <;> simp
    · rw [Toml.hasKey_eq, Key.new]
      by_cases hmem : s.name ∈ Toml.names m.featureItems
      · simp only [hmem, decide_true, if_true, List.mem_singleton, exists_eq_left]
        grind
      · simp only [hmem, decide_false, Bool.false_eq_true, if_false, List.mem_singleton, exists_eq_left]
        grind
  · by_cases hs : s = s'
    · subst hs
      obtain ⟨new, hnew, hfound⟩ := Toml.find?_revise?_self hrevised
      have hsingle : entriesFor s [(dependency, s)] = [s.token dependency] := by simp [entriesFor]
      rw [hsingle, show Toml.find? s.name m'.featureItems = some new from hfound]
      exact appended_extendListItem? hnew
    · exact absurd (entriesFor_eq_nil.2 (by simpa using hs)) hs'

/-! ### The edit as a whole -/

/-- The texts in the list of a feature. -/
def listed (m : Manifest) (feature : String) : List String :=
  ((Toml.find? feature m.featureItems).map activations).getD []

/-- Exactly one more switch is handed on to one dependency. -/
structure HandsOn (s : Switch) (dependency : String) (m m' : Manifest) : Prop
    extends Gives [(dependency, s)] m m' where
  forwards : ∀ s' k, m'.forwards s' k ↔ m.forwards s' k ∨ s' = s ∧ k = dependency
  listed : m'.listed s.name = m.listed s.name ++ [s.token dependency]
  others : ∀ feature ≠ s.name, Toml.find? feature m'.featureItems = Toml.find? feature m.featureItems
  items : ∀ name ≠ "features", m'.item? name = m.item? name
  packageFields : ∀ field, m'.packageField? field = m.packageField? field
  dependencies : m'.dependencies = m.dependencies

theorem handsOn_addForwarding? (h : m.addForwarding? s dependency = some m') : HandsOn s dependency m m' where
  toGives := gives_addForwarding? h
  forwards := forwards_addForwarding? h
  listed := by
    obtain ⟨new, hnew, hfound⟩ := Toml.find?_revise?_self (featureItems_addForwarding? h)
    change Toml.find? s.name m'.featureItems = some new at hfound
    rw [Manifest.listed, hfound, Option.map_some, Option.getD_some, (activations_extendListItem? hnew).1]
    rfl
  others feature hfeature := Toml.find?_revise?_of_ne (featureItems_addForwarding? h) hfeature
  items _ hname := item?_addForwarding? h hname
  packageFields := packageField?_addForwarding? h
  dependencies := dependencies_addForwarding? h

theorem takes_iff : m.takes s ↔ ∀ item, m.item? "features" = some item →
    ∃ fields, item.tableLike? = some fields ∧
      ∀ list, Toml.find? s.name fields = some list → list.array?.isSome := by
  simp [takes, Option.all_eq_true, Option.any_eq_true]

/-- Handing a switch on, step by step, adds its token and nothing else, or does nothing: it comes to its end
exactly where the token is missing and what there is of a feature table and of the list in it is a table and a
list, and where it stops before, it leaves the manifest as it was. -/
theorem forwardInPlace_exact (m : Manifest) (s : Switch) (dependency : String) :
    (m.addForwarding? s dependency =
      if (m.forwardInPlace s dependency).2 then some (m.forwardInPlace s dependency).1 else none) ∧
    ((m.forwardInPlace s dependency).2 = true ↔ m.forwards s dependency = false ∧
      ∀ item, m.item? "features" = some item → ∃ fields, item.tableLike? = some fields ∧
        ∀ list, Toml.find? s.name fields = some list → list.array?.isSome) ∧
    ((m.forwardInPlace s dependency).2 = true → HandsOn s dependency m (m.forwardInPlace s dependency).1) ∧
    ((m.forwardInPlace s dependency).2 = false → (m.forwardInPlace s dependency).1 = m) := by
  have hsome := isSome_addForwarding? m s dependency
  rw [forwardInPlace_eq]
  refine ⟨?_, ?_, fun hdone => ?_, fun hstopped => ?_⟩
  · cases m.addForwarding? s dependency <;> rfl
  · rw [hsome, Bool.and_eq_true, takes_iff, Bool.not_eq_true']
  · obtain ⟨m', hm'⟩ := Option.isSome_iff_exists.1 hdone
    rw [hm']
    exact handsOn_addForwarding? hm'
  · rw [Option.isSome_eq_false_iff, Option.isNone_iff_eq_none] at hstopped
    rw [hstopped, Option.getD_none]

/-- The features stand in an inline table, and one of them is no list. -/
def inlined : Option Manifest := read? ⟨"a"⟩
  "features=\x7bstd=[\"x\"],try-runtime=1\x7d
"

theorem forwardInPlace_exact_inlined :
    ∃ m, inlined = some m ∧ (m.forwardInPlace .std "k").2 = true ∧
      (m.forwardInPlace .std "k").1.listed "std" = ["x", "k/std"] ∧
      (m.forwardInPlace .tryRuntime "k").2 = false ∧ (m.forwardInPlace .tryRuntime "k").1 = m := by
  have htest : inlined.any fun m => m.listed "std" == ["x"] && (m.forwardInPlace .std "k").2 &&
      !(m.forwardInPlace .tryRuntime "k").2 := by
    decide +kernel
  obtain ⟨m, hm, htest⟩ := (Option.any_eq_true ..).1 htest
  simp only [Bool.and_eq_true, beq_iff_eq, Bool.not_eq_true'] at htest
  obtain ⟨⟨hlisted, hdone⟩, hstopped⟩ := htest
  obtain ⟨-, -, hadded, -⟩ := forwardInPlace_exact m .std "k"
  obtain ⟨-, -, -, hkept⟩ := forwardInPlace_exact m .tryRuntime "k"
  have hnew : (m.forwardInPlace .std "k").1.listed "std" = m.listed "std" ++ ["k/std"] := (hadded hdone).listed
  exact ⟨m, hm, hdone, by rw [hnew, hlisted]; rfl, hstopped, hkept hstopped⟩

end Manifest

end FeatureForwarding
