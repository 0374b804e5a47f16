import FeatureForwarding.Proofs.Json.ReadBack
import FeatureForwarding.Proofs.Registry.Restored
import FeatureForwarding.Registry.Snapshot

/-! Snapshots that are read back. A text of facts reads as those facts, whether a version that is not
known is spelled out as null or left out, unless the schema finds fault with it: with the name of a
package that is empty, or with a feature that is listed twice. What a scan learns lists nothing twice,
but the name of a package can be empty. -/

namespace FeatureForwarding

open Files (Path Tree)

namespace NameMap

variable {α : Type} {name : String} {value : α} {entries : List (String × α)}

theorem insertIn_eq_append (h : ∀ entry ∈ entries, entry.1 < name) :
    insertIn name value entries = entries ++ [(name, value)] := by
  induction entries with
  | nil => rfl
  | cons head rest ih =>
    obtain ⟨other, old⟩ := head
    have hlt : other < name := h _ List.mem_cons_self
    rw [insertIn, if_neg (String.lt_asymm hlt), if_neg (Std.ne_of_lt hlt).symm,
      ih fun entry hentry => h entry (List.mem_cons_of_mem _ hentry), List.cons_append]

theorem entries_foldl_insert {m : NameMap α}
    (h : (m.entries ++ entries).Pairwise fun a b => a.1 < b.1) :
    (entries.foldl (fun m entry => m.insert entry.1 entry.2) m).entries = m.entries ++ entries := by
  induction entries generalizing m with
  | nil => simp
  | cons entry rest ih =>
    have hlt : ∀ old ∈ m.entries, old.1 < entry.1 := fun old hold =>
      (List.pairwise_append.1 h).2.2 old hold entry List.mem_cons_self
    have hinsert : (m.insert entry.1 entry.2).entries = m.entries ++ [entry] :=
      insertIn_eq_append hlt
    rw [List.foldl_cons, ih (by rwa [hinsert, List.append_assoc]), hinsert, List.append_assoc]
    rfl

theorem entries_ofList (h : entries.Pairwise fun a b => a.1 < b.1) :
    (ofList entries).entries = entries :=
  entries_foldl_insert (m := empty) h

theorem ofList_entries (m : NameMap α) : ofList m.entries = m :=
  ext_get? fun name => by rw [get?, get?, entries_ofList m.sorted]

end NameMap

namespace Json

theorem canonicalMembers_eq_map (members : List (String × Json)) :
    canonicalMembers members = members.map fun member => (member.1, member.2.canonical) := by
  induction members with
  | nil => rfl
  | cons member rest ih => rw [canonicalMembers, ih, List.map_cons]

theorem canonicalElements_texts (texts : List String) :
    canonicalElements (texts.map .string) = texts.map .string := by
  induction texts with
  | nil => rfl
  | cons text rest ih => simp [canonicalElements, canonical, ih]

theorem nestsAll_texts (texts : List String) (limit : Nat) : nestsAll (texts.map .string) limit := by
  induction texts with
  | nil => rfl
  | cons text rest ih => simpa [nestsAll, nests] using ih

end Json

namespace Fact

variable {fact : Fact}

/-- The members of a fact; a version that is not known may be left out. -/
def members (leavesOut : Bool) (fact : Fact) : List (String × Json) :=
  [("name", .string fact.name)]
    ++ (match fact.version with
      | some version => [("version", .string version)]
      | none => if leavesOut then [] else [("version", .null)])
    ++ [("features", .array (fact.features.map .string)),
      ("used_features", .array (fact.usedFeatures.map .string)), ("direct", .boolean fact.direct)]

theorem toJson_eq_members (fact : Fact) : fact.toJson = .object (fact.members false) := by
  unfold toJson members
  cases fact.version <;> rfl

theorem nests_members (leavesOut : Bool) (fact : Fact) (limit : Nat) :
    (Json.object (fact.members leavesOut)).nests (limit + 2) := by
  unfold members
  cases fact.version <;> cases leavesOut <;>
    simp [Json.nests, Json.nestsIn, Json.nestsAll_texts]

/-- The members in the order of their names. -/
def sortedMembers (leavesOut : Bool) (fact : Fact) : List (String × Json) :=
  [("direct", .boolean fact.direct), ("features", .array (fact.features.map .string)),
      ("name", .string fact.name), ("used_features", .array (fact.usedFeatures.map .string))]
    ++ match fact.version with
      | some version => [("version", .string version)]
      | none => if leavesOut then [] else [("version", .null)]

theorem canonical_members (leavesOut : Bool) (fact : Fact) :
    (Json.object (fact.members leavesOut)).canonical = .object (fact.sortedMembers leavesOut) := by
  unfold members sortedMembers
  cases fact.version <;> cases leavesOut <;>
    simp +decide only [Json.canonical, Json.canonicalMembers, Json.canonicalElements_texts,
      Json.ofMembers, NameMap.ofList, NameMap.insert, NameMap.insertIn, NameMap.empty, List.foldl_cons,
      List.foldl_nil, List.cons_append, List.nil_append, List.append_nil, if_true, if_false]

theorem decodeTexts?_texts (texts : List String) : decodeTexts? (texts.map .string) = some texts := by
  induction texts with
  | nil => rfl
  | cons text rest ih => simp [decodeTexts?, decodeText?, ih]

theorem ofJson?_sortedMembers (leavesOut : Bool) (fact : Fact) :
    ofJson? (.object (fact.sortedMembers leavesOut)) = some fact := by
  obtain ⟨name, version, features, usedFeatures, direct⟩ := fact
  cases version <;> cases leavesOut <;>
    simp [ofJson?, sortedMembers, Json.member?, decodeFields?, decodeText?, decodeVersion?, decodeList?,
      decodeFlag?, decodeTexts?_texts]

end Fact

namespace Registry

variable {facts : NameMap Fact} {fact : Fact} {path : Path} {t : Tree}

/-! ### The schema -/

namespace Schema

theorem areDistinctBy_texts {same : Json → Json → Bool}
    (hsame : ∀ a b, same (.string a) (.string b) = (a == b)) (texts : List String) :
    areDistinctBy same (texts.map .string) = decide texts.Nodup := by
  induction texts with
  | nil => rfl
  | cons text rest ih =>
    have hany : (rest.map Json.string).any (same (.string text)) = decide (text ∈ rest) := by
      simp only [List.any_map, Function.comp_def, hsame]
      exact List.contains_eq_any_beq.symm.trans (List.contains_eq_mem text rest)
    rw [List.map_cons, areDistinctBy, hany, ih]
    simp [List.nodup_cons]

theorem areDistinct_texts (texts : List String) :
    areDistinct (texts.map .string) = decide texts.Nodup := by
  unfold areDistinct
  split <;> exact areDistinctBy_texts (fun _ _ => by simp [Json.sameValue, Json.sameForm, Json.agree]) texts

theorem checkElementsFrom_texts (place : List String) (index : Nat) (texts : List String) :
    checkElementsFrom place index (texts.map .string) = [] := by
  induction texts generalizing index with
  | nil => rfl
  | cons text rest ih => simp [checkElementsFrom, isText, ih]

theorem checkList_texts (place : List String) {texts : List String} (h : texts.Nodup) :
    checkList place (.array (texts.map .string)) = [] := by
  simp [checkList, checkElementsFrom_texts, areDistinct_texts, h]

theorem checkFact_sortedMembers (place : List String) (leavesOut : Bool)
    (hfeatures : fact.features.Nodup) (hused : fact.usedFeatures.Nodup) :
    checkFact place (.object (fact.sortedMembers leavesOut)) =
      checkName (place ++ ["name"]) (.string fact.name) := by
  obtain ⟨name, version, features, usedFeatures, direct⟩ := fact
  cases version <;> cases leavesOut <;>
    simp [checkFact, Fact.sortedMembers, checkField, checkDirect, checkVersion, knownFields,
      requiredFields, Json.member?, checkList_texts _ hfeatures, checkList_texts _ hused]

end Schema

/-! ### Reading -/

/-- The facts as JSON; `leavesOut` says of which packages a version that is not known is left out. -/
def toJsonLeaving (leavesOut : String → Bool) (facts : NameMap Fact) : Json :=
  .object (facts.entries.map fun (name, fact) => (name, .object (fact.members (leavesOut name))))

def snapshotTextLeaving (leavesOut : String → Bool) (facts : NameMap Fact) : String :=
  (toJsonLeaving leavesOut facts).pretty ++ "\n"

/-- A text that is saved leaves nothing out. -/
theorem snapshotTextLeaving_nothing (facts : NameMap Fact) :
    snapshotTextLeaving (fun _ => false) facts = snapshotText facts := by
  simp only [snapshotTextLeaving, snapshotText, toJsonLeaving, toJson, Fact.toJson_eq_members]

theorem canonical_toJsonLeaving (leavesOut : String → Bool) (facts : NameMap Fact) :
    (toJsonLeaving leavesOut facts).canonical = .object (facts.entries.map fun (name, fact) =>
      (name, .object (fact.sortedMembers (leavesOut name)))) := by
  have hsorted : (facts.entries.map fun entry => (entry.1, Json.object
      (entry.2.sortedMembers (leavesOut entry.1)))).Pairwise fun a b => a.1 < b.1 :=
    List.pairwise_map.2 facts.sorted
  rw [toJsonLeaving, Json.canonical, Json.canonicalMembers_eq_map, List.map_map, Json.ofMembers]
  simp only [Function.comp_def, Fact.canonical_members]
  rw [NameMap.entries_ofList hsorted]

theorem nests_toJsonLeaving (leavesOut : String → Bool) (facts : NameMap Fact) :
    (toJsonLeaving leavesOut facts).nests Json.nestingLimit := by
  have hall (entries : List (String × Fact)) (limit : Nat) : Json.nestsIn (entries.map
      fun (name, fact) => (name, .object (fact.members (leavesOut name)))) (limit + 2) := by
    induction entries with
    | nil => rfl
    | cons entry rest ih => simp [Json.nestsIn, Fact.nests_members, ih]
  exact hall facts.entries _

theorem read?_snapshotTextLeaving (leavesOut : String → Bool) (facts : NameMap Fact) :
    Json.read? (snapshotTextLeaving leavesOut facts) = some (.object (facts.entries.map
      fun (name, fact) => (name, .object (fact.sortedMembers (leavesOut name))))) := by
  rw [← canonical_toJsonLeaving]
  exact Json.read?_textWith Json.isLoose_indented 0 (nests_toJsonLeaving leavesOut facts)
    (Json.isGap_indentation 0)

theorem ofJson?_sortedMembers (leavesOut : String → Bool) (facts : NameMap Fact) :
    ofJson? (.object (facts.entries.map fun (name, fact) =>
      (name, .object (fact.sortedMembers (leavesOut name))))) = some facts := by
  have hdecoded (entries : List (String × Fact)) : decodeEntries? (entries.map fun (name, fact) =>
      (name, .object (fact.sortedMembers (leavesOut name)))) = some entries := by
    induction entries with
    | nil => rfl
    | cons entry rest ih => simp [decodeEntries?, Fact.ofJson?_sortedMembers, ih]
  rw [ofJson?, hdecoded, Option.map_some, NameMap.ofList_entries]

/-- What the schema says against facts whose lists have no repetitions. -/
def nameFaults (facts : NameMap Fact) : List Schema.Violation :=
  facts.entries.flatMap fun (name, fact) => Schema.checkName [name, "name"] (.string fact.name)

theorem violations_sortedMembers (leavesOut : String → Bool)
    (hlists : ∀ entry ∈ facts.entries, entry.2.features.Nodup ∧ entry.2.usedFeatures.Nodup) :
    Schema.violations (.object (facts.entries.map fun (name, fact) =>
      (name, .object (fact.sortedMembers (leavesOut name))))) = nameFaults facts := by
  rw [Schema.violations, List.flatMap_map, nameFaults]
  refine List.flatMap_congr fun entry hentry => ?_
  exact Schema.checkFact_sortedMembers _ _ (hlists entry hentry).1 (hlists entry hentry).2

theorem readSnapshot_snapshotTextLeaving (path : Path) (leavesOut : String → Bool)
    (hlists : ∀ entry ∈ facts.entries, entry.2.features.Nodup ∧ entry.2.usedFeatures.Nodup) :
    readSnapshot path (snapshotTextLeaving leavesOut facts) =
      if nameFaults facts = [] then .ok facts else .error (.invalid path (nameFaults facts)) := by
  rw [readSnapshot, read?_snapshotTextLeaving]
  simp only [violations_sortedMembers leavesOut hlists, ofJson?_sortedMembers]
  split
  · next hnone => rw [if_pos hnone]
  · next hsome => rw [if_neg hsome]

theorem loadSnapshot_of_readText? {text : String} (h : t.readText? path = some text) :
    loadSnapshot t path = readSnapshot path text := by
  rw [loadSnapshot, h]

theorem nameFaults_eq_nil (hnames : ∀ entry ∈ facts.entries, entry.2.name ≠ "") :
    nameFaults facts = [] := by
  refine List.flatMap_eq_nil_iff.2 fun entry hentry => ?_
  simp [Schema.checkName, hnames entry hentry]

/-- A snapshot reads back as the facts that it was written from, whatever their texts are made of and
whichever of the unknown versions are left out, and gives rise to the same text again. -/
theorem loadSnapshot_reads_back (facts : NameMap Fact)
    (hnames : ∀ entry ∈ facts.entries, entry.2.name ≠ "")
    (hlists : ∀ entry ∈ facts.entries, entry.2.features.Nodup ∧ entry.2.usedFeatures.Nodup) :
    ∀ t path,
      (t.readText? path = some (snapshotText facts) → loadSnapshot t path = .ok facts ∧
        (loadSnapshot t path).map snapshotText = .ok (snapshotText facts)) ∧
      ∀ leavesOut, t.readText? path = some (snapshotTextLeaving leavesOut facts) →
        loadSnapshot t path = .ok facts := by
  intro t path
  have hload (leavesOut : String → Bool)
      (hread : t.readText? path = some (snapshotTextLeaving leavesOut facts)) :
      loadSnapshot t path = .ok facts := by
    rw [loadSnapshot_of_readText? hread, readSnapshot_snapshotTextLeaving path leavesOut hlists,
      if_pos (nameFaults_eq_nil hnames)]
  refine ⟨fun hread => ?_, hload⟩
  have hok := hload (fun _ => false) (by rwa [snapshotTextLeaving_nothing])
  rw [hok]
  exact ⟨rfl, rfl⟩

/-- A package whose texts need every kind of escape. -/
def odd : NameMap Fact :=
  .ofList [("\u0001\t\\", ⟨"\"é\"", none, ["", "\n", "\\u0000", "漢字"], ["\n"], false⟩),
    ("k", ⟨"k", some "1\r\n", [], [], true⟩)]

/-- A tree with one file. -/
def holding (name text : String) : Tree := Tree.empty.place [name] (.file (.text text))

theorem loadSnapshot_reads_back_odd :
    (∀ entry ∈ odd.entries, entry.2.name ≠ "") ∧
      (∀ entry ∈ odd.entries, entry.2.features.Nodup ∧ entry.2.usedFeatures.Nodup) ∧
      (holding "r" (snapshotText odd)).readText? ⟨"r"⟩ = some (snapshotText odd) ∧
      loadSnapshot (holding "r" (snapshotText odd)) ⟨"r"⟩ = .ok odd ∧
      (holding "r" (snapshotTextLeaving (fun _ => true) odd)).readText? ⟨"r"⟩ =
        some (snapshotTextLeaving (fun _ => true) odd) ∧
      loadSnapshot (holding "r" (snapshotTextLeaving (fun _ => true) odd)) ⟨"r"⟩ = .ok odd := by
  have hnames : ∀ entry ∈ odd.entries, entry.2.name ≠ "" := by decide +kernel
  have hlists : ∀ entry ∈ odd.entries, entry.2.features.Nodup ∧ entry.2.usedFeatures.Nodup := by
    decide +kernel
  have hread : (holding "r" (snapshotText odd)).readText? ⟨"r"⟩ = some (snapshotText odd) := by
    decide +kernel
  have hleft : (holding "r" (snapshotTextLeaving (fun _ => true) odd)).readText? ⟨"r"⟩ =
      some (snapshotTextLeaving (fun _ => true) odd) := by
    decide +kernel
  exact ⟨hnames, hlists, hread, ((loadSnapshot_reads_back odd hnames hlists _ _).1 hread).1, hleft,
    (loadSnapshot_reads_back odd hnames hlists _ _).2 _ hleft⟩

/-! ### What a scan leaves behind -/

/-- Some manifest names the package, as its own or as one that it depends on. -/
def Mentions (ms : List Manifest) (name : String) : Prop :=
  ∃ m ∈ ms, m.packageName? = some name ∨ ∃ d ∈ m.dependencies, d.package = name

instance (ms : List Manifest) (name : String) : Decidable (Mentions ms name) :=
  inferInstanceAs (Decidable (∃ m ∈ ms, m.packageName? = some name ∨ ∃ d ∈ m.dependencies, d.package = name))

theorem consistent_scan (ms : List Manifest) : (empty.scan ms).1.Consistent := by
  refine (consistent_of_initial .empty fun name fact hget => ?_).steps (steps_apply _ (.scan ms))
  exact absurd hget (by simp [empty, get?])

theorem isSome_get?_scan (ms : List Manifest) (name : String) :
    ((empty.scan ms).1.get? name).isSome ↔ Mentions ms name := by
  cases howner : owner? ms name with
  | some m =>
    obtain ⟨fact, -, -, hget⟩ := get?_scan_of_owner (r := empty) rfl howner
    rw [hget]
    exact iff_of_true rfl ⟨m, List.mem_of_find?_eq_some howner, .inl (packageName?_of_owner? howner)⟩
  | none =>
    have hnobody : ∀ m ∈ ms, m.packageName? ≠ some name := by simpa [owner?] using howner
    have hmentions : Mentions ms name ↔ ∃ m ∈ ms, ∃ d ∈ m.dependencies, d.package = name :=
      exists_congr fun m => and_congr_right fun hm => or_iff_right (hnobody m hm)
    rw [get?_scan_empty howner, hmentions]
    split
    · next hsome => exact iff_of_true rfl hsome
    · next hnone => exact iff_of_false (by simp) hnone

/-- The schema asks for a name of at least one character. -/
def unnamed : Schema.Violation := ⟨["", "name"], .tooShort (.string "")⟩

theorem nameFaults_of_named (hnamed : ∀ name fact, facts.get? name = some fact → fact.name = name) :
    nameFaults facts = if (facts.get? "").isSome then [unnamed] else [] := by
  have hown : ∀ entry ∈ facts.entries, entry.2.name = entry.1 := fun entry hentry =>
    hnamed _ _ (NameMap.mem_entries_iff.1 hentry)
  have hnone {entries : List (String × Fact)} (hin : entries ⊆ facts.entries)
      (hne : ∀ entry ∈ entries, entry.1 ≠ "") :
      entries.flatMap (fun (name, fact) => Schema.checkName [name, "name"] (.string fact.name)) = [] := by
    refine List.flatMap_eq_nil_iff.2 fun entry hentry => ?_
    simp [Schema.checkName, hown entry (hin hentry), hne entry hentry]
  cases hget : facts.get? "" with
  | none =>
    refine hnone (List.Subset.refl _) fun entry hentry heq => ?_
    rw [NameMap.mem_entries_iff.1 (show ("", entry.2) ∈ facts.entries from heq ▸ hentry)] at hget
    exact absurd hget (by simp)
  | some fact =>
    -- the order of the entries leaves room for one of them only
    obtain ⟨before, behind, hsplit⟩ := List.append_of_mem (NameMap.mem_entries_iff.2 hget)
    have hsorted := facts.sorted
    rw [hsplit] at hsorted hnone
    obtain ⟨-, hbehind, hbefore⟩ := List.pairwise_append.1 hsorted
    have hfirst := hnone (List.subset_append_left before _) fun entry hentry =>
      Std.ne_of_lt (hbefore entry hentry _ List.mem_cons_self)
    have hlast := hnone (fun _ h => List.mem_append_right before (List.mem_cons_of_mem _ h))
      fun entry hentry => (Std.ne_of_lt ((List.pairwise_cons.1 hbehind).1 entry hentry)).symm
    have hname : fact.name = "" := hnamed _ _ hget
    rw [nameFaults, hsplit, List.flatMap_append, List.flatMap_cons, hfirst, hlast]
    simp [Schema.checkName, hname, unnamed]

/-- What a scan has learned is stored as a snapshot that is accepted, unless some package has an empty
name; then the schema refuses the snapshot for that name and nothing else. -/
theorem saved_scan_accepted_iff (ms : List Manifest) :
    (∃ value, Json.read? (snapshotText (empty.scan ms).1.facts) = some value ∧
      (Schema.violations value = [] ↔ ¬ Mentions ms "")) ∧
    ∀ t path, t.readText? path = some (snapshotText (empty.scan ms).1.facts) →
      (¬ Mentions ms "" → loadSnapshot t path = .ok (empty.scan ms).1.facts ∧
        restoreSnapshot t path = .ok ⟨(empty.scan ms).1.facts, .empty⟩) ∧
      (Mentions ms "" → loadSnapshot t path = .error (.invalid path [unnamed]) ∧
        restoreSnapshot t path = .error (.invalid path [unnamed])) := by
  have hconsistent := consistent_scan ms
  have hfaults := nameFaults_of_named hconsistent.named
  simp only [show (empty.scan ms).1.facts.get? "" = (empty.scan ms).1.get? "" from rfl,
    isSome_get?_scan] at hfaults
  have hlists : ∀ entry ∈ (empty.scan ms).1.facts.entries,
      entry.2.features.Nodup ∧ entry.2.usedFeatures.Nodup := fun entry hentry =>
    let hwell := hconsistent.wellFormed _ _ (NameMap.mem_entries_iff.1 hentry)
    ⟨hwell.features, hwell.usedFeatures⟩
  have hviolations := violations_sortedMembers (fun _ => false) hlists
  rw [← snapshotTextLeaving_nothing]
  refine ⟨⟨_, read?_snapshotTextLeaving .., ?_⟩, fun t path hread => ?_⟩
  · rw [hviolations, hfaults]
    split <;> simp_all
  · have hload := (loadSnapshot_of_readText? hread).trans (readSnapshot_snapshotTextLeaving path _ hlists)
    rw [hfaults] at hload
    refine ⟨fun hnamed => ?_, fun hunnamed => ?_⟩
    · rw [if_neg hnamed, if_pos rfl] at hload
      refine ⟨hload, ?_⟩
      rw [restoreSnapshot, hload]
      simp [hconsistent.restore_facts, bind, Except.bind]
    · rw [if_pos hunnamed, if_neg (by simp)] at hload
      exact ⟨hload, by rw [restoreSnapshot, hload]; rfl⟩

theorem saved_scan_accepted_iff_unnamed :
    ∃ named unnamedOwn unnamedOther, Manifest.read? ⟨"a"⟩ "package.name=\"a\"\n" = some named ∧
      Manifest.read? ⟨"b"⟩ "package.name=\"\"\n" = some unnamedOwn ∧
      Manifest.read? ⟨"c"⟩ "dependencies.\"\"=\"1\"\n" = some unnamedOther ∧
      restoreSnapshot (holding "r" (snapshotText (empty.scan [named]).1.facts)) ⟨"r"⟩ =
        .ok ⟨(empty.scan [named]).1.facts, .empty⟩ ∧
      loadSnapshot (holding "r" (snapshotText (empty.scan [named, unnamedOwn]).1.facts)) ⟨"r"⟩ =
        .error (.invalid ⟨"r"⟩ [unnamed]) ∧
      loadSnapshot (holding "r" (snapshotText (empty.scan [named, unnamedOther]).1.facts)) ⟨"r"⟩ =
        .error (.invalid ⟨"r"⟩ [unnamed]) := by
  have hreads (text : String) : (holding "r" text).readText? ⟨"r"⟩ = some text := by rfl
  have htest : (Manifest.read? ⟨"a"⟩ "package.name=\"a\"\n").any fun named =>
      (Manifest.read? ⟨"b"⟩ "package.name=\"\"\n").any fun unnamedOwn =>
      (Manifest.read? ⟨"c"⟩ "dependencies.\"\"=\"1\"\n").any fun unnamedOther =>
      !decide (Mentions [named] "") && decide (Mentions [named, unnamedOwn] "") &&
        decide (Mentions [named, unnamedOther] "") := by
    decide +kernel
  obtain ⟨named, hnamed, htest⟩ := (Option.any_eq_true _ _).1 htest
  obtain ⟨unnamedOwn, hown, htest⟩ := (Option.any_eq_true _ _).1 htest
  obtain ⟨unnamedOther, hother, htest⟩ := (Option.any_eq_true _ _).1 htest
  simp only [Bool.and_eq_true, Bool.not_eq_true', decide_eq_true_eq, decide_eq_false_iff_not] at htest
  obtain ⟨⟨hnone, hfirst⟩, hsecond⟩ := htest
  exact ⟨named, unnamedOwn, unnamedOther, hnamed, hown, hother,
    (((saved_scan_accepted_iff [named]).2 _ _ (hreads _)).1 hnone).2,
    (((saved_scan_accepted_iff [named, unnamedOwn]).2 _ _ (hreads _)).2 hfirst).1,
    (((saved_scan_accepted_iff [named, unnamedOther]).2 _ _ (hreads _)).2 hsecond).1⟩

end Registry

end FeatureForwarding
