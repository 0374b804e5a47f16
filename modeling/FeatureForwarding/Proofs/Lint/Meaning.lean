import FeatureForwarding.Proofs.Forwarding.Accuracy
import FeatureForwarding.Proofs.Lint.Places
import FeatureForwarding.Proofs.Manifest.Data
import FeatureForwarding.Proofs.Registry.Fact
import FeatureForwarding.Proofs.Toml.DistinctKeys

/-! The canonical form means what the manifest meant. It states the same fact, hands on the same
switches and declares the same dependencies, those for everyone perhaps in another order; a check finds
the same. Of the data only what the standards ask for is set, empty dependency sections go, and lists of
texts under the features are sorted. -/

namespace FeatureForwarding

open Toml (Key Item Value Table Document Datum Content find? names)

namespace Forwarding

variable {r : Registry} {switches : List Switch} {m m' : Manifest}

/-- Where one element at most has a property, it is found in any order. -/
theorem find?_eq_some_iff_mem {p : Dependency → Bool} {ds : List Dependency}
    (h : ∀ d ∈ ds, ∀ d' ∈ ds, p d → p d' → d = d') (d : Dependency) :
    ds.find? p = some d ↔ d ∈ ds ∧ p d := by
  refine ⟨fun hfind => ⟨List.mem_of_find?_eq_some hfind, List.find?_some hfind⟩, fun ⟨hd, hp⟩ => ?_⟩
  obtain ⟨found, hfound⟩ := Option.isSome_iff_exists.1 (List.find?_isSome.2 ⟨d, hd, hp⟩)
  rw [hfound, h found (List.mem_of_find?_eq_some hfound) d hd (List.find?_some hfound) hp]

/-- Findings do not depend on the order of dependencies whose keys are distinct. -/
theorem findings_perm {plain plain' targeted : List Dependency} (hname : m'.displayName = m.displayName)
    (hstd : m'.isNoStd = m.isNoStd) (hforwards : ∀ s k, m'.forwards s k = m.forwards s k)
    (hm : m.dependencies = plain ++ targeted) (hm' : m'.dependencies = plain' ++ targeted)
    (hplain : plain' = plain ∨ plain'.Perm plain ∧ (plain.map (·.key)).Nodup) :
    (findings r switches m').Perm (findings r switches m) := by
  have hperm : plain'.Perm plain := hplain.elim (fun h => h ▸ .refl _) (·.1)
  have hfirst (s : Switch) (key : String) : firstUse? r m' s key = firstUse? r m s key := by
    have hfind : plain'.find? (fun d => d.key = key ∧ r.uses d.package s) =
        plain.find? fun d => d.key = key ∧ r.uses d.package s := by
      rcases hplain with rfl | ⟨-, hkeys⟩
      · rfl
      have hunique {ds : List Dependency} (hds : ds.Perm plain) : ∀ d ∈ ds, ∀ d' ∈ ds,
          (d.key = key ∧ r.uses d.package s : Bool) → (d'.key = key ∧ r.uses d'.package s : Bool) →
          d = d' := by
        intro d hd d' hd' h h'
        simp only [decide_eq_true_eq] at h h'
        exact List.inj_on_of_nodup_map hkeys (hds.subset hd) (hds.subset hd') (h.1.trans h'.1.symm)
      apply Option.ext
      intro d
      rw [find?_eq_some_iff_mem (hunique hperm), find?_eq_some_iff_mem (hunique (.refl _)), hperm.mem_iff]
    rw [firstUse?, firstUse?, hm, hm', List.find?_append, List.find?_append, hfind]
  have hmem (d : Dependency) : d ∈ m'.dependencies ↔ d ∈ m.dependencies := by
    rw [hm, hm', List.mem_append, List.mem_append, hperm.mem_iff]
  -- no finding is repeated, so that those of one manifest have to be those of the other
  refine (List.perm_ext_iff_of_nodup (nodup_findings r switches m') (nodup_findings r switches m)).2
    fun f => ?_
  match f with
  | .missingDefaultFeatures package key =>
    simp only [missingDefaultFeatures_mem_findings, hname, hstd, hmem]
  | .missingForwarding package key s optional repaired =>
    by_cases hs : s ∈ switches
    · simp only [missingForwarding_mem_findings hs, hname, hstd, hforwards, hfirst]
    · exact iff_of_false (hs ∘ switch_mem_of_mem_findings) (hs ∘ switch_mem_of_mem_findings)
  | .parseFailure _ | .writeFailure _ | .duplicatePackage _ _ | .skippedCommented =>
    refine iff_of_false (fun h => ?_) fun h => ?_ <;>
      obtain ⟨_, -, _, -, -, hf | hf⟩ := exists_use_of_mem_findings h <;> exact absurd hf nofun

end Forwarding

namespace Lint

variable {standards : Standards} {m : Manifest}

/-! ### The data of the canonical form -/

theorem lookup_data_normalize (h : m.document.root.HasDistinctKeys) (name : String) :
    (m.normalize standards).data.lookup name = Option.map Item.data
      (if name = "package" then (m.item? name).map standards.setFields
      else if name ∈ dependencySections then tidied (m.item? name)
      else if name = "features" then (m.item? name).map sortFeatureLists
      else m.item? name) := by
  rw [Manifest.data, Manifest.normalize, lookup_normalize,
    find?_arranged standards (Table.hasDistinctKeys_iff.1 h).1]
  rfl

theorem lookup_data (m : Manifest) (name : String) : m.data.lookup name = (m.item? name).map Item.data := by
  rw [Manifest.data, Table.data_eq, Item.lookup_dataIn, Manifest.item?]

theorem content_normalize (h : m.document.root.HasDistinctKeys) (name : String) :
    (m.normalize standards).content name =
      if name = "package" then (m.content name).map fun c =>
        withField "homepage" standards.homepage (withField "edition" standards.edition c)
      else if name ∈ dependencySections then (tidied (m.item? name)).map Item.content
      else if name = "features" then (m.item? name).map fun item => (sortFeatureLists item).content
      else m.content name := by
  rw [Manifest.content, Datum.contentIn_eq_lookup, lookup_data_normalize h, Option.map_map,
    Manifest.content_eq_item?]
  have hcontent : Datum.content ∘ Item.data = Item.content := rfl
  have hpackage : Item.content ∘ standards.setFields = (fun c => withField "homepage" standards.homepage
      (withField "edition" standards.edition c)) ∘ Item.content := by
    funext item
    rw [Function.comp, Standards.setFields, content_setField, content_setField]
    rfl
  rw [hcontent]
  split
  · rw [Option.map_map, Option.map_map, hpackage]
  split
  · rfl
  split
  · rw [Option.map_map]
    rfl
  · rfl

/-! ### Package and features -/

theorem packageField?_normalize (h : m.document.root.HasDistinctKeys) {field : String}
    (hedition : field ≠ "edition") (hhomepage : field ≠ "homepage") :
    (m.normalize standards).packageField? field = m.packageField? field := by
  have hkept (c : Content) : ((withField "homepage" standards.homepage
      (withField "edition" standards.edition c)).members?.bind fun members => members field) =
        c.members?.bind fun members => members field := by
    cases c <;> simp [withField, Content.members?, hedition, hhomepage]
  rw [Manifest.packageField?_eq_content, Manifest.packageField?_eq_content, content_normalize h, if_pos rfl]
  cases m.content "package" with
  | none => rfl
  | some c => rw [Option.map_some, Option.bind_some, hkept, Option.bind_some]

theorem inside_features_normalize (h : m.document.root.HasDistinctKeys) :
    Datum.inside "features" (m.normalize standards).data =
      (Datum.inside "features" m.data).map fun (name, d) => (name, sortedTexts d) := by
  rw [Datum.inside, Datum.inside, lookup_data_normalize h, lookup_data]
  cases m.item? "features" with
  | none => rfl
  | some item =>
    simp only [dependencySections, String.reduceEq, List.mem_cons, List.not_mem_nil,
      or_self, if_true, if_false, Option.map_some, Option.bind_some, data_sortFeatureLists]
    cases item.data <;> rfl

theorem texts_sortedTexts_perm (d : Datum) : (sortedTexts d).texts.Perm d.texts := by
  unfold sortedTexts
  split
  · split
    · have htexts (texts : List String) : (Datum.list (texts.map .text)).texts = texts := by
        rw [Datum.texts, List.filterMap_map]
        exact List.filterMap_some
      rw [htexts]
      exact Text.stableSort_perm _ _
    · exact .refl _
  · exact .refl _

theorem features_normalize (standards : Standards) (h : m.document.root.HasDistinctKeys) :
    List.Forall₂ (fun new old => new.1 = old.1 ∧ new.2.Perm old.2)
      (m.normalize standards).features m.features := by
  rw [Manifest.features_eq_data, Manifest.features_eq_data, inside_features_normalize h, List.map_map,
    List.forall₂_map_left_iff, List.forall₂_map_right_iff, List.forall₂_same]
  exact fun (_, d) _ => ⟨rfl, texts_sortedTexts_perm d⟩

theorem ofManifest?_normalize (h : m.document.root.HasDistinctKeys) :
    Fact.ofManifest? (m.normalize standards) = Fact.ofManifest? m := by
  have hname : (m.normalize standards).packageField? "name" = m.packageField? "name" :=
    packageField?_normalize h (by decide) (by decide)
  have hversion : (m.normalize standards).packageField? "version" = m.packageField? "version" :=
    packageField?_normalize h (by decide) (by decide)
  have hfold (fact : Fact) {new old : List (String × List String)}
      (hlists : List.Forall₂ (fun new old => new.1 = old.1 ∧ new.2.Perm old.2) new old) :
      new.foldl Fact.declare fact = old.foldl Fact.declare fact := by
    induction hlists generalizing fact with
    | nil => rfl
    | cons hfeature _ ih =>
      -- of a list only counts whether it is empty
      rw [List.foldl_cons, List.foldl_cons, Fact.declare, Fact.declare, hfeature.1,
        hfeature.2.isEmpty_eq, ih]
  rw [Fact.ofManifest?, Fact.ofManifest?, Manifest.packageName?, Manifest.packageName?, hname,
    Manifest.packageVersion?, Manifest.packageVersion?, hversion]
  simp only [hfold _ (features_normalize standards h)]

theorem find?_features_normalize (standards : Standards) (h : m.document.root.HasDistinctKeys)
    (name : String) : Option.Rel (fun new old : String × List String => new.2.Perm old.2)
      ((m.normalize standards).features.find? (·.1 = name)) (m.features.find? (·.1 = name)) := by
  have hlists := features_normalize standards h
  generalize (m.normalize standards).features = new at hlists ⊢
  generalize m.features = old at hlists ⊢
  induction hlists with
  | nil => exact .none
  | cons hfeature _ ih =>
    rw [List.find?_cons, List.find?_cons, hfeature.1]
    split
    · exact .some hfeature.2
    · exact ih

theorem forwards_normalize (h : m.document.root.HasDistinctKeys) (s : Switch) (dependency : String) :
    (m.normalize standards).forwards s dependency = m.forwards s dependency := by
  have hfound := find?_features_normalize standards h s.name
  rw [Manifest.forwards_eq, Manifest.forwards_eq]
  generalize (m.normalize standards).features.find? _ = new at hfound ⊢
  generalize m.features.find? _ = old at hfound ⊢
  cases hfound with
  | none => rfl
  | some hlist => exact hlist.contains_eq

theorem isNoStd_normalize (h : m.document.root.HasDistinctKeys) :
    (m.normalize standards).isNoStd = m.isNoStd := by
  have hfound := find?_features_normalize standards h Switch.std.name
  rw [Manifest.isNoStd_eq, Manifest.isNoStd_eq]
  generalize (m.normalize standards).features.find? _ = new at hfound ⊢
  generalize m.features.find? _ = old at hfound ⊢
  cases hfound <;> rfl

theorem displayName_normalize (h : m.document.root.HasDistinctKeys) :
    (m.normalize standards).displayName = m.displayName := by
  rw [Manifest.displayName, Manifest.displayName, Manifest.packageName?,
    packageField?_normalize h (by decide) (by decide)]
  rfl

/-! ### Dependencies -/

theorem inside_target_normalize (h : m.document.root.HasDistinctKeys) :
    Datum.inside "target" (m.normalize standards).data = Datum.inside "target" m.data := by
  rw [Datum.inside, Datum.inside, lookup_data_normalize h, lookup_data]
  rfl

/-- The entries of a section stay, or they are put into another order and have distinct keys. -/
theorem inside_dependencies_normalize (standards : Standards) (h : m.document.root.HasDistinctKeys) :
    Datum.inside "dependencies" (m.normalize standards).data = Datum.inside "dependencies" m.data ∨
      ((Datum.inside "dependencies" (m.normalize standards).data).map fun (key, d) => (key, d.content)).Perm
        ((Datum.inside "dependencies" m.data).map fun (key, d) => (key, d.content)) ∧
      ((Datum.inside "dependencies" m.data).map (·.1)).Nodup := by
  rw [Datum.inside, Datum.inside, lookup_data_normalize h, lookup_data, if_neg (by decide),
    if_pos (by decide)]
  cases hitem : m.item? "dependencies" with
  | none => exact .inl rfl
  | some item =>
    cases item with
    | value _ | tables _ => exact .inl rfl
    | table t =>
      obtain ⟨key, -, hmem⟩ := Toml.mem_of_find? hitem
      have hkeys : (names t.entries).Nodup :=
        (Table.hasDistinctKeys_iff.1 ((Table.hasDistinctKeys_iff.1 h).2 _ hmem)).1
      rw [tidied]
      split
      · next hempty =>
        left
        simp [Item.data, Table.data_eq, List.isEmpty_iff.1 hempty, Item.dataIn, Datum.members?]
      · right
        refine ⟨data_orderSection_perm t, ?_⟩
        have hnames : t.data.map (·.1) = names t.entries := by
          rw [Table.data_eq, Item.dataIn_eq_map, List.map_map]
          rfl
        rwa [← hnames] at hkeys

theorem dependencies_normalize (standards : Standards) (h : m.document.root.HasDistinctKeys) :
    (m.normalize standards).dependencies =
      Manifest.plainDependencies (m.normalize standards).data ++ Manifest.targetDependencies m.data := by
  rw [Manifest.dependencies_eq_data, Manifest.targetDependencies, inside_target_normalize h]
  rfl

theorem plainDependencies_normalize (standards : Standards) (h : m.document.root.HasDistinctKeys) :
    Manifest.plainDependencies (m.normalize standards).data = Manifest.plainDependencies m.data ∨
      (Manifest.plainDependencies (m.normalize standards).data).Perm (Manifest.plainDependencies m.data) ∧
        ((Manifest.plainDependencies m.data).map (·.key)).Nodup := by
  rcases inside_dependencies_normalize standards h with hsame | ⟨hperm, hkeys⟩
  · exact .inl (congrArg (Dependency.ofMembers none) hsame)
  · exact .inr ⟨Dependency.ofMembers_perm none hperm,
      hkeys.sublist (Dependency.keys_ofMembers_sublist none _)⟩

/-! ### What is touched -/

/-- What may happen to the content of a document. -/
structure Retouched (standards : Standards) (old new : String → Option Content) : Prop where
  others : ∀ name, name ≠ "package" → name ≠ "features" → name ∉ dependencySections → new name = old name
  /-- Every field but the edition and the homepage stays, and these only give way to the standards
  where they are missing or texts. -/
  package : new "package" = (old "package").map fun
    | .table fields => .table fun field =>
      if field = "edition" then stated standards.edition (fields field)
      else if field = "homepage" then stated standards.homepage (fields field)
      else fields field
    | c => c
  sections : ∀ name ∈ dependencySections, new name = old name ∨
    new name = none ∧ old name = some (.table fun _ => none)
  /-- Nothing but the order of texts. -/
  features : new "features" = old "features" ∨ ∃ before after : String → Option Content,
    old "features" = some (.table before) ∧ new "features" = some (.table after) ∧
      ∀ feature, after feature = before feature ∨ ∃ texts sorted : List String,
        before feature = some (.list (texts.map .text)) ∧
          after feature = some (.list (sorted.map .text)) ∧ sorted.Perm texts

theorem contentAll_texts (texts : List String) :
    Datum.contentAll (texts.map .text) = texts.map .text := by
  rw [Datum.contentAll_eq_map, List.map_map]
  rfl

theorem content_sortedTexts (d : Datum) : (sortedTexts d).content = d.content ∨
    ∃ texts sorted : List String, d.content = .list (texts.map .text) ∧
      (sortedTexts d).content = .list (sorted.map .text) ∧ sorted.Perm texts := by
  match d with
  | .list elements =>
    by_cases hall : elements.all (·.text?.isSome)
    · have helements := eq_texts_of_all hall
      refine .inr ⟨elements.filterMap Datum.text?, _, ?_, ?_, Text.stableSort_perm (fun a b => a < b) _⟩
      · rw [Datum.content, helements, contentAll_texts, ← helements]
      · rw [sortedTexts, if_pos hall, Datum.content, contentAll_texts]
    · exact .inl (by rw [sortedTexts, if_neg hall])
  | .text _ | .boolean _ | .integer _ | .float _ | .dateTime _ | .table _ => exact .inl rfl

theorem contentIn_sortedTexts (members : List (String × Datum)) (name : String) :
    Datum.contentIn (members.map fun (name, d) => (name, sortedTexts d)) name =
      (members.lookup name).map fun d => (sortedTexts d).content := by
  induction members with
  | nil => rfl
  | cons member rest ih =>
    obtain ⟨other, d⟩ := member
    rw [List.map_cons, Datum.contentIn, ih, List.lookup_cons]
    by_cases h : name = other
    · simp [h]
    · rw [if_neg h, beq_false_of_ne h]

theorem content_tidied {found : Option Item} (h : ∀ item ∈ found, Item.HasDistinctKeys item) :
    (tidied found).map Item.content = found.map Item.content ∨
      tidied found = none ∧ found.map Item.content = some (.table fun _ => none) := by
  unfold tidied
  split
  · next t =>
    split
    · next hempty =>
      refine .inr ⟨rfl, ?_⟩
      rw [Option.map_some, content_of_tableLike? (rfl : (Item.table t).tableLike? = some t.entries)]
      simp [List.isEmpty_iff.1 hempty, find?]
    · left
      rw [Option.map_some, Option.map_some,
        content_orderSection (Table.hasDistinctKeys_iff.1 (h _ rfl)).1]
  · exact .inl rfl

theorem retouched_normalize (standards : Standards) (h : m.document.root.HasDistinctKeys) :
    Retouched standards m.content (m.normalize standards).content where
  others name hpackage hfeatures hsections := by
    rw [content_normalize h, if_neg hpackage, if_neg hsections, if_neg hfeatures]
  package := by
    rw [content_normalize h, if_pos rfl]
    congr 1
    funext c
    cases c <;> simp only [withField]
    congr 1
    funext field
    by_cases hhomepage : field = "homepage"
    · simp [hhomepage]
    · simp [hhomepage]
  sections name hname := by
    have hpackage : name ≠ "package" := by
      rintro rfl
      exact absurd hname (by decide)
    have hitem : ∀ item ∈ m.item? name, Item.HasDistinctKeys item := by
      intro item hitem
      obtain ⟨key, -, hmem⟩ := Toml.mem_of_find? hitem
      exact (Table.hasDistinctKeys_iff.1 h).2 _ hmem
    rw [content_normalize h, if_neg hpackage, if_pos hname, Manifest.content_eq_item?]
    exact (content_tidied hitem).imp id fun hgone => ⟨by rw [hgone.1]; rfl, hgone.2⟩
  features := by
    rw [content_normalize h, if_neg (by decide), if_neg (by decide), if_pos rfl,
      Manifest.content_eq_item?]
    cases m.item? "features" with
    | none => exact .inl rfl
    | some item =>
      simp only [Option.map_some, Item.content, data_sortFeatureLists]
      cases item.data with
      | table members =>
        refine .inr ⟨_, _, rfl, rfl, fun feature => ?_⟩
        rw [contentIn_sortedTexts, Datum.contentIn_eq_lookup]
        cases members.lookup feature with
        | none => exact .inl rfl
        | some d =>
          rcases content_sortedTexts d with hsame | ⟨texts, sorted, hbefore, hafter, hperm⟩
          · exact .inl (congrArg some hsame)
          · exact .inr ⟨texts, sorted, congrArg some hbefore, congrArg some hafter, hperm⟩
      | _ => exact .inl rfl

/-- The canonical form means what the manifest meant, whatever manifest it was: documents that were read
have distinct keys, and edits keep them. -/
theorem normalize_keeps_meaning (standards : Standards) (m : Manifest)
    (h : m.document.root.HasDistinctKeys) :
    Fact.ofManifest? (m.normalize standards) = Fact.ofManifest? m ∧
    (∀ s key, (m.normalize standards).forwards s key = m.forwards s key) ∧
    (∃ plain plain' targeted, m.dependencies = plain ++ targeted ∧
      (m.normalize standards).dependencies = plain' ++ targeted ∧ plain'.Perm plain ∧
      (∀ d ∈ plain, d.target = none) ∧ ∀ d ∈ targeted, d.target ≠ none) ∧
    (∀ r switches, (Forwarding.findings r switches (m.normalize standards)).Perm
      (Forwarding.findings r switches m)) ∧
    Retouched standards m.content (m.normalize standards).content := by
  have hplain := plainDependencies_normalize standards h
  have htarget : ∀ d ∈ Manifest.targetDependencies m.data, d.target ≠ none := by
    intro d hd
    obtain ⟨⟨target, _⟩, -, hd⟩ := List.mem_flatMap.1 hd
    simp [Dependency.target_of_mem_ofMembers hd]
  refine ⟨ofManifest?_normalize h, forwards_normalize h, ⟨_, _, _, m.dependencies_eq_data,
    dependencies_normalize standards h, hplain.elim (fun h => h ▸ .refl _) (·.1),
    fun d hd => Dependency.target_of_mem_ofMembers hd, htarget⟩, fun r switches => ?_,
    retouched_normalize standards h⟩
  exact Forwarding.findings_perm (displayName_normalize h) (isNoStd_normalize h) (forwards_normalize h)
    m.dependencies_eq_data (dependencies_normalize standards h) hplain

/-- Nothing in it is where the canonical form has it. -/
def untidy : String :=
  "[package]\nname=\"a\"\nhomepage=\"h\"\n[features]\nstd=[\"k/std\",\"b/std\"]\n[dependencies]\n" ++
    "z.path=\"z\"\nb=\"1\"\n[dependencies.k]\npackage=\"p\"\n[dev-dependencies]\n"

theorem normalize_keeps_meaning_untidy :
    ∃ m, Manifest.read? ⟨"a"⟩ untidy = some m ∧ m.document.root.HasDistinctKeys ∧
      (m.normalize {}).dependencies ≠ m.dependencies ∧ (m.normalize {}).features ≠ m.features ∧
      ((m.normalize {}).item? "dev-dependencies").isNone ∧
      Fact.ofManifest? (m.normalize {}) = Fact.ofManifest? m ∧
      (m.normalize {}).forwards .std "b" = m.forwards .std "b" ∧
      Retouched {} m.content (m.normalize {}).content := by
  have htest : (Manifest.read? ⟨"a"⟩ untidy).any fun m =>
      (m.normalize {}).dependencies != m.dependencies && (m.normalize {}).features != m.features &&
        ((m.normalize {}).item? "dev-dependencies").isNone := by
    decide +kernel
  obtain ⟨m, hm, htest⟩ := (Option.any_eq_true _ _).1 htest
  simp only [Bool.and_eq_true, bne_iff_ne] at htest
  have hdistinct := Manifest.hasDistinctKeys_read? hm
  obtain ⟨hfact, hforwards, -, -, hretouched⟩ := normalize_keeps_meaning {} m hdistinct
  exact ⟨m, hm, hdistinct, htest.1.1, htest.1.2, htest.2, hfact, hforwards .std "b", hretouched⟩

end Lint

end FeatureForwarding
