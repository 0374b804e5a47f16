import FeatureForwarding.Proofs.Forwarding.Settle

/-! The account that a run gives. Of the early passes only the repairs are kept, of the last one
everything; taken together the repairs at a path are the tokens that its manifest gained, each
named once, and the rest is what the settled manifest still lacks. -/

namespace FeatureForwarding

open Files (Path)

namespace Diagnostics

def findingsAt (ds : Diagnostics) (p : Path) : List Finding :=
  (ds.filter fun d => decide (d.path.Same p)).map (·.finding)

theorem mem_findingsAt {ds : Diagnostics} {p : Path} {f : Finding} :
    f ∈ ds.findingsAt p ↔ ∃ d ∈ ds, d.path.Same p ∧ d.finding = f := by
  simp [findingsAt, and_assoc]

theorem findingsAt_append (ds ds' : Diagnostics) (p : Path) :
    findingsAt (ds ++ ds') p = ds.findingsAt p ++ ds'.findingsAt p := by
  simp [findingsAt]

theorem findingsAt_congr (ds : Diagnostics) {p q : Path} (h : p.Same q) :
    ds.findingsAt p = ds.findingsAt q := by
  have hsame (d : Diagnostic) : d.path.Same p ↔ d.path.Same q :=
    ⟨fun hd => hd.trans h, fun hd => hd.trans h.symm⟩
  simp only [findingsAt, hsame]

theorem findingsAt_keepRepaired (ds : Diagnostics) (p : Path) :
    ds.keepRepaired.findingsAt p = (ds.findingsAt p).filter Finding.isRepaired := by
  simp [findingsAt, keepRepaired, Diagnostic.isOutstanding, List.filter_map, List.filter_filter,
    Function.comp_def,
    Bool.and_comm]

end Diagnostics

namespace Forwarding

open Diagnostics (findingsAt findingsAt_append findingsAt_keepRepaired)

variable {switches : List Switch} {r : Registry} {m m' m'' : Manifest} {ms : List Manifest} {i : Nat}
  {fs fs' : List Finding}

theorem findingsAt_report (repair : Repair) (p : Path) :
    findingsAt repair.report p = if repair.manifest.path.Same p then repair.findings else [] := by
  split
  · next h => simp [findingsAt, Repair.report, diagnosticsAt, List.filter_map, Function.comp_def, h]
  · next h => simp [findingsAt, Repair.report, diagnosticsAt, List.filter_map, Function.comp_def, h]

section Reports

variable {α : Type} {path : α → Path} {f : α → Repair} {l : List α}

theorem findingsAt_flatMap_of_not_same (hpath : ∀ a, (f a).manifest.path = path a) {p : Path}
    (h : ∀ a ∈ l, ¬(path a).Same p) : findingsAt (l.flatMap fun a => (f a).report) p = [] := by
  induction l with
  | nil => rfl
  | cons a rest ih =>
    rw [List.flatMap_cons, findingsAt_append, findingsAt_report, hpath,
      if_neg (h a List.mem_cons_self),
      ih fun b hb => h b (List.mem_cons_of_mem _ hb), List.nil_append]

/-- Reports about different paths do not mix. -/
theorem findingsAt_flatMap (hpath : ∀ a, (f a).manifest.path = path a)
    (hdistinct : l.Pairwise fun a b => ¬(path a).Same (path b)) {a : α} (ha : a ∈ l) :
    findingsAt (l.flatMap fun a => (f a).report) (path a) = (f a).findings := by
  induction l with
  | nil => exact absurd ha List.not_mem_nil
  | cons b rest ih =>
    obtain ⟨hb, hrest⟩ := List.pairwise_cons.1 hdistinct
    rw [List.flatMap_cons, findingsAt_append, findingsAt_report, hpath]
    rcases List.mem_cons.1 ha with rfl | ha
    · rw [if_pos (show (path a).Same (path a) from rfl),
        findingsAt_flatMap_of_not_same hpath fun c hc hsame => hb c hc hsame.symm, List.append_nil]
    · rw [if_neg (hb a ha), ih hrest ha, List.nil_append]

end Reports

/-! ### What was gained -/

def tokens (fs : List Finding) : List (String × Switch) := fs.filterMap Finding.token?

theorem tokens_append (fs fs' : List Finding) : tokens (fs ++ fs') = tokens fs ++ tokens fs' :=
  List.filterMap_append

/-- The repaired findings name the tokens that the manifest gained, each once. -/
structure Gained (m m' : Manifest) (fs : List Finding) : Prop where
  grows : m.Grows m'
  nodup : (tokens (fs.filter Finding.isRepaired)).Nodup
  mem : ∀ k s, (k, s) ∈ tokens (fs.filter Finding.isRepaired) ↔ m'.forwards s k ∧
    m.forwards s k = false

theorem Gained.refl (hfs : fs.filter Finding.isRepaired = []) : Gained m m fs where
  grows := .refl
  nodup := by simp [hfs, tokens]
  mem k s := by simp [hfs, tokens]

/-- Gains of one pass and of those after it. -/
theorem Gained.trans (h : Gained m m' fs) (h' : Gained m' m'' fs') :
    Gained m m'' (fs.filter Finding.isRepaired ++ fs') := by
  have hrepaired : (fs.filter Finding.isRepaired ++ fs').filter Finding.isRepaired =
      fs.filter Finding.isRepaired ++ fs'.filter Finding.isRepaired := by simp
  refine ⟨h.grows.trans h'.grows, ?_, fun k s => ?_⟩
  · rw [hrepaired, tokens_append, List.nodup_append]
    refine ⟨h.nodup, h'.nodup, ?_⟩
    rintro ⟨k, s⟩ hearly ⟨k', s'⟩ hlate heq
    obtain ⟨rfl, rfl⟩ := Prod.mk.inj heq
    have hforwards := ((h.mem k s).1 hearly).1
    simp [((h'.mem k s).1 hlate).2] at hforwards
  · rw [hrepaired, tokens_append, List.mem_append, h.mem, h'.mem]
    constructor
    · rintro (⟨hnew, hold⟩ | ⟨hnew, hold⟩)
      · exact ⟨h'.grows.forwards hnew, hold⟩
      · refine ⟨hnew, Bool.eq_false_iff.2 fun hm => ?_⟩
        simp [h.grows.forwards hm] at hold
    · rintro ⟨hnew, hold⟩
      by_cases hm' : m'.forwards s k
      · exact .inl ⟨hm', hold⟩
      · exact .inr ⟨hnew, by simpa using hm'⟩

theorem gained_repair (r : Registry) (switches : List Switch) (m : Manifest) :
    Gained m (repair r switches m).manifest (repair r switches m).findings := by
  obtain ⟨hgrows, hfindings, hforwards⟩ := answers_repair r switches m
  have hp := pending_findings r switches m
  refine ⟨hgrows, ?_, fun k s => ?_⟩
  · have hall : tokens (repair r switches m).findings = tokens (findings r switches m) := by
      simp only [tokens, hfindings, List.filterMap_map, Function.comp_def, Finding.token?_afterRepair]
    have hdistinct : (tokens (repair r switches m).findings).Nodup := by
      rw [hall]
      exact hp.distinct
    exact hdistinct.sublist (List.filter_sublist.filterMap _)
  · rw [hforwards]
    simp only [tokens, hfindings, List.mem_filterMap, List.mem_filter, List.mem_map]
    constructor
    · rintro ⟨_, ⟨⟨f, hf, rfl⟩, hrepaired⟩, ht⟩
      rw [Finding.isRepaired_afterRepair (hp.unmarked f hf)] at hrepaired
      rw [Finding.token?_afterRepair] at ht
      exact ⟨.inr ⟨f, hf, hrepaired, ht⟩, hp.missing f hf _ ht⟩
    · rintro ⟨hnew, hold⟩
      obtain ⟨f, hf, hrepairable, ht⟩ := hnew.resolve_left (by simp [hold])
      refine ⟨_, ⟨⟨f, hf, rfl⟩, ?_⟩, (Finding.token?_afterRepair m f).trans ht⟩
      rw [Finding.isRepaired_afterRepair (hp.unmarked f hf), hrepairable]

theorem gained_visit (switches : List Switch) (r : Registry) (m : Manifest) :
    Gained m (visit switches r m).manifest (visit switches r m).findings := by
  unfold visit
  split
  · exact .refl rfl
  · exact gained_repair r switches m

/-! ### The whole account -/

/-- What was reported at the path of a manifest, in the end and altogether. -/
structure Account (r : Registry) (switches : List Switch) (m m' : Manifest) (fs : List Finding) : Prop
    extends Gained m m' fs where
  remaining : fs.filter (!·.isRepaired) = findings r switches m'

theorem account_repair (r : Registry) (switches : List Switch) (m : Manifest) :
    Account r switches m (repair r switches m).manifest (repair r switches m).findings where
  toGained := gained_repair r switches m
  remaining := (findings_repair r switches m).symm

/-- What was gained is not found missing. -/
theorem Account.nodup_tokens (h : Account r switches m m' fs) : (tokens fs).Nodup := by
  have hsplit : (tokens fs).Perm
      (tokens (fs.filter Finding.isRepaired) ++ tokens (fs.filter (!·.isRepaired))) := by
    rw [← tokens_append]
    exact (List.filter_append_perm Finding.isRepaired fs).symm.filterMap _
  rw [hsplit.nodup_iff, List.nodup_append, h.remaining]
  refine ⟨h.nodup, nodup_tokens_findings r switches m', ?_⟩
  rintro ⟨k, s⟩ hgained t hmissing rfl
  obtain ⟨f, hf, ht⟩ := List.mem_filterMap.1 hmissing
  have hnot := (pending_findings r switches m').missing f hf _ ht
  simp [((h.mem k s).1 hgained).1] at hnot

theorem report_pass (switches : List Switch) (r : Registry) (ms : List Manifest) :
    (pass switches r ms).report = (meetings switches r ms).flatMap fun e => (visit switches e.1 e.2).report := by
  induction ms generalizing r with
  | nil => rfl
  | cons m rest ih => rw [pass_cons, meetings, List.flatMap_cons, ← ih]

theorem findingsAt_pass {e : Registry × Manifest} (h : Distinct ms)
    (he : e ∈ meetings switches r ms) :
    findingsAt (pass switches r ms).report e.2.path = (visit switches e.1 e.2).findings := by
  have hdistinct : (meetings switches r ms).Pairwise fun e e' => ¬e.2.path.Same e'.2.path := by
    have hpaths := h
    rw [← manifests_meetings switches r ms, Distinct, List.pairwise_map] at hpaths
    exact hpaths
  have hpath : ∀ e : Registry × Manifest, (visit switches e.1 e.2).manifest.path = e.2.path :=
    fun e => (grows_visit switches e.1 e.2).path
  rw [report_pass]
  exact findingsAt_flatMap hpath hdistinct he

theorem findingsAt_pass_of_not_same {p : Path} (h : ∀ m ∈ ms, ¬m.path.Same p) :
    findingsAt (pass switches r ms).report p = [] := by
  have hpath : ∀ e : Registry × Manifest, (visit switches e.1 e.2).manifest.path = e.2.path :=
    fun e => (grows_visit switches e.1 e.2).path
  rw [report_pass]
  exact findingsAt_flatMap_of_not_same hpath fun e he => h e.2 (mem_of_mem_meetings he)

/-- All passes: a manifest that may be written is accounted for, and of the others nothing is said. -/
theorem Rounds.account {result : Progress} (h : Rounds switches r ms result) (hdistinct : Distinct ms)
    (hm : ms[i]? = some m) (hc : m.hasComments = false) :
    ∃ m', result.manifests[i]? = some m' ∧
      Account result.registry switches m m' (findingsAt result.report m.path) := by
  induction h generalizing m with
  | @last r ms calm =>
    obtain ⟨r', hr'⟩ := exists_meeting_at switches r hm
    have hmem := List.mem_of_getElem? hr'
    refine ⟨_, getElem?_pass_of_meeting hr', ?_⟩
    rw [findingsAt_pass hdistinct hmem, visit_of_not_hasComments hc]
    obtain ⟨hgained, hremaining⟩ := account_repair r' switches m
    exact ⟨hgained, hremaining.trans (findings_congr (calm _ hmem) _)⟩
  | @more r ms later rest ih =>
    obtain ⟨r', hr'⟩ := exists_meeting_at switches r hm
    have hmem := List.mem_of_getElem? hr'
    have hgrows := grows_visit switches r' m
    obtain ⟨m', hm', haccount⟩ :=
      ih (distinct_pass hdistinct r) (getElem?_pass_of_meeting hr') (hgrows.hasComments.trans hc)
    refine ⟨m', hm', ?_⟩
    rw [findingsAt_append, findingsAt_keepRepaired, findingsAt_pass hdistinct hmem]
    rw [hgrows.path] at haccount
    refine ⟨(gained_visit switches r' m).trans haccount.toGained, ?_⟩
    rw [← haccount.remaining]
    simp

theorem Rounds.findingsAt_of_hasComments {result : Progress} (h : Rounds switches r ms result)
    (hdistinct : Distinct ms)
    (hm : ms[i]? = some m) (hc : m.hasComments) :
    result.manifests[i]? = some m ∧ findingsAt result.report m.path = [] := by
  induction h with
  | @last r ms calm =>
    obtain ⟨r', hr'⟩ := exists_meeting_at switches r hm
    rw [getElem?_pass_of_meeting hr', findingsAt_pass hdistinct (List.mem_of_getElem? hr'),
      visit_of_hasComments hc]
    exact ⟨rfl, rfl⟩
  | @more r ms later rest ih =>
    obtain ⟨r', hr'⟩ := exists_meeting_at switches r hm
    have hwaits := getElem?_pass_of_meeting hr'
    rw [visit_of_hasComments hc] at hwaits
    obtain ⟨hm', hsilent⟩ := ih (distinct_pass hdistinct r) hwaits
    refine ⟨hm', ?_⟩
    rw [findingsAt_append, findingsAt_keepRepaired, findingsAt_pass hdistinct
      (List.mem_of_getElem? hr'),
      visit_of_hasComments hc, hsilent]
    rfl

theorem Rounds.findingsAt_of_not_same {result : Progress} (h : Rounds switches r ms result) {p : Path}
    (hp : ∀ m ∈ ms, ¬m.path.Same p) : findingsAt result.report p = [] := by
  induction h with
  | last calm => exact findingsAt_pass_of_not_same hp
  | @more r ms later rest ih =>
    have hlater : ∀ m ∈ (pass switches r ms).manifests, ¬m.path.Same p := by
      intro m' hm'
      obtain ⟨e, he, rfl⟩ := mem_manifests_pass.1 hm'
      rw [(grows_visit switches e.1 e.2).path]
      exact hp e.2 (mem_of_mem_meetings he)
    rw [findingsAt_append, findingsAt_keepRepaired, findingsAt_pass_of_not_same hp, ih hlater]
    rfl

theorem Rounds.distinct {result : Progress} (h : Rounds switches r ms result)
    (hdistinct : Distinct ms) :
    Distinct result.manifests := by
  induction h with
  | last calm => exact distinct_pass hdistinct _
  | more _ ih => exact ih (distinct_pass hdistinct _)

/-! ### Settling -/

theorem report_settle (switches : List Switch) (r : Registry) (ms : List Manifest) :
    (settle switches r ms).report =
      (passes switches (passLimit switches ms) r ms).report ++
        (passes switches (passLimit switches ms) r ms).manifests.flatMap fun m =>
          (closing switches (settle switches r ms).registry m).report := by
  simp only [settle, List.flatMap_map]

theorem distinct_settle (switches : List Switch) (h : Distinct ms) (r : Registry) :
    Distinct (settle switches r ms).manifests := by
  have hmanifests : (settle switches r ms).manifests =
      (passes switches (passLimit switches ms) r ms).manifests.map fun m =>
        (closing switches (settle switches r ms).registry m).manifest := by
    simp only [settle, List.map_map]
    rfl
  rw [hmanifests, Distinct, List.pairwise_map]
  simp only [(grows_closing switches _ _).path]
  exact (rounds_settle switches h r).distinct h

/-- Settling makes one manifest of each, wherever it stands. -/
theorem eq_of_settle {j : Nat} (h : Distinct ms) (hm : ms[i]? = some m)
    (hm' : (settle switches r ms).manifests[i]? = some m') (hn : ms[j]? = some m)
    (hn' : (settle switches r ms).manifests[j]? = some m'') : m' = m'' := by
  have hgrows := grows_of_settle h hm hm'
  have hgrows' := grows_of_settle h hn hn'
  exact (distinct_settle switches h r).eq_of_same (List.mem_of_getElem? hm')
    (List.mem_of_getElem? hn') (congrArg Path.components (hgrows.path.trans hgrows'.path.symm))

/-- A manifest with comments is repaired once, as it was read. -/
theorem settle_of_hasComments (hdistinct : Distinct ms) (hm : ms[i]? = some m) (hc : m.hasComments) :
    (settle switches r ms).manifests[i]? =
      some (repair (settle switches r ms).registry switches m).manifest := by
  obtain ⟨hpassed, -⟩ := (rounds_settle switches hdistinct r).findingsAt_of_hasComments hdistinct hm hc
  rw [getElem?_settle, hpassed, Option.map_some, closing_of_hasComments _ hc]

/-- Every manifest is accounted for, with comments or without. -/
theorem account_settle (switches : List Switch) (r : Registry) (h : Distinct ms)
    (hm : ms[i]? = some m) :
    ∃ m', (settle switches r ms).manifests[i]? = some m' ∧
      Account (settle switches r ms).registry switches m m'
        (findingsAt (settle switches r ms).report m.path) := by
  have hrounds := rounds_settle switches h r
  have hclosing (m₁ : Manifest) (hm₁ : (passes switches (passLimit switches ms) r ms).manifests[i]? = some m₁)
      (hpath : m₁.path = m.path) : findingsAt (settle switches r ms).report m.path =
        findingsAt (passes switches (passLimit switches ms) r ms).report m.path ++
          (closing switches (settle switches r ms).registry m₁).findings := by
    rw [report_settle, findingsAt_append, ← hpath]
    congr 1
    exact findingsAt_flatMap (fun m => (grows_closing switches _ m).path) (hrounds.distinct h)
      (List.mem_of_getElem? hm₁)
  by_cases hc : m.hasComments
  · obtain ⟨hm₁, hsilent⟩ := hrounds.findingsAt_of_hasComments h hm hc
    refine ⟨_, by rw [getElem?_settle, hm₁, Option.map_some], ?_⟩
    rw [hclosing m hm₁ rfl, hsilent, List.nil_append, closing_of_hasComments _ hc]
    exact account_repair _ switches m
  · obtain ⟨m₁, hm₁, haccount⟩ := hrounds.account h hm (by simpa using hc)
    have hc₁ : m₁.hasComments = false := haccount.grows.hasComments.trans (by simpa using hc)
    refine ⟨m₁, getElem?_settle_of_passes hm₁ hc₁, ?_⟩
    rw [hclosing m₁ hm₁ haccount.grows.path, closing_of_not_hasComments _ hc₁, List.append_nil]
    exact haccount

theorem findingsAt_settle_of_not_same (h : Distinct ms) {p : Path} (hp : ∀ m ∈ ms, ¬m.path.Same p) :
    findingsAt (settle switches r ms).report p = [] := by
  have hrounds := rounds_settle switches h r
  rw [report_settle, findingsAt_append, hrounds.findingsAt_of_not_same hp, List.nil_append]
  refine findingsAt_flatMap_of_not_same (fun m => (grows_closing switches _ m).path)
    fun m' hm' hsame => ?_
  obtain ⟨j, hj⟩ := List.mem_iff_getElem?.1 hm'
  obtain ⟨m₀, hm₀, hgrows⟩ := hrounds.grows hj
  exact hp m₀ (List.mem_of_getElem? hm₀) (hgrows.path ▸ hsame)

end Forwarding

end FeatureForwarding
