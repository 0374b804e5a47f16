import FeatureForwarding.Proofs.Registry.Fact
import FeatureForwarding.Proofs.Registry.Refresh

/-! What a scan makes known. The first manifest that names a package speaks for it; of the packages
that nobody names and no direct fact describes, a scan learns from what is handed on to them. -/

namespace FeatureForwarding

namespace Registry

variable {r : Registry} {m : Manifest} {ms : List Manifest} {name : String} {s : Switch}

/-- The first manifest of the package. -/
def owner? (ms : List Manifest) (name : String) : Option Manifest :=
  ms.find? fun m => m.packageName? = some name

def isDirect (r : Registry) (name : String) : Bool := (r.get? name).any (·.direct)

/-- Whether the manifest hands the switch on to the package. -/
def Suggests (m : Manifest) (name : String) (s : Switch) : Prop :=
  ∃ d ∈ m.dependencies, d.package = name ∧ m.forwards s d.key

/-- Nobody defined a package in this run. -/
def Fresh (r : Registry) : Prop := ∀ name, r.definedIn.get? name = none

/-! ### Definitions -/

theorem ofManifest?_of_packageName? (h : m.packageName? = some name) :
    ∃ d, Definition.ofManifest? m = some d ∧ d.fact.name = name ∧ d.path = m.path ∧ d.fact.direct ∧
      ∀ s, d.fact.uses s = m.activates s := by
  obtain ⟨fact, hfact, hname, hdirect, huses⟩ := Fact.exists_ofManifest? h
  exact ⟨⟨fact, m.path⟩, by rw [Definition.ofManifest?, hfact, Option.map_some], hname, rfl, hdirect,
    huses⟩

theorem packageName?_of_ofManifest? {d : Definition} (h : Definition.ofManifest? m = some d) :
    m.packageName? = some d.fact.name := by
  obtain ⟨fact, hfact, rfl⟩ := Option.map_eq_some_iff.1 h
  exact (Fact.ofManifest?_eq_some hfact).1

theorem packageName?_of_owner? (h : owner? ms name = some m) : m.packageName? = some name := by
  simpa using List.find?_some h

theorem path_of_ofManifest? {d : Definition} (h : Definition.ofManifest? m = some d) :
    d.path = m.path := by
  obtain ⟨fact, -, rfl⟩ := Option.map_eq_some_iff.1 h
  rfl

/-- Of each package the first definition is kept. -/
theorem find?_definitionsFrom (found : List Definition) (ms : List Manifest) (name : String) :
    (definitionsFrom found ms).1.find? (·.fact.name = name) =
      (found.find? (·.fact.name = name)).or ((owner? ms name).bind Definition.ofManifest?) := by
  induction ms generalizing found with
  | nil => simp [definitionsFrom, owner?]
  | cons m rest ih =>
    rw [definitionsFrom, owner?, List.find?_cons]
    split
    · next hnone =>
      have hno : m.packageName? = none := by
        cases hm : m.packageName? with
        | none => rfl
        | some own =>
          obtain ⟨d, hd, -⟩ := ofManifest?_of_packageName? hm
          exact absurd (hnone.symm.trans hd) (by simp)
      rw [ih, hno]
      rfl
    · next d hd =>
      have hown := packageName?_of_ofManifest? hd
      split
      · next hnew =>
        rw [ih, List.find?_append]
        by_cases hname : d.fact.name = name
        · subst hname
          simp [hown, hd, hnew]
        · simp [hown, hname, owner?]
      · next first hfirst =>
        rw [ih]
        by_cases hname : d.fact.name = name
        · subst hname
          simp [hfirst]
        · simp [hown, hname, owner?]

theorem definedIn_define (r : Registry) (d : Definition) (name : String) :
    (r.define d).definedIn.get? name =
      if name = d.fact.name then some d.path else r.definedIn.get? name :=
  NameMap.get?_insert ..

theorem get?_define (r : Registry) (d : Definition) (name : String) :
    (r.define d).get? name = if name = d.fact.name then some d.fact else r.get? name :=
  NameMap.get?_insert ..

/-- A package that was defined before in this run keeps its definition. -/
theorem get?_installAll (r : Registry) (ds : List Definition) (name : String) :
    (r.installAll ds).1.definedIn.get? name =
        (r.definedIn.get? name).or ((ds.find? (·.fact.name = name)).map (·.path)) ∧
      (r.installAll ds).1.get? name =
        if (r.definedIn.get? name).isSome then r.get? name
        else ((ds.find? (·.fact.name = name)).map (·.fact)).or (r.get? name) := by
  induction ds generalizing r with
  | nil => simp [installAll]
  | cons d rest ih =>
    rw [installAll, install]
    cases hfirst : r.definedIn.get? d.fact.name with
    | some first =>
      obtain ⟨hdefined, hget⟩ := ih r
      simp only [hdefined, hget, List.find?_cons]
      by_cases hname : d.fact.name = name
      · subst hname
        simp [hfirst]
      · simp [hname]
    | none =>
      obtain ⟨hdefined, hget⟩ := ih (r.define d)
      rw [definedIn_define] at hdefined hget
      rw [get?_define] at hget
      simp only [hdefined, hget, List.find?_cons]
      by_cases hname : d.fact.name = name
      · subst hname
        simp [hfirst]
      · simp [hname, Ne.symm hname]

/-! ### Inference -/

/-- Every dependency together with the manifest that names it. -/
def references (ms : List Manifest) : List (Manifest × Dependency) :=
  ms.flatMap fun m => m.dependencies.map (m, ·)

/-- Takes up one dependency of a manifest. -/
def infer (r : Registry) (e : Manifest × Dependency) : Registry := inferDependency e.1 r e.2

/-- What is handed on to the package, one reference after the other. -/
def handedOn (name : String) (es : List (Manifest × Dependency)) : List Switch :=
  (es.filter (·.2.package = name)).flatMap fun e => observed e.1 e.2

theorem mem_references {e : Manifest × Dependency} :
    e ∈ references ms ↔ e.1 ∈ ms ∧ e.2 ∈ e.1.dependencies := by
  obtain ⟨m, d⟩ := e
  simp only [references, List.mem_flatMap, List.mem_map, Prod.mk.injEq]
  constructor
  · rintro ⟨m', hm', d', hd', rfl, rfl⟩
    exact ⟨hm', hd'⟩
  · rintro ⟨hm, hd⟩
    exact ⟨m, hm, d, hd, rfl, rfl⟩

theorem foldl_recordIndirect (ms : List Manifest) (r : Registry) :
    ms.foldl recordIndirect r = (references ms).foldl infer r := by
  rw [references, List.foldl_flatMap]
  simp only [List.foldl_map]
  rfl

theorem recordIndirect_eq (r : Registry) (m : Manifest) :
    r.recordIndirect m = (references [m]).foldl infer r :=
  foldl_recordIndirect [m] r

theorem mem_observed (m : Manifest) (d : Dependency) (s : Switch) : s ∈ observed m d ↔
    m.forwards s d.key := by
  have hall : s ∈ Switch.all := by cases s <;> decide
  simp [observed, hall]

theorem mem_handedOn : s ∈ handedOn name (references ms) ↔ ∃ m ∈ ms, Suggests m name s := by
  simp only [handedOn, List.mem_flatMap, List.mem_filter, mem_references, decide_eq_true_eq,
    mem_observed, Suggests]
  constructor
  · rintro ⟨⟨m, d⟩, ⟨⟨hm, hd⟩, hname⟩, hs⟩
    exact ⟨m, hm, d, hd, hname, hs⟩
  · rintro ⟨m, hm, d, hd, hname, hs⟩
    exact ⟨(m, d), ⟨⟨hm, hd⟩, hname⟩, hs⟩

/-- A package that is not known yet is looked up as a placeholder. -/
theorem direct_getD_placeholder (r : Registry) (name : String) :
    ((r.get? name).getD (Fact.placeholder name)).direct = r.isDirect name := by
  cases hget : r.get? name <;> simp [isDirect, hget, Fact.placeholder]

/-- A reference touches the fact of its package alone, and only one that is not direct. -/
theorem get?_infer (r : Registry) (e : Manifest × Dependency) (name : String) :
    (infer r e).get? name =
      if r.isDirect name = false ∧ e.2.package = name then
        some ((observed e.1 e.2).foldl Fact.observe ((r.get? name).getD (Fact.placeholder name)))
      else r.get? name := by
  by_cases hname : e.2.package = name
  · subst hname
    have hget : (infer r e).get? e.2.package = some
        (if r.isDirect e.2.package then (r.get? e.2.package).getD (Fact.placeholder e.2.package)
        else (observed e.1 e.2).foldl Fact.observe
          ((r.get? e.2.package).getD (Fact.placeholder e.2.package))) := by
      rw [← direct_getD_placeholder]
      exact (NameMap.get?_insert ..).trans (if_pos rfl)
    rw [hget]
    cases hdirect : r.isDirect e.2.package with
    | false => simp
    | true =>
      obtain ⟨fact, hfact, -⟩ := (Option.any_eq_true _ _).1 hdirect
      simp [hfact]
  · simp [infer, inferDependency, get?, NameMap.get?_insert, hname, Ne.symm hname]

theorem isDirect_infer (r : Registry) (e : Manifest × Dependency) (name : String) :
    (infer r e).isDirect name = r.isDirect name := by
  rw [isDirect, get?_infer]
  split
  · rw [Option.any_some, Fact.foldl_observe_eq]
    exact direct_getD_placeholder r name
  · rfl

/-- After a list of references a package that is not direct is known by what was known before and
all that is handed on to it. -/
theorem get?_foldl_infer (es : List (Manifest × Dependency)) (r : Registry) (name : String) :
    (es.foldl infer r).get? name =
      if r.isDirect name = false ∧ ∃ e ∈ es, e.2.package = name then
        some ((handedOn name es).foldl Fact.observe ((r.get? name).getD (Fact.placeholder name)))
      else r.get? name := by
  induction es generalizing r with
  | nil => simp
  | cons e rest ih =>
    rw [List.foldl_cons, ih, isDirect_infer, get?_infer]
    cases hdirect : r.isDirect name with
    | true => simp
    | false =>
      by_cases hname : e.2.package = name
      · by_cases hrest : ∃ e ∈ rest, e.2.package = name
        · simp [hname, hrest, handedOn]
        · have hnone : rest.filter (·.2.package = name) = [] := by simpa using hrest
          simp only [hrest, and_false, if_false, hname, and_self, if_true, List.mem_cons,
            exists_eq_or_imp, true_or]
          rw [handedOn, List.filter_cons_of_pos (by simpa using hname), hnone]
          simp
      · simp only [hname, and_false, if_false, List.mem_cons, exists_eq_or_imp, false_or]
        rw [handedOn, handedOn, List.filter_cons_of_neg (by simpa using hname)]

theorem isDirect_foldl_infer (es : List (Manifest × Dependency)) (r : Registry) (name : String) :
    (es.foldl infer r).isDirect name = r.isDirect name := by
  induction es generalizing r with
  | nil => rfl
  | cons e rest ih => rw [List.foldl_cons, ih, isDirect_infer]

theorem definedIn_foldl_infer (es : List (Manifest × Dependency)) (r : Registry) :
    (es.foldl infer r).definedIn = r.definedIn := by
  induction es generalizing r with
  | nil => rfl
  | cons e rest ih => exact ih (infer r e)

theorem uses_foldl_infer (ms : List Manifest) (r : Registry) (name : String) (s : Switch) :
    ((references ms).foldl infer r).uses name s ↔
      r.uses name s ∨ (r.isDirect name = false ∧ ∃ m ∈ ms, Suggests m name s) := by
  rw [uses, get?_foldl_infer]
  split
  · next h =>
    obtain ⟨added, hadded, -, hmem⟩ := Fact.extendsBy_foldl_addNew (handedOn name (references ms))
      ((r.get? name).getD (Fact.placeholder name)).usedFeatures
    have hknown : r.uses name s ↔
        s.name ∈ ((r.get? name).getD (Fact.placeholder name)).usedFeatures := by
      cases hget : r.get? name <;> simp [uses, hget, Fact.uses, Fact.placeholder]
    rw [Option.any_some, Fact.foldl_observe_eq, Fact.uses, List.contains_iff_mem, hadded,
      List.mem_append, hmem, hknown, ← mem_handedOn]
    simp only [Switch.name_inj, exists_eq_right, h.1, true_and]
    grind
  · next h =>
    refine ⟨.inl, ?_⟩
    rintro (huses | ⟨hdirect, m, hm, d, hd, hname, -⟩)
    · exact huses
    · exact absurd ⟨hdirect, (m, d), mem_references.2 ⟨hm, hd⟩, hname⟩ h

/-! ### Installed definitions -/

/-- The registry before anything is inferred. -/
def installed (r : Registry) (ms : List Manifest) : Registry :=
  (r.installAll (definitionsFrom [] ms).1).1

theorem scan_fst (r : Registry) (ms : List Manifest) :
    (r.scan ms).1 = (references ms).foldl infer (r.installed ms) :=
  foldl_recordIndirect ms _

theorem definedIn_installed (r : Registry) (ms : List Manifest) (name : String) :
    (r.installed ms).definedIn.get? name =
      (r.definedIn.get? name).or ((owner? ms name).map (·.path)) := by
  rw [installed, (get?_installAll ..).1, find?_definitionsFrom, List.find?_nil, Option.none_or]
  cases howner : owner? ms name with
  | none => rfl
  | some m =>
    obtain ⟨d, hd, -, hpath, -⟩ := ofManifest?_of_packageName? (packageName?_of_owner? howner)
    simp [hd, hpath]

/-- Only the first manifest of a package installs its fact, and none if the package was defined
before. -/
theorem get?_installed (r : Registry) (ms : List Manifest) (name : String) :
    (r.installed ms).get? name =
      if (r.definedIn.get? name).isSome then r.get? name
      else ((owner? ms name).bind Fact.ofManifest?).or (r.get? name) := by
  rw [installed, (get?_installAll ..).2, find?_definitionsFrom, List.find?_nil, Option.none_or]
  cases howner : owner? ms name with
  | none => rfl
  | some m => simp [Definition.ofManifest?, Function.comp_def]

/-! ### The whole scan -/

/-- Direct facts are closed to inference. -/
theorem get?_scan_of_direct (h : (r.installed ms).isDirect name) :
    (r.scan ms).1.get? name = (r.installed ms).get? name := by
  rw [scan_fst, get?_foldl_infer, if_neg (by simp [h])]

theorem definedIn_scan (r : Registry) (ms : List Manifest) (name : String) :
    (r.scan ms).1.definedIn.get? name =
      (r.definedIn.get? name).or ((owner? ms name).map (·.path)) := by
  rw [scan_fst, definedIn_foldl_infer, definedIn_installed]

/-- The fact of a package that some manifest of the list names for the first time. -/
theorem get?_scan_of_owner (hnew : r.definedIn.get? name = none) (h : owner? ms name = some m) :
    ∃ fact, Fact.ofManifest? m = some fact ∧ fact.direct ∧ (r.scan ms).1.get? name = some fact := by
  obtain ⟨fact, hfact, -, hdirect, -⟩ := Fact.exists_ofManifest? (packageName?_of_owner? h)
  have hget : (r.installed ms).get? name = some fact := by simp [get?_installed, hnew, h, hfact]
  refine ⟨fact, hfact, hdirect, ?_⟩
  rw [get?_scan_of_direct (by simp [isDirect, hget, hdirect]), hget]

/-- A package that some manifest names is known by the first of them, whatever was known before. -/
theorem scan_of_owner (hr : r.Fresh) (h : owner? ms name = some m) :
    (r.scan ms).1.definedIn.get? name = some m.path ∧
      ∀ s, (r.scan ms).1.uses name s = m.activates s := by
  obtain ⟨fact, hfact, -, hget⟩ := get?_scan_of_owner (hr name) h
  obtain ⟨-, -, huses⟩ := Fact.ofManifest?_eq_some hfact
  refine ⟨?_, fun s => ?_⟩
  · rw [definedIn_scan, hr name, h]
    rfl
  · rw [uses, hget, Option.any_some, huses]

theorem heard_scan (hr : r.Fresh) (h : owner? ms name = some m) : (r.scan ms).1.Heard m name := by
  obtain ⟨hdefined, huses⟩ := scan_of_owner hr h
  exact ⟨packageName?_of_owner? h, ⟨m.path, hdefined, rfl⟩, huses⟩

/-- Only the first manifest of a package supplies its fact. -/
theorem exists_owner_of_supplies (hr : r.Fresh) (h : (r.scan ms).1.Supplies m name) :
    ∃ first, owner? ms name = some first ∧ first.path.Same m.path := by
  obtain ⟨path, hpath, hsame⟩ := h
  rw [definedIn_scan, hr name, Option.none_or] at hpath
  obtain ⟨first, hfirst, rfl⟩ := Option.map_eq_some_iff.1 hpath
  exact ⟨first, hfirst, hsame⟩

/-- Of another package is known what was known before and, unless that came from the package itself,
what some manifest hands on to it. -/
theorem scan_of_no_owner (hr : r.Fresh) (h : owner? ms name = none) :
    (r.scan ms).1.isDirect name = r.isDirect name ∧
      ∀ s, (r.scan ms).1.uses name s ↔ r.uses name s ∨
        (r.isDirect name = false ∧ ∃ m ∈ ms, Suggests m name s) := by
  have hget : (r.installed ms).get? name = r.get? name := by simp [get?_installed, hr name, h]
  have hdirect : (r.installed ms).isDirect name = r.isDirect name := by rw [isDirect, hget, isDirect]
  refine ⟨?_, fun s => ?_⟩
  · rw [scan_fst, isDirect_foldl_infer, hdirect]
  · rw [scan_fst, uses_foldl_infer, hdirect, uses, hget, uses]

end Registry

end FeatureForwarding
