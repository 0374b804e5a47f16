import FeatureForwarding.Proofs.Registry.History

/-! What a scan teaches a registry, and what it warns of. A package that was not defined before takes
the fact of its first manifest; of the other packages those without a direct fact learn what is
handed on to them, each switch once, wherever in the list their definition or the reference stands.
Each manifest that names a package and does not define it is warned of once, with the path of the
definition that stands in its place. -/

namespace FeatureForwarding

/-- The fact as it was, with the switches in question taken up in both lists. -/
structure Fact.Learns (P : Switch → Prop) (old new : Fact) : Prop where
  name : new.name = old.name
  version : new.version = old.version
  direct : new.direct = old.direct
  features : ExtendsBy P old.features new.features
  usedFeatures : ExtendsBy P old.usedFeatures new.usedFeatures

theorem Fact.learns_foldl_observe (seen : List Switch) (fact : Fact) :
    Learns (· ∈ seen) fact (seen.foldl observe fact) := by
  rw [foldl_observe_eq]
  exact ⟨rfl, rfl, rfl, extendsBy_foldl_addNew .., extendsBy_foldl_addNew ..⟩

namespace Registry

variable {r : Registry} {m : Manifest} {ms : List Manifest} {name : String} {d : Definition}
  {found ds : List Definition}

/-! ### Facts -/

/-- What a package without a direct fact has learned. -/
theorem get?_scan_of_not_direct (h : (r.installed ms).isDirect name = false) :
    (r.scan ms).1.get? name =
      if ∃ m ∈ ms, ∃ d ∈ m.dependencies, d.package = name then
        some ((handedOn name (references ms)).foldl Fact.observe
          (((r.installed ms).get? name).getD (Fact.placeholder name)))
      else (r.installed ms).get? name := by
  have hreferences : (∃ e ∈ references ms, e.2.package = name) ↔
      ∃ m ∈ ms, ∃ d ∈ m.dependencies, d.package = name := by
    simp only [Prod.exists, mem_references]
    constructor
    · rintro ⟨m, d, ⟨hm, hd⟩, hname⟩
      exact ⟨m, hm, d, hd, hname⟩
    · rintro ⟨m, hm, d, hd, hname⟩
      exact ⟨m, d, ⟨hm, hd⟩, hname⟩
  simp only [scan_fst, get?_foldl_infer, h, true_and, hreferences]

/-! ### Warnings -/

/-- The warning about a manifest that follows the others, unless it defines its package. -/
def warning? (r : Registry) (before : List Manifest) (m : Manifest) : Option Diagnostic := do
  let name ← m.packageName?
  let first ← ((owner? before name).map (·.path)).or (r.definedIn.get? name)
  some ⟨m.path, .duplicatePackage name first⟩

def warnings (r : Registry) (ms : List Manifest) : Diagnostics :=
  ms.zipIdx.filterMap fun e => r.warning? (ms.take e.2) e.1

/-- The warning about a definition that comes after one of an earlier call. -/
def late? (r : Registry) (d : Definition) : Option Diagnostic :=
  (r.definedIn.get? d.fact.name).map (duplicate d)

/-- No two definitions are of the same package. -/
def Apart (ds : List Definition) : Prop := ds.Pairwise fun d d' => d.fact.name ≠ d'.fact.name

theorem apart_definitionsFrom (h : Apart found) : Apart (definitionsFrom found ms).1 := by
  induction ms generalizing found with
  | nil => exact h
  | cons m rest ih =>
    rw [definitionsFrom]
    split
    · exact ih h
    · next d hd =>
      split
      · next hnew =>
        refine ih (List.pairwise_append.2 ⟨h, List.pairwise_singleton .., fun d' hd' d'' hd'' => ?_⟩)
        obtain rfl := List.mem_singleton.1 hd''
        simpa using List.find?_eq_none.1 hnew d' hd'
      · exact ih h

theorem snd_installAll (h : Apart ds) (r : Registry) :
    (r.installAll ds).2 = ds.filterMap r.late? := by
  induction ds generalizing r with
  | nil => rfl
  | cons d rest ih =>
    obtain ⟨hfirst, hrest⟩ := List.pairwise_cons.1 h
    rw [installAll, install, List.filterMap_cons, late?]
    cases hdefined : r.definedIn.get? d.fact.name with
    | some first => exact congrArg (duplicate d first :: ·) (ih hrest r)
    | none =>
      -- a definition says nothing about the other packages
      refine (ih hrest (r.define d)).trans (List.filterMap_congr fun d' hd' => ?_)
      rw [late?, late?, definedIn_define, if_neg (hfirst d' hd').symm]

/-- The definitions found so far are those of the first manifests of their packages. -/
def FoundIn (found : List Definition) (before : List Manifest) : Prop :=
  ∀ name, found.find? (·.fact.name = name) = (owner? before name).bind Definition.ofManifest?

theorem definitionsFrom_cons (found : List Definition) (m : Manifest) (rest : List Manifest) :
    definitionsFrom found (m :: rest) =
      ((definitionsFrom (definitionsFrom found [m]).1 rest).1,
        (definitionsFrom found [m]).2 ++ (definitionsFrom (definitionsFrom found [m]).1 rest).2) := by
  simp only [definitionsFrom]
  split
  · rfl
  · split <;> rfl

theorem FoundIn.snoc {before : List Manifest} (h : FoundIn found before) (m : Manifest) :
    FoundIn (definitionsFrom found [m]).1 (before ++ [m]) := by
  intro name
  rw [find?_definitionsFrom, h, owner?, owner?, owner?, List.find?_append]
  cases hbefore : before.find? fun m => m.packageName? = some name with
  | none => rfl
  | some first =>
    obtain ⟨d, hd, -⟩ := ofManifest?_of_packageName? (packageName?_of_owner? hbefore)
    simp [hd]

/-- A manifest adds one warning: at once if it repeats a package of the list, and with the
installation if its definition comes after that of an earlier call. -/
theorem warning?_perm {before : List Manifest} (h : FoundIn found before) (m : Manifest) :
    ((definitionsFrom found [m]).2 ++ (definitionsFrom found [m]).1.filterMap r.late?).Perm
      (found.filterMap r.late? ++ (r.warning? before m).toList) := by
  simp only [definitionsFrom]
  split
  · next hnone =>
    have hname : m.packageName? = none := by
      rw [← Option.isNone_iff_eq_none, ← Option.not_isSome, ← Fact.isSome_ofManifest?]
      simpa [Definition.ofManifest?] using hnone
    simp [warning?, hname]
  · next d hd =>
    have hname := packageName?_of_ofManifest? hd
    have hpath := path_of_ofManifest? hd
    split
    · next hnew =>
      have howner : owner? before d.fact.name = none := by
        cases howner : owner? before d.fact.name with
        | none => rfl
        | some first =>
          obtain ⟨d', hd', -⟩ := ofManifest?_of_packageName? (packageName?_of_owner? howner)
          rw [h, howner, Option.bind_some, hd'] at hnew
          exact absurd hnew (by simp)
      have hwarning : r.warning? before m = r.late? d := by
        cases hdefined : r.definedIn.get? d.fact.name <;>
          simp [warning?, hname, howner, late?, hdefined, duplicate, hpath]
      rw [hwarning, List.nil_append, List.filterMap_append,
        List.filterMap_eq_flatMap_toList r.late? [d], List.flatMap_singleton]
    · next first hfirst =>
      rw [h] at hfirst
      obtain ⟨owner, howner, hfirst⟩ := Option.bind_eq_some_iff.1 hfirst
      have hwarning : r.warning? before m = some (duplicate d first.path) := by
        simp [warning?, hname, howner, duplicate, hpath, path_of_ofManifest? hfirst]
      rw [hwarning]
      exact List.perm_append_comm

theorem warnings_perm_from {before : List Manifest} (h : FoundIn found before)
    (ms : List Manifest) :
    ((definitionsFrom found ms).2 ++ (definitionsFrom found ms).1.filterMap r.late?).Perm
      (found.filterMap r.late? ++ (ms.zipIdx before.length).filterMap fun e =>
        r.warning? ((before ++ ms).take e.2) e.1) := by
  induction ms generalizing found before with
  | nil => simp [definitionsFrom]
  | cons m rest ih =>
    have hrest := ih (h.snoc m)
    rw [List.append_assoc, List.singleton_append, List.length_append, List.length_singleton] at hrest
    have hfirst : (((m :: rest).zipIdx before.length).filterMap fun e =>
        r.warning? ((before ++ m :: rest).take e.2) e.1) =
          (r.warning? before m).toList ++ (rest.zipIdx (before.length + 1)).filterMap fun e =>
            r.warning? ((before ++ m :: rest).take e.2) e.1 := by
      rw [List.zipIdx_cons, List.filterMap_eq_flatMap_toList, List.flatMap_cons, List.take_left,
        ← List.filterMap_eq_flatMap_toList]
    rw [definitionsFrom_cons, hfirst, List.append_assoc, ← List.append_assoc (found.filterMap r.late?)]
    refine (hrest.append_left _).trans ?_
    rw [← List.append_assoc]
    exact (warning?_perm h m).append_right _

theorem scan_warnings_perm (r : Registry) (ms : List Manifest) :
    (r.scan ms).2.Perm (r.warnings ms) := by
  have hfound : FoundIn [] [] := fun _ => rfl
  have hwarnings := warnings_perm_from (r := r) hfound ms
  rwa [← snd_installAll (apart_definitionsFrom .nil)] at hwarnings

/-! ### The scan -/

/-- A scan makes known exactly what the manifests declare. -/
theorem scan_learns_declared (hr : r.Reachable) (ms : List Manifest) :
    (∀ name m, r.definedIn.get? name = none → owner? ms name = some m →
      ∃ fact, Fact.ofManifest? m = some fact ∧ fact.direct ∧
        (r.scan ms).1.get? name = some fact) ∧
    (∀ name, (r.definedIn.get? name).isSome → (r.scan ms).1.get? name = r.get? name) ∧
    (∀ name, owner? ms name = none → r.isDirect name → (r.scan ms).1.get? name = r.get? name) ∧
    (∀ name, r.definedIn.get? name = none → owner? ms name = none → r.isDirect name = false →
      (((r.scan ms).1.get? name).isSome ↔
        (r.get? name).isSome ∨ ∃ m ∈ ms, ∃ d ∈ m.dependencies, d.package = name) ∧
      ∀ fact, (r.scan ms).1.get? name = some fact →
        Fact.Learns (fun s => ∃ m ∈ ms, Suggests m name s)
          ((r.get? name).getD (Fact.placeholder name)) fact) ∧
    (r.scan ms).2.Perm (r.warnings ms) := by
  have hkept {name : String} (hget : (r.installed ms).get? name = r.get? name)
      (hdirect : r.isDirect name) : (r.scan ms).1.get? name = r.get? name := by
    rw [get?_scan_of_direct (by rwa [isDirect, hget]), hget]
  refine ⟨fun name m hnew h => get?_scan_of_owner hnew h, fun name hdefined => ?_,
    fun name hnone hdirect => ?_, fun name hnew hnone hdirect => ?_, scan_warnings_perm r ms⟩
  · exact hkept (by rw [get?_installed, if_pos hdefined]) (hr.authoritative name hdefined)
  · exact hkept (by simp [get?_installed, hnone]) hdirect
  · have hget : (r.installed ms).get? name = r.get? name := by simp [get?_installed, hnone]
    have hclosed : (r.installed ms).isDirect name = false := by rwa [isDirect, hget]
    have hsuggests : (· ∈ handedOn name (references ms)) = fun s => ∃ m ∈ ms, Suggests m name s :=
      funext fun s => propext mem_handedOn
    rw [get?_scan_of_not_direct hclosed, hget, ← hsuggests]
    split
    · next href => exact ⟨by simp [href], fun fact hfact => Option.some.inj hfact ▸ Fact.learns_foldl_observe ..⟩
    · next href =>
      have hnothing : handedOn name (references ms) = [] := by
        refine List.eq_nil_iff_forall_not_mem.2 fun s hs => href ?_
        obtain ⟨m, hm, d, hd, hname, -⟩ := mem_handedOn.1 hs
        exact ⟨m, hm, d, hd, hname⟩
      refine ⟨by simp [href], fun fact hfact => ?_⟩
      rw [hfact, hnothing]
      exact Fact.learns_foldl_observe [] fact

/-- Two packages by three manifests. The second one repeats the first, and the last one comes after
a definition of an earlier call. -/
def crowd : List Manifest :=
  [("p", "a", "k"), ("q", "a", "k"), ("o", "b", "a")].filterMap fun (path, name, other) =>
    Manifest.read? ⟨path⟩
      s!"package.name=\"{name}\"\ndependencies.{other}=\"1\"\nfeatures.std=[\"{other}/std\"]\n"

/-- The package of the last manifest was defined before. -/
def earlier : Registry :=
  empty.after ((Manifest.read? ⟨"b"⟩ "package.name=\"b\"\n").toList.map .recordDirect)

theorem scan_learns_declared_crowd :
    Reachable earlier ∧ earlier.definedIn.get? "k" = none ∧ owner? crowd "k" = none ∧
      earlier.isDirect "k" = false ∧ (earlier.definedIn.get? "b").isSome ∧
      (∃ m, owner? crowd "a" = some m ∧ ∃ fact, Fact.ofManifest? m = some fact ∧
        (earlier.scan crowd).1.get? "a" = some fact) ∧
      (earlier.scan crowd).1.get? "b" = earlier.get? "b" ∧
      ((earlier.scan crowd).1.get? "k").isSome ∧
      (earlier.scan crowd).2.Perm
        [⟨⟨"q"⟩, .duplicatePackage "a" ⟨"p"⟩⟩, ⟨⟨"o"⟩, .duplicatePackage "b" ⟨"b"⟩⟩] := by
  have hreachable : Reachable earlier := ⟨_, _, .empty, rfl⟩
  have hnew : earlier.definedIn.get? "k" = none ∧ (owner? crowd "k").isNone ∧
      earlier.isDirect "k" = false := by decide +kernel
  have hold : (earlier.definedIn.get? "b").isSome := by decide +kernel
  have howner : earlier.definedIn.get? "a" = none ∧ (owner? crowd "a").isSome := by decide +kernel
  have hreferred : ∃ m ∈ crowd, ∃ d ∈ m.dependencies, d.package = "k" := by decide +kernel
  have hwarnings : earlier.warnings crowd =
      [⟨⟨"q"⟩, .duplicatePackage "a" ⟨"p"⟩⟩, ⟨⟨"o"⟩, .duplicatePackage "b" ⟨"b"⟩⟩] := by
    decide +kernel
  obtain ⟨hdefined, hkept, -, hlearned, hwarned⟩ := scan_learns_declared hreachable crowd
  obtain ⟨hundefined, hunnamed, hindirect⟩ := hnew
  have hunnamed := Option.isNone_iff_eq_none.1 hunnamed
  obtain ⟨m, hm⟩ := Option.isSome_iff_exists.1 howner.2
  obtain ⟨fact, hfact, -, hget⟩ := hdefined "a" m howner.1 hm
  exact ⟨hreachable, hundefined, hunnamed, hindirect, hold, ⟨m, hm, fact, hfact, hget⟩, hkept "b" hold,
    (hlearned "k" hundefined hunnamed hindirect).1.2 (.inr hreferred), hwarnings ▸ hwarned⟩

end Registry

end FeatureForwarding
