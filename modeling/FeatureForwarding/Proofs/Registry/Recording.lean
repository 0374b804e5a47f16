import FeatureForwarding.Proofs.Registry.Learning

/-! A scan and the recordings that it stands for. Collecting the definitions first and installing them
afterwards does what recording the manifests one after the other does, as long as nothing was defined
before; what a scan warns of are then the recordings that came too late. -/

namespace FeatureForwarding.Registry

variable {r : Registry} {m : Manifest} {ms : List Manifest} {found ds : List Definition} {d : Definition}

/-- Records what the manifests say of their own packages, one after the other. -/
def recordAll (r : Registry) : List Manifest → List Recording × Registry
  | [] => ([], r)
  | m :: rest =>
    let first := r.recordDirect m
    let later := first.2.recordAll rest
    (first.1 :: later.1, later.2)

/-- What is reported of a manifest whose definition came too late; only one with a package has any. -/
def Recording.report? (recording : Recording) (m : Manifest) : Option Diagnostic :=
  match recording with
  | .duplicate first => some ⟨m.path, .duplicatePackage (m.packageName?.getD "") first⟩
  | _ => none

/-- The reports about the manifests in order, each with its recording. -/
def reports (recordings : List Recording) (ms : List Manifest) : Diagnostics :=
  (recordings.zip ms).filterMap fun e => e.1.report? e.2

theorem reports_cons (recording : Recording) (recordings : List Recording) (m : Manifest)
    (ms : List Manifest) :
    reports (recording :: recordings) (m :: ms) =
      (recording.report? m).toList ++ reports recordings ms := by
  rw [reports, List.zip_cons_cons, List.filterMap_cons]
  cases recording.report? m <;> rfl

theorem report?_duplicate (h : Definition.ofManifest? m = some d) (first : Files.Path) :
    (Recording.duplicate first).report? m = some (duplicate d first) := by
  rw [Recording.report?, packageName?_of_ofManifest? h, duplicate, path_of_ofManifest? h]
  rfl

/-! ### One manifest -/

theorem fst_installAll_cons (r : Registry) (d : Definition) (ds : List Definition) :
    (r.installAll (d :: ds)).1 = ((r.install d).2.installAll ds).1 := by
  rw [installAll, install]
  cases r.definedIn.get? d.fact.name <;> rfl

theorem fst_installAll_append (r : Registry) (ds ds' : List Definition) :
    (r.installAll (ds ++ ds')).1 = ((r.installAll ds).1.installAll ds').1 := by
  induction ds generalizing r with
  | nil => rfl
  | cons d rest ih => rw [List.cons_append, fst_installAll_cons, fst_installAll_cons, ih]

/-- In a registry without definitions the collected ones say of the next manifest what its recording
says. -/
theorem recordDirect_of_found (hr : r.Fresh) (found : List Definition) (m : Manifest) :
    ((r.installAll found).1.recordDirect m).2 = (r.installAll (definitionsFrom found [m]).1).1 ∧
      (((r.installAll found).1.recordDirect m).1.report? m).toList =
        (definitionsFrom found [m]).2 := by
  rw [definitionsFrom, recordDirect]
  cases hd : Definition.ofManifest? m with
  | none => exact ⟨rfl, rfl⟩
  | some d =>
    obtain ⟨hdefined, -⟩ := get?_installAll r found d.fact.name
    rw [hr, Option.none_or] at hdefined
    cases hfound : found.find? (·.fact.name = d.fact.name) with
    | none =>
      rw [hfound, Option.map_none] at hdefined
      refine ⟨?_, by simp only [install, hdefined, definitionsFrom, hfound]; rfl⟩
      simp only [definitionsFrom, hfound, fst_installAll_append, fst_installAll_cons]
      rfl
    | some first =>
      rw [hfound, Option.map_some] at hdefined
      simp only [install, hdefined, definitionsFrom, hfound, report?_duplicate hd, Option.toList_some,
        and_self]

/-! ### The list -/

/-- The collected definitions and their warnings are those of the recordings. -/
theorem recordAll_of_found (hr : r.Fresh) (found : List Definition) (ms : List Manifest) :
    ((r.installAll found).1.recordAll ms).2 = (r.installAll (definitionsFrom found ms).1).1 ∧
      reports ((r.installAll found).1.recordAll ms).1 ms = (definitionsFrom found ms).2 := by
  induction ms generalizing found with
  | nil => exact ⟨rfl, rfl⟩
  | cons m rest ih =>
    obtain ⟨hregistry, hreport⟩ := recordDirect_of_found hr found m
    obtain ⟨hlater, hreports⟩ := ih (definitionsFrom found [m]).1
    rw [definitionsFrom_cons, recordAll, hregistry]
    exact ⟨hlater, by rw [reports_cons, hreport, hreports]⟩

/-- Where nothing was defined before, no definition comes after one of an earlier call. -/
theorem snd_installAll_of_fresh (hr : r.Fresh) (h : Apart ds) : (r.installAll ds).2 = [] := by
  rw [snd_installAll h, List.filterMap_eq_nil_iff]
  intro d _
  rw [late?, hr]
  rfl

/-- In a registry without definitions a scan does what recording the manifests in order and then what
they hand on in order does, and it warns of the recordings that came too late. -/
theorem scan_eq_recordings (hr : r.Fresh) (ms : List Manifest) :
    r.scan ms = (ms.foldl recordIndirect (r.recordAll ms).2, reports (r.recordAll ms).1 ms) := by
  obtain ⟨hregistry, hreports⟩ := recordAll_of_found hr [] ms
  have hapart : Apart (definitionsFrom [] ms).1 := apart_definitionsFrom .nil
  have hstart : (r.installAll []).1 = r := rfl
  rw [hstart] at hregistry hreports
  rw [scan, hregistry, hreports, snd_installAll_of_fresh hr hapart, List.append_nil]

/-- Facts of an earlier run give way to the first manifest of the package, and every later one comes
too late, also where a manifest is listed again. -/
theorem scan_eq_recordings_crowd :
    restore stored = .ok ⟨stored, .empty⟩ ∧ Fresh ⟨stored, .empty⟩ ∧
      (recordAll ⟨stored, .empty⟩ (crowd ++ crowd)).1 = [.recorded, .duplicate ⟨"p"⟩, .recorded,
        .duplicate ⟨"p"⟩, .duplicate ⟨"p"⟩, .duplicate ⟨"o"⟩] ∧
      (scan ⟨stored, .empty⟩ (crowd ++ crowd)).1 =
        (crowd ++ crowd).foldl recordIndirect (recordAll ⟨stored, .empty⟩ (crowd ++ crowd)).2 ∧
      (scan ⟨stored, .empty⟩ (crowd ++ crowd)).2 = [⟨⟨"q"⟩, .duplicatePackage "a" ⟨"p"⟩⟩,
        ⟨⟨"p"⟩, .duplicatePackage "a" ⟨"p"⟩⟩, ⟨⟨"q"⟩, .duplicatePackage "a" ⟨"p"⟩⟩,
        ⟨⟨"o"⟩, .duplicatePackage "b" ⟨"o"⟩⟩] := by
  have hrestored : ∀ entry ∈ stored.entries, entry.2.name = entry.1 ∧
      entry.2.usedFeatures ⊆ entry.2.features := by
    decide +kernel
  have hrecordings : (recordAll ⟨stored, .empty⟩ (crowd ++ crowd)).1 = [.recorded, .duplicate ⟨"p"⟩,
      .recorded, .duplicate ⟨"p"⟩, .duplicate ⟨"p"⟩, .duplicate ⟨"o"⟩] := by
    decide +kernel
  have hreports : reports (recordAll ⟨stored, .empty⟩ (crowd ++ crowd)).1 (crowd ++ crowd) =
      [⟨⟨"q"⟩, .duplicatePackage "a" ⟨"p"⟩⟩, ⟨⟨"p"⟩, .duplicatePackage "a" ⟨"p"⟩⟩,
        ⟨⟨"q"⟩, .duplicatePackage "a" ⟨"p"⟩⟩, ⟨⟨"o"⟩, .duplicatePackage "b" ⟨"o"⟩⟩] := by
    decide +kernel
  have hfresh : Fresh ⟨stored, .empty⟩ := fun _ => rfl
  have hscan := scan_eq_recordings hfresh (crowd ++ crowd)
  refine ⟨restore_eq_ok.2 ⟨rfl, fun name fact hget =>
    hrestored (name, fact) (NameMap.mem_entries_iff.2 hget)⟩, hfresh, hrecordings, by rw [hscan], ?_⟩
  rw [hscan, hreports]

end FeatureForwarding.Registry
