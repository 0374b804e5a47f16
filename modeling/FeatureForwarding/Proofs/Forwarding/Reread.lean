import FeatureForwarding.Proofs.Forwarding.Memory
import FeatureForwarding.Proofs.Manifest.Outline

/-! What the next scan makes of settled manifests. Where every key stands for one package, it knows
of the switches what the run knew in the end: a named package is known by its manifest in both, and
what a run hands on to another package was known of it from the start. -/

namespace FeatureForwarding

/-- No key of the manifest stands for two packages. -/
def Manifest.HasPlainKeys (m : Manifest) : Prop :=
  ∀ d ∈ m.dependencies, ∀ d' ∈ m.dependencies, d.key = d'.key → d.package = d'.package

instance (m : Manifest) : Decidable m.HasPlainKeys :=
  inferInstanceAs (Decidable (∀ d ∈ m.dependencies, ∀ d' ∈ m.dependencies, d.key = d'.key →
    d.package = d'.package))

namespace Forwarding

open Registry (Suggests owner?)

variable {switches : List Switch} {r : Registry} {all sel : List Manifest} {g : Manifest → Manifest}
  {m m' : Manifest} {i : Nat} {name : String} {s : Switch}

/-- How the manifests of a run are read afterwards: those that it could write as it left them, the
others as they were. -/
structure Reread (switches : List Switch) (r : Registry) (all sel : List Manifest)
    (g : Manifest → Manifest) : Prop where
  path : ∀ m ∈ all, (g m).path = m.path
  same : ∀ m ∈ all, m ∉ sel ∨ m.hasComments → g m = m
  settled : ∀ (i : Nat) (m m' : Manifest), sel[i]? = some m →
    (settle switches r sel).manifests[i]? = some m' →
    m.hasComments = false → (g m).outline = m'.outline

theorem unnamed_of_no_owner (hsel : sel.Sublist all) (h : owner? all name = none) :
    ∀ m ∈ sel, m.packageName? ≠ some name := by
  intro m hm hname
  exact absurd hname (by simpa using List.find?_eq_none.1 h m (hsel.subset hm))

theorem suggests_of_outline (h : m'.outline = m.outline) : Suggests m' name s ↔
    Suggests m name s := by
  rw [Suggests, Suggests, Manifest.dependencies_of_outline h, Manifest.forwards_of_outline h]

namespace Reread

section

variable (h : Reread switches r all sel g) (hdistinct : Distinct sel)
include h hdistinct

/-- A manifest is read again as it was or as it has grown. -/
theorem cases (hm : m ∈ all) :
    g m = m ∨ ∃ (i : Nat) (m' : Manifest), sel[i]? = some m ∧
      (settle switches r sel).manifests[i]? = some m' ∧
      m.hasComments = false ∧ m.Grows m' ∧ (g m).outline = m'.outline := by
  by_cases hsame : m ∉ sel ∨ m.hasComments
  · exact .inl (h.same m hm hsame)
  · obtain ⟨hmem, hc⟩ : m ∈ sel ∧ m.hasComments = false := by simpa using hsame
    obtain ⟨i, hi⟩ := List.mem_iff_getElem?.1 hmem
    obtain ⟨m', hm', hgrows⟩ := grows_settle switches r hdistinct hi
    exact .inr ⟨i, m', hi, hm', hc, hgrows, h.settled i m m' hi hm' hc⟩

theorem packageName? (hm : m ∈ all) : (g m).packageName? = m.packageName? := by
  rcases h.cases hdistinct hm with heq | ⟨i, m', -, -, -, hgrows, houtline⟩
  · rw [heq]
  · rw [Manifest.packageName?_of_outline houtline, hgrows.packageName?]

theorem owner?_map (name : String) : owner? (all.map g) name = (owner? all name).map g := by
  rw [owner?, owner?, List.find?_map]
  congr 1
  refine List.find?_congr fun m hm => ?_
  simp only [Function.comp_apply, h.packageName? hdistinct hm]

end

/-- What was handed on to a package still is. -/
theorem suggests (h : Reread switches r all sel g) (hdistinct : Distinct sel) (hm : m ∈ all)
    (hs : Suggests m name s) :
    Suggests (g m) name s := by
  rcases h.cases hdistinct hm with heq | ⟨i, m', -, -, -, hgrows, houtline⟩
  · rwa [heq]
  · obtain ⟨d, hd, hpackage, hforwards⟩ := hs
    refine (suggests_of_outline houtline).2 ⟨d, ?_, hpackage, ?_⟩
    · rwa [hgrows.dependencies]
    · exact hgrows.forwards hforwards

/-- What is handed on afterwards was handed on before or is by a manifest that the run could write. -/
theorem suggests_cases (h : Reread switches r all sel g) (hdistinct : Distinct sel) (hm : m ∈ all)
    (hs : Suggests (g m) name s) : Suggests m name s ∨
      ∃ m' ∈ (settle switches r sel).manifests, m'.hasComments = false ∧ Suggests m' name s := by
  rcases h.cases hdistinct hm with heq | ⟨i, m', -, hm', hc, hgrows, houtline⟩
  · exact .inl (heq ▸ hs)
  · exact .inr ⟨m', List.mem_of_getElem? hm', hgrows.hasComments.trans hc,
      (suggests_of_outline houtline).1 hs⟩

/-- What such a manifest hands on is read off it. -/
theorem exists_suggests (h : Reread switches r all sel g) (hdistinct : Distinct sel)
    (hsel : sel.Sublist all)
    (hm' : m' ∈ (settle switches r sel).manifests) (hc : m'.hasComments = false)
    (hs : Suggests m' name s) :
    ∃ m ∈ all, Suggests (g m) name s := by
  obtain ⟨i, hi⟩ := List.mem_iff_getElem?.1 hm'
  obtain ⟨m, hm, hgrows⟩ := exists_of_settle hdistinct hi
  have houtline := h.settled i m m' hm hi (hgrows.hasComments.symm.trans hc)
  exact ⟨m, hsel.subset (List.mem_of_getElem? hm), (suggests_of_outline houtline).2 hs⟩

end Reread

/-- A run knows of a named package in the end what its manifest tells when it is read again. -/
theorem uses_settle_of_owner (hdistinct : Distinct all) (hsel : sel.Sublist all)
    (h : Reread switches r all sel g)
    (hm : m ∈ all) (hheard : r.Heard m name) :
      ∀ s, (settle switches r sel).registry.uses name s = (g m).activates s := by
  obtain ⟨m', hleaves, hheard'⟩ :=
    heard_settle switches hdistinct hsel.subset (hdistinct.sublist hsel) hm hheard
  intro s
  rw [hheard'.uses]
  cases hleaves with
  | settled place writable result => rw [Manifest.activates_of_outline (h.settled _ m m' place result writable)]
  | untouched hsame => rw [h.same m hm hsame]

/-- The next scan knows what this run knew in the end; of a package that nobody names and no direct
fact describes, it also learns from the tokens that this run added. -/
theorem uses_rescan_iff {r₀ : Registry} (hfresh : r₀.Fresh) (hdistinct : Distinct all)
    (hsel : sel.Sublist all)
    (h : Reread switches (r₀.scan all).1 all sel g) (name : String) (s : Switch) :
    (r₀.scan (all.map g)).1.uses name s ↔ (settle switches (r₀.scan all).1 sel).registry.uses name s ∨
      (owner? all name = none ∧ (r₀.scan all).1.isDirect name = false ∧
        ∃ m' ∈ (settle switches (r₀.scan all).1 sel).manifests, m'.hasComments = false ∧
          Suggests m' name s) := by
  have hdistinct' : Distinct sel := hdistinct.sublist hsel
  have howner := h.owner?_map hdistinct' name
  cases hfirst : owner? all name with
  | some m =>
    rw [hfirst, Option.map_some] at howner
    have hm : m ∈ all := List.mem_of_find?_eq_some hfirst
    have hheard : (r₀.scan all).1.Heard m name := Registry.heard_scan hfresh hfirst
    rw [(Registry.scan_of_owner hfresh howner).2, uses_settle_of_owner hdistinct hsel h hm hheard]
    simp
  | none =>
    rw [hfirst, Option.map_none] at howner
    obtain ⟨hdirect, huses⟩ := Registry.scan_of_no_owner hfresh hfirst
    have hkept : (settle switches (r₀.scan all).1 sel).registry.uses name s =
      (r₀.scan all).1.uses name s :=
      (uses_of_unnamed (unnamed_of_no_owner hsel hfirst) _ _).1 s
    rw [hkept, (Registry.scan_of_no_owner hfresh howner).2, huses, hdirect]
    constructor
    · rintro (hseed | ⟨hopen, _, hmem, hsuggests⟩)
      · exact .inl (.inl hseed)
      · obtain ⟨m, hm, rfl⟩ := List.mem_map.1 hmem
        rcases h.suggests_cases hdistinct' hm hsuggests with hold | hnew
        · exact .inl (.inr ⟨hopen, m, hm, hold⟩)
        · exact .inr ⟨rfl, hopen, hnew⟩
    · rintro ((hseed | ⟨hopen, m, hm, hsuggests⟩) | ⟨-, hopen, m', hm', hc, hsuggests⟩)
      · exact .inl hseed
      · exact .inr ⟨hopen, g m, List.mem_map_of_mem hm, h.suggests hdistinct' hm hsuggests⟩
      · obtain ⟨m, hm, hread⟩ := h.exists_suggests hdistinct' hsel hm' hc hsuggests
        exact .inr ⟨hopen, g m, List.mem_map_of_mem hm, hread⟩

/-- If no key stands for two packages, the added tokens tell nothing new. -/
theorem uses_rescan {r₀ : Registry} (hfresh : r₀.Fresh) (hdistinct : Distinct all)
    (hsel : sel.Sublist all)
    (hkeys : ∀ m ∈ sel, m.HasPlainKeys) (h : Reread switches (r₀.scan all).1 all sel g)
    (name : String) (s : Switch) :
    (r₀.scan (all.map g)).1.uses name s ↔
    (settle switches (r₀.scan all).1 sel).registry.uses name s := by
  have hdistinct' : Distinct sel := hdistinct.sublist hsel
  rw [uses_rescan_iff hfresh hdistinct hsel h]
  refine ⟨fun hused => hused.elim id ?_, .inl⟩
  rintro ⟨hfirst, hopen, m', hm', hc, d, hd, hpackage, hforwards⟩
  have hunnamed := unnamed_of_no_owner hsel hfirst
  have hkept : (settle switches (r₀.scan all).1 sel).registry.uses name s =
    (r₀.scan all).1.uses name s :=
    (uses_of_unnamed hunnamed _ _).1 s
  obtain ⟨hdirect, huses⟩ := Registry.scan_of_no_owner hfresh hfirst
  rw [hkept]
  obtain ⟨i, hi⟩ := List.mem_iff_getElem?.1 hm'
  obtain ⟨m, hm, hgrows⟩ := exists_of_settle hdistinct' hi
  rw [hgrows.dependencies] at hd
  cases hold : m.forwards s d.key with
  | true => exact (huses s).2 (.inr ⟨hdirect.symm.trans hopen, m, hsel.subset (List.mem_of_getElem? hm), d, hd, hpackage, hold⟩)
  | false =>
    have hpassed := getElem?_passes_of_settle hi hc
    obtain ⟨r', hr', e, he, -⟩ := demands_of_gained hm hpassed hforwards hold
    obtain ⟨hkey, hused⟩ : e.key = d.key ∧ r'.uses e.package s := by simpa using List.find?_some he
    have hsame := hkeys m (List.mem_of_getElem? hm) e (List.mem_of_find?_eq_some he) d hd hkey
    rwa [hsame, hpackage, (uses_of_unnamed hunnamed _ _).2 i r' hr'] at hused

end Forwarding

end FeatureForwarding
