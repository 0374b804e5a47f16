import FeatureForwarding.Proofs.Forwarding.Tokens
import FeatureForwarding.Proofs.Run.Scan

/-! What a write run hands on. A mandatory entry gets the token of a switch that its package uses,
unless an optional entry of the same key stands before it: then nothing is added for the key, and
the entry stays without the switch. -/

namespace FeatureForwarding

open Files (Path Tree)
open Forwarding (Demands firstUse? met passLimit)

variable {t : Tree} {root : Path} {options : Options} {s : Plan.Scan} {i : Nat} {m : Manifest}
    {d : Dependency}
  {sw : Switch}

theorem Forwarding.firstUse?_of_mandatory {r : Registry} (hd : d ∈ m.dependencies)
    (huses : r.uses d.package sw) :
    ∃ e, firstUse? r m sw d.key = some e ∧
      (e = d ∨ ∃ front back, m.dependencies = front ++ d :: back ∧ e ∈ front) := by
  unfold firstUse?
  obtain ⟨front, back, hsplit⟩ := List.append_of_mem hd
  rw [hsplit, List.find?_append]
  cases hfront : front.find? fun d' => d'.key = d.key ∧ r.uses d'.package sw with
  | some e => exact ⟨e, rfl, .inr ⟨front, back, rfl, List.mem_of_find?_eq_some hfront⟩⟩
  | none => exact ⟨d, by simp [huses], .inl rfl⟩

/-- The settled manifest hands the switch on exactly if it did before or a registry of the run asked
for it; where it does not, an optional entry of the same key stands in front. If the entries of the
key agree on the package, the first of them decides alone. -/
theorem write_forwards_mandatory_iff (hnames : t.isNamedAt root)
    (hscan : Plan.scan t root options = .ok s)
    (hm : (s.selected options)[i]? = some m) (hc : m.hasComments = false) (hstd : m.isNoStd)
    (hd : d ∈ m.dependencies) (hoptional : d.optional = false) (hsw : sw ∈ options.effectiveSwitches)
    (huses : (s.settle options).registry.uses d.package sw)
    (hentry : (Toml.find? sw.name m.featureItems).all (·.array?.isSome)) :
    ∃ plan m', Plan.write t root options = .ok plan ∧ (s.settle options).manifests[i]? = some m' ∧
      plan.tasks[i]? = some (Task.ofManifest m') ∧
      (m'.forwards sw d.key ↔ m.forwards sw d.key ∨
        ∃ r ∈ met options.effectiveSwitches
          (passLimit options.effectiveSwitches (s.selected options)) s.registry
          (s.selected options) i, Demands r m sw d.key) ∧
      (m'.forwards sw d.key ∨ ∃ front back e, m.dependencies = front ++ d :: back ∧ e ∈ front ∧
        firstUse? (s.settle options).registry m sw d.key = some e ∧ e.optional) ∧
      ((∀ e ∈ m.dependencies, e.key = d.key → e.package = d.package) →
        (m'.forwards sw d.key ↔ m.forwards sw d.key ∨
          ∃ e, m.dependencies.find? (·.key = d.key) = some e ∧ e.optional = false)) := by
  have hdistinct := Plan.distinct_selected hnames hscan
  have htakes : m.takes sw := by
    have htable : ∀ item, m.item? "features" = some item → item.tableLike?.isSome := by
      intro item hitem
      cases htable : item.tableLike? with
      | some fields => rfl
      | none =>
        rw [Manifest.isNoStd, Manifest.exposes, Manifest.featureItems, hitem, Option.bind_some,
          htable] at hstd
        exact absurd hstd (by decide)
    rw [Manifest.takes_eq_of_tableLike htable]
    exact hentry
  obtain ⟨m', hm', hgrows, hforwards⟩ :=
    Forwarding.forwards_settle (r := s.registry) hm hc hstd htakes hsw
  have hsettled : Forwarding.Settled (s.settle options).registry options.effectiveSwitches m' :=
    Forwarding.settled_settle hdistinct hm' (hgrows.hasComments.trans hc)
  have hdemanded : Demands (s.settle options).registry m sw d.key → m'.forwards sw d.key := fun h =>
    Forwarding.forwards_of_settled hsettled (hgrows.isNoStd hstd) ((hgrows.takes sw).trans htakes) hsw
      ((Forwarding.demands_congr hgrows.dependencies).2 h)
  refine ⟨_, m', Plan.write_of_scan hscan, hm', ?_, hforwards d.key, ?_, fun hpackage => ?_⟩
  · rw [List.getElem?_map, show (s.settle options).manifests[i]? = some m' from hm', Option.map_some]
  · obtain ⟨e, he, hplace⟩ := Forwarding.firstUse?_of_mandatory hd huses
    cases hflag : e.optional with
    | false => exact .inl (hdemanded ⟨e, he, hflag⟩)
    | true =>
      rcases hplace with rfl | ⟨front, back, hsplit, hmem⟩
      · exact absurd (hoptional.symm.trans hflag) (by decide)
      · exact .inr ⟨front, back, e, hsplit, hmem, he, hflag⟩
  · constructor
    · intro h
      refine ((hforwards d.key).1 h).imp_right ?_
      rintro ⟨r, -, hdemands⟩
      exact ((Forwarding.demands_iff_of_package hpackage).1 hdemands).2
    · rintro (h | h)
      · exact hgrows.forwards h
      · exact hdemanded ((Forwarding.demands_iff_of_package hpackage).2 ⟨huses, h⟩)

/-- A package that names a dependency twice, first as an optional one. -/
def shadowed : Tree :=
  (Tree.empty.place ["a.toml"] (.file (.text
    "features.std=[]\ndependencies.k=\x7boptional=true\x7d\ntarget.x.dependencies.k=\x7b\x7d\n"))).place
    ["k.toml"] (.file (.text "package.name=\"k\"\nfeatures.std=[\"x\"]\n"))

theorem write_forwards_mandatory_iff_shadowed :
    ∃ s m plan m', Plan.scan shadowed ⟨"."⟩ {} = .ok s ∧ (s.selected {})[0]? = some m ∧
      m.hasComments = false ∧
      m.isNoStd ∧ (⟨"k", "k", some "x", false, none⟩ : Dependency) ∈ m.dependencies ∧
      (s.settle {}).registry.uses "k" .std ∧
        (Toml.find? Switch.std.name m.featureItems).all (·.array?.isSome) ∧
      Plan.write shadowed ⟨"."⟩ {} = .ok plan ∧ plan.tasks[0]? = some (Task.ofManifest m') ∧
      m'.forwards .std "k" = false := by
  have htest : (Plan.scan shadowed ⟨"."⟩ {}).toOption.any (fun s =>
      (s.selected {})[0]?.any (fun m => !m.hasComments && m.isNoStd &&
        decide ((⟨"k", "k", some "x", false, none⟩ : Dependency) ∈ m.dependencies) &&
        (Toml.find? Switch.std.name m.featureItems).all (·.array?.isSome)) &&
      (s.settle {}).registry.uses "k" .std && (s.settle {}).manifests[0]?.all
        (!·.forwards .std "k")) := by
    decide +kernel
  obtain ⟨s, hscan, htest⟩ := exists_ok_of_any htest
  simp only [Bool.and_eq_true, Option.any_eq_true] at htest
  obtain ⟨⟨⟨m, hm, ⟨⟨hc, hstd⟩, hd⟩, hentry⟩, huses⟩, hnot⟩ := htest
  have hc : m.hasComments = false := by simpa using hc
  have hd := of_decide_eq_true hd
  have hstdChecked : Switch.std ∈ Options.effectiveSwitches {} := by decide
  obtain ⟨plan, m', hwrite, hm', htask, -⟩ :=
    write_forwards_mandatory_iff (by decide +kernel) hscan hm hc hstd hd rfl
    hstdChecked huses hentry
  refine ⟨s, m, plan, m', hscan, hm, hc, hstd, hd, huses, hentry, hwrite, htask, ?_⟩
  simpa [hm'] using hnot

end FeatureForwarding
