import FeatureForwarding.Proofs.Forwarding.Findings
import FeatureForwarding.Proofs.Registry.Learning

/-! A registry that is stored and restored. A scan of the same manifests on top of it finds nothing
new: the direct facts are put in again, and what is handed on to the other packages was observed
before. So a check finds the same against the registry of a fresh scan, against the restored one and
against the one that was scanned again. -/

namespace FeatureForwarding.Registry

variable {r r' : Registry} {ms : List Manifest} {name : String}

/-- A registry is known by its look-ups. -/
theorem ext_get? (hfacts : ∀ name, r.get? name = r'.get? name)
    (hdefined : ∀ name, r.definedIn.get? name = r'.definedIn.get? name) : r = r' := by
  cases r
  cases r'
  exact congrArg₂ Registry.mk (NameMap.ext_get? hfacts) (NameMap.ext_get? hdefined)

/-- Warnings do not depend on the facts. -/
theorem snd_scan_congr (h : r.definedIn = r'.definedIn) (ms : List Manifest) :
    (r.scan ms).2 = (r'.scan ms).2 := by
  have hlate : r.late? = r'.late? := by
    funext d
    rw [late?, late?, h]
  have hinstalled (r : Registry) : (r.scan ms).2 =
      (definitionsFrom [] ms).2 ++ (definitionsFrom [] ms).1.filterMap r.late? :=
    congrArg _ (snd_installAll (apart_definitionsFrom .nil) r)
  rw [hinstalled, hinstalled, hlate]

/-- What the manifests teach an empty registry about a package that none of them names. -/
theorem get?_scan_empty (h : owner? ms name = none) :
    (empty.scan ms).1.get? name =
      if ∃ m ∈ ms, ∃ d ∈ m.dependencies, d.package = name then
        some ((handedOn name (references ms)).foldl Fact.observe (Fact.placeholder name))
      else none := by
  have hget : (empty.installed ms).get? name = none := by
    rw [get?_installed, h]
    rfl
  rw [get?_scan_of_not_direct (by simp [isDirect, hget]), hget]
  rfl

/-- The registry with the facts of a fresh scan. -/
def restored (ms : List Manifest) : Registry := ⟨(empty.scan ms).1.facts, .empty⟩

/-- Scanned again, the manifests say what the restored facts say. -/
theorem get?_scan_restored (ms : List Manifest) (name : String) :
    ((restored ms).scan ms).1.get? name = (empty.scan ms).1.get? name := by
  cases howner : owner? ms name with
  | some m =>
    obtain ⟨fact, hfact, -, hget⟩ := get?_scan_of_owner (r := empty) rfl howner
    obtain ⟨fact', hfact', -, hget'⟩ := get?_scan_of_owner (r := restored ms) rfl howner
    rw [hget, hget', Option.some.inj (hfact.symm.trans hfact')]
  | none =>
    have hinstalled : ((restored ms).installed ms).get? name = (empty.scan ms).1.get? name := by
      rw [get?_installed, howner]
      rfl
    have hindirect : ((restored ms).installed ms).isDirect name = false := by
      rw [isDirect, hinstalled, get?_scan_empty howner]
      split
      · simp [Fact.foldl_observe_eq, Fact.placeholder]
      · rfl
    rw [get?_scan_of_not_direct hindirect, hinstalled, get?_scan_empty howner]
    split
    · rw [Option.getD_some, Fact.foldl_observe_foldl_observe]
    · rfl

theorem scan_restored (ms : List Manifest) : (restored ms).scan ms = empty.scan ms := by
  have hdefined : (restored ms).definedIn = empty.definedIn := rfl
  refine Prod.ext (ext_get? (get?_scan_restored ms) fun name => ?_) (snd_scan_congr hdefined ms)
  rw [definedIn_scan, definedIn_scan, hdefined]

/-- A fresh scan, its restored facts and a scan on top of them know the same, warn of the same and
give rise to the same findings. -/
theorem restored_scan_agrees (ms : List Manifest) :
    ∃ r, restore (empty.scan ms).1.facts = .ok r ∧
      (r.scan ms).1.facts = (empty.scan ms).1.facts ∧ (r.scan ms).2 = (empty.scan ms).2 ∧
      ∀ switches m,
        Forwarding.findings (r.scan ms).1 switches m =
          Forwarding.findings (empty.scan ms).1 switches m ∧
        Forwarding.findings r switches m =
          Forwarding.findings (empty.scan ms).1 switches m := by
  have hconsistent : (empty.scan ms).1.Consistent := by
    refine (consistent_of_initial .empty fun name fact hget => ?_).steps (steps_apply _ (.scan ms))
    exact absurd hget (by simp [empty, get?])
  refine ⟨restored ms, hconsistent.restore_facts, by rw [scan_restored], by rw [scan_restored],
    fun switches m => ⟨by rw [scan_restored], ?_⟩⟩
  exact Forwarding.findings_congr (fun _ _ _ => rfl) m

end FeatureForwarding.Registry
