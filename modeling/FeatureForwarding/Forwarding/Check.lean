import FeatureForwarding.Registry.Basic

/-! Checks of one manifest against a registry. Where a package without the standard library
depends on a package that uses a switch, it has to import that package without default
features and to hand the switch on. -/

namespace FeatureForwarding.Forwarding

/-- The pairs of a dependency and a switch that it uses, in the order of reports. -/
def uses (r : Registry) (switches : List Switch) (m : Manifest) : List (Dependency × Switch) :=
  m.dependencies.flatMap fun d =>
    (switches.filter (r.uses d.package)).map fun s => (d, s)

/-- A key may occur under several targets, but each finding is reported once. -/
def findingsFrom (m : Manifest) (defaults : List String) (forwarded : List (String × Switch)) :
    List (Dependency × Switch) → List Finding
  | [] => []
  | (d, s) :: rest =>
    let lacksDefaults := !d.disablesDefaults && !defaults.contains d.key
    let lacksForwarding := !m.forwards s d.key && !forwarded.contains (d.key, s)
    (if lacksDefaults then [.missingDefaultFeatures m.displayName d.key] else [])
      ++ (if lacksForwarding then [.missingForwarding m.displayName d.key s d.optional false] else [])
      ++ findingsFrom m (if lacksDefaults then d.key :: defaults else defaults)
          (if lacksForwarding then (d.key, s) :: forwarded else forwarded) rest

def findings (r : Registry) (switches : List Switch) (m : Manifest) : List Finding :=
  if m.isNoStd then findingsFrom m [] [] (uses r switches m) else []

def diagnosticsAt (m : Manifest) (findings : List Finding) : Diagnostics :=
  findings.map (⟨m.path, ·⟩)

def check (r : Registry) (switches : List Switch) (m : Manifest) : Diagnostics :=
  diagnosticsAt m (findings r switches m)

end FeatureForwarding.Forwarding
