import FeatureForwarding.Forwarding.Check

/-! Repairs. Mandatory dependencies that lack a switch get it. Handing a switch on makes a
package use it, so that its own dependents may need it too; passes over the manifests are
therefore repeated until one of them adds nothing. -/

namespace FeatureForwarding.Forwarding

/-- A manifest after its repair and the findings, which say what was repaired. -/
structure Repair where
  manifest : Manifest
  findings : List Finding

namespace Repair

def added (repair : Repair) : Nat := repair.findings.countP Finding.isRepaired

def report (repair : Repair) : Diagnostics := diagnosticsAt repair.manifest repair.findings

end Repair

/-- Optional dependencies are never repaired. -/
def repairFindings (m : Manifest) : List Finding → Repair
  | [] => ⟨m, []⟩
  | .missingForwarding package dependency s false repaired :: rest =>
    match m.addForwarding? s dependency with
    | some m =>
      let later := repairFindings m rest
      { later with findings := .missingForwarding package dependency s false true :: later.findings }
    | none =>
      let later := repairFindings m rest
      { later with findings := .missingForwarding package dependency s false repaired :: later.findings }
  | finding :: rest =>
    let later := repairFindings m rest
    { later with findings := finding :: later.findings }

def repair (r : Registry) (switches : List Switch) (m : Manifest) : Repair :=
  repairFindings m (findings r switches m)

/-- Manifests and registry after a pass or several. -/
structure Progress where
  manifests : List Manifest
  registry : Registry
  report : Diagnostics
  added : Nat

/-- Repairs one manifest after the other, where each sees what the ones before gained.
Manifests with comments are not written and must not feed the registry. -/
def pass (switches : List Switch) (r : Registry) : List Manifest → Progress
  | [] => ⟨[], r, [], 0⟩
  | m :: rest =>
    if m.hasComments then
      let later := pass switches r rest
      { later with manifests := m :: later.manifests }
    else
      let repaired := repair r switches m
      let r := if repaired.added = 0 then r else r.refreshDirect repaired.manifest
      let later := pass switches r rest
      ⟨repaired.manifest :: later.manifests, later.registry, repaired.report ++ later.report,
        repaired.added + later.added⟩

/-- Passes until nothing is added, with so many passes after the first at most. Of the passes
before the last only the repairs are reported. -/
def passes (switches : List Switch) : Nat → Registry → List Manifest → Progress
  | 0, r, ms => pass switches r ms
  | limit + 1, r, ms =>
    let first := pass switches r ms
    if first.added = 0 then first
    else
      let later := passes switches limit first.registry first.manifests
      { later with report := first.report.keepRepaired ++ later.report, added := first.added + later.added }

/-- The manifests with comments are looked at once, after the others have settled. -/
def closing (switches : List Switch) (r : Registry) (m : Manifest) : Repair :=
  if m.hasComments then repair r switches m else ⟨m, []⟩

/-- Each pass after the first needs a fact that gained a switch in the pass before. -/
def passLimit (switches : List Switch) (ms : List Manifest) : Nat :=
  ms.countP (!·.hasComments) * switches.length

def settle (switches : List Switch) (r : Registry) (ms : List Manifest) : Progress :=
  let settled := passes switches (passLimit switches ms) r ms
  let closed := settled.manifests.map (closing switches settled.registry)
  { settled with
    manifests := closed.map (·.manifest)
    report := settled.report ++ closed.flatMap (·.report) }

end FeatureForwarding.Forwarding
