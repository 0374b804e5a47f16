import FeatureForwarding.Lint.Dependencies
import FeatureForwarding.Lint.Features
import FeatureForwarding.Lint.Spacing
import FeatureForwarding.Lint.Standards
import FeatureForwarding.Manifest

/-! The canonical form of a manifest: package fields as the standards say, dependencies and
feature lists in order, and one blank line between sections. -/

namespace FeatureForwarding

namespace Toml.Document

def normalize (standards : Standards) (doc : Document) : Document :=
  { doc with
    root := Lint.spaceHeaders (Lint.orderFeatures (Lint.orderDependencies (standards.apply doc.root))) }

end Toml.Document

def Manifest.normalize (standards : Standards) (m : Manifest) : Manifest :=
  { m with document := m.document.normalize standards }

end FeatureForwarding
