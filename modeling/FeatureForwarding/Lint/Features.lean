import FeatureForwarding.Text.Order
import FeatureForwarding.Toml.Basic

/-! The order of feature lists. A list of strings is sorted; the text around its places
stays where it is, so that lists keep their layout on one line or on many. -/

namespace FeatureForwarding.Lint

open Toml (Key Item Value Table)

/-- The contents of a list that holds nothing but strings. -/
def texts? : List Value → Option (List String)
  | [] => some []
  | v :: vs => do
    let text ← v.text?
    let texts ← texts? vs
    some (text :: texts)

def isSorted (texts : List String) : Bool :=
  decide (texts.Pairwise fun a b => a ≤ b)

def sortTexts (elements : List Value) : List Value :=
  match texts? elements with
  | none => elements
  | some texts =>
    if isSorted texts then elements
    else
      (Text.stableSort (fun a b : String => a < b) texts).zipWith
        (fun text place => (Value.ofText text).withDecor place.decor) elements

def sortList : Value → Value
  | .array decor elements comma trailing => .array decor (sortTexts elements) comma trailing
  | v => v

def sortFeatureLists : Item → Item
  | .table t => .table (t.withEntries (t.entries.map fun
    | (key, .value v) => (key, .value (sortList v))
    | entry => entry))
  | .value (.inline decor dotted preamble entries) =>
    .value (.inline decor dotted preamble (entries.map fun (key, v) => (key, sortList v)))
  | item => item

def orderFeatures (root : Table) : Table :=
  root.withEntries (Toml.modify "features" sortFeatureLists root.entries)

end FeatureForwarding.Lint
