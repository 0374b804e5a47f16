import FeatureForwarding.Toml.Basic

/-! Dependency entries of a manifest. A bare version string carries no properties; tables
in either form are read alike, and nothing else declares a dependency. -/

namespace FeatureForwarding

open Toml (Key Item Value)

/-- The manifest knows a dependency by its key; `package` is what is depended on. `target`
is the configuration under which the entry applies. -/
structure Dependency where
  key : String
  package : String
  target : Option String
  optional : Bool
  defaultFeatures : Option Bool
  deriving DecidableEq, Inhabited

namespace Dependency

def ofFields (key : String) (target : Option String) (fields : List (Key × Item)) : Dependency where
  key
  package := ((Toml.find? "package" fields).bind Item.text?).getD key
  target
  optional := ((Toml.find? "optional" fields).bind Item.boolean?).getD false
  -- The spelling with an underscore counts only where the other one is absent.
  defaultFeatures :=
    (Toml.find? "default-features" fields <|> Toml.find? "default_features" fields).bind Item.boolean?

def ofItem? (target : Option String) (key : String) (item : Item) : Option Dependency :=
  match item.text?, item.tableLike? with
  | some _, _ => some ⟨key, key, target, false, none⟩
  | none, some fields => some (ofFields key target fields)
  | none, none => none

def ofEntries (target : Option String) (entries : List (Key × Item)) : List Dependency :=
  entries.filterMap fun (key, item) => ofItem? target key.name item

/-- Whether the entry opts out of the default features. -/
def disablesDefaults (d : Dependency) : Bool :=
  d.defaultFeatures == some false

end Dependency

end FeatureForwarding
