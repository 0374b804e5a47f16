import FeatureForwarding.Text.Words

/-! Capability switches: the three features that a package without the standard
library hands on to its dependencies. Every other feature is of no concern to
the checks. -/

namespace FeatureForwarding

inductive Switch where
  | std
  | runtimeBenchmarks
  | tryRuntime
  deriving DecidableEq, Inhabited

namespace Switch

/-- Every switch, in the order of reports. -/
def all : List Switch := [.std, .runtimeBenchmarks, .tryRuntime]

def name : Switch → String
  | .std => "std"
  | .runtimeBenchmarks => "runtime-benchmarks"
  | .tryRuntime => "try-runtime"

def ofName? (name : String) : Option Switch :=
  all.find? (·.name = name)

@[simp] theorem ofName?_name (s : Switch) : ofName? s.name = some s := by cases s <;> rfl

@[simp] theorem name_inj {s s' : Switch} : s.name = s'.name ↔ s = s' := by
  cases s <;> cases s' <;> decide

/-- The feature entry that hands the switch on to a dependency. -/
def token (s : Switch) (dependency : String) : String :=
  dependency ++ "/" ++ s.name

/-- A name that is none of the switches. -/
structure Unknown where
  name : String
  deriving DecidableEq

namespace Unknown

def message (u : Unknown) : String :=
  s!"unknown capability switch '{u.name}'"

/-- Where a list of switches was given, the message says what could stand in it. -/
def listMessage (u : Unknown) : String :=
  u.message ++ " (expected one of: " ++ ", ".intercalate (all.map Switch.name) ++ ")"

end Unknown

def read (name : String) : Except Unknown Switch :=
  match ofName? name with
  | some s => .ok s
  | none => .error ⟨name⟩

/-- Reads names in order and keeps the first occurrence of each switch. -/
def readNamesFrom (found : List Switch) : List String → Except Unknown (List Switch)
  | [] => .ok found
  | name :: names =>
    match read name with
    | .error unknown => .error unknown
    | .ok s => readNamesFrom (if s ∈ found then found else found ++ [s]) names

/-- A list of switch names; one without any name stands for every switch. -/
def readList (text : String) : Except Unknown (List Switch) :=
  match readNamesFrom [] (Text.words text) with
  | .ok [] => .ok all
  | answer => answer

end Switch

end FeatureForwarding
