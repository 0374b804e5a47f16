import FeatureForwarding.Run.Plan

/-! Runs on a file tree. The texts of a plan are written one after the other; a manifest that
cannot be written is reported and the run goes on, but a snapshot that cannot be written ends
it. A run that fails leaves the tree as it was. -/

namespace FeatureForwarding

open Files (Path Tree)

inductive Operation where
  | check (root : Path) (options : Options)
  | write (root : Path) (options : Options)
  | save (root output : Path) (options : Options)
  | lint (root : Path) (standards : Standards)
  deriving DecidableEq, Inhabited

namespace Task

/-- The outcome of a task whose text, if there is one to write, was stored or not. -/
def outcome (task : Task) (stored : Option String) : Outcome :=
  if task.isSkipped then .skippedCommented
  else if task.text.isNone then .unchanged
  else
    match stored with
    | none => .written
    | some message => .failed message

def perform (task : Task) (t : Tree) : Outcome × Tree :=
  match task.text with
  | none => (task.outcome none, t)
  | some text =>
    match t.write task.path text with
    | .ok t => (task.outcome none, t)
    | .error cause => (task.outcome (some cause.message), t)

def performAll : List Task → Tree → List Outcome × Tree
  | [], t => ([], t)
  | task :: rest, t =>
    let (outcome, t) := task.perform t
    let (outcomes, t) := performAll rest t
    (outcome :: outcomes, t)

end Task

namespace Plan

/-- The tree is the one that the plan was made for. -/
def perform (plan : Plan) (t : Tree) : Except Failure (Report × Tree) :=
  let (outcomes, t) := Task.performAll plan.tasks t
  let report := plan.reportWith outcomes
  match plan.snapshot with
  | none => .ok (report, t)
  | some (path, text) =>
    match t.write path text with
    | .ok t => .ok (report, t)
    | .error cause => .error (.writing path cause.message)

end Plan

namespace Operation

def plan (operation : Operation) (t : Tree) : Except Failure Plan :=
  match operation with
  | .check root options => Plan.check t root options
  | .write root options => Plan.write t root options
  | .save root output options => Plan.save t root output options
  | .lint root standards => Plan.lint t root standards

def run (operation : Operation) (t : Tree) : Except Failure (Report × Tree) := do
  let plan ← operation.plan t
  plan.perform t

/-- The tree after a run. -/
def treeAfter (operation : Operation) (t : Tree) : Tree :=
  match operation.run t with
  | .ok (_, t) => t
  | .error _ => t

end Operation

end FeatureForwarding
