import FeatureForwarding.CommandLine.Invocation
import FeatureForwarding.Files.Edit

/-! The program. It loads the part of the file system that an invocation looks at into a tree,
plans on that tree, carries the plan out on the disk and prints what came of it. -/

namespace FeatureForwarding.Program

open Files (Path Tree Entry)
open CommandLine (Invocation Refusal Transcript)

def loadFile (p : Path) : IO Entry := do
  try
    return .file (.ofBytes (← IO.FS.readBinFile p.text))
  catch _ =>
    return .file (.binary [])

/-- Adds a directory and what is in it. Only manifests are read; links are not followed. -/
partial def loadDirectory (t : Tree) (p : Path) : IO Tree := do
  let mut t := t.attach p .directory
  for found in ← (← IO.FS.realPath p.text).readDir do
    let name := found.fileName
    let here := p.child name
    match (← found.path.symlinkMetadata).type with
    | .dir =>
      if Discovery.isSkippedDirectory name || !here.isUsable then t := t.attach here .directory
      else t ← loadDirectory t here
    | .file =>
      if Discovery.isManifestName name then t := t.attach here (← loadFile here)
      else t := t.attach here (.file (.text ""))
    | _ => t := t.attach here (.link "")
  return t

/-- Adds what a path leads to, if anything is there. -/
def load (t : Tree) (p : Path) : IO Tree := do
  if p.text.isEmpty then return t
  try
    match (← (← IO.FS.realPath p.text).metadata).type with
    | .dir => loadDirectory t p
    | .file => return t.attach p (← loadFile p)
    | _ => return t
  catch _ => return t

/-- What an operation reads. -/
def view : Operation → IO Tree
  | .check root options | .write root options | .save root _ options => do
    let t ← load .empty root
    match options.snapshot with
    | some path => load t path
    | none => return t
  | .lint root _ => load .empty root

/-- Writes a file by way of another one beside it, and returns what went wrong. -/
def store (p : Path) (content : String) : IO (Option String) := do
  let number ← IO.rand 0 999999999
  let temporary := p.directory.child (".forwardcheck-" ++ toString number)
  let explain (failure : Tree.WriteFailure) (cause : IO.Error) : Option String :=
    some (failure.message ++ ": " ++ cause.toString)
  try
    IO.FS.writeFile temporary.text content
  catch cause =>
    return explain (.temporary p.directory) cause
  try
    IO.FS.rename temporary.text p.text
    return none
  catch cause =>
    IO.FS.removeFile temporary.text
    return explain (.replacing p) cause

def performTask (task : Task) : IO Outcome := do
  match task.text with
  | none => return task.outcome none
  | some text => return task.outcome (← store task.path text)

def perform (plan : Plan) : IO (Except Failure Report) := do
  let report := plan.reportWith (← plan.tasks.mapM performTask)
  match plan.snapshot with
  | none => return .ok report
  | some (path, text) =>
    match ← store path text with
    | none => return .ok report
    | some cause => return .error (.writing path cause)

def transcript (invocation : Invocation) : IO Transcript := do
  match invocation.request.operation with
  | .error unknown => return .ofFailure unknown.listMessage
  | .ok operation =>
    match operation.plan (← view operation) with
    | .error failure => return .ofFailure failure.message
    | .ok plan =>
      match ← perform plan with
      | .error failure => return .ofFailure failure.message
      | .ok report => return invocation.transcript report

def refuse (refusal : Refusal) : IO Unit :=
  match refusal with
  | .help => IO.println CommandLine.helpText
  | .version => IO.println CommandLine.versionText
  | .nothingAsked => IO.eprintln CommandLine.helpText
  | refusal => IO.eprintln s!"error: {refusal.message}"

/-- The variables that stand in for options. -/
def environment : IO (List (String × String)) := do
  let mut found := []
  for name in (CommandLine.checkOptions ++ CommandLine.lintOptions).filterMap (·.fallback) do
    if let some value ← IO.getEnv name then found := found ++ [(name, value)]
  return found

end FeatureForwarding.Program

open FeatureForwarding in
def main (args : List String) : IO UInt32 := do
  match CommandLine.Invocation.read (← Program.environment) args with
  | .error refusal =>
    Program.refuse refusal
    return refusal.exitCode.toUInt32
  | .ok invocation =>
    let transcript ← Program.transcript invocation
    IO.print transcript.standardOutput
    for line in transcript.errorLines do IO.eprintln line
    return transcript.exitCode.toUInt32
