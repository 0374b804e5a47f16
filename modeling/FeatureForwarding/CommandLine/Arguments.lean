import FeatureForwarding.CommandLine.Usage

/-! Reading arguments against the form of a command. A value that stands as an argument of its
own is taken in only when the next argument begins or the arguments end, so that of two
mistakes the one that is met first in this order counts. -/

namespace FeatureForwarding.CommandLine

/-- An option or operand whose value is not taken in yet. -/
structure Pending where
  name : String
  kind : ValueKind
  value : Option String

structure Reading where
  values : List (String × String) := []
  pending : Option Pending := none
  /-- Behind two hyphens every argument is an operand. -/
  onlyOperands : Bool := false
  hasOperand : Bool := false

namespace Reading

def value? (r : Reading) (name : String) : Option String :=
  (r.values.find? (·.1 = name)).map (·.2)

def has (r : Reading) (name : String) : Bool := (r.value? name).isSome

def store (r : Reading) (name : String) (kind : ValueKind) (value : String) : Except Refusal Reading :=
  if r.has name then .error .repeated
  else if !kind.admits value then .error .invalidValue
  else .ok { r with values := r.values ++ [(name, value)] }

/-- Takes in a value that was put off. -/
def settle (r : Reading) : Except Refusal Reading :=
  match r.pending with
  | none => .ok r
  | some p =>
    match p.value with
    | none => .error .invalidValue
    | some value => { r with pending := none }.store p.name p.kind value

def isAwaiting (r : Reading) : Bool := r.pending.any (·.value.isNone)

/-- An option with the value attached to it, if there is one. -/
def option (r : Reading) (form : OptionForm) (attached : Option String) : Except Refusal Reading :=
  match form.kind, attached with
  | .value kind, some value => r.settle.bind fun r => r.store form.name kind value
  | .value kind, none => r.settle.bind fun r => .ok { r with pending := some ⟨form.name, kind, none⟩ }
  | _, some _ => .error .unexpectedValue
  | .flag, none => r.settle.bind fun r => r.store form.name .text "true"
  | .help, none => r.settle.bind fun _ => .error .help
  | .version, none => r.settle.bind fun _ => .error .version

/-- A long option without its hyphens; an equals sign attaches the value. -/
def longOption (form : Form) (r : Reading) (cs : List Char) : Except Refusal Reading :=
  let name := String.ofList (cs.takeWhile (· != '='))
  let attached := match cs.dropWhile (· != '=') with
    | [] => none
    | _ :: value => some (String.ofList value)
  match form.options.find? (·.name = name) with
  | some option => r.option option attached
  | none => .error .unknownArgument

/-- Short options in a row; one with a value takes the rest as its value. -/
def shortOptions (form : Form) (r : Reading) : List Char → Except Refusal Reading
  | [] => .ok r
  | c :: cs =>
    match form.options.find? (·.short = some c) with
    | none => .error .unknownArgument
    | some option =>
      match option.kind, cs with
      | .value _, [] => r.option option none
      | .value _, '=' :: value => r.option option (some (String.ofList value))
      | .value _, value => r.option option (some (String.ofList value))
      | _, cs => (r.option option none).bind fun r => shortOptions form r cs

def operand (form : Form) (r : Reading) (value : String) : Except Refusal Reading :=
  match form.operand with
  | some name =>
    if r.hasOperand then .error .unknownArgument
    else r.settle.bind fun r =>
      .ok { r with pending := some ⟨name, .path, some value⟩, hasOperand := true }
  | none =>
    if r.onlyOperands && form.subcommands.contains value then .error .unknownArgument
    else .error .unknownSubcommand

/-- One argument that is no subcommand. -/
def argument (form : Form) (r : Reading) (arg : String) : Except Refusal Reading :=
  if r.onlyOperands then r.operand form arg
  else
    match arg.toList with
    | ['-', '-'] => .ok { r with onlyOperands := true }
    | '-' :: '-' :: cs => r.longOption form cs
    | '-' :: c :: cs => r.shortOptions form (c :: cs)
    | _ =>
      match r.pending with
      | some ⟨name, kind, none⟩ => .ok { r with pending := some ⟨name, kind, some arg⟩ }
      | _ => r.operand form arg

/-- Reads arguments up to a subcommand, which is returned with the arguments behind it. -/
def arguments (form : Form) (r : Reading) :
    List String → Except Refusal (Reading × Option (String × List String))
  | [] => .ok (r, none)
  | arg :: rest =>
    if !r.onlyOperands && !r.isAwaiting && form.subcommands.contains arg then .ok (r, some (arg, rest))
    else (r.argument form arg).bind fun r => arguments form r rest

/-- Variables of the environment stand in for options that were not given. -/
def environment (env : List (String × String)) (r : Reading) : List OptionForm → Except Refusal Reading
  | [] => .ok r
  | form :: rest =>
    let found := form.fallback.bind fun name => (env.find? (·.1 = name)).map (·.2)
    match form.kind, found with
    | .value kind, some value =>
      if r.has form.name then environment env r rest
      else (r.store form.name kind value).bind fun r => environment env r rest
    | _, _ => environment env r rest

/-- What is left to do once the arguments have ended. -/
def finish (form : Form) (env : List (String × String)) (r : Reading) : Except Refusal Reading := do
  let r ← r.settle
  let r ← environment env r form.options
  if form.operand.all r.has then .ok r else .error .missingOperand

end Reading

/-- The subcommand that was called and what was given to it and to the program. -/
structure Call where
  subcommand : String
  program : Reading
  given : Reading

/-- Help is asked for the program or for one of its subcommands. -/
def helpRefusal (topics : List String) : Refusal :=
  match topics with
  | [] => .help
  | [topic] => if programForm.subcommands.contains topic then .help else .unknownSubcommand
  | _ => .unknownSubcommand

/-- Mistakes behind the subcommand count before a value in front of it that was put off. -/
def Call.read (env : List (String × String)) (args : List String) : Except Refusal Call := do
  let (program, next) ← Reading.arguments programForm {} args
  match next with
  | none =>
    let program ← program.settle
    if program.values.isEmpty then .error .nothingAsked else .error .missingSubcommand
  | some (subcommand, rest) =>
    if subcommand = helpSubcommand then .error (helpRefusal rest)
    else
      let form := subcommandForm subcommand
      let (given, _) ← Reading.arguments form {} rest
      let given ← given.finish form env
      let program ← program.finish programForm env
      .ok ⟨subcommand, program, given⟩

end FeatureForwarding.CommandLine
