/-! The form of the command line: one of four subcommands with its options and one operand.
Option values come attached or as the next argument; an argument with a hyphen in front is
never taken as a value unless it is attached. -/

namespace FeatureForwarding.CommandLine

/-- What a value may be. -/
inductive ValueKind where
  | text
  /-- A path is never empty. -/
  | path
  | choice (names : List String)
  deriving DecidableEq, Inhabited

def ValueKind.admits (value : String) : ValueKind → Bool
  | .text => true
  | .path => !value.isEmpty
  | .choice names => names.contains value

inductive OptionKind where
  | flag
  | value (kind : ValueKind)
  | help
  | version
  deriving DecidableEq, Inhabited

/-- An option is known by its long name. `fallback` names the environment variable that
stands in for it. -/
structure OptionForm where
  name : String
  kind : OptionKind
  short : Option Char := none
  fallback : Option String := none
  deriving DecidableEq, Inhabited

/-- A command takes either one of its subcommands or, if `operand` names one, a path. -/
structure Form where
  options : List OptionForm
  operand : Option String := none
  subcommands : List String := []
  deriving DecidableEq, Inhabited

def pathOperand : String := "path"

def formatOption : OptionForm := { name := "format", kind := .value (.choice ["text", "json"]) }

def helpOption : OptionForm := { name := "help", kind := .help, short := some 'h' }

def versionOption : OptionForm := { name := "version", kind := .version, short := some 'V' }

def helpSubcommand : String := "help"

/-- The program itself. -/
def programForm : Form where
  options := [formatOption, helpOption, versionOption]
  subcommands := ["check", "write", "save", "lint", helpSubcommand]

def checkOptions : List OptionForm :=
  [{ name := "package", kind := .value .text },
    { name := "features", kind := .value .text },
    { name := "registry", kind := .value .path, fallback := some "FORWARDCHECK_REGISTRY" },
    { name := "registry-only", kind := .flag },
    { name := "deny", kind := .flag }]

def saveOptions : List OptionForm :=
  [{ name := "output", kind := .value .path, short := some 'o' }]

def lintOptions : List OptionForm :=
  [{ name := "edition", kind := .value .text, fallback := some "FORWARDCHECK_EDITION" },
    { name := "homepage", kind := .value .text, fallback := some "FORWARDCHECK_HOMEPAGE" }]

def formWith (options : List OptionForm) : Form where
  options := options ++ [formatOption, helpOption]
  operand := some pathOperand

def subcommandForm (name : String) : Form :=
  formWith
    (if name = "save" then saveOptions
    else if name = "lint" then lintOptions
    else checkOptions)

/-- Why arguments are not carried out. Requests for help are among the reasons. -/
inductive Refusal where
  | help
  | version
  | nothingAsked
  | missingSubcommand
  | unknownSubcommand
  | unknownArgument
  | invalidValue
  | unexpectedValue
  | repeated
  | missingOperand
  deriving DecidableEq, Inhabited

namespace Refusal

def kind : Refusal → String
  | .help => "DisplayHelp"
  | .version => "DisplayVersion"
  | .nothingAsked => "DisplayHelpOnMissingArgumentOrSubcommand"
  | .missingSubcommand => "MissingSubcommand"
  | .unknownSubcommand => "InvalidSubcommand"
  | .unknownArgument => "UnknownArgument"
  | .invalidValue => "InvalidValue"
  | .unexpectedValue => "TooManyValues"
  | .repeated => "ArgumentConflict"
  | .missingOperand => "MissingRequiredArgument"

def message : Refusal → String
  | .help => ""
  | .version => ""
  | .nothingAsked => "a subcommand is required"
  | .missingSubcommand => "a subcommand is required"
  | .unknownSubcommand => "unrecognized subcommand"
  | .unknownArgument => "unexpected argument"
  | .invalidValue => "invalid or missing value for an option"
  | .unexpectedValue => "unexpected value for a flag"
  | .repeated => "an option was given more than once"
  | .missingOperand => "the path is missing"

def exitCode : Refusal → Nat
  | .help | .version => 0
  | _ => 2

end Refusal

def versionText : String := "forwardcheck 0.1.0"

def helpText : String :=
  "Usage: forwardcheck [--format text|json] <COMMAND> <PATH> [OPTIONS]\n\n"
    ++ "Commands:\n"
    ++ "  check  Find missing feature forwarding in the manifests under a path\n"
    ++ "  write  Add missing feature forwarding and write manifests back\n"
    ++ "  save   Save the registry built from a workspace to a JSON snapshot\n"
    ++ "  lint   Sort dependencies and features and set standard package fields\n\n"
    ++ "Options of check and write:\n"
    ++ "  --package <PACKAGE>    Only check the manifest defining this package\n"
    ++ "  --features <FEATURES>  Comma-separated switches to check\n"
    ++ "  --registry <REGISTRY>  Registry snapshot to seed knowledge from\n"
    ++ "  --registry-only        Use only the snapshot\n"
    ++ "  --deny                 Exit with status 2 when error findings remain\n\n"
    ++ "Options of save:\n"
    ++ "  -o, --output <OUTPUT>  Where to write the snapshot\n\n"
    ++ "Options of lint:\n"
    ++ "  --edition <EDITION>    Edition written into every package\n"
    ++ "  --homepage <HOMEPAGE>  Homepage written into every package"

end FeatureForwarding.CommandLine
