import WireSchema.Session

/-! # The command line

`check` takes the arguments and a way to read files, and says what is printed and the exit code. The
options may stand anywhere among the names of files; each is looked for once. A run that comes to a
field whose reading has no end prints nothing and is aborted.
-/

namespace WireSchema.CommandLine

/-- What a run prints, and its exit code. -/
structure Output where
  code : Nat
  stdout : String
  stderr : String
  deriving DecidableEq, Repr

/-- Why a text is no version number. -/
inductive NumberFault
  | empty | invalidDigit | tooLarge
  deriving DecidableEq, Repr

/-- The fault as it is printed. -/
def NumberFault.message : NumberFault → String
  | .empty => "cannot parse integer from empty string"
  | .invalidDigit => "invalid digit found in string"
  | .tooLarge => "number too large to fit in target type"

/-- Why the arguments are refused. -/
inductive UsageFault
  | missingValue (option : String)
  | badVersion (option value : String) (cause : NumberFault)
  | noFile
  deriving DecidableEq, Repr

/-- The fault as it is printed. -/
def UsageFault.message : UsageFault → String
  | .missingValue option => s!"Error: {option} requires a value\n"
  | .badVersion option value cause =>
    s!"Error: {option}: invalid version \"{value}\"\n\nCaused by:\n    {cause.message}\n"
  | .noFile =>
    "Error: usage: check_schema [--warn-as-err] [--force-version N] [--min-remote-version N] " ++
      "FILE...\n"

/-- The number whose digits follow those of `acc`; the first digit that is none, or that leads
beyond 32 bits, is the fault. -/
def versionFrom (acc : Nat) : List Char → Except NumberFault Nat
  | [] => .ok acc
  | c :: cs =>
    match Literal.digit? 10 c with
    | none => .error .invalidDigit
    | some d =>
      if acc * 10 + d < Literal.word32Limit then versionFrom (acc * 10 + d) cs
      else .error .tooLarge

/-- A version: decimal digits, which may begin with a plus sign. -/
def readVersion (s : String) : Except NumberFault Nat :=
  match s.toList with
  | [] => .error .empty
  | ['+'] => .error .invalidDigit
  | '+' :: cs => versionFrom 0 cs
  | cs => versionFrom 0 cs

/-- Whether the option is among the arguments, and the others. -/
def takeFlag (option : String) (args : List String) : Bool × List String :=
  (args.contains option, args.erase option)

/-- The version after the first occurrence of the option, and the other arguments. -/
def takeVersion (option : String) :
    List String → Except UsageFault (Option Nat × List String)
  | [] => .ok (none, [])
  | arg :: args =>
    if arg == option then
      match args with
      | [] => .error (.missingValue option)
      | value :: args =>
        match readVersion value with
        | .ok n => .ok (some n, args)
        | .error cause => .error (.badVersion option value cause)
    else (takeVersion option args).map fun r => (r.1, arg :: r.2)

/-- The files to check and what is asked for. -/
structure Request where
  files : List String
  config : Config

/-- Reads the arguments. -/
def readArgs (args : List String) : Except UsageFault Request := do
  let (warnAsError, args) := takeFlag "--warn-as-err" args
  let (forcedVersion, args) ← takeVersion "--force-version" args
  let (minRemoteVersion, files) ← takeVersion "--min-remote-version" args
  if files.isEmpty then throw .noFile
  return { files
           config :=
             { forcedVersion, minRemoteVersion := minRemoteVersion.getD 0,
               versionDependentCode := none, warnAsError } }

/-- Takes the files in order, also after one that is refused; the flag says that none was. -/
def takeFiles (read : String → Except FileFault String) (s : Session) :
    List String → Session.Outcome
  | [] => .ok (s, true)
  | path :: paths => do
    let r ← s.parseFile? path (read path)
    let rest ← takeFiles read r.1 paths
    return (rest.1, r.2 && rest.2)

/-- The line that a diagnostic is printed as; only warnings and errors are. -/
def diagnosticLine (d : Diagnostic) : String :=
  let level := d.severity.word
  match d.severity with
  | .debug => ""
  | .info => ""
  | _ =>
    if d.line > 0 then s!"{d.source}:{d.line}: {level}: {d.message}\n"
    else s!"{d.source}: {level}: {d.message}\n"

/-- The line with the numbers of errors and warnings, if there are any. -/
def countLine (errors warnings : Nat) : String :=
  if errors == 0 && warnings == 0 then ""
  else s!"check_schema: {errors} error(s), {warnings} warning(s)\n"

/-- The line about a schema without errors. -/
def summaryLine (files : List String) (s : Session) : String :=
  match s.schema with
  | none => ""
  | some schema =>
    let names := ", ".intercalate files
    let count := s.allMessages.length
    s!"{names}: schema \"{schema.name}\" version {schema.version}, {count} message(s)\n"

/-- Takes the files of a request, and checks the schema if none was refused. -/
def takeAndCheck (request : Request) (read : String → Except FileFault String) :
    Session.Outcome := do
  let (s, taken) ← takeFiles read (.start request.config) request.files
  return if taken then s.validate else (s, false)

/-- What a run prints that ends with the session. -/
def report (files : List String) (s : Session) (ok : Bool) : Output :=
  let counts := countLine (s.journal.count .error) (s.journal.count .warning)
  { code := if ok then 0 else 1
    stdout := String.join (s.journal.diagnostics.toList.map diagnosticLine)
    stderr := if ok then counts ++ summaryLine files s else counts }

/-- Checks the files of a request. -/
def run (request : Request) (read : String → Except FileFault String) : Except Journal Output := do
  let (s, ok) ← takeAndCheck request read
  return report request.files s ok

/-- What the program does with its arguments, if it comes to an end. -/
def check (args : List String) (read : String → Except FileFault String) :
    Except Journal Output :=
  match readArgs args with
  | .error fault => .ok ⟨1, "", fault.message⟩
  | .ok request => run request read

/-- The exit code of the program. A run without end is aborted, since it uses up the stack. -/
def exitCode : Except Journal Output → Nat
  | .ok output => output.code
  | .error _ => 134

end WireSchema.CommandLine
