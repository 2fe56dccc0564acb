import WireSchema.Finding.Finding

/-! # The journal

The journal keeps every diagnostic with the source it was found in, counts errors and warnings, and
passes the text of each diagnostic on to a listener. A journal that takes warnings as errors does so
as it writes them down.
-/

namespace WireSchema

/-- How grave a diagnostic is. -/
inductive Severity
  | debug | info | warning | error
  deriving DecidableEq, Repr

/-- The severity as it is printed. -/
def Severity.word : Severity → String
  | .debug => "debug"
  | .info => "info"
  | .warning => "warning"
  | .error => "error"

/-- A message with its place; line 0 is the source as a whole. -/
structure Diagnostic where
  severity : Severity
  source : String
  line : Nat
  message : String
  deriving DecidableEq, Repr

/-- The source, the line if there is one, and the message. -/
def Diagnostic.text (d : Diagnostic) : String :=
  if d.line > 0 then s!"{d.source}:{d.line}: {d.message}" else s!"{d.source}: {d.message}"

/-- Diagnostics in the order they were reported, and what a listener received. -/
structure Journal where
  source : String
  warnAsError : Bool
  diagnostics : Array Diagnostic
  heard : Option (Array (Severity × String))

namespace Journal

/-- A journal without entries, source or listener. -/
def empty (warnAsError : Bool) : Journal := ⟨"", warnAsError, #[], none⟩

/-- The journal with a listener, which has received nothing yet. -/
def listen (j : Journal) : Journal := { j with heard := some #[] }

/-- The journal for diagnostics of another source. -/
def withSource (j : Journal) (source : String) : Journal := { j with source := source }

/-- The severity that a diagnostic is written down with. -/
def promote (j : Journal) (severity : Severity) : Severity :=
  if j.warnAsError && severity == .warning then .error else severity

/-- The journal with one more diagnostic. -/
def report (j : Journal) (severity : Severity) (line : Nat) (message : String) : Journal :=
  let d : Diagnostic := ⟨j.promote severity, j.source, line, message⟩
  { j with
    diagnostics := j.diagnostics.push d
    heard := j.heard.map (·.push (d.severity, d.text)) }

/-- The journal with a finding. -/
def add (j : Journal) (f : Finding) : Journal :=
  j.report (if f.isError then .error else .warning) f.line f.message

/-- The journal with findings in their order. -/
def addAll (j : Journal) (fs : List Finding) : Journal := fs.foldl add j

/-- The number of diagnostics with the severity. -/
def count (j : Journal) (severity : Severity) : Nat :=
  j.diagnostics.countP (·.severity == severity)

/-- Some diagnostic is an error. -/
def hasErrors (j : Journal) : Bool := j.count .error > 0

/-- The journal without its diagnostics. -/
def clear (j : Journal) : Journal := { j with diagnostics := #[] }

end Journal

end WireSchema
