import WireSchema.Finding.Journal
import WireSchema.Markup.Document
import WireSchema.Schema.Link
import WireSchema.Schema.Validation

/-! # Sessions

A session takes documents, links and checks the schema once, and answers questions about it.
Everything that is found goes into the journal. After the check no document is taken, and the schema
stays as it is.

A document may declare a field whose reading has no end. Taking such a document has no end either:
`parseElement?` and the functions after it have no session then. Where they have one, it is that of
`parseElement`, which passes over such a field and leaves a mark.
-/

namespace WireSchema

open Markup

/-- What a caller asks for besides the documents. Without a choice, code depends on the version
where some interface has a field with it. -/
structure Config where
  forcedVersion : Option Nat
  minRemoteVersion : Nat
  versionDependentCode : Option Bool
  warnAsError : Bool

/-- The documents so far as a schema, the journal, and the result of the check once there is one. -/
structure Session where
  config : Config
  journal : Journal
  schema : Option Schema
  validated : Option Bool

namespace Session

/-- A session without documents. -/
def start (config : Config) : Session := ⟨config, .empty config.warnAsError, none, none⟩

/-- The session with a listener to its journal. -/
def listen (s : Session) : Session := { s with journal := s.journal.listen }

/-- The session with more findings. -/
def add (s : Session) (fs : List Finding) : Session := { s with journal := s.journal.addAll fs }

/-- The session with the reason for going no further at a line, and no success. -/
def refuse (s : Session) (line : Nat) (failure : Failure) : Session × Bool :=
  (s.add [⟨line, failure.cause⟩], false)

/-- Adds the content of a document to the schema. It succeeds if nothing in it is an error. -/
def addTo (s : Session) (schema : Schema) (root : Element) : Session × Bool :=
  let step := schema.addDocument root
  let after := { s with schema := some step.schema }.add step.findings
  (after, step.ok && after.journal.count .error == s.journal.count .error)

/-- Takes a document. -/
def parseElement (s : Session) (root : Element) : Session × Bool :=
  if s.validated.isSome then s.refuse root.line (.error .documentAfterValidation)
  else match s.schema with
    | some schema => s.addTo schema root
    | none =>
      let pass := Schema.read root
      let s := s.add pass.findings
      match pass.result with
      | .error failure => s.refuse root.line failure
      | .ok schema => s.addTo schema root

/-- Takes the text of a document; its findings are about the source `name`. -/
def parseNamed (s : Session) (name text : String) : Session × Bool :=
  let s := { s with journal := s.journal.withSource name }
  match Markup.parse text with
  | .error fault => s.refuse 0 (.error (.document fault))
  | .ok root => s.parseElement root

/-- Takes the text of a document that has no name. -/
def parse (s : Session) (text : String) : Session × Bool := s.parseNamed "<input>" text

/-- Takes a document from a file, if it can be read. -/
def parseFile (s : Session) (path : String) (content : Except FileFault String) : Session × Bool :=
  match content with
  | .ok text => s.parseNamed path text
  | .error fault => { s with journal := s.journal.withSource path }.refuse 0 (.error (.file fault))

/-! ### Documents without end -/

/-- What a call comes to: the session after it and its success; if it has no end, the journal with
what it reports before the reading that never ends. -/
abbrev Outcome := Except Journal (Session × Bool)

/-- `addTo`, unless some reading has no end. -/
def addTo? (s : Session) (schema : Schema) (root : Element) : Outcome :=
  let findings := (schema.addDocument root).findings
  if findings.any (·.isEndless) then
    .error (s.journal.addAll (findings.takeWhile fun f => !f.isEndless))
  else .ok (s.addTo schema root)

/-- `parseElement`, unless some reading has no end. -/
def parseElement? (s : Session) (root : Element) : Outcome :=
  if s.validated.isSome then .ok (s.refuse root.line (.error .documentAfterValidation))
  else match s.schema with
    | some schema => s.addTo? schema root
    | none =>
      let pass := Schema.read root
      let s := s.add pass.findings
      match pass.result with
      | .error failure => .ok (s.refuse root.line failure)
      | .ok schema => s.addTo? schema root

/-- `parseNamed`, unless some reading has no end. -/
def parseNamed? (s : Session) (name text : String) : Outcome :=
  let s := { s with journal := s.journal.withSource name }
  match Markup.parse text with
  | .error fault => .ok (s.refuse 0 (.error (.document fault)))
  | .ok root => s.parseElement? root

/-- `parse`, unless some reading has no end. -/
def parse? (s : Session) (text : String) : Outcome := s.parseNamed? "<input>" text

/-- `parseFile`, unless some reading has no end. -/
def parseFile? (s : Session) (path : String) (content : Except FileFault String) : Outcome :=
  match content with
  | .ok text => s.parseNamed? path text
  | .error _ => .ok (s.parseFile path content)

/-! ### The check -/

/-- Links and checks the schema. -/
def linkAndCheck (s : Session) (schema : Schema) : Session × Bool :=
  let linked := schema.link
  let s := { s with schema := some linked.1 }.add linked.2
  let dependent := s.config.versionDependentCode.getD linked.1.hasVersionField
  let pass := linked.1.check dependent
  let s := s.add pass.findings
  match pass.result with
  | .ok ok => (s, ok && !s.journal.hasErrors)
  | .error failure => s.refuse 0 failure

/-- What the check does when it is run for the first time. -/
def runValidation (s : Session) : Session × Bool :=
  match s.schema with
  | none => s.refuse 0 (.error .noSchema)
  | some schema =>
    match s.config.forcedVersion with
    | none => s.linkAndCheck schema
    | some forced =>
      if schema.version < forced then s.refuse 0 (.error (.forcedAboveSchema forced schema.version))
      else s.linkAndCheck schema

/-- Checks the schema. Later calls give the result of the first one. -/
def validate (s : Session) : Session × Bool :=
  match s.validated with
  | some result => (s, result)
  | none =>
    let r := s.runValidation
    ({ r.1 with validated := some r.2 }, r.2)

/-- The check was run and found no error. -/
def isValidated (s : Session) : Bool := s.validated == some true

/-- The gate that the caller asks for. -/
def gate (s : Session) : Gate :=
  ⟨s.config.forcedVersion.getD ((s.schema.map (·.version)).getD 0), s.config.minRemoteVersion⟩

/-- Code depends on the version. -/
def versionDependentCode (s : Session) : Bool :=
  s.config.versionDependentCode.getD (s.schema.any (·.hasVersionField))

/-- The place of the field with the path. -/
def findFieldId? (s : Session) (path : String) : Option FieldId :=
  s.schema.bind fun schema => schema.root.findField? path

/-- The field at a place. -/
def field? (s : Session) (id : FieldId) : Option Field :=
  s.schema.bind fun schema => schema.arena.get? id

/-- The field with the path. -/
def findField? (s : Session) (path : String) : Option Field := (s.findFieldId? path).bind s.field?

/-- The interface with the path. -/
def findInterface? (s : Session) (path : String) : Option Interface :=
  s.schema.bind fun schema => schema.root.findInterface? path

/-- The message with the path. -/
def findMessage? (s : Session) (path : String) : Option Message :=
  s.schema.bind fun schema => schema.root.findMessage? path

/-- The frame with the path. -/
def findFrame? (s : Session) (path : String) : Option Frame :=
  s.schema.bind fun schema => schema.root.findFrame? path

/-- The field with the id of messages. -/
def messageIdField? (s : Session) : Option Field :=
  s.schema.bind fun schema => (schema.root.messageIdField? schema.arena).bind schema.arena.get?

/-- Messages with numbers come first, in the order of these. -/
def idLe : Option Int → Option Int → Bool
  | some a, some b => a ≤ b
  | some _, none => true
  | none, some _ => false
  | none, none => true

/-- The messages that the gate admits in the order of their numbers; messages with the same number
keep their order. -/
def allMessages (s : Session) : List Message :=
  match s.schema with
  | none => []
  | some schema =>
    (schema.root.allMessages.filter fun m => s.gate.admits m.window).mergeSort
      fun a b => idLe a.id b.id

end Session

end WireSchema
