import WireSchema.Access
import WireSchema.CommandLine
import WireSchema.Decimal.Binary64
import WireSchema.Decimal.Shortest
import WireSchema.Directory
import WireSchema.Field.Arena
import WireSchema.Field.Basic
import WireSchema.Field.Completion
import WireSchema.Field.Declaration
import WireSchema.Field.Declaration.Composite
import WireSchema.Field.Declaration.Context
import WireSchema.Field.Declaration.Enumeration
import WireSchema.Field.Declaration.Indirect
import WireSchema.Field.Declaration.Number
import WireSchema.Field.Declaration.Sequence
import WireSchema.Field.Kind
import WireSchema.Field.Length
import WireSchema.Field.Reference
import WireSchema.Field.Storage
import WireSchema.Field.Validation
import WireSchema.Field.Value
import WireSchema.Finding.Finding
import WireSchema.Finding.Journal
import WireSchema.Finding.Pass
import WireSchema.Finding.SchemaError
import WireSchema.Frame
import WireSchema.Interface
import WireSchema.Literal.Flag
import WireSchema.Literal.Integer
import WireSchema.Literal.Name
import WireSchema.Literal.Octets
import WireSchema.Literal.Range
import WireSchema.Literal.Real
import WireSchema.Main
import WireSchema.Markup.Document
import WireSchema.Markup.Element
import WireSchema.Markup.Entity
import WireSchema.Markup.Fault
import WireSchema.Markup.Printer
import WireSchema.Markup.Props
import WireSchema.Markup.Token
import WireSchema.Message
import WireSchema.Namespace.Basic
import WireSchema.Namespace.Declaration
import WireSchema.Namespace.Traversal
import WireSchema.Namespace.Validation
import WireSchema.Schema.Basic
import WireSchema.Schema.Cycle
import WireSchema.Schema.Link
import WireSchema.Schema.Validation
import WireSchema.Session
import WireSchema.Text.Blank
import WireSchema.Text.Sorted
import WireSchema.Text.Split
import WireSchema.Version
import WireSchema.Proofs.Cycle.Cut
import WireSchema.Proofs.Namespace.Nesting
import WireSchema.Proofs.Schema.Linking
import WireSchema.Proofs.Literal.Path
import WireSchema.Proofs.Namespace.Lookup
import WireSchema.Proofs.Finding.Pass
import WireSchema.Proofs.Namespace.Growth
import WireSchema.Proofs.Namespace.Extension
import WireSchema.Proofs.Finding.Journal
import WireSchema.Proofs.Schema.Built
import WireSchema.Proofs.Schema.Binding
import WireSchema.Proofs.Session.Run
import WireSchema.Proofs.Session.References
import WireSchema.Proofs.Cycle.Rank
import WireSchema.Proofs.Cycle.Following
import WireSchema.Proofs.Schema.Following
import WireSchema.Proofs.Session.Verdict
import WireSchema.Proofs.Finding.Candid
import WireSchema.Proofs.Field.Checking
import WireSchema.Proofs.Schema.Checking
import WireSchema.Proofs.Session.Validation
import WireSchema.Proofs.Session.CommandLine
import WireSchema.Proofs.Text.Halving
import WireSchema.Proofs.Finding.Yield
import WireSchema.Proofs.Namespace.Paths
import WireSchema.Proofs.Namespace.Tidiness
import WireSchema.Proofs.Namespace.Parts
import WireSchema.Proofs.Schema.Order
import WireSchema.Proofs.Session.Lookup
import WireSchema.Proofs.Namespace.Upkeep
import WireSchema.Proofs.Field.Inside
import WireSchema.Proofs.Field.Sized
import WireSchema.Proofs.Schema.Fields
import WireSchema.Proofs.Field.Capped
import WireSchema.Proofs.Field.Exact
import WireSchema.Proofs.Field.Bounds
import WireSchema.Proofs.Schema.Lengths
import WireSchema.Proofs.Field.Turns
import WireSchema.Proofs.Schema.Places
import WireSchema.Proofs.Field.Members
import WireSchema.Proofs.Schema.Naming
import WireSchema.Proofs.Field.Passed
import WireSchema.Proofs.Schema.Passed
import WireSchema.Proofs.Field.Aliases
import WireSchema.Proofs.Schema.Aliases
import WireSchema.Proofs.Session.Aliases
import WireSchema.Proofs.Finding.Carry
import WireSchema.Proofs.Markup.Inheritance
import WireSchema.Proofs.Field.Alike
import WireSchema.Proofs.Field.AlikeInside
import WireSchema.Proofs.Field.Rereading
import WireSchema.Proofs.Namespace.Reuse
import WireSchema.Proofs.Namespace.OwnMembers
import WireSchema.Proofs.Field.Windows
import WireSchema.Proofs.Schema.Windows
import WireSchema.Proofs.Namespace.Attempts
import WireSchema.Proofs.Namespace.Messages
import WireSchema.Proofs.Namespace.Turns
import WireSchema.Proofs.Schema.Kinds
import WireSchema.Proofs.Schema.Numbering
import WireSchema.Proofs.Session.Kinds
import WireSchema.Proofs.Session.Messages
import WireSchema.Proofs.Session.Reuse
import WireSchema.Proofs.Session.Windows
import WireSchema.Proofs.Access.Log
import WireSchema.Proofs.Access.Run
import WireSchema.Proofs.Schema.Access
import WireSchema.Proofs.Field.BitMembers
import WireSchema.Proofs.Session.Bitfields
import WireSchema.Proofs.Session.Variants
import WireSchema.Proofs.Session.Roots
import WireSchema.Proofs.Field.Declared
import WireSchema.Proofs.Session.Strictness
import WireSchema.Proofs.Schema.Names
import WireSchema.Proofs.Session.Names
import WireSchema.Proofs.Schema.AliasNames
import WireSchema.Proofs.Session.AliasNames
import WireSchema.Proofs.Field.ReuseFree
import WireSchema.Proofs.Namespace.Entries
import WireSchema.Proofs.Namespace.Refusals
import WireSchema.Proofs.Namespace.Content
import WireSchema.Proofs.Namespace.Gains
import WireSchema.Proofs.Namespace.Splitting
import WireSchema.Proofs.Namespace.SameTree
import WireSchema.Proofs.Session.Documents
import WireSchema.Proofs.Session.Splitting
import WireSchema.Proofs.Access.Layers
import WireSchema.Proofs.Session.Sealing
import WireSchema.Proofs.Namespace.Omission
import WireSchema.Proofs.Session.Omission
import WireSchema.Proofs.Literal.Digits
import WireSchema.Proofs.Markup.Escaping
import WireSchema.Proofs.Markup.Scanning
import WireSchema.Proofs.Markup.Roundtrip
import WireSchema.Proofs.Field.Dependence
import WireSchema.Proofs.Finding.Ending
import WireSchema.Proofs.Frame.Composition
import WireSchema.Proofs.Field.BitfieldLengths
import WireSchema.Proofs.Field.Intervals
import WireSchema.Proofs.Field.Numbers
import WireSchema.Proofs.Markup.Overlays
import WireSchema.Proofs.Text.Distinct
import WireSchema.Proofs.Field.Tables
import WireSchema.Proofs.Field.SetBits
import WireSchema.Proofs.Session.Tables
import WireSchema.Proofs.Literal.Names
import WireSchema.Proofs.Literal.Numerals
import WireSchema.Proofs.Literal.Octets
import WireSchema.Proofs.Schema.DefaultMembers
import WireSchema.Proofs.Markup.References
import WireSchema.Proofs.Session.Platforms
import WireSchema.Proofs.Field.Leftovers
import WireSchema.Proofs.Namespace.Leftovers
import WireSchema.Proofs.Namespace.Visits
import WireSchema.Proofs.Session.Leftovers
import WireSchema.Proofs.Literal.Spellings
import WireSchema.Proofs.Field.Traversal
import WireSchema.Proofs.Namespace.Traversal
import WireSchema.Proofs.Schema.Traversal
import WireSchema.Proofs.Field.Serialisable
import WireSchema.Proofs.Session.Serialisable
import WireSchema.Proofs.Field.Lookups
import WireSchema.Proofs.Schema.InPlace
import WireSchema.Proofs.Finding.Refinement
import WireSchema.Proofs.Finding.Law
import WireSchema.Proofs.Field.Law
import WireSchema.Proofs.Field.Depth
import WireSchema.Proofs.Session.Ending
import WireSchema.Proofs.Schema.MessageIds
import WireSchema.Proofs.Finding.Unending
import WireSchema.Proofs.Field.Unending
import WireSchema.Proofs.Namespace.Unending
