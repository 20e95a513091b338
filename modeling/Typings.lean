import Typings.Bookkeeping
import Typings.Command
import Typings.Compiled.Access
import Typings.Compiled.Basic
import Typings.Compiled.Struct
import Typings.Declaration
import Typings.Dispatcher.Head
import Typings.Dispatcher.Symbol
import Typings.Download.Cache
import Typings.Download.Documents
import Typings.Event
import Typings.Fault
import Typings.Files.Location
import Typings.Files.Store
import Typings.ImportPaths
import Typings.Json.Basic
import Typings.Json.Inspect
import Typings.Json.Numeral
import Typings.Json.Reader
import Typings.Json.Writer
import Typings.Main
import Typings.Number.Binary64
import Typings.Number.Shortest
import Typings.Number.Value
import Typings.Output.Draft
import Typings.Output.Drafts
import Typings.Output.Module
import Typings.Override
import Typings.Ownership
import Typings.Plan.Basic
import Typings.Plan.Compile
import Typings.Plan.OfSchema
import Typings.Proofs.Address
import Typings.Proofs.Agreement
import Typings.Proofs.Bounds
import Typings.Proofs.CacheCoherence
import Typings.Proofs.CacheNames
import Typings.Proofs.Capture
import Typings.Proofs.Cases
import Typings.Proofs.ClosedAliases
import Typings.Proofs.Closing
import Typings.Proofs.Compilation
import Typings.Proofs.Composition
import Typings.Proofs.Conformance
import Typings.Proofs.Counting
import Typings.Proofs.Declarations
import Typings.Proofs.DeclaredNames
import Typings.Proofs.Discriminator
import Typings.Proofs.DocComments
import Typings.Proofs.Dominance
import Typings.Proofs.Emission
import Typings.Proofs.Erasure
import Typings.Proofs.FieldOrder
import Typings.Proofs.Finished
import Typings.Proofs.Frames
import Typings.Proofs.GuardedAccess
import Typings.Proofs.History
import Typings.Proofs.Homes
import Typings.Proofs.ImportEdits
import Typings.Proofs.ImportPaths
import Typings.Proofs.ImportsExact
import Typings.Proofs.ImportsResolve
import Typings.Proofs.Independence
import Typings.Proofs.IndexArity
import Typings.Proofs.Inlining
import Typings.Proofs.Landing
import Typings.Proofs.Layout
import Typings.Proofs.Leaves
import Typings.Proofs.LoadFaults
import Typings.Proofs.MemberParams
import Typings.Proofs.ModuleFiles
import Typings.Proofs.Names
import Typings.Proofs.NumberLiterals
import Typings.Proofs.NumberRanges
import Typings.Proofs.Occurrence
import Typings.Proofs.Outcome
import Typings.Proofs.Paths
import Typings.Proofs.PhaseOrder
import Typings.Proofs.Placement
import Typings.Proofs.PropertyKeys
import Typings.Proofs.Reading
import Typings.Proofs.Record
import Typings.Proofs.ReferenceWalk
import Typings.Proofs.References
import Typings.Proofs.ReferencesResolve
import Typings.Proofs.Refusals
import Typings.Proofs.RegistryIndex
import Typings.Proofs.Reordering
import Typings.Proofs.Requests
import Typings.Proofs.Root
import Typings.Proofs.Rounding
import Typings.Proofs.ShortestText
import Typings.Proofs.Site
import Typings.Proofs.Steps
import Typings.Proofs.Stores
import Typings.Proofs.StringLiterals
import Typings.Proofs.SymbolPath
import Typings.Proofs.TableOrder
import Typings.Proofs.Tables
import Typings.Proofs.Unambiguous
import Typings.Proofs.Validation
import Typings.Proofs.WholeRanges
import Typings.Proofs.WireFormat
import Typings.RangeEncoding
import Typings.Registry
import Typings.Resources
import Typings.Run
import Typings.Schema.AttributeShape
import Typings.Schema.Basic
import Typings.Schema.Loader
import Typings.Schema.Node
import Typings.Schema.References
import Typings.Session
import Typings.SymbolPath
import Typings.Table
import Typings.Text.Base64
import Typings.Text.Blank
import Typings.Text.Digit
import Typings.Text.Encoding
import Typings.Text.Inspected
import Typings.Text.Newline
import Typings.Text.Printable
import Typings.Text.Quoted
import Typings.Text.Split
import Typings.Text.Uppercase
import Typings.TypeExpr.Basic
import Typings.TypeExpr.Docs
import Typings.TypeExpr.Naming
import Typings.TypeExpr.Printer
