import ShaderPack.Binding.Basic
import ShaderPack.Binding.Kind
import ShaderPack.Binding.Table
import ShaderPack.Bytes
import ShaderPack.Compilation.Basic
import ShaderPack.Compilation.Files
import ShaderPack.Compilation.State
import ShaderPack.Dialect
import ShaderPack.Failure
import ShaderPack.FileTree.Action
import ShaderPack.FileTree.Basic
import ShaderPack.FileTree.Path
import ShaderPack.FileTree.Save
import ShaderPack.Journal.Calendar
import ShaderPack.Journal.Console
import ShaderPack.Journal.Entry
import ShaderPack.Journal.Event
import ShaderPack.Journal.Logger
import ShaderPack.Pack.Basic
import ShaderPack.Pack.Decode
import ShaderPack.Pack.Deliver
import ShaderPack.Pack.Encode
import ShaderPack.Pack.Fault
import ShaderPack.Proofs.Bytes
import ShaderPack.Proofs.Compilation.Course
import ShaderPack.Proofs.Compilation.Frame
import ShaderPack.Proofs.Compilation.Interruption
import ShaderPack.Proofs.Compilation.Outputs
import ShaderPack.Proofs.FileTree.Actions
import ShaderPack.Proofs.FileTree.Interruption
import ShaderPack.Proofs.FileTree.Paths
import ShaderPack.Proofs.FileTree.Saving
import ShaderPack.Proofs.Pack.Canonical
import ShaderPack.Proofs.Pack.Reading
import ShaderPack.Proofs.Pack.RoundTrip
import ShaderPack.Proofs.Recovery.ArraySize
import ShaderPack.Proofs.Recovery.EntryTextures
import ShaderPack.Proofs.Recovery.HeaderGrammar
import ShaderPack.Proofs.Recovery.HeaderReach
import ShaderPack.Proofs.Recovery.HeaderRewriting
import ShaderPack.Proofs.Recovery.HeaderScan
import ShaderPack.Proofs.Recovery.HeaderText
import ShaderPack.Proofs.Recovery.ModernizedHeader
import ShaderPack.Proofs.Recovery.StructAndEntry
import ShaderPack.Proofs.Recovery.StructFields
import ShaderPack.Proofs.Sequence
import ShaderPack.Proofs.Source.Identifiers
import ShaderPack.Proofs.Source.Modernize
import ShaderPack.Proofs.Text.Occurrences
import ShaderPack.Proofs.Text.Trimming
import ShaderPack.Proofs.Text.WordWise
import ShaderPack.Proofs.Text.Words
import ShaderPack.Recovery
import ShaderPack.Recovery.ArraySize
import ShaderPack.Recovery.EntryTextures
import ShaderPack.Recovery.Findings
import ShaderPack.Recovery.Header
import ShaderPack.Recovery.Malformed
import ShaderPack.Recovery.StructFields
import ShaderPack.Rejection.Basic
import ShaderPack.Rejection.Excerpt
import ShaderPack.Source.Directives
import ShaderPack.Source.Modernize
import ShaderPack.Stage
import ShaderPack.Text.Basic
import ShaderPack.Text.Blank
import ShaderPack.Text.Cursor
import ShaderPack.Text.Decimal
import ShaderPack.Text.Lines
import ShaderPack.Text.Replace
import ShaderPack.Writer.Basic
import ShaderPack.Writer.Script
import ShaderPack.Proofs.Pack.PrefixFree
import ShaderPack.Proofs.Compilation.History
import ShaderPack.Proofs.Compilation.Independence
import ShaderPack.Proofs.Recovery.Bytewise
import ShaderPack.Proofs.Recovery.SafeSearches
import ShaderPack.Proofs.Writer.Delivery
import ShaderPack.Proofs.Compilation.Messages
import ShaderPack.Proofs.Recovery.Surroundings
import ShaderPack.Proofs.Recovery.HeaderGrowth
import ShaderPack.Proofs.Recovery.HeaderSpans
import ShaderPack.Proofs.Text.Division
import ShaderPack.Proofs.Recovery.Coverage
import ShaderPack.Proofs.Recovery.FieldTexts
import ShaderPack.Proofs.Recovery.AnnotationTexts
import ShaderPack.Proofs.Recovery.Completeness
import ShaderPack.Proofs.Recovery.Names
import ShaderPack.Proofs.Recovery.Registers
import ShaderPack.Proofs.Source.LeadingLines
import ShaderPack.Proofs.Compilation.HeaderFront
import ShaderPack.Proofs.Text.OnePass
import ShaderPack.Proofs.Source.Precisions
import ShaderPack.Proofs.Pack.Offsets
import ShaderPack.Proofs.Writer.Moments
import ShaderPack.Proofs.Pack.Delivery
import ShaderPack.Proofs.Rejection.Places
import ShaderPack.Proofs.Rejection.Counting
import ShaderPack.Proofs.Rejection.Excerpt
import ShaderPack.Proofs.Rejection.Caret
import ShaderPack.Proofs.Recovery.Entries
import ShaderPack.Proofs.Source.Directives
import ShaderPack.Proofs.Text.Reading
