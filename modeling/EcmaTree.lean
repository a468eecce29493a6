import EcmaTree.Estree.LoadError
import EcmaTree.Estree.Loader
import EcmaTree.Estree.Node
import EcmaTree.Estree.NodeType
import EcmaTree.Evaluation.ArrayMethods
import EcmaTree.Evaluation.Calls
import EcmaTree.Evaluation.Error
import EcmaTree.Evaluation.Expressions
import EcmaTree.Evaluation.Host
import EcmaTree.Evaluation.HostCode
import EcmaTree.Evaluation.Indices
import EcmaTree.Evaluation.Level
import EcmaTree.Evaluation.Loops
import EcmaTree.Evaluation.Members
import EcmaTree.Evaluation.Operators
import EcmaTree.Evaluation.Programs
import EcmaTree.Evaluation.State
import EcmaTree.Evaluation.Statements
import EcmaTree.Evaluation.Targets
import EcmaTree.Evaluation.TextMethods
import EcmaTree.Heap.Accounting
import EcmaTree.Heap.Basic
import EcmaTree.Heap.Builtin
import EcmaTree.Heap.Collector
import EcmaTree.Heap.Conversion
import EcmaTree.Heap.Frame
import EcmaTree.Heap.JsonTree
import EcmaTree.Heap.Reference
import EcmaTree.Heap.Scope
import EcmaTree.Heap.Snapshot
import EcmaTree.Heap.Store
import EcmaTree.Heap.Value
import EcmaTree.Json.Fault
import EcmaTree.Json.Parser
import EcmaTree.Json.Printer
import EcmaTree.Json.Tree
import EcmaTree.Number.Arithmetic
import EcmaTree.Number.Basic
import EcmaTree.Number.Decimal
import EcmaTree.Number.Numeral
import EcmaTree.Number.Reading
import EcmaTree.OrderedMap
import EcmaTree.Proofs.Activations
import EcmaTree.Proofs.Alike.Calls
import EcmaTree.Proofs.Alike.Evaluation
import EcmaTree.Proofs.Alike.Expressions
import EcmaTree.Proofs.Alike.Heap
import EcmaTree.Proofs.Alike.Host
import EcmaTree.Proofs.Alike.Identity
import EcmaTree.Proofs.Alike.Level
import EcmaTree.Proofs.Alike.Loops
import EcmaTree.Proofs.Alike.Making
import EcmaTree.Proofs.Alike.Members
import EcmaTree.Proofs.Alike.Methods
import EcmaTree.Proofs.Alike.Reading
import EcmaTree.Proofs.Alike.Sessions
import EcmaTree.Proofs.Alike.Showing
import EcmaTree.Proofs.Alike.State
import EcmaTree.Proofs.Alike.Statements
import EcmaTree.Proofs.Alike.Steps
import EcmaTree.Proofs.Alike.Tree
import EcmaTree.Proofs.Assignments
import EcmaTree.Proofs.CallDepth
import EcmaTree.Proofs.Callbacks
import EcmaTree.Proofs.Calling
import EcmaTree.Proofs.CompoundAssignments
import EcmaTree.Proofs.Coupling.Basic
import EcmaTree.Proofs.Coupling.Expressions
import EcmaTree.Proofs.Coupling.Level
import EcmaTree.Proofs.Coupling.Methods
import EcmaTree.Proofs.Coupling.Resembling
import EcmaTree.Proofs.Coupling.Statements
import EcmaTree.Proofs.Course
import EcmaTree.Proofs.Discipline.Basic
import EcmaTree.Proofs.Discipline.Expressions
import EcmaTree.Proofs.Discipline.Guarding
import EcmaTree.Proofs.Discipline.Level
import EcmaTree.Proofs.Discipline.Methods
import EcmaTree.Proofs.Discipline.Statements
import EcmaTree.Proofs.Estree.Absence
import EcmaTree.Proofs.Estree.Encoding
import EcmaTree.Proofs.Estree.Fields
import EcmaTree.Proofs.Estree.Loading
import EcmaTree.Proofs.Estree.Names
import EcmaTree.Proofs.Estree.Nodes
import EcmaTree.Proofs.Estree.Normality
import EcmaTree.Proofs.Estree.Representation
import EcmaTree.Proofs.Estree.RoundTrip
import EcmaTree.Proofs.Estree.Variation
import EcmaTree.Proofs.Estree.VariedFields
import EcmaTree.Proofs.Estree.VariedLoading
import EcmaTree.Proofs.Frames.AppendOnly
import EcmaTree.Proofs.Frames.Lasting
import EcmaTree.Proofs.Frames.Padded
import EcmaTree.Proofs.Frames.Persistence
import EcmaTree.Proofs.Frames.Rebinding
import EcmaTree.Proofs.Frames.Recasting
import EcmaTree.Proofs.Frames.Reserved
import EcmaTree.Proofs.Frames.Scopes
import EcmaTree.Proofs.Frames.Unvisited
import EcmaTree.Proofs.Guarded
import EcmaTree.Proofs.Heap.Accounts
import EcmaTree.Proofs.Heap.Cells
import EcmaTree.Proofs.Heap.Collection
import EcmaTree.Proofs.Heap.Contents
import EcmaTree.Proofs.Heap.LooseEquality
import EcmaTree.Proofs.Heap.Reachability
import EcmaTree.Proofs.Heap.Rendering
import EcmaTree.Proofs.Heap.Soundness
import EcmaTree.Proofs.Heap.Texts
import EcmaTree.Proofs.IndexedWrites
import EcmaTree.Proofs.Indices
import EcmaTree.Proofs.InsertionOrder
import EcmaTree.Proofs.Json.Collecting
import EcmaTree.Proofs.Json.Grammar
import EcmaTree.Proofs.Json.Lexemes
import EcmaTree.Proofs.Json.Normalisation
import EcmaTree.Proofs.Json.Numerals
import EcmaTree.Proofs.Json.Positions
import EcmaTree.Proofs.Json.Recognition
import EcmaTree.Proofs.Json.Reordering
import EcmaTree.Proofs.Json.RoundTrip
import EcmaTree.Proofs.Json.Significance
import EcmaTree.Proofs.Json.Strings
import EcmaTree.Proofs.Json.Trees
import EcmaTree.Proofs.Labels.Jumps
import EcmaTree.Proofs.Labels.WellLabelled
import EcmaTree.Proofs.Limits.Agreement
import EcmaTree.Proofs.Limits.Calls
import EcmaTree.Proofs.Limits.Expressions
import EcmaTree.Proofs.Limits.Independence
import EcmaTree.Proofs.Limits.Statements
import EcmaTree.Proofs.Limits.Strict
import EcmaTree.Proofs.Loops.Forms
import EcmaTree.Proofs.Loops.OwnVariables
import EcmaTree.Proofs.Loops.Padding
import EcmaTree.Proofs.Loops.Rounds
import EcmaTree.Proofs.Number.Digits
import EcmaTree.Proofs.Number.Formats
import EcmaTree.Proofs.Number.Indices
import EcmaTree.Proofs.Number.Integers
import EcmaTree.Proofs.Number.Keys
import EcmaTree.Proofs.Number.Literals
import EcmaTree.Proofs.Number.Nearest
import EcmaTree.Proofs.Number.Numerals
import EcmaTree.Proofs.Number.ReadBack
import EcmaTree.Proofs.Number.Rounding
import EcmaTree.Proofs.OrderedMap
import EcmaTree.Proofs.Reached
import EcmaTree.Proofs.Receivers
import EcmaTree.Proofs.Results
import EcmaTree.Proofs.SingleBytes
import EcmaTree.Proofs.Slices
import EcmaTree.Proofs.Source.Excerpts
import EcmaTree.Proofs.Source.Places
import EcmaTree.Proofs.Storing
import EcmaTree.Proofs.Switches
import EcmaTree.Proofs.Termination
import EcmaTree.Proofs.Text.Fields
import EcmaTree.Proofs.Text.Splitting
import EcmaTree.Proofs.Traces
import EcmaTree.Proofs.Transparency
import EcmaTree.Proofs.Tree.Parts
import EcmaTree.Proofs.Unsupported
import EcmaTree.Proofs.Unwinding
import EcmaTree.Proofs.Watching
import EcmaTree.Proofs.WellFormed
import EcmaTree.Session.Answer
import EcmaTree.Session.Interpreter
import EcmaTree.Session.Session
import EcmaTree.Session.ValueSpec
import EcmaTree.Session.Workspace
import EcmaTree.Source.CallFrame
import EcmaTree.Source.Excerpt
import EcmaTree.Source.Lines
import EcmaTree.Source.Report
import EcmaTree.Syntax.Operator
import EcmaTree.Syntax.Tree
import EcmaTree.Text.Basic
import EcmaTree.Text.Byte
import EcmaTree.Text.Order
import EcmaTree.Text.Search
