import MacroAssembler.Assembly.Session
import MacroAssembler.Conditional.Evaluation
import MacroAssembler.Conditional.Terms
import MacroAssembler.Console.Command
import MacroAssembler.Diagnostic.Json
import MacroAssembler.Diagnostic.Reporter
import MacroAssembler.Main
import MacroAssembler.Proofs.Symbol.Knowledge
import MacroAssembler.Proofs.Symbol.Evaluation
import MacroAssembler.Proofs.Symbol.Placement
import MacroAssembler.Proofs.Symbol.Updates
import MacroAssembler.Proofs.Layout.Steps
import MacroAssembler.Proofs.Layout.ReleaseOrder
import MacroAssembler.Proofs.Layout.Relabel
import MacroAssembler.Proofs.Layout.Moves
import MacroAssembler.Proofs.Reachability
import MacroAssembler.Proofs.Layout.WaitFor
import MacroAssembler.Proofs.Layout.Waiting
import MacroAssembler.Proofs.Layout.Tracking
import MacroAssembler.Proofs.Layout.Circularity
import MacroAssembler.Proofs.Layout.Abandonment
import MacroAssembler.Proofs.Names
import MacroAssembler.Proofs.Numbering
import MacroAssembler.Proofs.Bindings
import MacroAssembler.Proofs.Macro.Binding
import MacroAssembler.Proofs.Field.Growth
import MacroAssembler.Proofs.Assembly.Moves
import MacroAssembler.Proofs.Assembly.Macros
import MacroAssembler.Proofs.Assembly.Sessions
import MacroAssembler.Proofs.Assembly.Circles
import MacroAssembler.Proofs.Layout.Answers
import MacroAssembler.Proofs.Field.Places
import MacroAssembler.Proofs.Field.Sources
import MacroAssembler.Proofs.Assembly.Flat
import MacroAssembler.Proofs.Assembly.Effects
import MacroAssembler.Proofs.Assembly.Equations
import MacroAssembler.Proofs.EquationSystem
import MacroAssembler.Proofs.Layout.LeastSolution
import MacroAssembler.Proofs.Assembly.EquateOrder
import MacroAssembler.Proofs.Layout.Fixpoint
import MacroAssembler.Proofs.Layout.Acyclicity
import MacroAssembler.Proofs.Layout.Journal
import MacroAssembler.Proofs.Assembly.Finality
import MacroAssembler.Proofs.Layout.Deferral
import MacroAssembler.Proofs.Assembly.Checkable
import MacroAssembler.Proofs.Assembly.Calls
import MacroAssembler.Proofs.Assembly.Definitions
import MacroAssembler.Proofs.Layout.Needs
import MacroAssembler.Proofs.Assembly.Checks
import MacroAssembler.Proofs.Assembly.Stock
import MacroAssembler.Proofs.Assembly.Audits
import MacroAssembler.Proofs.Field.Slices
import MacroAssembler.Proofs.Field.IndexedExpression
import MacroAssembler.Proofs.Field.IndexedConcatenation
import MacroAssembler.Proofs.Field.IndexedReading
import MacroAssembler.Proofs.Layout.Moments
import MacroAssembler.Proofs.Assembly.Faults
import MacroAssembler.Proofs.Conditional.Precedence
import MacroAssembler.Proofs.Letters
import MacroAssembler.Proofs.Numerals
import MacroAssembler.Proofs.Field.Grammar
import MacroAssembler.Proofs.Field.Rendering
import MacroAssembler.Proofs.Field.Twins
import MacroAssembler.Proofs.Field.LetterCase
import MacroAssembler.Proofs.Field.StatementCase
import MacroAssembler.Proofs.Assembly.LetterCase
import MacroAssembler.Proofs.Assembly.Prototypes
import MacroAssembler.Proofs.Assembly.SequenceMarks
import MacroAssembler.Proofs.Field.Addresses
import MacroAssembler.Proofs.Macro.RoundTrip
import MacroAssembler.Proofs.Macro.Cleaning
import MacroAssembler.Proofs.Field.Splitting
import MacroAssembler.Proofs.Field.Apart
import MacroAssembler.Proofs.Field.Spans
import MacroAssembler.Proofs.Field.SourceColumns
import MacroAssembler.Proofs.Conditional.Shifts
import MacroAssembler.Proofs.Conditional.Conversions
import MacroAssembler.Proofs.Conditional.TextOrder
import MacroAssembler.Proofs.Conditional.Validity
import MacroAssembler.Proofs.Conditional.Doubling
import MacroAssembler.Proofs.Field.SelfDefining
import MacroAssembler.Proofs.Assembly.Conformity
import MacroAssembler.Proofs.Macro.Keywords
