import MiniJava.Text.Number
import MiniJava.Diagnostic.Report
import MiniJava.Diagnostic.Render
import MiniJava.Token.Lexer
import MiniJava.Tree
import MiniJava.Tree.Raw
import MiniJava.Tree.OfRaw
import MiniJava.Grammar.Expression
import MiniJava.Grammar
import MiniJava.SymbolTable.OfTree
import MiniJava.Typing
import MiniJava.Typing.Compatible
import MiniJava.Check
import MiniJava.Optimize
import MiniJava.Ir.OfTree
import MiniJava.Ir.Text
import MiniJava.Jvm.Text
import MiniJava.Compile
import MiniJava.Session
import MiniJava.Main
import MiniJava.Proofs.Semantics.Behaviour
import MiniJava.Proofs.Semantics.Value
import MiniJava.Proofs.Grammar.Ensures
import MiniJava.Proofs.Semantics.Source
import MiniJava.Proofs.Tree.WellFormed
import MiniJava.Proofs.Yields
import MiniJava.Proofs.Grammar.Shape
import MiniJava.Proofs.Accepted
import MiniJava.Proofs.Lowering.ExprType
import MiniJava.Proofs.Optimize.Alike
import MiniJava.Proofs.Optimize.Folding
import MiniJava.Proofs.Optimize.Propagation
import MiniJava.Proofs.Optimize.Rounds
import MiniJava.Proofs.Semantics.Code
import MiniJava.Proofs.Semantics.ThreeAddress
import MiniJava.Proofs.Lowering.Supply
import MiniJava.Proofs.Lowering.Issued
import MiniJava.Proofs.Lowering.Performs
import MiniJava.Proofs.Lowering.Expression
import MiniJava.Proofs.Lowering.Statement
import MiniJava.Proofs.Lowering.Program
import MiniJava.Proofs.Declared
import MiniJava.Proofs.Lowering.Typed
import MiniJava.Proofs.Lowering.WellTyped
import MiniJava.Proofs.Emission.Blocks
import MiniJava.Proofs.Emission.Depth
import MiniJava.Proofs.Emission.Encoding
import MiniJava.Proofs.Emission.Registers
import MiniJava.Proofs.Emission.StackLimit
import MiniJava.Proofs.Semantics.ControlFlow
import MiniJava.Proofs.Lowering.Regular
import MiniJava.Proofs.Semantics.Visits
import MiniJava.Proofs.Lowering.Defined
import MiniJava.Proofs.Lowering.Written
import MiniJava.Proofs.Lowering.Temporaries
import MiniJava.Proofs.Lowering.Paths
import MiniJava.Proofs.Lowering.Landing
import MiniJava.Proofs.Lowering.Fitting
import MiniJava.Proofs.Emission.Labels
import MiniJava.Proofs.Emission.Execution
import MiniJava.Proofs.Emission.Slots
import MiniJava.Proofs.Emission.Simulation
import MiniJava.Proofs.Emission.Mnemonics
import MiniJava.Proofs.Lowering.Success
import MiniJava.Proofs.Emission.Success
import MiniJava.Proofs.Grammar.Run
import MiniJava.Proofs.Grammar.Written
import MiniJava.Proofs.Grammar.Reads
import MiniJava.Proofs.Grammar.Phrases
import MiniJava.Proofs.Grammar.Operands
import MiniJava.Proofs.Grammar.Soundness
import MiniJava.Proofs.Grammar.Accepts
import MiniJava.Proofs.Grammar.Following
import MiniJava.Proofs.Grammar.Completeness.Expression
import MiniJava.Proofs.Grammar.Completeness.Statement
import MiniJava.Proofs.Grammar.Completeness.Program
import MiniJava.Proofs.Tree.Numbering
import MiniJava.Proofs.Graph.Rewriting
import MiniJava.Proofs.Graph.Shows
import MiniJava.Proofs.Optimize.Fixpoint
import MiniJava.Proofs.Optimize.Congruence
import MiniJava.Proofs.Optimize.LookAhead
import MiniJava.Proofs.Optimize.Schedule
import MiniJava.Proofs.Typing.Sites
import MiniJava.Proofs.Typing.Checks
import MiniJava.Proofs.Graph.Typing
import MiniJava.Proofs.Optimize.Simplified
import MiniJava.Proofs.Optimize.Typing
import MiniJava.Proofs.Grammar.Integers
import MiniJava.Proofs.Tree.Meets
import MiniJava.Proofs.Grammar.Conversion
import MiniJava.Proofs.Lowering.Actions
import MiniJava.Proofs.Emission.Returns
import MiniJava.Proofs.Stages
import MiniJava.Proofs.Compiled
import MiniJava.Proofs.Emission.Need
import MiniJava.Proofs.Lowering.Lighter
import MiniJava.Proofs.Optimize.Lowering
import MiniJava.Proofs.Optimize.Limits
import MiniJava.Proofs.Emission.Calls
import MiniJava.Proofs.Lowering.Mentions
import MiniJava.Proofs.Optimize.Mentions
import MiniJava.Proofs.Optimize.Operands
import MiniJava.Proofs.Emission.Assembly
import MiniJava.Proofs.Emission.Descriptors
import MiniJava.Proofs.Emission.Imports
import MiniJava.Proofs.Layout.Agree
import MiniJava.Proofs.Layout.Grammar
import MiniJava.Proofs.Paraphrase.Tree
import MiniJava.Proofs.Paraphrase.Declarations
import MiniJava.Proofs.Paraphrase.Checks
import MiniJava.Proofs.Paraphrase.Lowering
import MiniJava.Proofs.Layout.Tree
import MiniJava.Proofs.Layout.Optimization
import MiniJava.Proofs.Layout.Compilation
import MiniJava.Proofs.Paraphrase.Brackets
import MiniJava.Proofs.Paraphrase.Tokens
import MiniJava.Proofs.Paraphrase.Reading
import MiniJava.Proofs.Paraphrase.Compilation
import MiniJava.Proofs.Text.Lines
import MiniJava.Proofs.Text.Spans
import MiniJava.Proofs.Grammar.Points
import MiniJava.Proofs.Tree.Ascending
import MiniJava.Proofs.Graph.Trees
import MiniJava.Proofs.Graph.Pruning
import MiniJava.Proofs.Diagnostic.Sorting
import MiniJava.Proofs.Diagnostic.Places
import MiniJava.Proofs.Diagnostic.Checking
import MiniJava.Proofs.Diagnostic.Pointing
import MiniJava.Proofs.Emission.Cap
import MiniJava.Proofs.Emission.Families
import MiniJava.Proofs.Graph.Search
import MiniJava.Proofs.Text.Pieces
import MiniJava.Proofs.Text.Partition
import MiniJava.Proofs.Text.Spelling
import MiniJava.Proofs.Text.Positions
import MiniJava.Proofs.Optimize.Idempotence
import MiniJava.Proofs.Optimize.Evaluation
import MiniJava.Proofs.Optimize.Divisions
import MiniJava.Proofs.Described
import MiniJava.Proofs.Lowering.Packing
import MiniJava.Proofs.Arguments
import MiniJava.Proofs.Graph.Methods
import MiniJava.Proofs.Grammar.Rows
import MiniJava.Proofs.Grammar.FirstTokens
import MiniJava.Proofs.Grammar.PositionOrder
