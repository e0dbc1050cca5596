import SmallC.Binary
import SmallC.CommandLine
import SmallC.CommandLine.Options
import SmallC.Compilation
import SmallC.Condition
import SmallC.Conditionals
import SmallC.Constant
import SmallC.Decimal
import SmallC.Declaration
import SmallC.Diagnostic
import SmallC.Directive
import SmallC.DirectiveToken
import SmallC.Environment
import SmallC.FileSystem
import SmallC.FileTree
import SmallC.Json
import SmallC.Line
import SmallC.Log
import SmallC.Macro
import SmallC.Main
import SmallC.Parse
import SmallC.Path
import SmallC.Position
import SmallC.Preprocess
import SmallC.Preprocessor
import SmallC.Proofs.CommandLine.Files
import SmallC.Proofs.CommandLine.Inputs
import SmallC.Proofs.CommandLine.WrittenTrees
import SmallC.Proofs.Compilation.Origins
import SmallC.Proofs.Condition.Evaluation
import SmallC.Proofs.Condition.Grammar
import SmallC.Proofs.Condition.Literals
import SmallC.Proofs.Condition.MacroNumbers
import SmallC.Proofs.Condition.Reading
import SmallC.Proofs.Condition.Refusal
import SmallC.Proofs.Condition.ShortCircuit
import SmallC.Proofs.Directive.CommentTokens
import SmallC.Proofs.Directive.Comments
import SmallC.Proofs.Directive.Tiling
import SmallC.Proofs.Directive.Tokens
import SmallC.Proofs.Json.Numerals
import SmallC.Proofs.Json.Reading
import SmallC.Proofs.Json.RoundTrip
import SmallC.Proofs.Json.WholeNumbers
import SmallC.Proofs.Parse.Acceptance
import SmallC.Proofs.Parse.Agreement
import SmallC.Proofs.Parse.Bracketing
import SmallC.Proofs.Parse.Context
import SmallC.Proofs.Parse.Declarations
import SmallC.Proofs.Parse.Enclosing
import SmallC.Proofs.Parse.Entering
import SmallC.Proofs.Parse.FaultPositions
import SmallC.Proofs.Parse.Faults
import SmallC.Proofs.Parse.FunctionNodes
import SmallC.Proofs.Parse.Functions
import SmallC.Proofs.Parse.Growth
import SmallC.Proofs.Parse.InPlace
import SmallC.Proofs.Parse.Initializers
import SmallC.Proofs.Parse.Nesting
import SmallC.Proofs.Parse.NodeNames
import SmallC.Proofs.Parse.Nodes
import SmallC.Proofs.Parse.OpenBodies
import SmallC.Proofs.Parse.Program
import SmallC.Proofs.Parse.Ranges
import SmallC.Proofs.Parse.Reading
import SmallC.Proofs.Parse.Rules
import SmallC.Proofs.Parse.Runs
import SmallC.Proofs.Parse.Shape
import SmallC.Proofs.Parse.Skipping
import SmallC.Proofs.Parse.TreePaths
import SmallC.Proofs.Parse.Unplaced
import SmallC.Proofs.Preprocess.Bounds
import SmallC.Proofs.Preprocess.Conditional
import SmallC.Proofs.Preprocess.Definitions
import SmallC.Proofs.Preprocess.FixedPoints
import SmallC.Proofs.Preprocess.Following
import SmallC.Proofs.Preprocess.Groups
import SmallC.Proofs.Preprocess.HeaderNames
import SmallC.Proofs.Preprocess.Inclusion
import SmallC.Proofs.Preprocess.Layout
import SmallC.Proofs.Preprocess.Lifetimes
import SmallC.Proofs.Preprocess.Moments
import SmallC.Proofs.Preprocess.Nesting
import SmallC.Proofs.Preprocess.OpenGroups
import SmallC.Proofs.Preprocess.Step
import SmallC.Proofs.Preprocess.Walk
import SmallC.Proofs.Registry.Numbers
import SmallC.Proofs.Scan.Identifiers
import SmallC.Proofs.Scan.Lines
import SmallC.Proofs.Scan.Places
import SmallC.Proofs.Scan.RoundTrip
import SmallC.Proofs.Scan.Spelling
import SmallC.Proofs.Scan.Tiling
import SmallC.Proofs.Text.Digits
import SmallC.Proofs.Text.Pieces
import SmallC.Proofs.Text.Quoting
import SmallC.Proofs.Text.Stretches
import SmallC.Proofs.Text.Trimming
import SmallC.Proofs.Text.Words
import SmallC.Proofs.Tree.Graft
import SmallC.Proofs.Tree.JsonValues
import SmallC.Proofs.Tree.Numbering
import SmallC.Proofs.Tree.Paths
import SmallC.Proofs.Tree.Printing
import SmallC.Proofs.Tree.Readability
import SmallC.Proofs.Tree.Traversal
import SmallC.Proofs.Tree.WellFormed
import SmallC.Proofs.Tree.WrittenAttributes
import SmallC.Registry
import SmallC.Scan
import SmallC.Segment
import SmallC.Text.Digits
import SmallC.Text.Quoted
import SmallC.Text.Space
import SmallC.Text.Split
import SmallC.Text.Unprintable
import SmallC.Token
import SmallC.Tree
import SmallC.Tree.Outline
import SmallC.Tree.Sexp
