import TreeLang.Command.Arguments
import TreeLang.Command.Perform
import TreeLang.Compile
import TreeLang.Diagnostic
import TreeLang.Double.Basic
import TreeLang.Double.Decimal
import TreeLang.Double.Shortest
import TreeLang.Double.Text
import TreeLang.Files
import TreeLang.Format.Pieces
import TreeLang.Format.Render
import TreeLang.Ir.Assemble
import TreeLang.Ir.Basic
import TreeLang.Ir.Builder
import TreeLang.Ir.Edit
import TreeLang.Ir.Error
import TreeLang.Ir.Graph
import TreeLang.Ir.Module
import TreeLang.Ir.Single
import TreeLang.Ir.Text
import TreeLang.Ir.Verify
import TreeLang.Json.Basic
import TreeLang.Json.Member
import TreeLang.Json.Reader
import TreeLang.Listing.Module
import TreeLang.Listing.Pen
import TreeLang.Listing.Style
import TreeLang.Lowering.Context
import TreeLang.Lowering.Control
import TreeLang.Lowering.Program
import TreeLang.Lowering.Value
import TreeLang.Machine.Activation
import TreeLang.Machine.Console
import TreeLang.Machine.Library
import TreeLang.Machine.Run
import TreeLang.Machine.Value
import TreeLang.Main
import TreeLang.Proofs.Agreement.Bodies
import TreeLang.Proofs.Agreement.Correspondence
import TreeLang.Proofs.Agreement.Failures
import TreeLang.Proofs.Agreement.InStep
import TreeLang.Proofs.Agreement.Names
import TreeLang.Proofs.Agreement.Progress
import TreeLang.Proofs.Agreement.Returns
import TreeLang.Proofs.Agreement.Types
import TreeLang.Proofs.Assembly
import TreeLang.Proofs.Attribution.Check
import TreeLang.Proofs.Attribution.Lowering
import TreeLang.Proofs.Attribution.Programs
import TreeLang.Proofs.Blame
import TreeLang.Proofs.BlockOrder
import TreeLang.Proofs.Builder.Blocks
import TreeLang.Proofs.Builder.Certificate
import TreeLang.Proofs.Builder.Construction
import TreeLang.Proofs.Builder.Dominance
import TreeLang.Proofs.Builder.Effects
import TreeLang.Proofs.Builder.Finished
import TreeLang.Proofs.Builder.Layout
import TreeLang.Proofs.Builder.Legal
import TreeLang.Proofs.Builder.Loops
import TreeLang.Proofs.Builder.Reachability
import TreeLang.Proofs.Builder.Region
import TreeLang.Proofs.Builder.Regular
import TreeLang.Proofs.Builder.Spans
import TreeLang.Proofs.Builder.Steps
import TreeLang.Proofs.Builder.Stranded
import TreeLang.Proofs.Builder.Verified
import TreeLang.Proofs.Contents
import TreeLang.Proofs.Declarations
import TreeLang.Proofs.Document.Decoding
import TreeLang.Proofs.Document.Fitting
import TreeLang.Proofs.Document.RoundTrip
import TreeLang.Proofs.Double.Rounding
import TreeLang.Proofs.Double.Shortest
import TreeLang.Proofs.Format.Composition
import TreeLang.Proofs.Format.General
import TreeLang.Proofs.Format.Grammar
import TreeLang.Proofs.Format.Integers
import TreeLang.Proofs.Format.ReadBack
import TreeLang.Proofs.Format.Scanning
import TreeLang.Proofs.Format.Significant
import TreeLang.Proofs.Gate
import TreeLang.Proofs.Graph.DepthFirst
import TreeLang.Proofs.Graph.Reducible
import TreeLang.Proofs.Json.Admitted
import TreeLang.Proofs.Json.Numbers
import TreeLang.Proofs.Json.Reading
import TreeLang.Proofs.Labels
import TreeLang.Proofs.LeadingInteger
import TreeLang.Proofs.Listing.Characters
import TreeLang.Proofs.Listing.Colors
import TreeLang.Proofs.Listing.Instructions
import TreeLang.Proofs.Listing.Modules
import TreeLang.Proofs.Listing.Rows
import TreeLang.Proofs.LoopHeaders
import TreeLang.Proofs.Lowered
import TreeLang.Proofs.Lowering.Code
import TreeLang.Proofs.Lowering.Ends
import TreeLang.Proofs.Lowering.Flow
import TreeLang.Proofs.Lowering.Frames
import TreeLang.Proofs.Lowering.Functions
import TreeLang.Proofs.Lowering.Headers
import TreeLang.Proofs.Lowering.Loops
import TreeLang.Proofs.Lowering.Operations
import TreeLang.Proofs.Lowering.Parts
import TreeLang.Proofs.Lowering.Programs
import TreeLang.Proofs.Lowering.Region
import TreeLang.Proofs.Lowering.Rules
import TreeLang.Proofs.Lowering.Sound
import TreeLang.Proofs.Lowering.Steady
import TreeLang.Proofs.Lowering.Total
import TreeLang.Proofs.Lowering.Trace
import TreeLang.Proofs.Lowering.Trees
import TreeLang.Proofs.Lowering.Values
import TreeLang.Proofs.Meaning.Evaluation
import TreeLang.Proofs.Meaning.Names
import TreeLang.Proofs.Meaning.Values
import TreeLang.Proofs.Outcome
import TreeLang.Proofs.Position.Closed
import TreeLang.Proofs.Position.Mirrors
import TreeLang.Proofs.Position.Moved
import TreeLang.Proofs.Position.Programs
import TreeLang.Proofs.Position.Renumbering
import TreeLang.Proofs.Position.Trees
import TreeLang.Proofs.Position.Twins
import TreeLang.Proofs.Position.Types
import TreeLang.Proofs.Preservation
import TreeLang.Proofs.Pruning
import TreeLang.Proofs.Safety.Activations
import TreeLang.Proofs.Safety.Runs
import TreeLang.Proofs.Simulation.Calls
import TreeLang.Proofs.Simulation.Cells
import TreeLang.Proofs.Simulation.Exchange
import TreeLang.Proofs.Simulation.Flow
import TreeLang.Proofs.Simulation.Functions
import TreeLang.Proofs.Simulation.Judgement
import TreeLang.Proofs.Simulation.Library
import TreeLang.Proofs.Simulation.Names
import TreeLang.Proofs.Simulation.Operations
import TreeLang.Proofs.Simulation.Places
import TreeLang.Proofs.Simulation.Steps
import TreeLang.Proofs.Simulation.Trees
import TreeLang.Proofs.Simulation.Values
import TreeLang.Proofs.Source.Expressions
import TreeLang.Proofs.Source.Lines
import TreeLang.Proofs.Source.Normal
import TreeLang.Proofs.Source.Reader
import TreeLang.Proofs.Source.Reading
import TreeLang.Proofs.Source.Statements
import TreeLang.Proofs.Strict
import TreeLang.Proofs.Text.Ascii
import TreeLang.Proofs.Text.Cutting
import TreeLang.Proofs.Text.Literals
import TreeLang.Proofs.Text.Quoting
import TreeLang.Proofs.Text.Words
import TreeLang.Proofs.Typing.Acceptance
import TreeLang.Proofs.Typing.Clean
import TreeLang.Proofs.Typing.Judgement
import TreeLang.Proofs.Typing.Parts
import TreeLang.Proofs.Typing.Reports
import TreeLang.Proofs.Typing.Rules
import TreeLang.Proofs.Typing.Steady
import TreeLang.Proofs.Typing.Tables
import TreeLang.Proofs.Typing.Visits
import TreeLang.Proofs.Validity
import TreeLang.Scan
import TreeLang.Settings
import TreeLang.Text.Blank
import TreeLang.Text.Hidden
import TreeLang.Text.Quoted
import TreeLang.Text.Utf8
import TreeLang.Tree.Basic
import TreeLang.Tree.Document
import TreeLang.Tree.Source
import TreeLang.Tree.Walk
import TreeLang.Typing.Check
import TreeLang.Typing.Rules
import TreeLang.Typing.Scope
