import LoopTuner.Choice.Basic
import LoopTuner.Cli.Arguments
import LoopTuner.Cli.Help
import LoopTuner.Cli.Report
import LoopTuner.Cli.Run
import LoopTuner.Command.Evaluator
import LoopTuner.Command.Report
import LoopTuner.Command.Status
import LoopTuner.Cost
import LoopTuner.Decimal.Reading
import LoopTuner.Decimal.Shortest
import LoopTuner.Decimal.Style
import LoopTuner.Error
import LoopTuner.Kernel.Basic
import LoopTuner.Kernel.Printer
import LoopTuner.Kernel.Proposals
import LoopTuner.Kernel.Reader
import LoopTuner.Kernel.Step
import LoopTuner.Kernel.Work
import LoopTuner.Main
import LoopTuner.Proofs.Calls.Accounts
import LoopTuner.Proofs.Calls.Budget
import LoopTuner.Proofs.Calls.Expansions
import LoopTuner.Proofs.Calls.FailedRounds
import LoopTuner.Proofs.Calls.LeastPath
import LoopTuner.Proofs.Calls.OneExpansion
import LoopTuner.Proofs.Calls.Recording
import LoopTuner.Proofs.Calls.Unsampled
import LoopTuner.Proofs.Command.LastLine
import LoopTuner.Proofs.Command.Outcomes
import LoopTuner.Proofs.Cost.Least
import LoopTuner.Proofs.Cost.Order
import LoopTuner.Proofs.Cost.Sums
import LoopTuner.Proofs.Growth.Changes
import LoopTuner.Proofs.Growth.Conservation
import LoopTuner.Proofs.Growth.Edits
import LoopTuner.Proofs.Growth.Extraction
import LoopTuner.Proofs.Growth.Independence
import LoopTuner.Proofs.Growth.Moves
import LoopTuner.Proofs.Growth.Operations
import LoopTuner.Proofs.Growth.Refusals
import LoopTuner.Proofs.Growth.Replay
import LoopTuner.Proofs.Growth.Rounds
import LoopTuner.Proofs.Growth.Runs
import LoopTuner.Proofs.Growth.Siblings
import LoopTuner.Proofs.Growth.Simulation
import LoopTuner.Proofs.Growth.Splitting
import LoopTuner.Proofs.Growth.Sums
import LoopTuner.Proofs.Growth.Unfailing
import LoopTuner.Proofs.Growth.Usable
import LoopTuner.Proofs.Growth.Visits
import LoopTuner.Proofs.Kernel.Agreement
import LoopTuner.Proofs.Kernel.Applicable
import LoopTuner.Proofs.Kernel.Candidates
import LoopTuner.Proofs.Kernel.Commuting
import LoopTuner.Proofs.Kernel.Counters
import LoopTuner.Proofs.Kernel.Declared
import LoopTuner.Proofs.Kernel.Distinct
import LoopTuner.Proofs.Kernel.Effects
import LoopTuner.Proofs.Kernel.Enumeration
import LoopTuner.Proofs.Kernel.Frame
import LoopTuner.Proofs.Kernel.FirstFault
import LoopTuner.Proofs.Kernel.Grammar
import LoopTuner.Proofs.Kernel.Interchanges
import LoopTuner.Proofs.Kernel.Iterations
import LoopTuner.Proofs.Kernel.Legal
import LoopTuner.Proofs.Kernel.Printed
import LoopTuner.Proofs.Kernel.Rearranged
import LoopTuner.Proofs.Kernel.Reduction
import LoopTuner.Proofs.Kernel.Rendering
import LoopTuner.Proofs.Kernel.Resolution
import LoopTuner.Proofs.Kernel.Steps
import LoopTuner.Proofs.Kernel.Tilings
import LoopTuner.Proofs.Kernel.Unambiguous
import LoopTuner.Proofs.Kernel.Vector
import LoopTuner.Proofs.Kernel.Vectorized
import LoopTuner.Proofs.Lists
import LoopTuner.Proofs.Random.Sampling
import LoopTuner.Proofs.Sweep.CandidateTree
import LoopTuner.Proofs.Sweep.Exhaustion
import LoopTuner.Proofs.Sweep.Mixing
import LoopTuner.Proofs.Sweep.Naive
import LoopTuner.Proofs.Sweep.Prolonging
import LoopTuner.Proofs.Sweep.Queue
import LoopTuner.Proofs.Sweep.Refinement
import LoopTuner.Proofs.Sweep.Regrowth
import LoopTuner.Proofs.Text.ByteOrder
import LoopTuner.Proofs.Text.Cuts
import LoopTuner.Proofs.Text.Numerals
import LoopTuner.Proofs.Text.Words
import LoopTuner.Proofs.Tree.Backup
import LoopTuner.Proofs.Tree.Nodes
import LoopTuner.Proofs.Tree.Selection
import LoopTuner.Proofs.Tree.Shape
import LoopTuner.Proofs.Tree.Walks
import LoopTuner.Random.Stream
import LoopTuner.Random.Subset
import LoopTuner.Search.BestFirst
import LoopTuner.Search.Classification
import LoopTuner.Search.Config
import LoopTuner.Search.CostModel
import LoopTuner.Search.Debug
import LoopTuner.Search.Descent
import LoopTuner.Search.Expander
import LoopTuner.Search.Growth
import LoopTuner.Search.Kind
import LoopTuner.Search.Meter
import LoopTuner.Search.Node
import LoopTuner.Search.Pipeline
import LoopTuner.Search.Run
import LoopTuner.Search.Tree
import LoopTuner.Search.TreeSearch
import LoopTuner.Shell.Builtin
import LoopTuner.Shell.Bytes
import LoopTuner.Shell.Calculation
import LoopTuner.Shell.Edit
import LoopTuner.Shell.Expansion
import LoopTuner.Shell.Filter
import LoopTuner.Shell.Format
import LoopTuner.Shell.Interpreter
import LoopTuner.Shell.Pattern
import LoopTuner.Shell.Reader
import LoopTuner.Shell.Script
import LoopTuner.Shell.State
import LoopTuner.Shell.Tool
import LoopTuner.Shell.Toolbox
import LoopTuner.Text.Blank
import LoopTuner.Text.Numeral
import LoopTuner.Text.Quoted
import LoopTuner.Text.Unprintable
