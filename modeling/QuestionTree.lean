import QuestionTree.BinaryTree.Basic
import QuestionTree.BinaryTree.Drawing
import QuestionTree.DecisionTree
import QuestionTree.Error
import QuestionTree.Example
import QuestionTree.Growth.Outcome
import QuestionTree.Growth.Queue
import QuestionTree.Growth.Run
import QuestionTree.Growth.State
import QuestionTree.Json.Basic
import QuestionTree.Json.Decoder
import QuestionTree.Json.Text
import QuestionTree.Number.Binary64
import QuestionTree.Number.Decimal
import QuestionTree.Plan
import QuestionTree.Question
import QuestionTree.Record
import QuestionTree.Sampling
import QuestionTree.Schema
import QuestionTree.Scorer
import QuestionTree.Setup.Examples
import QuestionTree.Setup.Training
import QuestionTree.Text
import QuestionTree.Proofs.Queue
import QuestionTree.Proofs.Growth.Candidate
import QuestionTree.Proofs.Growth.Ledger
import QuestionTree.Proofs.Growth.Stage
import QuestionTree.Proofs.Growth.Account
import QuestionTree.Proofs.BinaryTree.Place
import QuestionTree.Proofs.DecisionTree.Way
import QuestionTree.Proofs.Growth.Conversion
import QuestionTree.Proofs.DecisionTree.Classes
import QuestionTree.Proofs.Training.Made
import QuestionTree.Proofs.Training.Routing
import QuestionTree.Proofs.Schema.Comparison
import QuestionTree.Proofs.Training.Built
import QuestionTree.Proofs.Growth.Range
import QuestionTree.Proofs.Training.Partition
import QuestionTree.Proofs.Number.Bits
import QuestionTree.Proofs.Number.Nearest
import QuestionTree.Proofs.Number.Interval
import QuestionTree.Proofs.Json.Numeral
import QuestionTree.Proofs.Json.Layout
import QuestionTree.Proofs.Json.Quoted
import QuestionTree.Proofs.Json.Text
import QuestionTree.Proofs.Json.Codec
import QuestionTree.Proofs.Json.Reading
import QuestionTree.Proofs.Json.Roundtrip
import QuestionTree.Proofs.Question.Codec
import QuestionTree.Proofs.Schema.Codec
import QuestionTree.Proofs.BinaryTree.Codec
import QuestionTree.Proofs.DecisionTree.Codec
import QuestionTree.Proofs.Growth.Budget
import QuestionTree.Proofs.Question.Built
import QuestionTree.Proofs.Training.Storage
import QuestionTree.Proofs.Growth.Search
import QuestionTree.Proofs.Growth.BestFirst
import QuestionTree.Proofs.Growth.Arena
import QuestionTree.Proofs.Growth.Origin
import QuestionTree.Proofs.Growth.Placement
import QuestionTree.Proofs.Training.Admission
import QuestionTree.Proofs.Growth.Termination
import QuestionTree.Proofs.Training.Termination
import QuestionTree.Proofs.DecisionTree.Pruning
import QuestionTree.Proofs.Growth.Nesting
import QuestionTree.Proofs.Training.Nesting
import QuestionTree.Proofs.Growth.Saturation
import QuestionTree.Proofs.Training.Saturation
import QuestionTree.Proofs.Number.Exact
import QuestionTree.Proofs.Scorer.Deviation
import QuestionTree.Proofs.Example.Box
import QuestionTree.Proofs.Scorer.Balance
import QuestionTree.Proofs.Scorer.Entropy
import QuestionTree.Proofs.Scorer.Shares
import QuestionTree.Proofs.Growth.Balance
import QuestionTree.Proofs.Growth.Single
import QuestionTree.Proofs.Training.Balance
import QuestionTree.Proofs.Training.Gains
import QuestionTree.Proofs.Training.Monotone
import QuestionTree.Proofs.Training.MeanEntropy
import QuestionTree.Proofs.Training.Mixtures
import QuestionTree.Proofs.Training.Paths
import QuestionTree.Proofs.Growth.Covering
import QuestionTree.Proofs.Training.Covering
import QuestionTree.Proofs.Growth.Entered
import QuestionTree.Proofs.Training.Statistics
import QuestionTree.Proofs.Training.Chronicle
import QuestionTree.Proofs.Schema.Lookup
import QuestionTree.Proofs.Json.Levels
import QuestionTree.Proofs.DecisionTree.Loading
import QuestionTree.Proofs.DecisionTree.Lossless
import QuestionTree.Proofs.DecisionTree.Answering
import QuestionTree.Proofs.DecisionTree.Visited
import QuestionTree.Proofs.DecisionTree.Completion
import QuestionTree.Proofs.DecisionTree.Agreement
import QuestionTree.Proofs.Growth.Face
import QuestionTree.Proofs.Growth.Twin
import QuestionTree.Proofs.Training.Idle
import QuestionTree.Proofs.Growth.Reordered
import QuestionTree.Proofs.Training.Reordering
import QuestionTree.Proofs.Growth.OnHeap
import QuestionTree.Proofs.Growth.Confluence
import QuestionTree.Proofs.Growth.Ties
import QuestionTree.Proofs.Plan.Action
import QuestionTree.Proofs.Setup.Plan
import QuestionTree.Proofs.Setup.Examples
import QuestionTree.Proofs.Setup.Stable
import QuestionTree.Proofs.Question.Meaning
import QuestionTree.Proofs.Growth.Appended
import QuestionTree.Proofs.Training.Ties
import QuestionTree.Proofs.Growth.InOrder
import QuestionTree.Proofs.Schema.Defects
import QuestionTree.Proofs.Schema.Tables
import QuestionTree.Proofs.Schema.Indexing
import QuestionTree.Proofs.Record.Writes
import QuestionTree.Proofs.Record.Stored
import QuestionTree.Proofs.Record.History
import QuestionTree.Proofs.Setup.Template
import QuestionTree.Proofs.Setup.Guards
import QuestionTree.Proofs.Number.Pattern
import QuestionTree.Proofs.Example.Key
import QuestionTree.Proofs.Scorer.Counting
import QuestionTree.Proofs.Scorer.Hashing
import QuestionTree.Proofs.Example.Partition
import QuestionTree.Proofs.Example.Clusters
import QuestionTree.Proofs.Example.Mass
import QuestionTree.Proofs.Example.Tracked
import QuestionTree.Proofs.Example.Shelf
import QuestionTree.Proofs.Example.Cells
import QuestionTree.Proofs.Example.Rows
import QuestionTree.Proofs.Setup.Observations
import QuestionTree.Proofs.Training.Shortcut
import QuestionTree.Proofs.Number.Rounded
import QuestionTree.Proofs.Number.Unpacked
import QuestionTree.Proofs.Number.Packed
import QuestionTree.Proofs.Number.Units
import QuestionTree.Proofs.Number.Sums
import QuestionTree.Proofs.Number.Compensated
import QuestionTree.Proofs.Number.Quotients
import QuestionTree.Proofs.Number.Amounts
import QuestionTree.Proofs.Scorer.Logarithm
import QuestionTree.Proofs.Scorer.Definite
import QuestionTree.Proofs.BinaryTree.Traversal
import QuestionTree.Proofs.BinaryTree.Listing
import QuestionTree.Proofs.BinaryTree.Drawing
import QuestionTree.Proofs.Question.Indexed
