import Elenchus.Annotation
import Elenchus.Argument.Error
import Elenchus.Argument.Id
import Elenchus.Argument.Proposition
import Elenchus.Argument.Relationship
import Elenchus.Argument.Request
import Elenchus.Argument.Validation
import Elenchus.Argument.Warning
import Elenchus.Bias.Basic
import Elenchus.Bias.Rules
import Elenchus.Bias.Subject
import Elenchus.Budget
import Elenchus.Clause.Basic
import Elenchus.Clause.Expansion
import Elenchus.Clause.Normal
import Elenchus.Clause.VarTable
import Elenchus.Command
import Elenchus.Command.Line
import Elenchus.Contradiction.Core
import Elenchus.Contradiction.Search
import Elenchus.Datum
import Elenchus.Decimal.Binary
import Elenchus.Decimal.Fixed
import Elenchus.Decimal.Nearest
import Elenchus.Decimal.Shortest
import Elenchus.Derivation.Basic
import Elenchus.Derivation.Builder
import Elenchus.Derivation.Checker
import Elenchus.Derivation.Error
import Elenchus.Encoding
import Elenchus.Engine.Analysis
import Elenchus.Engine.Config
import Elenchus.Engine.Error
import Elenchus.Engine.Pool
import Elenchus.Engine.Setting
import Elenchus.ErrorCode
import Elenchus.Fallacy.Basic
import Elenchus.Fallacy.Rules
import Elenchus.Formula.Basic
import Elenchus.Formula.Error
import Elenchus.Formula.Lexer
import Elenchus.Formula.Parser
import Elenchus.Formula.Printer
import Elenchus.Formula.Token
import Elenchus.Graph.Adjacency
import Elenchus.Graph.Basic
import Elenchus.Graph.Betweenness
import Elenchus.Graph.Component
import Elenchus.Graph.Cycle
import Elenchus.Graph.Distance
import Elenchus.Graph.Marks
import Elenchus.Graph.Order
import Elenchus.Json.Draft
import Elenchus.Json.Number
import Elenchus.Json.Text
import Elenchus.Json.Token
import Elenchus.Main
import Elenchus.Order.Distinct
import Elenchus.Order.NatSet
import Elenchus.Report.Basic
import Elenchus.Report.Record
import Elenchus.Search.Event
import Elenchus.Search.Solver
import Elenchus.Search.Trail
import Elenchus.Structure
import Elenchus.Text.Alphanumeric
import Elenchus.Text.Blank
import Elenchus.Text.CodeRanges
import Elenchus.Text.Combining
import Elenchus.Text.Printable
import Elenchus.Text.Quoted
import Elenchus.Toml.Document
import Elenchus.Toml.Table
import Elenchus.Toml.Text
import Elenchus.Toml.Value
import Elenchus.Proofs.Argument.Omission
import Elenchus.Proofs.Argument.Selection
import Elenchus.Proofs.Argument.Stability
import Elenchus.Proofs.Argument.Validation
import Elenchus.Proofs.Bias.Subject
import Elenchus.Proofs.Bias.Substitution
import Elenchus.Proofs.Budget
import Elenchus.Proofs.Clause.Expansion
import Elenchus.Proofs.Clause.Form
import Elenchus.Proofs.Clause.Limit
import Elenchus.Proofs.Clause.Lowering
import Elenchus.Proofs.Clause.Minting
import Elenchus.Proofs.Clause.Statement
import Elenchus.Proofs.Clause.VarTable
import Elenchus.Proofs.Contradiction.Bound
import Elenchus.Proofs.Contradiction.Core
import Elenchus.Proofs.Contradiction.Extension
import Elenchus.Proofs.Contradiction.Part
import Elenchus.Proofs.Contradiction.Search
import Elenchus.Proofs.Contradiction.Seed
import Elenchus.Proofs.Derivation.Acceptance
import Elenchus.Proofs.Derivation.Checker
import Elenchus.Proofs.Derivation.Construction
import Elenchus.Proofs.Derivation.Replay
import Elenchus.Proofs.Derivation.Scope
import Elenchus.Proofs.Derivation.Simulation
import Elenchus.Proofs.Derivation.Soundness
import Elenchus.Proofs.Encoding.Meaning
import Elenchus.Proofs.Encoding.Members
import Elenchus.Proofs.Encoding.Restriction
import Elenchus.Proofs.Engine.Agreement
import Elenchus.Proofs.Engine.Naming
import Elenchus.Proofs.Engine.Repetition
import Elenchus.Proofs.Engine.Report
import Elenchus.Proofs.Formula.Faults
import Elenchus.Proofs.Formula.Grammar
import Elenchus.Proofs.Formula.Lexing
import Elenchus.Proofs.Formula.Minimal
import Elenchus.Proofs.Formula.Occurrence
import Elenchus.Proofs.Formula.Parentheses
import Elenchus.Proofs.Formula.Parsing
import Elenchus.Proofs.Formula.Printing
import Elenchus.Proofs.Formula.Reading
import Elenchus.Proofs.Formula.Spelling
import Elenchus.Proofs.Formula.Tiling
import Elenchus.Proofs.Graph.Accumulation
import Elenchus.Proofs.Graph.Betweenness
import Elenchus.Proofs.Graph.Blocking
import Elenchus.Proofs.Graph.Component
import Elenchus.Proofs.Graph.Cycle
import Elenchus.Proofs.Graph.Distance
import Elenchus.Proofs.Graph.Elementary
import Elenchus.Proofs.Graph.Loopless
import Elenchus.Proofs.Graph.Loops
import Elenchus.Proofs.Graph.Order
import Elenchus.Proofs.Graph.Parallel
import Elenchus.Proofs.Graph.Representation
import Elenchus.Proofs.Graph.Stopped
import Elenchus.Proofs.Graph.Unlooped
import Elenchus.Proofs.Graph.Views
import Elenchus.Proofs.Graph.Ways
import Elenchus.Proofs.Search.Bound
import Elenchus.Proofs.Search.Branching
import Elenchus.Proofs.Search.Charge
import Elenchus.Proofs.Search.Closure
import Elenchus.Proofs.Search.Decision
import Elenchus.Proofs.Search.History
import Elenchus.Proofs.Search.Log
import Elenchus.Proofs.Search.Move
import Elenchus.Proofs.Search.Playback
import Elenchus.Proofs.Search.Refutation
import Elenchus.Proofs.Search.Trail
