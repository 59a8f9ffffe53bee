import SignalEvolution.Arithmetic.Binary
import SignalEvolution.Arithmetic.Decimal
import SignalEvolution.Arithmetic.Exact
import SignalEvolution.Arithmetic.Scalar
import SignalEvolution.Arithmetic.Shortest
import SignalEvolution.Backtest.Account
import SignalEvolution.Backtest.Metrics
import SignalEvolution.Backtest.Run
import SignalEvolution.Backtest.Settings
import SignalEvolution.Configuration.Layers
import SignalEvolution.Configuration.Section
import SignalEvolution.Configuration.Store
import SignalEvolution.Configuration.Table
import SignalEvolution.Digest.Sha256
import SignalEvolution.Evolution.Engine
import SignalEvolution.Evolution.Hall
import SignalEvolution.Evolution.Objectives
import SignalEvolution.Evolution.Population
import SignalEvolution.Evolution.Selection
import SignalEvolution.Evolution.Settings
import SignalEvolution.Fitness
import SignalEvolution.Formula.Outline
import SignalEvolution.Formula.Reader
import SignalEvolution.Formula.Split
import SignalEvolution.Gene
import SignalEvolution.Indicator.Call
import SignalEvolution.Indicator.Catalogue
import SignalEvolution.Indicator.Reading
import SignalEvolution.Json.Basic
import SignalEvolution.Json.Document
import SignalEvolution.Json.Form
import SignalEvolution.Json.Record
import SignalEvolution.Json.Text
import SignalEvolution.Main
import SignalEvolution.Market.Bar
import SignalEvolution.Market.Context
import SignalEvolution.Market.Walk
import SignalEvolution.Problem
import SignalEvolution.Proofs.Arithmetic.Digits
import SignalEvolution.Proofs.Arithmetic.Exact
import SignalEvolution.Proofs.Arithmetic.Extremes
import SignalEvolution.Proofs.Arithmetic.HalfEven
import SignalEvolution.Proofs.Arithmetic.Nearest
import SignalEvolution.Proofs.Arithmetic.Numeral
import SignalEvolution.Proofs.Arithmetic.Operations
import SignalEvolution.Proofs.Arithmetic.Packing
import SignalEvolution.Proofs.Arithmetic.Round
import SignalEvolution.Proofs.Arithmetic.RoundTrip
import SignalEvolution.Proofs.Arithmetic.Rounding
import SignalEvolution.Proofs.Arithmetic.Shortest
import SignalEvolution.Proofs.Arithmetic.Value
import SignalEvolution.Proofs.Arithmetic.Whole
import SignalEvolution.Proofs.Backtest.Balance
import SignalEvolution.Proofs.Backtest.Drawdown
import SignalEvolution.Proofs.Backtest.Prefix
import SignalEvolution.Proofs.Backtest.Solvency
import SignalEvolution.Proofs.Backtest.Steps
import SignalEvolution.Proofs.Backtest.Trades
import SignalEvolution.Proofs.Configuration.Store
import SignalEvolution.Proofs.Evolution.Bounds
import SignalEvolution.Proofs.Evolution.Convergence
import SignalEvolution.Proofs.Evolution.Course
import SignalEvolution.Proofs.Evolution.Duplicates
import SignalEvolution.Proofs.Evolution.Elitism
import SignalEvolution.Proofs.Evolution.Ending
import SignalEvolution.Proofs.Evolution.Entrance
import SignalEvolution.Proofs.Evolution.Hall
import SignalEvolution.Proofs.Evolution.Inheritance
import SignalEvolution.Proofs.Evolution.Objectives
import SignalEvolution.Proofs.Evolution.Offers
import SignalEvolution.Proofs.Evolution.Parameters
import SignalEvolution.Proofs.Evolution.Ranking
import SignalEvolution.Proofs.Evolution.Reports
import SignalEvolution.Proofs.Evolution.Selection
import SignalEvolution.Proofs.Evolution.Settings
import SignalEvolution.Proofs.Evolution.Stages
import SignalEvolution.Proofs.Evolution.Succession
import SignalEvolution.Proofs.Evolution.Wheel
import SignalEvolution.Proofs.Formula.Arguments
import SignalEvolution.Proofs.Formula.Assignment
import SignalEvolution.Proofs.Formula.Blanks
import SignalEvolution.Proofs.Formula.Call
import SignalEvolution.Proofs.Formula.Casing
import SignalEvolution.Proofs.Formula.Comparison
import SignalEvolution.Proofs.Formula.Cut
import SignalEvolution.Proofs.Formula.Depth
import SignalEvolution.Proofs.Formula.Descent
import SignalEvolution.Proofs.Formula.Grammar
import SignalEvolution.Proofs.Formula.Grouping
import SignalEvolution.Proofs.Formula.Language
import SignalEvolution.Proofs.Formula.Lenient
import SignalEvolution.Proofs.Formula.Modes
import SignalEvolution.Proofs.Formula.Offsets
import SignalEvolution.Proofs.Formula.Operand
import SignalEvolution.Proofs.Formula.Parts
import SignalEvolution.Proofs.Formula.Places
import SignalEvolution.Proofs.Formula.Rendering
import SignalEvolution.Proofs.Formula.Slices
import SignalEvolution.Proofs.Formula.Strict
import SignalEvolution.Proofs.Formula.Words
import SignalEvolution.Proofs.Indicator.Calculation
import SignalEvolution.Proofs.Indicator.Key
import SignalEvolution.Proofs.Indicator.Lookback
import SignalEvolution.Proofs.Indicator.Names
import SignalEvolution.Proofs.Indicator.Oscillators
import SignalEvolution.Proofs.Indicator.Parameters
import SignalEvolution.Proofs.Json.Order
import SignalEvolution.Proofs.Json.Range
import SignalEvolution.Proofs.Json.Reading
import SignalEvolution.Proofs.Market.Window
import SignalEvolution.Proofs.Problem
import SignalEvolution.Proofs.Random.Always
import SignalEvolution.Proofs.Random.Normal
import SignalEvolution.Proofs.Random.Numbers
import SignalEvolution.Proofs.Random.Partial
import SignalEvolution.Proofs.Random.Uniform
import SignalEvolution.Proofs.Record.Acceptance
import SignalEvolution.Proofs.Record.Examination
import SignalEvolution.Proofs.Record.Exchange
import SignalEvolution.Proofs.Record.Fault
import SignalEvolution.Proofs.Record.Gene
import SignalEvolution.Proofs.Record.Migration
import SignalEvolution.Proofs.Record.Modes
import SignalEvolution.Proofs.Record.Naming
import SignalEvolution.Proofs.Record.Node
import SignalEvolution.Proofs.Record.Places
import SignalEvolution.Proofs.Record.Range
import SignalEvolution.Proofs.Table
import SignalEvolution.Proofs.Text.Case
import SignalEvolution.Proofs.Text.Encoding
import SignalEvolution.Proofs.Text.Hex
import SignalEvolution.Proofs.Text.Split
import SignalEvolution.Proofs.Text.Trim
import SignalEvolution.Proofs.Time.Instant
import SignalEvolution.Proofs.Tree.Arity
import SignalEvolution.Proofs.Tree.Capacity
import SignalEvolution.Proofs.Tree.Cursor
import SignalEvolution.Proofs.Tree.Distance
import SignalEvolution.Proofs.Tree.Equality
import SignalEvolution.Proofs.Tree.Made
import SignalEvolution.Proofs.Tree.Replacement
import SignalEvolution.Proofs.Tree.Signals
import SignalEvolution.Proofs.Tree.Size
import SignalEvolution.Proofs.Tree.Structure
import SignalEvolution.Proofs.Tree.Traversal
import SignalEvolution.Proofs.Variation.Arity
import SignalEvolution.Proofs.Variation.Bounds
import SignalEvolution.Proofs.Variation.Constants
import SignalEvolution.Proofs.Variation.Crossover
import SignalEvolution.Proofs.Variation.Edit
import SignalEvolution.Proofs.Variation.Effects
import SignalEvolution.Proofs.Variation.Inheritance
import SignalEvolution.Proofs.Variation.PointMutation
import SignalEvolution.Proofs.Variation.Results
import SignalEvolution.Proofs.Variation.Signals
import SignalEvolution.Proofs.Variation.SingleSite
import SignalEvolution.Random.ChaCha
import SignalEvolution.Random.Draw
import SignalEvolution.Random.Normal
import SignalEvolution.Random.Source
import SignalEvolution.Record.Ancestry
import SignalEvolution.Record.Exchange
import SignalEvolution.Record.Fault
import SignalEvolution.Record.Gene
import SignalEvolution.Record.Measurement
import SignalEvolution.Record.Migration
import SignalEvolution.Record.Node
import SignalEvolution.Record.Provenance
import SignalEvolution.Record.Validation
import SignalEvolution.Record.Vocabulary
import SignalEvolution.Search
import SignalEvolution.Table
import SignalEvolution.Text.Blank
import SignalEvolution.Text.Hex
import SignalEvolution.Text.Hidden
import SignalEvolution.Text.Quoted
import SignalEvolution.Time.Calendar
import SignalEvolution.Time.Clock
import SignalEvolution.Time.Instant
import SignalEvolution.Toml.Dialect
import SignalEvolution.Toml.Document
import SignalEvolution.Toml.Moment
import SignalEvolution.Toml.Text
import SignalEvolution.Toml.Token
import SignalEvolution.Tree.Basic
import SignalEvolution.Tree.Distance
import SignalEvolution.Tree.Evaluation
import SignalEvolution.Tree.Formula
import SignalEvolution.Tree.Path
import SignalEvolution.Tree.Symbol
import SignalEvolution.Tree.Template
import SignalEvolution.Variation.Generator
import SignalEvolution.Variation.Operators
