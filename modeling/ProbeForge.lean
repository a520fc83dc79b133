import ProbeForge.Behaviour
import ProbeForge.CommandLine.Actions
import ProbeForge.CommandLine.Arguments
import ProbeForge.Consistency.Grid
import ProbeForge.Consistency.Matrices
import ProbeForge.Consistency.Normalization
import ProbeForge.Consistency.Radius
import ProbeForge.Consistency.Repair
import ProbeForge.Database.Executor
import ProbeForge.Database.Introspection
import ProbeForge.Database.Server
import ProbeForge.Derivation.Engine
import ProbeForge.Derivation.Growth
import ProbeForge.Derivation.NodeLimit
import ProbeForge.Derivation.Rendering
import ProbeForge.Derivation.Tree
import ProbeForge.Evolution.Breeder
import ProbeForge.Evolution.Candidate
import ProbeForge.Evolution.Herd
import ProbeForge.Evolution.OutcomePattern
import ProbeForge.Evolution.Rehearsal
import ProbeForge.Evolution.Scoring
import ProbeForge.Evolution.Tournament
import ProbeForge.Fault
import ProbeForge.Files
import ProbeForge.Grammar.Basic
import ProbeForge.Grammar.Declaration
import ProbeForge.Grammar.Definition
import ProbeForge.Grammar.Listing
import ProbeForge.Grammar.Tuning
import ProbeForge.Grammar.Weights
import ProbeForge.Grammars.Arithmetic
import ProbeForge.Grammars.SelectCore
import ProbeForge.Json.Access
import ProbeForge.Json.Basic
import ProbeForge.Json.Form
import ProbeForge.Json.Reader
import ProbeForge.Json.Writer
import ProbeForge.Library
import ProbeForge.Main
import ProbeForge.MetadataFile
import ProbeForge.Numeric.Binary64
import ProbeForge.Numeric.Fixed
import ProbeForge.Numeric.Power
import ProbeForge.Numeric.Scalar
import ProbeForge.Numeric.Shortest
import ProbeForge.OrderedMap
import ProbeForge.ProbeFile
import ProbeForge.Proofs.Arithmetic.Sentences
import ProbeForge.Proofs.Consistency.Cycles
import ProbeForge.Proofs.Consistency.IncrementalRepair
import ProbeForge.Proofs.Consistency.Iteration
import ProbeForge.Proofs.Consistency.LoweredWeights
import ProbeForge.Proofs.Consistency.Normalization
import ProbeForge.Proofs.Consistency.Production
import ProbeForge.Proofs.Consistency.RadiusBounds
import ProbeForge.Proofs.Consistency.Recursion
import ProbeForge.Proofs.Consistency.Repair
import ProbeForge.Proofs.Consistency.Reweighing
import ProbeForge.Proofs.Consistency.Supersolution
import ProbeForge.Proofs.Consistency.Verdict
import ProbeForge.Proofs.Database.Accounts
import ProbeForge.Proofs.Database.Clashes
import ProbeForge.Proofs.Database.Connections
import ProbeForge.Proofs.Database.Introspection
import ProbeForge.Proofs.Database.TimeLimits
import ProbeForge.Proofs.Derivation.ColumnReferences
import ProbeForge.Proofs.Derivation.Depth
import ProbeForge.Proofs.Derivation.Descent
import ProbeForge.Proofs.Derivation.Expansion
import ProbeForge.Proofs.Derivation.Leftmost
import ProbeForge.Proofs.Derivation.Lossless
import ProbeForge.Proofs.Derivation.NodeLimits
import ProbeForge.Proofs.Derivation.OpenBlocks
import ProbeForge.Proofs.Derivation.Pumping
import ProbeForge.Proofs.Derivation.Records
import ProbeForge.Proofs.Derivation.Rendering
import ProbeForge.Proofs.Derivation.Replay
import ProbeForge.Proofs.Derivation.Runs
import ProbeForge.Proofs.Derivation.Safety
import ProbeForge.Proofs.Derivation.Scripts
import ProbeForge.Proofs.Derivation.Turns
import ProbeForge.Proofs.Endings
import ProbeForge.Proofs.Evolution.Assembly
import ProbeForge.Proofs.Evolution.Championship
import ProbeForge.Proofs.Evolution.Crossovers
import ProbeForge.Proofs.Evolution.Distributions
import ProbeForge.Proofs.Evolution.Generations
import ProbeForge.Proofs.Evolution.Mutations
import ProbeForge.Proofs.Evolution.Numbering
import ProbeForge.Proofs.Evolution.Operators
import ProbeForge.Proofs.Evolution.Retries
import ProbeForge.Proofs.Evolution.Scores
import ProbeForge.Proofs.Evolution.Setbacks
import ProbeForge.Proofs.Evolution.Standings
import ProbeForge.Proofs.Evolution.Tournament
import ProbeForge.Proofs.Evolution.Winners
import ProbeForge.Proofs.Files
import ProbeForge.Proofs.Grammar.Bookkeeping
import ProbeForge.Proofs.Grammar.Building
import ProbeForge.Proofs.Grammar.Closure
import ProbeForge.Proofs.Grammar.Coherence
import ProbeForge.Proofs.Grammar.Genes
import ProbeForge.Proofs.Grammar.Positivity
import ProbeForge.Proofs.Grammar.Refusals
import ProbeForge.Proofs.Grammar.Reweighing
import ProbeForge.Proofs.Grammar.Selection
import ProbeForge.Proofs.Interning.Catalogs
import ProbeForge.Proofs.Interning.Histories
import ProbeForge.Proofs.Interning.Requests
import ProbeForge.Proofs.Json.Integers
import ProbeForge.Proofs.Numbered
import ProbeForge.Proofs.Numeric.Rational
import ProbeForge.Proofs.Numeric.Real
import ProbeForge.Proofs.OrderedMap
import ProbeForge.Proofs.Outcome
import ProbeForge.Proofs.ProbeFile
import ProbeForge.Proofs.Random.Samples
import ProbeForge.Proofs.Scope.Aliasing
import ProbeForge.Proofs.Scope.Along
import ProbeForge.Proofs.Scope.Announcements
import ProbeForge.Proofs.Scope.Changes
import ProbeForge.Proofs.Scope.ColumnSources
import ProbeForge.Proofs.Scope.Cursors
import ProbeForge.Proofs.Scope.Edits
import ProbeForge.Proofs.Scope.Effects
import ProbeForge.Proofs.Scope.Fields
import ProbeForge.Proofs.Scope.Histories
import ProbeForge.Proofs.Scope.Minting
import ProbeForge.Proofs.Scope.Naming
import ProbeForge.Proofs.Scope.Outputs
import ProbeForge.Proofs.Scope.Plain
import ProbeForge.Proofs.Scope.Registration
import ProbeForge.Proofs.Scope.Requests
import ProbeForge.Proofs.Scope.Resolution
import ProbeForge.Proofs.Scope.Retention
import ProbeForge.Proofs.Scope.Soundness
import ProbeForge.Proofs.SelectCore.Bracketing
import ProbeForge.Proofs.SelectCore.Brackets
import ProbeForge.Proofs.SelectCore.Finished
import ProbeForge.Proofs.SelectCore.Picks
import ProbeForge.Proofs.SelectCore.Places
import ProbeForge.Proofs.SelectCore.QualifiedTables
import ProbeForge.Proofs.SelectCore.Qualifiers
import ProbeForge.Proofs.SelectCore.References
import ProbeForge.Proofs.SelectCore.Representers
import ProbeForge.Proofs.SelectCore.Rules
import ProbeForge.Proofs.SelectCore.Sources
import ProbeForge.Proofs.SelectCore.Supply
import ProbeForge.Proofs.SelectCore.Trees
import ProbeForge.Proofs.SelectCore.Writing
import ProbeForge.Proofs.Text.Blank
import ProbeForge.Proofs.Text.Tokens
import ProbeForge.Proofs.Universe
import ProbeForge.Proofs.Universe.Additions
import ProbeForge.Proofs.Universe.Partition
import ProbeForge.Proofs.WeightFile
import ProbeForge.Random.MersenneTwister
import ProbeForge.Random.Source
import ProbeForge.Report.Grammar
import ProbeForge.Report.Scope
import ProbeForge.Report.Server
import ProbeForge.Report.Statement
import ProbeForge.Rule
import ProbeForge.Scope.Catalog
import ProbeForge.Scope.Segment
import ProbeForge.Session
import ProbeForge.Settings
import ProbeForge.Symbol
import ProbeForge.Text.Blank
import ProbeForge.Text.Lines
import ProbeForge.Text.Numeral
import ProbeForge.Text.Printable
import ProbeForge.Text.Quoted
import ProbeForge.Text.UpperCase
import ProbeForge.Universe
import ProbeForge.WeightFile
