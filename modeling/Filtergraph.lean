import Filtergraph.Catalogue
import Filtergraph.Change
import Filtergraph.Command
import Filtergraph.CommandLine.Request
import Filtergraph.CommandLine.Response
import Filtergraph.Dict
import Filtergraph.Files.Path
import Filtergraph.Files.System
import Filtergraph.Filter
import Filtergraph.Graph
import Filtergraph.Main
import Filtergraph.Mapping
import Filtergraph.Media
import Filtergraph.Node
import Filtergraph.Number
import Filtergraph.Pipeline.Basic
import Filtergraph.Pipeline.Build
import Filtergraph.Pipeline.Document
import Filtergraph.Pipeline.Error
import Filtergraph.Pipeline.Library
import Filtergraph.Preparation
import Filtergraph.Readers
import Filtergraph.Schedule
import Filtergraph.Text
import Filtergraph.Toml.DateTime
import Filtergraph.Toml.Printer
import Filtergraph.Toml.Quoting
import Filtergraph.Toml.Reader
import Filtergraph.Toml.Tree
import Filtergraph.Toml.Value
import Filtergraph.Proofs.Survey
import Filtergraph.Proofs.WellFormed
import Filtergraph.Proofs.History
import Filtergraph.Proofs.Detour
import Filtergraph.Proofs.Selectors
import Filtergraph.Proofs.Splits
import Filtergraph.Proofs.Uses
import Filtergraph.Proofs.Passes
import Filtergraph.Proofs.Chains
import Filtergraph.Proofs.Writing
import Filtergraph.Proofs.Compiled
import Filtergraph.Proofs.Labels
import Filtergraph.Proofs.Conservation
import Filtergraph.Proofs.Outcome
import Filtergraph.Proofs.Meaning
import Filtergraph.Proofs.Evaluation
import Filtergraph.Proofs.Origins
import Filtergraph.Proofs.Guard
import Filtergraph.Proofs.Inputs
import Filtergraph.Proofs.Agreement
import Filtergraph.Proofs.Recompilation
import Filtergraph.Proofs.Lockstep
import Filtergraph.Proofs.Influence
import Filtergraph.Proofs.Construction
import Filtergraph.Proofs.Blueprints
import Filtergraph.Proofs.ShellWords
import Filtergraph.Proofs.Layout
import Filtergraph.Proofs.Renaming
import Filtergraph.Proofs.Rounding
import Filtergraph.Proofs.Numerals
import Filtergraph.Proofs.Quotation
import Filtergraph.Proofs.Lines
import Filtergraph.Proofs.Assembly
import Filtergraph.Proofs.RoundTrip
import Filtergraph.Proofs.Exactness
import Filtergraph.Proofs.SharedSelectors
import Filtergraph.Proofs.Frame
import Filtergraph.Proofs.Maximality
import Filtergraph.Proofs.RedundantRoots
import Filtergraph.Proofs.FreeText
import Filtergraph.Proofs.Nearest
import Filtergraph.Proofs.ValueGrammar
import Filtergraph.Proofs.Settings
import Filtergraph.Proofs.Speeds
import Filtergraph.Proofs.Expression
import Filtergraph.Proofs.Refusals
import Filtergraph.Proofs.StreamNames
import Filtergraph.Proofs.PipelineNames
import Filtergraph.Proofs.Clocks
import Filtergraph.Proofs.Tours
import Filtergraph.Proofs.Endings
