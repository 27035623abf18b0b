import FairProgram.Main
import FairProgram.Proofs.Classifier.Assignments
import FairProgram.Proofs.Classifier.Documents
import FairProgram.Proofs.Classifier.ForwardPass
import FairProgram.Proofs.Classifier.Nesting
import FairProgram.Proofs.Classifier.Predictions
import FairProgram.Proofs.Classifier.Reads
import FairProgram.Proofs.Classifier.Shapes
import FairProgram.Proofs.Classifier.Stages
import FairProgram.Proofs.Classifier.Trees
import FairProgram.Proofs.Classifier.Unrolling
import FairProgram.Proofs.Classifier.Variables
import FairProgram.Proofs.Dataset.Records
import FairProgram.Proofs.Dataset.Rows
import FairProgram.Proofs.Decimal.Literal
import FairProgram.Proofs.Decimal.Order
import FairProgram.Proofs.Decimal.Reading
import FairProgram.Proofs.Decimal.Units
import FairProgram.Proofs.Double.Arithmetic
import FairProgram.Proofs.Double.Bits
import FairProgram.Proofs.Double.Closest
import FairProgram.Proofs.Double.Comparison
import FairProgram.Proofs.Double.Error
import FairProgram.Proofs.Double.Finite
import FairProgram.Proofs.Double.Fraction
import FairProgram.Proofs.Double.Near
import FairProgram.Proofs.Double.Nearest
import FairProgram.Proofs.Double.Nonneg
import FairProgram.Proofs.Double.Order
import FairProgram.Proofs.Double.Rounding
import FairProgram.Proofs.Double.Whole
import FairProgram.Proofs.Faults
import FairProgram.Proofs.Fit.Choice
import FairProgram.Proofs.Fit.Constant
import FairProgram.Proofs.Fit.Proper
import FairProgram.Proofs.Fit.Units
import FairProgram.Proofs.Json.Numbers
import FairProgram.Proofs.Partition.Buckets
import FairProgram.Proofs.Partition.Capacity
import FairProgram.Proofs.Partition.Gains
import FairProgram.Proofs.Partition.Observations
import FairProgram.Proofs.Partition.OneCut
import FairProgram.Proofs.Partition.Ranges
import FairProgram.Proofs.Partition.Search
import FairProgram.Proofs.Partition.Segments
import FairProgram.Proofs.Partition.Sides
import FairProgram.Proofs.Population.Agreement
import FairProgram.Proofs.Population.ColumnSets
import FairProgram.Proofs.Population.Coverage
import FairProgram.Proofs.Population.Fits
import FairProgram.Proofs.Population.Growth
import FairProgram.Proofs.Population.Partitions
import FairProgram.Proofs.Population.Pruning
import FairProgram.Proofs.Population.Shape
import FairProgram.Proofs.Population.Siblings
import FairProgram.Proofs.Population.Totality
import FairProgram.Proofs.Population.Tree
import FairProgram.Proofs.Predicate.Grammar
import FairProgram.Proofs.Predicate.Rendering
import FairProgram.Proofs.Program.Chains
import FairProgram.Proofs.Program.Classifier
import FairProgram.Proofs.Program.Draws
import FairProgram.Proofs.Program.Fits
import FairProgram.Proofs.Program.Outline
import FairProgram.Proofs.Program.Population
import FairProgram.Proofs.Program.Rules
import FairProgram.Proofs.Program.Script
import FairProgram.Proofs.Program.Steps
import FairProgram.Proofs.Program.Target
import FairProgram.Proofs.Program.Terms
import FairProgram.Proofs.Program.Tokens
import FairProgram.Proofs.Rule.Execution
import FairProgram.Proofs.Rule.Paths
import FairProgram.Proofs.Selection
import FairProgram.Proofs.Stats.Around
import FairProgram.Proofs.Stats.Bins
import FairProgram.Proofs.Stats.Constant
import FairProgram.Proofs.Stats.Distance
import FairProgram.Proofs.Stats.Edges
import FairProgram.Proofs.Stats.Entropy
import FairProgram.Proofs.Stats.Masses
import FairProgram.Proofs.Stats.Moments
import FairProgram.Proofs.Stats.Normal
import FairProgram.Proofs.Stats.Ranks
import FairProgram.Proofs.Text.Parts
