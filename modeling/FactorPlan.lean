import FactorPlan.Version
import FactorPlan.Number.Double
import FactorPlan.Expr.Query
import FactorPlan.Formula.Assignments
import FactorPlan.Formula.Vocabulary
import FactorPlan.Grouping.Split
import FactorPlan.Algebra.Simplify
import FactorPlan.Rules.Values
import FactorPlan.Sharing.Extract
import FactorPlan.Graph.Layout
import FactorPlan.Graph.Report
import FactorPlan.Plan.Chain
import FactorPlan.Plan.Dependency
import FactorPlan.Plan.Generate
import FactorPlan.Target.Polars
import FactorPlan.Target.Pandas
import FactorPlan.Latex.Formula
import FactorPlan.Genetic.Listing
import FactorPlan.Genetic.Filter
import FactorPlan.Proofs.Values
import FactorPlan.Proofs.Outputs
import FactorPlan.Proofs.Homogeneous
import FactorPlan.Proofs.Precedence
import FactorPlan.Proofs.Building
import FactorPlan.Proofs.Availability
import FactorPlan.Proofs.Cutting
import FactorPlan.Proofs.Kinds
import FactorPlan.Proofs.Negated
import FactorPlan.Proofs.GroupColumns
import FactorPlan.Proofs.Regrouping
import FactorPlan.Proofs.Sequence
import FactorPlan.Proofs.Reachability
import FactorPlan.Proofs.Scripts
import FactorPlan.Proofs.Columns
import FactorPlan.Proofs.Styles
import FactorPlan.Proofs.Decoding
import FactorPlan.Proofs.Faithful
import FactorPlan.Proofs.Exchanges
import FactorPlan.Proofs.Negatives
import FactorPlan.Proofs.Operands
import FactorPlan.Proofs.Refusal
import FactorPlan.Proofs.Windows
import FactorPlan.Proofs.Collapse
import FactorPlan.Proofs.Acceptance
import FactorPlan.Proofs.Contraction
import FactorPlan.Proofs.Assignments
import FactorPlan.Proofs.Calls
import FactorPlan.Proofs.Candidates
import FactorPlan.Proofs.Bindings
import FactorPlan.Proofs.Layout
import FactorPlan.Proofs.Naming
import FactorPlan.Proofs.SymbolNames
import FactorPlan.Proofs.Sources
import FactorPlan.Proofs.Attached
import FactorPlan.Proofs.Receivers
import FactorPlan.Proofs.Kept
import FactorPlan.Proofs.Linking
import FactorPlan.Proofs.Usage
import FactorPlan.Proofs.Extraction
