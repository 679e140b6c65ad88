import CertifiedPlanning.CommandLine.Folder
import CertifiedPlanning.Main
import CertifiedPlanning.Scalar.Exact
import CertifiedPlanning.Proofs.Scalar.Binary64
import CertifiedPlanning.Proofs.SparseVector.Exactness
import CertifiedPlanning.Proofs.Graph.Calls
import CertifiedPlanning.Proofs.Planner.Improvement
import CertifiedPlanning.Proofs.Planner.Progress
import CertifiedPlanning.Proofs.Bracket.Caching
import CertifiedPlanning.Proofs.Bracket.Earnings
import CertifiedPlanning.Proofs.Bracket.Remembered
import CertifiedPlanning.Proofs.Policy.Export
import CertifiedPlanning.Proofs.Planner.Queries
import CertifiedPlanning.Proofs.Planner.Anytime
import CertifiedPlanning.Proofs.Planner.Solved
import CertifiedPlanning.Proofs.Planner.Sessions
import CertifiedPlanning.Proofs.Search.Depth
import CertifiedPlanning.Proofs.Bound.Redirection
import CertifiedPlanning.Proofs.Bound.IndexedLookup
import CertifiedPlanning.Proofs.Bound.Supplied
import CertifiedPlanning.Proofs.Bound.Lowering
import CertifiedPlanning.Proofs.Bound.Lookahead
import CertifiedPlanning.Proofs.Bracket.Omission
import CertifiedPlanning.Proofs.Model.Bayes
import CertifiedPlanning.Proofs.Model.FullObservation
import CertifiedPlanning.Proofs.Model.OptimalValues
import CertifiedPlanning.Proofs.Bracket.Footprint
import CertifiedPlanning.Proofs.Bracket.Repetition
import CertifiedPlanning.Proofs.Bracket.CachedActions
