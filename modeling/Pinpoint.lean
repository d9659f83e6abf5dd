import Pinpoint.Main
import Pinpoint.Expr.Interchange
import Pinpoint.Proofs.Acceptance
import Pinpoint.Proofs.Listing
import Pinpoint.Proofs.Constants
import Pinpoint.Proofs.Elaborated
import Pinpoint.Proofs.Circularity
import Pinpoint.Proofs.PartialProofs
import Pinpoint.Proofs.References
import Pinpoint.Proofs.Candidates
import Pinpoint.Proofs.Unifiers
import Pinpoint.Proofs.MetadataMatches
import Pinpoint.Proofs.Enumeration
import Pinpoint.Proofs.Everywhere
import Pinpoint.Proofs.Locality
import Pinpoint.Proofs.Independence
import Pinpoint.Proofs.RoundTrip
import Pinpoint.Proofs.Conversion
import Pinpoint.Proofs.Erasure
import Pinpoint.Proofs.Widths
import Pinpoint.Proofs.Grouping
import Pinpoint.Proofs.Sides
import Pinpoint.Proofs.TypedEnvironments
import Pinpoint.Proofs.TypedEquations
import Pinpoint.Proofs.TypedRewrites
import Pinpoint.Proofs.TypedStates
import Pinpoint.Proofs.TypedChanges
import Pinpoint.Proofs.TypedProofs
import Pinpoint.Proofs.DefinitionalEquality
import Pinpoint.Proofs.Mentions
import Pinpoint.Proofs.Declarations
import Pinpoint.Proofs.LevelInstances
import Pinpoint.Proofs.Loading
import Pinpoint.Proofs.BoundNames
import Pinpoint.Proofs.LoadedStates
import Pinpoint.Proofs.WrappedStatements
import Pinpoint.Proofs.HeadNormal
import Pinpoint.Proofs.Reflexivity
import Pinpoint.Proofs.MatchedProofs
import Pinpoint.Proofs.Hygiene
import Pinpoint.Proofs.Sessions
import Pinpoint.Proofs.Literals
import Pinpoint.Proofs.Segmentation
import Pinpoint.Proofs.HypothesisNames
import Pinpoint.Proofs.Operations
import Pinpoint.Proofs.LevelValues
import Pinpoint.Proofs.LevelMatches
import Pinpoint.Proofs.VariableRanges
import Pinpoint.Proofs.AcceptedCasts
import Pinpoint.Proofs.Opening
import Pinpoint.Proofs.Applications
import Pinpoint.Proofs.Filling
