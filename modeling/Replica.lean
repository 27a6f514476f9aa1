import Replica.Main
import Replica.Proofs.Aliases
import Replica.Proofs.Command.Rerun
import Replica.Proofs.Erasure
import Replica.Proofs.Expr.Sections
import Replica.Proofs.Expr.Text
import Replica.Proofs.Extension
import Replica.Proofs.Flattening
import Replica.Proofs.Inlining
import Replica.Proofs.Loading.Closure
import Replica.Proofs.Loading.Failures
import Replica.Proofs.Lookup
import Replica.Proofs.Namespace.Merging
import Replica.Proofs.Namespace.RoundTrip
import Replica.Proofs.Reachability
import Replica.Proofs.Run.Capture
import Replica.Proofs.Run.Constraints
import Replica.Proofs.Run.Containment
import Replica.Proofs.Run.Ending
import Replica.Proofs.Run.Identifiers
import Replica.Proofs.Run.Locality
import Replica.Proofs.Run.Naming
import Replica.Proofs.Run.Union
import Replica.Proofs.Turns
import Replica.Proofs.Ty.Substitution
import Replica.Proofs.Ty.Text
