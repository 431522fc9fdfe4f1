import Interception.Evaluation
import Interception.Session.Run
import Interception.Value.Text
import Interception.Proofs.Replacement
import Interception.Proofs.Demands
import Interception.Proofs.Operations
import Interception.Proofs.Moves
import Interception.Proofs.Reentrancy
import Interception.Proofs.PureConverters
import Interception.Proofs.LinearWalk
import Interception.Proofs.Consultations
import Interception.Proofs.Exhaustion
import Interception.Proofs.Overlaps
import Interception.Proofs.Events
import Interception.Proofs.Offers
import Interception.Proofs.CallTrees
import Interception.Proofs.Tallies
import Interception.Proofs.Accounts
import Interception.Proofs.Failures
import Interception.Proofs.Settlements
import Interception.Proofs.Provenance
import Interception.Proofs.SharedCaches
import Interception.Proofs.Emissions
import Interception.Proofs.Fetches
import Interception.Proofs.Termination
import Interception.Proofs.Disabling
import Interception.Proofs.Patches
import Interception.Proofs.DepthLimits
import Interception.Proofs.Padding
import Interception.Proofs.Bounds
import Interception.Proofs.ManualScopes
import Interception.Proofs.Forwarding
import Interception.Proofs.ScopeForms
import Interception.Proofs.Brackets
import Interception.Proofs.Countdown
