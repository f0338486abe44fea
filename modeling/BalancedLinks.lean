import BalancedLinks.Main
import BalancedLinks.Proofs.Atomicity
import BalancedLinks.Proofs.Building
import BalancedLinks.Proofs.Cascade
import BalancedLinks.Proofs.Decoding
import BalancedLinks.Proofs.Exits
import BalancedLinks.Proofs.Growth
import BalancedLinks.Proofs.Halting
import BalancedLinks.Proofs.Height
import BalancedLinks.Proofs.Interleaving
import BalancedLinks.Proofs.Iteration
import BalancedLinks.Proofs.Merging
import BalancedLinks.Proofs.Naming
import BalancedLinks.Proofs.Positions
import BalancedLinks.Proofs.Ranges
import BalancedLinks.Proofs.Rebalancing
import BalancedLinks.Proofs.Refinement
import BalancedLinks.Proofs.Reflection
import BalancedLinks.Proofs.Renewal
import BalancedLinks.Proofs.Spine
import BalancedLinks.Proofs.Telling
import BalancedLinks.Proofs.Transparency
import BalancedLinks.Proofs.Transposition
import BalancedLinks.Proofs.Undoing
import BalancedLinks.Proofs.Withdrawal
import BalancedLinks.Session.Run
