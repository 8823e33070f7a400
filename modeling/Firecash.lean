import Firecash.Shielded.Run
import Firecash.Consensus.FeeCycle
import Firecash.Consensus.SeededNode
import Firecash.Consensus.UntrustedImport
import Firecash.Consensus.BranchSnapshots
import Firecash.Wallet.Corrupt
import Firecash.Wallet.Mirror
import Firecash.Wallet.PaymentCheck
import Firecash.Ghostdag.Growth
import Firecash.Gateway.Reconcile
import Firecash.Walletd.Interleaving
import Firecash.Walletd.Birthday
import Firecash.Reachability.Advance
import Firecash.Walletd.PaymentPlan
import Firecash.Shielded.Frontier
import Firecash.Wallet.Preview
import Firecash.Wallet.Graft
import Firecash.Consensus.UtxoDiff
import Firecash.Smt.Proof
import Firecash.Pow.MerkleRoot
import Firecash.Consensus.CoinbasePayload
import Firecash.Consensus.Emission
import Firecash.Mining.RelayPolicy
import Firecash.Math.Division
import Firecash.Reachability.Covering
import Firecash.PruningProof.Compare
import Firecash.Math.Uint
