import Satd.Chain.Difficulty
import Satd.Chain.InvalidRuns
import Satd.Chain.Placement
import Satd.Chain.PruneSafety
import Satd.Chain.SequenceLocks
import Satd.Chain.Supply
import Satd.Chain.Work
import Satd.Consensus.Conditions
import Satd.Consensus.Multisig
import Satd.Consensus.Numbers
import Satd.Consensus.Pushes
import Satd.Consensus.SoftFork
import Satd.Consensus.WitnessSpend
import Satd.Mempool.Diagram
import Satd.Mempool.OrphanageLimits
import Satd.Net.GetData
import Satd.Net.IbdRuns
import Satd.Net.TxRequestRuns
import Satd.Policy.Ruleset
import Satd.Psbt.Accepted
import Satd.Storage.Counters
import Satd.Storage.Merge
import Satd.Storage.Race
import Satd.Storage.RecentWindow
import Satd.Validation.Merkle
