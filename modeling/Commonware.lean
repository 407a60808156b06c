import Commonware.VoterExpects
import Commonware.SimplexAgreement
import Commonware.ResolverExchange
import Commonware.BatcherActor
import Commonware.SimplexThreshold
import Commonware.BroadcastRecovery
import Commonware.AggregationTip
import Commonware.SafeTipRank
import Commonware.MarshalDelivery
import Commonware.MmrPruning
import Commonware.MmrParallel
import Commonware.PinnedNodes
import Commonware.VariableReopen
import Commonware.TreeInclusion
import Commonware.JournaledPinned
import Commonware.BitmapInclusion
import Commonware.Transcript
import Commonware.SectionReplay
import Commonware.PeerTracker
import Commonware.Zoda
import Commonware.ProofStore
import Commonware.GossipShuffle
import Commonware.TrackedDelivery
import Commonware.EpochChain
import Commonware.SyncGaps
