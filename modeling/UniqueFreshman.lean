import UniqueFreshman.RaftAppendLogProofs
import UniqueFreshman.RaftTermOrderProofs
import UniqueFreshman.TermLogProofs
import UniqueFreshman.TermLogSafetyProofs
import UniqueFreshman.RaftLogMatchingProofs
import UniqueFreshman.RaftTallyProofs
import UniqueFreshman.RaftElectionProofs
import UniqueFreshman.RaftCommitProofs
import UniqueFreshman.RaftSafetyProofs
import UniqueFreshman.SetBalanceProofs
import UniqueFreshman.SetEraseProofs
import UniqueFreshman.SetRefinementProofs
import UniqueFreshman.SetShapeProofs
import UniqueFreshman.BinomialTreeProofs
import UniqueFreshman.LinkedListProofs
import UniqueFreshman.PriorityQueueProofs
import UniqueFreshman.QueueLinksProofs
import UniqueFreshman.QueueStoreProofs
import UniqueFreshman.QueueConsolidateProofs
import UniqueFreshman.QueuePopProofs
import UniqueFreshman.QueueRefinementProofs
import UniqueFreshman.QueueShapeProofs
import UniqueFreshman.QueueRootsProofs
import UniqueFreshman.QueueBinaryProofs
import UniqueFreshman.RaftAppendEntriesProofs
import UniqueFreshman.RaftBackupProofs
import UniqueFreshman.RaftVoteProofs
import UniqueFreshman.DescriptorTableProofs
import UniqueFreshman.FileCallsProofs
import UniqueFreshman.OverlayProofs
import UniqueFreshman.OverlayResolutionProofs
import UniqueFreshman.OverlayListingProofs
import UniqueFreshman.OverlayUnlinkProofs
import UniqueFreshman.OverlayDescriptorProofs
import UniqueFreshman.CStringProofs
import UniqueFreshman.OverlayBufferProofs
import UniqueFreshman.ShellRedirectProofs
import UniqueFreshman.ShellParseProofs
import UniqueFreshman.ShellQuoteProofs
import UniqueFreshman.ShellLineProofs
import UniqueFreshman.ShellPipeProofs
import UniqueFreshman.ShellXargsProofs
import UniqueFreshman.LexOrderProofs
import UniqueFreshman.ShellListProofs
import UniqueFreshman.CipherProofs
import UniqueFreshman.RelayProofs
import UniqueFreshman.ProxyRequestProofs
import UniqueFreshman.ProxyHandshakeProofs
import UniqueFreshman.RaftCommitIndexProofs
import UniqueFreshman.RaftQuorumProofs
import UniqueFreshman.RaftLeaderBooksProofs
import UniqueFreshman.RaftStaleRequestProofs
import UniqueFreshman.RaftTenureProofs
import UniqueFreshman.RpcDeliveryProofs
import UniqueFreshman.RaftRpcProofs
import UniqueFreshman.RaftTesterProofs
import UniqueFreshman.RaftLeaderProofs
import UniqueFreshman.SetMemoryProofs
import UniqueFreshman.QueueMemoryProofs
import UniqueFreshman.OverlayMountProofs
import UniqueFreshman.ProxySessionProofs
import UniqueFreshman.LabgobProofs
