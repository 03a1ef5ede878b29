import CytahSpeed.ByteString
import CytahSpeed.FiniteMap
import CytahSpeed.MachineInt
import CytahSpeed.Sha256
import CytahSpeed.Transaction
import CytahSpeed.Block
import CytahSpeed.BlockStore
import CytahSpeed.Worklist
import CytahSpeed.DagIndex
import CytahSpeed.BlockDag
import CytahSpeed.Selection
import CytahSpeed.DagInvariant
import CytahSpeed.DagRun
import CytahSpeed.IndexAgreement
import CytahSpeed.AppendOnly
import CytahSpeed.BlockIdentity
import CytahSpeed.Convergence
import CytahSpeed.Ghostdag
import CytahSpeed.ProducerAnnotation
import CytahSpeed.LevelTree
import CytahSpeed.StateTree
import CytahSpeed.TraceOrder
import CytahSpeed.GreedyColoring
import CytahSpeed.StateManager
import CytahSpeed.ParallelExecutor
import CytahSpeed.ConflictSchedule
import CytahSpeed.TransactionFrame
import CytahSpeed.Serialisability
import CytahSpeed.KahnOrder
import CytahSpeed.Replay
import CytahSpeed.TopologicalOrder
import CytahSpeed.FinalityEngine
import CytahSpeed.Finality
import CytahSpeed.Irrevocability
import CytahSpeed.Reachability
import CytahSpeed.BlueScore
import CytahSpeed.SharedStore
import CytahSpeed.MapSum
import CytahSpeed.Tokenomics
import CytahSpeed.Emission
import CytahSpeed.TransferLaw
import CytahSpeed.CallProgram
import CytahSpeed.HostFunctions
import CytahSpeed.WasmEngine
import CytahSpeed.StorageIsolation
import CytahSpeed.ContractExecutor
import CytahSpeed.TransactionExecutor
import CytahSpeed.ExecutionHistory
import CytahSpeed.ReplayProtection
import CytahSpeed.NodeRuntime
import CytahSpeed.Mempool
import CytahSpeed.MempoolReadiness
import CytahSpeed.MempoolIndex
import CytahSpeed.BlockCache
import CytahSpeed.TransactionIndex
import CytahSpeed.Rollback
import CytahSpeed.BlockProducer
import CytahSpeed.CoinbaseExecution
import CytahSpeed.ProducedReward
import CytahSpeed.NodeProduction
import CytahSpeed.PeerManager
import CytahSpeed.DosProtection
import CytahSpeed.Flooding
import CytahSpeed.Gossip
import CytahSpeed.MobileWallet
import CytahSpeed.StateSnapshot
import CytahSpeed.SyncManager
import CytahSpeed.DagSync
import CytahSpeed.KahnPrecedence
import CytahSpeed.ConsensusOrder
import CytahSpeed.Keccak
import CytahSpeed.BatchVerification
import CytahSpeed.HexDecoding
import CytahSpeed.WalletAddress
import CytahSpeed.Ancestry
import CytahSpeed.CommonAncestor
import CytahSpeed.BlueSet
import CytahSpeed.DagValidation
import CytahSpeed.RewardWindow
import CytahSpeed.ParentSelection
import CytahSpeed.GhostdagOrdering
import CytahSpeed.HashBinding
import CytahSpeed.StateRoot
import CytahSpeed.ReceiptOrder
import CytahSpeed.IndependentTransfers
import CytahSpeed.MempoolAdmission
import CytahSpeed.ContractFunds
import CytahSpeed.HostMemory
import CytahSpeed.FinalityAnticone
import CytahSpeed.RateLimit
import CytahSpeed.StateSync
import CytahSpeed.HeaderPaging
import CytahSpeed.MineBlock
import CytahSpeed.MinedSupply
import CytahSpeed.TransactionChoice
import CytahSpeed.NonceOrder
import CytahSpeed.PrunedWindow
import CytahSpeed.SnapshotSchedule
import CytahSpeed.Discovery
import CytahSpeed.RequestLimit
import CytahSpeed.Bandwidth
import CytahSpeed.BatchAgreement
import CytahSpeed.FeeMarket
import CytahSpeed.Daa
import CytahSpeed.MiningManager
import CytahSpeed.EventBus
import CytahSpeed.TreeContents
import CytahSpeed.TreeBalance
import CytahSpeed.ProofOfWork
import CytahSpeed.StoredRoot
import CytahSpeed.CountedCache
import CytahSpeed.CacheCounter
import CytahSpeed.ReplicaAgreement
import CytahSpeed.ParallelSupply
import CytahSpeed.P2PNode
import CytahSpeed.Serde
import CytahSpeed.EncodedMap
import CytahSpeed.RawBlockStore
import CytahSpeed.RawRegistry
import CytahSpeed.ShortestPath
import CytahSpeed.DagPaths
import CytahSpeed.RedSet
import CytahSpeed.RpcServer
import CytahSpeed.RpcReads
import CytahSpeed.SnapshotLookup
import CytahSpeed.PruneRequest
import CytahSpeed.PeersToConnect
import CytahSpeed.PreValidation
import CytahSpeed.MultiSearch
import CytahSpeed.DagQueries
import CytahSpeed.Flow
import CytahSpeed.NodeRun
import CytahSpeed.TransactionFlow
import CytahSpeed.NodeFinality
import CytahSpeed.Forgetting
import CytahSpeed.GossipCleanup
import CytahSpeed.StalePeers
import CytahSpeed.SpamDetection
import CytahSpeed.WsServer
