import LessChain.Lib.Machine
import LessChain.Lib.Fold
import LessChain.Lib.Order
import LessChain.Core.Types
import LessChain.Core.Account
import LessChain.Committee.TxPool
import LessChain.Client.Client
import LessChain.Client.Lifecycle
import LessChain.Committee.Execute
import LessChain.Shard.Execute
import LessChain.System.CrossShard
import LessChain.System.Atomicity
import LessChain.Trie.Encoding
import LessChain.Trie.Node
import LessChain.Trie.Update
import LessChain.Committee.Rebuild
import LessChain.Committee.StatelessRoot
import LessChain.Committee.ProofWalk
import LessChain.System.Handover
import LessChain.System.PoolIntegrity
import LessChain.System.HomeShard
import LessChain.System.Seeds
import LessChain.Lib.Quorum
import LessChain.Pbft.Network
import LessChain.Pbft.Agreement
import LessChain.Pbft.Votes
import LessChain.Contract.TBStorage
import LessChain.Contract.Threshold
import LessChain.Contract.Finality
import LessChain.Contract.Epochs
import LessChain.Contract.Mining
import LessChain.BeaconChain.Block
import LessChain.BeaconChain.Observers
import LessChain.Node.Reconfig
import LessChain.Node.Table
import LessChain.Node.Collect
import LessChain.Committee.MultiSign
import LessChain.Committee.WorkLoop
import LessChain.Committee.Publication
import LessChain.Shard.Storage
import LessChain.Shard.Sync
import LessChain.Committee.Commit
import LessChain.Committee.Reply
import LessChain.System.StorageChain
import LessChain.Contract.Authority
import LessChain.Shard.Conservation
import LessChain.BeaconChain.Delivery
import LessChain.System.ActiveAccounts
import LessChain.Pbft.Locks
import LessChain.Pbft.Rounds
import LessChain.Pbft.Reordering
import LessChain.System.Stop
import LessChain.System.Holdings
import LessChain.System.Quiescence
import LessChain.Lib.Stream
import LessChain.MessageHub.Framing
import LessChain.Lib.GenFun
import LessChain.Utils.Security
import LessChain.Cfg.Accounts
import LessChain.EthChain.Submit
import LessChain.Result.Result
import LessChain.Client.Receipts
import LessChain.Result.Metrics
import LessChain.Client.Injection
import LessChain.MessageHub.Connections
import LessChain.Lib.Words
import LessChain.Trie.Canonical
import LessChain.Trie.Delete
import LessChain.Trie.StackTrie
import LessChain.Trie.Binding
import LessChain.Lib.Abi
import LessChain.Core.DeriveSha
import LessChain.Core.TimeBeacon
import LessChain.EthChain.Subscribe
import LessChain.Committee.MerkleProof
import LessChain.BeaconChain.Simulation
import LessChain.System.BeaconPath
import LessChain.Trie.Database
import LessChain.Trie.Loading
import LessChain.Trie.Persistence
import LessChain.Trie.Versions
