import Triangles.Lib.Outcome
import Triangles.Lib.Batch
import Triangles.Lib.Assoc
import Triangles.Lib.Buckets
import Triangles.Lib.Codec
import Triangles.Lib.Trace
import Triangles.Lib.Draw
import Triangles.Lib.Components
import Triangles.Lib.Renumber
import Triangles.Lib.Roster
import Triangles.Lib.Sums
import Triangles.Lib.Slots
import Triangles.Model.Transaction
import Triangles.Model.Block
import Triangles.Model.TxDb
import Triangles.Model.Connect
import Triangles.Model.PoolAccept
import Triangles.Model.Retarget
import Triangles.Model.ConnectBlock
import Triangles.Model.Serialize
import Triangles.Model.UtilText
import Triangles.Model.NetMessage
import Triangles.Model.LoadBlockIndex
import Triangles.Model.KeyStore
import Triangles.Lib.Limbs
import Triangles.Model.BaseUint
import Triangles.Proofs.BaseUint
import Triangles.Proofs.Alert
import Triangles.Proofs.HostPort
import Triangles.Proofs.ImportBlocks
import Triangles.Proofs.TimeData
import Triangles.Proofs.NetSend
import Triangles.Proofs.NetReceive
import Triangles.Model.Standard
import Triangles.Model.SigHash
import Triangles.Model.Interpreter
import Triangles.Model.Base58
import Triangles.Model.SecureMsg
import Triangles.Model.SmsgStore
import Triangles.Model.SmsgNet
import Triangles.Model.Wallet
import Triangles.Model.WalletCalls
import Triangles.Model.Node
import Triangles.Model.Kernel
import Triangles.Model.Index
import Triangles.Model.ProcessBlock
import Triangles.Model.AddrMan
import Triangles.Model.Miner
import Triangles.Model.CoinStake
import Triangles.Model.Spend
import Triangles.Model.KeyPool
import Triangles.Model.Handshake
import Triangles.Proofs.MemTable
import Triangles.Proofs.Pool
import Triangles.Proofs.PoolChain
import Triangles.Proofs.OrphanTx
import Triangles.Proofs.Book
import Triangles.Proofs.ConnectSpec
import Triangles.Proofs.BlockSpec
import Triangles.Proofs.Undo
import Triangles.Proofs.RoundTrip
import Triangles.Proofs.Supply
import Triangles.Proofs.Worth
import Triangles.Proofs.Merkle
import Triangles.Proofs.SigHash
import Triangles.Proofs.SigOps
import Triangles.Proofs.ForkSearch
import Triangles.Proofs.Frame
import Triangles.Proofs.WalletSync
import Triangles.Proofs.SpentFlags
import Triangles.Proofs.KeyDirectory
import Triangles.Proofs.MessageIntegrity
import Triangles.Proofs.Chain
import Triangles.Proofs.Coherence
import Triangles.Proofs.DoubleSpend
import Triangles.Proofs.Template
import Triangles.Proofs.StakedBlock
import Triangles.Proofs.CoinChoice
import Triangles.Proofs.Signing
import Triangles.Proofs.Payment
import Triangles.Proofs.CoinSelection
import Triangles.Proofs.TipRules
import Triangles.Proofs.Selection
import Triangles.Proofs.StakeModifier
import Triangles.Proofs.KernelView
import Triangles.Proofs.Compact
import Triangles.Proofs.Targets
import Triangles.Proofs.AcceptSpec
import Triangles.Proofs.Trust
import Triangles.Proofs.SpamCheck
import Triangles.Proofs.SyncSafety
import Triangles.Proofs.OrphanBlocks
import Triangles.Proofs.LoadSpec
import Triangles.Proofs.Restart
import Triangles.Proofs.AddrTables
import Triangles.Proofs.AddrMan
import Triangles.Proofs.AddrCheck
import Triangles.Proofs.MessageRestart
import Triangles.Proofs.Digests
import Triangles.Proofs.PullExchange
import Triangles.Proofs.HonestInv
import Triangles.Proofs.BucketLock
import Triangles.Proofs.SealedMessage
import Triangles.Proofs.SendQueue
import Triangles.Proofs.Key
import Triangles.Proofs.KeyStore
import Triangles.Proofs.WalletLock
import Triangles.Proofs.KeyPool
import Triangles.Proofs.Handshake
import Triangles.Proofs.StakeReward
import Triangles.Proofs.Money
import Triangles.Model.SmsgInbox
import Triangles.Model.SmsgSettings
import Triangles.Proofs.Inbox
import Triangles.Proofs.SmsgSettings
import Triangles.Proofs.UnlockScan
import Triangles.Proofs.BunchBounds
import Triangles.Proofs.ControlBounds
import Triangles.Proofs.PayloadBounds
import Triangles.Proofs.BunchRecords
import Triangles.Proofs.Addresses
import Triangles.Lib.Regroup
import Triangles.Proofs.MedianTime
import Triangles.Lib.Lineage
import Triangles.Lib.Matching
import Triangles.Model.StackMachine
import Triangles.Proofs.StackMachine
import Triangles.Proofs.MultiSig
import Triangles.Proofs.ScriptLimits
import Triangles.Lib.Der
import Triangles.Model.SigCache
import Triangles.Proofs.SigEncoding
import Triangles.Model.Templates
import Triangles.Proofs.Templates
import Triangles.Lib.Memo
import Triangles.Model.Locator
import Triangles.Proofs.FindBlock
import Triangles.Proofs.ScriptRuns
import Triangles.Proofs.Combine
import Triangles.Proofs.CombinedSpend
import Triangles.Proofs.ScriptNumber
import Triangles.Proofs.TriedEviction
import Triangles.Model.AddrFile
import Triangles.Proofs.AddrRead
import Triangles.Proofs.AddrFile
import Triangles.Proofs.TriedHome
import Triangles.Proofs.AddrRestore
import Triangles.Model.Accounts
import Triangles.Model.Reorder
import Triangles.Model.WalletRecord
import Triangles.Proofs.WalletRecord
import Triangles.Proofs.Balance
import Triangles.Proofs.AccountBalance
import Triangles.Proofs.FixSpent
import Triangles.Proofs.Groupings
import Triangles.Proofs.Reorder
import Triangles.Proofs.AccountEntries
import Triangles.Proofs.BaseCodec
import Triangles.Lib.Lz77
import Triangles.Model.Lz4
import Triangles.Lib.Linked
import Triangles.Model.LevelBatch
import Triangles.Proofs.Lz4Decode
import Triangles.Proofs.LevelBatch
import Triangles.Model.LevelLog
import Triangles.Proofs.LevelLog
import Triangles.Proofs.CrashRecovery
import Triangles.Model.TxDbBytes
import Triangles.Proofs.TxDbBytes
import Triangles.Proofs.Lz4Block
import Triangles.Proofs.Lz4Compress
import Triangles.Lib.Parcels
import Triangles.Model.Inventory
import Triangles.Proofs.Inventory
import Triangles.Proofs.BlockDownload
import Triangles.Lib.Cursor
import Triangles.Model.LevelBlock
import Triangles.Proofs.LevelBlock
import Triangles.Proofs.LevelBlockIter
