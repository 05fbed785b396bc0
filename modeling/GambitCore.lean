import GambitCore.Basic
import GambitCore.Codec.BigEndian
import GambitCore.Codec.Bits
import GambitCore.Codec.NumberText
import GambitCore.Codec.Json
import GambitCore.Codec.JsonValue
import GambitCore.Codec.Rotation
import GambitCore.Codec.Separated
import GambitCore.Codec.Sponge
import GambitCore.Codec.Words
import GambitCore.Hash.Hex
import GambitCore.Hash.Keccak
import GambitCore.Hash.Lanes
import GambitCore.Hash.Permutation
import GambitCore.Hash.Collisions
import GambitCore.Rlp.Encode
import GambitCore.Rlp.Decode
import GambitCore.Rlp.Header
import GambitCore.Rlp.RoundTrip
import GambitCore.Rlp.Bounds
import GambitCore.Rlp.Grammar
import GambitCore.Rlp.Termination
import GambitCore.Data.DigitTrie
import GambitCore.Mpt
import GambitCore.Mpt.Commitment
import GambitCore.Address
import GambitCore.Keys
import GambitCore.Transaction.Basic
import GambitCore.Transaction.Wire
import GambitCore.Transaction.Relay
import GambitCore.Transaction.Canonical
import GambitCore.Data.AListSum
import GambitCore.Data.BitArray
import GambitCore.Data.Transfers
import GambitCore.State
import GambitCore.State.Root
import GambitCore.State.Commute
import GambitCore.Zk
import GambitCore.Block.Basic
import GambitCore.Block.Wire
import GambitCore.Block.Bloom
import GambitCore.Semantics.Run
import GambitCore.Blockchain.Basic
import GambitCore.Blockchain.Mining
import GambitCore.Blockchain.Runs
import GambitCore.Blockchain.Order
import GambitCore.Blockchain.Integrity
import GambitCore.Blockchain.Binding
import GambitCore.Blockchain.Genesis
import GambitCore.Blockchain.Inclusion
import GambitCore.Blockchain.Admission
import GambitCore.Blockchain.Receipts
import GambitCore.Blockchain.Accounting
import GambitCore.Miner
import GambitCore.Miner.Announce
import GambitCore.P2p
import GambitCore.P2p.Message
import GambitCore.P2p.Peer
import GambitCore.P2p.Delivery
import GambitCore.Submission
import GambitCore.CommandLine
import GambitCore.Process
import GambitCore.Program
import GambitCore.Process.Provenance
import GambitCore.Network
import GambitCore.Rpc
import GambitCore.Rpc.Blocks
import GambitCore.Rpc.Queries
import GambitCore.Rpc.WellFormed
import GambitCore.Rpc.Server
import GambitCore.Rpc.Responses
import GambitCore.Rpc.Threads
import GambitCore.Rpc.Exchanges
import GambitCore.Seeder
import GambitCore.Seeder.Registry
import GambitCore.Wallet.Path
import GambitCore.Wallet.Derivation
import GambitCore.Wallet.Base64
import GambitCore.Wallet.Encryption
import GambitCore.Wallet.Mnemonic
import GambitCore.Wallet.Session
import GambitCore.Wallet.Keystore
