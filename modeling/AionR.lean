import AionR.TransactionQueue.Order
import AionR.TransactionQueue.Set
import AionR.TransactionQueue.Queue
import AionR.TransactionQueue.Invariant
import AionR.Lib.BigEndian
import AionR.Rlp.Stream
import AionR.Rlp.UntrustedRlp
import AionR.Header
import AionR.Lib.Except
import AionR.Rlp.RoundTrip
import AionR.Transaction
import AionR.Equihash
import AionR.Lib.Bits
import AionR.Executive
import AionR.State.Checkpoint
import AionR.JournalDB.Run
import AionR.JournalDB.Consolidate
import AionR.JournalDB.History
import AionR.Lib.Checked
import AionR.Lib.ByteBuffer
import AionR.Bridge.Transfer
import AionR.Bridge.Deserializer
import AionR.Bridge.Utilities
import AionR.Bridge.Controller
import AionR.Bridge.Contract
import AionR.Blockchain.Provider
import AionR.Blockchain.Import
import AionR.Blockchain.Canonical
import AionR.Verification.Beacon
import AionR.FixedPoint
import AionR.DeltaCalc
import AionR.Engine.Difficulty
import AionR.Lib.U256
import AionR.Lib.Writes
import AionR.Precompiled.TotalCurrency
import AionR.AvmAbi
import AionR.Lib.HexPrefix
import AionR.Trie.NibbleSlice
import AionR.P2p.Codec
import AionR.RlpCompress
import AionR.Lib.ByteSet
import AionR.Lib.Kary
import AionR.Bloomchain.Chain
import AionR.Bloomchain.Update
import AionR.Bloomchain.Group
import AionR.Blockchain.Blooms
import AionR.Trie.TrieDBMut
import AionR.Trie.Entries
import AionR.Trie.Insert
import AionR.Trie.Remove
import AionR.Trie.Map
import AionR.Trie.Canonical
import AionR.Lib.AscList
import AionR.TrieHash
import AionR.Trie.Commit
import AionR.Trie.Fresh
import AionR.Trie.EntryList
import AionR.Trie.Root
