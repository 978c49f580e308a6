import KubuCore.Chain.BondIndex
import KubuCore.Chain.Compressor
import KubuCore.Chain.ConsensusParams
import KubuCore.Chain.FailureRuns
import KubuCore.Chain.Flat
import KubuCore.Chain.Selection
import KubuCore.Chain.SequenceLocks
import KubuCore.Chain.Supply
import KubuCore.Mempool.Limits
import KubuCore.Mempool.Pending
import KubuCore.Mining.Template
import KubuCore.Net.BlockEncodings
import KubuCore.Net.MerkleBlock
import KubuCore.Nickname.Codec
import KubuCore.Nickname.Heights
import KubuCore.Nickname.Language
import KubuCore.Nickname.Listing
import KubuCore.Nickname.Multiplier
import KubuCore.Nickname.Pricing
import KubuCore.Nickname.Records
import KubuCore.Wallet.Conflicts
import KubuCore.Wallet.KeyPool
import KubuCore.Wallet.MemoChecksum
import KubuCore.Wallet.MinConf
import KubuCore.Wallet.Sign
import KubuCore.Chain.Work
import KubuCore.Script.Der
import KubuCore.Net.SipHash
import KubuCore.Script.SigCache
import KubuCore.Net.LimitedMap
import KubuCore.Net.TxDownload
import KubuCore.Wallet.Nicknames
