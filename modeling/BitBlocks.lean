import BitBlocks.Primitives.MerkleSound
import BitBlocks.Coins.Layers
import BitBlocks.Coins.Serialize
import BitBlocks.Validation.BlockSignature
import BitBlocks.Validation.Bounds
import BitBlocks.Chain.Reorg
import BitBlocks.Chain.Supply
import BitBlocks.Stake.FakeStake
import BitBlocks.Stake.Agreement
import BitBlocks.Swift.Order
import BitBlocks.Swift.Requests
import BitBlocks.Swift.Expiry
import BitBlocks.Payments.BudgetPayee
import BitBlocks.Spork.Spork
import BitBlocks.Budget.Orphans
import BitBlocks.Payments.Tally
import BitBlocks.Chain.Reconsidered
import BitBlocks.Masternode.VinSpent
import BitBlocks.Masternode.Rank
import BitBlocks.Masternode.Forged
import BitBlocks.Masternode.Collateral
import BitBlocks.Obfuscation.Signatures
import BitBlocks.Net.Receive
import BitBlocks.Mempool.Descendants
import BitBlocks.Wallet.Reservations
import BitBlocks.Chain.DryRun
import BitBlocks.Chain.MostWork
import BitBlocks.Validation.CheckVerdict
import BitBlocks.Wallet.Stale
import BitBlocks.Chain.Trust
import BitBlocks.Chain.Locator
import BitBlocks.Net.Download
import BitBlocks.Budget.Allotment
import BitBlocks.Masternode.Cleanup
import BitBlocks.Masternode.Queue
import BitBlocks.Validation.Money
import BitBlocks.Arith.CompactWords
import BitBlocks.Stake.Retarget
import BitBlocks.Script.SignatureHashOld
import BitBlocks.Coins.VarInt
import BitBlocks.Text.Money
import BitBlocks.Net.LimitedMap
import BitBlocks.Net.Bloom
import BitBlocks.Swift.PaymentScripts
import BitBlocks.Obfuscation.FinalTransaction
import BitBlocks.Wallet.Trusted
import BitBlocks.Net.Reloaded
import BitBlocks.Net.TimeData
import BitBlocks.Mempool.StandardInputs
import BitBlocks.Script.Combine
import BitBlocks.Net.BlockArrival
import BitBlocks.Wallet.Selectors
import BitBlocks.Wallet.Spending
import BitBlocks.Chain.BlockFile
import BitBlocks.Wallet.Bip38
import BitBlocks.Script.Flags
import BitBlocks.Net.Wire
