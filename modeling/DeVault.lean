import DeVault.Validation.Supply
import DeVault.Rewards.Projection
import DeVault.Rewards.Reorg
import DeVault.Validation.FailedConnect
import DeVault.Rewards.Replay
import DeVault.Rewards.Retention
import DeVault.Validation.FillerChain
import DeVault.MerkleBlock
import DeVault.Compressor
import DeVault.Script.Digest
import DeVault.CoinsRefinement
import DeVault.Mempool.Consistency
import DeVault.Validation.ReplayBlocks
import DeVault.Rewards.Calculation
import DeVault.Rewards.FindReward
import DeVault.Net.BlocksInFlight
import DeVault.CashAddrEnc
import DeVault.Consensus.Tokens
import DeVault.Miner.Coinbase
import DeVault.Pow
import DeVault.Script.Multisig
import DeVault.Validation.LoadBlockIndex
import DeVault.Script.FastBigNum
import DeVault.Net.RateLimitRule
import DeVault.Rpc.Mining
import DeVault.Wallet.Passes
import DeVault.Validation.SkipList
import DeVault.PowAsert
import DeVault.BitManip
