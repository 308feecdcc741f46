import DeVault.Primitives.Transaction

/-!
# Consensus parameters (`consensus/params.h`, `chainparams.cpp`)

The parameters that the block reward, the budget and the cold rewards read,
with the two computed ones (`getMinRewardBalance`, `isSuperBlock`), and the
three parameter sets of `chainparams.cpp` that define them. The other networks
of that file leave `nBlocksPerYear` unset and have no DeVault rewards.

`getBlockSubsidy` is the inflation curve of `validation.cpp`.
-/

namespace DeVault

/-- `Consensus::Params`, with the network name of the `CChainParams` around it. -/
structure Params where
  strNetworkID : String
  hashGenesisBlock : BlockHash
  BIP34Height : Nat
  BIP34Hash : BlockHash
  nBlocksPerYear : Int
  nInitialMiningRewardInCoins : Int
  /-- Cold-reward rate of each year in percent; the last entry holds from then on. -/
  nPerCentPerYear : List Int
  nMinRewardBlocks : Int
  /-- Each entry is the last height at which its balance is the minimum. -/
  vecMinRewardBalances : List (Int × Int)
  nMinReward : Int
  deriving DecidableEq, Repr

namespace Params

variable (p : Params)

/-- The loop of `getMinRewardBalance`: to the next entry, while the current one ends below `height`
and another follows. -/
def minRewardBalanceFrom (height : Int) : List (Int × Int) → Int
  | [] => 0
  | [(_, balance)] => balance
  | (balanceHeight, balance) :: rest =>
    if balanceHeight < height then minRewardBalanceFrom height rest else balance

/-- `getMinRewardBalance`: the smallest output that is rewarded. -/
def getMinRewardBalance (height : Nat) : Int :=
  minRewardBalanceFrom height p.vecMinRewardBalances

/-- The length of a budget period, `nBlocksPerYear / 12`. -/
def nBlocksPerPeriod : Int := p.nBlocksPerYear.tdiv 12

/-- `IsSuperBlock`. -/
def isSuperBlock (nBlockHeight : Nat) : Bool :=
  (nBlockHeight : Int).tmod p.nBlocksPerPeriod == 0

end Params

/-- `CMainParams`. -/
def mainParams : Params where
  strNetworkID := "main"
  hashGenesisBlock := 0x0000000038e62464371566f6a8d35c01aa54a7da351b2dbf85d92f30357f3a90
  BIP34Height := 1
  BIP34Hash := 0x000000000000024b89b42a942fe0d9fea3bb44ab7bd1b19115dd6a759c0808b8
  nBlocksPerYear := 262980
  nInitialMiningRewardInCoins := 500
  nPerCentPerYear := [15, 12, 9, 7, 5]
  nMinRewardBlocks := 21915
  vecMinRewardBalances := [(109575, 1000 * coin), (2147483647, 25000 * coin)]
  nMinReward := 50 * coin

/-- `CTestNetParams`. -/
def testNetParams : Params where
  strNetworkID := "test"
  hashGenesisBlock := 0x00000000797947527458fac580afda78e5274b3cd3c8ca9c0b53d653891eeed9
  BIP34Height := 1
  BIP34Hash := 0x0000000023b3a96d3484e5abb3755c413e7d41500f8e2a5c3f0dd01299cd8ef8
  nBlocksPerYear := 262980
  nInitialMiningRewardInCoins := 500
  nPerCentPerYear := [1500, 1200, 900, 7, 5]
  nMinRewardBlocks := 21915
  vecMinRewardBalances := [(2000, 1000 * coin), (2147483647, 25000 * coin)]
  nMinReward := 50 * coin

/-- `CRegTestParams`. -/
def regTestParams : Params where
  strNetworkID := "regtest"
  hashGenesisBlock := 0x7f39501a21abfd9930011aaf76bed139f16d896ca9bc66f9f4770d345459d08a
  BIP34Height := 1
  BIP34Hash := 0
  nBlocksPerYear := 262980
  nInitialMiningRewardInCoins := 500
  nPerCentPerYear := [15, 12, 9, 7, 5]
  nMinRewardBlocks := 144
  vecMinRewardBalances := [(2147483647, 1000 * coin)]
  nMinReward := coin

/-- The conversion of a 64-bit value to `int`. -/
def toInt32 (x : Int) : Int := x.bmod (2 ^ 32)

/-- `GetBlockSubsidy`: a ramp to one and a half times the initial reward at half a year, then a
decay. -/
def getBlockSubsidy (nHeight : Nat) (p : Params) : Int :=
  let peakDiv := 2
  let nPeakHeight := p.nBlocksPerYear.tdiv peakDiv
  let nInitialReward := p.nInitialMiningRewardInCoins
  let peak := nInitialReward + toInt32 (nInitialReward.tdiv peakDiv)
  let nReward :=
    if (nHeight : Int) ≤ nPeakHeight then
      nInitialReward + toInt32 ((2 * nInitialReward * nHeight).tdiv (3 * nPeakHeight + nHeight))
    else
      (nPeakHeight * peak).tdiv nHeight
  nReward * coin

/-- A parameter set of one of the three DeVault networks. -/
def Params.IsDeVault (p : Params) : Prop :=
  p = mainParams ∨ p = testNetParams ∨ p = regTestParams

section DeVaultNetworks

variable {p : Params} (hp : p.IsDeVault)

include hp

-- The networks share the block cadence and the initial reward, and nothing of
-- the inflation curve depends on anything else.

theorem Params.IsDeVault.nBlocksPerYear_eq : p.nBlocksPerYear = 262980 := by
  rcases hp with rfl | rfl | rfl <;> rfl

theorem Params.IsDeVault.nInitialMiningRewardInCoins_eq : p.nInitialMiningRewardInCoins = 500 := by
  rcases hp with rfl | rfl | rfl <;> rfl

theorem Params.IsDeVault.nBlocksPerPeriod_eq : p.nBlocksPerPeriod = 21915 := by
  rw [Params.nBlocksPerPeriod, hp.nBlocksPerYear_eq]
  rfl

/-- The inflation curve on the three networks. -/
theorem Params.IsDeVault.getBlockSubsidy_eq (nHeight : Nat) :
    getBlockSubsidy nHeight p =
      (if (nHeight : Int) ≤ 131490 then
        500 + toInt32 ((1000 * (nHeight : Int)).tdiv (394470 + nHeight))
      else (98617500 : Int).tdiv nHeight) * coin := by
  have h1 : ((262980 : Int).tdiv 2) = 131490 := by decide
  have h2 : toInt32 ((500 : Int).tdiv 2) = 250 := by decide
  simp only [getBlockSubsidy, hp.nBlocksPerYear_eq, hp.nInitialMiningRewardInCoins_eq, h1, h2]
  norm_num

theorem Params.IsDeVault.getBlockSubsidy_bounds (nHeight : Nat) :
    0 ≤ getBlockSubsidy nHeight p ∧ getBlockSubsidy nHeight p ≤ 750 * coin := by
  rw [hp.getBlockSubsidy_eq]
  split
  next hle =>
    have h0 : (0 : Int) ≤ 1000 * (nHeight : Int) := by positivity
    have hd : (0 : Int) < 394470 + nHeight := by positivity
    have hq0 : 0 ≤ (1000 * (nHeight : Int)).tdiv (394470 + nHeight) :=
      Int.tdiv_nonneg h0 hd.le
    have hq1 : (1000 * (nHeight : Int)).tdiv (394470 + nHeight) ≤ 250 := by
      rw [Int.tdiv_eq_ediv_of_nonneg h0]
      have : 1000 * (nHeight : Int) / (394470 + nHeight) < 251 := by
        rw [Int.ediv_lt_iff_lt_mul hd]
        omega
      omega
    -- the quotient is far inside `int`, so the cast keeps it
    have hc : toInt32 ((1000 * (nHeight : Int)).tdiv (394470 + nHeight)) =
        (1000 * (nHeight : Int)).tdiv (394470 + nHeight) :=
      Int.bmod_eq_of_le (by norm_num; omega) (by norm_num; omega)
    rw [hc]
    simp only [coin, satoshi]
    omega
  next hgt =>
    have hd : (0 : Int) < nHeight := by omega
    have hq0 : 0 ≤ (98617500 : Int).tdiv nHeight := Int.tdiv_nonneg (by norm_num) hd.le
    have hq1 : (98617500 : Int).tdiv nHeight ≤ 750 := by
      rw [Int.tdiv_eq_ediv_of_nonneg (by norm_num)]
      have : (98617500 : Int) / nHeight < 751 := by
        rw [Int.ediv_lt_iff_lt_mul hd]
        omega
      omega
    simp only [coin, satoshi]
    omega

end DeVaultNetworks

end DeVault
