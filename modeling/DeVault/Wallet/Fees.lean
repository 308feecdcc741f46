import DeVault.Consensus.TxCheck

/-!
# Fee rates and fees (`feerate.cpp`, `wallet/fees.cpp`, `policy/policy.cpp`)

A fee rate is in satoshi for 1000 bytes. `CFeeRate::GetFee` and `GetFeeCeiling` are
one template: the first truncates, the second rounds up, and a rate other than zero
takes at least one satoshi. `GetMinimumFee` is the fee the wallet pays for a size: a
rate that is at least the relay rate, and never more than `maxTxFee`.

What the node and the wallet were started with is a `FeePolicy`. It carries that the relay rate, the
dust rate and the largest fee are not negative, which start-up checks.
-/

namespace DeVault

/-- `CFeeRate`: satoshi for 1000 bytes. -/
structure CFeeRate where
  nSatoshisPerK : Int
  deriving DecidableEq, Repr

namespace CFeeRate

/-- The template behind `GetFee` and `GetFeeCeiling`. -/
def getFeeWith (ceil : Bool) (rate : CFeeRate) (nBytes : Nat) : Int :=
  let paid := (nBytes : Int) * rate.nSatoshisPerK
  let nFee := if ceil && decide (0 < paid.tmod 1000) then paid.tdiv 1000 + satoshi
    else paid.tdiv 1000
  if nFee = 0 ∧ nBytes ≠ 0 then
    if 0 < rate.nSatoshisPerK then satoshi
    else if rate.nSatoshisPerK < 0 then -satoshi
    else nFee
  else nFee

/-- The product in the template stays in `int64_t`. -/
def fits (rate : CFeeRate) (nBytes : Nat) : Bool := int64Range ((nBytes : Int) * rate.nSatoshisPerK)

/-- `GetFee`. -/
def getFee : CFeeRate → Nat → Int := getFeeWith false

/-- `GetFeeCeiling`. -/
def getFeeCeiling : CFeeRate → Nat → Int := getFeeWith true

/-- `std::max` of two rates. -/
def max (a b : CFeeRate) : CFeeRate := if a.nSatoshisPerK < b.nSatoshisPerK then b else a

theorem le_max_right (a b : CFeeRate) : b.nSatoshisPerK ≤ (max a b).nSatoshisPerK := by
  unfold max
  split <;> omega

/-- A fee at a rate that is not negative: the quotient, rounded as asked, and a
satoshi if the rate is positive and the size is not zero. -/
theorem getFeeWith_eq (ceil : Bool) {rate : CFeeRate} (h : 0 ≤ rate.nSatoshisPerK) (nBytes : Nat) :
    ∃ nFee, 0 ≤ nFee ∧ getFeeWith ceil rate nBytes =
        (if nFee = 0 ∧ nBytes ≠ 0 ∧ 0 < rate.nSatoshisPerK then 1 else nFee) ∧
      nFee = if ceil ∧ 0 < (nBytes * rate.nSatoshisPerK) % 1000 then
        nBytes * rate.nSatoshisPerK / 1000 + 1 else nBytes * rate.nSatoshisPerK / 1000 := by
  have hpaid : 0 ≤ (nBytes : Int) * rate.nSatoshisPerK := Int.mul_nonneg (by omega) h
  refine ⟨_, ?_, ?_, rfl⟩
  · split <;> omega
  · unfold getFeeWith satoshi
    simp only [Bool.and_eq_true, decide_eq_true_eq, Int.tmod_eq_emod_of_nonneg hpaid,
      Int.tdiv_eq_ediv_of_nonneg hpaid]
    rw [if_neg (by omega : ¬rate.nSatoshisPerK < 0)]
    generalize (if ceil = true ∧ 0 < (nBytes : Int) * rate.nSatoshisPerK % 1000 then
      (nBytes : Int) * rate.nSatoshisPerK / 1000 + 1
      else (nBytes : Int) * rate.nSatoshisPerK / 1000) = nFee
    by_cases hpos : 0 < rate.nSatoshisPerK
    · simp only [hpos, if_true, and_true]
    · simp only [hpos, if_false, and_false, ite_self]

theorem getFeeWith_nonneg (ceil : Bool) {rate : CFeeRate} (h : 0 ≤ rate.nSatoshisPerK)
    (nBytes : Nat) : 0 ≤ getFeeWith ceil rate nBytes := by
  obtain ⟨nFee, hnonneg, heq, -⟩ := getFeeWith_eq ceil h nBytes
  rw [heq]
  split <;> omega

theorem getFeeCeiling_mono {rate : CFeeRate} (h : 0 ≤ rate.nSatoshisPerK) {m n : Nat}
    (hmn : m ≤ n) : rate.getFeeCeiling m ≤ rate.getFeeCeiling n := by
  obtain ⟨a, ha, heqa, hquota⟩ := getFeeWith_eq true h m
  obtain ⟨b, hb, heqb, hquotb⟩ := getFeeWith_eq true h n
  have hle : (m : Int) * rate.nSatoshisPerK ≤ n * rate.nSatoshisPerK :=
    Int.mul_le_mul_of_nonneg_right (by omega) h
  have hab : a ≤ b := by
    simp only [true_and] at hquota hquotb
    split at hquota <;> split at hquotb <;> omega
  rw [getFeeCeiling, heqa, heqb]
  split <;> split <;> omega

end CFeeRate

/-- What the wallet's fees depend on. -/
structure FeePolicy where
  /-- `coin_control.m_feerate`, if it overrides the rate. -/
  overrideFeeRate : Option CFeeRate
  payTxFee : CFeeRate
  /-- `pool.estimateFee()`. -/
  estimateFee : CFeeRate
  fallbackFee : CFeeRate
  /-- `wallet.m_min_fee`. -/
  minFee : CFeeRate
  minRelayTxFee : CFeeRate
  dustRelayFee : CFeeRate
  maxTxFee : Int
  minRelayTxFee_nonneg : 0 ≤ minRelayTxFee.nSatoshisPerK
  dustRelayFee_nonneg : 0 ≤ dustRelayFee.nSatoshisPerK
  maxTxFee_nonneg : 0 ≤ maxTxFee

namespace FeePolicy

variable (policy : FeePolicy)

/-- `GetRequiredFeeRate`. -/
def getRequiredFeeRate : CFeeRate := policy.minFee.max policy.minRelayTxFee

/-- `GetMinimumFeeRate`. -/
def getMinimumFeeRate : CFeeRate :=
  let neededFeeRate := policy.overrideFeeRate.getD policy.payTxFee
  let neededFeeRate :=
    if neededFeeRate = ⟨0⟩ then
      if policy.estimateFee = ⟨0⟩ then policy.fallbackFee else policy.estimateFee
    else neededFeeRate
  neededFeeRate.max policy.getRequiredFeeRate

/-- `GetMinimumFee`. -/
def getMinimumFee (nTxBytes : Nat) : Int :=
  let nFeeNeeded := policy.getMinimumFeeRate.getFeeCeiling nTxBytes
  if nFeeNeeded > policy.maxTxFee then policy.maxTxFee else nFeeNeeded

/-- `GetDustThreshold`. -/
def getDustThreshold (txout : CTxOut) : Int :=
  if isUnspendable txout.scriptPubKey then 0
  else 3 * policy.dustRelayFee.getFee (txout.serializeSize + (32 + 4 + 1 + 107 + 4))

/-- `IsDust`. -/
def isDust (txout : CTxOut) : Bool := txout.nValue < policy.getDustThreshold txout

/-- The fee that `GetDustThreshold` triples can be computed. -/
def dustFits (txout : CTxOut) : Bool :=
  isUnspendable txout.scriptPubKey ||
    policy.dustRelayFee.fits (txout.serializeSize + (32 + 4 + 1 + 107 + 4))

theorem getMinimumFeeRate_nonneg : 0 ≤ policy.getMinimumFeeRate.nSatoshisPerK := by
  calc 0 ≤ policy.minRelayTxFee.nSatoshisPerK := policy.minRelayTxFee_nonneg
    _ ≤ policy.getRequiredFeeRate.nSatoshisPerK := CFeeRate.le_max_right _ _
    _ ≤ policy.getMinimumFeeRate.nSatoshisPerK := CFeeRate.le_max_right _ _

theorem getMinimumFee_le (nTxBytes : Nat) : policy.getMinimumFee nTxBytes ≤ policy.maxTxFee := by
  unfold getMinimumFee
  simp only
  split <;> omega

theorem getMinimumFee_nonneg (nTxBytes : Nat) : 0 ≤ policy.getMinimumFee nTxBytes := by
  have hfee := CFeeRate.getFeeWith_nonneg true policy.getMinimumFeeRate_nonneg nTxBytes
  have hmax := policy.maxTxFee_nonneg
  unfold getMinimumFee CFeeRate.getFeeCeiling
  simp only
  split <;> omega

/-- A larger transaction does not need a smaller fee. -/
theorem getMinimumFee_mono {m n : Nat} (hmn : m ≤ n) :
    policy.getMinimumFee m ≤ policy.getMinimumFee n := by
  have hle := CFeeRate.getFeeCeiling_mono policy.getMinimumFeeRate_nonneg hmn
  unfold getMinimumFee
  simp only
  split <;> split <;> omega

theorem getDustThreshold_nonneg (txout : CTxOut) : 0 ≤ policy.getDustThreshold txout := by
  unfold getDustThreshold
  split
  · exact le_refl 0
  · have hfee := CFeeRate.getFeeWith_nonneg false policy.dustRelayFee_nonneg
      (txout.serializeSize + (32 + 4 + 1 + 107 + 4))
    unfold CFeeRate.getFee
    omega

/-- A negative amount is dust. -/
theorem nValue_nonneg_of_isDust {txout : CTxOut} (h : policy.isDust txout = false) :
    0 ≤ txout.nValue := by
  have hle : policy.getDustThreshold txout ≤ txout.nValue := by simpa [isDust] using h
  exact (policy.getDustThreshold_nonneg txout).trans hle

end FeePolicy

end DeVault
