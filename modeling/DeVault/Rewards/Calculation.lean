import DeVault.Rewards.Engine

/-!
# The arithmetic of a cold reward (`devault/rewards_calculation.cpp`)

`CalculateReward` multiplies and divides 64-bit integers: the balance is divided by the
reciprocal of the rate per block, the quotient multiplied by the age in blocks, and the result
rounded down to a hundredth of a coin. A reward below the minimum is none.

The three roundings go down, so the reward loses from them; only the reciprocal of the rate is
rounded down as well, in favour of the reward, which is why the exact interest is stated with
the rounded reciprocal.
-/

namespace DeVault

/-! ### Exact values -/

/-- `nRewardRatePerBlockReciprocal`. -/
def rateReciprocal (p : Params) (height : Int) : Int :=
  (100 * p.nBlocksPerYear).tdiv (rewardPercent p height)

/-- What a balance earns in one block. -/
def rewardPerBlock (p : Params) (height balance : Int) : Int :=
  balance.tdiv (rateReciprocal p height)

/-- `reward_x100`: the reward in hundredths of a coin. -/
def rewardX100 (p : Params) (height heightDiff balance : Int) : Int :=
  (100 * heightDiff * rewardPerBlock p height balance).tdiv coin

/-- **No product leaves `int64_t`.** -/
structure FitsInt64 (p : Params) (height heightDiff balance : Int) : Prop where
  rate : int64Range (100 * p.nBlocksPerYear) = true
  age : int64Range (100 * heightDiff) = true
  product : int64Range (100 * heightDiff * rewardPerBlock p height balance) = true
  reward : int64Range (rewardX100 p height heightDiff balance * (coin / 100)) = true

variable {p : Params} {height heightDiff balance : Int}

theorem wrap64_of_int64Range {x : Int} (h : int64Range x = true) : wrap64 x = x :=
  wrap64_of_range (int64Range_iff.mp h).1 (int64Range_iff.mp h).2

theorem calculateReward_eq (h : FitsInt64 p height heightDiff balance) :
    calculateReward p height heightDiff balance =
      if rewardX100 p height heightDiff balance * (coin / 100) < p.nMinReward then 0
      else rewardX100 p height heightDiff balance * (coin / 100) := by
  have hsat : ∀ x : Int, x.tdiv satoshi = x := fun x => Int.tdiv_one x
  have hcent : coin.tdiv 100 = coin / 100 := by decide
  have hperBlock : (balance.tdiv satoshi).tdiv
      ((100 * p.nBlocksPerYear).tdiv (rewardPercent p height)) =
      rewardPerBlock p height balance := by
    rw [hsat]
    rfl
  have hx100 : (100 * heightDiff * rewardPerBlock p height balance).tdiv (coin.tdiv satoshi) =
      rewardX100 p height heightDiff balance := by
    rw [hsat]
    rfl
  simp only [calculateReward, wrap64_of_int64Range h.rate, wrap64_of_int64Range h.age, hperBlock,
    wrap64_of_int64Range h.product, hx100, hcent, wrap64_of_int64Range h.reward]

/-! ### The rate -/

theorem rewardPercent_mem (hne : p.nPerCentPerYear ≠ []) (height : Int) :
    rewardPercent p height ∈ p.nPerCentPerYear := by
  have hlen : 0 < p.nPerCentPerYear.length := List.length_pos_iff.mpr hne
  have hget : ∀ i < p.nPerCentPerYear.length, p.nPerCentPerYear.getD i 0 ∈ p.nPerCentPerYear := by
    intro i hi
    rw [List.getD_eq_getElem _ _ hi]
    exact List.getElem_mem hi
  refine hget _ ?_
  split <;> omega

theorem rateReciprocal_pos (hp : p = mainParams ∨ p = testNetParams) (height : Int) :
    0 < rateReciprocal p height := by
  have hmem : rewardPercent p height ∈ [15, 12, 9, 7, 5, 1500, 1200, 900] := by
    rcases hp with rfl | rfl
    · have h := rewardPercent_mem (p := mainParams) (by decide) height
      simp only [mainParams, List.mem_cons, List.not_mem_nil, or_false] at h ⊢
      tauto
    · have h := rewardPercent_mem (p := testNetParams) (by decide) height
      simp only [testNetParams, List.mem_cons, List.not_mem_nil, or_false] at h ⊢
      tauto
  have hyear : p.nBlocksPerYear = 262980 := by rcases hp with rfl | rfl <;> rfl
  have hrates : ∀ percent ∈ ([15, 12, 9, 7, 5, 1500, 1200, 900] : List Int),
      0 < (100 * 262980 : Int).tdiv percent := by decide
  rw [rateReciprocal, hyear]
  exact hrates _ hmem

/-! ### Rounding down -/

section NonNegative

variable (hrate : ∀ height, 0 < rateReciprocal p height)
include hrate

theorem rewardPerBlock_nonneg (hb : 0 ≤ balance) : 0 ≤ rewardPerBlock p height balance :=
  Int.tdiv_nonneg hb (hrate height).le

theorem product_nonneg (hd : 0 ≤ heightDiff) (hb : 0 ≤ balance) :
    0 ≤ 100 * heightDiff * rewardPerBlock p height balance :=
  mul_nonneg (by omega) (rewardPerBlock_nonneg hrate hb)

theorem rewardX100_eq (hd : 0 ≤ heightDiff) (hb : 0 ≤ balance) :
    rewardX100 p height heightDiff balance =
      100 * heightDiff * rewardPerBlock p height balance / coin :=
  Int.tdiv_eq_ediv_of_nonneg (product_nonneg hrate hd hb)

theorem rewardPerBlock_mono {balance' : Int} (hb : 0 ≤ balance) (hle : balance ≤ balance') :
    rewardPerBlock p height balance ≤ rewardPerBlock p height balance' := by
  unfold rewardPerBlock
  rw [Int.tdiv_eq_ediv_of_nonneg hb, Int.tdiv_eq_ediv_of_nonneg (hb.trans hle)]
  exact Int.ediv_le_ediv (hrate height) hle

theorem rewardX100_mono {heightDiff' balance' : Int} (hd : 0 ≤ heightDiff)
    (hdle : heightDiff ≤ heightDiff') (hb : 0 ≤ balance) (hble : balance ≤ balance') :
    rewardX100 p height heightDiff balance ≤ rewardX100 p height heightDiff' balance' := by
  rw [rewardX100_eq hrate hd hb, rewardX100_eq hrate (hd.trans hdle) (hb.trans hble)]
  refine Int.ediv_le_ediv (by decide) ?_
  calc 100 * heightDiff * rewardPerBlock p height balance
      ≤ 100 * heightDiff' * rewardPerBlock p height balance :=
        mul_le_mul_of_nonneg_right (by omega) (rewardPerBlock_nonneg hrate hb)
    _ ≤ 100 * heightDiff' * rewardPerBlock p height balance' :=
        mul_le_mul_of_nonneg_left (rewardPerBlock_mono hrate hb hble) (by omega)

/-- Rounding two parts down gives at most the rounded whole. -/
theorem rewardX100_add_le {d₁ d₂ : Int} (h₁ : 0 ≤ d₁) (h₂ : 0 ≤ d₂) (hb : 0 ≤ balance) :
    rewardX100 p height d₁ balance + rewardX100 p height d₂ balance ≤
      rewardX100 p height (d₁ + d₂) balance := by
  rw [rewardX100_eq hrate h₁ hb, rewardX100_eq hrate h₂ hb,
    rewardX100_eq hrate (by omega) hb, Int.le_ediv_iff_mul_le (by decide)]
  have hpos : (0 : Int) < coin := by decide
  calc (100 * d₁ * rewardPerBlock p height balance / coin +
        100 * d₂ * rewardPerBlock p height balance / coin) * coin
      = 100 * d₁ * rewardPerBlock p height balance / coin * coin +
        100 * d₂ * rewardPerBlock p height balance / coin * coin := by rw [add_mul]
    _ ≤ 100 * d₁ * rewardPerBlock p height balance + 100 * d₂ * rewardPerBlock p height balance :=
        add_le_add (Int.ediv_mul_le _ hpos.ne') (Int.ediv_mul_le _ hpos.ne')
    _ = 100 * (d₁ + d₂) * rewardPerBlock p height balance := by ring

/-- The reward is at most the age times the reward per block. -/
theorem rewardX100_mul_le (hd : 0 ≤ heightDiff) (hb : 0 ≤ balance) :
    rewardX100 p height heightDiff balance * (coin / 100) ≤
      heightDiff * rewardPerBlock p height balance := by
  have hcoin : coin = 100 * (coin / 100) := by decide
  have hround := Int.ediv_mul_le (100 * heightDiff * rewardPerBlock p height balance)
    (by decide : coin ≠ 0)
  rw [← rewardX100_eq hrate hd hb] at hround
  nth_rewrite 1 [hcoin] at hround
  refine le_of_mul_le_mul_left ?_ (by decide : (0 : Int) < 100)
  calc 100 * (rewardX100 p height heightDiff balance * (coin / 100))
      = rewardX100 p height heightDiff balance * (100 * (coin / 100)) := by ring
    _ ≤ 100 * heightDiff * rewardPerBlock p height balance := hround
    _ = 100 * (heightDiff * rewardPerBlock p height balance) := by ring

/-- **Below the exact interest**, for the rate with the rounded reciprocal. -/
theorem rewardX100_le_interest (hd : 0 ≤ heightDiff) (hb : 0 ≤ balance) :
    ((rewardX100 p height heightDiff balance * (coin / 100) : Int) : ℚ) ≤
      balance * heightDiff / rateReciprocal p height := by
  have hpos := hrate height
  rw [le_div_iff₀ (by exact_mod_cast hpos)]
  have hper : rewardPerBlock p height balance * rateReciprocal p height ≤ balance := by
    rw [rewardPerBlock, Int.tdiv_eq_ediv_of_nonneg hb]
    exact Int.ediv_mul_le balance hpos.ne'
  have hexact : rewardX100 p height heightDiff balance * (coin / 100) *
      rateReciprocal p height ≤ balance * heightDiff := by
    calc rewardX100 p height heightDiff balance * (coin / 100) * rateReciprocal p height
        ≤ heightDiff * rewardPerBlock p height balance * rateReciprocal p height :=
          mul_le_mul_of_nonneg_right (rewardX100_mul_le hrate hd hb) hpos.le
      _ = heightDiff * (rewardPerBlock p height balance * rateReciprocal p height) := by ring
      _ ≤ heightDiff * balance := mul_le_mul_of_nonneg_left hper hd
      _ = balance * heightDiff := mul_comm _ _
  exact_mod_cast hexact

end NonNegative

/-! ### The laws of the reward -/

theorem cutOff_mono {m x y : Int} (hxy : x ≤ y) (hy : 0 ≤ y) :
    (if x < m then 0 else x) ≤ if y < m then 0 else y := by
  split
  · split <;> omega
  · rw [if_neg (by omega)]
    exact hxy

/-- Two amounts that are cut off make at most their sum that is cut off. -/
theorem cutOff_add_le {m x y z : Int} (hx : 0 ≤ x) (hy : 0 ≤ y) (hz : x + y ≤ z) :
    (if x < m then 0 else x) + (if y < m then 0 else y) ≤ if z < m then 0 else z := by
  split <;> split <;> split <;> omega

/-- **The laws of `CalculateReward`.** It grows with balance and age. It is a multiple of a
hundredth of a coin, so that rounding to spocks does not change it, and it is zero or at least
the minimum. It is at most the exact interest. At one rate, two ages one after the other do not
pay more than both at once. Without `hrate` the source divides by zero, or reads from an empty table
of rates. -/
theorem calculateReward_laws (hrate : ∀ height, 0 < rateReciprocal p height) :
    (∀ height d b b', 0 ≤ d → 0 ≤ b → b ≤ b' → FitsInt64 p height d b → FitsInt64 p height d b' →
      calculateReward p height d b ≤ calculateReward p height d b') ∧
    (∀ height d d' b, 0 ≤ d → d ≤ d' → 0 ≤ b → FitsInt64 p height d b → FitsInt64 p height d' b →
      calculateReward p height d b ≤ calculateReward p height d' b) ∧
    (∀ height d b, FitsInt64 p height d b →
      coin / 100 ∣ calculateReward p height d b ∧
      spockQuantize (calculateReward p height d b) = calculateReward p height d b ∧
      (calculateReward p height d b = 0 ∨ p.nMinReward ≤ calculateReward p height d b)) ∧
    (∀ height d b, 0 ≤ d → 0 ≤ b → FitsInt64 p height d b →
      (calculateReward p height d b : ℚ) ≤ b * d / rateReciprocal p height) ∧
    (∀ height height' d₁ d₂ b, rewardPercent p height' = rewardPercent p height → 0 ≤ d₁ → 0 ≤ d₂ →
      0 ≤ b → FitsInt64 p height d₁ b → FitsInt64 p height' d₂ b → FitsInt64 p height (d₁ + d₂) b →
      calculateReward p height d₁ b + calculateReward p height' d₂ b ≤
        calculateReward p height (d₁ + d₂) b) := by
  have hcent : (0 : Int) ≤ coin / 100 := by decide
  have hnonneg : ∀ {height d b : Int}, 0 ≤ d → 0 ≤ b →
      0 ≤ rewardX100 p height d b * (coin / 100) :=
    fun hd hb =>
      mul_nonneg (Int.tdiv_nonneg (product_nonneg hrate hd hb) (by decide)) hcent
  refine ⟨?_, ?_, ?_, ?_, ?_⟩
  · intro height d b b' hd hb hle hfit hfit'
    rw [calculateReward_eq hfit, calculateReward_eq hfit']
    refine cutOff_mono (mul_le_mul_of_nonneg_right ?_ hcent) (hnonneg hd (hb.trans hle))
    exact rewardX100_mono hrate hd (le_refl d) hb hle
  · intro height d d' b hd hle hb hfit hfit'
    rw [calculateReward_eq hfit, calculateReward_eq hfit']
    refine cutOff_mono (mul_le_mul_of_nonneg_right ?_ hcent) (hnonneg (hd.trans hle) hb)
    exact rewardX100_mono hrate hd hle hb (le_refl b)
  · intro height d b hfit
    have hdvd : coin / 100 ∣ calculateReward p height d b := by
      rw [calculateReward_eq hfit]
      split
      · exact dvd_zero _
      · exact Dvd.intro_left _ rfl
    refine ⟨hdvd, ?_, ?_⟩
    · rw [spockQuantize_eq_self_iff]
      -- a hundredth of a coin is ten spocks
      have hspock : spockSats ∣ coin / 100 := by decide
      exact Int.tmod_eq_zero_of_dvd (hspock.trans hdvd)
    · rw [calculateReward_eq hfit]
      split
      · exact .inl rfl
      next hmin => exact .inr (by omega)
  · intro height d b hd hb hfit
    have hinterest : ((rewardX100 p height d b * (coin / 100) : Int) : ℚ) ≤
        b * d / rateReciprocal p height := rewardX100_le_interest hrate hd hb
    rw [calculateReward_eq hfit]
    split
    · refine le_trans ?_ hinterest
      exact_mod_cast hnonneg hd hb
    · exact hinterest
  · intro height height' d₁ d₂ b hpercent h₁ h₂ hb hfit₁ hfit₂ hfit
    have hsame : rewardX100 p height' d₂ b = rewardX100 p height d₂ b := by
      unfold rewardX100 rewardPerBlock rateReciprocal
      rw [hpercent]
    rw [calculateReward_eq hfit₁, calculateReward_eq hfit₂, calculateReward_eq hfit, hsame]
    refine cutOff_add_le (hnonneg h₁ hb) (hnonneg h₂ hb) ?_
    rw [← add_mul]
    exact mul_le_mul_of_nonneg_right (rewardX100_add_le hrate h₁ h₂ hb) hcent

/-- A balance of 25000 coins that is paid after 21916 and again after 21914 blocks does not earn
more than after 43830 blocks, when it earns 624.99 coins. -/
theorem calculateReward_laws_main :
    calculateReward mainParams 0 21916 (25000 * coin) +
        calculateReward mainParams 21916 21914 (25000 * coin) ≤ 62499 * coin / 100 := by
  have hfit : ∀ height ∈ [0, 21916], ∀ d ∈ [21916, 21914, 43830],
      FitsInt64 mainParams height d (25000 * coin) := by
    intro height hheight d hd
    fin_cases hheight <;> fin_cases hd <;> exact ⟨by decide, by decide, by decide, by decide⟩
  have hsum := (calculateReward_laws (rateReciprocal_pos (.inl rfl))).2.2.2.2 0 21916 21916 21914
    (25000 * coin) (by decide) (by decide) (by decide) (by decide) (hfit 0 (by simp) _ (by simp))
    (hfit 21916 (by simp) _ (by simp)) (hfit 0 (by simp) _ (by simp))
  exact hsum.trans (by decide)

/-- Negative inputs break the laws: a negative balance with a negative age has a positive reward,
and the reward of a negative balance is above its interest. -/
theorem calculateReward_negative :
    (FitsInt64 mainParams 0 (-43830) (-25000 * coin) ∧ FitsInt64 mainParams 0 (-43830) 0 ∧
      calculateReward mainParams 0 (-43830) 0 <
        calculateReward mainParams 0 (-43830) (-25000 * coin)) ∧
    (FitsInt64 mainParams 0 1 (-1) ∧
      ((-1 : ℚ) * 1 / rateReciprocal mainParams 0 < calculateReward mainParams 0 1 (-1))) := by
  refine ⟨⟨⟨by decide, by decide, by decide, by decide⟩,
    ⟨by decide, by decide, by decide, by decide⟩,
    by decide⟩, ⟨by decide, by decide, by decide, by decide⟩, ?_⟩
  have hrate : rateReciprocal mainParams 0 = 1753200 := by decide
  have hreward : calculateReward mainParams 0 1 (-1) = 0 := by decide
  rw [hrate, hreward]
  norm_num

/-! ### Overflow on the public networks -/

/-- **When the products fit.** For a balance in the money range and the heights of a chain, exactly
when the balance is below a bound that falls with the age. -/
theorem fitsInt64_iff (hp : p = mainParams ∨ p = testNetParams) (hb : moneyRange balance = true)
    (hh : 0 ≤ height) (hd : 0 ≤ heightDiff) (hsum : height + heightDiff ≤ 2147483647) :
    FitsInt64 p height heightDiff balance ↔
      heightDiff = 0 ∨
        balance < rateReciprocal p height * (92233720368547758 / heightDiff + 1) := by
  have hyear : p.nBlocksPerYear = 262980 := by rcases hp with rfl | rfl <;> rfl
  have hrate := rateReciprocal_pos hp
  have hb0 : 0 ≤ balance := (moneyRange_iff.mp hb).1
  have hq : rewardPerBlock p height balance = balance / rateReciprocal p height :=
    Int.tdiv_eq_ediv_of_nonneg hb0
  have hprod0 : 0 ≤ 100 * heightDiff * rewardPerBlock p height balance :=
    product_nonneg hrate hd hb0
  have hx : rewardX100 p height heightDiff balance =
      100 * heightDiff * rewardPerBlock p height balance / coin :=
    rewardX100_eq hrate hd hb0
  -- only the product of age and reward per block can be too large
  have honly : FitsInt64 p height heightDiff balance ↔
      heightDiff * rewardPerBlock p height balance ≤ 92233720368547758 := by
    have hassoc : 100 * heightDiff * rewardPerBlock p height balance =
        100 * (heightDiff * rewardPerBlock p height balance) := mul_assoc ..
    constructor
    · intro hfit
      have hlt := (int64Range_iff.mp hfit.product).2
      rw [hassoc] at hlt
      omega
    · intro hle
      have hlt : 100 * heightDiff * rewardPerBlock p height balance < 2 ^ 63 := by
        rw [hassoc]
        omega
      refine ⟨?_, ?_, ?_, ?_⟩ <;> rw [int64Range_iff]
      · rw [hyear]
        decide
      · omega
      · omega
      · rw [hx]
        simp only [coin, satoshi]
        omega
  rw [honly, hq]
  rcases eq_or_lt_of_le hd with hzero | hpos
  · rw [← hzero, zero_mul]
    simp
  · rw [mul_comm, ← Int.le_ediv_iff_mul_le hpos, ← Int.lt_add_one_iff,
      Int.ediv_lt_iff_lt_mul (hrate height), mul_comm]
    exact (or_iff_right hpos.ne').symm

/-- Ten thousand coins of the main network fit for a whole century. -/
theorem fitsInt64_century : FitsInt64 mainParams 0 26298000 (10000 * coin) :=
  (fitsInt64_iff (.inl rfl) (by decide) (by decide) (by decide) (by decide)).mpr
    (.inr (by decide))

/-- A balance of `MAX_MONEY` overflows at an age of 808521 blocks, about three years. The wrapped
product is negative, so no reward is due. -/
theorem fitsInt64_maxMoney :
    (moneyRange maxMoney = true ∧ ¬FitsInt64 mainParams 0 808521 maxMoney) ∧
      calculateReward mainParams 0 808520 maxMoney = 92233629933 * (coin / 100) ∧
      calculateReward mainParams 0 808521 maxMoney = 0 := by
  refine ⟨⟨by decide, fun hfit => ?_⟩, by decide, by decide⟩
  cases hfit.product

end DeVault
