import DeVault.Budget
import DeVault.Lib.Hyperbola

/-!
# The inflation curve (`GetBlockSubsidy`)

The subsidy of a block rises for half a year along a truncated rational ramp, from 500 coins to
750, and falls after that along a truncated hyperbola. Once a month a superblock pays the budget on
top of it, a fixed fraction of what the month's blocks would have paid at the subsidy of the
superblock.

Everything about the curve is read off one formula in natural numbers (`subsidyCoins`), which
`getBlockSubsidy_eq_subsidyCoins` connects to the code; for it the casts to `int` have to be shown
harmless.
-/

namespace DeVault

open Finset

/-! ### The curve in natural numbers -/

variable (nHeight : Nat)

/-- The subsidy of a height in coins, on the DeVault networks. -/
def subsidyCoins : Nat :=
  if nHeight ≤ 131490 then 500 + 1000 * nHeight / (394470 + nHeight) else 98617500 / nHeight

theorem subsidyCoins_of_le {nHeight : Nat} (h : nHeight ≤ 131490) :
    subsidyCoins nHeight = 500 + 1000 * nHeight / (394470 + nHeight) := if_pos h

theorem subsidyCoins_of_gt {nHeight : Nat} (h : 131490 < nHeight) :
    subsidyCoins nHeight = 98617500 / nHeight := if_neg (not_le.mpr h)

theorem subsidyCoins_peak : subsidyCoins 131490 = 750 := by decide

/-- The quotient of the ramp is an `int`, so the cast keeps it. -/
theorem toInt32_ramp :
    toInt32 ((1000 * (nHeight : Int)).tdiv (394470 + nHeight)) =
      ((1000 * nHeight / (394470 + nHeight) : Nat) : Int) := by
  have hquot : (1000 * (nHeight : Int)).tdiv (394470 + nHeight) =
      ((1000 * nHeight / (394470 + nHeight) : Nat) : Int) := by
    rw [Int.tdiv_eq_ediv_of_nonneg (by positivity)]
    push_cast
    rfl
  have hsmall : 1000 * nHeight / (394470 + nHeight) ≤ 1000 :=
    Nat.div_le_of_le_mul (by nlinarith)
  rw [hquot]
  generalize 1000 * nHeight / (394470 + nHeight) = q at hsmall
  exact Int.bmod_eq_of_le (by norm_num) (by norm_num; omega)

/-- **The code computes the curve.** -/
theorem Params.IsDeVault.getBlockSubsidy_eq_subsidyCoins {p : Params} (hp : p.IsDeVault)
    (nHeight : Nat) : getBlockSubsidy nHeight p = subsidyCoins nHeight * coin := by
  rw [hp.getBlockSubsidy_eq]
  by_cases hle : nHeight ≤ 131490
  · rw [if_pos (by exact_mod_cast hle), toInt32_ramp, subsidyCoins_of_le hle]
    push_cast
    rfl
  · rw [if_neg (by exact_mod_cast hle), subsidyCoins_of_gt (not_le.mp hle),
      Int.tdiv_eq_ediv_of_nonneg (by norm_num)]
    push_cast
    rfl

/-! ### The shape of the curve -/

/-- Cross-multiplied quotients keep their order when they are rounded down. -/
theorem div_le_div_of_mul_le {a b c d : Nat} (hd : 0 < d) (h : a * d ≤ c * b) (hb : 0 < b) :
    a / b ≤ c / d := by
  rw [Nat.le_div_iff_mul_le hd]
  refine Nat.le_of_mul_le_mul_right ?_ hb
  calc a / b * d * b = a / b * b * d := by ring
    _ ≤ a * d := Nat.mul_le_mul_right d (Nat.div_mul_le_self a b)
    _ ≤ c * b := h

/-- The ramp. -/
theorem subsidyCoins_mono {a b : Nat} (hab : a ≤ b) (hb : b ≤ 131490) :
    subsidyCoins a ≤ subsidyCoins b := by
  rw [subsidyCoins_of_le (hab.trans hb), subsidyCoins_of_le hb]
  refine Nat.add_le_add_left (div_le_div_of_mul_le (by omega) ?_ (by omega)) 500
  nlinarith

/-- The hyperbola. -/
theorem subsidyCoins_antitone {a b : Nat} (ha : 131490 ≤ a) (hab : a ≤ b) :
    subsidyCoins b ≤ subsidyCoins a := by
  rcases hab.eq_or_lt with rfl | hlt
  · exact le_refl _
  rw [subsidyCoins_of_gt (ha.trans_lt hlt)]
  rcases ha.eq_or_lt with rfl | ha
  · -- the hyperbola starts below the end of the ramp
    rw [subsidyCoins_peak]
    exact Nat.div_le_of_le_mul (by omega)
  · rw [subsidyCoins_of_gt ha]
    exact Nat.div_le_div_left hab (by omega)

theorem subsidyCoins_le : subsidyCoins nHeight ≤ 750 := by
  rw [← subsidyCoins_peak]
  rcases le_total nHeight 131490 with h | h
  · exact subsidyCoins_mono h le_rfl
  · exact subsidyCoins_antitone le_rfl h

theorem subsidyCoins_eq_zero {nHeight : Nat} (h : 98617500 < nHeight) :
    subsidyCoins nHeight = 0 := by
  rw [subsidyCoins_of_gt (by omega)]
  exact Nat.div_eq_of_lt h

/-! ### The sums of the curve -/

/-- A sum over a range of heights, cut at a point. -/
theorem sum_Icc_le_of_cut {f : Nat → Nat} {m c B : Nat} (hhead : ∀ h, f h ≤ c)
    (htail : ∀ n, ∑ h ∈ Ioc m n, f h ≤ B) (n : Nat) : ∑ h ∈ Icc 1 n, f h ≤ m * c + B := by
  have hcover : Icc 1 n ⊆ Icc 1 m ∪ Ioc m n := by
    intro h hh
    rw [mem_union, mem_Icc, mem_Ioc]
    rw [mem_Icc] at hh
    omega
  calc ∑ h ∈ Icc 1 n, f h
      ≤ ∑ h ∈ Icc 1 m ∪ Ioc m n, f h := sum_le_sum_of_subset hcover
    _ ≤ ∑ h ∈ Icc 1 m, f h + ∑ h ∈ Ioc m n, f h := sum_union_inter (f := f) ▸ Nat.le_add_right _ _
    _ ≤ m * c + B := by
        refine add_le_add ?_ (htail n)
        calc ∑ h ∈ Icc 1 m, f h ≤ (Icc 1 m).card • c := sum_le_card_nsmul _ _ _ fun h _ => hhead h
          _ = m * c := by simp

variable (n : Nat)

/-- **All subsidies together.** -/
theorem sum_subsidyCoins_le : ∑ h ∈ Icc 1 n, subsidyCoins h ≤ 788940000 := by
  refine (sum_Icc_le_of_cut (m := 131490) (c := 750) (B := 690322500) subsidyCoins_le ?_ n).trans
    (by norm_num)
  intro n
  have htail : ∑ h ∈ Ioc 131490 n, subsidyCoins h = ∑ h ∈ Ioc 131490 n, 98617500 / h :=
    sum_congr rfl fun h hh => subsidyCoins_of_gt (mem_Ioc.mp hh).1
  have hbound := Hyperbola.sum_Ioc_div_le (C := 98617500) (a := 131490) (m := 10) (by norm_num)
    (by norm_num) n
  omega

/-- The subsidy of a superblock after the peak: 98617500 is 4500 periods. -/
theorem subsidyCoins_month {k : Nat} (hk : 6 < k) : subsidyCoins (21915 * k) = 4500 / k := by
  rw [subsidyCoins_of_gt (by omega)]
  exact Nat.mul_div_mul_left 4500 k (by norm_num : 0 < 21915)

/-- **The subsidies of all superblocks together.** -/
theorem sum_monthly_subsidyCoins_le : ∑ k ∈ Icc 1 n, subsidyCoins (21915 * k) ≤ 36000 := by
  refine (sum_Icc_le_of_cut (m := 6) (c := 750) (B := 31500)
    (fun k => subsidyCoins_le (21915 * k)) ?_ n).trans (by norm_num)
  intro n
  have htail : ∑ k ∈ Ioc 6 n, subsidyCoins (21915 * k) = ∑ k ∈ Ioc 6 n, 4500 / k :=
    sum_congr rfl fun k hk => subsidyCoins_month (mem_Ioc.mp hk).1
  have hbound := Hyperbola.sum_Ioc_div_le (C := 4500) (a := 6) (m := 10) (by norm_num)
    (by norm_num) n
  omega

/-! ### The budget of a superblock -/

section Issue

variable (scriptFor : String → CScript) {p : Params}

/-- What the budget of a height pays. -/
def budgetIssue (p : Params) (nHeight : Nat) : Int :=
  ((computeSuperBlockPayments scriptFor p nHeight (getBlockSubsidy nHeight p)).map Prod.snd).sum

/-- **What the blocks up to a height create**: their subsidies and budgets. -/
def totalIssued (p : Params) (n : Nat) : Int :=
  ∑ nHeight ∈ Icc 1 n, (getBlockSubsidy nHeight p + budgetIssue scriptFor p nHeight)

theorem budgetIssue_of_not_superBlock {nHeight : Nat} (h : p.isSuperBlock nHeight = false) :
    budgetIssue scriptFor p nHeight = 0 := by
  simp [budgetIssue, computeSuperBlockPayments, h]

/-- The payees share 45 parts, where the miners of the period have 55. -/
theorem budgetIssue_le (hp : p.IsDeVault) (nHeight : Nat) :
    55 * budgetIssue scriptFor p nHeight ≤ 45 * 21915 * (subsidyCoins nHeight * coin) := by
  obtain ⟨hs0, hs⟩ := hp.getBlockSubsidy_bounds nHeight
  have hsub := hp.getBlockSubsidy_eq_subsidyCoins nHeight
  unfold budgetIssue computeSuperBlockPayments
  split
  · simp [coin, satoshi]
  rcases budgetAt_eq_nil_or_mem p nHeight with hnil | ⟨epoch, hmem, hbudget⟩
  · simp [hnil, coin, satoshi]
  obtain ⟨-, hscale, hpercent⟩ := payouts_shares epoch hmem
  have hshares : (epoch.budget.map (·.percent)).sum = 45 := by
    unfold scaleFactor at hscale
    omega
  simp only [hbudget, hscale, List.map_map]
  -- each payment is its share, rounded down to a coin
  have hone : ∀ b ∈ epoch.budget, 55 * budgetPayment p 55 (getBlockSubsidy nHeight p) b.percent ≤
        b.percent * (21915 * (subsidyCoins nHeight * coin)) := by
    intro b hb
    obtain ⟨h0, h15⟩ := hpercent b hb
    rw [budgetPayment_eq hp hs0 hs h0 h15, ← hsub]
    have hround := Int.ediv_mul_le (b.percent * 21915 * getBlockSubsidy nHeight p)
      (by norm_num : (55 * 100000000 : Int) ≠ 0)
    simp only [coin, satoshi]
    linarith
  calc 55 * (epoch.budget.map (Prod.snd ∘ fun b : BudgetStruct => _)).sum
      = (epoch.budget.map fun b =>
          55 * budgetPayment p 55 (getBlockSubsidy nHeight p) b.percent).sum := by
        rw [← List.sum_map_mul_left]
        rfl
    _ ≤ (epoch.budget.map fun b => b.percent * (21915 * (subsidyCoins nHeight * coin))).sum :=
        List.sum_le_sum hone
    _ = 45 * 21915 * (subsidyCoins nHeight * coin) := by
        rw [List.sum_map_mul_right, hshares]
        ring

/-- The superblocks up to a height are the multiples of a period. -/
theorem Params.IsDeVault.isSuperBlock_iff (hp : p.IsDeVault) (nHeight : Nat) :
    p.isSuperBlock nHeight = true ↔ 21915 ∣ nHeight := by
  rw [Params.isSuperBlock, hp.nBlocksPerPeriod_eq, beq_iff_eq]
  constructor
  · intro h
    exact_mod_cast Int.dvd_of_tmod_eq_zero h
  · intro h
    exact Int.tmod_eq_zero_of_dvd (by exact_mod_cast h)

/-- A sum over heights to which only the multiples of a period contribute. -/
theorem sum_Icc_of_multiples {f : Nat → Int} {m : Nat} (hm : 0 < m)
    (hf : ∀ h, ¬m ∣ h → f h = 0) (n : Nat) :
    ∑ h ∈ Icc 1 n, f h = ∑ k ∈ Icc 1 (n / m), f (m * k) := by
  have himage : (Icc 1 (n / m)).image (m * ·) ⊆ Icc 1 n := by
    intro h hh
    obtain ⟨k, hk, rfl⟩ := mem_image.mp hh
    obtain ⟨hk1, hkn⟩ := mem_Icc.mp hk
    refine mem_Icc.mpr ⟨Nat.mul_pos hm hk1, ?_⟩
    exact (Nat.mul_le_mul_left m hkn).trans (Nat.mul_div_le n m)
  rw [← sum_subset himage]
  · exact sum_image fun a _ b _ hab => Nat.eq_of_mul_eq_mul_left hm hab
  · intro h hh hnot
    refine hf h fun hdvd => hnot ?_
    obtain ⟨k, rfl⟩ := hdvd
    obtain ⟨h1, hn⟩ := mem_Icc.mp hh
    refine mem_image.mpr ⟨k, mem_Icc.mpr ⟨Nat.pos_of_mul_pos_left h1, ?_⟩, rfl⟩
    exact (Nat.le_div_iff_mul_le hm).mpr (by rwa [mul_comm])

/-- **The supply stays below the cap.** -/
theorem totalIssued_le (hp : p.IsDeVault) (n : Nat) : totalIssued scriptFor p n ≤ maxMoney := by
  have hcoin : (0 : Int) < coin := by decide
  -- the subsidies
  have hsubsidies : ∑ h ∈ Icc 1 n, getBlockSubsidy h p ≤ 788940000 * coin := by
    simp only [hp.getBlockSubsidy_eq_subsidyCoins, ← sum_mul]
    refine mul_le_mul_of_nonneg_right ?_ hcoin.le
    exact_mod_cast sum_subsidyCoins_le n
  -- the budgets are paid by the superblocks only
  have hmonths : ∑ h ∈ Icc 1 n, budgetIssue scriptFor p h =
      ∑ k ∈ Icc 1 (n / 21915), budgetIssue scriptFor p (21915 * k) := by
    refine sum_Icc_of_multiples (by norm_num) (fun h hnot => ?_) n
    refine budgetIssue_of_not_superBlock scriptFor ?_
    rw [Bool.eq_false_iff, ne_eq, hp.isSuperBlock_iff]
    exact hnot
  have hbudgets : 55 * ∑ h ∈ Icc 1 n, budgetIssue scriptFor p h ≤ 45 * 21915 * 36000 * coin := by
    rw [hmonths, mul_sum]
    calc ∑ k ∈ Icc 1 (n / 21915), 55 * budgetIssue scriptFor p (21915 * k)
        ≤ ∑ k ∈ Icc 1 (n / 21915), 45 * 21915 * ((subsidyCoins (21915 * k) : Int) * coin) :=
          sum_le_sum fun k _ => budgetIssue_le scriptFor hp (21915 * k)
      _ = 45 * 21915 * coin *
        ((∑ k ∈ Icc 1 (n / 21915), subsidyCoins (21915 * k) : Nat) : Int) := by
          push_cast
          rw [mul_sum]
          exact sum_congr rfl fun k _ => by ring
      _ ≤ 45 * 21915 * coin * 36000 := by
          refine mul_le_mul_of_nonneg_left ?_ (by positivity)
          exact_mod_cast sum_monthly_subsidyCoins_le (n / 21915)
      _ = 45 * 21915 * 36000 * coin := by ring
  rw [totalIssued, sum_add_distrib]
  simp only [maxMoney]
  linarith

end Issue

/-! ### The whole curve -/

/-- **Nothing leaves its type.** The casts to `int` keep their values, and products and sums are in
the range of `int64_t`. -/
structure SubsidyFits (p : Params) (nHeight : Nat) : Prop where
  peakBonus : toInt32 (p.nInitialMiningRewardInCoins.tdiv 2) =
    p.nInitialMiningRewardInCoins.tdiv 2
  ramp : (nHeight : Int) ≤ p.nBlocksPerYear.tdiv 2 →
    int64Range (2 * p.nInitialMiningRewardInCoins) = true ∧
    int64Range (2 * p.nInitialMiningRewardInCoins * nHeight) = true ∧
    int64Range (3 * p.nBlocksPerYear.tdiv 2) = true ∧
    int64Range (3 * p.nBlocksPerYear.tdiv 2 + nHeight) = true ∧
    toInt32 ((2 * p.nInitialMiningRewardInCoins * nHeight).tdiv
        (3 * p.nBlocksPerYear.tdiv 2 + nHeight)) =
      (2 * p.nInitialMiningRewardInCoins * nHeight).tdiv (3 * p.nBlocksPerYear.tdiv 2 + nHeight)
  tail : p.nBlocksPerYear.tdiv 2 < nHeight →
    int64Range (p.nBlocksPerYear.tdiv 2 *
      (p.nInitialMiningRewardInCoins + p.nInitialMiningRewardInCoins.tdiv 2)) = true
  reward : int64Range (getBlockSubsidy nHeight p) = true

theorem subsidyFits : SubsidyFits mainParams nHeight where
  peakBonus := by decide
  ramp := by
    intro hle
    have hpeak : mainParams.nBlocksPerYear.tdiv 2 = 131490 := by decide
    have hreward : mainParams.nInitialMiningRewardInCoins = 500 := rfl
    rw [hpeak] at hle ⊢
    rw [hreward]
    refine ⟨by decide, ?_, by decide, ?_, ?_⟩
    · rw [int64Range_iff]
      omega
    · rw [int64Range_iff]
      omega
    · -- the quotient is that of the ramp
      norm_num
      rw [toInt32_ramp, Int.tdiv_eq_ediv_of_nonneg (by positivity)]
      push_cast
      rfl
  tail := fun _ => by decide
  reward := by
    obtain ⟨h0, h750⟩ :=
      Params.IsDeVault.getBlockSubsidy_bounds (p := mainParams) (.inl rfl) nHeight
    rw [int64Range_iff]
    simp only [coin, satoshi] at h750
    omega

/-- **The inflation curve of the main network.** It does not fall before the peak at half a year and
does not rise after it, its maximum is 750 coins, and it ends. No cast or product leaves its type.
The subsidies and budget payments of all blocks up to a height never exceed `MAX_MONEY`. -/
theorem getBlockSubsidy_curve (scriptFor : String → CScript) :
    (∀ a b : Nat, a ≤ b → (b : Int) ≤ mainParams.nBlocksPerYear.tdiv 2 →
      getBlockSubsidy a mainParams ≤ getBlockSubsidy b mainParams) ∧
    (∀ a b : Nat, mainParams.nBlocksPerYear.tdiv 2 ≤ a → a ≤ b →
      getBlockSubsidy b mainParams ≤ getBlockSubsidy a mainParams) ∧
    IsGreatest (Set.range fun nHeight => getBlockSubsidy nHeight mainParams) (750 * coin) ∧
    (∃ last < 2 ^ 31, ∀ nHeight > last, getBlockSubsidy nHeight mainParams = 0) ∧
    (∀ nHeight < 2 ^ 31, SubsidyFits mainParams nHeight) ∧
    ∀ n, ∑ nHeight ∈ Icc 1 n, (getBlockSubsidy nHeight mainParams +
      ((computeSuperBlockPayments scriptFor mainParams nHeight
        (getBlockSubsidy nHeight mainParams)).map Prod.snd).sum) ≤ maxMoney := by
  have hp : mainParams.IsDeVault := .inl rfl
  have hpeak : mainParams.nBlocksPerYear.tdiv 2 = 131490 := by decide
  have hcoin : (0 : Int) ≤ coin := by decide
  simp only [hp.getBlockSubsidy_eq_subsidyCoins, hpeak]
  refine ⟨?_, ?_, ⟨?_, ?_⟩, ?_, ?_, ?_⟩
  · intro a b hab hb
    refine mul_le_mul_of_nonneg_right ?_ hcoin
    exact_mod_cast subsidyCoins_mono hab (by exact_mod_cast hb)
  · intro a b ha hab
    refine mul_le_mul_of_nonneg_right ?_ hcoin
    exact_mod_cast subsidyCoins_antitone (by exact_mod_cast ha) hab
  · exact ⟨131490, by simp only [subsidyCoins_peak]; rfl⟩
  · rintro _ ⟨nHeight, rfl⟩
    refine mul_le_mul_of_nonneg_right ?_ hcoin
    exact_mod_cast subsidyCoins_le nHeight
  · refine ⟨98617500, by norm_num, fun nHeight h => ?_⟩
    rw [subsidyCoins_eq_zero h, Nat.cast_zero, zero_mul]
  · exact fun nHeight _ => subsidyFits nHeight
  · intro n
    have htotal := totalIssued_le scriptFor hp n
    simp only [totalIssued, budgetIssue, hp.getBlockSubsidy_eq_subsidyCoins] at htotal
    exact htotal

end DeVault
