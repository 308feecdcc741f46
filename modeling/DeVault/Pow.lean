import DeVault.ArithUint256
import DeVault.Validation.LockTimes

/-!
# The difficulty adjustment (`pow.cpp`)

`LwmaCalculateNextWorkRequired` computes the target of the next block from a window of `N` blocks:
a sum of solve times, in which the `j`-th counts `j` times, multiplied by the average target. A
solve time is capped from above, at six times the spacing, but not from below: a block may be older
than its parent. The sum is an `int`, so it is the exact sum modulo `2 ^ 32`.

`GetAncestor` returns null for a height that is not there. The model returns `none` where the source
would then dereference it; that this does not happen is part of the results.
-/

namespace DeVault

open ArithUint256 Finset

/-- The fields of `Consensus::Params` that the difficulty adjustment reads. -/
structure PowParams where
  powLimit : Nat
  nPowTargetSpacing : Int
  fPowAllowMinDifficultyBlocks : Bool
  nZawyLwmaAveragingWindow : Nat

/-- `CMainParams`. -/
def mainPowParams : PowParams where
  powLimit := 0x00000000ffffffffffffffffffffffffffffffffffffffffffffffffffffffff
  nPowTargetSpacing := 2 * 60
  fPowAllowMinDifficultyBlocks := false
  nZawyLwmaAveragingWindow := 72

/-- `CTestNetParams`. -/
def testNetPowParams : PowParams where
  powLimit := 0x00ffffffffffffffffffffffffffffffffffffffffffffffffffffffffffffff
  nPowTargetSpacing := 2 * 15
  fPowAllowMinDifficultyBlocks := true
  nZawyLwmaAveragingWindow := 72

namespace PowParams

/-- `k`. -/
def lwmaK (p : PowParams) : Int :=
  toInt32 (((p.nZawyLwmaAveragingWindow + 1) * p.nPowTargetSpacing).tdiv 2)

/-- `k * N * N`, by which a target is divided. -/
def lwmaDivisor (p : PowParams) : Int :=
  p.lwmaK * p.nZawyLwmaAveragingWindow * p.nZawyLwmaAveragingWindow

/-- `N * k / dnorm`, the least weighted sum. -/
def lwmaFloor (p : PowParams) : Int := (p.nZawyLwmaAveragingWindow * p.lwmaK).tdiv 10

end PowParams

/-! ### The source -/

section Source

variable (p : PowParams) (nTime nBits : CBlockIndex → Nat)

/-- The variables of the loop. -/
structure LwmaState where
  sumTarget : Nat := 0
  t : Int := 0
  j : Int := 0
  deriving DecidableEq, Repr

variable (pindexPrev : CBlockIndex)

/-- The body of the loop, at height `i`. The product and the sum are of type `int64_t`, `t` is an
`int`. -/
def lwmaTurn (s : LwmaState) (i : Int) : Option LwmaState := do
  let block ← pindexPrev.getAncestor i
  let blockPrev ← block.getAncestor (i - 1)
  let solvetime : Int := nTime block - nTime blockPrev
  let solvetime := min (6 * p.nPowTargetSpacing) solvetime
  let j := s.j + 1
  let t := toInt32 (wrap64 (s.t + wrap64 (solvetime * j)))
  let target := (setCompact (nBits block)).1
  let sumTarget := (s.sumTarget + target / p.lwmaDivisor.toNat) % 2 ^ 256
  pure { sumTarget := sumTarget, t := t, j := j }

/-- The first turns of the loop. -/
def lwmaLoop (turns : Nat) : Option LwmaState :=
  (List.range turns).foldlM
    (fun s (n : Nat) => lwmaTurn p nTime nBits pindexPrev s
      (pindexPrev.nHeight + 1 - p.nZawyLwmaAveragingWindow + n)) {}

variable (blockTime : Nat)

/-- The rule of the test network for a block that comes late. -/
def minDifficultyAllowed : Bool :=
  p.fPowAllowMinDifficultyBlocks &&
    decide ((blockTime : Int) > nTime pindexPrev + 10 * p.nPowTargetSpacing)

/-- `t` after the lower clamp. -/
def lwmaClamp (t : Int) : Int := if t < p.lwmaFloor then p.lwmaFloor else t

/-- What the loop leads to: the product, for which the `int` becomes a 256-bit integer by way of
`uint64_t`, and the limit. -/
def lwmaNextTarget (s : LwmaState) : Nat :=
  let nextTarget := ((lwmaClamp p s.t % 2 ^ 64).toNat * s.sumTarget) % 2 ^ 256
  if nextTarget > p.powLimit then p.powLimit else nextTarget

/-- `LwmaCalculateNextWorkRequired`. -/
def lwmaCalculateNextWorkRequired : Option Nat :=
  if minDifficultyAllowed p nTime pindexPrev blockTime then
    some (getCompact p.powLimit)
  else if pindexPrev.nHeight + 1 ≤ p.nZawyLwmaAveragingWindow then
    some (getCompact p.powLimit)
  else do
    let s ← lwmaLoop p nTime nBits pindexPrev p.nZawyLwmaAveragingWindow
    pure (getCompact (lwmaNextTarget p s))

/-- `CheckProofOfWork`. -/
def checkProofOfWork (hash nBits : Nat) : Bool :=
  let (bnTarget, fNegative, fOverflow) := setCompact nBits
  if fNegative || bnTarget == 0 || fOverflow || bnTarget > p.powLimit then false
  else if hash > bnTarget then false
  else true

end Source

/-! ### The window -/

section Window

variable (p : PowParams) (nTime nBits : CBlockIndex → Nat) (pindexPrev : CBlockIndex)

variable (j : Nat)

/-- The blocks of the window, from the one before it (`0`) to the tip (`N`). -/
def windowBlock : CBlockIndex :=
  (pindexPrev.getAncestor (pindexPrev.nHeight - p.nZawyLwmaAveragingWindow + j)).getD pindexPrev

/-- The times of the window. -/
def windowTime : Nat := nTime (windowBlock p pindexPrev j)

/-- The targets of the window. -/
def windowTarget : Nat := (setCompact (nBits (windowBlock p pindexPrev j))).1

variable (m : Nat)

/-- The exact sum of the first solve times: the `j`-th, capped, counts `j` times. -/
def weightedSum : Int :=
  ∑ j ∈ range m, ((j : Int) + 1) * min (6 * p.nPowTargetSpacing)
    ((windowTime p nTime pindexPrev (j + 1) : Int) - windowTime p nTime pindexPrev j)

/-- How far the times of the window go back, weighted. -/
def weightedFall : Nat :=
  ∑ j ∈ range m, (j + 1) * (windowTime p nTime pindexPrev j - windowTime p nTime pindexPrev (j + 1))

/-- How far the times of the window go forward, weighted and capped. -/
def weightedRise : Nat :=
  ∑ j ∈ range m, (j + 1) * min (6 * p.nPowTargetSpacing).toNat
    (windowTime p nTime pindexPrev (j + 1) - windowTime p nTime pindexPrev j)

/-- The sum of the divided targets. -/
def targetSum : Nat :=
  ∑ j ∈ range m, windowTarget p nBits pindexPrev (j + 1) / p.lwmaDivisor.toNat

variable {p nTime nBits pindexPrev}

/-- The window lies on the chain. -/
theorem windowBlock_spec (hN : p.nZawyLwmaAveragingWindow ≤ pindexPrev.nHeight) {j : Nat}
    (hj : j ≤ p.nZawyLwmaAveragingWindow) :
    windowBlock p pindexPrev j ∈ pindexPrev.branch ∧
      ((windowBlock p pindexPrev j).nHeight : Int) =
        pindexPrev.nHeight - p.nZawyLwmaAveragingWindow + j := by
  obtain ⟨b, hb⟩ := pindexPrev.exists_getAncestor
    (show (0 : Int) ≤ pindexPrev.nHeight - p.nZawyLwmaAveragingWindow + j by omega) (by omega)
  rw [windowBlock, hb, Option.getD_some]
  exact CBlockIndex.getAncestor_eq_some_iff.mp hb

/-- The two blocks that a turn of the loop looks at. -/
theorem getAncestor_window (hN : p.nZawyLwmaAveragingWindow ≤ pindexPrev.nHeight) {j : Nat}
    (hj : j < p.nZawyLwmaAveragingWindow) {i : Int}
    (hi : i = pindexPrev.nHeight + 1 - p.nZawyLwmaAveragingWindow + j) :
    pindexPrev.getAncestor i = some (windowBlock p pindexPrev (j + 1)) ∧
      (windowBlock p pindexPrev (j + 1)).getAncestor (i - 1) =
        some (windowBlock p pindexPrev j) := by
  obtain ⟨hmem, hheight⟩ := windowBlock_spec hN (j := j + 1) hj
  obtain ⟨hmem', hheight'⟩ := windowBlock_spec hN (j := j) hj.le
  constructor
  · exact CBlockIndex.getAncestor_eq_some_iff.mpr ⟨hmem, by omega⟩
  · exact CBlockIndex.getAncestor_eq_some_iff.mpr
      ⟨CBlockIndex.mem_branch_of_le hmem hmem' (by omega), by omega⟩

/-! ### The loop -/

/-- Truncating on the way and truncating at the end is the same. -/
theorem toInt32_toInt32_add (x y : Int) :
    toInt32 (wrap64 (toInt32 x + wrap64 y)) = toInt32 (x + y) := by
  unfold toInt32 wrap64
  rw [Int.bmod_bmod_of_dvd (by norm_num), Int.bmod_add_bmod,
    ← Int.add_bmod_bmod (x := x) (y := y.bmod (2 ^ 64)), Int.bmod_bmod_of_dvd (by norm_num),
    Int.add_bmod_bmod]

/-- What the loop has computed after some turns. -/
theorem lwmaLoop_spec (hN : p.nZawyLwmaAveragingWindow ≤ pindexPrev.nHeight) {m : Nat}
    (hm : m ≤ p.nZawyLwmaAveragingWindow) :
    lwmaLoop p nTime nBits pindexPrev m =
      some ⟨targetSum p nBits pindexPrev m % 2 ^ 256,
        toInt32 (weightedSum p nTime pindexPrev m), m⟩ := by
  induction m with
  | zero => rfl
  | succ m ih =>
    obtain ⟨hblock, hprev⟩ := getAncestor_window hN hm rfl
    have hloop : lwmaLoop p nTime nBits pindexPrev (m + 1) =
        lwmaLoop p nTime nBits pindexPrev m >>= fun s => lwmaTurn p nTime nBits pindexPrev s
          (pindexPrev.nHeight + 1 - p.nZawyLwmaAveragingWindow + m) := by
      unfold lwmaLoop
      rw [List.range_succ, List.foldlM_append]
      simp only [List.foldlM_cons, List.foldlM_nil, bind_pure]
    rw [hloop, ih (Nat.le_of_succ_le hm)]
    show lwmaTurn p nTime nBits pindexPrev _ _ = _
    unfold lwmaTurn
    rw [hblock]
    show (windowBlock p pindexPrev (m + 1)).getAncestor _ >>= _ = _
    rw [hprev]
    refine congrArg some (LwmaState.mk.injEq .. ▸ ⟨?_, ?_, ?_⟩)
    · rw [show targetSum p nBits pindexPrev (m + 1) = _ from sum_range_succ _ m]
      exact Nat.mod_add_mod _ _ _
    · rw [show weightedSum p nTime pindexPrev (m + 1) = _ from sum_range_succ _ m, mul_comm]
      exact toInt32_toInt32_add _ _
    · push_cast
      rfl

/-! ### When the sum is exact -/

/-- The sum is what the times go forward, without what they go back. -/
theorem weightedSum_eq (nTime : CBlockIndex → Nat) (pindexPrev : CBlockIndex)
    (hT : 0 ≤ p.nPowTargetSpacing) (m : Nat) :
    weightedSum p nTime pindexPrev m =
      (weightedRise p nTime pindexPrev m : Int) - weightedFall p nTime pindexPrev m := by
  unfold weightedSum weightedRise weightedFall
  push_cast
  rw [← sum_sub_distrib]
  refine sum_congr rfl fun j _ => ?_
  rw [← mul_sub]
  congr 1
  omega

theorem weightedRise_le (p : PowParams) (nTime : CBlockIndex → Nat) (pindexPrev : CBlockIndex)
    (m : Nat) :
    2 * weightedRise p nTime pindexPrev m ≤ (6 * p.nPowTargetSpacing).toNat * (m * (m + 1)) := by
  induction m with
  | zero => simp [weightedRise]
  | succ m ih =>
    have hcap : (m + 1) * min (6 * p.nPowTargetSpacing).toNat
        (windowTime p nTime pindexPrev (m + 1) - windowTime p nTime pindexPrev m) ≤
        (m + 1) * (6 * p.nPowTargetSpacing).toNat := Nat.mul_le_mul_left _ (min_le_left _ _)
    rw [weightedRise, sum_range_succ, ← weightedRise]
    nlinarith

/-- A sum that is not too large fits exactly if it is not too small. -/
theorem toInt32_eq_self_iff {x : Int} (h : x < 2 ^ 31) : toInt32 x = x ↔ -2 ^ 31 ≤ x := by
  constructor
  · intro heq
    have hlow := Int.le_bmod (x := x) (by norm_num : 0 < 2 ^ 32)
    norm_num at hlow
    unfold toInt32 at heq
    norm_num at heq
    omega
  · intro hlow
    exact Int.bmod_eq_of_le (by norm_num; omega) (by norm_num; omega)

end Window

/-- The main and the test network. -/
def PowParams.IsPublic (p : PowParams) : Prop := p = mainPowParams ∨ p = testNetPowParams

section Public

variable {p : PowParams} (hp : p.IsPublic)

include hp

theorem PowParams.IsPublic.window_eq : p.nZawyLwmaAveragingWindow = 72 := by
  rcases hp with rfl | rfl <;> rfl

theorem PowParams.IsPublic.spacing_range : 0 < p.nPowTargetSpacing ∧ p.nPowTargetSpacing ≤ 120 := by
  rcases hp with rfl | rfl <;> decide

/-- **When the sum is exact.** The 32-bit sum is the exact one if and only if the weighted times of
the window go back by at most `2 ^ 31` seconds more than they go forward. -/
theorem lwmaLoop_exact_iff (nTime nBits : CBlockIndex → Nat) (pindexPrev : CBlockIndex)
    (hN : p.nZawyLwmaAveragingWindow ≤ pindexPrev.nHeight) {m : Nat}
    (hm : m ≤ p.nZawyLwmaAveragingWindow) :
    ∃ s, lwmaLoop p nTime nBits pindexPrev m = some s ∧
      (s.t = weightedSum p nTime pindexPrev m ↔
        weightedFall p nTime pindexPrev m ≤ weightedRise p nTime pindexPrev m + 2 ^ 31) := by
  refine ⟨_, lwmaLoop_spec hN hm, ?_⟩
  have hT := hp.spacing_range
  have hsum := weightedSum_eq nTime pindexPrev hT.1.le m
  have hrise := weightedRise_le p nTime pindexPrev m
  rw [hp.window_eq] at hm
  have hcap : (6 * p.nPowTargetSpacing).toNat * (m * (m + 1)) ≤ 720 * (72 * 73) :=
    Nat.mul_le_mul (by omega) (Nat.mul_le_mul hm (by omega))
  show toInt32 (weightedSum p nTime pindexPrev m) = weightedSum p nTime pindexPrev m ↔ _
  rw [toInt32_eq_self_iff (by omega)]
  omega

end Public

/-! ### A chain that goes back and forth -/

namespace Seesaw

/-- The times of a chain mined in one go after a pause. First the times continue where the chain had
stopped, then in every eleven blocks five have the present time, which the median does not notice.
-/
def nTime (b : CBlockIndex) : Nat :=
  if 11 ≤ b.nHeight ∧ b.nHeight % 11 ∈ [1, 3, 5, 7, 9] then 1702000000 + b.nHeight
  else 1700000000 + b.nHeight

/-- The tip. -/
def tip : CBlockIndex := LockedChild.line 83

theorem timesAboveMedian : TimesAboveMedian nTime tip :=
  .of_all (by decide +kernel)

end Seesaw

open Seesaw

open Seesaw in
/-- All times of the chain are allowed at the time `1702000000`, and the sum is truncated. -/
theorem lwmaLoop_truncated :
    TimesAboveMedian nTime tip ∧ (∀ b ∈ tip.branch, nTime b ≤ 1702000000 + 2 * 60 * 60) ∧
      (lwmaLoop mainPowParams nTime (fun _ => 0x1d00ffff) tip 72).map LwmaState.t ≠
        some (weightedSum mainPowParams nTime tip 72) := by
  exact ⟨timesAboveMedian, by decide +kernel, by decide +kernel⟩

/-- A chain with one block every two minutes. -/
theorem lwmaLoop_exact_steady :
    ∃ s, lwmaLoop mainPowParams (fun b => 1700000000 + 120 * b.nHeight) (fun _ => 0x1d00ffff)
        tip 72 = some s ∧
      s.t = weightedSum mainPowParams (fun b => 1700000000 + 120 * b.nHeight) tip 72 := by
  obtain ⟨s, hs, hiff⟩ := lwmaLoop_exact_iff (.inl rfl)
    (fun b => 1700000000 + 120 * b.nHeight) (fun _ => 0x1d00ffff) tip (by decide) (m := 72)
    (by decide)
  exact ⟨s, hs, hiff.mpr (by decide +kernel)⟩

/-! ### The next target -/

/-- The weighted sum of the whole window fits into an `int`. -/
def WeightFits (p : PowParams) (nTime : CBlockIndex → Nat) (pindexPrev : CBlockIndex) : Prop :=
  weightedFall p nTime pindexPrev p.nZawyLwmaAveragingWindow ≤
    weightedRise p nTime pindexPrev p.nZawyLwmaAveragingWindow + 2 ^ 31

/-- The targets of the whole window are within the limit and survive the division. -/
def TargetsInRange (p : PowParams) (nBits : CBlockIndex → Nat) (pindexPrev : CBlockIndex) : Prop :=
  ∀ j < p.nZawyLwmaAveragingWindow, p.lwmaDivisor.toNat ≤ windowTarget p nBits pindexPrev (j + 1) ∧
      windowTarget p nBits pindexPrev (j + 1) ≤ p.powLimit

section Targets

variable {p : PowParams} {nBits : CBlockIndex → Nat} {pindexPrev : CBlockIndex}

/-- The divisions only round down. -/
theorem targetSum_mul_le
    (m : Nat) : targetSum p nBits pindexPrev m * p.lwmaDivisor.toNat ≤
      ∑ j ∈ range m, windowTarget p nBits pindexPrev (j + 1) := by
  rw [targetSum, sum_mul]
  exact sum_le_sum fun j _ => Nat.div_mul_le_self _ _

section

variable (h : TargetsInRange p nBits pindexPrev)
include h

theorem TargetsInRange.sum_le :
    ∑ j ∈ range p.nZawyLwmaAveragingWindow, windowTarget p nBits pindexPrev (j + 1) ≤
      p.nZawyLwmaAveragingWindow * p.powLimit := by
  have hle := sum_le_card_nsmul (range p.nZawyLwmaAveragingWindow) _ p.powLimit
    fun j hj => (h j (mem_range.mp hj)).2
  rwa [card_range, smul_eq_mul] at hle

/-- No target is lost in the division. -/
theorem TargetsInRange.targetSum_pos
    (hd : 0 < p.lwmaDivisor.toNat) (hN : 0 < p.nZawyLwmaAveragingWindow) :
    0 < targetSum p nBits pindexPrev p.nZawyLwmaAveragingWindow := by
  refine sum_pos (fun j hj => ?_) ⟨0, mem_range.mpr hN⟩
  exact Nat.div_pos (h j (mem_range.mp hj)).1 hd

/-- A weight that is not too large for the limit does not make the product wrap around. -/
theorem TargetsInRange.product_lt {w : Nat}
    (hw : w * (p.nZawyLwmaAveragingWindow * p.powLimit) < 2 ^ 256 * p.lwmaDivisor.toNat) :
    w * targetSum p nBits pindexPrev p.nZawyLwmaAveragingWindow < 2 ^ 256 := by
  refine Nat.lt_of_mul_lt_mul_right (a := p.lwmaDivisor.toNat) ?_
  calc w * targetSum p nBits pindexPrev p.nZawyLwmaAveragingWindow * p.lwmaDivisor.toNat
      = w * (targetSum p nBits pindexPrev p.nZawyLwmaAveragingWindow * p.lwmaDivisor.toNat) :=
        mul_assoc ..
    _ ≤ w * (p.nZawyLwmaAveragingWindow * p.powLimit) :=
        Nat.mul_le_mul_left w ((targetSum_mul_le _).trans h.sum_le)
    _ < 2 ^ 256 * p.lwmaDivisor.toNat := hw

end

end Targets

/-- A target that is not zero survives the compact form, rounded down. -/
theorem decode_getCompact {v : Nat} (hpos : v ≠ 0) (hv : v < 2 ^ 256) :
    ∃ target, setCompact (getCompact v) = (target, false, false) ∧ target ≠ 0 ∧ target ≤ v := by
  have hkept : 0 < truncated v := (by positivity : 0 < 256 ^ (byteSize v - 1)).trans_le
    (pow_byteSize_le_truncated hpos)
  exact ⟨_, setCompact_getCompact hv, hkept.ne', truncated_le v⟩

section NextTarget

variable {p : PowParams} (hp : p.IsPublic)

include hp

theorem PowParams.IsPublic.powLimit_range : 0 < p.powLimit ∧ p.powLimit < 2 ^ 248 := by
  rcases hp with rfl | rfl <;> decide

/-- The numbers of the final equation, as they belong together. -/
theorem PowParams.IsPublic.divisor_eq :
    p.lwmaDivisor = p.lwmaK * 72 * 72 ∧ 0 < p.lwmaFloor ∧ p.lwmaFloor ≤ 6 * 72 * p.lwmaK ∧
      (6 * p.nPowTargetSpacing).toNat * (72 * 73) = 2 * (6 * 72 * p.lwmaK) ∧ 0 < p.lwmaK ∧
      p.lwmaFloor < 2 ^ 31 := by
  rcases hp with rfl | rfl <;> decide

/-- The clamped weight is positive, whatever the times are. -/
theorem PowParams.IsPublic.lwmaClamp_range (x : Int) :
    0 < lwmaClamp p (toInt32 x) ∧ lwmaClamp p (toInt32 x) < 2 ^ 31 := by
  obtain ⟨-, hfloor, -, -, -, hlt⟩ := hp.divisor_eq
  have hx : toInt32 x < 2 ^ 31 := Int.bmod_lt (by norm_num)
  unfold lwmaClamp
  split <;> omega

/-- **The weight is at most six times its regular value**, if the sum fits. -/
theorem PowParams.IsPublic.lwmaClamp_le {nTime : CBlockIndex → Nat} {pindexPrev : CBlockIndex}
    (hfit : WeightFits p nTime pindexPrev) :
    lwmaClamp p (toInt32 (weightedSum p nTime pindexPrev p.nZawyLwmaAveragingWindow)) ≤
      6 * 72 * p.lwmaK := by
  obtain ⟨-, -, hfloor, hcap, -, -⟩ := hp.divisor_eq
  have hsum := weightedSum_eq nTime pindexPrev hp.spacing_range.1.le p.nZawyLwmaAveragingWindow
  have hrise := weightedRise_le p nTime pindexPrev p.nZawyLwmaAveragingWindow
  have hT := hp.spacing_range
  unfold WeightFits at hfit
  rw [hp.window_eq] at hfit hsum hrise ⊢
  have hexact := (toInt32_eq_self_iff (x := weightedSum p nTime pindexPrev 72) (by omega)).mpr
    (by omega)
  unfold lwmaClamp
  rw [hexact]
  split <;> omega

/-- Nothing wraps around on the way from the window to the next target. -/
theorem PowParams.IsPublic.lwmaNextTarget_eq {nTime nBits : CBlockIndex → Nat}
    {pindexPrev : CBlockIndex} (hN : p.nZawyLwmaAveragingWindow ≤ pindexPrev.nHeight)
    (htargets : TargetsInRange p nBits pindexPrev)
    (hfit : p = mainPowParams ∨ WeightFits p nTime pindexPrev) :
    ∃ s, lwmaLoop p nTime nBits pindexPrev p.nZawyLwmaAveragingWindow = some s ∧
      s.t = toInt32 (weightedSum p nTime pindexPrev p.nZawyLwmaAveragingWindow) ∧
      s.sumTarget = targetSum p nBits pindexPrev p.nZawyLwmaAveragingWindow ∧
      (lwmaClamp p s.t).toNat * s.sumTarget < 2 ^ 256 ∧
      lwmaNextTarget p s = min ((lwmaClamp p s.t).toNat * s.sumTarget) p.powLimit ∧
      lwmaNextTarget p s ≠ 0 := by
  obtain ⟨hdivisor, -, -, -, hk, -⟩ := hp.divisor_eq
  have hlimit := hp.powLimit_range
  set w := lwmaClamp p (toInt32 (weightedSum p nTime pindexPrev p.nZawyLwmaAveragingWindow)) with hw
  obtain ⟨hwpos, hwlt⟩ : 0 < w ∧ w < 2 ^ 31 := hp.lwmaClamp_range _
  -- On the main network the limit leaves room for any weight, on the test network for one that
  -- fits.
  have hroom : w.toNat * (p.nZawyLwmaAveragingWindow * p.powLimit) <
      2 ^ 256 * p.lwmaDivisor.toNat := by
    rcases hfit with rfl | hfit
    · calc w.toNat * (mainPowParams.nZawyLwmaAveragingWindow * mainPowParams.powLimit)
          ≤ 2 ^ 31 * (mainPowParams.nZawyLwmaAveragingWindow * mainPowParams.powLimit) :=
            Nat.mul_le_mul_right _ (by omega)
        _ < 2 ^ 256 * mainPowParams.lwmaDivisor.toNat := by decide +kernel
    · have hle : w ≤ 6 * 72 * p.lwmaK := hp.lwmaClamp_le hfit
      rw [hp.window_eq]
      calc w.toNat * (72 * p.powLimit)
          ≤ (6 * 72 * p.lwmaK).toNat * (72 * p.powLimit) := Nat.mul_le_mul_right _ (by omega)
        _ = 6 * p.powLimit * p.lwmaDivisor.toNat := by
            rw [show (6 * 72 * p.lwmaK).toNat = 6 * 72 * p.lwmaK.toNat by omega,
              show p.lwmaDivisor.toNat = p.lwmaK.toNat * 72 * 72 by omega]
            ring
        _ < 2 ^ 256 * p.lwmaDivisor.toNat := Nat.mul_lt_mul_of_pos_right (by omega) (by omega)
  have hproduct := htargets.product_lt hroom
  have hsumpos := htargets.targetSum_pos (by omega) (by rw [hp.window_eq]; norm_num)
  have hsum : targetSum p nBits pindexPrev p.nZawyLwmaAveragingWindow < 2 ^ 256 :=
    (Nat.le_mul_of_pos_left _ (by omega)).trans_lt hproduct
  refine ⟨_, lwmaLoop_spec hN le_rfl, rfl, Nat.mod_eq_of_lt hsum, ?_⟩
  have hnext : lwmaNextTarget p ⟨targetSum p nBits pindexPrev p.nZawyLwmaAveragingWindow % 2 ^ 256,
      toInt32 (weightedSum p nTime pindexPrev p.nZawyLwmaAveragingWindow),
      (p.nZawyLwmaAveragingWindow : Int)⟩ =
        min (w.toNat * targetSum p nBits pindexPrev p.nZawyLwmaAveragingWindow) p.powLimit := by
    unfold lwmaNextTarget
    rw [Nat.mod_eq_of_lt hsum, ← hw, Int.emod_eq_of_lt hwpos.le (by omega),
      Nat.mod_eq_of_lt hproduct]
    dsimp only
    split <;> omega
  rw [hnext, ← hw, Nat.mod_eq_of_lt hsum]
  refine ⟨hproduct, rfl, ?_⟩
  have := Nat.mul_pos (show 0 < w.toNat by omega) hsumpos
  omega

/-- The factors of the final equation cancel. -/
theorem PowParams.IsPublic.sixfold_bound {w : Int} {next sumTarget total : Nat}
    (hw : w ≤ 6 * 72 * p.lwmaK) (hnext : next ≤ w.toNat * sumTarget)
    (htotal : sumTarget * p.lwmaDivisor.toNat ≤ total) :
    p.nZawyLwmaAveragingWindow * next ≤ 6 * total := by
  obtain ⟨hdivisor, -, -, -, hk, -⟩ := hp.divisor_eq
  rw [hp.window_eq]
  calc 72 * next ≤ 72 * (w.toNat * sumTarget) := Nat.mul_le_mul_left _ hnext
    _ ≤ 72 * (6 * 72 * p.lwmaK.toNat * sumTarget) :=
        Nat.mul_le_mul_left _ (Nat.mul_le_mul_right _ (by omega))
    _ = 6 * (sumTarget * p.lwmaDivisor.toNat) := by
        rw [show p.lwmaDivisor.toNat = p.lwmaK.toNat * 72 * 72 by omega]
        ring
    _ ≤ 6 * total := Nat.mul_le_mul_left _ htotal

omit hp in
theorem checkProofOfWork_of_decode {bits target : Nat}
    (hdecode : setCompact bits = (target, false, false)) (hpos : target ≠ 0)
    (hle : target ≤ p.powLimit) {hash : Nat} (hhash : hash ≤ target) :
    checkProofOfWork p hash bits = true := by
  unfold checkProofOfWork
  rw [hdecode]
  have hlimit : ¬ target > p.powLimit := by omega
  have hwork : ¬ hash > target := by omega
  simp [hpos, hlimit, hwork]

/-- **The next target.** With any times, and targets in the window that are within the limit and
survive the division, the result decodes to a target that `CheckProofOfWork` accepts. The product
does not wrap around, on the test network if the sum fits. The target is at most six times the
average of the window, if the sum fits and the rule for late blocks is not used. Before there is a
window, the result is the limit. -/
theorem lwmaCalculateNextWorkRequired_target (nTime nBits : CBlockIndex → Nat)
    (pindexPrev : CBlockIndex) (blockTime : Nat)
    (htargets : p.nZawyLwmaAveragingWindow ≤ pindexPrev.nHeight → TargetsInRange p nBits pindexPrev)
    (hfit : p = mainPowParams ∨ WeightFits p nTime pindexPrev) :
    ∃ bits target, lwmaCalculateNextWorkRequired p nTime nBits pindexPrev blockTime = some bits ∧
      setCompact bits = (target, false, false) ∧ target ≠ 0 ∧ target ≤ p.powLimit ∧
      (∀ hash ≤ target, checkProofOfWork p hash bits = true) ∧
      (p.nZawyLwmaAveragingWindow ≤ pindexPrev.nHeight →
        ∃ s, lwmaLoop p nTime nBits pindexPrev p.nZawyLwmaAveragingWindow = some s ∧
          s.sumTarget = targetSum p nBits pindexPrev p.nZawyLwmaAveragingWindow ∧
          (lwmaClamp p s.t).toNat * s.sumTarget < 2 ^ 256 ∧
          (WeightFits p nTime pindexPrev →
            minDifficultyAllowed p nTime pindexPrev blockTime = false →
            p.nZawyLwmaAveragingWindow * target ≤ 6 * ∑ j ∈ range p.nZawyLwmaAveragingWindow,
              windowTarget p nBits pindexPrev (j + 1))) := by
  have hlimit := hp.powLimit_range
  -- It is enough to know which target is encoded.
  suffices hnext : ∃ next, lwmaCalculateNextWorkRequired p nTime nBits pindexPrev blockTime =
        some (getCompact next) ∧ next ≠ 0 ∧ next ≤ p.powLimit ∧
      (p.nZawyLwmaAveragingWindow ≤ pindexPrev.nHeight →
        ∃ s, lwmaLoop p nTime nBits pindexPrev p.nZawyLwmaAveragingWindow = some s ∧
          s.sumTarget = targetSum p nBits pindexPrev p.nZawyLwmaAveragingWindow ∧
          (lwmaClamp p s.t).toNat * s.sumTarget < 2 ^ 256 ∧
          (WeightFits p nTime pindexPrev →
            minDifficultyAllowed p nTime pindexPrev blockTime = false →
            p.nZawyLwmaAveragingWindow * next ≤ 6 * ∑ j ∈ range p.nZawyLwmaAveragingWindow,
              windowTarget p nBits pindexPrev (j + 1))) by
    obtain ⟨next, heq, hpos, hle, hwindow⟩ := hnext
    obtain ⟨target, hdecode, hnonzero, hround⟩ := decode_getCompact hpos (by omega)
    refine ⟨_, target, heq, hdecode, hnonzero, hround.trans hle, fun hash hhash =>
      checkProofOfWork_of_decode hdecode hnonzero (hround.trans hle) hhash, fun hN => ?_⟩
    obtain ⟨s, hs, hsum, hproduct, hbound⟩ := hwindow hN
    exact ⟨s, hs, hsum, hproduct, fun hfits hlate =>
      (Nat.mul_le_mul_left _ hround).trans (hbound hfits hlate)⟩
  unfold lwmaCalculateNextWorkRequired
  by_cases hN : p.nZawyLwmaAveragingWindow ≤ pindexPrev.nHeight
  · obtain ⟨s, hs, ht, hsum, hproduct, hnext, hpos⟩ := hp.lwmaNextTarget_eq hN (htargets hN) hfit
    split
    next hlate =>
      refine ⟨p.powLimit, rfl, by omega, le_rfl, fun _ => ⟨s, hs, hsum, hproduct, ?_⟩⟩
      intro _ hnot
      rw [hlate] at hnot
      cases hnot
    next =>
      rw [if_neg (by omega), hs]
      refine ⟨lwmaNextTarget p s, rfl, hpos, hnext ▸ min_le_right _ _, fun _ =>
        ⟨s, rfl, hsum, hproduct, fun hfits _ => ?_⟩⟩
      have hweight := hp.lwmaClamp_le hfits
      rw [← ht] at hweight
      refine hp.sixfold_bound hweight (hnext ▸ min_le_left _ _) ?_
      rw [hsum]
      exact targetSum_mul_le _
  · refine ⟨p.powLimit, ?_, by omega, le_rfl, fun h => absurd h hN⟩
    rw [if_pos (show pindexPrev.nHeight + 1 ≤ p.nZawyLwmaAveragingWindow by omega), ite_self]

end NextTarget

/-- The same chain, at the limit. -/
theorem lwmaCalculateNextWorkRequired_target_steady :
    ∃ bits target, lwmaCalculateNextWorkRequired mainPowParams
        (fun b => 1700000000 + 120 * b.nHeight) (fun _ => 0x1d00ffff) tip 1700010080 =
          some bits ∧ setCompact bits = (target, false, false) ∧ target ≠ 0 := by
  obtain ⟨bits, target, h, hdecode, hpos, -⟩ := lwmaCalculateNextWorkRequired_target (.inl rfl)
    (fun b => 1700000000 + 120 * b.nHeight) (fun _ => 0x1d00ffff) tip 1700010080
    (fun _ => by unfold TargetsInRange; decide +kernel) (.inl rfl)
  exact ⟨bits, target, h, hdecode, hpos⟩

namespace TestNet

/-- A chain with one block every thirty seconds. -/
def steady (b : CBlockIndex) : Nat := 1700000000 + 30 * b.nHeight

/-- The last block goes back by almost a year. -/
def relapse (b : CBlockIndex) : Nat := if b.nHeight < 83 then 1700000000 else 1670000000

end TestNet

open TestNet in
/-- On the test network, a late block gets the limit as its target, far above the average; and where
the sum was truncated, the product wraps around. -/
theorem lwmaCalculateNextWorkRequired_testNet :
    (TargetsInRange testNetPowParams (fun _ => 0x1d00ffff) tip ∧
      WeightFits testNetPowParams steady tip ∧
      ∃ bits, lwmaCalculateNextWorkRequired testNetPowParams steady (fun _ => 0x1d00ffff) tip
          1700010000 = some bits ∧
        ¬ 72 * (setCompact bits).1 ≤ 6 * ∑ j ∈ range 72,
          windowTarget testNetPowParams (fun _ => 0x1d00ffff) tip (j + 1)) ∧
    TargetsInRange testNetPowParams (fun _ => 0x2000ffff) tip ∧
      ∃ s, lwmaLoop testNetPowParams relapse (fun _ => 0x2000ffff) tip 72 = some s ∧
        2 ^ 256 ≤ (lwmaClamp testNetPowParams s.t).toNat * s.sumTarget := by
  refine ⟨⟨by unfold TargetsInRange; decide +kernel, by unfold WeightFits; decide +kernel, ?_⟩,
    by unfold TargetsInRange; decide +kernel, ?_⟩
  · refine ⟨getCompact testNetPowParams.powLimit, ?_, by decide +kernel⟩
    decide +kernel
  · refine ⟨⟨72 * (0xffff * 256 ^ 29 / 5676480), 2134967296, 72⟩, ?_, by decide +kernel⟩
    rw [lwmaLoop_spec (by decide) (by decide)]
    decide +kernel

end DeVault
