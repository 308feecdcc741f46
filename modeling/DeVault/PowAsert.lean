import DeVault.Amount

/-!
# The ASERT target (`CalculateASERT` of `pow.cpp`)

The next target is the reference target times `2 ^ x`, where `x` is how far the chain is
behind its schedule, in half-lives. The source computes it in fixed point: the whole part of
`x` is a shift, the rest a cubic whose result is read as a 17-bit factor.

A target is a natural number below `2 ^ 256`. The 64-bit steps are checked: where one of them
leaves its type, or an assertion fails, the model returns `none`.
-/

namespace DeVault

/-- The value of a 64-bit operation, if it has not overflowed. -/
def int64 (x : Int) : Option Int := if int64Range x then some x else none

/-- The conversion of a shift count to `unsigned int`. -/
def shiftCount (shifts : Int) : Nat := (shifts % 2 ^ 32).toNat

/-- The cubic in `factor`, before its shift. -/
def asertCubic (frac : Nat) : Nat :=
  195766423245049 * frac + 971821376 * frac * frac + 5127 * frac * frac * frac + 1 <<< 47

/-- `factor`. -/
def asertFactor (frac : Nat) : Nat := 65536 + asertCubic frac >>> 48

/-- `CalculateASERT` once it has the exponent. -/
def asertScaled (refTarget powLimit : Nat) (exponent : Int) : Option Nat := do
  let shifts := exponent >>> (16 : Nat)
  let frac := (exponent % 65536).toNat
  guard (exponent = shifts * 65536 + frac)
  guard (asertCubic frac < 2 ^ 64)
  let nextTarget := refTarget * asertFactor frac
  guard (nextTarget < 2 ^ 256)
  let shifts ← int64 (shifts - 16)
  let nextTarget :=
    if shifts ≤ 0 then nextTarget >>> shiftCount (-shifts)
    else
      let nextTargetShifted := nextTarget <<< shiftCount shifts % 2 ^ 256
      if nextTargetShifted >>> shiftCount shifts ≠ nextTarget then powLimit else nextTargetShifted
  some (if nextTarget = 0 then 1 else if nextTarget > powLimit then powLimit else nextTarget)

/-- `CalculateASERT`; `none` where an assertion fails. -/
def calculateASERT (refTarget : Nat) (nPowTargetSpacing nTimeDiff nHeightDiff : Int)
    (powLimit : Nat) (nHalfLife : Int) : Option Nat := do
  guard (0 < refTarget ∧ refTarget ≤ powLimit)
  guard (powLimit >>> 224 = 0)
  guard (0 ≤ nHeightDiff)
  let elapsed ← int64 (nPowTargetSpacing * nHeightDiff)
  let ahead ← int64 (nTimeDiff - elapsed)
  guard (ahead.natAbs < 2 ^ (63 - 16))
  let height ← int64 (nHeightDiff + 1)
  let ideal ← int64 (nPowTargetSpacing * height)
  let behind ← int64 (nTimeDiff - ideal)
  let scaled ← int64 (behind * 65536)
  guard (nHalfLife ≠ 0)
  let exponent ← int64 (scaled.tdiv nHalfLife)
  asertScaled refTarget powLimit exponent

/-! ### The exact target -/

/-- `refTarget * 2 ^ (exponent / 65536)` with the factor of the source, rounded down. -/
def asertTarget (refTarget : Nat) (exponent : Int) : Nat :=
  let shifts := exponent / 65536 - 16
  refTarget * asertFactor (exponent % 65536).toNat * 2 ^ shifts.toNat / 2 ^ (-shifts).toNat

theorem asertCubic_mono {a b : Nat} (h : a ≤ b) : asertCubic a ≤ asertCubic b := by
  unfold asertCubic
  gcongr

theorem asertFactor_mono {a b : Nat} (h : a ≤ b) : asertFactor a ≤ asertFactor b := by
  unfold asertFactor
  rw [Nat.shiftRight_eq_div_pow, Nat.shiftRight_eq_div_pow]
  exact Nat.add_le_add_left (Nat.div_le_div_right (asertCubic_mono h)) _

theorem asertFactor_lt {frac : Nat} (h : frac < 65536) :
    asertCubic frac < 2 ^ 64 ∧ asertFactor frac < 2 ^ 17 := by
  have hcubic := asertCubic_mono (Nat.le_of_lt_succ h)
  have hfactor := asertFactor_mono (Nat.le_of_lt_succ h)
  exact ⟨hcubic.trans_lt (by decide), hfactor.trans_lt (by decide)⟩

/-- **The target grows with the exponent**, also where the fraction starts again at zero. -/
theorem asertTarget_mono {r r' : Nat} {e e' : Int} (hr : r ≤ r') (he : e ≤ e') :
    asertTarget r e ≤ asertTarget r' e' := by
  unfold asertTarget
  set s := e / 65536 - 16 with hs
  set s' := e' / 65536 - 16 with hs'
  set f := asertFactor (e % 65536).toNat
  set f' := asertFactor (e' % 65536).toNat
  have hfactor : f * 2 ^ (s.toNat + (-s').toNat) ≤ f' * 2 ^ (s'.toNat + (-s).toNat) := by
    rcases (Int.ediv_le_ediv (by norm_num : (0 : Int) < 65536) he).eq_or_lt with hq | hq
    · rw [show s.toNat + (-s').toNat = s'.toNat + (-s).toNat by omega]
      exact Nat.mul_le_mul_right _ (asertFactor_mono (by omega))
    · calc f * 2 ^ (s.toNat + (-s').toNat)
          ≤ 2 ^ 17 * 2 ^ (s.toNat + (-s').toNat) :=
            Nat.mul_le_mul_right _ (asertFactor_lt (by omega)).2.le
        _ = 2 ^ 16 * 2 ^ (s.toNat + (-s').toNat + 1) := by rw [pow_succ 2 (_ + _)]; omega
        _ ≤ f' * 2 ^ (s'.toNat + (-s).toNat) :=
            Nat.mul_le_mul (Nat.le_add_right _ _) (Nat.pow_le_pow_right two_pos (by omega))
  refine (Nat.le_div_iff_mul_le (by positivity)).mpr ?_
  rw [mul_comm]
  refine (Nat.mul_div_le_mul_div_assoc _ _ _).trans (Nat.div_le_of_le_mul ?_)
  calc 2 ^ (-s').toNat * (r * f * 2 ^ s.toNat)
      = r * (f * 2 ^ (s.toNat + (-s').toNat)) := by rw [pow_add]; ring
    _ ≤ r' * (f' * 2 ^ (s'.toNat + (-s).toNat)) := Nat.mul_le_mul hr hfactor
    _ = 2 ^ (-s).toNat * (r' * f' * 2 ^ s'.toNat) := by rw [pow_add]; ring

/-! ### The checks of the source -/

/-- The exponent for a time and a height difference. -/
def asertExponent (nPowTargetSpacing nTimeDiff nHeightDiff nHalfLife : Int) : Int :=
  ((nTimeDiff - nPowTargetSpacing * (nHeightDiff + 1)) * 65536).tdiv nHalfLife

/-- A shift to the left that loses bits is noticed by shifting back. -/
theorem shiftLeft_shiftRight_eq_iff {x s : Nat} :
    (x <<< s % 2 ^ 256) >>> s = x ↔ x * 2 ^ s < 2 ^ 256 := by
  rw [Nat.shiftLeft_eq, Nat.shiftRight_eq_div_pow]
  constructor
  · intro h
    by_contra hlt
    have hdiv : x * 2 ^ s % 2 ^ 256 / 2 ^ s < x :=
      Nat.div_lt_of_lt_mul <| (Nat.mod_lt _ (by positivity)).trans_le <|
        mul_comm x _ ▸ not_lt.mp hlt
    omega
  · intro h
    rw [Nat.mod_eq_of_lt h, Nat.mul_div_cancel _ (by positivity)]

/-- The ranges of the chain: a spacing of at most ten minutes, a half-life of at least an hour, and
differences of 32-bit heights and timestamps. -/
structure AsertRange (powLimit refTarget : Nat) (nPowTargetSpacing nTimeDiff nHeightDiff
    nHalfLife : Int) : Prop where
  powLimit_lt : powLimit < 2 ^ 224
  refTarget_pos : 1 ≤ refTarget
  refTarget_le : refTarget ≤ powLimit
  heightDiff_nonneg : 0 ≤ nHeightDiff
  heightDiff_le : nHeightDiff ≤ 2 ^ 31
  spacing_pos : 1 ≤ nPowTargetSpacing
  spacing_le : nPowTargetSpacing ≤ 600
  halfLife_ge : 3600 ≤ nHalfLife
  timeDiff : ∃ now then_ : Nat, now < 2 ^ 32 ∧ then_ < 2 ^ 32 ∧ nTimeDiff = now - then_

variable {powLimit refTarget : Nat} {nPowTargetSpacing nTimeDiff nHeightDiff nHalfLife : Int}

theorem guard_bind {p : Prop} [Decidable p] {f : Unit → Option Nat} (hp : p) :
    (guard p >>= f) = f () := by
  rw [guard, if_pos hp]
  rfl

theorem int64_bind {x : Int} {f : Int → Option Nat} (hx : -2 ^ 63 ≤ x ∧ x < 2 ^ 63) :
    (int64 x >>= f) = f x := by
  rw [int64, if_pos (int64Range_iff.mpr hx)]
  rfl

theorem asertScaled_eq {e : Int} (hpos : 1 ≤ refTarget) (hle : refTarget ≤ powLimit)
    (hlimit : powLimit < 2 ^ 224) (he : e.natAbs < 2 ^ 46) :
    asertScaled refTarget powLimit e = some (max 1 (min powLimit (asertTarget refTarget e))) := by
  obtain ⟨hcubic, hfactor⟩ := asertFactor_lt (show (e % 65536).toNat < 65536 by omega)
  have hshift : e >>> (16 : Nat) = e / 65536 := Int.shiftRight_eq_div_pow e 16
  unfold asertScaled asertTarget
  set n := refTarget * asertFactor (e % 65536).toNat
  have hn : n < 2 ^ 256 :=
    calc n < 2 ^ 224 * 2 ^ 17 := Nat.mul_lt_mul'' (hle.trans_lt hlimit) hfactor
      _ ≤ 2 ^ 256 := by norm_num
  rw [guard_bind (by omega), guard_bind hcubic, guard_bind hn, int64_bind (by omega), hshift]
  set s := e / 65536 - 16 with hs
  have hcount {k : Int} (hk : 0 ≤ k) (hlt : k < 2 ^ 32) : shiftCount k = k.toNat := by
    rw [shiftCount, Int.emod_eq_of_lt hk hlt]
  -- Both sides are clamped, so they need to agree up to the limit only.
  have hclamp : ∀ x y : Nat, min powLimit x = min powLimit y →
      (if x = 0 then 1 else if x > powLimit then powLimit else x) = max 1 (min powLimit y) := by
    intro x y hxy
    rw [← hxy]
    split_ifs <;> omega
  refine congrArg some (hclamp _ _ ?_)
  dsimp only
  rcases le_or_gt s 0 with hs0 | hs0
  · rw [if_pos hs0, hcount (by omega) (by omega), Nat.shiftRight_eq_div_pow,
      show s.toNat = 0 by omega, pow_zero, mul_one]
  · rw [if_neg (not_le.mpr hs0), hcount hs0.le (by omega), show (-s).toNat = 0 by omega, pow_zero,
      Nat.div_one]
    by_cases hlt : n * 2 ^ s.toNat < 2 ^ 256
    · rw [if_neg (not_not.mpr (shiftLeft_shiftRight_eq_iff.mpr hlt)), Nat.shiftLeft_eq,
        Nat.mod_eq_of_lt hlt]
    · rw [if_pos (hlt ∘ shiftLeft_shiftRight_eq_iff.mp), min_self, min_eq_left]
      exact (hlimit.le.trans (by norm_num)).trans (not_lt.mp hlt)

/-- Within the ranges of the chain no check fails, and the result is a
clamped quotient of exact numbers. -/
theorem AsertRange.calculateASERT_eq
    (h : AsertRange powLimit refTarget nPowTargetSpacing nTimeDiff nHeightDiff nHalfLife) :
    calculateASERT refTarget nPowTargetSpacing nTimeDiff nHeightDiff powLimit nHalfLife =
      some (max 1 (min powLimit (asertTarget refTarget
        (asertExponent nPowTargetSpacing nTimeDiff nHeightDiff nHalfLife)))) := by
  obtain ⟨hlimit, hpos, hle, hh0, hh, hs0, hs, hhalf, now, then_, hnow, hthen, rfl⟩ := h
  have hmul0 : 0 ≤ nPowTargetSpacing * nHeightDiff := by positivity
  have hmul : nPowTargetSpacing * nHeightDiff ≤ 600 * 2 ^ 31 := by gcongr
  have hnext := mul_add_one nPowTargetSpacing nHeightDiff
  have hexp : (asertExponent nPowTargetSpacing (now - then_) nHeightDiff nHalfLife).natAbs <
      2 ^ 46 := by
    unfold asertExponent
    set scaled := ((now : Int) - then_ - nPowTargetSpacing * (nHeightDiff + 1)) * 65536
    have hdiv : scaled.natAbs / nHalfLife.natAbs ≤ scaled.natAbs / 3600 :=
      Nat.div_le_div_left (by omega) (by decide)
    rw [Int.natAbs_tdiv]
    exact hdiv.trans_lt (by omega)
  have hlimit' : powLimit >>> 224 = 0 := by
    rw [Nat.shiftRight_eq_div_pow, Nat.div_eq_of_lt hlimit]
  rw [← asertScaled_eq hpos hle hlimit hexp]
  unfold calculateASERT
  rw [guard_bind ⟨hpos, hle⟩, guard_bind hlimit', guard_bind hh0,
    int64_bind, int64_bind, guard_bind,
    int64_bind, int64_bind, int64_bind, int64_bind, guard_bind, int64_bind, asertExponent]
  · unfold asertExponent at hexp
    omega
  all_goals omega

/-- **`CalculateASERT` is total, bounded and monotone** within the ranges of the chain: no assertion
fails, nothing overflows, the target is in `1..powLimit`, and it does not go down when the time
difference or the reference target goes up or the height difference down. -/
theorem calculateASERT_spec
    (h : AsertRange powLimit refTarget nPowTargetSpacing nTimeDiff nHeightDiff nHalfLife) :
    (∃ target, calculateASERT refTarget nPowTargetSpacing nTimeDiff nHeightDiff powLimit
      nHalfLife = some target ∧ 1 ≤ target ∧ target ≤ powLimit) ∧
    ∀ refTarget' nTimeDiff' nHeightDiff',
      AsertRange powLimit refTarget' nPowTargetSpacing nTimeDiff' nHeightDiff' nHalfLife →
      refTarget ≤ refTarget' → nTimeDiff ≤ nTimeDiff' → nHeightDiff' ≤ nHeightDiff →
      ∀ target target',
        calculateASERT refTarget nPowTargetSpacing nTimeDiff nHeightDiff powLimit nHalfLife =
          some target →
        calculateASERT refTarget' nPowTargetSpacing nTimeDiff' nHeightDiff' powLimit nHalfLife =
          some target' → target ≤ target' := by
  constructor
  · have hlimit := h.refTarget_pos.trans h.refTarget_le
    exact ⟨_, h.calculateASERT_eq, le_max_left _ _, max_le hlimit (min_le_left _ _)⟩
  · intro refTarget' nTimeDiff' nHeightDiff' h' hr ht hh target target' heq heq'
    cases h.calculateASERT_eq.symm.trans heq
    cases h'.calculateASERT_eq.symm.trans heq'
    refine max_le_max_left 1 (min_le_min_left powLimit (asertTarget_mono hr ?_))
    have hhalf := h.halfLife_ge
    have hspacing := h.spacing_pos
    refine Int.tdiv_le_tdiv (by omega)
      (Int.mul_le_mul_of_nonneg_right (sub_le_sub ht ?_) (by decide))
    exact Int.mul_le_mul_of_nonneg_left (by omega) (by omega)

/-- A chain on schedule: two minutes for each of a thousand blocks. -/
theorem calculateASERT_spec_onSchedule :
    ∃ target, calculateASERT 1000 120 120120 1000 (2 ^ 223) 172800 = some target ∧ 1 ≤ target ∧
      target ≤ 2 ^ 223 :=
  (calculateASERT_spec ⟨by norm_num, by norm_num, by norm_num, by norm_num, by norm_num,
    by norm_num, by norm_num, by norm_num, 120120, 0, by norm_num⟩).1

end DeVault
