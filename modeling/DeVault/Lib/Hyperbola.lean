import Mathlib

/-!
# Sums of a rounded hyperbola

The function `h ↦ ⌊C / h⌋` falls to zero after `C`, so its sum from some point on is bounded by a
constant, however far it goes. The bound is the area below the hyperbola: `1 / h` is at most
`log h - log (h - 1)`, the logarithms telescope, and what is left is the logarithm of the ratio of
the two ends.
-/

namespace Hyperbola

open Finset
open Real (log)

/-- The area below the hyperbola over a unit interval. -/
theorem inv_le_log_sub_log {n : ℕ} (hn : 0 < n) :
    1 / ((n + 1 : ℕ) : ℝ) ≤ log (n + 1 : ℕ) - log n := by
  have hpos : (0 : ℝ) < n := by exact_mod_cast hn
  have hnext : (0 : ℝ) < ((n + 1 : ℕ) : ℝ) := by exact_mod_cast Nat.succ_pos n
  calc 1 / ((n + 1 : ℕ) : ℝ)
      = 1 - (((n + 1 : ℕ) : ℝ) / n)⁻¹ := by
        push_cast
        field_simp
        ring
    _ ≤ log (((n + 1 : ℕ) : ℝ) / n) := Real.one_sub_inv_le_log_of_pos (div_pos hnext hpos)
    _ = log (n + 1 : ℕ) - log n := Real.log_div hnext.ne' hpos.ne'

/-- **The sum between two points.** -/
theorem sum_Ioc_div_le_log (C : ℕ) {a b : ℕ} (ha : 0 < a) (hab : a ≤ b) :
    ((∑ h ∈ Ioc a b, C / h : ℕ) : ℝ) ≤ C * (log b - log a) := by
  induction b, hab using Nat.le_induction with
  | base => simp
  | succ b hab ih =>
    have hb : 0 < b := ha.trans_le hab
    have hround : ((C / (b + 1) : ℕ) : ℝ) ≤ C * (1 / ((b + 1 : ℕ) : ℝ)) := by
      rw [mul_one_div]
      exact Nat.cast_div_le
    have hterm : ((C / (b + 1) : ℕ) : ℝ) ≤ C * (log (b + 1 : ℕ) - log b) :=
      hround.trans (mul_le_mul_of_nonneg_left (inv_le_log_sub_log hb) (Nat.cast_nonneg C))
    rw [sum_Ioc_succ_top hab, Nat.cast_add]
    calc ((∑ h ∈ Ioc a b, C / h : ℕ) : ℝ) + ((C / (b + 1) : ℕ) : ℝ)
        ≤ C * (log b - log a) + C * (log (b + 1 : ℕ) - log b) :=
          add_le_add ih hterm
      _ = C * (log (b + 1 : ℕ) - log a) := by ring

/-- Past the value `C` nothing is added. -/
theorem sum_Ioc_div_le_sum_Ioc_div (C a n : ℕ) : ∑ h ∈ Ioc a n, C / h ≤ ∑ h ∈ Ioc a C, C / h := by
  have hzero : ∀ h ∈ Ioc a n, h ∉ Ioc a n ∩ Ioc a C → C / h = 0 := by
    intro h hh hnot
    refine Nat.div_eq_of_lt ?_
    by_contra hle
    refine hnot (mem_inter.mpr ⟨hh, mem_Ioc.mpr ⟨(mem_Ioc.mp hh).1, ?_⟩⟩)
    exact not_lt.mp hle
  calc ∑ h ∈ Ioc a n, C / h
      = ∑ h ∈ Ioc a n ∩ Ioc a C, C / h := (sum_subset inter_subset_left hzero).symm
    _ ≤ ∑ h ∈ Ioc a C, C / h := sum_le_sum_of_subset inter_subset_right

/-- **The sum from a point on.** -/
theorem sum_Ioc_div_le {C a m : ℕ} (ha : 0 < a) (hC : C ≤ a * 2 ^ m) (n : ℕ) :
    10 * ∑ h ∈ Ioc a n, C / h ≤ 7 * m * C := by
  refine (Nat.mul_le_mul_left 10 (sum_Ioc_div_le_sum_Ioc_div C a n)).trans ?_
  rcases le_total C a with hle | hle
  · rw [Ioc_eq_empty_of_le hle]
    simp
  · have hapos : (0 : ℝ) < a := by exact_mod_cast ha
    have hCpos : (0 : ℝ) < C := by exact_mod_cast ha.trans_le hle
    -- the logarithm of the ratio is at most that of the power of two
    have hlog : log C - log a ≤ m * log 2 := by
      have hratio : log C ≤ log (a * 2 ^ m) :=
        Real.log_le_log hCpos (by exact_mod_cast hC)
      rw [Real.log_mul hapos.ne' (by positivity), Real.log_pow] at hratio
      linarith
    have hlog2 : log 2 ≤ 0.7 := Real.log_two_lt_d9.le.trans (by norm_num)
    have hreal : ((10 * ∑ h ∈ Ioc a C, C / h : ℕ) : ℝ) ≤ ((7 * m * C : ℕ) : ℝ) := by
      push_cast
      have hsum := sum_Ioc_div_le_log C ha hle
      push_cast at hsum
      calc 10 * ∑ h ∈ Ioc a C, ((C / h : ℕ) : ℝ)
          ≤ 10 * (C * (log C - log a)) := by gcongr
        _ ≤ 10 * (C * (m * 0.7)) := by
            gcongr
            exact hlog.trans (mul_le_mul_of_nonneg_left hlog2 (Nat.cast_nonneg m))
        _ = 7 * m * C := by ring
    exact_mod_cast hreal

end Hyperbola
