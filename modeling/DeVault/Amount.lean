import Mathlib

/-!
# Amounts and spock quantisation (`amount.h`)

An `Amount` of the source is a signed 64-bit number of satoshi. It is written `Int` here; C++ leaves
signed overflow undefined, so the additions of the money accounting go through `checkedAdd`, which
reports a result outside the 64-bit range as `Fault.overflow`.

The unit of account of the UTXO set is the spock, `spockSats = 100000` satoshi. `spockQuantize`
rounds an amount up to a whole number of spocks.
-/

namespace DeVault

/-- How a procedure can fail to return a value. `dos` and `invalid` are `CValidationState::DoS` and
`CValidationState::Invalid`, with the reject reason. The others leave the function abnormally: two
kinds of exception, a failed `assert`, signed overflow, and an error of the system underneath
(`AbortNode`). -/
inductive Fault where
  | dos (level : Nat) (reason : String)
  | invalid (reason : String)
  | runtimeError (what : String)
  | logicError (what : String)
  | assertion (expr : String)
  | overflow
  | abortNode (reason : String)
  deriving DecidableEq, Repr

/-- `SATOSHI`, in satoshi. -/
def satoshi : Int := 1

/-- `COIN`, a hundred million satoshi. -/
def coin : Int := 100000000 * satoshi

/-- `SPOCK_SATS`, the satoshi in a spock (0.001 DVT). -/
def spockSats : Int := 100000

/-- `MAX_MONEY`, the sanity cap on any amount: two billion coins. -/
def maxMoney : Int := 2000000000 * coin

/-- `MoneyRange`. -/
def moneyRange (nValue : Int) : Bool := 0 ≤ nValue && nValue ≤ maxMoney

variable (a : Int)

/-- `SpockQuantize`: round up to a whole number of spocks. C++ division and
remainder truncate towards zero, hence `tdiv` and `tmod`. -/
def spockQuantize : Int :=
  let am := a.tdiv satoshi
  let residual := am.tmod spockSats
  let q := am - residual
  let q := if residual > 0 then q + spockSats else q
  q * satoshi

/-- The values of an `int64_t`. -/
def int64Range (x : Int) : Bool := -2 ^ 63 ≤ x && x < 2 ^ 63

/-- `a + b` on amounts, where a result outside `int64_t` is undefined. -/
def checkedAdd (a b : Int) : Except Fault Int :=
  if int64Range (a + b) then .ok (a + b) else .error .overflow

/-- The value two's complement arithmetic gives a product in `int64_t`. -/
def wrap64 (x : Int) : Int := x.bmod (2 ^ 64)

theorem wrap64_of_range {x : Int} (h1 : -2 ^ 63 ≤ x) (h2 : x < 2 ^ 63) : wrap64 x = x :=
  Int.bmod_eq_of_le (by norm_num; omega) (by norm_num; omega)

/-- An amount that is a whole number of spocks. -/
def SpockAligned : Prop := a.tmod spockSats = 0

instance (a : Int) : Decidable (SpockAligned a) :=
  inferInstanceAs (Decidable (a.tmod spockSats = 0))

/-! ### Quantisation -/

/-- The source's arithmetic with the units folded away. -/
theorem spockQuantize_eq :
    spockQuantize a =
      if a.tmod 100000 > 0 then a - a.tmod 100000 + 100000 else a - a.tmod 100000 := by
  simp [spockQuantize, satoshi, spockSats, Int.tdiv_one]

/-- Quantisation fixes exactly the aligned amounts. -/
theorem spockQuantize_eq_self_iff : spockQuantize a = a ↔ SpockAligned a := by
  rw [spockQuantize_eq, SpockAligned, spockSats]
  have h : a.tmod 100000 < 100000 := Int.tmod_lt_of_pos a (by norm_num)
  split <;> omega

theorem SpockAligned.spockQuantize_eq {a : Int} (h : SpockAligned a) : spockQuantize a = a :=
  (spockQuantize_eq_self_iff a).mpr h

/-- Whatever is quantised is a whole number of spocks. -/
theorem spockAligned_spockQuantize : SpockAligned (spockQuantize a) := by
  rw [spockQuantize_eq, SpockAligned, spockSats]
  have hd : (100000 : Int) ∣ a - a.tmod 100000 := Int.dvd_self_sub_tmod
  split
  · exact Int.tmod_eq_zero_of_dvd (dvd_add hd (dvd_refl _))
  · exact Int.tmod_eq_zero_of_dvd hd

/-- Quantisation rounds up. -/
theorem le_spockQuantize : a ≤ spockQuantize a := by
  rw [spockQuantize_eq]
  have h : a.tmod 100000 < 100000 := Int.tmod_lt_of_pos a (by norm_num)
  split <;> omega

/-- Quantisation rounds a non-negative amount up by less than a spock. -/
theorem spockQuantize_lt {a : Int} (ha : 0 ≤ a) : spockQuantize a < a + spockSats := by
  rw [spockQuantize_eq, spockSats]
  have h : 0 ≤ a.tmod 100000 := Int.tmod_nonneg _ ha
  split <;> omega

theorem spockQuantize_nonneg {a : Int} (ha : 0 ≤ a) : 0 ≤ spockQuantize a :=
  ha.trans (le_spockQuantize a)

theorem moneyRange_iff {a : Int} : moneyRange a = true ↔ 0 ≤ a ∧ a ≤ maxMoney := by
  simp [moneyRange]

theorem moneyRange_zero : moneyRange 0 = true := by decide

/-- The cap itself is aligned, so rounding up cannot pass it. -/
theorem spockQuantize_le_maxMoney {a : Int} (ha : 0 ≤ a) (h : a ≤ maxMoney) :
    spockQuantize a ≤ maxMoney := by
  have h1 : (100000 : Int) ∣ spockQuantize a :=
    Int.dvd_of_tmod_eq_zero (spockAligned_spockQuantize a)
  have h2 := spockQuantize_lt ha
  simp only [spockSats, maxMoney, coin, satoshi] at h h2 ⊢
  omega

/-- An amount of money stays one. -/
theorem moneyRange_spockQuantize {a : Int} (h : moneyRange a = true) :
    moneyRange (spockQuantize a) = true := by
  rw [moneyRange_iff] at h ⊢
  exact ⟨spockQuantize_nonneg h.1, spockQuantize_le_maxMoney h.1 h.2⟩

/-! ### Checked addition -/

theorem int64Range_iff {x : Int} : int64Range x = true ↔ -2 ^ 63 ≤ x ∧ x < 2 ^ 63 := by
  simp [int64Range]

theorem checkedAdd_eq_ok {a b c : Int} :
    checkedAdd a b = .ok c ↔ int64Range (a + b) = true ∧ c = a + b := by
  unfold checkedAdd
  split
  next h => simp [h, eq_comm]
  next h => simp [h]

/-- Two amounts of moderate size add without overflow. The bound leaves room
for the four terms of the block reward. -/
theorem checkedAdd_of_le {a b : Int} (ha : 0 ≤ a) (hb : 0 ≤ b)
    (h : a + b ≤ 8 * maxMoney) : checkedAdd a b = .ok (a + b) := by
  refine checkedAdd_eq_ok.mpr ⟨?_, rfl⟩
  rw [int64Range_iff]
  simp only [maxMoney, coin, satoshi] at h
  omega

end DeVault
