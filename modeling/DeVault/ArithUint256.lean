import Mathlib

/-!
# 256-bit numbers and their compact form (`arith_uint256.cpp`)

An `arith_uint256` is written as a natural number below `2 ^ 256`; where an operation of the source
can leave that range, the model reduces it explicitly.

The field `nBits` of a header holds a target in a floating-point format: the highest byte is a size
in bytes, the lower 23 bits are the three leading bytes, and the bit between is a sign. `setCompact`
decodes, and reports a sign and an overflow; `getCompact` encodes and rounds down.
-/

namespace DeVault

open Nat

variable {v : Nat}

namespace ArithUint256

/-- `bits`: the position of the highest bit, plus one. -/
def bits (v : Nat) : Nat := if v = 0 then 0 else v.log2 + 1

/-- `SetCompact`: the number, `*pfNegative` and `*pfOverflow`. -/
def setCompact (nCompact : Nat) : Nat × Bool × Bool :=
  let nSize := nCompact >>> 24
  let nWord := nCompact &&& 0x007fffff
  let nWord := if nSize ≤ 3 then nWord >>> (8 * (3 - nSize)) else nWord
  let value := if nSize ≤ 3 then nWord else (nWord <<< (8 * (nSize - 3))) % 2 ^ 256
  let fNegative := nWord ≠ 0 && nCompact &&& 0x00800000 ≠ 0
  let fOverflow := nWord ≠ 0 &&
    (nSize > 34 || (nWord > 0xff && nSize > 33) || (nWord > 0xffff && nSize > 32))
  (value, fNegative, fOverflow)

/-- `GetCompact`, of a number without sign. Its assertions hold (`BaseUint.getCompact_eq`). -/
def getCompact (v : Nat) : Nat :=
  let nSize := (bits v + 7) / 8
  let nCompact :=
    if nSize ≤ 3 then ((v % 2 ^ 64) <<< (8 * (3 - nSize))) % 2 ^ 32
    else (v >>> (8 * (nSize - 3))) % 2 ^ 64 % 2 ^ 32
  -- the bit of the sign has to stay clear
  if nCompact &&& 0x00800000 ≠ 0 then (nCompact >>> 8) ||| ((nSize + 1) <<< 24)
  else nCompact ||| (nSize <<< 24)

/-! ### The size of a number -/

/-- The number of bytes that a number takes. -/
def byteSize (v : Nat) : Nat := (bits v + 7) / 8

theorem byteSize_of_pos (h : v ≠ 0) : byteSize v = v.log2 / 8 + 1 := by
  rw [byteSize, bits, if_neg h]
  omega

theorem lt_pow_byteSize (v : Nat) : v < 256 ^ byteSize v := by
  rcases Nat.eq_zero_or_pos v with rfl | hv
  · exact Nat.one_pos
  · rw [byteSize_of_pos hv.ne', show 256 = 2 ^ 8 from rfl, ← Nat.pow_mul]
    calc v < 2 ^ (v.log2 + 1) := lt_log2_self
      _ ≤ 2 ^ (8 * (v.log2 / 8 + 1)) := Nat.pow_le_pow_right (by norm_num) (by omega)

theorem pow_byteSize_le (h : v ≠ 0) : 256 ^ (byteSize v - 1) ≤ v := by
  rw [byteSize_of_pos h, Nat.add_sub_cancel, show 256 = 2 ^ 8 from rfl, ← Nat.pow_mul]
  calc 2 ^ (8 * (v.log2 / 8)) ≤ 2 ^ v.log2 := Nat.pow_le_pow_right (by norm_num) (by omega)
    _ ≤ v := log2_self_le h

theorem bits_le (h : v < 2 ^ 256) : bits v ≤ 256 := by
  unfold bits
  split
  · exact Nat.zero_le _
  next hv => exact (log2_lt hv).mpr h

theorem byteSize_le (h : v < 2 ^ 256) : byteSize v ≤ 32 := by
  have := bits_le h
  unfold byteSize
  omega

/-! ### Size and mantissa -/

/-- The three leading bytes of a number. -/
def leading (v : Nat) : Nat :=
  if byteSize v ≤ 3 then v * 256 ^ (3 - byteSize v) else v / 256 ^ (byteSize v - 3)

theorem leading_lt (v : Nat) : leading v < 2 ^ 24 := by
  have hlt := lt_pow_byteSize v
  unfold leading
  split
  next h =>
    calc v * 256 ^ (3 - byteSize v) < 256 ^ byteSize v * 256 ^ (3 - byteSize v) :=
          Nat.mul_lt_mul_of_pos_right hlt (by positivity)
      _ = 2 ^ 24 := by
        rw [← Nat.pow_add, Nat.add_sub_cancel' h]
        norm_num
  next h =>
    rw [Nat.div_lt_iff_lt_mul (by positivity)]
    calc v < 256 ^ byteSize v := hlt
      _ = 2 ^ 24 * 256 ^ (byteSize v - 3) := by
        rw [show (2 : Nat) ^ 24 = 256 ^ 3 from rfl, ← Nat.pow_add]
        congr 1
        omega

theorem and_two_pow_ne_zero_iff {m i : Nat} (h : m < 2 ^ (i + 1)) :
    m &&& 2 ^ i ≠ 0 ↔ 2 ^ i ≤ m := by
  rw [and_two_pow, testBit_eq_decide_div_mod_eq]
  have hpos := Nat.two_pow_pos i
  rw [pow_succ] at h
  by_cases hm : 2 ^ i ≤ m
  · have hdiv : m / 2 ^ i = 1 := Nat.div_eq_of_lt_le (by omega) (by omega)
    simp [hdiv, hm]
  · simp [div_eq_of_lt (not_le.mp hm), hm]

/-- The word that `GetCompact` starts from has the leading bytes. -/
theorem compactWord_eq (v : Nat) :
    (if byteSize v ≤ 3 then ((v % 2 ^ 64) <<< (8 * (3 - byteSize v))) % 2 ^ 32
      else (v >>> (8 * (byteSize v - 3))) % 2 ^ 64 % 2 ^ 32) = leading v := by
  have hlead := leading_lt v
  have h256 : ∀ k, 2 ^ (8 * k) = 256 ^ k := fun k => by rw [Nat.pow_mul]
  unfold leading at hlead ⊢
  split
  next hsize =>
    rw [if_pos hsize] at hlead
    have hlt : v < 2 ^ 64 := by
      calc v ≤ v * 256 ^ (3 - byteSize v) := Nat.le_mul_of_pos_right v (by positivity)
        _ < 2 ^ 24 := hlead
        _ ≤ 2 ^ 64 := by norm_num
    rw [mod_eq_of_lt hlt, shiftLeft_eq, h256]
    exact mod_eq_of_lt (hlead.trans (by norm_num))
  next hsize =>
    rw [if_neg hsize] at hlead
    rw [shiftRight_eq_div_pow, h256, mod_eq_of_lt (hlead.trans (by norm_num)),
      mod_eq_of_lt (hlead.trans (by norm_num))]

/-- `GetCompact`, from the leading bytes. -/
theorem getCompact_eq_ite (v : Nat) :
    getCompact v = if 2 ^ 23 ≤ leading v then (leading v >>> 8) ||| ((byteSize v + 1) <<< 24)
      else leading v ||| (byteSize v <<< 24) := by
  have hbit : leading v &&& 0x00800000 ≠ 0 ↔ 2 ^ 23 ≤ leading v :=
    and_two_pow_ne_zero_iff (leading_lt v)
  unfold getCompact
  simp only
  rw [show (bits v + 7) / 8 = byteSize v from rfl, compactWord_eq]
  simp only [hbit]

/-- **What is encoded**: the mantissa has 23 bits, and one byte is dropped if it needs 24. -/
theorem getCompact_eq_parts (v : Nat) :
    getCompact v = if 2 ^ 23 ≤ leading v then (byteSize v + 1) * 2 ^ 24 + leading v / 256
      else byteSize v * 2 ^ 24 + leading v := by
  have hlead := leading_lt v
  have hor : ∀ (size m : Nat), m < 2 ^ 24 → m ||| (size <<< 24) = size * 2 ^ 24 + m := by
    intro size m hm
    rw [lor_comm, ← shiftLeft_add_eq_or_of_lt hm, shiftLeft_eq]
  rw [getCompact_eq_ite]
  split
  · rw [shiftRight_eq_div_pow]
    exact hor _ _ ((Nat.div_le_self _ _).trans_lt hlead)
  · exact hor _ _ hlead

/-- **What is decoded** from a size and a mantissa of 23 bits, if they make a number of 256 bits. -/
theorem setCompact_parts {size m : Nat} (hm : m < 2 ^ 23)
    (hfit : size ≤ 32 ∨ size = 33 ∧ m ≤ 0xffff) :
    setCompact (size * 2 ^ 24 + m) =
      (if size ≤ 3 then m / 256 ^ (3 - size) else m * 256 ^ (size - 3) % 2 ^ 256,
        false, false) := by
  have h256 : ∀ k, 2 ^ (8 * k) = 256 ^ k := fun k => by rw [Nat.pow_mul]
  have hsize : (size * 2 ^ 24 + m) >>> 24 = size := by
    rw [shiftRight_eq_div_pow]
    omega
  have hword : (size * 2 ^ 24 + m) &&& 0x007fffff = m := by
    rw [show 0x007fffff = 2 ^ 23 - 1 from rfl, and_two_pow_sub_one_eq_mod]
    omega
  have hsign : (size * 2 ^ 24 + m) &&& 0x00800000 = 0 := by
    rw [show 0x00800000 = 2 ^ 23 from rfl, and_two_pow, testBit_eq_decide_div_mod_eq]
    have hdiv : (size * 2 ^ 24 + m) / 2 ^ 23 % 2 = 0 := by omega
    rw [hdiv]
    rfl
  unfold setCompact
  simp only [hsize, hword, hsign, ne_eq, not_true_eq_false, decide_false, Bool.and_false,
    shiftRight_eq_div_pow, shiftLeft_eq, h256]
  have h34 : ¬size > 34 := by omega
  have h33 : ¬size > 33 := by omega
  by_cases h3 : size ≤ 3
  · have h32 : ¬size > 32 := by omega
    simp [h3, h32, h33, h34]
  · simp [h3, h33, h34]
    omega

theorem leading_of_le (h : 3 ≤ byteSize v) : leading v = v / 256 ^ (byteSize v - 3) := by
  unfold leading
  split
  next h3 => simp [le_antisymm h3 h]
  · rfl

/-- The bit of the sign is the highest bit of the highest byte. -/
theorem le_leading_iff (v : Nat) : 2 ^ 23 ≤ leading v ↔ 0x80 ≤ v / 256 ^ (byteSize v - 1) := by
  have hlt := lt_pow_byteSize v
  rw [Nat.le_div_iff_mul_le (by positivity), leading]
  split
  next h3 =>
    generalize byteSize v = size at hlt h3
    interval_cases size <;> omega
  next h3 =>
    obtain ⟨k, hk⟩ := Nat.exists_eq_add_of_lt (not_le.mp h3)
    rw [Nat.le_div_iff_mul_le (by positivity), show byteSize v - 1 = byteSize v - 3 + 2 by omega,
      pow_add]
    omega

/-- The low bytes that the compact form drops: all but three, and one more for the sign. -/
def droppedBytes (v : Nat) : Nat :=
  byteSize v - if 0x80 ≤ v / 256 ^ (byteSize v - 1) then 2 else 3

/-- The number without the bytes that the compact form drops. -/
def truncated (v : Nat) : Nat := v / 256 ^ droppedBytes v * 256 ^ droppedBytes v

theorem truncated_le (v : Nat) : truncated v ≤ v := div_mul_le_self v _

/-- A number that is not zero keeps its highest byte. -/
theorem pow_byteSize_le_truncated (h : v ≠ 0) : 256 ^ (byteSize v - 1) ≤ truncated v := by
  have hsplit : byteSize v - 1 = byteSize v - 1 - droppedBytes v + droppedBytes v := by
    rw [Nat.sub_add_cancel]
    unfold droppedBytes
    split <;> omega
  rw [truncated, hsplit, pow_add]
  refine Nat.mul_le_mul_right _ ((Nat.le_div_iff_mul_le (by positivity)).mpr ?_)
  rw [← pow_add, ← hsplit]
  exact pow_byteSize_le h

/-- **Encoding rounds down.** The decoded number is the number without its low bytes. -/
theorem setCompact_getCompact (hv : v < 2 ^ 256) :
    setCompact (getCompact v) = (truncated v, false, false) := by
  have hlead := leading_lt v
  have hsize := byteSize_le hv
  have hlt := (truncated_le v).trans_lt hv
  rw [getCompact_eq_parts, truncated, droppedBytes] at *
  simp only [← le_leading_iff] at hlt ⊢
  by_cases hsign : 2 ^ 23 ≤ leading v
  · -- the mantissa loses its last byte
    rw [if_pos hsign] at hlt
    rw [if_pos hsign, if_pos hsign, setCompact_parts (by omega) (by omega)]
    refine Prod.ext ?_ rfl
    by_cases h3 : byteSize v + 1 ≤ 3
    · have hsmall : byteSize v - 2 = 0 := by omega
      simp only [h3, if_true, hsmall, pow_zero, Nat.div_one, mul_one]
      rw [leading, if_pos (by omega), Nat.div_div_eq_div_mul, ← Nat.pow_succ',
        show (3 - (byteSize v + 1)).succ = 3 - byteSize v by omega]
      exact Nat.mul_div_cancel v (by positivity)
    · simp only [h3, if_false]
      rw [leading_of_le (by omega), Nat.div_div_eq_div_mul, ← Nat.pow_succ,
        show (byteSize v - 3).succ = byteSize v - 2 by omega,
        show byteSize v + 1 - 3 = byteSize v - 2 by omega, mod_eq_of_lt hlt]
  · rw [if_neg hsign] at hlt
    rw [if_neg hsign, if_neg hsign, setCompact_parts (by omega) (by omega)]
    refine Prod.ext ?_ rfl
    by_cases h3 : byteSize v ≤ 3
    · have hsmall : byteSize v - 3 = 0 := by omega
      simp only [h3, if_true, hsmall, pow_zero, Nat.div_one, mul_one]
      rw [leading, if_pos h3]
      exact Nat.mul_div_cancel v (by positivity)
    · simp only [h3, if_false]
      rw [leading, if_neg h3, mod_eq_of_lt hlt]

/-- The target of a genesis block: four bytes are dropped, the rest is zero anyway. -/
example : setCompact 0x1d00ffff = (0xffff * 256 ^ 26, false, false) := by decide

example : setCompact (getCompact (2 ^ 224 - 1)) = (0xffff * 256 ^ 26, false, false) := by
  decide +kernel

end ArithUint256

end DeVault
