import DeVault.Lib.Bytes
import Mathlib.Data.Nat.Digits.Lemmas

/-!
# Integers as byte strings with a sign bit

An integer of any size as a string of bytes: the magnitude in little-endian order, and the sign in
the top bit of the last byte. Many strings stand for one integer, since zero bytes may be put before
the sign, and zero has two signs. The strings without superfluous bytes (`Minimal`) are a normal
form.

A codec, however it is written, is therefore known once its values are: a reader is compared with
`value`, a writer with `encode`, and something that normalises strings with their composition.
-/

namespace SignMagnitude

open List Bytes
open UInt8 (ofNat toNat toNat_inj)

/-! ### Bits of a byte -/

theorem signBit_table : ∀ b : BitVec 8, (b &&& 0x80#8 ≠ 0#8 ↔ 128 ≤ b.toNat) ∧
    (b &&& 0x7f#8).toNat = b.toNat % 128 ∧ (b ||| 0x80#8).toNat = b.toNat % 128 + 128 := by
  decide +kernel

variable (b : UInt8)

theorem and_signBit_ne_zero_iff : b &&& 0x80 ≠ 0 ↔ 128 ≤ b.toNat := by
  rw [ne_eq, ← UInt8.toBitVec_inj]
  exact (signBit_table b.toBitVec).1

theorem toNat_and_mask : (b &&& 0x7f).toNat = b.toNat % 128 :=
  (signBit_table b.toBitVec).2.1

theorem toNat_or_signBit : (b ||| 0x80).toNat = b.toNat % 128 + 128 :=
  (signBit_table b.toBitVec).2.2

theorem and_mask_eq_zero_iff : b &&& 0x7f = 0 ↔ b.toNat % 128 = 0 := by
  rw [← toNat_and_mask, ← toNat_inj]
  rfl

variable (neg : Bool)

/-- The sign byte: no magnitude, only a sign. -/
def signByte : UInt8 := if neg then 0x80 else 0

theorem eq_signByte {b : UInt8} (h : b.toNat % 128 = 0) :
    b = signByte (decide (128 ≤ b.toNat)) := by
  have hlt := b.toNat_lt
  by_cases hneg : 128 ≤ b.toNat
  · rw [decide_eq_true hneg, ← toNat_inj]
    show b.toNat = 128
    omega
  · rw [decide_eq_false hneg, ← toNat_inj]
    show b.toNat = 0
    omega

/-! ### Natural numbers without superfluous bytes -/

variable (n : Nat)

/-- The bytes of a number up to the highest one that is not zero. -/
def bytesOf : List UInt8 := (Nat.digits 256 n).map ofNat

theorem ofLe_eq_ofDigits (bs : List UInt8) : ofLe bs = Nat.ofDigits 256 (bs.map toNat) := by
  induction bs with
  | nil => rfl
  | cons b bs ih =>
    rw [ofLe, map_cons, Nat.ofDigits_cons, ih]

theorem map_toNat_bytesOf : (bytesOf n).map toNat = Nat.digits 256 n := by
  rw [bytesOf, map_map]
  conv_rhs => rw [← map_id (Nat.digits 256 n)]
  refine map_congr_left fun d hd => ?_
  show (ofNat d).toNat = d
  rw [UInt8.toNat_ofNat']
  exact Nat.mod_eq_of_lt (Nat.digits_lt_base (by norm_num) hd)

theorem ofLe_bytesOf : ofLe (bytesOf n) = n := by
  rw [ofLe_eq_ofDigits, map_toNat_bytesOf, Nat.ofDigits_digits]

theorem bytesOf_zero : bytesOf 0 = [] := by
  rw [bytesOf, Nat.digits_zero, map_nil]

theorem bytesOf_eq_nil_iff {n : Nat} : bytesOf n = [] ↔ n = 0 := by
  rw [bytesOf, map_eq_nil_iff, Nat.digits_eq_nil_iff_eq_zero]

/-- **Bytes whose last one is not zero are determined by their number.** -/
theorem bytesOf_ofLe_append {l : List UInt8} {b : UInt8} (hb : b ≠ 0) :
    bytesOf (ofLe (l ++ [b])) = l ++ [b] := by
  have hdigits := Nat.digits_ofDigits 256 (by norm_num) ((l ++ [b]).map toNat)
    (forall_mem_map.mpr fun c _ => c.toNat_lt)
    (by
      intro _
      simp only [map_append, map_cons, map_nil, getLast_concat]
      exact fun h => hb (toNat_inj.mp h))
  rw [bytesOf, ofLe_eq_ofDigits, hdigits, map_map]
  conv_rhs => rw [← map_id (l ++ [b])]
  exact map_congr_left fun c _ => UInt8.ofNat_toNat

variable (l : List UInt8)

/-- A zero at the top is not written. -/
theorem bytesOf_ofLe_concat_zero : bytesOf (ofLe (l ++ [0])) = bytesOf (ofLe l) := by
  rw [ofLe_append]
  rfl

/-- The last byte is not zero. -/
theorem exists_bytesOf {n : Nat} (hn : n ≠ 0) : ∃ l b, bytesOf n = l ++ [b] ∧ b ≠ 0 := by
  rcases eq_nil_or_concat (bytesOf n) with hnil | ⟨l, b, hconcat⟩
  · exact absurd (bytesOf_eq_nil_iff.mp hnil) hn
  · rw [concat_eq_append] at hconcat
    refine ⟨l, b, hconcat, ?_⟩
    rintro rfl
    -- a shorter string would have the same number
    have hshort := bytesOf_ofLe_concat_zero l
    rw [← hconcat, ofLe_bytesOf, hconcat] at hshort
    have hlen := congrArg List.length hshort
    have hle : (bytesOf (ofLe l)).length ≤ l.length := by
      rw [bytesOf, length_map]
      exact (Nat.digits_length_le_iff (by norm_num) _).mpr (ofLe_lt l)
    rw [length_append, length_singleton] at hlen
    omega

/-! ### Strings with a sign -/

variable (v : List UInt8)

/-- The top byte, zero for the empty string. -/
def top : UInt8 := v.getLast?.getD 0

/-- The sign bit. -/
def negative : Bool := decide (128 ≤ (top v).toNat)

/-- The number without the sign bit. -/
def magnitude : Nat :=
  ofLe v.dropLast + 256 ^ (v.length - 1) * ((top v).toNat % 128)

/-- The integer that a string stands for. -/
def value : Int := if negative v then -(magnitude v : Int) else magnitude v

/-- A string has no superfluous byte: the last byte holds a part of the magnitude, or the byte
before it needs its top bit. -/
def Minimal : Prop :=
  v = [] ∨ (top v).toNat % 128 ≠ 0 ∨ 128 ≤ (top v.dropLast).toNat

instance (v : List UInt8) : Decidable (Minimal v) := by
  unfold Minimal
  infer_instance

/-- A sign is put on a magnitude, in a byte of its own if the top bit is taken. -/
def withSign (bs : List UInt8) : List UInt8 :=
  if bs = [] then []
  else if top bs &&& 0x80 ≠ 0 then bs ++ [signByte neg]
  else if neg then bs.dropLast ++ [top bs ||| 0x80]
  else bs

variable (z : Int)

/-- The minimal string of an integer. -/
def encode : List UInt8 := withSign (decide (z < 0)) (bytesOf z.natAbs)

section Concat

variable (l : List UInt8) (b : UInt8)

@[simp] theorem top_concat : top (l ++ [b]) = b := by
  rw [top, List.getLast?_concat, Option.getD_some]

@[simp] theorem negative_concat : negative (l ++ [b]) = decide (128 ≤ b.toNat) := by
  rw [negative, top_concat]

@[simp] theorem magnitude_concat :
    magnitude (l ++ [b]) = ofLe l + 256 ^ l.length * (b.toNat % 128) := by
  rw [magnitude, top_concat, dropLast_concat, length_append, length_singleton, Nat.add_sub_cancel]

theorem minimal_concat : Minimal (l ++ [b]) ↔ b.toNat % 128 ≠ 0 ∨ 128 ≤ (top l).toNat := by
  rw [Minimal, top_concat, dropLast_concat]
  simp

theorem withSign_concat : withSign neg (l ++ [b]) = if 128 ≤ b.toNat then l ++ [b] ++ [signByte neg]
    else if neg then l ++ [b ||| 0x80] else l ++ [b] := by
  rw [withSign, if_neg (by simp), top_concat, dropLast_concat]
  simp only [and_signBit_ne_zero_iff]

end Concat

theorem withSign_nil : withSign neg [] = [] := rfl

theorem value_nil : value [] = 0 := by decide

theorem encode_zero : encode 0 = [] := by
  rw [encode, Int.natAbs_zero, bytesOf_zero, withSign_nil]

theorem encode_signed {neg : Bool} {n : Nat} :
    encode (if neg then -(n : Int) else n) = withSign neg (bytesOf n) := by
  by_cases hn : n = 0
  · subst hn
    rw [bytesOf_zero, withSign_nil]
    cases neg <;> exact encode_zero
  · cases neg with
    | false =>
      rw [if_neg (by decide), encode, Int.natAbs_natCast, decide_eq_false (by omega)]
    | true =>
      rw [if_pos rfl, encode, Int.natAbs_neg, Int.natAbs_natCast, decide_eq_true (by omega)]

/-! ### The normal form -/

/-- The sign is in the top byte, or in one more. -/
theorem value_withSign {l : List UInt8} {b : UInt8} (hb : b ≠ 0) :
    value (withSign neg (l ++ [b])) = (if neg then -(ofLe (l ++ [b]) : Int) else ofLe (l ++ [b])) ∧
      Minimal (withSign neg (l ++ [b])) := by
  have hpos : b.toNat ≠ 0 := fun h => hb (toNat_inj.mp h)
  rw [withSign_concat]
  split
  next hhigh =>
    rw [minimal_concat, top_concat, value, negative_concat, magnitude_concat]
    cases neg
    · exact ⟨by simp [signByte], .inr hhigh⟩
    · exact ⟨by simp [signByte], .inr hhigh⟩
  next hlow =>
    have hmod : b.toNat % 128 = b.toNat := Nat.mod_eq_of_lt (by omega)
    have hone : ofLe [b] = b.toNat := by simp [ofLe]
    cases neg with
    | false =>
      rw [if_neg (by decide), minimal_concat, value, negative_concat, magnitude_concat, hmod,
        decide_eq_false hlow, if_neg (by decide), ofLe_append, hone]
      exact ⟨rfl, .inl hpos⟩
    | true =>
      rw [if_pos rfl, minimal_concat, value, negative_concat,
        magnitude_concat, toNat_or_signBit, hmod,
        decide_eq_true (by omega), if_pos rfl, ofLe_append, hone,
        show (b.toNat + 128) % 128 = b.toNat by omega]
      exact ⟨rfl, .inl hpos⟩

/-- Every integer has a string, and a minimal one. -/
theorem value_encode : value (encode z) = z ∧ Minimal (encode z) := by
  by_cases hz : z = 0
  · subst hz
    rw [encode_zero]
    exact ⟨value_nil, .inl rfl⟩
  · obtain ⟨l, b, hbytes, hb⟩ := exists_bytesOf (Int.natAbs_ne_zero.mpr hz)
    have h := value_withSign (decide (z < 0)) (l := l) hb
    rw [← hbytes, ofLe_bytesOf] at h
    refine ⟨h.1.trans ?_, h.2⟩
    by_cases hneg : z < 0
    · rw [decide_eq_true hneg, if_pos rfl]
      omega
    · rw [decide_eq_false hneg, if_neg (by decide)]
      omega

/-- Every integer has a minimal string. -/
theorem minimal_encode : Minimal (encode z) := (value_encode z).2

/-- **A minimal string is determined by its integer.** -/
theorem encode_value {v : List UInt8} (h : Minimal v) : encode (value v) = v := by
  rcases eq_nil_or_concat v with rfl | ⟨l, b, hv⟩
  · rw [value_nil, encode_zero]
  · rw [concat_eq_append] at hv
    subst hv
    rw [value, encode_signed, negative_concat, magnitude_concat]
    have hlt := b.toNat_lt
    by_cases hb : b.toNat % 128 = 0
    · -- the last byte is only a sign, so the byte before it is needed
      rcases (minimal_concat l b).mp h with hne | hhigh
      · exact absurd hb hne
      · rcases eq_nil_or_concat l with rfl | ⟨l', c, hl⟩
        · cases hhigh
        · rw [concat_eq_append] at hl
          subst hl
          rw [top_concat] at hhigh
          have hc : c ≠ 0 := by
            rintro rfl
            cases hhigh
          rw [hb, Nat.mul_zero, Nat.add_zero, bytesOf_ofLe_append hc, withSign_concat, if_pos hhigh,
            ← eq_signByte hb]
    · -- the last byte without its sign bit is the top of the magnitude
      have hmask : ofLe l + 256 ^ l.length * (b.toNat % 128) = ofLe (l ++ [b &&& 0x7f]) := by
        rw [ofLe_append, ofLe, ofLe, toNat_and_mask, Nat.mul_zero, Nat.add_zero]
      have hne : b &&& 0x7f ≠ 0 := fun h => hb ((and_mask_eq_zero_iff b).mp h)
      rw [hmask, bytesOf_ofLe_append hne, withSign_concat, toNat_and_mask, if_neg (by omega)]
      by_cases hneg : 128 ≤ b.toNat
      · rw [decide_eq_true hneg, if_pos rfl]
        congr 2
        rw [← toNat_inj, toNat_or_signBit, toNat_and_mask]
        omega
      · rw [decide_eq_false hneg, if_neg (by decide)]
        congr 2
        rw [← toNat_inj, toNat_and_mask]
        omega

/-- Minimal strings are those that `encode` writes. -/
theorem minimal_iff {v : List UInt8} : Minimal v ↔ encode (value v) = v :=
  ⟨encode_value, fun h => h ▸ minimal_encode (value v)⟩

/-! ### Sizes -/

/-- The sign bit is the top bit. -/
theorem ofLe_eq_magnitude (l : List UInt8) (b : UInt8) :
    ofLe (l ++ [b]) =
      (if 128 ≤ b.toNat then 2 ^ (8 * l.length + 7) else 0) + magnitude (l ++ [b]) := by
  have hpow : 2 ^ (8 * l.length + 7) = 256 ^ l.length * 128 := by
    rw [Nat.pow_add, Nat.pow_mul]
  have hlt := b.toNat_lt
  rw [ofLe_append, magnitude_concat, ofLe, ofLe, hpow, Nat.mul_zero, Nat.add_zero]
  split
  next h =>
    obtain ⟨r, hr⟩ : ∃ r, b.toNat = 128 + r := ⟨b.toNat - 128, by omega⟩
    rw [hr, show (128 + r) % 128 = r by omega]
    ring
  next h => rw [Nat.mod_eq_of_lt (by omega), Nat.zero_add]

theorem magnitude_lt (l : List UInt8) (b : UInt8) :
    magnitude (l ++ [b]) < 2 ^ (8 * l.length + 7) := by
  have hpow : 2 ^ (8 * l.length + 7) = 256 ^ l.length * 128 := by
    rw [Nat.pow_add, Nat.pow_mul]
  have hl := ofLe_lt l
  have hmod : b.toNat % 128 < 128 := Nat.mod_lt _ (by norm_num)
  rw [magnitude_concat, hpow]
  nlinarith

/-- Without the sign bit, the bytes make the magnitude. -/
theorem ofLe_clear (l : List UInt8) (b : UInt8) :
    ofLe (l ++ [b &&& 0x7f]) = magnitude (l ++ [b]) := by
  rw [ofLe_append, ofLe, ofLe, toNat_and_mask, Nat.mul_zero, Nat.add_zero, magnitude_concat]

theorem natAbs_value : (value v).natAbs = magnitude v := by
  unfold value
  split
  · rw [Int.natAbs_neg, Int.natAbs_natCast]
  · rw [Int.natAbs_natCast]

theorem natAbs_value_lt {bs : List UInt8} {k : Nat} (h : bs.length ≤ k + 1) :
    (value bs).natAbs < 2 ^ (8 * k + 7) := by
  rw [natAbs_value]
  rcases eq_nil_or_concat bs with rfl | ⟨l, b, rfl⟩
  · exact Nat.two_pow_pos _
  · rw [concat_eq_append] at h ⊢
    rw [length_append, length_singleton] at h
    exact (magnitude_lt l b).trans_le (Nat.pow_le_pow_right (by norm_num) (by omega))

/-- **How many bytes an integer needs.** One bit of the last byte is taken by the sign. -/
theorem length_encode_le_iff {z : Int} {k : Nat} :
    (encode z).length ≤ k + 1 ↔ z.natAbs < 2 ^ (8 * k + 7) := by
  constructor
  · intro h
    rw [← (value_encode z).1]
    exact natAbs_value_lt h
  · intro h
    by_cases hz : z = 0
    · rw [hz, encode_zero]
      exact Nat.zero_le _
    · obtain ⟨l, b, hbytes, hb⟩ := exists_bytesOf (Int.natAbs_ne_zero.mpr hz)
      have hsum : ofLe l + 256 ^ l.length * b.toNat = z.natAbs := by
        have := ofLe_bytesOf z.natAbs
        rwa [hbytes, ofLe_append, ofLe, ofLe, Nat.mul_zero, Nat.add_zero] at this
      have hpow : 256 ^ l.length = 2 ^ (8 * l.length) := by rw [Nat.pow_mul]
      have hpos : 0 < b.toNat := Nat.pos_of_ne_zero fun h => hb (toNat_inj.mp h)
      rw [encode, hbytes, withSign_concat]
      split
      next hhigh =>
        -- the top bit of the magnitude is one that the sign needs
        have hlow : 2 ^ (8 * l.length + 7) ≤ z.natAbs := by
          rw [Nat.pow_add, ← hpow]
          calc 256 ^ l.length * 2 ^ 7 ≤ 256 ^ l.length * b.toNat := Nat.mul_le_mul_left _ hhigh
            _ ≤ z.natAbs := by omega
        have := (Nat.pow_lt_pow_iff_right (by norm_num)).mp (hlow.trans_lt h)
        simp only [length_append, length_singleton]
        omega
      · have hlow : 2 ^ (8 * l.length) ≤ z.natAbs := by
          rw [← hpow]
          calc 256 ^ l.length ≤ 256 ^ l.length * b.toNat := Nat.le_mul_of_pos_right _ hpos
            _ ≤ z.natAbs := by omega
        have := (Nat.pow_lt_pow_iff_right (by norm_num)).mp (hlow.trans_lt h)
        split
        · simp only [length_append, length_singleton]
          omega
        · simp only [length_append, length_singleton]
          omega

end SignMagnitude
