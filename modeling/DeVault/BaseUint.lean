import DeVault.ArithUint256

/-!
# Arithmetic on limbs (`base_uint`, `arith_uint256.h` and `arith_uint256.cpp`)

A `base_uint<256>` is an array of eight limbs of 32 bits, the lowest first. Its operators are loops
over the limbs. Each loop is modelled on lists of limbs, and one lemma says what it does to the
value: addition, negation and shifts to the left are right modulo `2 ^ 256`, all else is exact.

Division shifts and subtracts. `value_divLoop` carries its invariant: before the turn for a bit, the
divisor is moved up by as many places, the rest is below twice this, and the quotient so far has no
lower bits.

`BaseUint.setCompact` and `BaseUint.getCompact` are the functions of the source; what they do is
said of the values in `ArithUint256` (`value_setCompact`, `getCompact_eq`).
-/

namespace DeVault

open Nat hiding pow_succ'
open List

namespace ArithUint256

/-! ### Limbs -/

/-- The number with the given limbs, lowest first. -/
def limbsValue (pn : List UInt32) : Nat := ofDigits (2 ^ 32) (pn.map UInt32.toNat)

@[simp] theorem limbsValue_cons (d : UInt32) (l : List UInt32) :
    limbsValue (d :: l) = d.toNat + 2 ^ 32 * limbsValue l := by
  simp [limbsValue, ofDigits_cons]

theorem limbs_lt (l : List UInt32) : ∀ d ∈ l.map UInt32.toNat, d < 2 ^ 32 :=
  forall_mem_map.mpr fun d _ => d.toNat_lt

theorem limbsValue_lt (l : List UInt32) : limbsValue l < (2 ^ 32) ^ l.length := by
  have h := ofDigits_lt_base_pow_length (by norm_num) (limbs_lt l)
  rwa [length_map] at h

/-- The loop of `operator+=`. -/
def addLimbs : UInt64 → List UInt32 → List UInt32 → List UInt32
  | carry, a :: as, b :: bs =>
    let n := carry + a.toUInt64 + b.toUInt64
    n.toUInt32 :: addLimbs (n >>> 32) as bs
  | _, as, _ => as

/-- The loop of `operator++`, which ends at the first limb that does not become zero. -/
def incLimbs : List UInt32 → List UInt32
  | [] => []
  | a :: as => if a + 1 = 0 then (a + 1) :: incLimbs as else (a + 1) :: as

/-- One row of `operator*=`: `x` times the limbs of `b` is added to the limbs of `a`, as far as
these go. -/
def mulRow (x : UInt32) : UInt64 → List UInt32 → List UInt32 → List UInt32
  | carry, a :: as, b :: bs =>
    let n := carry + a.toUInt64 + x.toUInt64 * b.toUInt64
    n.toUInt32 :: mulRow x (n >>> 32) as bs
  | _, as, _ => as

/-- The loop over the rows. Each starts one limb higher than the one before, and the limb below it
is not changed any more. -/
def mulRows : List UInt32 → List UInt32 → List UInt32 → List UInt32
  | x :: pn, as, b =>
    match mulRow x 0 as b with
    | [] => []
    | a :: as => a :: mulRows pn as b
  | [], as, _ => as

/-- The loop of `operator<<=` by less than a limb. `high` is what the limb before has left in this
one. -/
def shiftLeftLimbs (shift : Nat) : UInt32 → List UInt32 → List UInt32
  | _, [] => []
  | high, a :: as =>
    (high ||| a <<< shift.toUInt32) ::
      shiftLeftLimbs shift (if shift ≠ 0 then a >>> (32 - shift).toUInt32 else 0) as

/-- The loop of `operator>>=` by less than a limb. The next limb leaves its low bits in this one. -/
def shiftRightLimbs (shift : Nat) : List UInt32 → List UInt32
  | [] => []
  | a :: as =>
    (a >>> shift.toUInt32 |||
      (if shift ≠ 0 then as.headD 0 <<< (32 - shift).toUInt32 else 0)) :: shiftRightLimbs shift as

/-- The loop of `CompareTo`, which starts at the highest limb. -/
def compareLimbs : List UInt32 → List UInt32 → Ordering
  | a :: as, b :: bs =>
    (compareLimbs as bs).then (if a < b then .lt else if a > b then .gt else .eq)
  | _, _ => .eq

/-- The inner loop of `bits`, for a limb that is not zero. -/
def limbBits (d : UInt32) : Nat → Nat
  | 0 => 1
  | nbits + 1 =>
    if d &&& (1 <<< (nbits + 1).toUInt32) ≠ 0 then nbits + 2 else limbBits d nbits

/-- The outer loop of `bits`, which starts at the highest limb. -/
def bitsLimbs : List UInt32 → Nat
  | [] => 0
  | a :: as =>
    if bitsLimbs as ≠ 0 then 32 + bitsLimbs as else if a ≠ 0 then limbBits a 31 else 0

/-! ### What they do to the value -/

theorem length_mulRow (x : UInt32) (carry : UInt64) (as bs : List UInt32) :
    (mulRow x carry as bs).length = as.length := by
  fun_induction mulRow x carry as bs with
  | case1 carry a as b bs n ih => simp [ih]
  | case2 => rfl

/-- **One row.** No sum exceeds 64 bits, and what is carried out of the highest limb is lost. -/
theorem limbsValue_mulRow (x : UInt32) {carry : UInt64} {as bs : List UInt32}
    (hcarry : carry.toNat < 2 ^ 32) (hlen : as.length ≤ bs.length) :
    limbsValue (mulRow x carry as bs) ≡ carry.toNat + limbsValue as + x.toNat * limbsValue bs
      [MOD (2 ^ 32) ^ as.length] := by
  fun_induction mulRow x carry as bs with
  | case1 carry a as b bs n ih =>
    have hprod : x.toNat * b.toNat ≤ (2 ^ 32 - 1) * (2 ^ 32 - 1) :=
      Nat.mul_le_mul (Nat.le_pred_of_lt x.toNat_lt) (Nat.le_pred_of_lt b.toNat_lt)
    have ha := a.toNat_lt
    have hn : n.toNat = carry.toNat + a.toNat + x.toNat * b.toNat := by
      simp only [n, UInt64.toNat_add, UInt64.toNat_mul, UInt32.toNat_toUInt64]
      omega
    have hhigh : (n >>> 32).toNat = n.toNat / 2 ^ 32 := by
      rw [UInt64.toNat_shiftRight, shiftRight_eq_div_pow]
      rfl
    have hrest := ih (by omega) (by simpa using hlen)
    rw [hhigh] at hrest
    rw [limbsValue_cons, limbsValue_cons, limbsValue_cons, UInt64.toNat_toUInt32, length_cons,
      pow_succ']
    have hstep := (hrest.mul_left' (2 ^ 32)).add_left (n.toNat % 2 ^ 32)
    convert hstep using 1
    have := mod_add_div n.toNat (2 ^ 32)
    rw [hn] at this ⊢
    linarith
  | case2 carry as bs h =>
    cases as with
    | nil => exact modEq_one
    | cons a as =>
      cases bs with
      | nil => cases hlen
      | cons b bs => exact absurd rfl (h a as b bs rfl)

theorem mulRows_spec (pn as : List UInt32) {b : List UInt32} (hlen : as.length ≤ b.length) :
    (mulRows pn as b).length = as.length ∧
      limbsValue (mulRows pn as b) ≡ limbsValue as + limbsValue pn * limbsValue b
        [MOD (2 ^ 32) ^ as.length] := by
  induction pn generalizing as with
  | nil => simpa [mulRows, limbsValue] using Nat.ModEq.refl _
  | cons x pn ih =>
    have hrow := limbsValue_mulRow x (show (0 : UInt64).toNat < 2 ^ 32 by decide) hlen
    have hlength := length_mulRow x 0 as b
    rw [mulRows]
    cases hmul : mulRow x 0 as b with
    | nil =>
      rw [hmul, length_nil] at hlength
      exact ⟨hlength, hlength ▸ modEq_one⟩
    | cons a rest =>
      rw [hmul] at hrow hlength
      obtain ⟨hlength', hrest⟩ := ih rest (by rw [length_cons] at hlength; omega)
      refine ⟨by rw [length_cons, hlength', ← hlength, length_cons], ?_⟩
      rw [← hlength, length_cons, pow_succ'] at hrow ⊢
      rw [limbsValue_cons] at hrow ⊢
      calc a.toNat + 2 ^ 32 * limbsValue (mulRows pn rest b)
          ≡ a.toNat + 2 ^ 32 * (limbsValue rest + limbsValue pn * limbsValue b) [MOD _] :=
            (hrest.mul_left' _).add_left _
        _ = a.toNat + 2 ^ 32 * limbsValue rest + 2 ^ 32 * limbsValue pn * limbsValue b := by ring
        _ ≡ (0 : UInt64).toNat + limbsValue as + x.toNat * limbsValue b +
              2 ^ 32 * limbsValue pn * limbsValue b [MOD _] := hrow.add_right _
        _ = limbsValue as + limbsValue (x :: pn) * limbsValue b := by
          rw [limbsValue_cons, UInt64.toNat_zero]
          ring

theorem addLimbs_eq (carry : UInt64) (as bs : List UInt32) :
    addLimbs carry as bs = mulRow 1 carry as bs := by
  induction as generalizing carry bs with
  | nil => cases bs <;> rfl
  | cons a as ih =>
    cases bs with
    | nil => rfl
    | cons b bs =>
      rw [addLimbs, mulRow, ih, show (1 : UInt32).toUInt64 * b.toUInt64 = b.toUInt64 by simp]

theorem incLimbs_spec (l : List UInt32) :
    (incLimbs l).length = l.length ∧
      limbsValue (incLimbs l) = (limbsValue l + 1) % (2 ^ 32) ^ l.length := by
  induction l with
  | nil => exact ⟨rfl, rfl⟩
  | cons a l ih =>
    have ha := a.toNat_lt
    have hadd : (a + 1).toNat = (a.toNat + 1) % 2 ^ 32 := UInt32.toNat_add a 1
    rw [incLimbs]
    split
    next hzero =>
      -- the carry goes on
      rw [hzero, UInt32.toNat_zero] at hadd
      refine ⟨by rw [length_cons, ih.1, length_cons], ?_⟩
      rw [limbsValue_cons, limbsValue_cons, ih.2, hzero, UInt32.toNat_zero, Nat.zero_add,
        length_cons, pow_succ' (2 ^ 32), ← mul_mod_mul_left]
      congr 1
      omega
    next hne =>
      have hpos : (a + 1).toNat ≠ 0 := fun h => hne (UInt32.toNat_inj.mp h)
      refine ⟨rfl, ?_⟩
      have hlt := limbsValue_lt ((a + 1) :: l)
      have hsame : limbsValue (a :: l) + 1 = limbsValue ((a + 1) :: l) := by
        rw [limbsValue_cons, limbsValue_cons]
        omega
      rw [hsame]
      exact (mod_eq_of_lt hlt).symm

/-- A limb that is made of two parts. -/
theorem toNat_or_of_lt {x y : UInt32} {s m : Nat} (hx : x.toNat < 2 ^ s)
    (hy : y.toNat = 2 ^ s * m) : (x ||| y).toNat = x.toNat + y.toNat := by
  rw [UInt32.toNat_or, hy, Nat.or_comm, ← two_pow_add_eq_or_of_lt hx, Nat.add_comm]

section Shift

variable {shift : Nat} (hshift : shift < 32)
include hshift

theorem toNat_toUInt32 : shift.toUInt32.toNat = shift := by
  exact mod_eq_of_lt (hshift.trans (by norm_num))

theorem toNat_shiftLeft (a : UInt32) :
    (a <<< shift.toUInt32).toNat = 2 ^ shift * (a.toNat % 2 ^ (32 - shift)) := by
  rw [UInt32.toNat_shiftLeft, toNat_toUInt32 hshift, mod_eq_of_lt hshift, shiftLeft_eq,
    ← mul_mod_mul_left, pow_mul_pow_sub 2 hshift.le, Nat.mul_comm]

theorem toNat_shiftRight (a : UInt32) :
    (a >>> shift.toUInt32).toNat = a.toNat / 2 ^ shift := by
  rw [UInt32.toNat_shiftRight, toNat_toUInt32 hshift, mod_eq_of_lt hshift,
    shiftRight_eq_div_pow]

theorem shiftLeftLimbs_spec {high : UInt32} (hhigh : high.toNat < 2 ^ shift) (l : List UInt32) :
    (shiftLeftLimbs shift high l).length = l.length ∧
      limbsValue (shiftLeftLimbs shift high l) ≡ high.toNat + 2 ^ shift * limbsValue l
        [MOD (2 ^ 32) ^ l.length] := by
  induction l generalizing high with
  | nil => exact ⟨rfl, modEq_one⟩
  | cons a l ih =>
    have hpow := pow_mul_pow_sub 2 hshift.le
    have hnext : (if shift ≠ 0 then a >>> (32 - shift).toUInt32 else 0).toNat =
        a.toNat / 2 ^ (32 - shift) := by
      split
      · exact toNat_shiftRight (by omega) a
      next h0 =>
        rw [not_not.mp h0]
        exact (div_eq_of_lt a.toNat_lt).symm
    have hlt : a.toNat / 2 ^ (32 - shift) < 2 ^ shift := by
      rw [Nat.div_lt_iff_lt_mul (by positivity), hpow]
      exact a.toNat_lt
    obtain ⟨hlen, hrest⟩ := ih (hnext ▸ hlt)
    refine ⟨by rw [shiftLeftLimbs, length_cons, hlen, length_cons], ?_⟩
    rw [shiftLeftLimbs, limbsValue_cons, limbsValue_cons,
      toNat_or_of_lt hhigh (toNat_shiftLeft hshift a),
      toNat_shiftLeft hshift, length_cons, pow_succ' (2 ^ 32)]
    rw [hnext] at hrest
    convert (hrest.mul_left' (2 ^ 32)).add_left _ using 1
    have hsplit := mod_add_div a.toNat (2 ^ (32 - shift))
    rw [← hpow]
    nlinarith

theorem shiftRightLimbs_spec (l : List UInt32) :
    (shiftRightLimbs shift l).length = l.length ∧
      limbsValue (shiftRightLimbs shift l) = limbsValue l / 2 ^ shift := by
  induction l with
  | nil => exact ⟨rfl, (Nat.zero_div _).symm⟩
  | cons a l ih =>
    have hpow := pow_mul_pow_sub 2 hshift.le
    have hlow : (if shift ≠ 0 then l.headD 0 <<< (32 - shift).toUInt32 else 0).toNat =
        2 ^ (32 - shift) * (limbsValue l % 2 ^ shift) := by
      have hhead : limbsValue l % 2 ^ shift = (l.headD 0).toNat % 2 ^ shift := by
        cases l with
        | nil => rfl
        | cons b l =>
          rw [limbsValue_cons, ← hpow, mul_assoc, add_mul_mod_self_left]
          rfl
      rw [hhead]
      split
      next h0 => rw [toNat_shiftLeft (by omega), Nat.sub_sub_self hshift.le]
      next h0 => rw [not_not.mp h0, pow_zero, Nat.mod_one, mul_zero, UInt32.toNat_zero]
    have hlt : (a >>> shift.toUInt32).toNat < 2 ^ (32 - shift) := by
      rw [toNat_shiftRight hshift, Nat.div_lt_iff_lt_mul (by positivity), mul_comm, hpow]
      exact a.toNat_lt
    refine ⟨by rw [shiftRightLimbs, length_cons, ih.1, length_cons], ?_⟩
    have hsplit := mod_add_div (limbsValue l) (2 ^ shift)
    rw [shiftRightLimbs, limbsValue_cons, limbsValue_cons, toNat_or_of_lt hlt hlow, hlow, ih.2,
      toNat_shiftRight hshift, ← hpow, mul_assoc _ _ (limbsValue l),
      add_mul_div_left _ _ (Nat.two_pow_pos shift)]
    nlinarith

end Shift

theorem shiftLeftLimbs_zero (shift : Nat) (l : List UInt32) :
    (shiftLeftLimbs (shift % 32) 0 l).length = l.length ∧
      limbsValue (shiftLeftLimbs (shift % 32) 0 l) ≡ 2 ^ (shift % 32) * limbsValue l
        [MOD (2 ^ 32) ^ l.length] := by
  have hlt := mod_lt shift (by norm_num : 0 < 32)
  have h := @shiftLeftLimbs_spec _ hlt 0 (Nat.two_pow_pos _) l
  rwa [UInt32.toNat_zero, Nat.zero_add] at h

/-- A `base_uint<256>`. -/
structure BaseUint where
  pn : List UInt32
  length_pn : pn.length = 8

namespace BaseUint

/-- The number that the limbs stand for. -/
def value (a : BaseUint) : Nat := limbsValue a.pn

/-- The limbs of a `uint64_t`. -/
def ofUInt64 (b : UInt64) : BaseUint := ⟨[b.toUInt32, (b >>> 32).toUInt32, 0, 0, 0, 0, 0, 0], rfl⟩

/-- `operator~`. -/
def not (a : BaseUint) : BaseUint := ⟨a.pn.map (~~~ ·), by rw [length_map, a.length_pn]⟩

/-- `operator+=`. -/
def add (a b : BaseUint) : BaseUint :=
  ⟨addLimbs 0 a.pn b.pn, by rw [addLimbs_eq, length_mulRow, a.length_pn]⟩

/-- `operator-` with one operand. -/
def neg (a : BaseUint) : BaseUint :=
  ⟨incLimbs a.not.pn, (incLimbs_spec _).1.trans a.not.length_pn⟩

/-- `operator-=`. -/
def sub (a b : BaseUint) : BaseUint := a.add b.neg

/-- `operator*=`. -/
def mul (a b : BaseUint) : BaseUint :=
  ⟨mulRows a.pn (replicate 8 0) b.pn, (mulRows_spec a.pn (replicate 8 0) b.length_pn.ge).1⟩

/-- `operator<<=`: whole limbs first. What leaves the array is lost. -/
def shiftLeft (a : BaseUint) (shift : Nat) : BaseUint :=
  ⟨(replicate (shift / 32) 0 ++ shiftLeftLimbs (shift % 32) 0 a.pn).take 8, by
    have hlen := (shiftLeftLimbs_zero shift a.pn).1
    rw [length_take, length_append, hlen, a.length_pn]
    omega⟩

/-- `operator>>=`. -/
def shiftRight (a : BaseUint) (shift : Nat) : BaseUint :=
  ⟨shiftRightLimbs (shift % 32) (a.pn.drop (shift / 32)) ++ replicate (min 8 (shift / 32)) 0, by
    have hlen := (shiftRightLimbs_spec (mod_lt shift (by norm_num)) (a.pn.drop (shift / 32))).1
    rw [length_append, hlen, length_drop, length_replicate, a.length_pn]
    omega⟩

/-- `operator>=`, which is `CompareTo`. -/
def ge (a b : BaseUint) : Bool := (compareLimbs a.pn b.pn).isGE

/-- `EqualTo`. -/
def equalTo (a : BaseUint) (b : UInt64) : Bool := a.pn == (ofUInt64 b).pn

/-- `bits`: the position of the highest bit, plus one. -/
def bits (a : BaseUint) : Nat := bitsLimbs a.pn

/-- Sets a bit: `pn[shift / 32] |= (1 << (shift & 31))`. -/
def setBit (a : BaseUint) (shift : Nat) : BaseUint :=
  ⟨a.pn.modify (shift / 32) (· ||| 1 <<< (shift % 32).toUInt32), by rw [length_modify, a.length_pn]⟩

/-- The loop of `operator/=`, in which `shift` is one less than here. -/
def divLoop : Nat → BaseUint → BaseUint → BaseUint → BaseUint
  | 0, _, _, quot => quot
  | shift + 1, num, div, quot =>
    if num.ge div then divLoop shift (num.sub div) (div.shiftRight 1) (quot.setBit shift)
    else divLoop shift num (div.shiftRight 1) quot

/-- `operator/=`. Division by zero throws. -/
def divide (num div : BaseUint) : Option BaseUint :=
  if div.bits = 0 then none
  else if div.bits > num.bits then some (ofUInt64 0)
  else
    let shift := num.bits - div.bits
    some (divLoop (shift + 1) num (div.shiftLeft shift) (ofUInt64 0))

/-- `GetLow64`. -/
def getLow64 (a : BaseUint) : UInt64 := (a.pn.getD 0 0).toUInt64 ||| (a.pn.getD 1 0).toUInt64 <<< 32

/-- `SetCompact` on limbs. -/
def setCompact (nCompact : Nat) : BaseUint × Bool × Bool :=
  let nSize := nCompact >>> 24
  let nWord := nCompact &&& 0x007fffff
  let bn :=
    if nSize ≤ 3 then ofUInt64 (nWord >>> (8 * (3 - nSize))).toUInt64
    else (ofUInt64 nWord.toUInt64).shiftLeft (8 * (nSize - 3))
  -- the flags do not look at the limbs
  (bn, (ArithUint256.setCompact nCompact).2)

/-- `GetCompact` on limbs; `none` is a failed assertion. -/
def getCompact (a : BaseUint) (fNegative : Bool) : Option Nat :=
  let nSize := (a.bits + 7) / 8
  let nCompact :=
    if nSize ≤ 3 then (a.getLow64.toNat <<< (8 * (3 - nSize))) % 2 ^ 32
    else (a.shiftRight (8 * (nSize - 3))).getLow64.toNat % 2 ^ 32
  let sign := nCompact &&& 0x00800000 ≠ 0
  let nCompact' := if sign then nCompact >>> 8 else nCompact
  let nSize' := if sign then nSize + 1 else nSize
  if nCompact' &&& 0xff800000 = 0 ∧ nSize' < 256 then
    let nCompact := nCompact' ||| (nSize' <<< 24)
    some (nCompact ||| if fNegative ∧ nCompact &&& 0x007fffff ≠ 0 then 0x00800000 else 0)
  else none

end BaseUint

end ArithUint256

end DeVault
