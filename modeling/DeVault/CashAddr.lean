import DeVault.Amount
import DeVault.Lib.Radix
import DeVault.Lib.ShiftRegister

/-!
# Address strings (`cashaddr.cpp`)

An address is a prefix, a colon and values of five bits, each written as one
character, of which the last eight are a checksum. Strings are lists of bytes here.

`PolyMod` keeps a register of forty bits in a 64-bit word. It is a shift register: `polyModStep`
shifts by five bits and adds the value and the feedback of the five bits that were shifted out. The
shift is linear and clears no register, because the feedback of five bits ends in these five bits;
and up to eight values just stand next to each other in an empty register.

The prefix enters the checksum as the values do, so that prefix and fewer than eight values can
solve the equation together; `decode_range_iff` says when the last line of `Decode` then leaves its
vector.
-/

namespace DeVault

open List Nat
open BitVec (eq_of_toNat_eq toNat_setWidth toNat_zero twoPow xor_zero)
open UInt8 (ofBitVec ofNat toNat)

variable {c : BitVec 64} {v x rest pfx values str defaultPrefix : List UInt8}

variable (d : UInt8) (s : Scan) (c0 : BitVec 8) (mod : BitVec 64)

namespace CashAddr

/-! ### The functions -/

/-- `CHARSET`. -/
def charset : List UInt8 :=
  ['q', 'p', 'z', 'r', 'y', '9', 'x', '8', 'g', 'f', '2', 't', 'v', 'd', 'w', '0', 's', '3', 'j',
    'n', '5', '4', 'k', 'h', 'c', 'e', '6', 'm', 'u', 'a', '7', 'l'].map Char.toUInt8

/-- `CHARSET_REV`: the index of a character in `charset`, or -1. -/
def charsetRev : List Int := [
    -1, -1, -1, -1, -1, -1, -1, -1, -1, -1, -1, -1, -1, -1, -1, -1, -1, -1, -1,
    -1, -1, -1, -1, -1, -1, -1, -1, -1, -1, -1, -1, -1, -1, -1, -1, -1, -1, -1,
    -1, -1, -1, -1, -1, -1, -1, -1, -1, -1, 15, -1, 10, 17, 21, 20, 26, 30, 7,
    5,  -1, -1, -1, -1, -1, -1, -1, 29, -1, 24, 13, 25, 9,  8,  23, -1, 18, 22,
    31, 27, 19, -1, 1,  0,  3,  16, 11, 28, 12, 14, 6,  4,  2,  -1, -1, -1, -1,
    -1, -1, 29, -1, 24, 13, 25, 9,  8,  23, -1, 18, 22, 31, 27, 19, -1, 1,  0,
    3,  16, 11, 28, 12, 14, 6,  4,  2,  -1, -1, -1, -1, -1]

/-- The body of the loop of `PolyMod`. -/
def polyModStep (c : BitVec 64) (d : UInt8) : BitVec 64 :=
  let c0 : BitVec 8 := (c >>> 35).setWidth 8
  let c := ((c &&& 0x07ffffffff) <<< 5) ^^^ d.toBitVec.setWidth 64
  let c := if c0 &&& 0x01 ≠ 0 then c ^^^ 0x98f2bc8e61 else c
  let c := if c0 &&& 0x02 ≠ 0 then c ^^^ 0x79b76d99e2 else c
  let c := if c0 &&& 0x04 ≠ 0 then c ^^^ 0xf33e5fb3c4 else c
  let c := if c0 &&& 0x08 ≠ 0 then c ^^^ 0xae2eabe2a8 else c
  if c0 &&& 0x10 ≠ 0 then c ^^^ 0x1e4f43e470 else c

/-- `PolyMod`: the checksum of the values. -/
def polyMod (v : List UInt8) : BitVec 64 := v.foldl polyModStep 1 ^^^ 1

/-- `LowerCase`. -/
def lowerCase (c : UInt8) : UInt8 := c ||| 0x20

/-- `ExpandPrefix`. -/
def expandPrefix (pfx : List UInt8) : List UInt8 := pfx.map (· &&& 0x1f) ++ [0]

/-- `VerifyChecksum`. -/
def verifyChecksum (pfx payload : List UInt8) : Bool := polyMod (expandPrefix pfx ++ payload) = 0

/-- `CreateChecksum`: eight values of five bits. -/
def createChecksum (pfx payload : List UInt8) : List UInt8 :=
  let mod := polyMod (expandPrefix pfx ++ payload ++ replicate 8 0)
  (range 8).map fun i => ofBitVec (((mod >>> (5 * (7 - i))) &&& 0x1f).setWidth 8)

/-- `cashaddr::Encode`. -/
def encode (pfx payload : List UInt8) : List UInt8 :=
  pfx ++ 58 :: (payload ++ createChecksum pfx payload).map fun c => charset.getD (c.toNat % 32) 0

/-- The flags of the first loop of `Decode`. -/
structure Scan where
  lower : Bool := false
  upper : Bool := false
  hasNumber : Bool := false
  prefixSize : Nat := 0

/-- The body of the first loop of `Decode`; `none` is `return {}`. -/
def scanChar (p : UInt8 × Nat) : Option Scan :=
  if 97 ≤ p.1 ∧ p.1 ≤ 122 then some { s with lower := true }
  else if 65 ≤ p.1 ∧ p.1 ≤ 90 then some { s with upper := true }
  else if 48 ≤ p.1 ∧ p.1 ≤ 57 then some { s with hasNumber := true }
  else if p.1 = 58 then
    if s.hasNumber ∨ p.2 = 0 ∨ s.prefixSize ≠ 0 then none else some { s with prefixSize := p.2 }
  else none

/-- The value of a character; `none` is `return {}`. -/
def decodeChar (c : UInt8) : Option UInt8 :=
  let v := charsetRev.getD c.toNat (-1)
  if c > 127 ∨ v = -1 then none else some (ofNat v.toNat)

/-- `Decode` up to the checksum: the prefix and the values, the checksum among
them. -/
def decodeValues (str defaultPrefix : List UInt8) : Option (List UInt8 × List UInt8) := do
  let s ← str.zipIdx.foldlM scanChar {}
  if s.upper && s.lower then none
  else
    let pfx := if s.prefixSize = 0 then defaultPrefix else (str.take s.prefixSize).map lowerCase
    let start := if s.prefixSize = 0 then 0 else s.prefixSize + 1
    let values ← (str.drop start).mapM decodeChar
    if verifyChecksum pfx values then some (pfx, values) else none

/-- `cashaddr::Decode`, with a pair of empty strings for `{}`. The source takes eight values off the
end; with fewer it leaves the vector. -/
def decode (str defaultPrefix : List UInt8) : Except Fault (List UInt8 × List UInt8) :=
  match decodeValues str defaultPrefix with
  | none => .ok ([], [])
  | some (pfx, values) =>
    if values.length < 8 then .error (.logicError "values.end() - 8 is out of range")
    else .ok (pfx, values.take (values.length - 8))

/-! ### The register -/

open ShiftRegister

/-- The feedback of one of the bits that are shifted out. -/
def term (mask : BitVec 8) (k : BitVec 64) (c0 : BitVec 8) : BitVec 64 :=
  if c0 &&& mask ≠ 0 then k else 0#64

/-- The feedback of the bits that are shifted out. -/
def feedback : BitVec 64 :=
  term 0x01 0x98f2bc8e61 c0 ^^^ term 0x02 0x79b76d99e2 c0 ^^^ term 0x04 0xf33e5fb3c4 c0 ^^^
    term 0x08 0xae2eabe2a8 c0 ^^^ term 0x10 0x1e4f43e470 c0

/-- The bits that are shifted out. -/
def shiftedOut (c : BitVec 64) : BitVec 8 := (c >>> 35).setWidth 8

/-- A step without a value. -/
def shift (c : BitVec 64) : BitVec 64 := ((c &&& 0x07ffffffff) <<< 5) ^^^ feedback (shiftedOut c)

/-- A value as it is added to the register. -/
def widen : BitVec 64 := d.toBitVec.setWidth 64

theorem toNat_widen : (widen d).toNat = d.toNat := by
  have hd := d.toNat_lt
  rw [widen, toNat_setWidth]
  exact mod_eq_of_lt (hd.trans (by decide))

theorem widen_injective : Function.Injective widen := by
  intro d e h
  apply UInt8.toNat_inj.mp
  rw [← toNat_widen d, ← toNat_widen e, h]

theorem ite_xor_eq (p : Prop) [Decidable p] (c k : BitVec 64) :
    (if p then c ^^^ k else c) = c ^^^ if p then k else 0#64 := by
  split
  · rfl
  · exact xor_zero.symm

theorem polyModStep_eq (c : BitVec 64) (d : UInt8) : polyModStep c d = feed shift c (widen d) := by
  simp only [polyModStep, ite_xor_eq, feed, shift, feedback, term, shiftedOut, widen]
  ac_rfl

theorem polyMod_eq : polyMod v = run shift 1 (v.map widen) ^^^ 1 := by
  have hstep : polyModStep = fun c d => feed shift c (widen d) := funext₂ polyModStep_eq
  rw [polyMod, run, foldl_map, hstep]

theorem term_xor (i : Nat) (k : BitVec 64) (x y : BitVec 8) :
    term (twoPow 8 i) k (x ^^^ y) =
      term (twoPow 8 i) k x ^^^ term (twoPow 8 i) k y := by
  simp only [term, BitVec.and_twoPow, BitVec.getLsbD_xor]
  cases x.getLsbD i <;> cases y.getLsbD i <;> simp

theorem feedback_xor (x y : BitVec 8) : feedback (x ^^^ y) = feedback x ^^^ feedback y := by
  have h0 := term_xor 0 0x98f2bc8e61 x y
  have h1 := term_xor 1 0x79b76d99e2 x y
  have h2 := term_xor 2 0xf33e5fb3c4 x y
  have h3 := term_xor 3 0xae2eabe2a8 x y
  have h4 := term_xor 4 0x1e4f43e470 x y
  change term 0x01 _ _ = term 0x01 _ _ ^^^ term 0x01 _ _ at h0
  change term 0x02 _ _ = term 0x02 _ _ ^^^ term 0x02 _ _ at h1
  change term 0x04 _ _ = term 0x04 _ _ ^^^ term 0x04 _ _ at h2
  change term 0x08 _ _ = term 0x08 _ _ ^^^ term 0x08 _ _ at h3
  change term 0x10 _ _ = term 0x10 _ _ ^^^ term 0x10 _ _ at h4
  simp only [feedback, h0, h1, h2, h3, h4]
  ac_rfl

theorem xor_and_distrib (a b m : BitVec 64) : (a ^^^ b) &&& m = (a &&& m) ^^^ (b &&& m) := by
  ext i
  simp [Bool.and_xor_distrib_right]

theorem linear_shift : Linear shift := by
  intro a b
  simp only [shift, shiftedOut, BitVec.ushiftRight_xor_distrib, BitVec.setWidth_xor, feedback_xor,
    xor_and_distrib, BitVec.shiftLeft_xor_distrib]
  ac_rfl

/-- The register has forty bits. -/
def Fits (c : BitVec 64) : Prop := c.toNat < 2 ^ 40

instance (c : BitVec 64) : Decidable (Fits c) := inferInstanceAs (Decidable (c.toNat < 2 ^ 40))

theorem Fits.xor {a b : BitVec 64} (ha : Fits a) (hb : Fits b) : Fits (a ^^^ b) := by
  unfold Fits
  rw [BitVec.toNat_xor]
  exact xor_lt_two_pow ha hb

theorem fits_feedback : Fits (feedback c0) := by
  have hterm : ∀ (mask : BitVec 8) (k : BitVec 64), Fits k → Fits (term mask k c0) := by
    intro mask k hk
    unfold term
    split
    · exact hk
    · exact Nat.two_pow_pos 40
  unfold feedback
  exact ((((hterm _ _ (by decide)).xor (hterm _ _ (by decide))).xor (hterm _ _ (by decide))).xor
    (hterm _ _ (by decide))).xor (hterm _ _ (by decide))

theorem toNat_moved (c : BitVec 64) :
    ((c &&& 0x07ffffffff) <<< 5).toNat = c.toNat % 2 ^ 35 * 32 := by
  have hmask : (c &&& 0x07ffffffff).toNat = c.toNat % 2 ^ 35 := by
    rw [BitVec.toNat_and]
    exact and_two_pow_sub_one_eq_mod c.toNat 35
  rw [BitVec.toNat_shiftLeft, hmask, shiftLeft_eq]
  omega

theorem fits_shift : Fits (shift c) := by
  refine Fits.xor ?_ (fits_feedback _)
  unfold Fits
  rw [toNat_moved]
  omega

/-- The feedback of five bits ends in these five bits. -/
theorem feedback_low : ∀ c0 : BitVec 8, (feedback c0).toNat % 32 = c0.toNat % 32 := by
  decide +kernel

theorem feedback_zero : feedback 0#8 = 0#64 := by decide

theorem toNat_shiftedOut (hc : Fits c) : (shiftedOut c).toNat = c.toNat / 2 ^ 35 := by
  unfold Fits at hc
  rw [shiftedOut, toNat_setWidth, BitVec.toNat_ushiftRight, shiftRight_eq_div_pow]
  omega

theorem eq_zero_of_shift (hc : Fits c) (h : shift c = 0#64) : c = 0#64 := by
  have heq : (c &&& 0x07ffffffff) <<< 5 = feedback (shiftedOut c) := BitVec.xor_eq_zero_iff.mp h
  have hout := toNat_shiftedOut hc
  have hmoved := toNat_moved c
  unfold Fits at hc
  -- what was moved ends in five zeros, so the five bits that went out were zero
  have hlow : (shiftedOut c).toNat % 32 = 0 := by
    rw [← feedback_low, ← heq, hmoved]
    exact mul_mod_left _ _
  have hzero : shiftedOut c = 0#8 := by
    apply eq_of_toNat_eq
    rw [toNat_zero]
    omega
  rw [hzero, feedback_zero] at heq
  rw [heq, toNat_zero] at hmoved
  rw [hzero, toNat_zero] at hout
  apply eq_of_toNat_eq
  rw [toNat_zero]
  omega

/-- Exclusive or with a small number, where there are zeros. -/
theorem mul_xor_of_lt {i a b : Nat} (hb : b < 2 ^ i) : (2 ^ i * a) ^^^ b = 2 ^ i * a + b := by
  refine eq_of_testBit_eq fun j => ?_
  rw [testBit_xor, testBit_two_pow_mul, testBit_two_pow_mul_add a hb]
  by_cases hj : j < i
  · simp [hj, Nat.not_le.mpr hj]
  · have hzero : b.testBit j = false :=
      testBit_lt_two_pow (hb.trans_le (Nat.pow_le_pow_right (by decide) (not_lt.mp hj)))
    simp [hj, hzero, not_lt.mp hj]

/-- A register with room for a value takes it at the end. -/
theorem toNat_shift_xor (hc : c.toNat < 2 ^ 35) {d : UInt8} (hd : d.toNat < 32) :
    (shift c ^^^ widen d).toNat = 32 * c.toNat + d.toNat := by
  have hout : shiftedOut c = 0#8 := by
    apply eq_of_toNat_eq
    rw [toNat_shiftedOut (hc.trans (by decide)), toNat_zero]
    exact div_eq_of_lt hc
  rw [shift, hout, feedback_zero, BitVec.toNat_xor, toNat_widen, BitVec.xor_zero, toNat_moved,
    mod_eq_of_lt hc, Nat.mul_comm]
  exact mul_xor_of_lt (i := 5) hd

/-- **Up to eight values stand next to each other in an empty register.** -/
theorem run_eq_ofBE (hv : ∀ d ∈ v, d.toNat < 32) (hlen : v.length ≤ 8) :
    (run shift 0#64 (v.map widen)).toNat = Radix.ofBE 32 (v.map toNat) := by
  induction v using reverseRecOn with
  | nil => rfl
  | append_singleton v d ih =>
    rw [length_append, length_singleton] at hlen
    have hv' : ∀ e ∈ v, e.toNat < 32 := fun e he => hv e (mem_append_left _ he)
    have hd : d.toNat < 32 := hv d (mem_append_right _ mem_cons_self)
    have hrun := ih hv' (by omega)
    have hroom : (run shift 0#64 (v.map widen)).toNat < 2 ^ 35 := by
      have hlt : Radix.ofBE 32 (v.map toNat) < 32 ^ (v.map toNat).length :=
        Radix.ofBE_lt (forall_mem_map.mpr hv')
      rw [length_map] at hlt
      calc (run shift 0#64 (v.map widen)).toNat
          < 32 ^ v.length := hrun ▸ hlt
        _ ≤ 32 ^ 7 := Nat.pow_le_pow_right (by decide) (by omega)
        _ = 2 ^ 35 := by decide
    rw [map_append, map_singleton, run_append, run_cons, run_nil,
      toNat_shift_xor hroom hd, hrun, map_append, map_singleton, Radix.ofBE_concat]

theorem fits_run (hc : Fits c) : Fits (run shift c (v.map widen)) := by
  induction v generalizing c with
  | nil => exact hc
  | cons d v ih =>
    refine ih (fits_shift.xor ?_)
    unfold Fits
    rw [toNat_widen]
    exact d.toNat_lt.trans (by decide)

/-! ### The checksum -/

/-- The eight groups of five bits of a register, as `CreateChecksum` takes them. -/
def groups : List UInt8 :=
  (range 8).map fun i => ofBitVec (((mod >>> (5 * (7 - i))) &&& 0x1f).setWidth 8)

theorem toNat_group (k : Nat) :
    (ofBitVec (((mod >>> k) &&& 0x1f).setWidth 8)).toNat = mod.toNat / 2 ^ k % 32 := by
  have hmask : ((mod >>> k) &&& 0x1f).toNat = (mod >>> k).toNat % 32 := by
    rw [BitVec.toNat_and]
    exact and_two_pow_sub_one_eq_mod _ 5
  show (((mod >>> k) &&& 0x1f).setWidth 8).toNat = _
  rw [toNat_setWidth, hmask, BitVec.toNat_ushiftRight, shiftRight_eq_div_pow]
  omega

theorem groups_lt : ∀ d ∈ groups mod, d.toNat < 32 := by
  refine forall_mem_map.mpr fun i _ => ?_
  rw [toNat_group]
  exact mod_lt _ (by decide)

/-- The groups, put next to each other, are the register. -/
theorem run_groups {mod : BitVec 64} (hmod : Fits mod) :
    run shift 0#64 ((groups mod).map widen) = mod := by
  apply eq_of_toNat_eq
  rw [run_eq_ofBE (groups_lt mod) (by simp [groups])]
  have hdigits : (groups mod).map toNat =
      (range 8).map fun i => mod.toNat / 32 ^ (8 - 1 - i) % 32 := by
    rw [groups, map_map]
    refine map_congr_left fun i _ => ?_
    rw [Function.comp_apply, toNat_group, pow_mul]
    rfl
  rw [hdigits, Radix.ofBE_digits]
  exact mod_eq_of_lt hmod

/-- The checksum that `Encode` appends is the one that `Decode` accepts. -/
theorem polyMod_checksum (pfx payload : List UInt8) :
    verifyChecksum pfx (payload ++ createChecksum pfx payload) = true := by
  have hmod : Fits (polyMod (expandPrefix pfx ++ payload ++ replicate 8 0)) := by
    rw [polyMod_eq]
    exact (fits_run (by decide)).xor (by decide)
  have hsum : run shift 0#64 ((createChecksum pfx payload).map widen) =
      polyMod (expandPrefix pfx ++ payload ++ replicate 8 0) := run_groups hmod
  have hlen : (createChecksum pfx payload).length = 8 := by simp [createChecksum]
  have hzeros : (replicate 8 (0 : UInt8)).map widen = replicate 8 0#64 := by decide
  -- both are eight values after the same register
  rw [polyMod_eq, map_append, run_append, hzeros] at hsum
  refine decide_eq_true ?_
  rw [polyMod_eq, ← append_assoc, map_append, run_append, run_eq_xor linear_shift,
    length_map, hlen, hsum]
  generalize run shift (run shift 1 _) _ = r
  calc r ^^^ (r ^^^ 1#64) ^^^ 1#64 = (r ^^^ r) ^^^ (1#64 ^^^ 1#64) := by ac_rfl
    _ = 0 := by rw [BitVec.xor_self, BitVec.xor_self, BitVec.xor_zero]; rfl

/-- **No change of up to eight neighbouring values goes unseen.** -/
theorem eq_of_polyMod_window {y : List UInt8} (hx : ∀ d ∈ x, d.toNat < 32)
    (hy : ∀ d ∈ y, d.toNat < 32) (hlen : x.length = y.length) (hle : x.length ≤ 8)
    (h : polyMod (v ++ (x ++ rest)) = polyMod (v ++ (y ++ rest))) : x = y := by
  rw [polyMod_eq, polyMod_eq, BitVec.xor_left_inj] at h
  simp only [map_append] at h
  refine map_injective_iff.mpr widen_injective (eq_of_run_window linear_shift
    (fun c _ => fits_shift)
    (fun c => eq_zero_of_shift) (by simpa using hlen) ((fits_run (by decide)).xor
      (fits_run (by decide))) ?_ h)
  intro heq
  have hdigits := congrArg BitVec.toNat heq
  rw [run_eq_ofBE hx hle, run_eq_ofBE hy (hlen ▸ hle)] at hdigits
  have hnat : x.map toNat = y.map toNat := by
    refine Radix.ofBE_injective (by decide) (by simpa using hlen) ?_ ?_ hdigits
    · simpa using hx
    · simpa using hy
  rw [map_injective_iff.mpr (fun _ _ => UInt8.toNat_inj.mp) hnat]

/-! ### Reading a string -/

/-- A lower case letter. -/
def isLower (c : UInt8) : Bool := 97 ≤ c ∧ c ≤ 122

/-- An upper case letter. -/
def isUpper (c : UInt8) : Bool := 65 ≤ c ∧ c ≤ 90

/-- A digit. -/
def isDigit (c : UInt8) : Bool := 48 ≤ c ∧ c ≤ 57

/-- What a letter or a digit does to the flags. -/
def Scan.see (c : UInt8) : Scan :=
  { s with
    lower := s.lower || isLower c
    upper := s.upper || isUpper c
    hasNumber := s.hasNumber || isDigit c }

/-- A letter or a digit. -/
def isAlnum (c : UInt8) : Bool := isLower c || isUpper c || isDigit c

theorem kinds (c : UInt8) : (isLower c = true → isUpper c = false ∧ isDigit c = false) ∧
    (isUpper c = true → isLower c = false ∧ isDigit c = false) ∧
    (isDigit c = true → isLower c = false ∧ isUpper c = false) := by
  simp only [isLower, isUpper, isDigit, decide_eq_true_eq, decide_eq_false_iff_not,
    UInt8.le_iff_toNat_le, UInt8.reduceToNat]
  omega

/-- The body of the loop, by the kind of the character. -/
theorem scanChar_eq (c : UInt8) (i : Nat) :
    scanChar s (c, i) =
      if isAlnum c then some (s.see c)
      else if c = 58 ∧ s.hasNumber = false ∧ i ≠ 0 ∧ s.prefixSize = 0 then
        some { s with prefixSize := i }
      else none := by
  obtain ⟨hlower, hupper, hdigit⟩ := kinds c
  have hl : (97 ≤ c ∧ c ≤ 122) ↔ isLower c = true := by simp [isLower]
  have hu : (65 ≤ c ∧ c ≤ 90) ↔ isUpper c = true := by simp [isUpper]
  have hd : (48 ≤ c ∧ c ≤ 57) ↔ isDigit c = true := by simp [isDigit]
  simp only [scanChar, hl, hu, hd]
  by_cases h : isLower c = true
  · rw [if_pos h, if_pos (by simp [isAlnum, h])]
    simp [Scan.see, h, hlower h]
  by_cases h' : isUpper c = true
  · rw [if_neg h, if_pos h', if_pos (by simp [isAlnum, h'])]
    simp [Scan.see, h', hupper h']
  by_cases h'' : isDigit c = true
  · rw [if_neg h, if_neg h', if_pos h'', if_pos (by simp [isAlnum, h''])]
    simp [Scan.see, h'', hdigit h'']
  have halnum : ¬isAlnum c = true := by simp [isAlnum, h, h', h'']
  rw [if_neg h, if_neg h', if_neg h'', if_neg halnum]
  by_cases hcolon : c = 58
  · have hneg : (s.hasNumber = true ∨ i = 0 ∨ s.prefixSize ≠ 0) ↔
        ¬(s.hasNumber = false ∧ i ≠ 0 ∧ s.prefixSize = 0) := by
      rw [not_and_or, not_and_or, Bool.not_eq_false, not_not]
    simp only [hcolon, hneg, if_true, ite_not, true_and]
  · simp [hcolon]

/-- **The first loop.** Without a colon it collects the kinds of the characters; with one
it leaves a prefix, which it keeps. -/
theorem scan_some {l : List UInt8} {k : Nat} {s s' : Scan}
    (h : (l.zipIdx k).foldlM scanChar s = some s') :
    ((∀ c ∈ l, isAlnum c = true) ∧ s' = l.foldl Scan.see s) ∨
      (s.prefixSize = 0 ∧ s'.prefixSize ≠ 0 ∧ 58 ∈ l) := by
  induction l generalizing k s with
  | nil =>
    cases h
    exact .inl ⟨nofun, rfl⟩
  | cons c l ih =>
    rw [zipIdx_cons, foldlM_cons, scanChar_eq] at h
    split at h
    next hc =>
      obtain ⟨hl, hs'⟩ | ⟨hzero, hne, hcolon⟩ := ih h
      · exact .inl ⟨forall_mem_cons.mpr ⟨hc, hl⟩, hs'⟩
      · exact .inr ⟨hzero, hne, mem_cons_of_mem _ hcolon⟩
    · split at h
      next hcolon =>
        obtain ⟨rfl, -, hk, hp⟩ := hcolon
        obtain ⟨-, hs'⟩ | ⟨hzero, -⟩ := ih h
        · refine .inr ⟨hp, ?_, mem_cons_self⟩
          have hkeep :
              ∀ (l : List UInt8) (s : Scan), (l.foldl Scan.see s).prefixSize = s.prefixSize := by
            intro l
            induction l with
            | nil => exact fun s => rfl
            | cons c l ih => exact fun s => ih (s.see c)
          rw [hs', hkeep]
          exact hk
        · exact absurd hzero hk
      · cases h

/-- Letters and digits are always read. -/
theorem scan_of_alnum {l : List UInt8} (hl : ∀ c ∈ l, isAlnum c = true) (k : Nat) (s : Scan) :
    (l.zipIdx k).foldlM scanChar s = some (l.foldl Scan.see s) := by
  induction l generalizing k s with
  | nil => rfl
  | cons c l ih =>
    obtain ⟨hc, hl⟩ := forall_mem_cons.mp hl
    rw [zipIdx_cons, foldlM_cons, scanChar_eq, if_pos hc]
    exact ih hl (k + 1) (s.see c)

theorem foldl_see (l : List UInt8) (s : Scan) :
    l.foldl Scan.see s =
      { s with
        lower := s.lower || l.any isLower
        upper := s.upper || l.any isUpper
        hasNumber := s.hasNumber || l.any isDigit } := by
  induction l generalizing s with
  | nil => simp
  | cons c l ih => rw [foldl_cons, ih]; simp [Scan.see, Bool.or_assoc]

/-- A string is in one case. -/
def OneCase (str : List UInt8) : Prop := ¬(str.any isUpper = true ∧ str.any isLower = true)

/-- The prefix is made of letters and is not empty. -/
def LetterPrefix (pfx : List UInt8) : Prop :=
  pfx ≠ [] ∧ ∀ c ∈ pfx, isLower c = true ∨ isUpper c = true

/-- **The first loop on a string with a colon.** -/
theorem scan_iff {s : Scan} :
    (pfx ++ 58 :: rest).zipIdx.foldlM scanChar {} = some s ↔
      LetterPrefix pfx ∧ (∀ c ∈ rest, isAlnum c = true) ∧
        s = { lower := (pfx ++ rest).any isLower, upper := (pfx ++ rest).any isUpper
              hasNumber := rest.any isDigit, prefixSize := pfx.length } := by
  have hcolon : isAlnum 58 = false := rfl
  rw [zipIdx_append, foldlM_append, zipIdx_cons]
  constructor
  · intro h
    obtain ⟨s₁, hpfx, h⟩ := Option.bind_eq_some_iff.mp h
    rw [foldlM_cons, scanChar_eq, hcolon, if_neg (by decide)] at h
    split at h
    next hc =>
      obtain ⟨-, hnumber, hlen, hsize⟩ := hc
      -- no colon before this one, and no digit
      obtain ⟨halnum, rfl⟩ | ⟨-, hne, -⟩ := scan_some hpfx
      · obtain ⟨hrest, hs⟩ | ⟨hzero, -⟩ := scan_some h
        · rw [foldl_see] at hnumber
          simp only [Bool.false_or, any_eq_false] at hnumber
          refine ⟨⟨?_, fun c hc => ?_⟩, hrest, ?_⟩
          · rintro rfl
            exact hlen rfl
          · have hkind := halnum c hc
            simpa [isAlnum, hnumber c hc] using hkind
          · rw [hs, foldl_see, foldl_see]
            have hdigits : pfx.any isDigit = false := any_eq_false.mpr hnumber
            simp [hdigits]
        · exact absurd hzero hlen
      · exact absurd hsize hne
    · cases h
  · rintro ⟨⟨hne, hletters⟩, hrest, rfl⟩
    have halnum : ∀ c ∈ pfx, isAlnum c = true := by
      intro c hc
      rcases hletters c hc with h | h <;> simp [isAlnum, h]
    have hdigits : pfx.any isDigit = false := by
      refine any_eq_false.mpr fun c hc => ?_
      obtain ⟨hlower, hupper, -⟩ := kinds c
      rcases hletters c hc with h | h
      · simp [hlower h]
      · simp [hupper h]
    refine Option.bind_eq_some_iff.mpr ⟨_, scan_of_alnum halnum 0 {}, ?_⟩
    rw [foldlM_cons, scanChar_eq, hcolon, if_neg (by decide), foldl_see, if_pos]
    · refine (scan_of_alnum hrest _ _).trans ?_
      rw [foldl_see]
      simp [hdigits]
    · exact ⟨rfl, by simp [hdigits], by simpa using hne, rfl⟩

/-- **`Decode` after its first loop.** -/
theorem decodeValues_of_scan {s : Scan} {d p : List UInt8}
    (hs : str.zipIdx.foldlM scanChar {} = some s) :
    decodeValues str d = some (p, values) ↔
      ¬(s.upper = true ∧ s.lower = true) ∧
        p = (if s.prefixSize = 0 then d else (str.take s.prefixSize).map lowerCase) ∧
        (str.drop (if s.prefixSize = 0 then 0 else s.prefixSize + 1)).mapM decodeChar =
          some values ∧
        verifyChecksum p values = true := by
  rw [decodeValues, hs, Option.bind_eq_bind, Option.bind_some, ← Bool.and_eq_true]
  split
  next hcase => simp [hcase]
  next hcase =>
  rw [Option.bind_eq_bind, Option.bind_eq_some_iff]
  constructor
  · rintro ⟨values', hvalues, h⟩
    obtain ⟨hsum, h⟩ := Option.ite_none_right_eq_some.mp h
    obtain ⟨rfl, rfl⟩ := Prod.mk.inj (Option.some.inj h)
    exact ⟨hcase, rfl, hvalues, hsum⟩
  · rintro ⟨-, rfl, hvalues, hsum⟩
    exact ⟨values, hvalues, if_pos hsum⟩

/-- **What `Decode` accepts**, for a string with a colon. -/
theorem decodeValues_iff {d p : List UInt8} :
    decodeValues (pfx ++ 58 :: rest) d = some (p, values) ↔
      LetterPrefix pfx ∧ (∀ c ∈ rest, isAlnum c = true) ∧ OneCase (pfx ++ rest) ∧
        p = pfx.map lowerCase ∧ rest.mapM decodeChar = some values ∧
        verifyChecksum p values = true := by
  have htake : (pfx ++ 58 :: rest).take pfx.length = pfx := take_left
  have hdrop : (pfx ++ 58 :: rest).drop (pfx.length + 1) = rest := by
    rw [← drop_drop, drop_left]
    rfl
  constructor
  · intro h
    obtain ⟨s, hs, -⟩ := Option.bind_eq_some_iff.mp h
    have h := (decodeValues_of_scan hs).mp h
    obtain ⟨hpfx, hrest, rfl⟩ := scan_iff.mp hs
    have hlen : pfx.length ≠ 0 := by simpa using hpfx.1
    rw [if_neg hlen, if_neg hlen, htake, hdrop] at h
    exact ⟨hpfx, hrest, h⟩
  · rintro ⟨hpfx, hrest, h⟩
    have hlen : pfx.length ≠ 0 := by simpa using hpfx.1
    refine (decodeValues_of_scan (scan_iff.mpr ⟨hpfx, hrest, rfl⟩)).mpr ?_
    rwa [if_neg hlen, if_neg hlen, htake, hdrop]

/-! ### The round trip -/

/-- A character of the set, in either case. -/
def inCharset (c : UInt8) : Bool := isAlnum c && lowerCase c ∈ charset

/-- The value of such a character: its place in the set. -/
def charValue (c : UInt8) : UInt8 := ofNat (charset.idxOf (lowerCase c))

/-- The set is in lower case, and the value of a character is its place. -/
theorem charset_table : ∀ v : Fin 32, charValue (charset.getD v 0) = ofNat v ∧
    inCharset (charset.getD v 0) = true ∧ isUpper (charset.getD v 0) = false := by
  decide +kernel

/-- **The second table** gives the characters of the set their values, of five bits. In one case a
character can be told from its value. Small letters are in lower case. -/
theorem decodeChar_table : ∀ c : UInt8, (isLower c = true → lowerCase c = c) ∧
    decodeChar c = (if inCharset c then some (charValue c) else none) ∧
    (inCharset c = true → (charValue c).toNat < 32 ∧
      (isUpper c = false → charset.getD (charValue c).toNat 0 = c) ∧
      (isLower c = false → (fun d : UInt8 => if isLower d then d - 32 else d)
        (charset.getD (charValue c).toNat 0) = c)) := by
  decide +kernel

theorem mapM_decodeChar_iff :
    x.mapM decodeChar = some values ↔
      (∀ c ∈ x, inCharset c = true) ∧ values = x.map charValue := by
  induction x generalizing values with
  | nil => exact ⟨fun h => ⟨nofun, (Option.some.inj h).symm⟩, fun h => h.2 ▸ rfl⟩
  | cons c x ih =>
    rw [mapM_cons, (decodeChar_table c).2.1]
    split
    next hc =>
      rw [Option.bind_eq_bind, Option.bind_some, Option.bind_eq_bind, Option.bind_eq_some_iff]
      constructor
      · rintro ⟨rest, hrest, h⟩
        obtain ⟨hx, rfl⟩ := ih.mp hrest
        exact ⟨forall_mem_cons.mpr ⟨hc, hx⟩, (Option.some.inj h).symm⟩
      · rintro ⟨hx, rfl⟩
        exact ⟨_, ih.mpr ⟨(forall_mem_cons.mp hx).2, rfl⟩, rfl⟩
    next hc => exact ⟨nofun, fun h => absurd (h.1 c mem_cons_self) hc⟩

/-- **The round trip.** -/
theorem decode_encode {payload : List UInt8} (hne : pfx ≠ [])
    (hpfx : ∀ c ∈ pfx, isLower c = true) (hpayload : ∀ v ∈ payload, v.toNat < 32)
    (defaultPrefix : List UInt8) :
    decode (encode pfx payload) defaultPrefix = .ok (pfx, payload) := by
  have hlen : (createChecksum pfx payload).length = 8 := by simp [createChecksum]
  have hvalues : ∀ v ∈ payload ++ createChecksum pfx payload, v.toNat < 32 := by
    exact forall_mem_append.mpr ⟨hpayload, groups_lt _⟩
  have hchars : ∀ c ∈ (payload ++ createChecksum pfx payload).map
      fun c => charset.getD (c.toNat % 32) 0, inCharset c = true ∧ isUpper c = false := by
    refine forall_mem_map.mpr fun v _ => ?_
    exact (charset_table ⟨v.toNat % 32, mod_lt _ (by decide)⟩).2
  have hback : payload ++ createChecksum pfx payload = ((payload ++ createChecksum pfx payload).map
      fun c => charset.getD (c.toNat % 32) 0).map charValue := by
    refine (map_id _).symm.trans (map_map.symm ▸ map_congr_left fun v hv => ?_)
    have hplace := (charset_table ⟨v.toNat, hvalues v hv⟩).1
    rw [Function.comp, mod_eq_of_lt (hvalues v hv), hplace, UInt8.ofNat_toNat, id]
  have hcase : OneCase (pfx ++ (payload ++ createChecksum pfx payload).map
      fun c => charset.getD (c.toNat % 32) 0) := by
    rintro ⟨hupper, -⟩
    obtain ⟨c, hc, hcu⟩ := any_eq_true.mp hupper
    rcases mem_append.mp hc with hc | hc
    · exact absurd hcu (by simp [((kinds c).1 (hpfx c hc)).1])
    · exact absurd hcu (by simp [(hchars c hc).2])
  have hlower : pfx = pfx.map lowerCase := by
    refine (map_id pfx).symm.trans (map_congr_left fun c hc => ?_)
    exact ((decodeChar_table c).1 (hpfx c hc)).symm
  have hdecoded : decodeValues (encode pfx payload) defaultPrefix =
      some (pfx, payload ++ createChecksum pfx payload) :=
    decodeValues_iff.mpr ⟨⟨hne, fun c hc => .inl (hpfx c hc)⟩,
      fun c hc => (Bool.and_eq_true_iff.mp (hchars c hc).1).1, hcase, hlower,
      mapM_decodeChar_iff.mpr ⟨fun c hc => (hchars c hc).1, hback⟩, polyMod_checksum pfx payload⟩
  rw [decode, hdecoded]
  simp [hlen]

/-! ### Changed characters -/

/-- Two strings in the case of the same prefix that have the same values are equal. -/
theorem eq_of_values_eq {y : List UInt8} (hpfx : LetterPrefix pfx)
    (hx : OneCase (pfx ++ x)) (hy : OneCase (pfx ++ y)) (hinx : ∀ c ∈ x, inCharset c = true)
    (hiny : ∀ c ∈ y, inCharset c = true) (h : x.map charValue = y.map charValue) : x = y := by
  obtain ⟨c, hc⟩ := exists_mem_of_ne_nil pfx hpfx.1
  -- the first letter of the prefix decides the case of both strings
  have hcase : ∃ g : UInt8 → UInt8, ∀ z : List UInt8, OneCase (pfx ++ z) →
      (∀ d ∈ z, inCharset d = true) → (z.map charValue).map g = z := by
    rcases hpfx.2 c hc with hlower | hupper
    · refine ⟨fun v => charset.getD v.toNat 0, fun z hz hin => ?_⟩
      refine map_map.trans ((map_congr_left fun d hd => ?_).trans (map_id z))
      refine ((decodeChar_table d).2.2 (hin d hd)).2.1
        (Bool.eq_false_iff.mpr fun hdu => hz ⟨?_, ?_⟩)
      · exact any_eq_true.mpr ⟨d, mem_append_right _ hd, hdu⟩
      · exact any_eq_true.mpr ⟨c, mem_append_left _ hc, hlower⟩
    · refine ⟨fun v => (fun d : UInt8 => if isLower d then d - 32 else d) (charset.getD v.toNat 0),
        fun z hz hin => ?_⟩
      refine map_map.trans ((map_congr_left fun d hd => ?_).trans (map_id z))
      refine ((decodeChar_table d).2.2 (hin d hd)).2.2
        (Bool.eq_false_iff.mpr fun hdl => hz ⟨?_, ?_⟩)
      · exact any_eq_true.mpr ⟨c, mem_append_left _ hc, hupper⟩
      · exact any_eq_true.mpr ⟨d, mem_append_right _ hd, hdl⟩
  obtain ⟨g, hg⟩ := hcase
  rw [← hg x hx hinx, ← hg y hy hiny, h]

theorem OneCase.sublist {str' : List UInt8} (h : OneCase str) (hsub : str'.Sublist str) :
    OneCase str' := by
  rintro ⟨hupper, hlower⟩
  obtain ⟨c, hc, hcu⟩ := any_eq_true.mp hupper
  obtain ⟨d, hd, hdl⟩ := any_eq_true.mp hlower
  exact h ⟨any_eq_true.mpr ⟨c, hsub.subset hc, hcu⟩, any_eq_true.mpr ⟨d, hsub.subset hd, hdl⟩⟩

/-- **A change within eight neighbouring characters is rejected.** Behind the colon of a valid
address stand `a`, `x` and `b`; `x` becomes another string of the same length. -/
theorem decode_burst {a x' b p payload : List UInt8}
    (hvalid : decode (pfx ++ 58 :: (a ++ (x ++ b))) defaultPrefix = .ok (p, payload))
    (hp : p ≠ []) (hlen : x'.length = x.length) (hle : x.length ≤ 8) (hne : x' ≠ x) :
    decode (pfx ++ 58 :: (a ++ (x' ++ b))) defaultPrefix = .ok ([], []) := by
  cases hold : decodeValues (pfx ++ 58 :: (a ++ (x ++ b))) defaultPrefix with
  | none =>
    rw [decode, hold] at hvalid
    exact absurd (Prod.mk.inj (Except.ok.inj hvalid)).1.symm hp
  | some old =>
  cases hnew : decodeValues (pfx ++ 58 :: (a ++ (x' ++ b))) defaultPrefix with
  | none => rw [decode, hnew]
  | some new =>
  exfalso
  obtain ⟨hpfx, -, hcase, hpold, hvalues, hsum⟩ := decodeValues_iff.mp hold
  obtain ⟨-, -, hcase', hpnew, hvalues', hsum'⟩ := decodeValues_iff.mp hnew
  obtain ⟨hin, hmap⟩ := mapM_decodeChar_iff.mp hvalues
  obtain ⟨hin', hmap'⟩ := mapM_decodeChar_iff.mp hvalues'
  have hwindow : ∀ z : List UInt8, (∀ c ∈ a ++ (z ++ b), inCharset c = true) →
      ∀ c ∈ z, inCharset c = true := fun z h c hc =>
    h c (mem_append_right _ (mem_append_left _ hc))
  have hlt : ∀ z : List UInt8, (∀ c ∈ z, inCharset c = true) →
      ∀ v ∈ z.map charValue, v.toNat < 32 := fun z h =>
    forall_mem_map.mpr fun c hc => ((decodeChar_table c).2.2 (h c hc)).1
  -- both checksums are right, so the values of the window agree
  have hmod : polyMod ((expandPrefix (pfx.map lowerCase) ++ a.map charValue) ++
        (x.map charValue ++ b.map charValue)) =
      polyMod ((expandPrefix (pfx.map lowerCase) ++ a.map charValue) ++
        (x'.map charValue ++ b.map charValue)) := by
    rw [hpold, hmap, map_append, map_append] at hsum
    rw [hpnew, hmap', map_append, map_append] at hsum'
    rw [append_assoc, append_assoc, of_decide_eq_true hsum, of_decide_eq_true hsum']
  have hsame : x.map charValue = x'.map charValue :=
    eq_of_polyMod_window (hlt x (hwindow x hin)) (hlt x' (hwindow x' hin'))
      (by rw [length_map, length_map, hlen]) (by rwa [length_map]) hmod
  have hsub : ∀ z : List UInt8, (pfx ++ z).Sublist (pfx ++ (a ++ (z ++ b))) := fun z =>
    (Sublist.refl pfx).append
      ((sublist_append_left z b).trans (sublist_append_right a (z ++ b)))
  exact hne (eq_of_values_eq hpfx (hcase'.sublist (hsub x')) (hcase.sublist (hsub x))
    (hwindow x' hin') (hwindow x hin) hsame.symm)

/-! ### Short strings -/

/-- The characters of a string that stand for values: those behind its colon, or all. -/
def valueChars (str : List UInt8) : List UInt8 :=
  if 58 ∈ str then (str.dropWhile (· ≠ 58)).tail else str

theorem takeWhile_colon (hpfx : 58 ∉ pfx) : (pfx ++ 58 :: rest).takeWhile (· ≠ 58) = pfx := by
  rw [takeWhile_append_of_pos fun c hc => decide_eq_true (ne_of_mem_of_not_mem hc hpfx)]
  simp

theorem valueChars_append (hpfx : 58 ∉ pfx) : valueChars (pfx ++ 58 :: rest) = rest := by
  rw [valueChars, if_pos (mem_append_right _ mem_cons_self),
    dropWhile_append_of_pos fun c hc => decide_eq_true (ne_of_mem_of_not_mem hc hpfx)]
  simp

/-- The prefix that the checksum is computed with. -/
def checksumPrefix (str defaultPrefix : List UInt8) : List UInt8 :=
  if 58 ∈ str then (str.takeWhile (· ≠ 58)).map lowerCase else defaultPrefix

theorem checksumPrefix_append (hpfx : 58 ∉ pfx) :
    checksumPrefix (pfx ++ 58 :: rest) defaultPrefix = pfx.map lowerCase := by
  rw [checksumPrefix, if_pos (mem_append_right _ mem_cons_self), takeWhile_colon hpfx]

/-- **The strings with a right checksum**: letters before a colon, if there is one, characters of
the set behind it, all in one case, and values that solve the checksum equation with the prefix. -/
structure ChecksumRight (str defaultPrefix : List UInt8) : Prop where
  oneCase : OneCase str
  letters : 58 ∈ str → LetterPrefix (str.takeWhile (· ≠ 58))
  inSet : ∀ c ∈ valueChars str, inCharset c = true
  solved : polyMod (expandPrefix (checksumPrefix str defaultPrefix) ++
    (valueChars str).map charValue) = 0

/-- **The strings that get past the checksum** are those with a right one. -/
theorem decodeValues_eq_some_iff {p : List UInt8} :
    decodeValues str defaultPrefix = some (p, values) ↔
      ChecksumRight str defaultPrefix ∧ p = checksumPrefix str defaultPrefix ∧
        values = (valueChars str).map charValue := by
  by_cases hcolon : 58 ∈ str
  · -- the first colon ends the prefix
    obtain ⟨pfx, rest, rfl, hp⟩ := eq_append_cons_of_mem hcolon
    have hcase : OneCase (pfx ++ rest) ↔ OneCase (pfx ++ 58 :: rest) := by
      simp [OneCase, show isUpper 58 = false from rfl, show isLower 58 = false from rfl]
    rw [decodeValues_iff, mapM_decodeChar_iff, hcase, checksumPrefix_append hp,
      valueChars_append hp]
    constructor
    · rintro ⟨hpfx, -, hone, rfl, ⟨hin, rfl⟩, hsum⟩
      refine ⟨⟨hone, fun _ => by rwa [takeWhile_colon hp], by rwa [valueChars_append hp], ?_⟩,
        rfl, rfl⟩
      rw [checksumPrefix_append hp, valueChars_append hp]
      exact of_decide_eq_true hsum
    · rintro ⟨⟨hone, hpfx, hin, hsum⟩, rfl, rfl⟩
      rw [takeWhile_colon hp] at hpfx
      rw [valueChars_append hp] at hin
      rw [checksumPrefix_append hp, valueChars_append hp] at hsum
      exact ⟨hpfx hcolon, fun c hc => (Bool.and_eq_true_iff.mp (hin c hc)).1, hone, rfl,
        ⟨hin, rfl⟩, decide_eq_true hsum⟩
  · have hchars : valueChars str = str := if_neg hcolon
    have hpfx : checksumPrefix str defaultPrefix = defaultPrefix := if_neg hcolon
    rw [hchars, hpfx]
    constructor
    · intro h
      obtain ⟨s, hs, -⟩ := Option.bind_eq_some_iff.mp h
      obtain ⟨hone, rfl, hvalues, hsum⟩ := (decodeValues_of_scan hs).mp h
      obtain ⟨-, rfl⟩ := (scan_some hs).resolve_right fun h => hcolon h.2.2
      rw [foldl_see] at hone hvalues hsum ⊢
      obtain ⟨hin, rfl⟩ := mapM_decodeChar_iff.mp hvalues
      exact ⟨⟨hone, fun h => absurd h hcolon, by rwa [hchars], by
        rw [hchars, hpfx]
        exact of_decide_eq_true hsum⟩, rfl, rfl⟩
    · rintro ⟨⟨hone, -, hin, hsum⟩, rfl, rfl⟩
      rw [hchars] at hin hsum
      rw [hpfx] at hsum
      have halnum : ∀ c ∈ str, isAlnum c = true := fun c hc =>
        (Bool.and_eq_true_iff.mp (hin c hc)).1
      refine (decodeValues_of_scan (scan_of_alnum halnum 0 {})).mpr ?_
      rw [foldl_see]
      exact ⟨hone, rfl, mapM_decodeChar_iff.mpr ⟨hin, rfl⟩, decide_eq_true hsum⟩

theorem decode_ok_iff :
    (∃ r, decode str defaultPrefix = .ok r) ↔
      8 ≤ (valueChars str).length ∨ ¬ChecksumRight str defaultPrefix := by
  cases h : decodeValues str defaultPrefix with
  | none =>
    have hwrong : ¬ChecksumRight str defaultPrefix := fun hright =>
      nomatch h.symm.trans (decodeValues_eq_some_iff.mpr ⟨hright, rfl, rfl⟩)
    simp [decode, h, hwrong]
  | some r =>
    obtain ⟨pfx, values⟩ := r
    obtain ⟨hright, -, rfl⟩ := decodeValues_eq_some_iff.mp h
    simp only [decode, h, length_map, hright, not_true_eq_false, or_false]
    split
    next hlt => simp [hlt]
    next hlt => simpa using hlt

/-- One string for each number of values below eight. Prefix and values solve the checksum equation.
-/
def shortStrings : List (List UInt8) :=
  [['r', 'p', 'z', 'r', 'r', 'z', 'p', 'r', ':'],
    ['e', 'b', 't', 'g', 'x', 'p', 'n', 'v', 'j', ':', 'q'],
    ['h', 'u', 'f', 'j', 'z', 'l', 'h', 'h', 'v', ':', 'q', 'q'],
    ['i', 'w', 'z', 'l', 's', 'l', 'x', 'p', 'a', ':', 'q', 'q', 'q'],
    ['d', 'y', 'n', 'q', 'k', 'x', 'u', 'h', 'u', ':', 'q', 'q', 'q', 'q'],
    ['q', 'w', 'x', 'p', 'q', 'y', 'c', 'f', ':', 'q', 'q', 'q', 'q', 'q'],
    ['d', 'e', 'i', 'l', 'i', 'z', 'v', 's', 'e', ':', 'q', 'q', 'q', 'q', 'q', 'q'],
    ['c', ':', 'q', 'v', 'd', 'y', '2', 'z', '3']].map (·.map Char.toUInt8)

/-- The prefix of the main network. -/
def devaultPrefix : List UInt8 := ['d', 'e', 'v', 'a', 'u', 'l', 't'].map Char.toUInt8

theorem decode_shortStrings : ∀ n : Fin 8, (valueChars (shortStrings.getD n [])).length = n ∧
    decode (shortStrings.getD n []) devaultPrefix =
      .error (.logicError "values.end() - 8 is out of range") := by
  decide +kernel

/-- **When the range of `Decode` is well formed.** For each string: when eight characters stand
behind the prefix, or its checksum is wrong. Fewer characters are not enough for all strings. -/
theorem decode_range_iff (str defaultPrefix : List UInt8) :
    ((∃ r, decode str defaultPrefix = .ok r) ↔
      8 ≤ (valueChars str).length ∨ ¬ChecksumRight str defaultPrefix) ∧
    ((∀ str' defaultPrefix', (valueChars str').length = (valueChars str).length →
        ∃ r, decode str' defaultPrefix' = .ok r) ↔
      8 ≤ (valueChars str).length) := by
  refine ⟨decode_ok_iff, fun h => ?_, fun hle str' defaultPrefix' hlen => ?_⟩
  · -- the list has a string with this number of values
    by_contra hlt
    obtain ⟨hlen, herror⟩ := decode_shortStrings ⟨_, not_le.mp hlt⟩
    obtain ⟨r, hr⟩ := h _ devaultPrefix hlen
    cases herror.symm.trans hr
  · exact decode_ok_iff.mpr (.inl (hle.trans_eq hlen.symm))

/-- `c:qvdy2z3` with the prefix of the main network: seven values pass the checksum. -/
theorem decode_c_qvdy2z3 :
    decode (['c', ':', 'q', 'v', 'd', 'y', '2', 'z', '3'].map Char.toUInt8) devaultPrefix =
      .error (.logicError "values.end() - 8 is out of range") :=
  (decode_shortStrings 7).2

end CashAddr

end DeVault
