import DeVault.Script.Limits
import DeVault.Script.ScriptNum

/-!
# Codecs of script numbers (`script_num_encoding.cpp`, `script.h`, `bigint.cpp`)

A number on the stack is a string of bytes with a sign bit. The node has several functions that read
or write such strings, each written in its own way, and one that normalises them without reading the
number at all. Every one of them is compared with the library's `value` and `encode`.

An `std::vector` that is modified in place is passed and returned. GMP's integers are the integers;
`mpz_export` and `mpz_import` are little-endian words.
-/

namespace DeVault

open List SignMagnitude ScriptLimits Bytes

/-! ### The source -/

variable (vch : List UInt8)

/-- `ScriptNumEncoding::IsMinimallyEncoded`. -/
def isMinimallyEncoded (maxIntegerSize : Nat) : Bool :=
  if vch.length > maxIntegerSize then false
  else if vch.length > 0 then
    if top vch &&& 0x7f = 0 then
      if vch.length ≤ 1 ∨ vch.getD (vch.length - 2) 0 &&& 0x80 = 0 then false
      else true
    else true
  else true

/-- The loop of `MinimallyEncode`, from the given `i` down. -/
def trimFrom (data : List UInt8) (last : UInt8) : Nat → List UInt8
  | 0 => []
  | i + 1 =>
    if data.getD i 0 ≠ 0 then
      -- A byte that needs its top bit leaves no room for the sign.
      if data.getD i 0 &&& 0x80 ≠ 0 then (data.set (i + 1) last).take (i + 2)
      else (data.set i (data.getD i 0 ||| last)).take (i + 1)
    else trimFrom data last i

variable (data : List UInt8)

/-- `ScriptNumEncoding::MinimallyEncode`: the new vector, and whether it was changed. -/
def minimallyEncode : List UInt8 × Bool :=
  if data.length = 0 then (data, false)
  else
    let last := top data
    if last &&& 0x7f ≠ 0 then (data, false)
    else if data.length = 1 then ([], true)
    else if data.getD (data.length - 2) 0 &&& 0x80 ≠ 0 then (data, false)
    else (trimFrom data last (data.length - 1), true)

/-- The loop that collects bytes in an integer of some width, as `CScriptNum::set_vch` and
`DecodeBitfield` have it. -/
def orBytes {w : Nat} : List UInt8 → Nat → BitVec w → BitVec w
  | [], _, result => result
  | b :: vch, i, result => orBytes vch (i + 1) (result ||| (BitVec.ofNat w b.toNat <<< (8 * i)))

/-- `CScriptNum::set_vch`, for at most eight bytes. -/
def setVch : Int :=
  if vch = [] then 0
  else
    let result : BitVec 64 := orBytes vch 0 0
    if top vch &&& 0x80 ≠ 0 then
      -(result &&& ~~~(0x80#64 <<< (8 * (vch.length - 1)))).toInt
    else result.toInt

variable (x : Int) (b : List UInt8)

namespace BigInt

/-- `ULSz`, on a platform with 64-bit longs. -/
def ulSz : Nat := 8

/-- `absValNumBits`: zero has one bit. -/
def absValNumBits : Nat := max 1 x.natAbs.size

/-- `absValNumBytes`. -/
def absValNumBytes : Nat := (absValNumBits x + 7) / 8

/-- `exportWords`: as many words as `mpz_export` needs for the absolute value. -/
def exportWords : Nat × List UInt8 :=
  let count := (absValNumBits x + 8 * ulSz - 1) / (8 * ulSz)
  (count, leBytes (count * ulSz) x.natAbs)

/-- `mpz_import` of little endian bytes. -/
def importWords : Int := ofLe data

/-- `serializeAbsVal`; `none` is a failed assertion. -/
def serializeAbsVal : Option (List UInt8) :=
  if x ≠ 0 then
    let nbytes := absValNumBytes x
    let expectedCount := (nbytes + (ulSz - 1)) / ulSz
    let (count, ret) := exportWords x
    if count = expectedCount then some (ret.take nbytes) else none
  else some []

/-- `BigInt::serialize`. -/
def serialize : Option (List UInt8) := do
  let ret ← serializeAbsVal x
  if ret ≠ [] then
    if top ret &&& 0x80 ≠ 0 then pure (ret ++ [if x < 0 then 0x80 else 0])
    else if x < 0 then pure (ret.dropLast ++ [top ret ||| 0x80])
    else pure ret
  else pure ret

/-- The words that `unserialize` imports: without the sign, and padded to whole words. -/
def unsignedWords (neg : Bool) : List UInt8 :=
  let extraBytes := if b.length % ulSz ≠ 0 then ulSz - b.length % ulSz else 0
  if neg || extraBytes ≠ 0 then
    (if neg then b.dropLast ++ [top b &&& 0x7f] else b) ++ replicate extraBytes 0
  else b

/-- `BigInt::unserialize`; `none` is a failed assertion. -/
def unserialize : Option Int :=
  if b = [] ∨ (b.length = 1 ∧ (top b = 0 ∨ top b = 0x80)) then some 0
  else
    let neg : Bool := top b &&& 0x80 ≠ 0
    if b.length = 1 then
      let val : Int := (top b &&& 0x7f).toNat
      some (if neg then -val else val)
    else
      let data := unsignedWords b neg
      if data.length > 0 ∧ data.length % ulSz = 0 then
        some (if neg then -importWords data else importWords data)
      else none

end BigInt

/-- `ScriptNumCommon::throwIfInvalidScriptNumEncoding`. -/
def throwIfInvalidScriptNumEncoding (fRequireMinimal : Bool)
    (maxIntegerSize : Nat) : Except ScriptError Unit :=
  if vch.length > maxIntegerSize then
    .error (if maxIntegerSize > 8 then .invalidNumberRangeBigInt
      else if maxIntegerSize = 8 then .invalidNumberRange64Bit
      else .invalidNumberRange)
  else if fRequireMinimal && !isMinimallyEncoded vch maxIntegerSize then .error .minimalNum
  else .ok ()

/-- The constructor of `CScriptNum`. -/
def cScriptNum (fRequireMinimal : Bool) (maxIntegerSize : Nat) : Except ScriptError Int :=
  if maxIntegerSize > 8 then .error .unknown
  else do
    throwIfInvalidScriptNumEncoding vch fRequireMinimal maxIntegerSize
    pure (setVch vch)

/-- The part of `OP_NUM2BIN` behind the conversion of the size. -/
def num2Bin (size : Nat) (rawnum : List UInt8) : Except ScriptError (List UInt8) :=
  let rawnum := (minimallyEncode rawnum).1
  if rawnum.length > size then .error .impossibleEncoding
  else if rawnum.length = size then .ok rawnum
  else
    let signbit := if rawnum.length > 0 then top rawnum &&& 0x80 else 0
    let rawnum := if rawnum.length > 0 then rawnum.dropLast ++ [top rawnum &&& 0x7f] else rawnum
    .ok (rawnum ++ replicate (size - 1 - rawnum.length) 0 ++ [signbit])

variable (limits : ScriptLimits)

/-- `OP_NUM2BIN`, on a stack whose top comes first. The size is converted to a `uint64_t`. -/
def opNum2Bin : List (List UInt8) → Except ScriptError (List (List UInt8))
  | vchSize :: rawnum :: stack => do
    let size ← cScriptNum vchSize limits.fRequireMinimal limits.maxIntegerSizeLegacy
    let size := (size % 2 ^ 64).toNat
    if size > limits.maxScriptElementSize then .error .pushSize
    else
      let out ← num2Bin size rawnum
      pure (out :: stack)
  | _ => .error .invalidStackOperation

/-- `OP_BIN2NUM`. -/
def opBin2Num : List (List UInt8) → Except ScriptError (List (List UInt8))
  | n :: stack =>
    let n := (minimallyEncode n).1
    if !isMinimallyEncoded n limits.maxIntegerSize then .error limits.invalidNumberRangeError
    else .ok (n :: stack)
  | _ => .error .invalidStackOperation

/-! ### Minimal strings -/

variable (l : List UInt8)

theorem getD_length_sub_two (b : UInt8) :
    (l ++ [b]).getD ((l ++ [b]).length - 2) 0 = if l = [] then b else top l := by
  rcases eq_nil_or_concat l with rfl | ⟨l', c, rfl⟩
  · rfl
  · rw [concat_eq_append, if_neg (by simp), top_concat]
    simp [getD_eq_getElem?_getD]

theorem isMinimallyEncoded_iff {vch : List UInt8} {maxIntegerSize : Nat} :
    isMinimallyEncoded vch maxIntegerSize = true ↔ vch.length ≤ maxIntegerSize ∧ Minimal vch := by
  rcases eq_nil_or_concat vch with rfl | ⟨l, b, hvch⟩
  · simp [isMinimallyEncoded, SignMagnitude.Minimal]
  · rw [concat_eq_append] at hvch
    subst hvch
    rw [minimal_concat, isMinimallyEncoded, top_concat, getD_length_sub_two]
    by_cases hsize : (l ++ [b]).length > maxIntegerSize
    · rw [if_pos hsize]
      exact iff_of_false (by decide) (by omega)
    · rw [if_neg hsize, if_pos (by simp)]
      by_cases hb : b &&& 0x7f = 0
      · -- only the exception is left
        have hmod := (and_mask_eq_zero_iff b).mp hb
        rw [if_pos hb]
        by_cases hl : l = []
        · subst hl
          rw [if_pos (.inl (by simp))]
          exact iff_of_false (by decide) (by simp [hmod, top])
        · have hlen : ¬ (l ++ [b]).length ≤ 1 := by
            have := length_pos_iff.mpr hl
            simp only [length_append, length_singleton]
            omega
          rw [if_neg hl]
          by_cases hhigh : top l &&& 0x80 = 0
          · rw [if_pos (.inr hhigh)]
            have := mt (and_signBit_ne_zero_iff (top l)).mpr (not_not.mpr hhigh)
            exact iff_of_false (by decide) (by omega)
          · rw [if_neg (by rintro (h | h); exacts [hlen h, hhigh h])]
            exact iff_of_true rfl ⟨by omega, .inr ((and_signBit_ne_zero_iff _).mp hhigh)⟩
      · rw [if_neg hb]
        exact iff_of_true rfl ⟨by omega, .inl (mt (and_mask_eq_zero_iff b).mpr hb)⟩

/-! ### `MinimallyEncode` -/

variable (neg : Bool)

/-- **The backwards scan** drops the zero bytes at the end of the magnitude and puts the sign where
there is room for it. -/
theorem trimFrom_eq {i : Nat} (hi : i < data.length) :
    trimFrom data (signByte neg) i = withSign neg (bytesOf (ofLe (data.take i))) := by
  induction i with
  | zero => rw [trimFrom, take_zero, ofLe, bytesOf_zero, withSign_nil]
  | succ i ih =>
    have htake : data.take (i + 1) = data.take i ++ [data.getD i 0] := by
      rw [take_add_one, getD_eq_getElem?_getD, getElem?_eq_getElem (by omega)]
      rfl
    rw [trimFrom]
    split
    next hne =>
      rw [htake, bytesOf_ofLe_append hne, withSign_concat]
      by_cases hhigh : 128 ≤ (data.getD i 0).toNat
      · rw [if_pos ((and_signBit_ne_zero_iff _).mpr hhigh), if_pos hhigh, ← htake, take_add_one,
          take_set_of_le (le_refl _), getElem?_set_self hi]
        rfl
      · rw [if_neg (mt (and_signBit_ne_zero_iff _).mp hhigh), if_neg hhigh, take_add_one,
          take_set_of_le (le_refl _), getElem?_set_self (by omega)]
        cases neg
        · simp [signByte]
        · simp [signByte]
    next hzero =>
      rw [ih (by omega), htake, not_not.mp hzero, bytesOf_ofLe_concat_zero]

/-- **`MinimallyEncode` reads and writes the number**, and says whether this made a difference. -/
theorem minimallyEncode_eq :
    minimallyEncode data = (encode (value data), decide (encode (value data) ≠ data)) := by
  -- What is returned unchanged is minimal, and what is not minimal is changed.
  have hkeep : Minimal data →
      (data, false) = (encode (value data), decide (encode (value data) ≠ data)) := by
    intro h
    rw [encode_value h, decide_eq_false (by simp)]
  have hchange : ¬ Minimal data → decide (encode (value data) ≠ data) = true := by
    intro h
    exact decide_eq_true fun heq => h (minimal_iff.mpr heq)
  rcases eq_nil_or_concat data with rfl | ⟨l, b, hdata⟩
  · exact hkeep (.inl rfl)
  · rw [concat_eq_append] at hdata
    subst hdata
    rw [minimal_concat] at hkeep hchange
    unfold minimallyEncode
    rw [if_neg (by simp), top_concat, getD_length_sub_two]
    by_cases hb : b.toNat % 128 = 0
    · have hsign := eq_signByte hb
      have hvalue : encode (value (l ++ [b])) =
          withSign (decide (128 ≤ b.toNat)) (bytesOf (ofLe l)) := by
        rw [value, encode_signed, negative_concat, magnitude_concat, hb, Nat.mul_zero, Nat.add_zero]
      rw [if_neg (not_not.mpr ((and_mask_eq_zero_iff b).mpr hb))]
      by_cases hl : l = []
      · subst hl
        rw [hchange (by simp [hb, top]), hvalue, ofLe, bytesOf_zero, withSign_nil]
        rfl
      · rw [if_neg (by simpa using hl), if_neg hl]
        by_cases hhigh : 128 ≤ (top l).toNat
        · rw [if_pos ((and_signBit_ne_zero_iff _).mpr hhigh), hkeep (.inr hhigh)]
        · rw [if_neg (mt (and_signBit_ne_zero_iff _).mp hhigh), hchange (by omega), hvalue]
          have hscan := trimFrom_eq (l ++ [b]) (decide (128 ≤ b.toNat)) (i := l.length)
            (by simp)
          rw [← hsign, take_left] at hscan
          rw [length_append, length_singleton, Nat.add_sub_cancel, hscan]
    · rw [if_pos (mt (and_mask_eq_zero_iff b).mp hb), hkeep (.inl hb)]

/-! ### `CScriptNum` -/

theorem scriptNumSerialize_eq_encode {z : Int} (h : z.natAbs < 2 ^ 64) :
    scriptNumSerialize z = encode z := by
  unfold scriptNumSerialize encode withSign signByte
  rw [magnitudeBytes_eq_bytesOf h]
  by_cases hz : z = 0
  · rw [if_pos hz, if_pos (bytesOf_eq_nil_iff.mpr (Int.natAbs_eq_zero.mpr hz))]
  · rw [if_neg hz, if_neg (mt bytesOf_eq_nil_iff.mp (Int.natAbs_ne_zero.mpr hz))]
    simp only [top, decide_eq_true_eq]

theorem toNat_orBytes {w : Nat} {vch : List UInt8} {i : Nat} {result : BitVec w}
    (hlen : 8 * (i + vch.length) ≤ w) (hresult : result.toNat < 2 ^ (8 * i)) :
    (orBytes vch i result).toNat = result.toNat + 2 ^ (8 * i) * ofLe vch := by
  induction vch generalizing i result with
  | nil => simp [orBytes, ofLe]
  | cons b vch ih =>
    rw [length_cons] at hlen
    have hb := b.toNat_lt
    have hpow : 2 ^ (8 * (i + 1)) = 256 * 2 ^ (8 * i) := by
      rw [Nat.mul_add, Nat.pow_add]
      ring
    have hword : 2 ^ (8 * (i + 1)) ≤ 2 ^ w := Nat.pow_le_pow_right (by norm_num) (by omega)
    have hshift : (BitVec.ofNat w b.toNat <<< (8 * i)).toNat = b.toNat <<< (8 * i) := by
      rw [BitVec.toNat_shiftLeft, BitVec.toNat_ofNat, Nat.mod_eq_of_lt (a := b.toNat) (by omega),
        Nat.shiftLeft_eq]
      refine Nat.mod_eq_of_lt (lt_of_lt_of_le ?_ hword)
      rw [hpow]
      exact Nat.mul_lt_mul_of_pos_right hb (by positivity)
    have hor : (result ||| (BitVec.ofNat w b.toNat <<< (8 * i))).toNat =
        result.toNat + 2 ^ (8 * i) * b.toNat := by
      rw [BitVec.toNat_or, hshift, Nat.or_comm, ← Nat.shiftLeft_add_eq_or_of_lt hresult,
        Nat.shiftLeft_eq]
      ring
    have hnext : result.toNat + 2 ^ (8 * i) * b.toNat < 2 ^ (8 * (i + 1)) := by
      rw [hpow]
      nlinarith
    rw [orBytes, ih (by omega) (by rw [hor]; exact hnext), hor, ofLe, hpow]
    ring

theorem toNat_and_not_twoPow {x : BitVec 64} {k low : Nat} (hk : k < 64) (hlow : low < 2 ^ k)
    (hx : x.toNat = 2 ^ k + low) : (x &&& ~~~(BitVec.twoPow 64 k)).toNat = low := by
  apply Nat.eq_of_testBit_eq
  intro i
  rw [BitVec.testBit_toNat, BitVec.getLsbD_and, BitVec.getLsbD_not, BitVec.getLsbD_twoPow,
    ← BitVec.testBit_toNat, hx]
  rcases Nat.lt_trichotomy i k with h | h | h
  · rw [Nat.testBit_two_pow_add_gt h]
    simp [show i < 64 by omega, show ¬ k = i by omega]
  · subst h
    rw [Nat.testBit_lt_two_pow hlow]
    simp [hk]
  · have hbig : 2 ^ k + low < 2 ^ i := by
      calc 2 ^ k + low < 2 ^ k + 2 ^ k := by omega
        _ = 2 ^ (k + 1) := by ring
        _ ≤ 2 ^ i := Nat.pow_le_pow_right (by norm_num) h
    rw [Nat.testBit_lt_two_pow hbig, Nat.testBit_lt_two_pow (by omega)]
    rfl

/-- **`CScriptNum::set_vch` reads the number** of at most eight bytes. -/
theorem setVch_eq_value {vch : List UInt8} (h : vch.length ≤ 8) : setVch vch = value vch := by
  rcases eq_nil_or_concat vch with rfl | ⟨l, b, hvch⟩
  · rfl
  · rw [concat_eq_append] at hvch
    subst hvch
    have hlen : l.length < 8 := by simpa using h
    have hbits : (orBytes (l ++ [b]) 0 (0 : BitVec 64)).toNat = ofLe (l ++ [b]) := by
      rw [toNat_orBytes (by omega) (by simp)]
      simp
    have hmag := magnitude_lt l b
    have hword : 2 ^ (8 * l.length + 7) ≤ 2 ^ 63 := Nat.pow_le_pow_right (by norm_num) (by omega)
    have hsplit := ofLe_eq_magnitude l b
    unfold setVch
    rw [if_neg (by simp), top_concat, value, negative_concat]
    dsimp only
    by_cases hneg : 128 ≤ b.toNat
    · have hmask :
          0x80#64 <<< (8 * ((l ++ [b]).length - 1)) = BitVec.twoPow 64 (8 * l.length + 7) := by
        rw [length_append, length_singleton, Nat.add_sub_cancel, BitVec.twoPow_eq,
          Nat.add_comm, BitVec.shiftLeft_add]
        rfl
      have hclear := toNat_and_not_twoPow (x := orBytes (l ++ [b]) 0 0) (k := 8 * l.length + 7)
        (by omega) hmag (by rw [hbits, hsplit, if_pos hneg])
      rw [if_pos ((and_signBit_ne_zero_iff b).mpr hneg), decide_eq_true hneg, if_pos rfl, hmask,
        BitVec.toInt_eq_toNat_of_lt (by omega), hclear]
    · rw [if_neg hneg, Nat.zero_add] at hsplit
      rw [if_neg (mt (and_signBit_ne_zero_iff b).mp hneg), decide_eq_false hneg, if_neg (by decide),
        BitVec.toInt_eq_toNat_of_lt (by omega), hbits, hsplit]

/-! ### `BigInt` -/

namespace BigInt

theorem take_leBytes {k w n : Nat} (h : k ≤ w) : (leBytes w n).take k = leBytes k n := by
  induction w generalizing k n with
  | zero =>
    obtain rfl : k = 0 := by omega
    rfl
  | succ w ih =>
    cases k with
    | zero => rfl
    | succ k => rw [leBytes, leBytes, take_succ_cons, ih (by omega)]

/-- The number of bytes that GMP's bit count gives is the right one. -/
theorem length_bytesOf {x : Int} (hx : x ≠ 0) : (bytesOf x.natAbs).length = absValNumBytes x := by
  have hpos : x.natAbs.size ≠ 0 := mt Nat.size_eq_zero.mp (Int.natAbs_ne_zero.mpr hx)
  have hbits : absValNumBits x = x.natAbs.size := max_eq_right (by omega)
  rw [bytesOf, length_map, absValNumBytes, hbits]
  set n := x.natAbs
  have hpow : ∀ k, 256 ^ k = 2 ^ (8 * k) := fun k => by rw [Nat.pow_mul]
  apply le_antisymm
  · rw [Nat.digits_length_le_iff (by norm_num), hpow]
    exact n.lt_size_self.trans_le (Nat.pow_le_pow_right (by norm_num) (by omega))
  · have htop : 256 ^ ((n.size + 7) / 8 - 1) ≤ n := by
      rw [hpow]
      exact Nat.lt_size.mp (by omega)
    have := (Nat.lt_digits_length_iff (by norm_num) n).mpr htop
    omega

theorem serializeAbsVal_eq : serializeAbsVal x = some (bytesOf x.natAbs) := by
  unfold serializeAbsVal
  by_cases hx : x = 0
  · rw [if_neg (not_not.mpr hx), hx, Int.natAbs_zero, bytesOf_zero]
  · have hlen := length_bytesOf hx
    -- both ways of counting the words round up
    have hcount : (absValNumBits x + 8 * ulSz - 1) / (8 * ulSz) =
        (absValNumBytes x + (ulSz - 1)) / ulSz := by
      unfold absValNumBytes ulSz
      omega
    have hroom : absValNumBytes x ≤ (absValNumBytes x + (ulSz - 1)) / ulSz * ulSz := by
      unfold ulSz
      omega
    rw [if_pos hx]
    dsimp only [exportWords]
    rw [if_pos hcount, hcount, take_leBytes hroom, ← hlen]
    have hread := leBytes_ofLe (bytesOf x.natAbs)
    rw [ofLe_bytesOf] at hread
    rw [hread]

/-- **`BigInt::serialize` writes the minimal string.** -/
theorem serialize_eq : serialize x = some (encode x) := by
  unfold serialize
  rw [serializeAbsVal_eq]
  show (if bytesOf x.natAbs ≠ [] then _ else _) = _
  unfold encode withSign signByte
  by_cases hnil : bytesOf x.natAbs = []
  · rw [if_neg (not_not.mpr hnil), if_pos hnil, hnil]
    rfl
  · rw [if_pos hnil, if_neg hnil]
    simp only [decide_eq_true_eq]
    split
    · rfl
    · split <;> rfl

/-- The padding is made of zero bytes. -/
theorem unsignedWords_concat (c : UInt8) (neg : Bool) :
    ∃ extraBytes, unsignedWords (l ++ [c]) neg =
        (if neg then l ++ [c &&& 0x7f] else l ++ [c]) ++ replicate extraBytes 0 ∧
      ((l ++ [c]).length + extraBytes) % ulSz = 0 := by
  refine ⟨if (l ++ [c]).length % ulSz ≠ 0 then ulSz - (l ++ [c]).length % ulSz else 0, ?_, ?_⟩
  · unfold unsignedWords
    rw [top_concat, dropLast_concat]
    generalize (if (l ++ [c]).length % ulSz ≠ 0 then _ else 0) = extraBytes
    cases neg with
    | true => rfl
    | false =>
      by_cases hzero : extraBytes = 0
      · simp [hzero]
      · simp [hzero]
  · unfold ulSz
    split <;> omega

/-- **`BigInt::unserialize` reads the number.** -/
theorem unserialize_eq : unserialize b = some (value b) := by
  rcases eq_nil_or_concat b with rfl | ⟨l, c, hb⟩
  · rfl
  · rw [concat_eq_append] at hb
    subst hb
    unfold unserialize
    rw [top_concat]
    -- the source has a case of its own for one byte
    by_cases hl : l = []
    · subst hl
      by_cases hzero : c = 0 ∨ c = 0x80
      · rw [if_pos (.inr ⟨rfl, hzero⟩)]
        rcases hzero with rfl | rfl <;> decide
      · rw [if_neg (by simpa using hzero)]
        have hneg := negative_concat [] c
        have hmag : magnitude [c] = c.toNat % 128 := by simpa [ofLe] using magnitude_concat [] c
        simp only [value, nil_append, length_singleton, if_true, toNat_and_mask,
          and_signBit_ne_zero_iff, hmag, ← hneg]
    · have hlen : (l ++ [c]).length ≠ 1 := by simpa using hl
      rw [if_neg (by simp [hl])]
      simp only [if_neg hlen, and_signBit_ne_zero_iff, value, negative_concat]
      obtain ⟨extraBytes, hwords, hround⟩ := unsignedWords_concat l c (decide (128 ≤ c.toNat))
      have hmag : importWords (unsignedWords (l ++ [c]) (decide (128 ≤ c.toNat))) =
          magnitude (l ++ [c]) := by
        rw [importWords, hwords, ofLe_append, ofLe_replicate_zero, Nat.mul_zero, Nat.add_zero]
        split
        · rw [ofLe_clear]
        next hneg =>
          rw [ofLe_eq_magnitude, if_neg (by simpa using hneg), Nat.zero_add]
      have hwhole : (unsignedWords (l ++ [c]) (decide (128 ≤ c.toNat))).length > 0 ∧
          (unsignedWords (l ++ [c]) (decide (128 ≤ c.toNat))).length % ulSz = 0 := by
        have hlength : (unsignedWords (l ++ [c]) (decide (128 ≤ c.toNat))).length =
            (l ++ [c]).length + extraBytes := by
          rw [hwords, length_append, length_replicate]
          split <;> simp
        rw [hlength]
        exact ⟨by simp, hround⟩
      rw [if_pos hwhole, hmag]

end BigInt

/-! ### The opcodes -/

/-- The sign moves to the last byte of a longer string. -/
theorem value_widen (b : UInt8) (k : Nat) :
    value (l ++ [b &&& 0x7f] ++ replicate k 0 ++ [b &&& 0x80]) = value (l ++ [b]) := by
  have hsign : (b &&& 0x80).toNat % 128 = 0 ∧ (128 ≤ (b &&& 0x80).toNat ↔ 128 ≤ b.toNat) := by
    obtain ⟨⟨b⟩⟩ := b
    revert b
    decide +kernel
  rw [value, value, negative_concat, negative_concat, magnitude_concat, hsign.1, Nat.mul_zero,
    Nat.add_zero, ofLe_append, ofLe_replicate_zero, Nat.mul_zero, Nat.add_zero, ofLe_clear,
    decide_eq_decide.mpr hsign.2]

theorem value_zeros (k : Nat) : value (replicate k 0 ++ [0]) = 0 := by
  rw [value, negative_concat, magnitude_concat, ofLe_replicate_zero]
  rfl

/-- **`OP_NUM2BIN`**: it succeeds if the minimal string fits, with a string of the given size for
the same number. -/
theorem num2Bin_eq (size : Nat) (rawnum : List UInt8) :
    if (encode (value rawnum)).length ≤ size then
      ∃ out, num2Bin size rawnum = .ok out ∧ out.length = size ∧ value out = value rawnum
    else num2Bin size rawnum = .error .impossibleEncoding := by
  unfold num2Bin
  rw [minimallyEncode_eq]
  have hvalue := (value_encode (value rawnum)).1
  generalize encode (value rawnum) = m at hvalue
  dsimp only
  split
  next hfits =>
    rw [if_neg (by omega)]
    by_cases heq : m.length = size
    · exact ⟨m, if_pos heq, heq, hvalue⟩
    · rw [if_neg heq]
      refine ⟨_, rfl, ?_⟩
      rcases eq_nil_or_concat m with rfl | ⟨l, b, hm⟩
      · simp only [length_nil] at heq hfits ⊢
        refine ⟨by simp; omega, ?_⟩
        rw [← hvalue]
        exact value_zeros _
      · rw [concat_eq_append] at hm
        subst hm
        have hpos : (l ++ [b]).length > 0 := by simp
        rw [if_pos hpos, if_pos hpos, top_concat, dropLast_concat]
        refine ⟨?_, ?_⟩
        · simp only [length_append, length_singleton, length_replicate] at heq hfits ⊢
          omega
        · rw [← hvalue]
          exact value_widen l b _
  next hfits => rw [if_pos (by omega)]

/-- **`OP_BIN2NUM`**: it normalises the string, and succeeds if the number is in range. -/
theorem opBin2Num_eq (n : List UInt8) (stack : List (List UInt8)) :
    opBin2Num limits (n :: stack) =
      if (encode (value n)).length ≤ limits.maxIntegerSize then .ok (encode (value n) :: stack)
      else .error limits.invalidNumberRangeError := by
  unfold opBin2Num
  dsimp only
  rw [minimallyEncode_eq]
  by_cases hfits : (encode (value n)).length ≤ limits.maxIntegerSize
  · rw [if_pos hfits, isMinimallyEncoded_iff.mpr ⟨hfits, minimal_encode _⟩]
    rfl
  · rw [if_neg hfits, Bool.eq_false_iff.mpr (mt isMinimallyEncoded_iff.mp fun h => hfits h.1)]
    rfl

/-- **`OP_NUM2BIN` on the stack**, if the size is a number. -/
theorem opNum2Bin_eq {vchSize : List UInt8} {size : Int}
    (hsize : cScriptNum vchSize limits.fRequireMinimal limits.maxIntegerSizeLegacy = .ok size)
    (rawnum : List UInt8) (stack : List (List UInt8)) :
    opNum2Bin limits (vchSize :: rawnum :: stack) =
      if (size % 2 ^ 64).toNat > limits.maxScriptElementSize then .error .pushSize
      else (num2Bin (size % 2 ^ 64).toNat rawnum).map (· :: stack) := by
  unfold opNum2Bin
  dsimp only
  rw [hsize]
  show (if _ then _ else _) = _
  split
  · rfl
  · cases num2Bin (size % 2 ^ 64).toNat rawnum <;> rfl

theorem natAbs_cScriptNum {vch : List UInt8} {fRequireMinimal : Bool}
    {maxIntegerSize : Nat} {n : Int}
    (h : cScriptNum vch fRequireMinimal maxIntegerSize = .ok n) : n.natAbs < 2 ^ 63 := by
  unfold cScriptNum throwIfInvalidScriptNumEncoding at h
  split at h
  · cases h
  · split at h
    · cases h
    · split at h
      · cases h
      · have hn : setVch vch = n := Except.ok.inj h
        have hlen : vch.length ≤ 7 + 1 := by omega
        rw [← hn, setVch_eq_value hlen]
        exact natAbs_value_lt hlen

/-- Elements are far smaller than a negative size, converted. -/
theorem ScriptLimits.maxScriptElementSize_ofFlags (flags : UInt32) :
    (ofFlags flags).maxScriptElementSize ≤ 10000 := by
  unfold ofFlags
  dsimp only
  split <;> decide

/-! ### All codecs together -/

/-- `OP_NUM2BIN` works for every allowed size the number fits into; `OP_BIN2NUM` undoes it. -/
theorem num2Bin_bin2Num (flags : UInt32) {vchSize : List UInt8} {size : Int}
    (hsize : cScriptNum vchSize (ofFlags flags).fRequireMinimal
      (ofFlags flags).maxIntegerSizeLegacy = .ok size)
    (v : List UInt8) (stack : List (List UInt8)) :
    ((∃ out, opNum2Bin (.ofFlags flags) (vchSize :: v :: stack) = .ok out) ↔
        0 ≤ size ∧ size ≤ (ofFlags flags).maxScriptElementSize ∧
          (minimallyEncode v).1.length ≤ size) ∧
      ∀ out, opNum2Bin (.ofFlags flags) (vchSize :: v :: stack) = .ok out →
        opBin2Num (.ofFlags flags) out =
          if (minimallyEncode v).1.length ≤ (ofFlags flags).maxIntegerSize then
            .ok ((minimallyEncode v).1 :: stack)
          else .error (ofFlags flags).invalidNumberRangeError := by
  have hrange := natAbs_cScriptNum hsize
  have hmax := maxScriptElementSize_ofFlags flags
  have hnum := num2Bin_eq (size % 2 ^ 64).toNat v
  rw [opNum2Bin_eq _ hsize, minimallyEncode_eq]
  dsimp only
  generalize ofFlags flags = limits at hmax ⊢
  -- a negative size is cast to a huge one, and refused with the large ones
  by_cases hpush : (size % 2 ^ 64).toNat > limits.maxScriptElementSize
  · rw [if_pos hpush]
    refine ⟨iff_of_false (by rintro ⟨out, hout⟩; cases hout) (by omega), ?_⟩
    rintro out hout
    cases hout
  · rw [if_neg hpush]
    have hcast : ((size % 2 ^ 64).toNat : Int) = size := by omega
    split at hnum
    next hfits =>
      obtain ⟨out, hout, -, hvalue⟩ := hnum
      rw [hout]
      refine ⟨iff_of_true ⟨_, rfl⟩ (by omega), ?_⟩
      intro stack' hstack
      cases hstack
      rw [opBin2Num_eq, hvalue]
    next hfits =>
      rw [hnum]
      refine ⟨iff_of_false (by rintro ⟨out, hout⟩; cases hout) (by omega), ?_⟩
      rintro out hout
      cases hout

/-- **The codecs of script numbers agree.** `MinimallyEncode` normalises; `CScriptNum` and `BigInt`
read and write the same strings, of at most eight bytes for the numbers of 64 bits without the
smallest; and the two opcodes convert a number to any allowed size that it fits into and back. -/
theorem scriptNum_codecs :
    (∀ v, (∀ maxIntegerSize, (minimallyEncode v).1.length ≤ maxIntegerSize →
          isMinimallyEncoded (minimallyEncode v).1 maxIntegerSize = true) ∧
        value (minimallyEncode v).1 = value v ∧
        (∀ w maxIntegerSize, isMinimallyEncoded w maxIntegerSize = true → value w = value v →
          w = (minimallyEncode v).1) ∧
        minimallyEncode (minimallyEncode v).1 = ((minimallyEncode v).1, false) ∧
        ((minimallyEncode v).2 = true ↔ (minimallyEncode v).1 ≠ v)) ∧
    (∀ v, isMinimallyEncoded v 8 = true →
      |setVch v| ≤ 2 ^ 63 - 1 ∧ scriptNumSerialize (setVch v) = v ∧
        BigInt.unserialize v = some (setVch v)) ∧
    (∀ z : Int, |z| ≤ 2 ^ 63 - 1 →
      isMinimallyEncoded (scriptNumSerialize z) 8 = true ∧ setVch (scriptNumSerialize z) = z ∧
        BigInt.serialize z = some (scriptNumSerialize z)) ∧
    (∀ flags size v vchSize stack, cScriptNum vchSize (ofFlags flags).fRequireMinimal
          (ofFlags flags).maxIntegerSizeLegacy = .ok size →
        ((∃ out, opNum2Bin (.ofFlags flags) (vchSize :: v :: stack) = .ok out) ↔
            0 ≤ size ∧ size ≤ (ofFlags flags).maxScriptElementSize ∧
              (minimallyEncode v).1.length ≤ size) ∧
          ∀ out, opNum2Bin (.ofFlags flags) (vchSize :: v :: stack) = .ok out →
            opBin2Num (.ofFlags flags) out =
              if (minimallyEncode v).1.length ≤ (ofFlags flags).maxIntegerSize then
                .ok ((minimallyEncode v).1 :: stack)
              else .error (ofFlags flags).invalidNumberRangeError) := by
  refine ⟨fun v => ?_, fun v hv => ?_, fun z hz => ?_,
    fun flags size v vchSize stack hsize => num2Bin_bin2Num flags hsize v stack⟩
  · rw [minimallyEncode_eq]
    refine ⟨fun maxIntegerSize h => isMinimallyEncoded_iff.mpr ⟨h, minimal_encode _⟩,
      (value_encode _).1, fun w maxIntegerSize hw hvalue => ?_, ?_, decide_eq_true_iff⟩
    · rw [← encode_value (isMinimallyEncoded_iff.mp hw).2, hvalue]
    · rw [minimallyEncode_eq, (value_encode _).1]
      simp
  · obtain ⟨hlen, hmin⟩ := isMinimallyEncoded_iff.mp hv
    have hencode := encode_value hmin
    have hrange : (value v).natAbs < 2 ^ 63 :=
      length_encode_le_iff (k := 7) |>.mp (by rw [hencode]; exact hlen)
    rw [setVch_eq_value hlen, scriptNumSerialize_eq_encode (by omega),
      hencode, BigInt.unserialize_eq,
      Int.abs_eq_natAbs]
    exact ⟨by omega, rfl, rfl⟩
  · rw [Int.abs_eq_natAbs] at hz
    have hrange : z.natAbs < 2 ^ 63 := by omega
    have hlen : (encode z).length ≤ 8 := length_encode_le_iff (k := 7) |>.mpr hrange
    rw [scriptNumSerialize_eq_encode (by omega), setVch_eq_value hlen, BigInt.serialize_eq]
    exact ⟨isMinimallyEncoded_iff.mpr ⟨hlen, minimal_encode z⟩, (value_encode z).1, rfl⟩

/-- With 64-bit numbers, nine bytes pass `OP_NUM2BIN` but are no number for `OP_BIN2NUM`; and a size
above the limit for stack elements is refused. -/
theorem num2Bin_bin2Num_nine :
    (opNum2Bin (.ofFlags script64BitIntegers) [[9], [1, 2, 3, 4, 5, 6, 7, 8, 9]] =
        .ok [[1, 2, 3, 4, 5, 6, 7, 8, 9]] ∧
      opBin2Num (.ofFlags script64BitIntegers) [[1, 2, 3, 4, 5, 6, 7, 8, 9]] =
        .error .invalidNumberRange64Bit ∧
      (minimallyEncode [1, 2, 3, 4, 5, 6, 7, 8, 9]).1 = [1, 2, 3, 4, 5, 6, 7, 8, 9]) ∧
    opNum2Bin (.ofFlags script64BitIntegers) [[0x09, 0x02], [1]] = .error .pushSize := by
  decide +kernel

end DeVault
