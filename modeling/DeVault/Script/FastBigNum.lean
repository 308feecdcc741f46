import DeVault.Script.NumEncoding

/-!
# Numbers of the interpreter (`FastBigNum`, `ScriptIntBase`, `bigint.cpp`)

The interpreter computes with `FastBigNum`: a 64-bit integer as long as the values are small, and an
integer of GMP behind that. Every operation dispatches on the representation of both operands. It
tries the native operation where it can, falls back to the big one after an overflow, and undoes the
big one when the result leaves the range of the consensus rules. `INT64_MIN` lies between the two:
it is a 64-bit integer, and no `CScriptNum`. None of this is visible from outside, on the numbers
that a script can get hold of (`Obtained`).

GMP's integers are the integers; `none` is an exception or a failed assertion.
-/

namespace DeVault

open Bool Int SignMagnitude

/-! ### The source: the two representations -/

/-- `ArithOpType`. -/
inductive ArithOpType
  | add
  | sub
  | mul
  | div
  | mod
  deriving DecidableEq, Repr

/-- The operators on integers. `/` and `%` of C++ truncate, and so do those of GMP. -/
def ArithOpType.eval : ArithOpType → Int → Int → Int
  | .add, v, x => v + x
  | .sub, v, x => v - x
  | .mul, v, x => v * x
  | .div, v, x => v.tdiv x
  | .mod, v, x => v.tmod x

variable (op : ArithOpType)

/-- Does the operator throw for a zero? -/
def ArithOpType.divides : Bool := op = .div || op = .mod

variable (v x : Int)

namespace BigInt

/-- `BigInt::operator+=` and its kind, with a `BigInt` on the right. -/
def arith : Option Int :=
  if op.divides && x = 0 then none else some (op.eval v x)

/-- `BigInt::applyArithOp`, the same with an `int64_t`. -/
def applyArithOp : Option Int :=
  if (op = .add ∨ op = .sub) ∧ x = 0 then some v
  else if op.divides && x = 0 then none
  else if op ≠ .add ∧ op ≠ .sub ∧ (v = 0 ∨ op ≠ .mod ∧ x = 1) then some v
  else if x = 0 ∧ op = .mul ∨ x = 1 ∧ op = .mod then some 0
  else some (op.eval v x)

/-- `ScriptBigInt::getInt`. -/
def getInt (v : Int) : Option Int := if int64Range v then some v else none

/-- `BigInt::compare`: clamped to `-1`, `0` and `1`. -/
def compare : Int := (v - x).sign

end BigInt

namespace CScriptNum

/-- `validRange` for an `int64_t`. -/
def validRange (x : Int) : Bool := x > -2 ^ 63

/-- `CScriptNum::fromInt`. -/
def fromInt (x : Int) : Option Int := if validRange x then some x else none

/-- `safeAdd`, `safeSub` and `safeMul`. The built-in functions detect an overflow. -/
def safe : Option Int :=
  let result := op.eval v x
  if !int64Range result || !validRange result then none else some result

/-- `operator/=`. -/
def div : Int := if x = -1 && !validRange v then v else v.tdiv x

/-- `operator%=`. -/
def mod : Int := if x = -1 && !validRange v then 0 else v.tmod x

/-- `checkedLeftShift`, with `MAX_BITS` 63: the new value, and what is returned. The shift is that
of a `uint64_t`. -/
def checkedLeftShift (v : Int) (bitcount : Nat) : Int × Bool :=
  if v = 0 then (v, true)
  else if bitcount + BigInt.absValNumBits v > 63 then (v, false)
  else
    let shifted := wrap64 (v.natAbs * 2 ^ bitcount % 2 ^ 64 : Nat)
    let value := if v < 0 then -shifted else shifted
    (value, validRange value)

/-- `CScriptNum::checkedRightShift`. -/
def checkedRightShift (v : Int) (bitcount : Nat) : Int × Bool :=
  if v = 0 then (v, true)
  else
    let value := v >>> min bitcount 63
    (value, validRange value)

end CScriptNum

namespace ScriptBigInt

/-- `MAX_BIG_INT_BITS`. -/
def maxBigIntBits : Nat := may2025MaxScriptElementSize * 8 - 1

/-- `validRange`, between `bigIntConsensusMin` and `bigIntConsensusMax`. -/
def validRange (x : Int) : Bool :=
  x ≥ -(2 ^ maxBigIntBits - 1) && x ≤ 2 ^ maxBigIntBits - 1

/-- `safeAddInPlace`, `safeSubInPlace` and `safeMulInPlace`: the operator, for a `BigInt` or an
`int64_t`, and on failure the one that undoes it. -/
def safeInPlace (arith : ArithOpType → Int → Int → Option Int) (op undo : ArithOpType) (v x : Int) :
    Option (Int × Bool) :=
  (arith op v x).bind fun value =>
    if validRange value then some (value, true)
    else (arith undo value x).map fun value => (value, false)

/-- `ScriptBigInt::checkedLeftShift`. -/
def checkedLeftShift (v : Int) (bitcount : Nat) : Int × Bool :=
  if v = 0 then (v, true)
  else if bitcount + BigInt.absValNumBits v > maxBigIntBits then (v, false)
  else (v * 2 ^ bitcount, validRange (v * 2 ^ bitcount))

/-- `checkedRightShift`, with its own answer for shifts that leave nothing. -/
def checkedRightShift (v : Int) (bitcount : Nat) : Int × Bool :=
  if v = 0 then (v, true)
  else if bitcount ≥ BigInt.absValNumBits v then (if v.sign < 0 then -1 else 0, true)
  else (v >>> bitcount, validRange (v >>> bitcount))

end ScriptBigInt

open ScriptBigInt

/-! ### The source: `FastBigNum` -/

/-- `FastBigNum`: a `CScriptNum` or a `ScriptBigInt`. -/
inductive FastBigNum
  | csn (v : Int)
  | sbi (v : Int)
  deriving DecidableEq, Repr

/-- The constructor of `ScriptBigInt`. -/
def scriptBigInt (vch : List UInt8) (fRequireMinimal : Bool) (maxIntegerSize : Nat) :
    Except ScriptError Int := do
  throwIfInvalidScriptNumEncoding vch fRequireMinimal maxIntegerSize
  match BigInt.unserialize vch with
  | some v => pure v
  | none => throw .unknown

/-- The constructor of `FastBigNum`. -/
def fastBigNum (vch : List UInt8) (fRequireMinimal : Bool) (maxIntegerSize : Nat) :
    Except ScriptError FastBigNum :=
  if maxIntegerSize ≤ 8 then .csn <$> cScriptNum vch fRequireMinimal maxIntegerSize
  else
    match if vch.length ≤ 8 then cScriptNum vch fRequireMinimal 8 else .error .unknown with
    | .ok v => .ok (.csn v)
    | .error _ => .sbi <$> scriptBigInt vch fRequireMinimal maxIntegerSize

namespace FastBigNum

/-- `FastBigNum::fromIntUnchecked`. -/
def fromIntUnchecked (x : Int) : FastBigNum :=
  match CScriptNum.fromInt x with
  | some x => .csn x
  | none => .sbi x

/-- The `ScriptBigInt` with its return value. -/
def onBig (result : Option (Int × Bool)) : Option (FastBigNum × Bool) :=
  result.map fun r => (.sbi r.1, r.2)

/-- `doInPlaceSafeArithOp`. -/
def doInPlaceSafeArithOp (op undo : ArithOpType) :
    FastBigNum → FastBigNum → Option (FastBigNum × Bool)
  | .csn v, .csn x =>
    match CScriptNum.safe op v x with
    | some result => some (.csn result, true)
    | none => onBig (safeInPlace BigInt.arith op undo v x)
  | .sbi v, .sbi x => onBig (safeInPlace BigInt.arith op undo v x)
  | .csn v, .sbi x =>
    match ((BigInt.getInt x).bind CScriptNum.fromInt).bind (CScriptNum.safe op v) with
    | some result => some (.csn result, true)
    | none => onBig (safeInPlace BigInt.arith op undo v x)
  | .sbi v, .csn x => onBig (safeInPlace BigInt.applyArithOp op undo v x)

/-- `safeAddInPlace`. -/
def safeAddInPlace : FastBigNum → FastBigNum → Option (FastBigNum × Bool) :=
  doInPlaceSafeArithOp .add .sub

/-- `safeSubInPlace`. -/
def safeSubInPlace : FastBigNum → FastBigNum → Option (FastBigNum × Bool) :=
  doInPlaceSafeArithOp .sub .add

/-- `safeMulInPlace`. -/
def safeMulInPlace : FastBigNum → FastBigNum → Option (FastBigNum × Bool) :=
  doInPlaceSafeArithOp .mul .div

/-- `isZero`. -/
def isZero : FastBigNum → Bool
  | .csn v => v = 0
  | .sbi v => v.sign = 0

/-- `doInPlaceArithOp`, with the native operator given. -/
def doInPlaceArithOp (native : Int → Int → Int) (op : ArithOpType) :
    FastBigNum → FastBigNum → Option FastBigNum
  | .csn v, .csn x => some (.csn (native v x))
  | .sbi v, .sbi x => (BigInt.arith op v x).map .sbi
  | .csn v, .sbi x =>
    match (BigInt.getInt x).bind CScriptNum.fromInt with
    | some x => some (.csn (native v x))
    | none => (BigInt.arith op v x).map .sbi
  | .sbi v, .csn x => (BigInt.applyArithOp op v x).map .sbi

/-- `operator/=`. -/
def div (a o : FastBigNum) : Option FastBigNum :=
  if o.isZero then none else doInPlaceArithOp CScriptNum.div .div a o

/-- `operator%=`. -/
def mod (a o : FastBigNum) : Option FastBigNum :=
  if o.isZero then none else doInPlaceArithOp CScriptNum.mod .mod a o

/-- `negate`. -/
def negate : FastBigNum → FastBigNum
  | .csn v => .csn (if CScriptNum.validRange v then -v else v)
  | .sbi v => .sbi (-v)

/-- `FastBigNum::checkedLeftShift`. -/
def checkedLeftShift (bitcount : Nat) : FastBigNum → FastBigNum × Bool
  | .csn v =>
    let native := CScriptNum.checkedLeftShift v bitcount
    if native.2 then (.csn native.1, true)
    else
      -- The value is the one from before the attempt.
      let big := ScriptBigInt.checkedLeftShift v bitcount
      (.sbi big.1, big.2)
  | .sbi v =>
    let big := ScriptBigInt.checkedLeftShift v bitcount
    (.sbi big.1, big.2)

/-- `FastBigNum::checkedRightShift`. -/
def checkedRightShift (bitcount : Nat) : FastBigNum → FastBigNum × Bool
  | .csn v =>
    let native := CScriptNum.checkedRightShift v bitcount
    (.csn native.1, native.2)
  | .sbi v =>
    let big := ScriptBigInt.checkedRightShift v bitcount
    (.sbi big.1, big.2)

/-- `operator<=>`. A native number on the left of a big one is compared from the right. -/
def spaceship : FastBigNum → FastBigNum → Ordering
  | .csn v, .csn x => compare v x
  | .sbi v, .sbi x => compare (BigInt.compare v x) 0
  | .csn v, .sbi x => compare 0 (BigInt.compare x v)
  | .sbi v, .csn x => compare (BigInt.compare v x) 0

/-- `FastBigNum::getvch`. -/
def getvch : FastBigNum → Option (List UInt8)
  | .csn v => some (scriptNumSerialize v)
  | .sbi v => BigInt.serialize v

end FastBigNum

open FastBigNum

/-! ### Ranges -/

/-- Integers of at most `B` bits, seen from their magnitude. -/
theorem natAbs_lt_two_pow_iff (B : Nat) (x : Int) :
    x.natAbs < 2 ^ B ↔ -(2 ^ B - 1) ≤ x ∧ x ≤ 2 ^ B - 1 := by
  have hcast : ((2 ^ B : Nat) : Int) = 2 ^ B := by push_cast; rfl
  rw [← hcast]
  omega

theorem ScriptBigInt.validRange_iff {x : Int} :
    validRange x = true ↔ x.natAbs < 2 ^ maxBigIntBits := by
  simp [validRange, natAbs_lt_two_pow_iff]

/-- The native range is `int64_t` without `INT64_MIN`. -/
theorem CScriptNum.validRange_iff {x : Int} :
    int64Range x = true ∧ validRange x = true ↔ x.natAbs < 2 ^ 63 := by
  rw [int64Range_iff, validRange, decide_eq_true_eq]
  omega

theorem CScriptNum.safe_eq :
    safe op v x = if (op.eval v x).natAbs < 2 ^ 63 then some (op.eval v x) else none := by
  unfold safe
  dsimp only
  by_cases h : (op.eval v x).natAbs < 2 ^ 63
  · obtain ⟨h64, hvalid⟩ := validRange_iff.mpr h
    rw [if_pos h, h64, hvalid]
    rfl
  · have hnot := mt validRange_iff.mp h
    rw [if_neg h, if_pos]
    rw [← Bool.not_and, not_eq_true', ← not_eq_true, and_eq_true]
    exact hnot

variable {x : Int}

/-- A big number that is read back as a native one keeps its value. -/
theorem eq_of_getInt_fromInt {y : Int} (h : (BigInt.getInt x).bind CScriptNum.fromInt = some y) :
    y = x ∧ x.natAbs < 2 ^ 63 := by
  unfold BigInt.getInt at h
  split at h
  next h64 =>
    rw [Option.bind_some, CScriptNum.fromInt] at h
    split at h
    next hvalid => exact ⟨(Option.some.inj h).symm, CScriptNum.validRange_iff.mp ⟨h64, hvalid⟩⟩
    · cases h
  · cases h

variable {v : Int}

/-- **Shifts and bits.** The test before the shift is the test of the range behind it. -/
theorem add_absValNumBits_le_iff (hv : v ≠ 0) (n B : Nat) :
    n + BigInt.absValNumBits v ≤ B ↔ v.natAbs * 2 ^ n < 2 ^ B := by
  have hpos : 0 < v.natAbs := natAbs_pos.mpr hv
  have hsize : BigInt.absValNumBits v = v.natAbs.size :=
    Nat.max_eq_right (Nat.size_pos.mpr hpos)
  rw [hsize]
  rcases Nat.le_total n B with hn | hn
  · calc n + v.natAbs.size ≤ B ↔ v.natAbs.size ≤ B - n := by omega
      _ ↔ v.natAbs < 2 ^ (B - n) := Nat.size_le
      _ ↔ v.natAbs * 2 ^ n < 2 ^ (B - n) * 2 ^ n :=
          (Nat.mul_lt_mul_right (Nat.two_pow_pos n)).symm
      _ ↔ v.natAbs * 2 ^ n < 2 ^ B := by rw [← Nat.pow_add, Nat.sub_add_cancel hn]
  · -- A shift by all the bits leaves no room for the number itself.
    have hsizepos := Nat.size_pos.mpr hpos
    have hbig : 2 ^ B ≤ v.natAbs * 2 ^ n :=
      (Nat.pow_le_pow_right (by norm_num) hn).trans (Nat.le_mul_of_pos_left _ hpos)
    exact iff_of_false (by omega) (Nat.not_lt.mpr hbig)

/-- A shift by at least the number of bits leaves the sign. -/
theorem ediv_two_pow_of_natAbs_lt {k n : Nat} (hv : v.natAbs < 2 ^ k) (hkn : k ≤ n) :
    v / 2 ^ n = if v < 0 then -1 else 0 := by
  have hpow : v.natAbs < 2 ^ n := hv.trans_le (Nat.pow_le_pow_right (by norm_num) hkn)
  have hcast : ((2 ^ n : Nat) : Int) = 2 ^ n := by push_cast; rfl
  rw [← hcast]
  split
  · have h := Int.ediv_emod_unique (a := v) (b := (2 ^ n : Nat)) (r := v + (2 ^ n : Nat)) (q := -1)
      (by omega)
    exact (h.mpr ⟨by omega, by omega, by omega⟩).1
  · exact ediv_eq_zero_of_lt (by omega) (by omega)

/-! ### The operators -/

variable {op : ArithOpType}

theorem BigInt.arith_eq (hx : op.divides = true → x ≠ 0) (v : Int) :
    arith op v x = some (op.eval v x) := by
  refine if_neg fun h => ?_
  rw [and_eq_true, decide_eq_true_eq] at h
  exact hx h.1 h.2

/-- The shortcuts of the `int64_t` overload compute what they skip. -/
theorem BigInt.applyArithOp_eq (hx : op.divides = true → x ≠ 0)
    (v : Int) : applyArithOp op v x = some (op.eval v x) := by
  unfold applyArithOp
  split
  next h =>
    obtain ⟨rfl | rfl, rfl⟩ := h
    · rw [ArithOpType.eval, Int.add_zero]
    · rw [ArithOpType.eval, Int.sub_zero]
  · split
    next h =>
      rw [and_eq_true, decide_eq_true_eq] at h
      exact absurd h.2 (hx h.1)
    · split
      next h =>
        obtain ⟨hadd, hsub, rfl | ⟨hmod, rfl⟩⟩ := h
        · cases op <;> simp_all [ArithOpType.eval]
        · cases op <;> simp_all [ArithOpType.eval]
      · split
        next h =>
          obtain ⟨rfl, rfl⟩ | ⟨rfl, rfl⟩ := h
          · rw [ArithOpType.eval, Int.mul_zero]
          · rw [ArithOpType.eval, tmod_one]
        · rfl

/-- `undo` takes back `op`, where the result is too large. -/
structure Undoes (undo op : ArithOpType) : Prop where
  divides : op.divides = false
  defined {v x : Int} : validRange (op.eval v x) = false →
    undo.divides = true → x ≠ 0
  eval {v x : Int} : validRange (op.eval v x) = false →
    undo.eval (op.eval v x) x = v

theorem undoes_sub_add : Undoes .sub .add where
  divides := rfl
  defined _ h := by cases h
  eval _ := Int.add_sub_cancel _ _

theorem undoes_add_sub : Undoes .add .sub where
  divides := rfl
  defined _ h := by cases h
  eval _ := Int.sub_add_cancel _ _

/-- A product out of range is not zero: the assertion holds. -/
theorem ne_zero_of_mul_out_of_range (h : validRange (v * x) = false) : x ≠ 0 := by
  rintro rfl
  rw [Int.mul_zero, ← not_eq_true, validRange_iff] at h
  exact h (Nat.two_pow_pos _)

theorem undoes_div_mul : Undoes .div .mul where
  divides := rfl
  defined h _ := ne_zero_of_mul_out_of_range h
  eval h := mul_tdiv_cancel _ (ne_zero_of_mul_out_of_range h)

variable {a o : FastBigNum} {undo : ArithOpType} {vch : List UInt8} {fRequireMinimal : Bool}
  {maxIntegerSize : Nat}

namespace FastBigNum

/-- The integer. -/
def value : FastBigNum → Int
  | .csn v => v
  | .sbi v => v

/-- **The invariant.** A `CScriptNum` is never `INT64_MIN`, and a `ScriptBigInt`, which may be
small, is in the range of the consensus rules. -/
def Valid : FastBigNum → Prop
  | .csn v => v.natAbs < 2 ^ 63
  | .sbi v => v.natAbs < 2 ^ maxBigIntBits

theorem two_pow_63_le : 2 ^ 63 ≤ 2 ^ maxBigIntBits :=
  Nat.pow_le_pow_right (by norm_num) (by decide)

theorem Valid.validRange (h : a.Valid) : validRange a.value = true := by
  rw [validRange_iff]
  cases a with
  | csn v => exact lt_of_lt_of_le h two_pow_63_le
  | sbi v => exact h

/-- What a safe operation has to return: the exact result, or the operand as it was. -/
structure IsExact (v result : Int) (r : FastBigNum) (ok : Bool) : Prop where
  valid : r.Valid
  ok_iff : ok = true ↔ validRange result = true
  value_eq : r.value = if ok then result else v

theorem isExact_native {result : Int} (h : result.natAbs < 2 ^ 63) :
    IsExact v result (.csn result) true where
  valid := h
  ok_iff := iff_of_true rfl (Valid.validRange (a := .csn result) h)
  value_eq := rfl

theorem onBig_safeInPlace {arith : ArithOpType → Int → Int → Option Int}
    (harith : ∀ {op : ArithOpType} {x : Int}, (op.divides = true → x ≠ 0) →
      ∀ v, arith op v x = some (op.eval v x))
    (hundo : Undoes undo op) (hv : v.natAbs < 2 ^ maxBigIntBits) :
    ∃ r ok, onBig (safeInPlace arith op undo v x) = some (r, ok) ∧
      IsExact v (op.eval v x) r ok := by
  unfold safeInPlace
  rw [harith (fun h => absurd h (by rw [hundo.divides]; decide)), Option.bind_some]
  split
  next h =>
    exact ⟨_, _, rfl, validRange_iff.mp h, iff_of_true rfl h, rfl⟩
  next h =>
    have h := not_eq_true _ ▸ h
    rw [harith (hundo.defined h), hundo.eval h]
    exact ⟨_, _, rfl, hv, by rw [h], rfl⟩

/-- **Safe operations.** Whatever path is taken, the result is exact, or out of range and undone. -/
theorem doInPlaceSafeArithOp_spec (hundo : Undoes undo op) (ha : a.Valid) :
    ∃ r ok, doInPlaceSafeArithOp op undo a o = some (r, ok) ∧
      IsExact a.value (op.eval a.value o.value) r ok := by
  have hbig := validRange_iff.mp ha.validRange
  match a, o with
  | .csn v, .csn x =>
    rw [doInPlaceSafeArithOp, CScriptNum.safe_eq]
    by_cases hfits : (op.eval v x).natAbs < 2 ^ 63
    · rw [if_pos hfits]
      exact ⟨_, _, rfl, isExact_native hfits⟩
    · rw [if_neg hfits]
      exact onBig_safeInPlace BigInt.arith_eq hundo hbig
  | .sbi v, .sbi x => exact onBig_safeInPlace BigInt.arith_eq hundo hbig
  | .sbi v, .csn x => exact onBig_safeInPlace BigInt.applyArithOp_eq hundo hbig
  | .csn v, .sbi x =>
    rw [doInPlaceSafeArithOp]
    cases hread : (BigInt.getInt x).bind CScriptNum.fromInt with
    | none => exact onBig_safeInPlace BigInt.arith_eq hundo hbig
    | some y =>
      obtain ⟨rfl, -⟩ := eq_of_getInt_fromInt hread
      rw [Option.bind_some, CScriptNum.safe_eq]
      by_cases hfits : (op.eval v y).natAbs < 2 ^ 63
      · rw [if_pos hfits]
        exact ⟨_, _, rfl, isExact_native hfits⟩
      · rw [if_neg hfits]
        exact onBig_safeInPlace BigInt.arith_eq hundo hbig

/-- **Division and remainder.** They do not enlarge the dividend, so that no range is tested. -/
theorem doInPlaceArithOp_spec {native : Int → Int → Int} {op : ArithOpType}
    (hnative : ∀ {v x : Int}, v.natAbs < 2 ^ 63 → native v x = op.eval v x)
    (hle : ∀ v x : Int, (op.eval v x).natAbs ≤ v.natAbs) {a o : FastBigNum} (ha : a.Valid)
    (ho : o.value ≠ 0) :
    ∃ r, doInPlaceArithOp native op a o = some r ∧ r.Valid ∧
      r.value = op.eval a.value o.value := by
  have hbig := (hle a.value o.value).trans_lt (validRange_iff.mp ha.validRange)
  match a, o with
  | .csn v, .csn x => exact ⟨_, rfl, by rw [hnative ha]; exact (hle v x).trans_lt ha, hnative ha⟩
  | .sbi v, .sbi x =>
    have hx : op.divides = true → x ≠ 0 := fun _ => ho
    rw [doInPlaceArithOp, BigInt.arith_eq hx]
    exact ⟨_, rfl, hbig, rfl⟩
  | .sbi v, .csn x =>
    have hx : op.divides = true → x ≠ 0 := fun _ => ho
    rw [doInPlaceArithOp, BigInt.applyArithOp_eq hx]
    exact ⟨_, rfl, hbig, rfl⟩
  | .csn v, .sbi x =>
    rw [doInPlaceArithOp]
    cases hread : (BigInt.getInt x).bind CScriptNum.fromInt with
    | none =>
      have hx : op.divides = true → x ≠ 0 := fun _ => ho
      rw [BigInt.arith_eq hx]
      exact ⟨_, rfl, hbig, rfl⟩
    | some y =>
      obtain ⟨rfl, -⟩ := eq_of_getInt_fromInt hread
      exact ⟨_, rfl, by rw [hnative ha]; exact (hle v y).trans_lt ha, hnative ha⟩

theorem div_spec {a o : FastBigNum} (ha : a.Valid) (ho : o.value ≠ 0) :
    ∃ r, doInPlaceArithOp CScriptNum.div .div a o = some r ∧ r.Valid ∧
      r.value = a.value.tdiv o.value := by
  refine @doInPlaceArithOp_spec CScriptNum.div .div (fun {v x} hv => if_neg fun h => ?_)
    natAbs_tdiv_le_natAbs a o ha ho
  rw [and_eq_true, not_eq_true', (CScriptNum.validRange_iff.mpr hv).2] at h
  cases h.2

theorem mod_spec {a o : FastBigNum} (ha : a.Valid) (ho : o.value ≠ 0) :
    ∃ r, doInPlaceArithOp CScriptNum.mod .mod a o = some r ∧ r.Valid ∧
      r.value = a.value.tmod o.value := by
  refine @doInPlaceArithOp_spec CScriptNum.mod .mod (fun {v x} hv => if_neg fun h => ?_)
    (fun v x => ?_) a o ha ho
  · rw [and_eq_true, not_eq_true', (CScriptNum.validRange_iff.mpr hv).2] at h
    cases h.2
  · show (v.tmod x).natAbs ≤ v.natAbs
    rw [natAbs_tmod]
    exact Nat.mod_le _ _

theorem isZero_iff : o.isZero = true ↔ o.value = 0 := by
  cases o <;> simp [isZero, value]

/-! ### Shifts -/

/-- The native shift succeeds exactly where the product is native. -/
theorem native_checkedLeftShift (hv : v ≠ 0) (n : Nat) :
    CScriptNum.checkedLeftShift v n =
      if (v * 2 ^ n).natAbs < 2 ^ 63 then (v * 2 ^ n, true) else (v, false) := by
  have habs : (v * 2 ^ n).natAbs = v.natAbs * 2 ^ n := by
    rw [natAbs_mul, natAbs_pow]; rfl
  unfold CScriptNum.checkedLeftShift
  rw [if_neg hv]
  by_cases h : v.natAbs * 2 ^ n < 2 ^ 63
  · have hbits := (add_absValNumBits_le_iff hv n 63).mpr h
    have hwrap : wrap64 (v.natAbs * 2 ^ n % 2 ^ 64 : Nat) = v.natAbs * 2 ^ n := by
      rw [Nat.mod_eq_of_lt (by omega), wrap64_of_range (by omega) (by omega)]
      push_cast
      rfl
    have hsign : (if v < 0 then -((v.natAbs : Int) * 2 ^ n) else v.natAbs * 2 ^ n) = v * 2 ^ n := by
      split
      next hneg =>
        have hv : (v.natAbs : Int) = -v := by omega
        rw [hv]
        ring
      next hneg =>
        have hv : (v.natAbs : Int) = v := by omega
        rw [hv]
    have hfits : (v * 2 ^ n).natAbs < 2 ^ 63 := habs ▸ h
    dsimp only
    rw [if_neg (by omega), hwrap, hsign, if_pos hfits, (CScriptNum.validRange_iff.mpr hfits).2]
  · have hbits := (add_absValNumBits_le_iff hv n 63).not.mpr h
    rw [if_pos (by omega), if_neg (habs ▸ h)]

theorem big_checkedLeftShift (v : Int) (n : Nat) :
    ScriptBigInt.checkedLeftShift v n =
      if ScriptBigInt.validRange (v * 2 ^ n) then (v * 2 ^ n, true) else (v, false) := by
  unfold ScriptBigInt.checkedLeftShift
  by_cases hzero : v = 0
  · rw [hzero, if_pos rfl, Int.zero_mul,
      if_pos (ScriptBigInt.validRange_iff.mpr (Nat.two_pow_pos _))]
  · have hrange : n + BigInt.absValNumBits v ≤ ScriptBigInt.maxBigIntBits ↔
        ScriptBigInt.validRange (v * 2 ^ n) = true := by
      rw [add_absValNumBits_le_iff hzero, ScriptBigInt.validRange_iff, natAbs_mul, natAbs_pow]
      rfl
    rw [if_neg hzero]
    by_cases h : ScriptBigInt.validRange (v * 2 ^ n) = true
    · have := hrange.mpr h
      rw [if_neg (by omega), if_pos h, h]
    · have := hrange.not.mpr h
      rw [if_pos (by omega), if_neg h]

/-- **The left shift is exact.** A number that was not shifted stays what it was. -/
theorem checkedLeftShift_spec (ha : a.Valid) (n : Nat) :
    IsExact a.value (a.value * 2 ^ n) (a.checkedLeftShift n).1 (a.checkedLeftShift n).2 := by
  have hbig := ScriptBigInt.validRange_iff.mp ha.validRange
  have onBig : IsExact a.value (a.value * 2 ^ n)
      (.sbi (ScriptBigInt.checkedLeftShift a.value n).1)
      (ScriptBigInt.checkedLeftShift a.value n).2 := by
    rw [big_checkedLeftShift]
    split
    next h => exact ⟨ScriptBigInt.validRange_iff.mp h, iff_of_true rfl h, rfl⟩
    next h => exact ⟨hbig, iff_of_false Bool.false_ne_true h, rfl⟩
  cases a with
  | sbi v => exact onBig
  | csn v =>
    unfold checkedLeftShift
    dsimp only
    by_cases hzero : v = 0
    · subst hzero
      show IsExact 0 (0 * 2 ^ n) (.csn 0) true
      rw [Int.zero_mul]
      exact isExact_native (by decide)
    · rw [native_checkedLeftShift hzero]
      by_cases h : (v * 2 ^ n).natAbs < 2 ^ 63
      · rw [if_pos h]
        exact isExact_native h
      · rw [if_neg h]
        exact onBig

/-- **The right shift is a floored quotient**, also for negative numbers, and never fails. -/
theorem checkedRightShift_spec (ha : a.Valid) (n : Nat) :
    ∃ r, a.checkedRightShift n = (r, true) ∧ r.Valid ∧ r.value = a.value / 2 ^ n := by
  have hle := natAbs_ediv_le_natAbs a.value (2 ^ n)
  cases a with
  | csn v =>
    unfold checkedRightShift CScriptNum.checkedRightShift
    by_cases hzero : v = 0
    · subst hzero
      exact ⟨_, rfl, ha, (zero_ediv _).symm⟩
    · have hshift : v >>> min n 63 = v / 2 ^ n := by
        rw [shiftRight_eq_div_pow]
        rcases Nat.le_total n 63 with hn | hn
        · rw [Nat.min_eq_left hn]
          push_cast
          rfl
        · -- Behind 63 positions nothing changes any more.
          rw [Nat.min_eq_right hn, ediv_two_pow_of_natAbs_lt ha hn]
          exact ediv_two_pow_of_natAbs_lt ha le_rfl
      have hvalid : (v / 2 ^ n).natAbs < 2 ^ 63 := hle.trans_lt ha
      dsimp only
      rw [if_neg hzero, hshift, (CScriptNum.validRange_iff.mpr hvalid).2]
      exact ⟨_, rfl, hvalid, rfl⟩
  | sbi v =>
    unfold checkedRightShift ScriptBigInt.checkedRightShift
    by_cases hzero : v = 0
    · subst hzero
      exact ⟨_, rfl, ha, (zero_ediv _).symm⟩
    · have hvalid : (v / 2 ^ n).natAbs < 2 ^ ScriptBigInt.maxBigIntBits := hle.trans_lt ha
      dsimp only
      rw [if_neg hzero]
      by_cases hn : n ≥ BigInt.absValNumBits v
      · have hsize : v.natAbs < 2 ^ BigInt.absValNumBits v := Nat.size_le.mp (Nat.le_max_right _ _)
        have hdiv := ediv_two_pow_of_natAbs_lt hsize hn
        have hsign : v.sign < 0 ↔ v < 0 := sign_neg_iff
        rw [if_pos hn]
        simp only [hsign]
        exact ⟨_, rfl, hdiv ▸ hvalid, hdiv.symm⟩
      · have hshift : v >>> n = v / 2 ^ n := by
          rw [shiftRight_eq_div_pow]
          push_cast
          rfl
        rw [if_neg hn, hshift, ScriptBigInt.validRange_iff.mpr hvalid]
        exact ⟨_, rfl, hvalid, rfl⟩

/-! ### Order and bytes -/

theorem compare_sign_zero : compare (BigInt.compare v x) 0 = compare v x := by
  rcases lt_trichotomy v x with h | h | h
  · rw [compare_lt_iff_lt.mpr h, compare_lt_iff_lt]
    exact sign_neg_iff.mpr (Int.sub_neg_of_lt h)
  · rw [h, compare_eq_iff_eq.mpr rfl, compare_eq_iff_eq, BigInt.compare, Int.sub_self]
    rfl
  · rw [compare_gt_iff_gt.mpr h, compare_gt_iff_gt]
    exact sign_pos_iff.mpr (Int.sub_pos_of_lt h)

theorem spaceship_eq : a.spaceship o = compare a.value o.value := by
  cases a with
  | csn v =>
    cases o with
    | csn x => rfl
    | sbi x =>
      show compare 0 (BigInt.compare x v) = compare v x
      rw [Std.OrientedOrd.eq_swap, compare_sign_zero, ← Std.OrientedOrd.eq_swap]
  | sbi v => cases o <;> exact compare_sign_zero

/-- **The bytes are those of the integer**, whatever represents it. -/
theorem getvch_eq (ha : a.Valid) : a.getvch = some (encode a.value) := by
  cases a with
  | csn v => exact congrArg some (scriptNumSerialize_eq_encode (lt_trans ha (by norm_num)))
  | sbi v => exact BigInt.serialize_eq v

/-! ### Numbers a script can get hold of -/

/-- A string of at most ten thousand bytes stands for a number in the range. -/
theorem natAbs_value_lt (h : vch.length ≤ may2025MaxScriptElementSize) :
    (SignMagnitude.value vch).natAbs < 2 ^ maxBigIntBits := by
  rw [natAbs_value]
  rcases List.eq_nil_or_concat vch with rfl | ⟨l, b, hvch⟩
  · exact Nat.two_pow_pos _
  · rw [List.concat_eq_append] at hvch
    rw [hvch, List.length_append, List.length_singleton] at h
    have hbits : 8 * l.length + 7 ≤ maxBigIntBits := by
      show 8 * l.length + 7 ≤ may2025MaxScriptElementSize * 8 - 1
      omega
    rw [hvch]
    exact (magnitude_lt l b).trans_le (Nat.pow_le_pow_right (by norm_num) hbits)

theorem length_le_of_throwIfInvalid
    (h : throwIfInvalidScriptNumEncoding vch fRequireMinimal maxIntegerSize = .ok ()) :
    vch.length ≤ maxIntegerSize := by
  unfold throwIfInvalidScriptNumEncoding at h
  split at h
  · cases h
  · omega

theorem valid_of_cScriptNum
    (h : cScriptNum vch fRequireMinimal maxIntegerSize = .ok v) : (csn v).Valid :=
  natAbs_cScriptNum h

theorem valid_of_scriptBigInt (hmax : maxIntegerSize ≤ may2025MaxScriptElementSize)
    (h : scriptBigInt vch fRequireMinimal maxIntegerSize = .ok v) : (sbi v).Valid := by
  unfold scriptBigInt at h
  rw [BigInt.unserialize_eq] at h
  obtain ⟨⟨⟩, hcheck, hv⟩ := Outcome.bind_ok_iff.mp h
  rw [← Except.ok.inj hv]
  exact natAbs_value_lt ((length_le_of_throwIfInvalid hcheck).trans hmax)

theorem valid_of_fastBigNum (hmax : maxIntegerSize ≤ may2025MaxScriptElementSize)
    (h : fastBigNum vch fRequireMinimal maxIntegerSize = .ok a) : a.Valid := by
  unfold fastBigNum at h
  split at h
  · cases hv : cScriptNum vch fRequireMinimal maxIntegerSize with
    | error e => rw [hv] at h; cases h
    | ok v => rw [hv] at h; exact Except.ok.inj h ▸ valid_of_cScriptNum hv
  · split at h
    next v hv =>
      split at hv
      · exact Except.ok.inj h ▸ valid_of_cScriptNum hv
      · cases hv
    · cases hv : scriptBigInt vch fRequireMinimal maxIntegerSize with
      | error e => rw [hv] at h; cases h
      | ok v => rw [hv] at h; exact Except.ok.inj h ▸ valid_of_scriptBigInt hmax hv

/-- **Operands.** They are read from bytes, made from an integer of the node, or left by an
operation, also by one that failed. -/
inductive Obtained : FastBigNum → Prop
  | ofBytes {vch : List UInt8} {fRequireMinimal : Bool} {maxIntegerSize : Nat} {a : FastBigNum} :
      maxIntegerSize ≤ may2025MaxScriptElementSize →
      fastBigNum vch fRequireMinimal maxIntegerSize = .ok a → Obtained a
  | ofInt {x : Int} : int64Range x = true → Obtained (fromIntUnchecked x)
  | safeAdd {a o r : FastBigNum} {ok : Bool} :
      Obtained a → Obtained o → a.safeAddInPlace o = some (r, ok) → Obtained r
  | safeSub {a o r : FastBigNum} {ok : Bool} :
      Obtained a → Obtained o → a.safeSubInPlace o = some (r, ok) → Obtained r
  | safeMul {a o r : FastBigNum} {ok : Bool} :
      Obtained a → Obtained o → a.safeMulInPlace o = some (r, ok) → Obtained r
  | div {a o r : FastBigNum} : Obtained a → Obtained o → a.div o = some r → Obtained r
  | mod {a o r : FastBigNum} : Obtained a → Obtained o → a.mod o = some r → Obtained r
  | negate {a : FastBigNum} : Obtained a → Obtained a.negate
  | leftShift {a : FastBigNum} (bitcount : Nat) :
      Obtained a → Obtained (a.checkedLeftShift bitcount).1
  | rightShift {a : FastBigNum} (bitcount : Nat) :
      Obtained a → Obtained (a.checkedRightShift bitcount).1

theorem Valid.safe (hundo : Undoes undo op) {r : FastBigNum} {ok : Bool}
    (ha : a.Valid) (h : doInPlaceSafeArithOp op undo a o = some (r, ok)) : r.Valid := by
  obtain ⟨r', ok', h', hexact⟩ := doInPlaceSafeArithOp_spec (o := o) hundo ha
  cases h.symm.trans h'
  exact hexact.valid

theorem Valid.negate (ha : a.Valid) : a.negate.Valid := by
  cases a with
  | csn v =>
    show (if _ then -v else v).natAbs < 2 ^ 63
    split
    · rw [natAbs_neg]
      exact ha
    · exact ha
  | sbi v =>
    show (-v).natAbs < _
    rw [natAbs_neg]
    exact ha

/-- **The invariant holds of every operand.** -/
theorem Obtained.valid (h : a.Obtained) : a.Valid := by
  induction h with
  | ofBytes hmax h => exact valid_of_fastBigNum hmax h
  | @ofInt x h64 =>
    unfold fromIntUnchecked CScriptNum.fromInt
    by_cases hvalid : CScriptNum.validRange x = true
    · rw [if_pos hvalid]
      exact CScriptNum.validRange_iff.mp ⟨h64, hvalid⟩
    · -- `INT64_MIN` is kept as a big number.
      rw [if_neg hvalid]
      rw [int64Range_iff] at h64
      have hx : x.natAbs < 2 ^ 64 := by omega
      exact hx.trans_le (Nat.pow_le_pow_right (by norm_num) (by decide))
  | safeAdd _ _ h iha _ => exact iha.safe undoes_sub_add h
  | safeSub _ _ h iha _ => exact iha.safe undoes_add_sub h
  | safeMul _ _ h iha _ => exact iha.safe undoes_div_mul h
  | @div a o r _ _ h iha _ =>
    unfold FastBigNum.div at h
    split at h
    · cases h
    next hzero =>
      obtain ⟨r', h', hr, -⟩ := div_spec iha (isZero_iff.not.mp hzero)
      exact Option.some.inj (h'.symm.trans h) ▸ hr
  | @mod a o r _ _ h iha _ =>
    unfold FastBigNum.mod at h
    split at h
    · cases h
    next hzero =>
      obtain ⟨r', h', hr, -⟩ := mod_spec iha (isZero_iff.not.mp hzero)
      exact Option.some.inj (h'.symm.trans h) ▸ hr
  | negate _ ih => exact ih.negate
  | leftShift n _ ih => exact (checkedLeftShift_spec ih n).valid
  | rightShift n _ ih =>
    obtain ⟨r, h, hr, -⟩ := checkedRightShift_spec ih n
    rw [h]
    exact hr

/-! ### Exact arithmetic -/

/-- The integers of the consensus rules. -/
def InRange (z : Int) : Prop := -(2 ^ 79999 - 1) ≤ z ∧ z ≤ 2 ^ 79999 - 1

theorem inRange_iff {z : Int} : InRange z ↔ validRange z = true := by
  have hbits : maxBigIntBits = 79999 := by decide
  unfold InRange
  rw [validRange_iff, natAbs_lt_two_pow_iff, hbits]

theorem IsExact.inRange {result : Int} {r : FastBigNum} {ok : Bool} (h : IsExact v result r ok) :
    (ok = true ↔ InRange result) ∧ (ok = true → r.value = result) := by
  refine ⟨h.ok_iff.trans inRange_iff.symm, fun hok => ?_⟩
  rw [h.value_eq, if_pos hok]

theorem exists_inRange (hundo : Undoes undo op) (ha : a.Valid) :
    ∃ r ok, doInPlaceSafeArithOp op undo a o = some (r, ok) ∧
      (ok = true ↔ InRange (op.eval a.value o.value)) ∧
      (ok = true → r.value = op.eval a.value o.value) := by
  obtain ⟨r, ok, h, hexact⟩ := doInPlaceSafeArithOp_spec (o := o) hundo ha
  exact ⟨r, ok, h, hexact.inRange⟩

end FastBigNum

open FastBigNum in
/-- **`FastBigNum` computes with integers.** Each operation is a function of the values of its
operands, however they are represented. -/
theorem fastBigNum_exact {a o : FastBigNum} (ha : a.Obtained) (ho : o.Obtained) :
    (∃ r ok, a.safeAddInPlace o = some (r, ok) ∧ (ok = true ↔ InRange (a.value + o.value)) ∧
      (ok = true → r.value = a.value + o.value)) ∧
    (∃ r ok, a.safeSubInPlace o = some (r, ok) ∧ (ok = true ↔ InRange (a.value - o.value)) ∧
      (ok = true → r.value = a.value - o.value)) ∧
    (∃ r ok, a.safeMulInPlace o = some (r, ok) ∧ (ok = true ↔ InRange (a.value * o.value)) ∧
      (ok = true → r.value = a.value * o.value)) ∧
    (o.value ≠ 0 →
      (∃ r, a.div o = some r ∧ r.value = a.value.tdiv o.value) ∧
      (∃ r, a.mod o = some r ∧ r.value = a.value.tmod o.value)) ∧
    (∀ bitcount, ∃ r ok, a.checkedLeftShift bitcount = (r, ok) ∧
      (ok = true ↔ InRange (a.value * 2 ^ bitcount)) ∧
      (ok = true → r.value = a.value * 2 ^ bitcount)) ∧
    (∀ bitcount, ∃ r, a.checkedRightShift bitcount = (r, true) ∧
      r.value = a.value.fdiv (2 ^ bitcount)) ∧
    a.spaceship o = compare a.value o.value ∧
    a.getvch = some (encode a.value) ∧
    (a.value = o.value → a.getvch = o.getvch) := by
  have hva := ha.valid
  have hvo := ho.valid
  refine ⟨exists_inRange undoes_sub_add hva, exists_inRange undoes_add_sub hva,
    exists_inRange undoes_div_mul hva, fun hzero => ?_, fun n => ?_, fun n => ?_,
    spaceship_eq, getvch_eq hva, fun heq => ?_⟩
  · have hnot : ¬o.isZero = true := isZero_iff.not.mpr hzero
    obtain ⟨q, hq, -, hqv⟩ := div_spec hva hzero
    obtain ⟨r, hr, -, hrv⟩ := mod_spec hva hzero
    exact ⟨⟨q, (if_neg hnot).trans hq, hqv⟩, ⟨r, (if_neg hnot).trans hr, hrv⟩⟩
  · exact ⟨_, _, rfl, (checkedLeftShift_spec hva n).inRange⟩
  · obtain ⟨r, hr, -, hrv⟩ := checkedRightShift_spec hva n
    refine ⟨r, hr, ?_⟩
    rw [hrv, fdiv_eq_ediv_of_nonneg _ (by positivity)]
  · rw [getvch_eq hva, getvch_eq hvo, heq]

/-- `INT64_MIN`, which is kept as a big number, with a native one. -/
theorem fastBigNum_exact_mixed :
    fromIntUnchecked (-2 ^ 63) = .sbi (-2 ^ 63) ∧
    (∃ r, (fromIntUnchecked (-2 ^ 63)).mod (.fromIntUnchecked 3) = some r ∧
      r.value = -2) ∧
    (∃ r, (fromIntUnchecked (-2 ^ 63)).checkedRightShift 70 = (r, true) ∧ r.value = -1) ∧
    (fromIntUnchecked (-2 ^ 63)).spaceship (.fromIntUnchecked 3) = .lt :=
  have h := fastBigNum_exact (a := .fromIntUnchecked (-2 ^ 63)) (o := .fromIntUnchecked 3)
    (.ofInt (by decide)) (.ofInt (by decide))
  ⟨by decide, (h.2.2.2.1 (by decide)).2, h.2.2.2.2.2.1 70, h.2.2.2.2.2.2.1⟩

end DeVault
