import DeVault.Lib.SignMagnitude
import DeVault.Primitives.Transaction

/-!
# Numbers and pushes in scripts (`CScriptNum::serialize`, `CScript::operator<<`)

A script number is written as the little-endian bytes of its absolute value,
without leading zeros, with the sign in the top bit of the last byte. A push puts
the length in front of the data.
-/

namespace DeVault

open SignMagnitude
open UInt8 (ofNat)

/-- The bytes of a number up to the highest that is not zero. The loop runs at most once for each
byte of a `uint64_t`. -/
def magnitudeBytes : Nat → Nat → List UInt8
  | 0, _ => []
  | fuel + 1, n => if n = 0 then [] else ofNat (n % 256) :: magnitudeBytes fuel (n / 256)

/-- `CScriptNum::serialize`. -/
def scriptNumSerialize (value : Int) : List UInt8 :=
  if value = 0 then []
  else
    let result := magnitudeBytes 8 value.natAbs
    let back := result.getLast?.getD 0
    if back &&& 0x80 ≠ 0 then result ++ [if value < 0 then 0x80 else 0]
    else if value < 0 then result.dropLast ++ [back ||| 0x80]
    else result

/-- `OP_PUSHDATA1`. -/
def opPushData1 : UInt8 := 0x4c

/-- The push of a byte vector, `CScript::operator<<`. -/
def pushData (b : List UInt8) : CScript :=
  if b.length < 0x4c then ofNat b.length :: b
  else if b.length ≤ 0xff then opPushData1 :: ofNat b.length :: b
  else if b.length ≤ 0xffff then
    0x4d :: ofNat (b.length % 256) :: ofNat (b.length / 256) :: b
  else
    0x4e :: ofNat (b.length % 256) :: ofNat (b.length / 256 % 256) ::
      ofNat (b.length / 65536 % 256) :: ofNat (b.length / 16777216) :: b

/-! ### Reading a number back -/

theorem magnitudeBytes_eq_bytesOf {fuel n : Nat} (h : n < 256 ^ fuel) :
    magnitudeBytes fuel n = bytesOf n := by
  induction fuel generalizing n with
  | zero =>
    obtain rfl : n = 0 := by simpa using h
    exact bytesOf_zero.symm
  | succ fuel ih =>
    rw [magnitudeBytes]
    split
    next hn => rw [hn, bytesOf_zero]
    next hn =>
      have hdiv : n / 256 < 256 ^ fuel := by
        rw [Nat.div_lt_iff_lt_mul (by decide), ← Nat.pow_succ]
        exact h
      rw [ih hdiv, bytesOf, bytesOf, Nat.digits_def' (by norm_num) (Nat.pos_of_ne_zero hn),
        List.map_cons]

theorem length_magnitudeBytes_le (fuel n : Nat) : (magnitudeBytes fuel n).length ≤ fuel := by
  induction fuel generalizing n with
  | zero => exact Nat.le_refl 0
  | succ fuel ih =>
    rw [magnitudeBytes]
    split
    · exact Nat.zero_le _
    · exact Nat.succ_le_succ (ih _)

/-- The bytes of a nonnegative number: its magnitude, with a zero byte on top if
the sign bit would be set. -/
theorem scriptNumSerialize_natCast (n : Nat) :
    scriptNumSerialize n = magnitudeBytes 8 n ∨
      scriptNumSerialize n = magnitudeBytes 8 n ++ [0] := by
  unfold scriptNumSerialize
  have hnonneg : ¬((n : Int) < 0) := Int.not_lt.mpr (Int.natCast_nonneg n)
  simp only [Int.natAbs_natCast, if_neg hnonneg]
  split
  next hzero =>
    obtain rfl : n = 0 := Int.ofNat_eq_zero.mp hzero
    exact Or.inl rfl
  · split
    · exact Or.inr rfl
    · exact Or.inl rfl

/-- The bytes of a nonnegative number determine it. -/
theorem ofLe_scriptNumSerialize {n : Nat} (h : n < 2 ^ 64) :
    Bytes.ofLe (scriptNumSerialize n) = n := by
  have hmag : Bytes.ofLe (magnitudeBytes 8 n) = n := by
    rw [magnitudeBytes_eq_bytesOf h, ofLe_bytesOf]
  rcases scriptNumSerialize_natCast n with heq | heq
  · rw [heq, hmag]
  · rw [heq, Bytes.ofLe_append, hmag]
    rfl

theorem length_scriptNumSerialize_le (n : Nat) : (scriptNumSerialize n).length ≤ 9 := by
  have hlen := length_magnitudeBytes_le 8 n
  rcases scriptNumSerialize_natCast n with heq | heq <;> rw [heq]
  · omega
  · rw [List.length_append, List.length_singleton]
    omega

/-! ### Pushes at the start of a script -/

/-- Two short pushes at the start of one script are the same push. -/
theorem eq_of_pushData_prefix {b b' : List UInt8} {script : CScript} (hb : b.length < 0x4c)
    (hb' : b'.length < 0x4c) (h : pushData b <+: script) (h' : pushData b' <+: script) :
    b = b' := by
  obtain ⟨rest, rfl⟩ := h
  obtain ⟨rest', heq⟩ := h'
  rw [pushData, if_pos hb', pushData, if_pos hb, List.cons_append, List.cons_append,
    List.cons.injEq] at heq
  -- the length byte decides how much is read
  have hlen : b'.length = b.length := by
    have hmod := congrArg UInt8.toNat heq.1
    rw [UInt8.toNat_ofNat', UInt8.toNat_ofNat'] at hmod
    omega
  exact (List.append_inj_left heq.2 hlen).symm

/-- A script starts with the push of at most one number. -/
theorem eq_of_pushes_number {m n : Nat} {script : CScript} (hm : m < 2 ^ 64) (hn : n < 2 ^ 64)
    (h : pushData (scriptNumSerialize m) <+: script)
    (h' : pushData (scriptNumSerialize n) <+: script) : m = n := by
  have hshort : ∀ k : Nat, (scriptNumSerialize k).length < 0x4c := by
    intro k
    have := length_scriptNumSerialize_le k
    omega
  have hbytes := eq_of_pushData_prefix (hshort m) (hshort n) h h'
  calc m = Bytes.ofLe (scriptNumSerialize m) := (ofLe_scriptNumSerialize hm).symm
    _ = Bytes.ofLe (scriptNumSerialize n) := by rw [hbytes]
    _ = n := ofLe_scriptNumSerialize hn

example : pushData (scriptNumSerialize 486604799) = [0x04, 0xff, 0xff, 0x00, 0x1d] := by decide

end DeVault
