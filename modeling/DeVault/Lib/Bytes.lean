import Mathlib

/-!
# Bytes on the wire

A reader takes a value off the front of a byte list and returns what is left, or nothing when the
bytes run out or do not form a value.

For each format there are two facts. The round trip (`readLe_leBytes`) says that reading what was
written gives the value back and leaves the bytes behind it. The converse (`readLe_sound`) says that
a value was read from exactly the bytes that writing it produces, so that no value has two
encodings. `UniqueCode` names both for a format, and `Canonical` the converse for readers and
writers that may fail.
-/

namespace Bytes

open Option List
open UInt8 (lt_iff_toNat_lt ofNat toNat_inj toNat_ofNat')

/-- A reader: the value at the front, and the bytes behind it. -/
abbrev Reader (α : Type) := List UInt8 → Option (α × List UInt8)

/-! ### Little-endian numbers -/

/-- The `w` low bytes of a number, lowest first. -/
def leBytes : Nat → Nat → List UInt8
  | 0, _ => []
  | w + 1, n => ofNat n :: leBytes w (n / 256)

/-- The number with the given bytes, lowest first. -/
def ofLe : List UInt8 → Nat
  | [] => 0
  | b :: bs => b.toNat + 256 * ofLe bs

@[simp] theorem length_leBytes (w n : Nat) : (leBytes w n).length = w := by
  induction w generalizing n with
  | zero => rfl
  | succ w ih => simp [leBytes, ih]

variable {w n : Nat}

theorem ofLe_leBytes (h : n < 256 ^ w) : ofLe (leBytes w n) = n := by
  induction w generalizing n with
  | zero =>
    rw [pow_zero] at h
    show 0 = n
    omega
  | succ w ih =>
    have hdiv : n / 256 < 256 ^ w := by
      apply Nat.div_lt_of_lt_mul
      rwa [pow_succ, mul_comm] at h
    show (ofNat n).toNat + 256 * ofLe (leBytes w (n / 256)) = n
    rw [ih hdiv, toNat_ofNat']
    exact Nat.mod_add_div n 256

theorem leBytes_ofLe (bs : List UInt8) : leBytes bs.length (ofLe bs) = bs := by
  induction bs with
  | nil => rfl
  | cons b bs ih =>
    have hb := b.toNat_lt
    have hhead : ofNat (b.toNat + 256 * ofLe bs) = b := by
      apply toNat_inj.mp
      rw [toNat_ofNat']
      omega
    have htail : (b.toNat + 256 * ofLe bs) / 256 = ofLe bs := by omega
    show ofNat (b.toNat + 256 * ofLe bs) ::
      leBytes bs.length ((b.toNat + 256 * ofLe bs) / 256) = b :: bs
    rw [hhead, htail, ih]

theorem ofLe_lt (bs : List UInt8) : ofLe bs < 256 ^ bs.length := by
  induction bs with
  | nil => exact Nat.one_pos
  | cons b bs ih =>
    have hb := b.toNat_lt
    show b.toNat + 256 * ofLe bs < 256 ^ (bs.length + 1)
    rw [pow_succ]
    omega

theorem ofLe_append (xs ys : List UInt8) :
    ofLe (xs ++ ys) = ofLe xs + 256 ^ xs.length * ofLe ys := by
  induction xs with
  | nil => simp [ofLe]
  | cons x xs ih =>
    rw [cons_append, ofLe, ofLe, ih, length_cons, pow_succ]
    ring

theorem ofLe_replicate_zero : ofLe (replicate n 0) = 0 := by
  induction n with
  | zero => rfl
  | succ n ih =>
    rw [replicate_succ, ofLe, ih]
    rfl

/-- The number with the given bytes, highest first. -/
def ofBe (bs : List UInt8) : Nat := ofLe bs.reverse

theorem ofBe_lt (bs : List UInt8) : ofBe bs < 256 ^ bs.length := by
  have h := ofLe_lt bs.reverse
  rwa [length_reverse] at h

theorem ofBe_append (xs ys : List UInt8) :
    ofBe (xs ++ ys) = ofBe xs * 256 ^ ys.length + ofBe ys := by
  rw [ofBe, reverse_append, ofLe_append, length_reverse, Nat.add_comm, Nat.mul_comm]
  rfl

/-- The first bytes are the quotient and the others the remainder. -/
theorem ofBe_div_mod (bs : List UInt8) (k : Nat) :
    ofBe bs / 256 ^ (bs.length - k) = ofBe (bs.take k) ∧
      ofBe bs % 256 ^ (bs.length - k) = ofBe (bs.drop k) := by
  have happ := ofBe_append (bs.take k) (bs.drop k)
  have hlt := ofBe_lt (bs.drop k)
  rw [take_append_drop] at happ
  rw [length_drop] at happ hlt
  exact (Nat.div_mod_unique (by positivity)).mpr ⟨by rw [happ]; ring, hlt⟩

theorem ofBe_replicate (k : Nat) : ofBe (replicate k 0) = 0 := by
  rw [ofBe, reverse_replicate, ofLe_replicate_zero]

/-- The bytes are the number `v` in `m` bytes, highest first. -/
def IsBe (bs : List UInt8) (m v : Nat) : Prop := bs.length = m ∧ ofBe bs = v

theorem IsBe.append {xs ys : List UInt8} {m n v w : Nat} (hx : IsBe xs m v) (hy : IsBe ys n w) :
    IsBe (xs ++ ys) (m + n) (v * 256 ^ n + w) :=
  ⟨by rw [length_append, hx.1, hy.1], by rw [ofBe_append, hx.2, hy.1, hy.2]⟩

variable {m : Nat}

theorem leBytes_inj (hn : n < 256 ^ w) (hm : m < 256 ^ w)
    (h : leBytes w n = leBytes w m) : n = m := by
  rw [← ofLe_leBytes hn, h, ofLe_leBytes hm]

variable {rest rest' : List UInt8}

/-- Numbers of one width at the front are told from what follows. -/
theorem leBytes_append_inj (hn : n < 256 ^ w) (hm : m < 256 ^ w)
    (h : leBytes w n ++ rest = leBytes w m ++ rest') :
    n = m ∧ rest = rest' := by
  obtain ⟨hbytes, hrest⟩ := append_inj h (by rw [length_leBytes, length_leBytes])
  exact ⟨leBytes_inj hn hm hbytes, hrest⟩

/-- Take a given number of bytes. -/
def readBytes (n : Nat) : Reader (List UInt8) := fun bs =>
  if n ≤ bs.length then some (bs.take n, bs.drop n) else none

theorem readBytes_append (xs rest : List UInt8) :
    readBytes xs.length (xs ++ rest) = some (xs, rest) := by
  simp [readBytes]

variable {bs xs : List UInt8}

theorem readBytes_sound
    (h : readBytes n bs = some (xs, rest)) : xs.length = n ∧ bs = xs ++ rest := by
  unfold readBytes at h
  split at h
  next hle =>
    cases h
    exact ⟨length_take_of_le hle, (take_append_drop n bs).symm⟩
  · cases h

/-- A little-endian number of `w` bytes. -/
def readLe (w : Nat) : Reader Nat := fun bs =>
  (readBytes w bs).map fun r => (ofLe r.1, r.2)

theorem readLe_leBytes (h : n < 256 ^ w) (rest : List UInt8) :
    readLe w (leBytes w n ++ rest) = some (n, rest) := by
  have hread := readBytes_append (leBytes w n) rest
  rw [length_leBytes] at hread
  rw [readLe, hread, map_some, ofLe_leBytes h]

theorem readLe_sound (h : readLe w bs = some (n, rest)) :
    n < 256 ^ w ∧ bs = leBytes w n ++ rest := by
  obtain ⟨⟨xs, rest'⟩, hread, hr⟩ := map_eq_some_iff.mp h
  cases hr
  obtain ⟨rfl, rfl⟩ := readBytes_sound hread
  exact ⟨ofLe_lt xs, by rw [leBytes_ofLe]⟩

/-! ### Two's complement -/

/-- The bit pattern of a signed number of `w` bytes. -/
def ofSigned (w : Nat) (v : Int) : Nat := (v % (256 ^ w : Nat)).toNat

/-- The signed number with a bit pattern of `w` bytes. -/
def toSigned (w n : Nat) : Int := (n : Int).bmod (256 ^ w)

/-- The range of the signed numbers of `w` bytes. -/
def SignedRange (w : Nat) (v : Int) : Prop :=
  -(256 ^ w : Nat) ≤ 2 * v ∧ 2 * v < (256 ^ w : Nat)

theorem ofSigned_lt (w : Nat) (v : Int) : ofSigned w v < 256 ^ w := by
  have hpos : (0 : Int) < (256 ^ w : Nat) := by positivity
  unfold ofSigned
  omega

theorem toSigned_ofSigned {v : Int} (h : SignedRange w v) : toSigned w (ofSigned w v) = v := by
  have hpos : (0 : Int) < (256 ^ w : Nat) := by positivity
  have hcast : (ofSigned w v : Int) = v % (256 ^ w : Nat) :=
    Int.toNat_of_nonneg (Int.emod_nonneg v hpos.ne')
  rw [toSigned, hcast, Int.emod_bmod]
  obtain ⟨hlo, hhi⟩ := h
  exact Int.bmod_eq_of_le_mul_two (by omega) (by omega)

theorem ofSigned_toSigned (h : n < 256 ^ w) : ofSigned w (toSigned w n) = n := by
  have hlt : (n : Int) < (256 ^ w : Nat) := by exact_mod_cast h
  rw [ofSigned, toSigned, Int.bmod_emod, Int.emod_eq_of_lt (by omega) hlt, Int.toNat_natCast]

theorem signedRange_toSigned (hw : 0 < w) (n : Nat) : SignedRange w (toSigned w n) := by
  have hpos : 0 < 256 ^ w := by positivity
  have heven : 2 ∣ 256 ^ w := dvd_pow (by norm_num) hw.ne'
  obtain ⟨half, hhalf⟩ := heven
  have hlo := Int.le_bmod (x := (n : Int)) hpos
  have hhi := Int.bmod_lt (x := (n : Int)) hpos
  unfold SignedRange toSigned
  omega

theorem signed_append_inj {v u : Int} (hv : SignedRange w v) (hu : SignedRange w u)
    (h : leBytes w (ofSigned w v) ++ rest = leBytes w (ofSigned w u) ++ rest') :
    v = u ∧ rest = rest' := by
  obtain ⟨hpattern, hrest⟩ := leBytes_append_inj (ofSigned_lt w v) (ofSigned_lt w u) h
  refine ⟨?_, hrest⟩
  rw [← toSigned_ofSigned hv, hpattern, toSigned_ofSigned hu]

/-! ### Sizes of variable length -/

/-- The encoding of a size: one byte, or a marker and the shortest of three
widths that holds it. -/
def writeCompactSize (n : Nat) : List UInt8 :=
  if n < 253 then [ofNat n]
  else if n < 0x10000 then 253 :: leBytes 2 n
  else if n < 0x100000000 then 254 :: leBytes 4 n
  else 255 :: leBytes 8 n

/-- A number of a given width that needs at least this width. -/
def readWide (w least : Nat) : Reader Nat := fun bs =>
  (readLe w bs).filter fun r => decide (least ≤ r.1)

/-- A size in its shortest form, up to a limit. -/
def readCompactSize (limit : Nat) : Reader Nat
  | [] => none
  | b :: bs =>
    let r :=
      if b < 253 then some (b.toNat, bs)
      else if b = 253 then readWide 2 253 bs
      else if b = 254 then readWide 4 0x10000 bs
      else readWide 8 0x100000000 bs
    r.filter fun r => decide (r.1 ≤ limit)

theorem readWide_leBytes {least : Nat} (hn : n < 256 ^ w) (hleast : least ≤ n) :
    readWide w least (leBytes w n ++ rest) = some (n, rest) := by
  rw [readWide, readLe_leBytes hn]
  simp [Option.filter, hleast]

theorem readWide_sound {least : Nat} (h : readWide w least bs = some (n, rest)) :
    least ≤ n ∧ n < 256 ^ w ∧ bs = leBytes w n ++ rest := by
  obtain ⟨hread, hleast⟩ := filter_eq_some_iff.mp h
  exact ⟨of_decide_eq_true hleast, readLe_sound hread⟩

variable {limit : Nat}

theorem readCompactSize_write (hn : n < 2 ^ 64) (hlimit : n ≤ limit) (rest : List UInt8) :
    readCompactSize limit (writeCompactSize n ++ rest) = some (n, rest) := by
  unfold writeCompactSize
  -- one case per form; the marker decides which reader runs
  split
  next h1 =>
    have hb : ofNat n < 253 := by
      rw [lt_iff_toNat_lt, toNat_ofNat']
      show n % 256 < 253
      omega
    have hval : (ofNat n).toNat = n := by
      rw [toNat_ofNat']
      omega
    simp [readCompactSize, hb, hval, Option.filter, hlimit]
  next h1 =>
  split
  · have hread : readWide 2 253 (leBytes 2 n ++ rest) = some (n, rest) :=
      readWide_leBytes (by omega) (by omega)
    simp [readCompactSize, hread, Option.filter, hlimit]
  next h2 =>
  split
  · have hread : readWide 4 0x10000 (leBytes 4 n ++ rest) = some (n, rest) :=
      readWide_leBytes (by omega) (by omega)
    simp [readCompactSize, hread, Option.filter, hlimit]
  next h3 =>
  have hread : readWide 8 0x100000000 (leBytes 8 n ++ rest) = some (n, rest) :=
    readWide_leBytes (by omega) (by omega)
  simp [readCompactSize, hread, Option.filter, hlimit]

/-- Only the shortest form is read. -/
theorem readCompactSize_sound (h : readCompactSize limit bs = some (n, rest)) :
    n ≤ limit ∧ n < 2 ^ 64 ∧ bs = writeCompactSize n ++ rest := by
  cases bs with
  | nil => exact absurd h (by simp [readCompactSize])
  | cons b bs =>
    obtain ⟨hread, hlimit⟩ := filter_eq_some_iff.mp h
    refine ⟨of_decide_eq_true hlimit, ?_⟩
    -- the bounds of each reader are those under which the same form is written
    split at hread
    next hb =>
      cases hread
      have hlt : b.toNat < 253 := lt_iff_toNat_lt.mp hb
      exact ⟨by omega, by simp [writeCompactSize, hlt]⟩
    next hb =>
    split at hread
    next heq =>
      obtain ⟨hlo, hhi, rfl⟩ := readWide_sound hread
      refine ⟨by omega, ?_⟩
      rw [writeCompactSize, if_neg (by omega), if_pos (by omega), heq]
      rfl
    next hne =>
    split at hread
    next heq =>
      obtain ⟨hlo, hhi, rfl⟩ := readWide_sound hread
      refine ⟨by omega, ?_⟩
      rw [writeCompactSize, if_neg (by omega), if_neg (by omega), if_pos (by omega), heq]
      rfl
    next hne' =>
    obtain ⟨hlo, hhi, rfl⟩ := readWide_sound hread
    have hb255 : b = 255 := by
      apply toNat_inj.mp
      have h1 : ¬b.toNat < 253 := fun hlt => hb (lt_iff_toNat_lt.mpr hlt)
      have h2 : b.toNat ≠ 253 := fun heq => hne (toNat_inj.mp heq)
      have h3 : b.toNat ≠ 254 := fun heq => hne' (toNat_inj.mp heq)
      have h4 := b.toNat_lt
      show b.toNat = 255
      omega
    refine ⟨by omega, ?_⟩
    rw [writeCompactSize, if_neg (by omega), if_neg (by omega), if_neg (by omega), hb255]
    rfl

/-- No code is the start of another. -/
theorem writeCompactSize_append_inj (hn : n < 2 ^ 64) (hm : m < 2 ^ 64)
    (h : writeCompactSize n ++ rest = writeCompactSize m ++ rest') :
    n = m ∧ rest = rest' := by
  have hread := readCompactSize_write hn (by omega : n ≤ 2 ^ 64 - 1) rest
  rw [h, readCompactSize_write hm (by omega) rest'] at hread
  cases hread
  exact ⟨rfl, rfl⟩

/-! ### Byte strings -/

/-- A byte string behind its length. -/
def writeVector (xs : List UInt8) : List UInt8 := writeCompactSize xs.length ++ xs

/-- A byte string of at most `limit` bytes behind its length. -/
def readVector (limit : Nat) : Reader (List UInt8) := fun bs =>
  (readCompactSize limit bs).bind fun r => readBytes r.1 r.2

theorem readVector_write (hlimit : xs.length ≤ limit) (hsize : limit < 2 ^ 64) (rest : List UInt8) :
    readVector limit (writeVector xs ++ rest) = some (xs, rest) := by
  rw [readVector, writeVector, append_assoc,
    readCompactSize_write (lt_of_le_of_lt hlimit hsize) hlimit, bind_some]
  exact readBytes_append xs rest

theorem readVector_sound (h : readVector limit bs = some (xs, rest)) :
    xs.length ≤ limit ∧ bs = writeVector xs ++ rest := by
  obtain ⟨⟨n, bs'⟩, hsize, hbytes⟩ := bind_eq_some_iff.mp h
  obtain ⟨hlimit, -, rfl⟩ := readCompactSize_sound hsize
  obtain ⟨rfl, rfl⟩ := readBytes_sound hbytes
  exact ⟨hlimit, by rw [writeVector, append_assoc]⟩

theorem writeVector_append_inj {ys : List UInt8} (hx : xs.length < 2 ^ 64) (hy : ys.length < 2 ^ 64)
    (h : writeVector xs ++ rest = writeVector ys ++ rest') : xs = ys ∧ rest = rest' := by
  rw [writeVector, writeVector, append_assoc, append_assoc] at h
  obtain ⟨hlen, h⟩ := writeCompactSize_append_inj hx hy h
  exact append_inj h hlen

/-! ### Numbers in base 128

The highest digit comes first. All bytes but the last have the top bit set and stand for a
digit that is one too small, so that no number has two encodings. -/

/-- The bytes before the last one, of which there are at most the given number. -/
def varIntHigh : Nat → Nat → List UInt8
  | 0, _ => []
  | k + 1, n =>
    if n ≤ 127 then [ofNat (n + 128)]
    else varIntHigh k (n / 128 - 1) ++ [ofNat (n % 128 + 128)]

/-- A number of `bits` bits in base 128. -/
def writeVarInt (bits n : Nat) : List UInt8 :=
  if n ≤ 127 then [ofNat n]
  else varIntHigh ((bits + 6) / 7) (n / 128 - 1) ++ [ofNat (n % 128)]

/-- The reader's loop from the number `n` on, which must not leave `bits` bits. -/
def readVarIntFrom (bits : Nat) : List UInt8 → Nat → Option (Nat × List UInt8)
  | [], _ => none
  | b :: bs, n =>
    if (2 ^ bits - 1) / 128 < n then none
    else
      let n := n * 128 + b.toNat % 128
      if b < 128 then some (n, bs)
      else if n = 2 ^ bits - 1 then none
      else readVarIntFrom bits bs (n + 1)

/-- A number of `bits` bits in base 128. -/
def readVarInt (bits : Nat) : Reader Nat := fun bs => readVarIntFrom bits bs 0

variable {bits : Nat}

/-- One digit with the top bit set: the reader goes on with the next number. -/
theorem readVarIntFrom_digit {d : Nat} (hd : d < 128) (hlt : n * 128 + d < 2 ^ bits - 1) :
    readVarIntFrom bits (ofNat (d + 128) :: rest) n =
      readVarIntFrom bits rest (n * 128 + d + 1) := by
  have hval : (ofNat (d + 128)).toNat = d + 128 := by
    rw [toNat_ofNat']
    omega
  have hmore : ¬ ofNat (d + 128) < 128 := by
    rw [lt_iff_toNat_lt, hval]
    exact Nat.not_lt.mpr (Nat.le_add_left 128 d)
  have hmod : (d + 128) % 128 = d := by omega
  rw [readVarIntFrom, if_neg (by omega)]
  simp only [hval, hmod, if_neg hmore]
  rw [if_neg (by omega)]

theorem readVarIntFrom_last {d : Nat} (hd : d < 128) (hlt : n * 128 + d < 2 ^ bits)
    (rest : List UInt8) : readVarIntFrom bits (ofNat d :: rest) n = some (n * 128 + d, rest) := by
  have hval : (ofNat d).toNat = d := by
    rw [toNat_ofNat']
    omega
  have hlast : ofNat d < 128 := by
    rw [lt_iff_toNat_lt, hval]
    exact hd
  rw [readVarIntFrom, if_neg (by omega)]
  simp only [hval, Nat.mod_eq_of_lt hd, if_pos hlast]

/-- The bytes that bring the reader's loop to a number. -/
def varIntRead (bits : Nat) : Nat → List UInt8
  | 0 => []
  | n + 1 => varIntHigh ((bits + 6) / 7) n

/-- The buffer of the writer is long enough. -/
theorem lt_pow_slots (hn : n < 2 ^ bits) : n < 128 ^ ((bits + 6) / 7) := by
  refine lt_of_lt_of_le hn ?_
  rw [show 128 = 2 ^ 7 by rfl, ← pow_mul]
  exact Nat.pow_le_pow_right (by omega) (by omega)

theorem varIntHigh_eq {k l : Nat} (hk : n + 1 < 128 ^ k) (hl : n + 1 < 128 ^ l) :
    varIntHigh k n = varIntHigh l n := by
  induction k generalizing n l with
  | zero =>
    rw [pow_zero] at hk
    omega
  | succ k ih =>
    cases l with
    | zero =>
      rw [pow_zero] at hl
      omega
    | succ l =>
      rw [pow_succ] at hk hl
      rw [varIntHigh, varIntHigh]
      split
      · rfl
      · rw [ih (l := l) (by omega) (by omega)]

/-- The bytes do not depend on the width of the number. -/
theorem writeVarInt_eq {wide : Nat} (hn : n < 2 ^ bits) (hwide : n < 2 ^ wide) :
    writeVarInt bits n = writeVarInt wide n := by
  have hk := lt_pow_slots hn
  have hl := lt_pow_slots hwide
  rw [writeVarInt, writeVarInt]
  split
  · rfl
  · rw [varIntHigh_eq (l := (wide + 6) / 7) (by omega) (by omega)]

theorem varIntRead_digit {d : Nat} (hd : d < 128) (hlt : n * 128 + d + 1 < 2 ^ bits) :
    varIntRead bits (n * 128 + d + 1) = varIntRead bits n ++ [ofNat (d + 128)] := by
  have hpow := lt_pow_slots hlt
  rw [varIntRead]
  generalize hslots : (bits + 6) / 7 = slots at hpow
  cases slots with
  | zero =>
    rw [pow_zero] at hpow
    omega
  | succ k =>
    rw [pow_succ] at hpow
    rw [varIntHigh]
    cases n with
    | zero => rw [if_pos (by omega), Nat.zero_mul, Nat.zero_add, varIntRead, nil_append]
    | succ n =>
      have hquot : ((n + 1) * 128 + d) / 128 - 1 = n := by omega
      have hmod : ((n + 1) * 128 + d) % 128 = d := by omega
      rw [if_neg (by omega), hquot, hmod, varIntRead, hslots,
        varIntHigh_eq (l := k + 1) (by omega) (by rw [pow_succ]; omega)]

theorem writeVarInt_digit {d : Nat} (hd : d < 128) :
    writeVarInt bits (n * 128 + d) = varIntRead bits n ++ [ofNat d] := by
  rw [writeVarInt]
  cases n with
  | zero => rw [if_pos (by omega), Nat.zero_mul, Nat.zero_add, varIntRead, nil_append]
  | succ n =>
    have hquot : ((n + 1) * 128 + d) / 128 - 1 = n := by omega
    have hmod : ((n + 1) * 128 + d) % 128 = d := by omega
    rw [if_neg (by omega), hquot, hmod, varIntRead]

theorem readVarIntFrom_read (hn : n < 2 ^ bits) :
    readVarIntFrom bits (varIntRead bits n ++ rest) 0 = readVarIntFrom bits rest n := by
  induction n using Nat.strongRecOn generalizing rest with
  | ind n ih =>
    cases n with
    | zero => rfl
    | succ n =>
      -- the digits before the last one are those of the quotient
      obtain ⟨q, d, hd, rfl⟩ : ∃ q d, d < 128 ∧ n = q * 128 + d :=
        ⟨n / 128, n % 128, by omega, by omega⟩
      rw [varIntRead_digit hd hn, append_assoc, ih q (by omega) (by omega), singleton_append,
        readVarIntFrom_digit hd (by omega)]

theorem readVarInt_write (hn : n < 2 ^ bits) (rest : List UInt8) :
    readVarInt bits (writeVarInt bits n ++ rest) = some (n, rest) := by
  obtain ⟨q, d, hd, rfl⟩ : ∃ q d, d < 128 ∧ n = q * 128 + d :=
    ⟨n / 128, n % 128, by omega, by omega⟩
  rw [readVarInt, writeVarInt_digit hd, append_assoc, readVarIntFrom_read (by omega),
    singleton_append, readVarIntFrom_last hd hn]

/-- What was read so far, and what follows, is the code of the result. -/
theorem readVarIntFrom_sound (hbits : 7 ≤ bits) (h : readVarIntFrom bits bs n = some (m, rest)) :
    m < 2 ^ bits ∧ varIntRead bits n ++ bs = writeVarInt bits m ++ rest := by
  induction bs generalizing n with
  | nil => cases h
  | cons b bs ih =>
    have hb := b.toNat_lt
    rw [readVarIntFrom] at h
    dsimp only at h
    split at h
    · cases h
    next hle =>
    -- there is room for a digit: the largest number ends in seven ones
    have hlt : n * 128 + b.toNat % 128 < 2 ^ bits := by
      obtain ⟨q, hq⟩ := Nat.pow_dvd_pow 2 hbits
      have hpos := Nat.two_pow_pos bits
      omega
    split at h
    next hlast =>
      have hlast : b.toNat < 128 := lt_iff_toNat_lt.mp hlast
      cases h
      refine ⟨hlt, ?_⟩
      rw [writeVarInt_digit (by omega), Nat.mod_eq_of_lt hlast, UInt8.ofNat_toNat, append_assoc,
        singleton_append]
    next hmore =>
    have hmore : ¬b.toNat < 128 := fun hlt => hmore (lt_iff_toNat_lt.mpr hlt)
    split at h
    · cases h
    · have hdigit : b.toNat % 128 + 128 = b.toNat := by omega
      have hih := ih h
      rwa [varIntRead_digit (by omega) (by omega), hdigit, UInt8.ofNat_toNat, append_assoc,
        singleton_append] at hih

/-! ### Formats with one representation for each value -/

/-- The values of `P` are read back whatever follows, no encoding begins another, and what is read
is such a value in its encoding. -/
structure UniqueCode {α : Type} (read : Reader α) (write : α → List UInt8) (P : α → Prop) :
    Prop where
  read_write : ∀ x rest, P x → read (write x ++ rest) = some (x, rest)
  eq_of_begins : ∀ x y, P x → P y → write x <+: write y → x = y
  of_read : ∀ bs x rest, read bs = some (x, rest) → P x ∧ bs = write x ++ rest

namespace UniqueCode

variable {α : Type} {read read' : Reader α} {write write' : α → List UInt8} {P Q : α → Prop}

theorem of_sound (hwrite : ∀ x rest, P x → read (write x ++ rest) = some (x, rest))
    (hsound : ∀ bs x rest, read bs = some (x, rest) → P x ∧ bs = write x ++ rest) :
    UniqueCode read write P where
  read_write := hwrite
  eq_of_begins := by
    rintro x y hx hy ⟨t, ht⟩
    have hread := hwrite y [] hy
    rw [append_nil, ← ht, hwrite x t hx] at hread
    cases hread
    rfl
  of_read := hsound

/-- What only a wider format can hold, the narrower one refuses. -/
theorem read_eq_none (h : UniqueCode read write P) (h' : UniqueCode read' write' Q)
    (hwide : ∀ x, P x → Q x ∧ write x = write' x) {x : α} (hQ : Q x) (hP : ¬P x)
    (rest : List UInt8) : read (write' x ++ rest) = none := by
  by_contra hne
  obtain ⟨⟨y, rest'⟩, hread⟩ := Option.ne_none_iff_exists'.mp hne
  obtain ⟨hPy, heq⟩ := h.of_read _ y rest' hread
  obtain ⟨hQy, hy⟩ := hwide y hPy
  have hback := h'.read_write x rest hQ
  rw [heq, hy, h'.read_write y rest' hQy] at hback
  cases hback
  exact hP hPy

end UniqueCode

/-- **Numbers in base 128.** The writer may have room for wider numbers than the reader. -/
theorem uniqueCode_varInt {wide : Nat} (hbits : 7 ≤ bits) (hwide : bits ≤ wide) :
    UniqueCode (readVarInt bits) (writeVarInt wide) (· < 2 ^ bits) := by
  have hwrite : ∀ n < 2 ^ bits, writeVarInt wide n = writeVarInt bits n := fun n hn =>
    writeVarInt_eq (hn.trans_le (Nat.pow_le_pow_right (by omega) hwide)) hn
  refine .of_sound (fun n rest hn => ?_) fun bs n rest h => ?_
  · rw [hwrite n hn, readVarInt_write hn]
  · obtain ⟨hn, hbs⟩ := readVarIntFrom_sound hbits h
    exact ⟨hn, by rw [hwrite n hn, ← hbs]; rfl⟩

theorem uniqueCode_compactSize (hlimit : limit < 2 ^ 64) :
    UniqueCode (readCompactSize limit) writeCompactSize (· ≤ limit) :=
  .of_sound (fun _ rest hn => readCompactSize_write (by omega) hn rest) fun _ _ _ h =>
    ⟨(readCompactSize_sound h).1, (readCompactSize_sound h).2.2⟩

/-! ### Values that are read only from their own encoding -/

section Canonical

variable {α : Type} {read : Reader α} {write : α → Option (List UInt8)}

/-- **A canonical format**: what is read is written as the same bytes. The writer may refuse values,
but none that was read. -/
def Canonical (read : Reader α) (write : α → Option (List UInt8)) : Prop :=
  ∀ ⦃bs x rest⦄, read bs = some (x, rest) → ∃ w, write x = some w ∧ bs = w ++ rest

/-- A given number of values, one behind the other. -/
def readList (read : Reader α) : Nat → Reader (List α)
  | 0, bs => some ([], bs)
  | n + 1, bs => (read bs).bind fun r => (readList read n r.2).map fun rs => (r.1 :: rs.1, rs.2)

/-- The values one behind the other. -/
def writeList (write : α → Option (List UInt8)) : List α → Option (List UInt8)
  | [] => some []
  | x :: xs => (write x).bind fun w => (writeList write xs).map fun ws => w ++ ws

/-- Values behind their number, of which there may be `limit`. -/
def readVectorOf (limit : Nat) (read : Reader α) : Reader (List α) := fun bs =>
  (readCompactSize limit bs).bind fun r => readList read r.1 r.2

/-- Values behind their number. -/
def writeVectorOf (write : α → Option (List UInt8)) (xs : List α) : Option (List UInt8) :=
  (writeList write xs).map fun w => writeCompactSize xs.length ++ w

theorem Canonical.list (h : Canonical read write) {xs : List α}
    (hread : readList read n bs = some (xs, rest)) :
    xs.length = n ∧ ∃ w, writeList write xs = some w ∧ bs = w ++ rest := by
  induction n generalizing bs xs with
  | zero =>
    cases hread
    exact ⟨rfl, [], rfl, rfl⟩
  | succ n ih =>
    obtain ⟨⟨x, bs₁⟩, hx, hread⟩ := bind_eq_some_iff.mp hread
    obtain ⟨⟨xs, bs₂⟩, hxs, hr⟩ := map_eq_some_iff.mp hread
    cases hr
    obtain ⟨w, hw, rfl⟩ := h hx
    obtain ⟨hlen, ws, hws, rfl⟩ := ih hxs
    refine ⟨by rw [length_cons, hlen], w ++ ws, ?_, by rw [append_assoc]⟩
    rw [writeList, hw, bind_some, hws, map_some]

/-- What holds of every value that is read holds of the values of a list. -/
theorem forall_of_readList {P : α → Prop} (h : ∀ bs x rest, read bs = some (x, rest) → P x)
    {xs : List α} (hread : readList read n bs = some (xs, rest)) :
    ∀ x ∈ xs, P x := by
  induction n generalizing bs xs with
  | zero =>
    cases hread
    simp
  | succ n ih =>
    obtain ⟨⟨x, bs₁⟩, hx, hread⟩ := bind_eq_some_iff.mp hread
    obtain ⟨⟨xs, bs₂⟩, hxs, hr⟩ := map_eq_some_iff.mp hread
    cases hr
    exact forall_mem_cons.mpr ⟨h _ _ _ hx, ih hxs⟩

/-- **Vectors of a canonical format are canonical.** -/
theorem Canonical.vector (h : Canonical read write) (limit : Nat) :
    Canonical (readVectorOf limit read) (writeVectorOf write) := by
  intro bs xs rest hread
  obtain ⟨⟨n, bs₁⟩, hsize, hlist⟩ := bind_eq_some_iff.mp hread
  obtain ⟨-, -, rfl⟩ := readCompactSize_sound hsize
  obtain ⟨rfl, w, hw, rfl⟩ := h.list hlist
  refine ⟨writeCompactSize xs.length ++ w, ?_, by rw [append_assoc]⟩
  rw [writeVectorOf, hw, map_some]

/-- **Lists are told apart by their bytes**, even without a length, if a reader finds each value
whatever follows, and none in no bytes. -/
theorem eq_of_writeList_eq (hnil : read [] = none) {xs ys : List α} {w : List UInt8}
    (hx : ∀ x ∈ xs, ∀ v, write x = some v → ∀ rest, read (v ++ rest) = some (x, rest))
    (hy : ∀ y ∈ ys, ∀ v, write y = some v → ∀ rest, read (v ++ rest) = some (y, rest))
    (hxs : writeList write xs = some w) (hys : writeList write ys = some w) : xs = ys := by
  -- a value is written as at least one byte
  have hne : ∀ {z zs}, (∀ v, write z = some v → ∀ rest, read (v ++ rest) = some (z, rest)) →
      writeList write (z :: zs) ≠ some [] := by
    intro z zs hz h
    obtain ⟨v, hv, h⟩ := bind_eq_some_iff.mp h
    obtain ⟨vs, -, h⟩ := map_eq_some_iff.mp h
    have hread := hz v hv vs
    rw [h, hnil] at hread
    cases hread
  induction xs generalizing ys w with
  | nil =>
    cases ys with
    | nil => rfl
    | cons y ys =>
      cases hxs
      exact absurd hys (hne (hy y mem_cons_self))
  | cons x xs ih =>
    cases ys with
    | nil =>
      cases hys
      exact absurd hxs (hne (hx x mem_cons_self))
    | cons y ys =>
      obtain ⟨v, hv, hxs⟩ := bind_eq_some_iff.mp hxs
      obtain ⟨vs, hvs, rfl⟩ := map_eq_some_iff.mp hxs
      obtain ⟨u, hu, hys⟩ := bind_eq_some_iff.mp hys
      obtain ⟨us, hus, heq⟩ := map_eq_some_iff.mp hys
      have hread := hx x mem_cons_self v hv vs
      rw [← heq, hy y mem_cons_self u hu us] at hread
      cases hread
      rw [ih (fun x h => hx x (mem_cons_of_mem _ h))
        (fun y h => hy y (mem_cons_of_mem _ h)) hvs hus]

end Canonical

end Bytes
