import DeVault.Lib.Bytes

/-!
# Shifting a blob (`util/bitmanip.cpp`)

`bitShiftBlob` shifts a buffer in place as if it were one big-endian number. Whole bytes are
moved first. The rest goes in words of 64 bits, and the bits that leave one word are carried to
the next: forwards for a right shift (`rshiftWords`), backwards for a left shift
(`lshiftWords`). The last word of the one and the first of the other may be filled in part only.

Each loop has a step lemma for one word and a run lemma with the carry in it.
`bitShiftBlob_value` says what becomes of the number.
-/

namespace DeVault

open Bytes List Nat

/-- The word into whose first bytes `bs` are copied, read as big-endian. -/
def be64toh (bs : List UInt8) : Nat := ofBe (bs ++ replicate (8 - bs.length) 0)

/-- The first `nb` bytes of a word stored as big-endian. -/
def htobe64 (nb newval : Nat) : List UInt8 := (leBytes 8 newval).reverse.take nb

/-- The loop of the right shift, over the bytes from `i` on. -/
def rshiftWords (perWordShift leftOverBits : Nat) (bs : List UInt8) : List UInt8 :=
  if bs.length = 0 then []
  else
    let nb := min bs.length 8
    let val := be64toh (bs.take nb)
    let newval := leftOverBits ||| val >>> perWordShift
    htobe64 nb newval ++
      rshiftWords perWordShift (val <<< (64 - perWordShift) % 2 ^ 64) (bs.drop nb)
termination_by bs.length
decreasing_by simp; omega

/-- The loop of the left shift, over the bytes before `lastPos`. -/
def lshiftWords (perWordShift leftOverBits : Nat) (bs : List UInt8) : List UInt8 :=
  if bs.length = 0 then []
  else
    let pos := bs.length - 8
    let nb := bs.length - pos
    let fudgeBits := (8 - nb) * 8
    let val := be64toh (bs.drop pos) >>> fudgeBits
    let newval := val <<< perWordShift % 2 ^ 64 ||| leftOverBits
    lshiftWords perWordShift (val >>> (64 - perWordShift)) (bs.take pos) ++
      htobe64 nb (newval <<< fudgeBits % 2 ^ 64)
termination_by bs.length
decreasing_by simp; omega

/-- `bitShiftBlob`, on the bytes of the span. -/
def bitShiftBlob (span : List UInt8) (nbits : Nat) (rshift : Bool) :
    Except String (List UInt8) :=
  if span.length > (2 ^ 64 - 1) / 8 then
    .error "Input byte span is too large (exceeds std::numeric_limits<size_t>::max() bits)!"
  else if span.isEmpty ∨ nbits = 0 then .ok span
  else if nbits ≥ span.length * 8 then .ok (replicate span.length 0)
  else
    let fullyMovedBytes := nbits / 8
    let perWordShift := (nbits - fullyMovedBytes * 8) % 64
    if rshift then
      let moved := span.take (span.length - fullyMovedBytes)
      .ok (replicate fullyMovedBytes 0 ++
        if perWordShift = 0 then moved else rshiftWords perWordShift 0 moved)
    else
      let moved := span.drop fullyMovedBytes
      .ok ((if perWordShift = 0 then moved else lshiftWords perWordShift 0 moved) ++
        replicate fullyMovedBytes 0)

theorem be64toh_eq (bs : List UInt8) : be64toh bs = ofBe bs * 256 ^ (8 - bs.length) := by
  rw [be64toh, ofBe_append, ofBe_replicate, length_replicate, Nat.add_zero]

theorem be64toh_lt {bs : List UInt8} (h : bs.length ≤ 8) : be64toh bs < 2 ^ 64 := by
  have hlt := ofBe_lt (bs ++ replicate (8 - bs.length) 0)
  rwa [length_append, length_replicate, add_sub_of_le h] at hlt

theorem isBe_htobe64 {nb v : Nat} (hnb : nb ≤ 8) (hv : v < 2 ^ 64) :
    IsBe (htobe64 nb v) nb (v / 256 ^ (8 - nb)) := by
  have h := (ofBe_div_mod (leBytes 8 v).reverse nb).1
  rw [ofBe, reverse_reverse, ofLe_leBytes hv, length_reverse, length_leBytes] at h
  exact ⟨by simp [htobe64, hnb], h.symm⟩

theorem two_pow_mul_eight (n : Nat) : 2 ^ (n * 8) = 256 ^ n := by
  rw [Nat.mul_comm, pow_mul]
  rfl

/-- Division of a number in two parts, with the carry `c` to the lower part. -/
theorem div_two_parts {N P B y c : Nat} (hc : c < P) (h : N % P = c ∨ B = 1 ∧ y = 0) :
    (N * B + y) / P = N / P * B + (c * B + y) / P := by
  obtain rfl | ⟨rfl, rfl⟩ := h
  · calc (N * B + y) / P
        = (P * (N / P * B) + (N % P * B + y)) / P := by
          rw [← add_assoc, ← mul_assoc, ← add_mul, div_add_mod]
      _ = N / P * B + (N % P * B + y) / P := mul_add_div (zero_lt_of_lt hc) _ _
  · simp [div_eq_of_lt hc]

/-- The remainder of a number in two parts, with the carry `c` to the upper part. -/
theorem mod_two_parts {M N A B c : Nat} (hA : 0 < A) (h : N / A = c ∨ B = 1) :
    (M * A + N) % (A * B) = (M + c) % B * A + N % A := by
  rw [mod_mul, Nat.mul_comm M, mul_add_mod, mul_add_div hA, Nat.add_comm,
    Nat.mul_comm A]
  obtain rfl | rfl := h
  · rfl
  · rw [mod_one, mod_one]

section Words

variable {s c : Nat} (hs : s ≤ 64) (hc : c < 2 ^ s) (bs : List UInt8)
include hs hc

/-- A word of a right shift, with the carry `c` above it. -/
theorem isBe_rshift_word (hbs : bs.length ≤ 8) :
    IsBe (htobe64 bs.length (c * 2 ^ (64 - s) ||| be64toh bs >>> s)) bs.length
      ((c * 256 ^ bs.length + ofBe bs) / 2 ^ s) := by
  have hval := be64toh_lt hbs
  have hlow : be64toh bs / 2 ^ s < 2 ^ (64 - s) :=
    Nat.div_lt_of_lt_mul (by rwa [pow_mul_pow_sub 2 hs])
  -- the shifted word leaves room for the carry, so that the disjunction is a sum
  have hor : c * 2 ^ (64 - s) ||| be64toh bs >>> s = (c * 2 ^ 64 + be64toh bs) / 2 ^ s := by
    rw [shiftRight_eq_div_pow, Nat.mul_comm, ← two_pow_add_eq_or_of_lt hlow,
      ← pow_mul_pow_sub 2 hs, mul_left_comm, mul_add_div (by positivity), Nat.mul_comm]
  have hnew : (c * 2 ^ 64 + be64toh bs) / 2 ^ s < 2 ^ 64 := by
    refine Nat.div_lt_of_lt_mul ?_
    calc c * 2 ^ 64 + be64toh bs
        < (c + 1) * 2 ^ 64 := by omega
      _ ≤ 2 ^ s * 2 ^ 64 := Nat.mul_le_mul_right _ hc
  rw [hor]
  convert isBe_htobe64 hbs hnew using 1
  rw [Nat.div_right_comm, be64toh_eq, show 2 ^ 64 = 256 ^ 8 from rfl, ← pow_mul_pow_sub 256 hbs,
    ← mul_assoc, ← add_mul, Nat.mul_div_cancel _ (by positivity)]

/-- Bytes with the carry `c` above them, shifted to the right. -/
theorem isBe_rshiftWords :
    IsBe (rshiftWords s (c * 2 ^ (64 - s)) bs) bs.length
      ((c * 256 ^ bs.length + ofBe bs) / 2 ^ s) := by
  generalize hleft : c * 2 ^ (64 - s) = leftOverBits
  fun_induction rshiftWords generalizing c with
  | case1 leftOverBits bs hbs =>
    rw [length_eq_zero_iff.mp hbs]
    exact ⟨rfl, (div_eq_of_lt (by simpa [ofBe, ofLe] using hc)).symm⟩
  | case2 leftOverBits bs hbs nb val newval =>
    rename_i ih
    have hchunk : (bs.take nb).length = nb := by
      rw [length_take]
      omega
    have hword := isBe_rshift_word hs hc (bs.take nb) (by omega)
    rw [hchunk, hleft] at hword
    have hcarry : val % 2 ^ s * 2 ^ (64 - s) = val <<< (64 - s) % 2 ^ 64 := by
      rw [shiftLeft_eq, ← pow_mul_pow_sub 2 hs, mul_mod_mul_right]
    have hpos : 0 < 2 ^ s := Nat.two_pow_pos s
    have hx := ofBe_append (bs.take nb) (bs.drop nb)
    have hlen : bs.length = nb + (bs.drop nb).length := by
      rw [length_drop]
      omega
    rw [take_append_drop] at hx
    convert hword.append (ih (mod_lt _ hpos) hcarry) using 1
    rw [hx, hlen, pow_add, ← mul_assoc, ← add_assoc, ← add_mul]
    refine div_two_parts (mod_lt _ hpos) ?_
    -- the carry out of the last word is dropped; all other words are full
    rcases le_or_gt bs.length 8 with hlast | hmore
    · right
      rw [drop_eq_nil_of_le (by omega)]
      exact ⟨rfl, rfl⟩
    · left
      have hnb : nb = 8 := by omega
      have hval : val = ofBe (bs.take nb) := by
        rw [show val = be64toh (bs.take nb) from rfl, be64toh_eq, hchunk, hnb, pow_zero,
          Nat.mul_one]
      have hdvd : 2 ^ s ∣ c * 256 ^ nb := dvd_mul_of_dvd_right (hnb ▸ pow_dvd_pow 2 hs) c
      rw [hval, add_mod, mod_eq_zero_of_dvd hdvd, Nat.zero_add, mod_mod]

/-- A word of a left shift, with the carry `c` below it. -/
theorem isBe_lshift_word (hbs : bs.length ≤ 8) :
    IsBe (htobe64 bs.length
        ((ofBe bs <<< s % 2 ^ 64 ||| c) <<< ((8 - bs.length) * 8) % 2 ^ 64)) bs.length
      ((ofBe bs * 2 ^ s + c) % 256 ^ bs.length) := by
  have hor : ofBe bs <<< s % 2 ^ 64 ||| c = ofBe bs * 2 ^ s % 2 ^ 64 + c := by
    rw [shiftLeft_eq, ← pow_mul_pow_sub 2 hs, Nat.mul_comm, mul_mod_mul_left,
      ← two_pow_add_eq_or_of_lt hc]
  convert isBe_htobe64 hbs (mod_lt _ (by positivity)) using 1
  rw [hor, shiftLeft_eq, two_pow_mul_eight, show 2 ^ 64 = 256 ^ 8 from rfl,
    ← pow_mul_pow_sub 256 hbs, mul_mod_mul_right, Nat.mul_div_cancel _ (by positivity),
    add_mod (_ % _), mod_mul_right_mod, ← add_mod]

/-- Bytes with the carry `c` below them, shifted to the left. -/
theorem isBe_lshiftWords :
    IsBe (lshiftWords s c bs) bs.length ((ofBe bs * 2 ^ s + c) % 256 ^ bs.length) := by
  fun_induction lshiftWords with
  | case1 c bs hbs =>
    rw [length_eq_zero_iff.mp hbs]
    exact ⟨rfl, (mod_one _).symm⟩
  | case2 c bs hbs pos nb fudgeBits val newval ih =>
    have hchunk : (bs.drop pos).length = nb := length_drop
    have hval : val = ofBe (bs.drop pos) := by
      show be64toh (bs.drop pos) >>> ((8 - nb) * 8) = _
      rw [shiftRight_eq_div_pow, two_pow_mul_eight, be64toh_eq, hchunk,
        Nat.mul_div_cancel _ (by positivity)]
    have hword := isBe_lshift_word hs hc (bs.drop pos) (by omega)
    have hlt : val < 2 ^ 64 := by
      rw [hval]
      exact (ofBe_lt _).trans_le (Nat.pow_le_pow_right (by decide : 0 < 256) (by omega : _ ≤ 8))
    have hcarry : val >>> (64 - s) < 2 ^ s := by
      rw [shiftRight_eq_div_pow]
      exact Nat.div_lt_of_lt_mul (by rwa [Nat.mul_comm, pow_mul_pow_sub 2 hs])
    have hx := ofBe_append (bs.take pos) (bs.drop pos)
    have hlen : bs.length = nb + (bs.take pos).length := by
      rw [length_take]
      omega
    rw [take_append_drop] at hx
    rw [hchunk, ← hval] at hword hx
    convert (ih hcarry).append hword using 1
    · rw [hlen, Nat.add_comm]
    rw [hx, hlen, pow_add, add_mul, add_assoc, mul_right_comm]
    refine mod_two_parts (by positivity) ?_
    -- the carry out of the leftmost word is lost; any other goes into the word before
    rcases le_or_gt bs.length 8 with hlast | hmore
    · right
      rw [show pos = 0 by omega]
      rfl
    · left
      rw [show nb = 8 by omega, show 256 ^ 8 = 2 ^ 64 from rfl, ← pow_mul_pow_sub 2 hs,
        ← Nat.div_div_eq_div_mul, Nat.mul_comm val, mul_add_div (by positivity),
        div_eq_of_lt hc, Nat.add_zero, shiftRight_eq_div_pow]

end Words

/-- **The shift of a blob** whose bits can be counted in a `size_t`: the number of its `L` bytes is
divided by `2 ^ nbits`, or multiplied modulo `2 ^ (8 * L)`. A longer one is refused. -/
theorem bitShiftBlob_value (span : List UInt8) (nbits : Nat) (rshift : Bool) :
    (span.length ≤ (2 ^ 64 - 1) / 8 →
      ∃ out, bitShiftBlob span nbits rshift = .ok out ∧ out.length = span.length ∧
        ofBe out = if rshift then ofBe span / 2 ^ nbits
          else ofBe span * 2 ^ nbits % 2 ^ (8 * span.length)) ∧
    ((2 ^ 64 - 1) / 8 < span.length → bitShiftBlob span nbits rshift = .error
      "Input byte span is too large (exceeds std::numeric_limits<size_t>::max() bits)!") := by
  refine ⟨fun hspan => ?_, fun hspan => if_pos hspan⟩
  have hlt := ofBe_lt span
  rw [Nat.mul_comm 8, two_pow_mul_eight, bitShiftBlob, if_neg hspan.not_gt]
  split
  next hstay =>
    refine ⟨span, rfl, rfl, ?_⟩
    obtain hnil | rfl := hstay
    · rw [isEmpty_iff.mp hnil]
      simp [ofBe, ofLe]
    · simp [mod_eq_of_lt hlt]
  split
  next hall =>
    have hdvd : 256 ^ span.length ∣ 2 ^ nbits := two_pow_mul_eight _ ▸ pow_dvd_pow 2 hall
    refine ⟨_, rfl, length_replicate, ?_⟩
    rw [ofBe_replicate, div_eq_of_lt (hlt.trans_le (le_of_dvd (by positivity) hdvd)),
      mod_eq_zero_of_dvd (dvd_mul_of_dvd_right hdvd _), ite_self]
  dsimp only
  -- `k` whole bytes are moved, and what stays is shifted by `s` bits
  generalize hk : nbits / 8 = k
  generalize hs : (nbits - k * 8) % 64 = s
  have hs64 : s ≤ 64 := by omega
  have hpow : 2 ^ nbits = 256 ^ k * 2 ^ s := by
    rw [← two_pow_mul_eight, ← pow_add]
    congr 1
    omega
  have hzero : IsBe (replicate k 0) k 0 := ⟨length_replicate, ofBe_replicate k⟩
  cases rshift with
  | true =>
    have hrest : span.length - (span.length - k) = k := by omega
    have hdiv := (ofBe_div_mod span (span.length - k)).1
    generalize hmoved : span.take (span.length - k) = moved at hdiv ⊢
    have hlen : span.length = k + moved.length := by
      rw [← hmoved, length_take]
      omega
    have hshift : IsBe (if s = 0 then moved else rshiftWords s 0 moved) moved.length
        (ofBe moved / 2 ^ s) := by
      split
      next h0 => exact ⟨rfl, by rw [h0, pow_zero, Nat.div_one]⟩
      · simpa using isBe_rshiftWords hs64 (Nat.two_pow_pos s) moved
    have h := hzero.append hshift
    rw [← hdiv, hrest, Nat.div_div_eq_div_mul, ← hpow, Nat.zero_mul, Nat.zero_add, ← hlen] at h
    exact ⟨_, rfl, h⟩
  | false =>
    have hmod := (ofBe_div_mod span k).2
    generalize hmoved : span.drop k = moved at hmod ⊢
    have hlen : span.length - k = moved.length := by rw [← hmoved, length_drop]
    have hshift : IsBe (if s = 0 then moved else lshiftWords s 0 moved) moved.length
        (ofBe moved * 2 ^ s % 256 ^ moved.length) := by
      split
      next h0 => exact ⟨rfl, by rw [h0, pow_zero, Nat.mul_one, mod_eq_of_lt (ofBe_lt _)]⟩
      · exact isBe_lshiftWords hs64 (Nat.two_pow_pos s) moved
    have h := hshift.append hzero
    rw [← hmod, ← hlen, mod_mul_mod, Nat.add_zero, ← mul_mod_mul_right, mul_assoc,
      Nat.mul_comm (2 ^ s), ← hpow, ← pow_add, Nat.sub_add_cancel (by omega)] at h
    exact ⟨_, rfl, h⟩

/-- Nine bytes, shifted by eleven bits: one byte is moved, and the last word has one byte. -/
theorem bitShiftBlob_value_nine : ∃ out,
    bitShiftBlob (replicate 9 0xff) 11 true = .ok out ∧ out.length = 9 ∧
      ofBe out = ofBe (replicate 9 0xff) / 2 ^ 11 :=
  (bitShiftBlob_value (replicate 9 0xff) 11 true).1 (by decide)

/-- A blob with more bits than a `size_t` can count is refused. -/
theorem bitShiftBlob_tooLarge :
    ¬∃ out, bitShiftBlob (replicate (2 ^ 61) 0) 1 true = .ok out := by
  rintro ⟨out, h⟩
  rw [bitShiftBlob, length_replicate, if_pos (by decide)] at h
  cases h

end DeVault
