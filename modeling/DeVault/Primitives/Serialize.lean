import DeVault.Lib.Bytes
import DeVault.Primitives.Transaction

/-!
# Outputs on the wire (`primitives/token.h`, `primitives/transaction.h`)

The token payload of an output travels in front of the script, behind the byte `0xef`. A
script that begins with this byte is read as a payload and a script if that is possible,
and as a script otherwise.
-/

namespace DeVault

open Bytes List Option

/-- `MAX_SIZE`, the longest byte string that is read. -/
def maxSize : Nat := 0x02000000

/-! ### Numbers of variable length -/

/-- `VarIntMode`: a number has an unsigned type, or a signed one and is not negative. -/
inductive VarIntMode
  | default
  | nonnegativeSigned

namespace VarIntMode

/-- The bits of `std::numeric_limits<I>::max()` for a type of `size` bytes. -/
def digits (size : Nat) : VarIntMode → Nat
  | default => 8 * size
  | nonnegativeSigned => 8 * size - 1

/-- `WriteVarInt` of a type of `size` bytes. -/
def writeVarInt (size : Nat) : Nat → List UInt8 := Bytes.writeVarInt (8 * size)

/-- `ReadVarInt` of a type of `size` bytes. -/
def readVarInt (mode : VarIntMode) (size : Nat) : Reader Nat := Bytes.readVarInt (mode.digits size)

/-- **One representation for each number.** A number is read back from what `WriteVarInt` makes of
it, no encoding begins another, and `ReadVarInt` accepts nothing but encodings of numbers of its
type. The same for `WriteCompactSize` and `ReadCompactSize` up to `MAX_SIZE`. -/
theorem varInt_compactSize_unique :
    (∀ (mode : VarIntMode) (size : Nat), 0 < size →
      UniqueCode (mode.readVarInt size) (writeVarInt size) (· < 2 ^ mode.digits size) ∧
      ∀ n wide rest, 2 ^ mode.digits size ≤ n → n < 2 ^ (8 * wide) →
        mode.readVarInt size (writeVarInt wide n ++ rest) = none) ∧
    UniqueCode (readCompactSize maxSize) writeCompactSize (· ≤ maxSize) ∧
    ∀ n rest, maxSize < n → n < 2 ^ 64 →
      readCompactSize maxSize (writeCompactSize n ++ rest) = none := by
  have hmax : maxSize < 2 ^ 64 := by decide
  have hcompact := uniqueCode_compactSize hmax
  refine ⟨fun mode size hsize => ?_, hcompact, ?_⟩
  · obtain ⟨hlo, hhi⟩ : 7 ≤ mode.digits size ∧ mode.digits size ≤ 8 * size := by
      cases mode <;> simp only [digits] <;> omega
    refine ⟨uniqueCode_varInt hlo hhi, fun n wide rest hn hwide => ?_⟩
    have hlt := (Nat.pow_lt_pow_iff_right (by omega)).mp (hn.trans_lt hwide)
    -- a number of the narrow type has one encoding, whatever the writer's type
    refine (uniqueCode_varInt hlo le_rfl).read_eq_none
      (uniqueCode_varInt (by omega) le_rfl : UniqueCode _ (writeVarInt wide) _)
      (fun m hm => ?_) hwide (by omega) rest
    have hm' : m < 2 ^ (8 * wide) := by omega
    exact ⟨hm', writeVarInt_eq hm hm'⟩
  · intro n rest hn hlt
    exact hcompact.read_eq_none (uniqueCode_compactSize (by omega : 2 ^ 64 - 1 < 2 ^ 64))
      (fun m hm => ⟨by omega, rfl⟩) (by omega) (by omega) rest

/-- `2 ^ 31` is no `int`. -/
theorem varInt_compactSize_unique_int :
    nonnegativeSigned.readVarInt 4 (writeVarInt 8 (2 ^ 31) ++ []) = none ∧
      readCompactSize maxSize (writeCompactSize (maxSize + 1) ++ []) = none :=
  ⟨(varInt_compactSize_unique.1 .nonnegativeSigned 4 (by decide)).2 (2 ^ 31) 8 [] (by decide)
      (by decide),
    varInt_compactSize_unique.2.2 (maxSize + 1) [] (by decide) (by decide)⟩

end VarIntMode

/-! ### Token payloads -/

variable {d e : OutputData} {bs rest w v rest' : List UInt8}

variable (bitfield : UInt8)

namespace OutputData

/-- `HasNFT` of a bitfield. -/
def bitHasNFT : Bool := bitfield &&& 0x20 != 0

/-- `HasAmount` of a bitfield. -/
def bitHasAmount : Bool := bitfield &&& 0x10 != 0

/-- `HasCommitmentLength` of a bitfield. -/
def bitHasCommitmentLength : Bool := bitfield &&& 0x40 != 0

/-- `IsValidBitfield`. -/
def isValidBitfield : Bool :=
  !(decide (bitfield &&& 0xf0 ≥ 0x80) || bitfield &&& 0xf0 == 0) &&
    !decide (bitfield &&& 0x0f > 2) &&
    !(!bitHasNFT bitfield && !bitHasAmount bitfield) &&
    !(!bitHasNFT bitfield && bitfield &&& 0x0f != 0) &&
    !(!bitHasNFT bitfield && bitHasCommitmentLength bitfield)

/-- The commitment, which is written only with its bit set and never empty. -/
def serializeCommitment (d : OutputData) : Option (List UInt8) :=
  if bitHasCommitmentLength d.bitfield then
    if d.commitment.isEmpty then none else some (writeVector d.commitment)
  else some []

/-- The amount, which is written only with its bit set and never zero. -/
def serializeAmount (d : OutputData) : Option (List UInt8) :=
  if bitHasAmount d.bitfield then
    if 0 < d.amount ∧ d.amount < 2 ^ 63 then some (writeCompactSize d.amount.toNat) else none
  else some []

/-- Writing a payload throws unless it is well formed. -/
def serialize (d : OutputData) : Option (List UInt8) :=
  if isValidBitfield d.bitfield then
    d.serializeCommitment.bind fun commitment =>
      d.serializeAmount.map fun amount =>
        leBytes 32 d.id ++ (d.bitfield :: (commitment ++ amount))
  else none

/-- The commitment; an encoded one is not empty. -/
def unserializeCommitment : Reader (List UInt8) := fun bs =>
  if bitHasCommitmentLength bitfield then
    (readVector maxSize bs).filter fun r => !r.1.isEmpty
  else some ([], bs)

/-- The amount; an encoded one is positive. -/
def unserializeAmount : Reader Int := fun bs =>
  if bitHasAmount bitfield then
    ((readCompactSize (2 ^ 64 - 1) bs).filter fun r => decide (0 < r.1 ∧ r.1 < 2 ^ 63)).map
      fun r => ((r.1 : Int), r.2)
  else some (0, bs)

/-- The part of a payload behind the token id. -/
def unserializeFields (id : Nat) : Reader OutputData
  | [] => none
  | bitfield :: bs =>
    if isValidBitfield bitfield then
      (unserializeCommitment bitfield bs).bind fun c =>
        (unserializeAmount bitfield c.2).map fun a => (⟨id, bitfield, a.1, c.1⟩, a.2)
    else none

/-- `OutputData::Unserialize`. -/
def unserialize : Reader OutputData := fun bs =>
  (readLe 32 bs).bind fun r => unserializeFields r.1 r.2

theorem unserializeCommitment_sound
    (h : unserializeCommitment d.bitfield bs = some (d.commitment, rest)) :
    ∃ w, d.serializeCommitment = some w ∧ bs = w ++ rest := by
  unfold unserializeCommitment at h
  unfold serializeCommitment
  split at h
  next hbit =>
    obtain ⟨hread, hne⟩ := filter_eq_some_iff.mp h
    obtain ⟨-, rfl⟩ := readVector_sound hread
    refine ⟨writeVector d.commitment, ?_, rfl⟩
    rw [if_pos hbit, if_neg (by simpa using hne)]
  next hbit =>
    obtain ⟨-, rfl⟩ := Prod.mk.inj (some.inj h)
    exact ⟨[], if_neg hbit, rfl⟩

theorem unserializeAmount_sound (h : unserializeAmount d.bitfield bs = some (d.amount, rest)) :
    ∃ w, d.serializeAmount = some w ∧ bs = w ++ rest := by
  unfold unserializeAmount at h
  unfold serializeAmount
  split at h
  next hbit =>
    obtain ⟨⟨n, rest'⟩, hfilter, hr⟩ := map_eq_some_iff.mp h
    obtain ⟨hamount, rfl⟩ := Prod.mk.inj hr
    obtain ⟨hread, hrange⟩ := filter_eq_some_iff.mp hfilter
    obtain ⟨hpos, hlt⟩ := of_decide_eq_true hrange
    obtain ⟨-, -, rfl⟩ := readCompactSize_sound hread
    simp only at hamount hpos hlt
    refine ⟨writeCompactSize n, ?_, rfl⟩
    rw [if_pos hbit, if_pos (by omega), show d.amount.toNat = n by omega]
  next hbit =>
    obtain ⟨-, rfl⟩ := Prod.mk.inj (some.inj h)
    exact ⟨[], if_neg hbit, rfl⟩

/-- **A payload is read only from its own encoding**, so that writing it again
gives the same bytes. -/
theorem canonical : Canonical unserialize serialize := by
  intro bs d rest h
  obtain ⟨⟨id, bs₁⟩, hid, hfields⟩ := bind_eq_some_iff.mp h
  clear h
  obtain ⟨-, rfl⟩ := readLe_sound hid
  cases bs₁ with
  | nil => exact absurd hfields (by simp [unserializeFields])
  | cons bitfield bs₂ =>
    simp only [unserializeFields] at hfields
    split at hfields
    next hvalid =>
      obtain ⟨⟨commitment, bs₃⟩, hc, hrest⟩ := bind_eq_some_iff.mp hfields
      obtain ⟨⟨amount, bs₄⟩, ha, hr⟩ := map_eq_some_iff.mp hrest
      cases hr
      obtain ⟨wc, hwc, rfl⟩ :=
        unserializeCommitment_sound (d := ⟨id, bitfield, amount, commitment⟩) hc
      obtain ⟨wa, hwa, rfl⟩ := unserializeAmount_sound (d := ⟨id, bitfield, amount, commitment⟩) ha
      refine ⟨leBytes 32 id ++ (bitfield :: (wc ++ wa)), ?_, by simp⟩
      rw [serialize, if_pos hvalid, hwc, bind_some, hwa, map_some]
    · cases hfields

theorem serialize_eq_some (h : d.serialize = some w) :
    ∃ wc wa, d.serializeCommitment = some wc ∧ d.serializeAmount = some wa ∧
      w = leBytes 32 d.id ++ (d.bitfield :: (wc ++ wa)) := by
  obtain ⟨-, h⟩ := ite_none_right_eq_some.mp h
  obtain ⟨wc, hwc, h⟩ := bind_eq_some_iff.mp h
  obtain ⟨wa, hwa, h⟩ := map_eq_some_iff.mp h
  exact ⟨wc, wa, hwc, hwa, h.symm⟩

theorem serializeCommitment_append
    (hbit : d.bitfield = e.bitfield) (hd : d.commitment.length < 2 ^ 64)
    (he : e.commitment.length < 2 ^ 64) (hw : d.serializeCommitment = some w)
    (hv : e.serializeCommitment = some v) (h : w ++ rest = v ++ rest') : rest = rest' := by
  unfold serializeCommitment at hw hv
  rw [← hbit] at hv
  split at hw
  next hhas =>
    rw [if_pos hhas] at hv
    obtain ⟨-, hw⟩ := ite_none_left_eq_some.mp hw
    obtain ⟨-, hv⟩ := ite_none_left_eq_some.mp hv
    rw [← some.inj hw, ← some.inj hv] at h
    exact (writeVector_append_inj hd he h).2
  next hhas =>
    rw [if_neg hhas] at hv
    rw [← some.inj hw, ← some.inj hv] at h
    exact h

theorem serializeAmount_append (hbit : d.bitfield = e.bitfield) (hw : d.serializeAmount = some w)
    (hv : e.serializeAmount = some v) (h : w ++ rest = v ++ rest') : rest = rest' := by
  unfold serializeAmount at hw hv
  rw [← hbit] at hv
  split at hw
  next hhas =>
    rw [if_pos hhas] at hv
    obtain ⟨hd, hw⟩ := ite_none_right_eq_some.mp hw
    obtain ⟨he, hv⟩ := ite_none_right_eq_some.mp hv
    rw [← some.inj hw, ← some.inj hv] at h
    exact (writeCompactSize_append_inj (by omega) (by omega) h).2
  next hhas =>
    rw [if_neg hhas] at hv
    rw [← some.inj hw, ← some.inj hv] at h
    exact h

/-- **A payload ends by itself**: what follows two payloads that are written alike is
alike. -/
theorem serialize_append (hd : d.commitment.length < 2 ^ 64) (he : e.commitment.length < 2 ^ 64)
    (hw : d.serialize = some w) (hv : e.serialize = some v) (h : w ++ rest = v ++ rest') :
    rest = rest' := by
  obtain ⟨wc, wa, hwc, hwa, rfl⟩ := serialize_eq_some hw
  obtain ⟨vc, va, hvc, hva, rfl⟩ := serialize_eq_some hv
  rw [append_assoc, append_assoc] at h
  have hfields := (append_inj h (by rw [length_leBytes, length_leBytes])).2
  obtain ⟨hbit, hbody⟩ := List.cons.inj hfields
  rw [append_eq, append_eq, append_assoc, append_assoc] at hbody
  exact serializeAmount_append hbit hwa hva (serializeCommitment_append hbit hd he hwc hvc hbody)

end OutputData

/-! ### Outputs -/

/-- `token::PREFIX_BYTE`. -/
def tokenPrefixByte : UInt8 := 0xef

/-- `WrapScriptPubKey`: the token payload in front of the script. -/
def wrapScriptPubKey (tokenData : Option OutputData) (scriptPubKey : CScript) :
    Option (List UInt8) :=
  match tokenData with
  | some d => d.serialize.map fun w => tokenPrefixByte :: (w ++ scriptPubKey)
  | none => some scriptPubKey

/-- `UnwrapScriptPubKey`: bytes that announce a payload but hold none are all
script. -/
def unwrapScriptPubKey (wspk : List UInt8) : Option OutputData × CScript :=
  match wspk with
  | [] => (none, [])
  | b :: bs =>
    if b = tokenPrefixByte then
      match OutputData.unserialize bs with
      | some (d, script) => (some d, script)
      | none => (none, b :: bs)
    else (none, b :: bs)

/-- Unwrapping a script loses nothing. -/
theorem wrap_unwrapScriptPubKey (wspk : List UInt8) :
    wrapScriptPubKey (unwrapScriptPubKey wspk).1 (unwrapScriptPubKey wspk).2 = some wspk := by
  cases wspk with
  | nil => rfl
  | cons b bs =>
    simp only [unwrapScriptPubKey]
    split
    next hb =>
      cases hd : OutputData.unserialize bs with
      | none => rfl
      | some r =>
        obtain ⟨d, script⟩ := r
        obtain ⟨w, hw, rfl⟩ := OutputData.canonical hd
        simp only [wrapScriptPubKey, hw, map_some, hb]
    · rfl

namespace CTxOut

/-- `CTxOut` as `SerializationOp` writes it. -/
def serialize (out : CTxOut) : Option (List UInt8) :=
  (wrapScriptPubKey out.tokenDataPtr out.scriptPubKey).map fun wspk =>
    leBytes 8 (ofSigned 8 out.nValue) ++ writeVector wspk

/-- `CTxOut` as `SerializationOp` reads it. -/
def unserialize : Reader CTxOut := fun bs =>
  (readLe 8 bs).bind fun v =>
    (readVector maxSize v.2).map fun r =>
      ({ nValue := toSigned 8 v.1
         scriptPubKey := (unwrapScriptPubKey r.1).2
         tokenDataPtr := (unwrapScriptPubKey r.1).1 }, r.2)

/-- **An output that can be read off the wire**: the value fits its type, and script and payload are
what bytes within the size limit unwrap to. -/
structure Representable (out : CTxOut) : Prop where
  value : SignedRange 8 out.nValue
  script : ∃ wspk, wspk.length ≤ maxSize ∧
    unwrapScriptPubKey wspk = (out.tokenDataPtr, out.scriptPubKey)

/-- An output that can be on the wire is read back. -/
theorem unserialize_serialize {out : CTxOut} (h : out.Representable) :
    ∃ w, out.serialize = some w ∧ ∀ rest, unserialize (w ++ rest) = some (out, rest) := by
  obtain ⟨wspk, hlen, hunwrap⟩ := h.script
  have hwrap := wrap_unwrapScriptPubKey wspk
  rw [hunwrap] at hwrap
  refine ⟨leBytes 8 (ofSigned 8 out.nValue) ++ writeVector wspk, ?_, fun rest => ?_⟩
  · rw [serialize, hwrap, map_some]
  · have hvalue := readLe_leBytes (ofSigned_lt 8 out.nValue) (writeVector wspk ++ rest)
    have hscript := readVector_write hlen (by norm_num [maxSize]) rest
    simp only [unserialize, append_assoc, hvalue, hscript, bind_some, map_some,
      hunwrap, toSigned_ofSigned h.value]

/-- An output is read only from its own encoding, whatever its script holds. -/
theorem canonical : Canonical unserialize serialize := by
  intro bs out rest h
  obtain ⟨⟨n, bs₁⟩, hn, h⟩ := bind_eq_some_iff.mp h
  obtain ⟨⟨wspk, bs₂⟩, hv, hr⟩ := map_eq_some_iff.mp h
  obtain ⟨rfl, rfl⟩ := Prod.mk.inj hr
  obtain ⟨hlt, rfl⟩ := readLe_sound hn
  obtain ⟨-, rfl⟩ := readVector_sound hv
  refine ⟨leBytes 8 n ++ writeVector wspk, ?_, by rw [append_assoc]⟩
  simp only [serialize, wrap_unwrapScriptPubKey, map_some, ofSigned_toSigned hlt]

theorem representable_of_unserialize {out : CTxOut}
    (h : unserialize bs = some (out, rest)) : out.Representable := by
  obtain ⟨⟨n, bs₁⟩, hn, h⟩ := bind_eq_some_iff.mp h
  obtain ⟨⟨wspk, bs₂⟩, hv, hr⟩ := map_eq_some_iff.mp h
  obtain ⟨hout, -⟩ := Prod.mk.inj hr
  refine ⟨?_, wspk, (readVector_sound hv).1, by rw [← hout]⟩
  have hvalue : out.nValue = toSigned 8 n := by rw [← hout]
  rw [hvalue]
  exact signedRange_toSigned (by decide) n

end CTxOut

end DeVault
