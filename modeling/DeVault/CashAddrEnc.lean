import DeVault.CashAddr

/-!
# Addresses of destinations (`cashaddrenc.cpp`)

A destination is packed as a version byte, with its type and size, and its hash, and
`ConvertBits` regroups these bytes into values of five bits; the last value is filled
up with zeros. Reading an address takes the same way back.

`ConvertBits` keeps the bits that did not yet make up a value at the end of an accumulator whose
higher bits are stale. `Converted` says what has been read and written in terms of numbers: what was
read is what was written followed by the bits that are left.
-/

namespace DeVault

open CashAddr List Nat Radix
open UInt8 (ofNat toNat)

/-! ### `ConvertBits` -/

/-- The inner loop of `ConvertBits`: the values that are complete, and the number of
bits that are left. -/
def drain (tobits acc bits : Nat) : List UInt8 × Nat :=
  if h : 0 < tobits ∧ tobits ≤ bits then
    let r := drain tobits acc (bits - tobits)
    (ofNat ((acc >>> (bits - tobits)) &&& (2 ^ tobits - 1)) :: r.1, r.2)
  else ([], bits)
termination_by bits

/-- The variables of `ConvertBits`, and what it has put out. -/
structure Converting where
  acc : Nat := 0
  bits : Nat := 0
  out : List UInt8 := []

variable (frombits tobits : Nat)

/-- The body of the outer loop of `ConvertBits`. -/
def convertStep (s : Converting) (v : UInt8) : Converting :=
  let acc := ((s.acc <<< frombits) ||| v.toNat) &&& (2 ^ (frombits + tobits - 1) - 1)
  let r := drain tobits acc (s.bits + frombits)
  { acc := acc, bits := r.2, out := s.out ++ r.1 }

/-- `ConvertBits`: what it returns and what it has put out. -/
def convertBits (pad : Bool) (data : List UInt8) : Bool × List UInt8 :=
  let s := data.foldl (convertStep frombits tobits) {}
  let last := (s.acc <<< (tobits - s.bits)) &&& (2 ^ tobits - 1)
  if pad then (true, if s.bits ≠ 0 then s.out ++ [ofNat last] else s.out)
  else if frombits ≤ s.bits ∨ last ≠ 0 then (false, s.out)
  else (true, s.out)

/-! ### Destinations -/

/-- `CKeyID`, a `uint160`. -/
abbrev CKeyID := { bytes : List UInt8 // bytes.length = 20 }

/-- `ScriptID`, a `uint160` or a `uint256`. -/
inductive ScriptID where
  | p2sh20 (hash : { bytes : List UInt8 // bytes.length = 20 })
  | p2sh32 (hash : { bytes : List UInt8 // bytes.length = 32 })
  deriving DecidableEq

/-- The bytes of a `ScriptID`. -/
def ScriptID.bytes : ScriptID → List UInt8
  | .p2sh20 hash => hash.1
  | .p2sh32 hash => hash.1

/-- `CTxDestination`. -/
inductive CTxDestination where
  | noDestination
  | keyID (id : CKeyID)
  | scriptID (id : ScriptID)
  deriving DecidableEq

/-- `PUBKEY_TYPE`. -/
def pubkeyType : UInt8 := 0
/-- `SCRIPT_TYPE`. -/
def scriptType : UInt8 := 1
/-- `TOKEN_PUBKEY_TYPE`. -/
def tokenPubkeyType : UInt8 := 2
/-- `TOKEN_SCRIPT_TYPE`. -/
def tokenScriptType : UInt8 := 3

/-- `CashAddrContent`. The type is whatever the address has in its bits. -/
structure CashAddrContent where
  type : UInt8 := 0
  hash : List UInt8 := []
  deriving DecidableEq

variable (content : CashAddrContent)

/-- `CashAddrContent::IsNull`. -/
def CashAddrContent.isNull : Bool := content.hash.isEmpty

/-- `CashAddrContent::IsTokenAwareType`. -/
def CashAddrContent.isTokenAwareType : Bool :=
  content.type == tokenPubkeyType || content.type == tokenScriptType

/-- The `encoded_size` of `PackAddrData`, by the number of bytes. -/
def encodedSize (size : Nat) : Except Fault UInt8 :=
  match size * 8 with
  | 160 => .ok 0
  | 192 => .ok 1
  | 224 => .ok 2
  | 256 => .ok 3
  | 320 => .ok 4
  | 384 => .ok 5
  | 448 => .ok 6
  | 512 => .ok 7
  | _ => .error (.runtimeError "Error packing cashaddr: invalid address length")

/-- `PackAddrData`: the version byte and the hash in groups of five bits. -/
def packAddrData (id : List UInt8) (type : UInt8) : Except Fault (List UInt8) := do
  let encoded_size ← encodedSize id.length
  return (convertBits 8 5 true ((type <<< 3 ||| encoded_size) :: id)).2

/-- `EncodeCashAddr`, for the prefix of the chain parameters. -/
def encodeCashAddr (dst : CTxDestination) (cashAddrPrefix : List UInt8) (tokenAwareType : Bool) :
    Except Fault (List UInt8) :=
  match dst with
  | .keyID id => do
    let data ← packAddrData id.1 (if tokenAwareType then tokenPubkeyType else pubkeyType)
    return encode cashAddrPrefix data
  | .scriptID id => do
    let data ← packAddrData id.bytes (if tokenAwareType then tokenScriptType else scriptType)
    return encode cashAddrPrefix data
  | .noDestination => .ok []

/-- `DecodeCashAddrContent`; a refused address has no content. -/
def decodeCashAddrContent (addr expectedPrefix : List UInt8) : Except Fault CashAddrContent := do
  let (pfx, payload) ← decode addr expectedPrefix
  if pfx ≠ expectedPrefix then return {}
  if payload.isEmpty then return {}
  let (converted, data) := convertBits 5 8 false payload
  if !converted then return {}
  match data with
  | [] => .error (.logicError "data[0] is out of range")
  | version :: hash =>
    -- First bit is reserved.
    if version &&& 0x80 ≠ 0 then return {}
    let type := (version >>> 3) &&& 0x1f
    let hash_size := 20 + 4 * (version &&& 0x03).toNat
    let hash_size := if version &&& 0x04 ≠ 0 then hash_size * 2 else hash_size
    if hash.length + 1 ≠ hash_size + 1 then return {}
    return { type := type, hash := hash }

/-- `DecodeCashAddrDestination`. -/
def decodeCashAddrDestination : CTxDestination :=
  -- Only accept 20 or 32 byte hashes.
  if content.hash.length ≠ 20 ∧ content.hash.length ≠ 32 then .noDestination
  else if content.type = pubkeyType ∨ content.type = tokenPubkeyType then
    if h : content.hash.length = 20 then .keyID ⟨content.hash, h⟩ else .noDestination
  else if content.type = scriptType ∨ content.type = tokenScriptType then
    if h : content.hash.length = 20 then .scriptID (.p2sh20 ⟨content.hash, h⟩)
    else if h : content.hash.length = 32 then .scriptID (.p2sh32 ⟨content.hash, h⟩)
    else .noDestination
  else .noDestination

/-- `DecodeCashAddr`: the destination, and what it writes to `tokenAwareTypeOut` if
anything. -/
def decodeCashAddr (addr cashAddrPrefix : List UInt8) :
    Except Fault (CTxDestination × Option Bool) := do
  let content ← decodeCashAddrContent addr cashAddrPrefix
  if content.isNull then return (.noDestination, none)
  else return (decodeCashAddrDestination content, some content.isTokenAwareType)

/-! ### Regrouping bits -/

section Regroup

variable {frombits tobits acc bits : Nat}

theorem and_mask (x i : Nat) : x &&& (2 ^ i - 1) = x % 2 ^ i := and_two_pow_sub_one_eq_mod x i

theorem toNat_ofNat_mask (hto : tobits ≤ 8) (x : Nat) :
    (ofNat (x % 2 ^ tobits)).toNat = x % 2 ^ tobits := by
  have hlt : x % 2 ^ tobits < 2 ^ 8 :=
    (mod_lt _ (Nat.two_pow_pos _)).trans_le (Nat.pow_le_pow_right (by decide) hto)
  rw [UInt8.toNat_ofNat']
  exact mod_eq_of_lt hlt

/-- **The inner loop** splits the low bits of the accumulator into values and what is
left. -/
theorem drain_spec (hpos : 0 < tobits) (hto : tobits ≤ 8) (acc bits : Nat) :
    (drain tobits acc bits).2 < tobits ∧
      bits = tobits * (drain tobits acc bits).1.length + (drain tobits acc bits).2 ∧
      (∀ o ∈ (drain tobits acc bits).1, o.toNat < 2 ^ tobits) ∧
      acc % 2 ^ bits =
        ofBE (2 ^ tobits) ((drain tobits acc bits).1.map toNat) *
          2 ^ (drain tobits acc bits).2 + acc % 2 ^ (drain tobits acc bits).2 := by
  induction bits using Nat.strong_induction_on with
  | _ bits ih =>
    rw [drain]
    split
    next h =>
      obtain ⟨hleft, hbits, hlt, hacc⟩ := ih (bits - tobits) (by omega)
      have hfirst := toNat_ofNat_mask hto (acc >>> (bits - tobits))
      rw [← and_mask] at hfirst
      generalize hr : drain tobits acc (bits - tobits) = r at hleft hbits hlt hacc
      dsimp only
      refine ⟨hleft, ?_, ?_, ?_⟩
      · rw [length_cons, mul_succ]
        omega
      · refine forall_mem_cons.mpr ⟨?_, hlt⟩
        rw [hfirst, and_mask]
        exact mod_lt _ (Nat.two_pow_pos _)
      · -- the first value is the top `tobits` of the low `bits`
        have hsplit : bits = bits - tobits + tobits := by omega
        rw [map_cons, ofBE_cons, hfirst, and_mask, length_map, ← pow_mul]
        calc acc % 2 ^ bits
            = acc % 2 ^ (bits - tobits) +
                2 ^ (bits - tobits) * (acc / 2 ^ (bits - tobits) % 2 ^ tobits) := by
              conv_lhs => rw [hsplit, pow_add, mod_mul]
          _ = acc / 2 ^ (bits - tobits) % 2 ^ tobits * 2 ^ (tobits * r.1.length + r.2) +
                acc % 2 ^ (bits - tobits) := by
              rw [← hbits]
              ring
          _ = _ := by
              rw [hacc, shiftRight_eq_div_pow, pow_add]
              ring
    next h => exact ⟨by omega, by simp, nofun, by simp⟩

/-- **What `ConvertBits` has read is what it has put out, followed by the bits that are
left.** -/
structure Converted (frombits tobits : Nat) (data : List UInt8) (s : Converting) : Prop where
  bits_lt : s.bits < tobits
  length_eq : frombits * data.length = tobits * s.out.length + s.bits
  out_lt : ∀ o ∈ s.out, o.toNat < 2 ^ tobits
  value_eq : ofBE (2 ^ frombits) (data.map toNat) =
    ofBE (2 ^ tobits) (s.out.map toNat) * 2 ^ s.bits + s.acc % 2 ^ s.bits

/-- The bits that count after a value has been read. The mask takes higher bits off
only. -/
theorem read_mod (acc : Nat) {v : UInt8} (hv : v.toNat < 2 ^ frombits) (hbits : bits < tobits) :
    (((acc <<< frombits) ||| v.toNat) &&& (2 ^ (frombits + tobits - 1) - 1)) %
        2 ^ (bits + frombits) = acc % 2 ^ bits * 2 ^ frombits + v.toNat := by
  have hdvd : 2 ^ (bits + frombits) ∣ 2 ^ (frombits + tobits - 1) := pow_dvd_pow 2 (by omega)
  have hlow : acc % 2 ^ bits * 2 ^ frombits + v.toNat < 2 ^ bits * 2 ^ frombits := by
    have hmod : acc % 2 ^ bits + 1 ≤ 2 ^ bits := mod_lt _ (Nat.two_pow_pos _)
    calc acc % 2 ^ bits * 2 ^ frombits + v.toNat
        < (acc % 2 ^ bits + 1) * 2 ^ frombits := by rw [succ_mul]; omega
      _ ≤ 2 ^ bits * 2 ^ frombits := Nat.mul_le_mul_right _ hmod
  have hsplit : acc * 2 ^ frombits + v.toNat =
      acc % 2 ^ bits * 2 ^ frombits + v.toNat + 2 ^ bits * 2 ^ frombits * (acc / 2 ^ bits) := by
    conv_lhs => rw [← mod_add_div acc (2 ^ bits)]
    ring
  rw [and_mask, mod_mod_of_dvd _ hdvd, ← shiftLeft_add_eq_or_of_lt hv, shiftLeft_eq,
    pow_add, hsplit, add_mul_mod_self_left, mod_eq_of_lt hlow]

theorem convertStep_spec (hpos : 0 < tobits) (hto : tobits ≤ 8) {data : List UInt8}
    {s : Converting} (h : Converted frombits tobits data s) {v : UInt8}
    (hv : v.toNat < 2 ^ frombits) :
    Converted frombits tobits (data ++ [v]) (convertStep frombits tobits s v) := by
  have hread := read_mod s.acc hv h.bits_lt
  have hdrain := drain_spec hpos hto
    (((s.acc <<< frombits) ||| v.toNat) &&& (2 ^ (frombits + tobits - 1) - 1)) (s.bits + frombits)
  rw [hread] at hdrain
  obtain ⟨hleft, hbits, hlt, hacc⟩ := hdrain
  unfold convertStep
  dsimp only
  generalize drain tobits (((s.acc <<< frombits) ||| v.toNat) &&& (2 ^ (frombits + tobits - 1) - 1))
    (s.bits + frombits) = r at hleft hbits hlt hacc ⊢
  refine ⟨hleft, ?_, ?_, ?_⟩
  · have hlen := h.length_eq
    simp only [length_append, length_singleton, Nat.mul_add, Nat.mul_one]
    omega
  · exact forall_mem_append.mpr ⟨h.out_lt, hlt⟩
  · rw [map_append, map_singleton, ofBE_concat, h.value_eq, map_append,
      ofBE_append, length_map, ← pow_mul]
    calc 2 ^ frombits * (ofBE (2 ^ tobits) (s.out.map toNat) * 2 ^ s.bits +
            s.acc % 2 ^ s.bits) + v.toNat
        = ofBE (2 ^ tobits) (s.out.map toNat) * 2 ^ (s.bits + frombits) +
            (s.acc % 2 ^ s.bits * 2 ^ frombits + v.toNat) := by
          rw [pow_add]
          ring
      _ = _ := by
          rw [hacc, hbits, pow_add]
          ring

theorem foldl_convertStep (frombits tobits : Nat) (hpos : 0 < tobits) (hto : tobits ≤ 8)
    {data : List UInt8} (hdata : ∀ v ∈ data, v.toNat < 2 ^ frombits) :
    Converted frombits tobits data (data.foldl (convertStep frombits tobits) {}) := by
  induction data using reverseRecOn with
  | nil => exact ⟨hpos, rfl, nofun, by simp [mod_one]⟩
  | append_singleton data v ih =>
    rw [foldl_concat]
    exact convertStep_spec hpos hto (ih fun w hw => hdata w (mem_append_left _ hw))
      (hdata v (mem_append_right _ mem_cons_self))

/-- The value that fills up the bits that are left. -/
theorem last_eq (hbits : bits ≤ tobits) :
    (acc <<< (tobits - bits)) &&& (2 ^ tobits - 1) = acc % 2 ^ bits * 2 ^ (tobits - bits) := by
  have hsplit : 2 ^ tobits = 2 ^ bits * 2 ^ (tobits - bits) := by
    rw [← pow_add]
    congr 1
    omega
  rw [and_mask, shiftLeft_eq, hsplit, mul_mod_mul_right]

/-- **Filled up**: the values make the number that was read, with zeros behind it. -/
theorem convertBits_pad (frombits tobits : Nat) (hpos : 0 < tobits) (hto : tobits ≤ 8)
    {data : List UInt8} (hdata : ∀ v ∈ data, v.toNat < 2 ^ frombits) :
    ∃ p < tobits,
      tobits * (convertBits frombits tobits true data).2.length = frombits * data.length + p ∧
      (∀ o ∈ (convertBits frombits tobits true data).2, o.toNat < 2 ^ tobits) ∧
      ofBE (2 ^ tobits) ((convertBits frombits tobits true data).2.map toNat) =
        ofBE (2 ^ frombits) (data.map toNat) * 2 ^ p := by
  have h := foldl_convertStep frombits tobits hpos hto hdata
  unfold convertBits
  generalize data.foldl (convertStep frombits tobits) {} = s at h
  simp only [if_true]
  have hlen := h.length_eq
  have hbits := h.bits_lt
  -- bits left over make one more value
  by_cases hzero : s.bits = 0
  · refine ⟨0, hpos, ?_, ?_, ?_⟩
    · rw [if_neg (not_not.mpr hzero)]
      omega
    · rw [if_neg (not_not.mpr hzero)]
      exact h.out_lt
    · rw [if_neg (not_not.mpr hzero), h.value_eq, hzero, pow_zero, mod_one]
      ring
  · refine ⟨tobits - s.bits, by omega, ?_, ?_, ?_⟩
    · rw [if_pos hzero, length_append, length_singleton, Nat.mul_add, Nat.mul_one]
      omega
    · rw [if_pos hzero]
      refine forall_mem_append.mpr ⟨h.out_lt, forall_mem_singleton.mpr ?_⟩
      rw [and_mask, toNat_ofNat_mask hto]
      exact mod_lt _ (Nat.two_pow_pos _)
    · have hlast : (ofNat ((s.acc <<< (tobits - s.bits)) &&& (2 ^ tobits - 1))).toNat =
          s.acc % 2 ^ s.bits * 2 ^ (tobits - s.bits) := by
        rw [← last_eq hbits.le, and_mask, toNat_ofNat_mask hto]
      have hpow : 2 ^ tobits = 2 ^ s.bits * 2 ^ (tobits - s.bits) := by
        rw [← pow_add]
        congr 1
        omega
      rw [if_pos hzero, map_append, map_singleton, ofBE_concat, hlast, h.value_eq]
      generalize ofBE (2 ^ tobits) (s.out.map toNat) = written
      rw [hpow]
      ring

theorem convertBits_roundtrip (data : List UInt8) :
    convertBits 5 8 false (convertBits 8 5 true data).2 = (true, data) := by
  obtain ⟨p, hp, hlen, hlt, hvalue⟩ := convertBits_pad 8 5 (by decide) (by decide)
    (fun v (_ : v ∈ data) => v.toNat_lt)
  have h := foldl_convertStep 5 8 (by decide) (by decide) hlt
  generalize (convertBits 8 5 true data).2 = packed at hlen hlt hvalue h ⊢
  unfold convertBits
  generalize packed.foldl (convertStep 5 8) {} = s at h
  have hbits := h.bits_lt
  have hlength := h.length_eq
  -- the bits that are left are the zeros that were filled in
  obtain ⟨hout, hleft⟩ : s.out.length = data.length ∧ s.bits = p := by omega
  have hnumber := h.value_eq
  rw [hvalue, hleft] at hnumber
  have hzero : s.acc % 2 ^ p = 0 := by
    have hdvd : 2 ^ p ∣ s.acc % 2 ^ p :=
      (Nat.dvd_add_right (Nat.dvd_mul_left _ _)).mp (hnumber ▸ Nat.dvd_mul_left _ _)
    exact eq_zero_of_dvd_of_lt hdvd (mod_lt _ (Nat.two_pow_pos _))
  have hsame : ofBE (2 ^ 8) (s.out.map toNat) =
      ofBE (2 ^ 8) (data.map toNat) := by
    rw [hzero, Nat.add_zero] at hnumber
    exact eq_of_mul_eq_mul_right (Nat.two_pow_pos p) hnumber.symm
  have hdata : s.out = data := by
    refine map_injective_iff.mpr (fun _ _ => UInt8.toNat_inj.mp) (ofBE_injective
      (by decide) (by simpa using hout) ?_ ?_ hsame)
    · simpa using h.out_lt
    · simpa using fun v (_ : v ∈ data) => v.toNat_lt
  simp only [Bool.false_eq_true, if_false]
  rw [if_neg, hdata]
  rw [last_eq hbits.le, hleft, hzero, Nat.zero_mul]
  omega

end Regroup

/-! ### Destinations there and back -/

/-- The version byte of one of the four types with a hash of 20 or 32 bytes: the type
and the size can be read from it. -/
theorem version_byte : ∀ type ∈ [pubkeyType, scriptType, tokenPubkeyType, tokenScriptType],
    ∀ size ∈ [((0 : UInt8), 20), (3, 32)],
      (type <<< 3 ||| size.1) &&& 0x80 = 0 ∧ ((type <<< 3 ||| size.1) >>> 3) &&& 0x1f = type ∧
        (type <<< 3 ||| size.1) &&& 0x04 = 0 ∧
        20 + 4 * ((type <<< 3 ||| size.1) &&& 0x03).toNat = size.2 := by
  decide +kernel

section Pack

variable {pfx hash : List UInt8} (hne : pfx ≠ []) (hpfx : ∀ c ∈ pfx, isLower c = true)
  (hhash : hash.length = 20 ∨ hash.length = 32) (type : UInt8)
  (htype : type ∈ [pubkeyType, scriptType, tokenPubkeyType, tokenScriptType])

include hne hpfx hhash htype

theorem decodeCashAddrContent_pack :
    ∃ data, packAddrData hash type = .ok data ∧
      decodeCashAddrContent (encode pfx data) pfx = .ok { type := type, hash := hash } := by
  obtain ⟨size, hsize, hmem⟩ : ∃ size : UInt8, encodedSize hash.length = .ok size ∧
      (size, hash.length) ∈ [((0 : UInt8), 20), (3, 32)] := by
    rcases hhash with h | h
    · exact ⟨0, by rw [h]; rfl, by rw [h]; decide⟩
    · exact ⟨3, by rw [h]; rfl, by rw [h]; decide⟩
  obtain ⟨hreserved, htypeBits, hdouble, hlength⟩ := version_byte type htype _ hmem
  have hpack : packAddrData hash type =
      .ok (convertBits 8 5 true ((type <<< 3 ||| size) :: hash)).2 := by
    rw [packAddrData, hsize]
    rfl
  refine ⟨_, hpack, ?_⟩
  obtain ⟨p, -, -, hfive, -⟩ := convertBits_pad 8 5 (by decide) (by decide)
    (fun v (_ : v ∈ (type <<< 3 ||| size) :: hash) => v.toNat_lt)
  have hback := convertBits_roundtrip ((type <<< 3 ||| size) :: hash)
  generalize (convertBits 8 5 true ((type <<< 3 ||| size) :: hash)).2 = payload at hfive hback ⊢
  have hnonempty : payload.isEmpty = false := by
    cases payload with
    | nil => exact absurd (congrArg (·.2.length) hback) (by simp [convertBits])
    | cons v rest => rfl
  simp only at hreserved htypeBits hdouble hlength
  simp only [decodeCashAddrContent, decode_encode hne hpfx hfive, bind, Except.bind, pure,
    Except.pure, hnonempty, hback, hreserved, htypeBits, hdouble, hlength]
  simp

/-- What is packed as one of the four types decodes to what its content says. -/
theorem decodeCashAddr_pack :
    (packAddrData hash type >>= fun data => decodeCashAddr (encode pfx data) pfx) =
      .ok (decodeCashAddrDestination ⟨type, hash⟩,
        some (CashAddrContent.isTokenAwareType ⟨type, hash⟩)) := by
  obtain ⟨data, hpack, hcontent⟩ := decodeCashAddrContent_pack hne hpfx hhash type htype
  have hnull : CashAddrContent.isNull ⟨type, hash⟩ = false := by
    cases hash with
    | nil => exact absurd hhash (by simp)
    | cons v rest => rfl
  simp only [hpack, bind, Except.bind, decodeCashAddr, hcontent, hnull]
  rfl

end Pack

/-- **Destinations there and back**, with the token-aware flag. -/
theorem decodeCashAddr_encodeCashAddr {pfx : List UInt8} (hne : pfx ≠ [])
    (hpfx : ∀ c ∈ pfx, isLower c = true) {dst : CTxDestination} (hdst : dst ≠ .noDestination)
    (tokenAwareType : Bool) :
    (encodeCashAddr dst pfx tokenAwareType >>= fun addr => decodeCashAddr addr pfx) =
      .ok (dst, some tokenAwareType) := by
  -- the type tells the flag and the kind, the size tells the two script hashes apart
  cases dst with
  | noDestination => exact absurd rfl hdst
  | keyID id =>
    obtain ⟨hash, hlen⟩ := id
    have h := decodeCashAddr_pack hne hpfx (.inl hlen)
      (if tokenAwareType then tokenPubkeyType else pubkeyType)
      (by cases tokenAwareType <;> decide)
    rw [encodeCashAddr, bind_assoc]
    refine h.trans ?_
    cases tokenAwareType <;>
      simp [decodeCashAddrDestination, CashAddrContent.isTokenAwareType, hlen, pubkeyType,
        tokenPubkeyType, tokenScriptType]
  | scriptID id =>
    have hlen : id.bytes.length = 20 ∨ id.bytes.length = 32 := by
      cases id with
      | p2sh20 hash => exact .inl hash.2
      | p2sh32 hash => exact .inr hash.2
    have h := decodeCashAddr_pack hne hpfx hlen
      (if tokenAwareType then tokenScriptType else scriptType)
      (by cases tokenAwareType <;> decide)
    rw [encodeCashAddr, bind_assoc]
    refine h.trans ?_
    cases id with
    | p2sh20 hash =>
      cases tokenAwareType <;>
        simp [decodeCashAddrDestination, CashAddrContent.isTokenAwareType, ScriptID.bytes, hash.2,
          pubkeyType, scriptType, tokenPubkeyType, tokenScriptType]
    | p2sh32 hash =>
      cases tokenAwareType <;>
        simp [decodeCashAddrDestination, CashAddrContent.isTokenAwareType, ScriptID.bytes, hash.2,
          pubkeyType, scriptType, tokenPubkeyType, tokenScriptType]

/-- **Address strings.** `Decode` reads what `Encode` wrote; an address of a key or script reads
back as that key or script, token-aware or not; and a valid address in which characters behind the
colon are changed, all within eight neighbouring positions, is rejected, however long it is. -/
theorem cashAddr_sound :
    (∀ pfx payload defaultPrefix : List UInt8, pfx ≠ [] → (∀ c ∈ pfx, isLower c = true) →
      (∀ v ∈ payload, v.toNat < 32) →
      decode (encode pfx payload) defaultPrefix = .ok (pfx, payload)) ∧
    (∀ (pfx : List UInt8) (dst : CTxDestination) (tokenAwareType : Bool), pfx ≠ [] →
      (∀ c ∈ pfx, isLower c = true) → dst ≠ .noDestination →
      (encodeCashAddr dst pfx tokenAwareType >>= fun addr => decodeCashAddr addr pfx) =
        .ok (dst, some tokenAwareType)) ∧
    (∀ pfx a x x' b defaultPrefix p payload : List UInt8,
      decode (pfx ++ 58 :: (a ++ (x ++ b))) defaultPrefix = .ok (p, payload) → p ≠ [] →
      x'.length = x.length → x.length ≤ 8 → x' ≠ x →
      decode (pfx ++ 58 :: (a ++ (x' ++ b))) defaultPrefix = .ok ([], [])) :=
  ⟨fun _ _ defaultPrefix hne hpfx hpayload => decode_encode hne hpfx hpayload defaultPrefix,
    fun _ _ tokenAwareType hne hpfx hdst =>
      decodeCashAddr_encodeCashAddr hne hpfx hdst tokenAwareType,
    fun _ _ _ _ _ _ _ _ hvalid hp hlen hle hne => decode_burst hvalid hp hlen hle hne⟩

/-- The prefix `dvreg`, two values, a key, and one changed character. -/
theorem cashAddr_sound_dvreg :
    decode (encode [100, 118, 114, 101, 103] [1, 2]) [] = .ok ([100, 118, 114, 101, 103], [1, 2]) ∧
    (encodeCashAddr (.keyID ⟨replicate 20 7, rfl⟩) [100, 118, 114, 101, 103] true >>=
      fun addr => decodeCashAddr addr [100, 118, 114, 101, 103]) =
        .ok (.keyID ⟨replicate 20 7, rfl⟩, some true) ∧
    decode ([100, 118, 114, 101, 103] ++ 58 :: ([112, 122] ++
      ([106] ++ [121, 119, 52, 107, 109, 117, 56]))) [] = .ok ([100, 118, 114, 101, 103], [1, 2]) ∧
    decode ([100, 118, 114, 101, 103] ++ 58 :: ([112, 122] ++
      ([107] ++ [121, 119, 52, 107, 109, 117, 56]))) [] = .ok ([], []) := by
  have hvalid : decode ([100, 118, 114, 101, 103] ++ 58 :: ([112, 122] ++
      ([106] ++ [121, 119, 52, 107, 109, 117, 56]))) [] =
        .ok ([100, 118, 114, 101, 103], [1, 2]) := by decide +kernel
  have hlower : ∀ c ∈ ([100, 118, 114, 101, 103] : List UInt8), isLower c = true := by
    simp [isLower]
  exact ⟨cashAddr_sound.1 _ _ _ (by decide) hlower (by simp),
    cashAddr_sound.2.1 _ _ _ (by decide) hlower (by decide), hvalid,
    cashAddr_sound.2.2 _ _ [106] [107] _ _ _ _ hvalid (by decide) rfl (by decide) (by decide)⟩

end DeVault
