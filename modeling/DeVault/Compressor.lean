import DeVault.Primitives.Wire

/-!
# Stored coins (`compressor.cpp`, `undo.h`, `coins.h`)

In the database and in the undo files an output is stored in a compressed form. An amount
is divided by the largest power of ten, scripts of three shapes are replaced by a number and
a hash or key, and other scripts follow their length. The token payload is put in front of
the script as on the wire.
-/

namespace DeVault

open Option List Bytes

/-! ### Amounts -/

/-- The loop of `CompressAmount`, with the number of turns that are left: the quotient and
the exponent `e`. -/
def stripTens : Nat → Nat → Nat × Nat
  | 0, n => (n, 9)
  | k + 1, n => if n % 10 = 0 then stripTens k (n / 10) else (n, 8 - k)

/-- `CompressAmount`, in `uint64_t`. -/
def compressAmount (amt : Int) : Nat :=
  let n := ofSigned 8 (amt.tdiv satoshi)
  if n = 0 then 0
  else
    let (n, e) := stripTens 9 n
    if e < 9 then (1 + (n / 10 * 9 + n % 10 - 1) * 10 + e) % 2 ^ 64
    else (1 + (n - 1) * 10 + 9) % 2 ^ 64

/-- `DecompressAmount`, in `uint64_t`. -/
def decompressAmount (x : Nat) : Int :=
  if x = 0 then 0
  else
    let x := x - 1
    let e := x % 10
    let x := x / 10
    let n := if e < 9 then (x / 9 * 10 + (x % 9 + 1)) % 2 ^ 64 else (x + 1) % 2 ^ 64
    toSigned 8 ((fun n => n * 10 % 2 ^ 64)^[e] n) * satoshi

theorem compressAmount_lt (amt : Int) : compressAmount amt < 2 ^ 64 := by
  simp only [compressAmount]
  split
  · norm_num
  · split
    · exact Nat.mod_lt _ (by norm_num)
    · exact Nat.mod_lt _ (by norm_num)

variable {n : Nat}

/-- What the loop leaves: a quotient times a power of ten, where the quotient has a last digit
unless all turns were taken. -/
theorem stripTens_spec {k : Nat} (hk : k ≤ 9) :
    ∃ t ≤ k, (stripTens k n).2 = 9 - k + t ∧ n = (stripTens k n).1 * 10 ^ t ∧
      (t < k → (stripTens k n).1 % 10 ≠ 0) := by
  induction k generalizing n with
  | zero => exact ⟨0, le_rfl, rfl, by simp [stripTens], fun h => absurd h (Nat.lt_irrefl 0)⟩
  | succ k ih =>
    rw [stripTens]
    split
    next hten =>
      obtain ⟨t, ht, he, hn, hdigit⟩ := ih (n := n / 10) (by omega)
      refine ⟨t + 1, by omega, by omega, ?_, fun h => hdigit (by omega)⟩
      rw [pow_succ, ← mul_assoc, ← hn]
      omega
    next hten => exact ⟨0, by omega, by show 8 - k = _; omega, by simp, fun _ => hten⟩

theorem iterate_mul_ten (e n : Nat) :
    (fun n => n * 10 % 2 ^ 64)^[e] n % 2 ^ 64 = n * 10 ^ e % 2 ^ 64 := by
  induction e generalizing n with
  | zero => simp
  | succ e ih =>
    rw [Function.iterate_succ_apply, ih, Nat.mod_mul_mod, mul_assoc, ← pow_succ']

/-- If nothing overflows, multiplying by ten several times is multiplying by a power. -/
theorem iterate_mul_ten_of_lt {e : Nat} (h : n * 10 ^ e < 2 ^ 64) :
    (fun n => n * 10 % 2 ^ 64)^[e] n = n * 10 ^ e := by
  have hlt : (fun n => n * 10 % 2 ^ 64)^[e] n < 2 ^ 64 := by
    cases e with
    | zero => simpa using h
    | succ e =>
      rw [Function.iterate_succ_apply']
      exact Nat.mod_lt _ (by norm_num)
  rw [← Nat.mod_eq_of_lt hlt, iterate_mul_ten, Nat.mod_eq_of_lt h]

/-- **Amounts in the money range are decompressed to themselves.** -/
theorem decompressAmount_compressAmount {amt : Int} (h : moneyRange amt = true) :
    decompressAmount (compressAmount amt) = amt := by
  obtain ⟨hlo, hhi⟩ := moneyRange_iff.mp h
  have hmax : maxMoney = 200000000000000000 := by decide
  obtain ⟨n, rfl⟩ := Int.eq_ofNat_of_zero_le hlo
  have hn : n ≤ 200000000000000000 := by omega
  have hpattern : ofSigned 8 ((n : Int).tdiv satoshi) = n := by
    rw [satoshi, Int.tdiv_one, ofSigned, Int.emod_eq_of_lt hlo (by norm_num; omega),
      Int.toNat_natCast]
  have hback : toSigned 8 n * satoshi = n := by
    rw [satoshi, mul_one, toSigned, Int.bmod_eq_of_le (by omega) (by norm_num; omega)]
  unfold compressAmount
  simp only [hpattern]
  split
  next hzero => rw [hzero]; rfl
  next hpos =>
  obtain ⟨t, ht, he, hfactor, hdigit⟩ := stripTens_spec (n := n) (le_refl 9)
  generalize stripTens 9 n = r at he hfactor hdigit
  obtain ⟨m, e⟩ := r
  simp only at he hfactor hdigit ⊢
  obtain rfl : e = t := by omega
  have hmle : m ≤ n := by
    rw [hfactor]
    exact Nat.le_mul_of_pos_right m (by positivity)
  have hmpos : m ≠ 0 := by
    rintro rfl
    exact hpos (by simpa using hfactor)
  -- what decompression multiplies by ten again
  have hmul : toSigned 8 ((fun n => n * 10 % 2 ^ 64)^[e] m) * satoshi = n := by
    rw [iterate_mul_ten_of_lt (by rw [← hfactor]; omega), ← hfactor, hback]
  have hm64 : m % 2 ^ 64 = m := Nat.mod_eq_of_lt (by omega)
  split
  next hlt =>
    have hd := hdigit (by omega)
    rw [Nat.mod_eq_of_lt (by omega), decompressAmount, if_neg (by omega)]
    have hx :
        1 + (m / 10 * 9 + m % 10 - 1) * 10 + e - 1 = (m / 10 * 9 + (m % 10 - 1)) * 10 + e := by
      omega
    have he' : ((m / 10 * 9 + (m % 10 - 1)) * 10 + e) % 10 = e := by omega
    have hq : ((m / 10 * 9 + (m % 10 - 1)) * 10 + e) / 10 = m / 10 * 9 + (m % 10 - 1) := by omega
    have hn' :
        (m / 10 * 9 + (m % 10 - 1)) / 9 * 10 + ((m / 10 * 9 + (m % 10 - 1)) % 9 + 1) = m := by
      omega
    simp only [hx, he', hq, if_pos hlt, hn', hm64, hmul]
  next hge =>
    obtain rfl : e = 9 := by omega
    rw [Nat.mod_eq_of_lt (by omega), decompressAmount, if_neg (by omega)]
    have he' : (1 + (m - 1) * 10 + 9 - 1) % 10 = 9 := by omega
    have hn' : (1 + (m - 1) * 10 + 9 - 1) / 10 + 1 = m := by omega
    simp only [he', hn', if_neg (Nat.lt_irrefl 9), hm64, hmul]

/-! ### Scripts -/

/-- The keys of the curve: `CPubKey::IsFullyValid` and `CPubKey::Decompress`. -/
structure KeyCodec where
  isFullyValid : List UInt8 → Bool
  decompress : List UInt8 → Option (List UInt8)

/-- The compressed form of an uncompressed key: the parity of the last byte, and the first
half. -/
def compressedForm (key : List UInt8) : List UInt8 :=
  (2 ||| (key.getD 64 0 &&& 1)) :: (key.drop 1).take 32

/-- Decompression inverts compression on valid uncompressed keys. -/
def KeyCodec.Inverts (codec : KeyCodec) : Prop :=
  ∀ key : List UInt8, key.length = 65 → key.head? = some 4 → codec.isFullyValid key = true →
    codec.decompress (compressedForm key) = some key

/-- A script with a fixed beginning and a fixed end, and `n` bytes between them. -/
def scriptBetween (opening : List UInt8) (n : Nat) (closing : List UInt8) (script : CScript) :
    Option (List UInt8) :=
  if script.length = opening.length + n + closing.length ∧ script.take opening.length = opening ∧
      script.drop (opening.length + n) = closing then
    some ((script.drop opening.length).take n)
  else none

/-- `IsToKeyID`: `OP_DUP OP_HASH160 20 <hash> OP_EQUALVERIFY OP_CHECKSIG`. -/
def isToKeyID : CScript → Option (List UInt8) := scriptBetween [0x76, 0xa9, 20] 20 [0x88, 0xac]

/-- `IsToScriptID`: `OP_HASH160 20 <hash> OP_EQUAL`. -/
def isToScriptID : CScript → Option (List UInt8) := scriptBetween [0xa9, 20] 20 [0x87]

/-- `IsToPubKey`: a key and `OP_CHECKSIG`. An uncompressed key has to be valid. -/
def isToPubKey (codec : KeyCodec) (script : CScript) : Option (List UInt8) :=
  match scriptBetween [33] 33 [0xac] script with
  | some key => if key.head? = some 2 ∨ key.head? = some 3 then some key else none
  | none =>
    match scriptBetween [65] 65 [0xac] script with
    | some key => if key.head? = some 4 ∧ codec.isFullyValid key then some key else none
    | none => none

/-- `CompressScript`. -/
def compressScript (codec : KeyCodec) (script : CScript) : Option (List UInt8) :=
  match isToKeyID script with
  | some keyID => some (0 :: keyID)
  | none =>
    match isToScriptID script with
    | some scriptID => some (1 :: scriptID)
    | none =>
      match isToPubKey codec script with
      | some (b :: key) =>
        if b = 2 ∨ b = 3 then some (b :: key.take 32)
        else if b = 4 then some ((4 ||| ((b :: key).getD 64 0 &&& 1)) :: key.take 32)
        else none
      | _ => none

/-- `GetSpecialScriptSize`: the bytes after a special size. -/
def getSpecialScriptSize (nSize : Nat) : Nat :=
  if nSize = 0 ∨ nSize = 1 then 20
  else if nSize = 2 ∨ nSize = 3 ∨ nSize = 4 ∨ nSize = 5 then 32
  else 0

/-- `DecompressScript`. -/
def decompressScript (codec : KeyCodec) (nSize : Nat) (bs : List UInt8) : Option CScript :=
  match nSize with
  | 0 => some ([0x76, 0xa9, 20] ++ bs ++ [0x88, 0xac])
  | 1 => some ([0xa9, 20] ++ bs ++ [0x87])
  | 2 => some ([33, 2] ++ bs ++ [0xac])
  | 3 => some ([33, 3] ++ bs ++ [0xac])
  | 4 => (codec.decompress (2 :: bs)).map fun pubkey => [65] ++ pubkey ++ [0xac]
  | 5 => (codec.decompress (3 :: bs)).map fun pubkey => [65] ++ pubkey ++ [0xac]
  | _ => none

theorem scriptBetween_eq_some {opening closing script payload : List UInt8}
    (h : scriptBetween opening n closing script = some payload) :
    script = opening ++ payload ++ closing ∧ payload.length = n := by
  unfold scriptBetween at h
  split at h
  next hshape =>
    obtain ⟨hlen, hopen, hclose⟩ := hshape
    cases h
    constructor
    · calc script = script.take opening.length ++ script.drop opening.length :=
            (take_append_drop _ _).symm
        _ = opening ++ script.drop opening.length := by rw [hopen]
        _ = opening ++ ((script.drop opening.length).take n ++
              (script.drop opening.length).drop n) := by rw [take_append_drop]
        _ = opening ++ (script.drop opening.length).take n ++ closing := by
            rw [drop_drop, hclose, append_assoc]
    · rw [length_take, length_drop]
      omega
  · cases h

variable {codec : KeyCodec} {script : CScript}

theorem isToPubKey_eq_some {key : List UInt8} (h : isToPubKey codec script = some key) :
    (script = [33] ++ key ++ [0xac] ∧ key.length = 33 ∧ (key.head? = some 2 ∨ key.head? = some 3)) ∨
    (script = [65] ++ key ++ [0xac] ∧ key.length = 65 ∧ key.head? = some 4 ∧
      codec.isFullyValid key = true) := by
  unfold isToPubKey at h
  split at h
  next key' hbetween =>
    obtain ⟨hhead, heq⟩ := ite_none_right_eq_some.mp h
    cases heq
    obtain ⟨hscript, hlen⟩ := scriptBetween_eq_some hbetween
    exact .inl ⟨hscript, hlen, hhead⟩
  · split at h
    next key' hbetween =>
      obtain ⟨⟨hhead, hvalid⟩, heq⟩ := ite_none_right_eq_some.mp h
      cases heq
      obtain ⟨hscript, hlen⟩ := scriptBetween_eq_some hbetween
      exact .inr ⟨hscript, hlen, hhead, hvalid⟩
    · cases h

theorem parity_cases (x : UInt8) : x &&& 1 = 0 ∨ x &&& 1 = 1 := by
  revert x
  decide +kernel

/-- **What a compressed script is**: a byte below 6, as many bytes as it announces, and they
are decompressed to the script. -/
theorem decompressScript_compressScript (hcodec : codec.Inverts) {out : List UInt8}
    (h : compressScript codec script = some out) :
    ∃ b bs, out = b :: bs ∧ b.toNat < 6 ∧ bs.length = getSpecialScriptSize b.toNat ∧
      decompressScript codec b.toNat bs = some script := by
  unfold compressScript at h
  split at h
  next keyID hkey =>
    obtain ⟨hscript, hlen⟩ := scriptBetween_eq_some hkey
    exact ⟨0, keyID, (some.inj h).symm, by decide, hlen, congrArg some hscript.symm⟩
  split at h
  next scriptID hid =>
    obtain ⟨hscript, hlen⟩ := scriptBetween_eq_some hid
    exact ⟨1, scriptID, (some.inj h).symm, by decide, hlen, congrArg some hscript.symm⟩
  split at h
  swap
  · cases h
  next b key hpub =>
  rcases isToPubKey_eq_some hpub with ⟨rfl, hlen, hhead⟩ | ⟨rfl, hlen, hhead, hvalid⟩
  · -- a compressed key is stored as it is
    have hkey : key.length = 32 := by simpa using hlen
    simp only [head?_cons, some.injEq] at hhead
    rw [if_pos hhead, take_of_length_le hkey.le] at h
    refine ⟨b, key, (some.inj h).symm, ?_⟩
    rcases hhead with rfl | rfl
    · exact ⟨by decide, hkey, rfl⟩
    · exact ⟨by decide, hkey, rfl⟩
  · cases hhead
    rw [if_neg (by decide), if_pos rfl] at h
    have hkey : (key.take 32).length = 32 := by
      rw [length_cons] at hlen
      rw [length_take]
      omega
    have hback := hcodec (4 :: key) hlen rfl hvalid
    rw [compressedForm, drop_one, tail_cons] at hback
    refine ⟨_, _, (some.inj h).symm, ?_⟩
    rcases parity_cases ((4 :: key).getD 64 0) with hpar | hpar
    · rw [hpar] at hback ⊢
      exact ⟨by decide, hkey, congrArg (Option.map _) hback⟩
    · rw [hpar] at hback ⊢
      exact ⟨by decide, hkey, congrArg (Option.map _) hback⟩

namespace ScriptCompression

/-- `ScriptCompression::nSpecialScripts`. -/
def nSpecialScripts : Nat := 6

/-- `ScriptCompression::Ser`. The size is an `unsigned int`. -/
def ser (codec : KeyCodec) (script : CScript) : List UInt8 :=
  match compressScript codec script with
  | some compr => compr
  | none => writeVarInt 32 ((script.length + nSpecialScripts) % 2 ^ 32) ++ script

/-- `ScriptCompression::Unser`. A key that cannot be decompressed leaves no script. -/
def unser (codec : KeyCodec) : Reader CScript := fun bs =>
  (readVarInt 32 bs).bind fun nSize =>
    if nSize.1 < nSpecialScripts then
      (readBytes (getSpecialScriptSize nSize.1) nSize.2).map fun vch =>
        ((decompressScript codec nSize.1 vch.1).getD [], vch.2)
    else readBytes (nSize.1 - nSpecialScripts) nSize.2

/-- **Scripts survive.** The first byte tells the special scripts from the sizes. -/
theorem unser_ser (hcodec : codec.Inverts)
    (hlen : script.length + nSpecialScripts < 2 ^ 32) (rest : List UInt8) :
    unser codec (ser codec script ++ rest) = some (script, rest) := by
  unfold ser
  cases hcompr : compressScript codec script with
  | some compr =>
    obtain ⟨b, bs, rfl, hb, hsize, hback⟩ := decompressScript_compressScript hcodec hcompr
    have hread : readVarInt 32 (b :: (bs ++ rest)) = some (b.toNat, bs ++ rest) := by
      have hlast := readVarIntFrom_last (by omega : b.toNat < 128)
        (by omega : 0 * 128 + b.toNat < 2 ^ 32) (bs ++ rest)
      rwa [UInt8.ofNat_toNat, Nat.zero_mul, Nat.zero_add] at hlast
    have hbytes : readBytes (getSpecialScriptSize b.toNat) (bs ++ rest) = some (bs, rest) := by
      rw [← hsize]
      exact readBytes_append bs rest
    have hspecial : b.toNat < nSpecialScripts := hb
    show unser codec (b :: (bs ++ rest)) = _
    simp only [unser, hread, bind_some, if_pos hspecial, hbytes, map_some, hback, getD_some]
  | none =>
    have hnot : ¬ script.length + nSpecialScripts < nSpecialScripts := by omega
    simp only [Nat.mod_eq_of_lt hlen, append_assoc]
    rw [unser, readVarInt_write hlen, bind_some, if_neg hnot, Nat.add_sub_cancel]
    exact readBytes_append script rest

end ScriptCompression

namespace TxOutCompression

/-- `TxOutCompression`, writing. The token payload goes in front of the script. -/
def ser (codec : KeyCodec) (out : CTxOut) : Option (List UInt8) :=
  (wrapScriptPubKey out.tokenDataPtr out.scriptPubKey).map fun wspk =>
    writeVarInt 64 (compressAmount out.nValue) ++ ScriptCompression.ser codec wspk

/-- `TxOutCompression`, reading. An overly long script is replaced with a short invalid
one. -/
def unser (codec : KeyCodec) : Reader CTxOut := fun bs =>
  (readVarInt 64 bs).bind fun v =>
    (ScriptCompression.unser codec v.2).map fun r =>
      let unwrapped := unwrapScriptPubKey r.1
      ({ nValue := decompressAmount v.1
         scriptPubKey := if maxScriptSize < unwrapped.2.length then [opReturn] else unwrapped.2
         tokenDataPtr := unwrapped.1 }, r.2)

/-- **Outputs survive** that were on the wire, with an amount in the money range and a
script that is not too long. -/
theorem unser_ser (hcodec : codec.Inverts) {out : CTxOut}
    (hout : out.Representable) (hmoney : moneyRange out.nValue = true)
    (hscript : out.scriptPubKey.length ≤ maxScriptSize) :
    ∃ w, ser codec out = some w ∧ ∀ rest, unser codec (w ++ rest) = some (out, rest) := by
  obtain ⟨wspk, hlen, hunwrap⟩ := hout.script
  have hwrap := wrap_unwrapScriptPubKey wspk
  rw [hunwrap] at hwrap
  refine ⟨_, by rw [ser, hwrap, map_some], fun rest => ?_⟩
  have hamount : compressAmount out.nValue < 2 ^ 64 := compressAmount_lt out.nValue
  have hsize : wspk.length + ScriptCompression.nSpecialScripts < 2 ^ 32 := by
    simp only [maxSize, ScriptCompression.nSpecialScripts] at hlen ⊢
    omega
  rw [unser, append_assoc, readVarInt_write hamount, bind_some,
    ScriptCompression.unser_ser hcodec hsize, map_some]
  simp only [hunwrap, decompressAmount_compressAmount hmoney, if_neg (Nat.not_lt.mpr hscript)]

end TxOutCompression

/-! ### Coins -/

namespace Coin

/-- `nHeightAndIsCoinBase`, an `uint32_t`. -/
def nHeightAndIsCoinBase (coin : Coin) : Nat := (coin.nHeight * 2 + coin.fCoinBase.toNat) % 2 ^ 32

/-- `Coin::Serialize`, which asserts that the coin is not spent. -/
def serialize (codec : KeyCodec) (coin : Coin) : Option (List UInt8) :=
  if coin.isSpent then none
  else (TxOutCompression.ser codec coin.out).map fun out =>
    writeVarInt 32 coin.nHeightAndIsCoinBase ++ out

/-- `Coin::Unserialize`. -/
def unserialize (codec : KeyCodec) : Reader Coin := fun bs =>
  (readVarInt 32 bs).bind fun code =>
    (TxOutCompression.unser codec code.2).map fun out =>
      (⟨out.1, code.1 / 2, code.1 % 2 == 1⟩, out.2)

end Coin

namespace TxInUndoFormatter

/-- `TxInUndoFormatter::Ser`. A zero stands where older versions had a version number. -/
def ser (codec : KeyCodec) (coin : Coin) : Option (List UInt8) :=
  (TxOutCompression.ser codec coin.out).map fun out =>
    writeVarInt 32 ((coin.nHeight * 2 + coin.fCoinBase.toNat) % 2 ^ 32) ++
      ((if 0 < coin.nHeight then [0] else []) ++ out)

/-- `TxInUndoFormatter::Unser`. -/
def unser (codec : KeyCodec) : Reader Coin := fun bs =>
  (readVarInt 32 bs).bind fun nCode =>
    (if 0 < nCode.1 / 2 then (readVarInt 32 nCode.2).map Prod.snd else some nCode.2).bind fun bs =>
      (TxOutCompression.unser codec bs).map fun out =>
        (⟨out.1, nCode.1 / 2, nCode.1 % 2 == 1⟩, out.2)

end TxInUndoFormatter

open TxInUndoFormatter

/-- The two parts of the code of a coin whose height fits. -/
theorem nHeightAndIsCoinBase_parts {coin : Coin} (h : coin.nHeight < 2 ^ 31) :
    coin.nHeightAndIsCoinBase < 2 ^ 32 ∧ coin.nHeightAndIsCoinBase / 2 = coin.nHeight ∧
      (coin.nHeightAndIsCoinBase % 2 == 1) = coin.fCoinBase := by
  have hbit := Bool.toNat_lt coin.fCoinBase
  have hcode : coin.nHeightAndIsCoinBase = coin.nHeight * 2 + coin.fCoinBase.toNat :=
    Nat.mod_eq_of_lt (by omega)
  refine ⟨by omega, by omega, ?_⟩
  have hmod : coin.nHeightAndIsCoinBase % 2 = coin.fCoinBase.toNat := by omega
  rw [hmod]
  cases coin.fCoinBase <;> rfl

/-- The outputs of a parsed transaction are outputs that can be on the wire. -/
theorem representable_of_mem_vout {hash256 : List UInt8 → TxId} {bs rest : List UInt8}
    {tx : CTransaction} (h : CTransaction.unserialize hash256 bs = some (tx, rest)) :
    ∀ out ∈ tx.vout, out.Representable := by
  obtain ⟨⟨mtx, bs₁⟩, hread, h⟩ := bind_eq_some_iff.mp h
  obtain ⟨tx', hmake, hr⟩ := map_eq_some_iff.mp h
  cases hr
  obtain ⟨_, -, rfl⟩ := map_eq_some_iff.mp hmake
  obtain ⟨nVersion, -, hread⟩ := bind_eq_some_iff.mp hread
  obtain ⟨vin, -, hread⟩ := bind_eq_some_iff.mp hread
  obtain ⟨⟨vout, bs₂⟩, hvout, hread⟩ := bind_eq_some_iff.mp hread
  obtain ⟨nLockTime, -, hr⟩ := map_eq_some_iff.mp hread
  cases hr
  obtain ⟨size, -, hlist⟩ := bind_eq_some_iff.mp hvout
  exact forall_of_readList (fun _ _ _ => CTxOut.representable_of_unserialize) hlist

/-- **Stored coins are read back.** The record in the database and the one in the undo file of a
spendable coin, in the money range and from a parsed transaction, are read back as the coin. The
compressions of amounts and scripts lose nothing. -/
theorem storedCoin_roundTrip {codec : KeyCodec} (hcodec : codec.Inverts) :
    (∀ (coin : Coin) (hash256 : List UInt8 → TxId) (tx : CTransaction) (bs rest : List UInt8),
      CTransaction.unserialize hash256 bs = some (tx, rest) → coin.out ∈ tx.vout →
      isUnspendable coin.out.scriptPubKey = false → moneyRange coin.out.nValue = true →
      coin.nHeight < 2 ^ 31 →
      (∃ w, coin.serialize codec = some w ∧
        ∀ tail, Coin.unserialize codec (w ++ tail) = some (coin, tail)) ∧
      ∃ w, ser codec coin = some w ∧
        ∀ tail, unser codec (w ++ tail) = some (coin, tail)) ∧
    (∀ amt, moneyRange amt = true → decompressAmount (compressAmount amt) = amt) ∧
    ∀ script out, compressScript codec script = some out →
      ∃ b bs, out = b :: bs ∧ decompressScript codec b.toNat bs = some script := by
  refine ⟨?_, fun _ => decompressAmount_compressAmount, ?_⟩
  · intro coin hash256 tx bs rest hparse hmem hspendable hmoney hheight
    have hscript : coin.out.scriptPubKey.length ≤ maxScriptSize := by
      rw [isUnspendable, Bool.or_eq_false_iff, decide_eq_false_iff_not] at hspendable
      exact Nat.not_lt.mp hspendable.2
    obtain ⟨w, hw, hread⟩ := TxOutCompression.unser_ser hcodec
      (representable_of_mem_vout hparse _ hmem) hmoney hscript
    obtain ⟨hcode, hhalf, hflag⟩ := nHeightAndIsCoinBase_parts hheight
    constructor
    · refine ⟨writeVarInt 32 coin.nHeightAndIsCoinBase ++ w, ?_, fun tail => ?_⟩
      · rw [Coin.serialize, Coin.isSpent_of_moneyRange hmoney, hw]
        rfl
      · simp only [Coin.unserialize, append_assoc, readVarInt_write hcode, bind_some,
          hread, map_some, hhalf, hflag]
    · refine ⟨writeVarInt 32 coin.nHeightAndIsCoinBase ++
        ((if 0 < coin.nHeight then [0] else []) ++ w), ?_, fun tail => ?_⟩
      · rw [ser, hw]
        rfl
      · -- the dummy is written and skipped for the same heights
        have hdummy : (if 0 < coin.nHeight then
            (readVarInt 32 ((if 0 < coin.nHeight then [0] else []) ++ (w ++ tail))).map Prod.snd
          else some ((if 0 < coin.nHeight then [0] else []) ++ (w ++ tail))) =
            some (w ++ tail) := by
          split
          next hpos =>
            have hzero : readVarInt 32 (writeVarInt 32 0 ++ (w ++ tail)) = some (0, w ++ tail) :=
              readVarInt_write (by norm_num) _
            exact congrArg (Option.map Prod.snd) hzero
          · rfl
        simp only [unser, append_assoc, readVarInt_write hcode,
          bind_some, hhalf, hdummy, hread, map_some, hflag]
  · intro script out h
    obtain ⟨b, bs, hout, -, -, hback⟩ := decompressScript_compressScript hcodec h
    exact ⟨b, bs, hout, hback⟩

/-- A coin that is paid to the generator of the curve, in its uncompressed form. -/
theorem storedCoin_roundTrip_generator :
    let x := 0x79be667ef9dcbbac55a06295ce870b07029bfcdb2dce28d959f2815b16f81798
    let y := 0x483ada7726a3c4655da4fbfc0e1108a8fd17b448a68554199c47d08ffb10d4b8
    let key : List UInt8 := 4 :: ((leBytes 32 x).reverse ++ (leBytes 32 y).reverse)
    let codec : KeyCodec :=
      ⟨fun k => k == key, fun c => if c = compressedForm key then some key else none⟩
    let coin : Coin := ⟨⟨100000, 65 :: (key ++ [0xac]), none⟩, 5, true⟩
    compressScript codec coin.out.scriptPubKey = some (4 :: (leBytes 32 x).reverse) ∧
      (∃ w, coin.serialize codec = some w ∧
        ∀ tail, Coin.unserialize codec (w ++ tail) = some (coin, tail)) ∧
      ∃ w, ser codec coin = some w ∧
        ∀ tail, unser codec (w ++ tail) = some (coin, tail) := by
  intro x y key codec coin
  have hcodec : codec.Inverts := by
    intro k _ _ hvalid
    obtain rfl : k = key := eq_of_beq hvalid
    exact if_pos rfl
  have hparse : CTransaction.unserialize length (leBytes 4 2 ++ [0, 1] ++ leBytes 8 100000 ++
      67 :: coin.out.scriptPubKey ++ leBytes 4 0) = some (⟨[], [coin.out], 2, 0, 86⟩, []) := by
    decide +kernel
  exact ⟨by decide +kernel, (storedCoin_roundTrip hcodec).1 coin length _ _ _ hparse
    (by decide) (by decide) (by decide) (by decide)⟩

end DeVault
