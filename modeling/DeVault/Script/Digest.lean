import DeVault.Primitives.Wire
import DeVault.Script.SignatureHash

/-!
# The digest of a signature as bytes (`script/interpreter.cpp`)

`SignatureHash` for signatures with `SIGHASH_FORKID` hashes a concatenation of fields. Some
of them are optional, and a script of any length stands in the middle. Lists of outpoints,
sequences and outputs enter as hashes, which a `PrecomputedTransactionData` may provide.
-/

namespace DeVault

open Option List Bytes SigHashType CTxOut

/-- `uint256`. -/
abbrev UInt256 := Fin (2 ^ 256)

section Digest

variable (hash256 : List UInt8 → UInt256)

/-- The hash of values written one behind the other. -/
def hashList {α : Type} (write : α → Option (List UInt8)) (xs : List α) : Option UInt256 :=
  (writeList write xs).map hash256

variable (ctx : ScriptExecutionContext)

/-- `GetPrevoutHash`. -/
def getPrevoutHash : Option UInt256 :=
  hashList hash256 (fun o => some (COutPoint.serialize o)) ctx.tx.prevouts

/-- `GetSequenceHash`. -/
def getSequenceHash : Option UInt256 :=
  hashList hash256 (fun n => some (leBytes 4 n)) (ctx.tx.vin.map (·.nSequence))

/-- `GetOutputsHash`. It throws if token data cannot be written. -/
def getOutputsHash : Option UInt256 :=
  hashList hash256 serialize ctx.tx.vout

/-- `GetUtxosHash`. -/
def getUtxosHash : Option UInt256 :=
  hashList hash256 serialize (ctx.inputCoins.map (·.out))

/-- `PrecomputedTransactionData`. -/
structure PrecomputedTransactionData where
  hashPrevouts : UInt256
  hashSequence : UInt256
  hashOutputs : UInt256
  hashUtxos : Option UInt256
  deriving DecidableEq, Repr

/-- `PopulateFromContext`. -/
def populateFromContext : Option PrecomputedTransactionData :=
  (getPrevoutHash hash256 ctx).bind fun hashPrevouts =>
    (getSequenceHash hash256 ctx).bind fun hashSequence =>
      (getOutputsHash hash256 ctx).bind fun hashOutputs =>
        if ctx.limited then some ⟨hashPrevouts, hashSequence, hashOutputs, none⟩
        else (getUtxosHash hash256 ctx).map fun hashUtxos =>
          ⟨hashPrevouts, hashSequence, hashOutputs, some hashUtxos⟩

/-- A hash from the cache, or computed without one. -/
def fromCache (cache : Option PrecomputedTransactionData)
    (field : PrecomputedTransactionData → UInt256) (compute : Option UInt256) : Option UInt256 :=
  match cache with
  | some c => some (field c)
  | none => compute

variable (t : SigHashType) (cache : Option PrecomputedTransactionData) (flags : UInt32)

/-- `hashPrevouts` of the digest. -/
def digestPrevouts : Option UInt256 :=
  if t.hasAnyoneCanPay then some 0
  else fromCache cache (·.hashPrevouts) (getPrevoutHash hash256 ctx)

/-- `hashSequence` of the digest. -/
def digestSequence : Option UInt256 :=
  if !t.hasAnyoneCanPay && t.getBaseType ≠ baseSingle &&
      t.getBaseType ≠ baseNone then
    fromCache cache (·.hashSequence) (getSequenceHash hash256 ctx)
  else some 0

/-- `hashUtxos` of the digest, as it is written. It throws if the digest covers all coins
and the context is limited. -/
def digestUtxos : Option (List UInt8) :=
  if t.hasUtxos && hasFlag flags scriptEnableTokens then
    match cache.bind (·.hashUtxos) with
    | some hashUtxos => some (leBytes 32 hashUtxos)
    | none =>
      if ctx.limited then none
      else (getUtxosHash hash256 ctx).map fun hashUtxos => leBytes 32 hashUtxos
  else some []

/-- `hashOutputs` of the digest. -/
def digestOutputs : Option UInt256 :=
  if t.getBaseType ≠ baseSingle ∧ t.getBaseType ≠ baseNone then
    fromCache cache (·.hashOutputs) (getOutputsHash hash256 ctx)
  else if t.getBaseType = baseSingle then
    match ctx.tx.vout[ctx.nIn]? with
    | some out => out.serialize.map hash256
    | none => some 0
  else some 0

/-- The token payload of the spent coin, with the byte that announces it. -/
def digestToken : Option (List UInt8) :=
  match ctx.coin.out.tokenDataPtr with
  | some d =>
    if hasFlag flags scriptEnableTokens then d.serialize.map fun w => tokenPrefixByte :: w
    else some []
  | none => some []

/-- The fields that are written into the digest. -/
structure DigestFields where
  nVersion : Int
  hashPrevouts : UInt256
  utxos : List UInt8
  hashSequence : UInt256
  prevout : COutPoint
  token : List UInt8
  scriptCode : CScript
  nValue : Int
  nSequence : Nat
  hashOutputs : UInt256
  nLockTime : Nat
  sigHashType : SigHashType
  deriving DecidableEq, Repr

/-- The fields of the digest of an input. -/
def digestFields (scriptCode : CScript) : Option DigestFields :=
  (digestPrevouts hash256 ctx t cache).bind fun hashPrevouts =>
    (digestUtxos hash256 ctx t cache flags).bind fun utxos =>
      (digestSequence hash256 ctx t cache).bind fun hashSequence =>
        (digestToken ctx flags).bind fun token =>
          (digestOutputs hash256 ctx t cache).map fun hashOutputs =>
            { nVersion := ctx.tx.nVersion
              hashPrevouts, utxos, hashSequence
              prevout := ctx.txin.prevout
              token, scriptCode
              nValue := ctx.coin.out.nValue
              nSequence := ctx.txin.nSequence
              hashOutputs
              nLockTime := ctx.tx.nLockTime
              sigHashType := t }

variable (f : DigestFields)

namespace DigestFields

/-- The fields behind the script. -/
def tail : List UInt8 :=
  leBytes 8 (ofSigned 8 f.nValue) ++ (leBytes 4 f.nSequence ++ (leBytes 32 f.hashOutputs ++
    (leBytes 4 f.nLockTime ++ leBytes 4 f.sigHashType.sigHash.toNat)))

/-- The fields up to the script. -/
def front : List UInt8 :=
  leBytes 4 (ofSigned 4 f.nVersion) ++ (leBytes 32 f.hashPrevouts ++ (f.utxos ++
    (leBytes 32 f.hashSequence ++ (f.prevout.serialize ++ (f.token ++ writeVector f.scriptCode)))))

/-- What is hashed. -/
def write : List UInt8 := f.front ++ f.tail

/-- The ranges of the types. -/
structure Sized (f : DigestFields) : Prop where
  nVersion : SignedRange 4 f.nVersion
  prevout : f.prevout.Sized
  scriptCode : f.scriptCode.length < 2 ^ 64
  nValue : SignedRange 8 f.nValue
  nSequence : f.nSequence < 2 ^ 32
  nLockTime : f.nLockTime < 2 ^ 32

variable {f g : DigestFields}

theorem length_tail : f.tail.length = 52 := by
  simp [tail]

/-- **The fields behind the script** are at fixed distances from the end. -/
theorem write_tail (hf : f.Sized) (hg : g.Sized) (h : f.write = g.write) :
    f.front = g.front ∧ f.nValue = g.nValue ∧ f.nSequence = g.nSequence ∧
      f.hashOutputs = g.hashOutputs ∧ f.nLockTime = g.nLockTime ∧
        f.sigHashType = g.sigHashType := by
  obtain ⟨hfront, h⟩ := append_inj' h (by rw [length_tail, length_tail])
  obtain ⟨hvalue, h⟩ := signed_append_inj hf.nValue hg.nValue h
  obtain ⟨hsequence, h⟩ := leBytes_append_inj (lt_of_lt_of_eq hf.nSequence (by norm_num))
    (lt_of_lt_of_eq hg.nSequence (by norm_num)) h
  obtain ⟨houtputs, h⟩ := leBytes_append_inj (lt_of_lt_of_eq f.hashOutputs.isLt (by norm_num))
    (lt_of_lt_of_eq g.hashOutputs.isLt (by norm_num)) h
  obtain ⟨hlock, h⟩ := leBytes_append_inj (lt_of_lt_of_eq hf.nLockTime (by norm_num))
    (lt_of_lt_of_eq hg.nLockTime (by norm_num)) h
  have htype := leBytes_inj (lt_of_lt_of_eq f.sigHashType.sigHash.toNat_lt (by norm_num))
    (lt_of_lt_of_eq g.sigHashType.sigHash.toNat_lt (by norm_num)) h
  refine ⟨hfront, hvalue, hsequence, Fin.ext houtputs, hlock, ?_⟩
  have hraw := UInt32.toNat_inj.mp htype
  rw [SigHashType.mk.injEq]
  exact hraw

/-- **The fields up to the script**, where the optional ones are known to be alike. -/
theorem write_front (hf : f.Sized) (hg : g.Sized) (h : f.front = g.front)
    (hutxos : f.utxos.length = g.utxos.length)
    (htoken : ∀ rest rest', f.token ++ rest = g.token ++ rest' → rest = rest') :
    f.nVersion = g.nVersion ∧ f.hashPrevouts = g.hashPrevouts ∧ f.utxos = g.utxos ∧
      f.hashSequence = g.hashSequence ∧ f.prevout = g.prevout ∧ f.scriptCode = g.scriptCode := by
  obtain ⟨hversion, h⟩ := signed_append_inj hf.nVersion hg.nVersion h
  obtain ⟨hprevouts, h⟩ := leBytes_append_inj (lt_of_lt_of_eq f.hashPrevouts.isLt (by norm_num))
    (lt_of_lt_of_eq g.hashPrevouts.isLt (by norm_num)) h
  obtain ⟨hsame, h⟩ := append_inj h hutxos
  obtain ⟨hsequence, h⟩ := leBytes_append_inj (lt_of_lt_of_eq f.hashSequence.isLt (by norm_num))
    (lt_of_lt_of_eq g.hashSequence.isLt (by norm_num)) h
  -- the outpoint is read back whatever follows
  have hread := COutPoint.unserialize_serialize hf.prevout (f.token ++ writeVector f.scriptCode)
  rw [h, COutPoint.unserialize_serialize hg.prevout] at hread
  obtain ⟨hprevout, h⟩ := Prod.mk.inj (some.inj hread)
  have hscript : writeVector f.scriptCode ++ [] = writeVector g.scriptCode ++ [] := by
    rw [append_nil, append_nil]
    exact htoken _ _ h.symm
  exact ⟨hversion, Fin.ext hprevouts, hsame, Fin.ext hsequence, hprevout.symm,
    (writeVector_append_inj hf.scriptCode hg.scriptCode hscript).1⟩

end DigestFields

/-- `SignatureHashResult`. -/
structure SignatureHashResult where
  signatureHash : UInt256
  bytesHashed : Nat
  deriving DecidableEq, Repr

/-- `SignatureHash` for a type with `SIGHASH_FORKID`, where the flag enables it. There is no
result if it throws. -/
def signatureHash (scriptCode : CScript) : Option SignatureHashResult :=
  (digestFields hash256 ctx t cache flags scriptCode).map fun f => ⟨hash256 f.write, f.write.length⟩

end Digest

/-! ### The record of what is hashed -/

section Record

variable (hash256 : List UInt8 → UInt256)

/-- A list as it enters the digest: its hash, or 0 if it is not covered. -/
def hashCovered {α : Type} (write : α → Option (List UInt8)) : Option (List α) → Option UInt256
  | none => some 0
  | some xs => hashList hash256 write xs

/-- The fields of the digest for a record of what is hashed. -/
def ForkIdPreimage.fields (pre : ForkIdPreimage) : Option DigestFields :=
  (hashCovered hash256 (fun o => some (COutPoint.serialize o)) pre.hashPrevouts).bind
    fun hashPrevouts =>
  (match pre.hashUtxos with
    | none => some []
    | some outs => (hashList hash256 serialize outs).map fun h => leBytes 32 h).bind fun utxos =>
  (hashCovered hash256 (fun n => some (leBytes 4 n)) pre.hashSequence).bind fun hashSequence =>
  (match pre.tokenData with
    | none => some []
    | some d => d.serialize.map fun w => tokenPrefixByte :: w).bind fun token =>
  (hashCovered hash256 serialize pre.hashOutputs).map fun hashOutputs =>
    ⟨pre.nVersion, hashPrevouts, utxos, hashSequence, pre.prevout, token,
      pre.scriptCode, pre.nValue,
      pre.nSequence, hashOutputs, pre.nLockTime, pre.sigHashType⟩

variable {ctx : ScriptExecutionContext} {t : SigHashType}

theorem digestOutputs_eq_hashCovered :
    digestOutputs hash256 ctx t none =
      hashCovered hash256 serialize (hashedOutputs ctx.tx ctx.nIn t) := by
  unfold digestOutputs hashedOutputs
  split
  · rfl
  · split
    · cases ctx.tx.vout[ctx.nIn]? with
      | none => rfl
      | some out =>
        simp only [hashCovered, hashList, map_some, writeList, append_nil, map_some]
        cases out.serialize <;> rfl
    · rfl

variable {flags : UInt32} {scriptCode : CScript} {pre : ForkIdPreimage}

/-- The digest hashes what is in the preimage, field by field. -/
theorem digestFields_of_forkIdPreimage (h : forkIdPreimage scriptCode ctx t flags = .ok pre) :
    digestFields hash256 ctx t none flags scriptCode = pre.fields hash256 := by
  unfold forkIdPreimage at h
  simp only at h
  split at h
  · cases h
  next hlimited =>
  cases h
  -- without a cached transaction each hash is made anew
  have hp : digestPrevouts hash256 ctx t none =
      hashCovered hash256 (fun o => some (COutPoint.serialize o))
        (if t.hasAnyoneCanPay then none else some ctx.tx.prevouts) := by
    unfold digestPrevouts
    split <;> rfl
  have hs : digestSequence hash256 ctx t none =
      hashCovered hash256 (fun n => some (leBytes 4 n))
        (if !t.hasAnyoneCanPay && t.getBaseType ≠ baseSingle &&
            t.getBaseType ≠ baseNone then some (ctx.tx.vin.map (·.nSequence))
          else none) := by
    unfold digestSequence
    split <;> rfl
  have hu : digestUtxos hash256 ctx t none flags =
      (match (if t.hasUtxos && hasFlag flags scriptEnableTokens then
          some (ctx.inputCoins.map (·.out)) else none) with
        | none => some []
        | some outs => (hashList hash256 serialize outs).map fun h => leBytes 32 h) := by
    unfold digestUtxos
    split
    next hcond =>
      rw [hcond, Bool.true_and, Bool.not_eq_true] at hlimited
      rw [hlimited]
      rfl
    · rfl
  have htok : digestToken ctx flags =
      (match (if hasFlag flags scriptEnableTokens then ctx.coin.out.tokenDataPtr else none) with
        | none => some []
        | some d => d.serialize.map fun w => tokenPrefixByte :: w) := by
    unfold digestToken
    cases ctx.coin.out.tokenDataPtr with
    | none => rw [ite_self]
    | some d => cases hasFlag flags scriptEnableTokens <;> rfl
  rw [digestFields, hp, hu, hs, htok, digestOutputs_eq_hashCovered]
  rfl

/-- **The bytes of the digest are those of the record**, so that two contexts with one record have
one digest. -/
theorem digestFields_eq_fields (h : forkIdPreimage scriptCode ctx t flags = .ok pre) :
    digestFields hash256 ctx t none flags scriptCode = pre.fields hash256 ∧
      ∀ ctx' t' flags' scriptCode', forkIdPreimage scriptCode' ctx' t' flags' = .ok pre →
        signatureHash hash256 ctx' t' none flags' scriptCode' =
          signatureHash hash256 ctx t none flags scriptCode := by
  have hfields := digestFields_of_forkIdPreimage hash256 h
  refine ⟨hfields, fun ctx' t' flags' scriptCode' h' => ?_⟩
  rw [signatureHash, signatureHash, hfields, digestFields_of_forkIdPreimage hash256 h']

end Record

/-! ### The cache -/

section Cache

variable {hash256 : List UInt8 → UInt256} {ctx ctx₀ : ScriptExecutionContext}
  {c : PrecomputedTransactionData}

theorem populateFromContext_eq_some (h : populateFromContext hash256 ctx = some c) :
    getPrevoutHash hash256 ctx = some c.hashPrevouts ∧
      getSequenceHash hash256 ctx = some c.hashSequence ∧
      getOutputsHash hash256 ctx = some c.hashOutputs ∧
      c.hashUtxos = if ctx.limited then none else getUtxosHash hash256 ctx := by
  obtain ⟨hashPrevouts, hprevouts, h⟩ := bind_eq_some_iff.mp h
  obtain ⟨hashSequence, hsequence, h⟩ := bind_eq_some_iff.mp h
  obtain ⟨hashOutputs, houtputs, h⟩ := bind_eq_some_iff.mp h
  split at h
  next hlimited =>
    cases h
    exact ⟨hprevouts, hsequence, houtputs, (if_pos hlimited).symm⟩
  next hlimited =>
    obtain ⟨hashUtxos, hutxos, rfl⟩ := map_eq_some_iff.mp h
    exact ⟨hprevouts, hsequence, houtputs, by rw [if_neg hlimited, hutxos]⟩

/-- **The cache does not change the digest**, if it was populated from a context of the same
transaction with the same coins. -/
theorem signatureHash_cache (htx : ctx₀.tx = ctx.tx) (hcoins : ctx₀.inputCoins = ctx.inputCoins)
    (hlimited : ctx₀.limited = ctx.limited) (hc : populateFromContext hash256 ctx₀ = some c) :
    signatureHash hash256 ctx t (some c) flags scriptCode =
      signatureHash hash256 ctx t none flags scriptCode := by
  obtain ⟨hprevouts, hsequence, houtputs, hutxos⟩ := populateFromContext_eq_some hc
  rw [getPrevoutHash, htx] at hprevouts
  rw [getSequenceHash, htx] at hsequence
  rw [getOutputsHash, htx] at houtputs
  rw [getUtxosHash, hcoins, hlimited] at hutxos
  have hd₁ : digestPrevouts hash256 ctx t (some c) = digestPrevouts hash256 ctx t none := by
    simp only [digestPrevouts, fromCache, getPrevoutHash, hprevouts]
  have hd₂ : digestSequence hash256 ctx t (some c) = digestSequence hash256 ctx t none := by
    simp only [digestSequence, fromCache, getSequenceHash, hsequence]
  have hd₃ : digestOutputs hash256 ctx t (some c) = digestOutputs hash256 ctx t none := by
    simp only [digestOutputs, fromCache, getOutputsHash, houtputs]
  have hd₄ : digestUtxos hash256 ctx t (some c) flags = digestUtxos hash256 ctx t none flags := by
    simp only [digestUtxos, bind_some, bind_none, hutxos, getUtxosHash]
    -- in a limited context the cache has no hash of the coins either
    cases ctx.limited with
    | true => rfl
    | false =>
      simp only [Bool.false_eq_true, if_false]
      split
      · cases hashList hash256 serialize (ctx.inputCoins.map (·.out)) <;> rfl
      · rfl
  rw [signatureHash, signatureHash, digestFields, digestFields, hd₁, hd₂, hd₃, hd₄]

end Cache

/-! ### What a digest commits to -/

/-- The ranges of the types. -/
structure ScriptExecutionContext.Sized (ctx : ScriptExecutionContext) : Prop where
  nVersion : SignedRange 4 ctx.tx.nVersion
  nLockTime : ctx.tx.nLockTime < 2 ^ 32
  vin : ∀ txin ∈ ctx.tx.vin, txin.prevout.Sized ∧ txin.nSequence < 2 ^ 32
  nValue : SignedRange 8 ctx.coin.out.nValue
  commitment : ∀ d, ctx.coin.out.tokenDataPtr = some d → d.commitment.length < 2 ^ 64

variable {w : List UInt8} {h : UInt256}

section Commit

variable {hash256 : List UInt8 → UInt256} {ctx ctx' : ScriptExecutionContext} {t t' : SigHashType}
  {cache : Option PrecomputedTransactionData} {flags : UInt32} {scriptCode scriptCode' : CScript}
  {f f' : DigestFields}

theorem digestFields_eq_some (h : digestFields hash256 ctx t cache flags scriptCode = some f) :
    digestPrevouts hash256 ctx t cache = some f.hashPrevouts ∧
      digestUtxos hash256 ctx t cache flags = some f.utxos ∧
      digestSequence hash256 ctx t cache = some f.hashSequence ∧
      digestToken ctx flags = some f.token ∧
      digestOutputs hash256 ctx t cache = some f.hashOutputs ∧
      f.nVersion = ctx.tx.nVersion ∧ f.prevout = ctx.txin.prevout ∧ f.scriptCode = scriptCode ∧
      f.nValue = ctx.coin.out.nValue ∧ f.nSequence = ctx.txin.nSequence ∧
      f.nLockTime = ctx.tx.nLockTime ∧ f.sigHashType = t := by
  obtain ⟨hashPrevouts, hprevouts, h⟩ := bind_eq_some_iff.mp h
  obtain ⟨utxos, hutxos, h⟩ := bind_eq_some_iff.mp h
  obtain ⟨hashSequence, hsequence, h⟩ := bind_eq_some_iff.mp h
  obtain ⟨token, htoken, h⟩ := bind_eq_some_iff.mp h
  obtain ⟨hashOutputs, houtputs, rfl⟩ := map_eq_some_iff.mp h
  exact ⟨hprevouts, hutxos, hsequence, htoken, houtputs, rfl, rfl, rfl, rfl, rfl, rfl, rfl⟩

theorem sized_of_digestFields (hctx : ctx.Sized) (hlen : scriptCode.length < 2 ^ 64)
    (h : digestFields hash256 ctx t cache flags scriptCode = some f) : f.Sized := by
  obtain ⟨-, -, -, -, -, hversion, hprevout, hscript, hvalue, hsequence, hlock, -⟩ :=
    digestFields_eq_some h
  obtain ⟨hin, hseq⟩ := hctx.vin ctx.txin (get_mem _ _)
  constructor
  · rw [hversion]
    exact hctx.nVersion
  · rw [hprevout]
    exact hin
  · rw [hscript]
    exact hlen
  · rw [hvalue]
    exact hctx.nValue
  · rw [hsequence]
    exact hseq
  · rw [hlock]
    exact hctx.nLockTime

/-- The hash of the coins is written or not, depending on the type and the flags only. -/
theorem length_digestUtxos (h : digestUtxos hash256 ctx t cache flags = some w) :
    w.length = if t.hasUtxos && hasFlag flags scriptEnableTokens then 32 else 0 := by
  unfold digestUtxos at h
  split at h
  next hcond =>
    rw [if_pos hcond]
    split at h
    · rw [← some.inj h, length_leBytes]
    · obtain ⟨-, h⟩ := ite_none_left_eq_some.mp h
      obtain ⟨u, -, rfl⟩ := map_eq_some_iff.mp h
      rw [length_leBytes]
  next hcond => rw [if_neg hcond, ← some.inj h, length_nil]

/-- The token payloads end by themselves, if both coins have one or none has. -/
theorem digestToken_append (hctx : ctx.Sized) (hctx' : ctx'.Sized)
    (hboth : ctx.coin.out.tokenDataPtr.isSome = ctx'.coin.out.tokenDataPtr.isSome)
    {w' : List UInt8} (hw : digestToken ctx flags = some w) (hw' : digestToken ctx' flags = some w')
    (rest rest' : List UInt8) (h : w ++ rest = w' ++ rest') : rest = rest' := by
  unfold digestToken at hw hw'
  cases hd : ctx.coin.out.tokenDataPtr with
  | none =>
    rw [hd] at hw hboth
    have hd' : ctx'.coin.out.tokenDataPtr = none := isSome_eq_false_iff.mp hboth.symm |>
      isNone_iff_eq_none.mp
    rw [hd'] at hw'
    rw [← some.inj hw, ← some.inj hw'] at h
    exact h
  | some d =>
    rw [hd] at hw hboth
    obtain ⟨d', hd'⟩ := isSome_iff_exists.mp hboth.symm
    rw [hd'] at hw'
    simp only at hw hw'
    by_cases hflag : hasFlag flags scriptEnableTokens = true
    · rw [if_pos hflag] at hw hw'
      obtain ⟨v, hv, rfl⟩ := map_eq_some_iff.mp hw
      obtain ⟨v', hv', rfl⟩ := map_eq_some_iff.mp hw'
      exact OutputData.serialize_append (hctx.commitment d hd) (hctx'.commitment d' hd') hv hv'
        (cons.inj h).2
    · rw [if_neg hflag] at hw hw'
      rw [← some.inj hw, ← some.inj hw'] at h
      exact h

variable (hash256 ctx t flags scriptCode) in
/-- The byte strings that are hashed for a digest. -/
def hashedStrings : Set (List UInt8) :=
  {w | writeList (fun o => some (COutPoint.serialize o)) ctx.tx.prevouts = some w ∨
    writeList (fun n => some (leBytes 4 n)) (ctx.tx.vin.map (·.nSequence)) = some w ∨
    writeList serialize ctx.tx.vout = some w ∨
    (∃ out, ctx.tx.vout[ctx.nIn]? = some out ∧ out.serialize = some w) ∨
    ∃ f, digestFields hash256 ctx t none flags scriptCode = some f ∧ w = f.write}

/-- Lists with one hash are equal, if the hash has no collision between their strings and
their values are read back. -/
theorem eq_of_hashList_eq {α : Type} {write : α → Option (List UInt8)} (read : Reader α)
    {xs ys : List α} {strings : Set (List UInt8)} (hinj : Set.InjOn hash256 strings)
    (hsx : ∀ w, writeList write xs = some w → w ∈ strings)
    (hsy : ∀ w, writeList write ys = some w → w ∈ strings)
    (hx : hashList hash256 write xs = some h) (hy : hashList hash256 write ys = some h)
    (hnil : read [] = none)
    (hread : ∀ x, x ∈ xs ∨ x ∈ ys → ∀ v, write x = some v → ∀ rest,
      read (v ++ rest) = some (x, rest)) :
    xs = ys := by
  obtain ⟨w, hw, hhash⟩ := map_eq_some_iff.mp hx
  obtain ⟨w', hw', hhash'⟩ := map_eq_some_iff.mp hy
  obtain rfl : w = w' := hinj (hsx w hw) (hsy w' hw') (hhash.trans hhash'.symm)
  exact eq_of_writeList_eq hnil (fun x hx => hread x (.inl hx))
    (fun y hy => hread y (.inr hy)) hw hw'

theorem CTxOut.read_back {out : CTxOut} (h : out.Representable) {v : List UInt8}
    (hv : out.serialize = some v) (rest : List UInt8) :
    unserialize (v ++ rest) = some (out, rest) := by
  obtain ⟨w, hw, hread⟩ := unserialize_serialize h
  obtain rfl : v = w := some.inj (hv.symm.trans hw)
  exact hread rest

variable (hctx : ctx.Sized) (hctx' : ctx'.Sized)
  (hwire : ∀ out ∈ ctx.tx.vout, out.Representable)
  (hwire' : ∀ out ∈ ctx'.tx.vout, out.Representable)
  (hinj : Set.InjOn hash256 (hashedStrings hash256 ctx t flags scriptCode ∪
    hashedStrings hash256 ctx' t flags scriptCode'))

include hctx hctx' hinj in
/-- Without `ANYONECANPAY` the digest covers all outpoints. -/
theorem prevouts_eq_of_digest (hpay : t.hasAnyoneCanPay = false)
    (hd : digestPrevouts hash256 ctx t none = some h)
    (hd' : digestPrevouts hash256 ctx' t none = some h) : ctx.tx.prevouts = ctx'.tx.prevouts := by
  rw [digestPrevouts, hpay] at hd hd'
  refine eq_of_hashList_eq COutPoint.unserialize hinj (fun w hw => .inl (.inl hw))
    (fun w hw => .inr (.inl hw)) hd hd' rfl fun o ho v hv rest => ?_
  have hsized : o.Sized := by
    rcases ho with ho | ho
    · obtain ⟨txin, hin, rfl⟩ := mem_map.mp ho
      exact (hctx.vin txin hin).1
    · obtain ⟨txin, hin, rfl⟩ := mem_map.mp ho
      exact (hctx'.vin txin hin).1
  rw [← some.inj hv]
  exact COutPoint.unserialize_serialize hsized rest

include hctx hctx' hinj in
/-- Without `ANYONECANPAY`, and for other types than `SINGLE` and `NONE`, it covers all
sequences. -/
theorem sequences_eq_of_digest (hpay : t.hasAnyoneCanPay = false)
    (hsingle : t.getBaseType ≠ baseSingle) (hnone : t.getBaseType ≠ baseNone)
    (hd : digestSequence hash256 ctx t none = some h)
    (hd' : digestSequence hash256 ctx' t none = some h) :
    ctx.tx.vin.map (·.nSequence) = ctx'.tx.vin.map (·.nSequence) := by
  simp only [digestSequence, hpay, hsingle, hnone, Bool.not_false, ne_eq, not_false_eq_true,
    decide_true, Bool.and_self, if_true] at hd hd'
  refine eq_of_hashList_eq (readLe 4) hinj (fun w hw => .inl (.inr (.inl hw)))
    (fun w hw => .inr (.inr (.inl hw))) hd hd' rfl fun n hn v hv rest => ?_
  have hlt : n < 2 ^ 32 := by
    rcases hn with hn | hn
    · obtain ⟨txin, hin, rfl⟩ := mem_map.mp hn
      exact (hctx.vin txin hin).2
    · obtain ⟨txin, hin, rfl⟩ := mem_map.mp hn
      exact (hctx'.vin txin hin).2
  rw [← some.inj hv]
  exact readLe_leBytes (lt_of_lt_of_eq hlt (by norm_num)) rest

include hwire hwire' hinj in
/-- For other types than `SINGLE` and `NONE` it covers all outputs. -/
theorem outputs_eq_of_digest (hsingle : t.getBaseType ≠ baseSingle)
    (hnone : t.getBaseType ≠ baseNone) (hd : digestOutputs hash256 ctx t none = some h)
    (hd' : digestOutputs hash256 ctx' t none = some h) : ctx.tx.vout = ctx'.tx.vout := by
  rw [digestOutputs, if_pos ⟨hsingle, hnone⟩] at hd hd'
  refine eq_of_hashList_eq unserialize hinj (fun w hw => .inl (.inr (.inr (.inl hw))))
    (fun w hw => .inr (.inr (.inr (.inl hw)))) hd hd' rfl fun out hout v hv rest => ?_
  rcases hout with hout | hout
  · exact read_back (hwire out hout) hv rest
  · exact read_back (hwire' out hout) hv rest

/-- For `SINGLE`, the hash of the output at the index of the input, or 0 if there is none. -/
theorem digestOutputs_single (hsingle : t.getBaseType = baseSingle)
    (hd : digestOutputs hash256 ctx t none = some h) :
    (ctx.tx.vout[ctx.nIn]? = none ∧ h = 0) ∨
      ∃ out w, ctx.tx.vout[ctx.nIn]? = some out ∧ out.serialize = some w ∧ hash256 w = h := by
  rw [digestOutputs, if_neg (fun hne => hne.1 hsingle), if_pos hsingle] at hd
  cases hout : ctx.tx.vout[ctx.nIn]? with
  | none =>
    rw [hout] at hd
    exact .inl ⟨rfl, (some.inj hd).symm⟩
  | some out =>
    rw [hout] at hd
    obtain ⟨w, hw, hhash⟩ := map_eq_some_iff.mp hd
    exact .inr ⟨out, w, rfl, hw, hhash⟩

include hwire hwire' hinj in
theorem single_eq_of_digest (hsingle : t.getBaseType = baseSingle)
    (hd : digestOutputs hash256 ctx t none = some h)
    (hd' : digestOutputs hash256 ctx' t none = some h) {out out' : CTxOut}
    (hout : ctx.tx.vout[ctx.nIn]? = some out) (hout' : ctx'.tx.vout[ctx'.nIn]? = some out') :
    out = out' := by
  rcases digestOutputs_single hsingle hd with ⟨hnone, -⟩ | ⟨o, w, ho, hw, hhash⟩
  · cases hnone.symm.trans hout
  rcases digestOutputs_single hsingle hd' with ⟨hnone, -⟩ | ⟨o', w', ho', hw', hhash'⟩
  · cases hnone.symm.trans hout'
  obtain rfl : o = out := some.inj (ho.symm.trans hout)
  obtain rfl : o' = out' := some.inj (ho'.symm.trans hout')
  have hin : w ∈ hashedStrings hash256 ctx t flags scriptCode :=
    .inr (.inr (.inr (.inl ⟨o, ho, hw⟩)))
  have hin' : w' ∈ hashedStrings hash256 ctx' t flags scriptCode' :=
    .inr (.inr (.inr (.inl ⟨o', ho', hw'⟩)))
  obtain rfl : w = w' := hinj (.inl hin) (.inr hin') (hhash.trans hhash'.symm)
  have hread := read_back (hwire o (mem_of_getElem? ho)) hw []
  rw [read_back (hwire' o' (mem_of_getElem? ho')) hw' []] at hread
  exact (Prod.mk.inj (some.inj hread)).1.symm

end Commit

/-- **A digest determines what it covers.** The cache does not change it. And if the hash has no
collision among the strings that are hashed, two equal digests under the same flags are made with
the same hash type, of the same version, lock time, outpoint, sequence, script and coin value.
Without `ANYONECANPAY`, and for other types than `SINGLE` and `NONE`, all outpoints, sequences and
outputs are the same, too; for `SINGLE` the outputs at the indices of the inputs are. (If one index
has no output, the hash of the other output would have to be the null hash.) Coins with token data
are compared with such coins only, and outputs are as on the wire. -/
theorem signatureHash_commits (hash256 : List UInt8 → UInt256) :
    (∀ (ctx ctx₀ : ScriptExecutionContext) (c : PrecomputedTransactionData) (t : SigHashType)
      (flags : UInt32) (scriptCode : CScript), ctx₀.tx = ctx.tx →
      ctx₀.inputCoins = ctx.inputCoins → ctx₀.limited = ctx.limited →
      populateFromContext hash256 ctx₀ = some c →
      signatureHash hash256 ctx t (some c) flags scriptCode =
        signatureHash hash256 ctx t none flags scriptCode) ∧
    ∀ (ctx ctx' : ScriptExecutionContext) (t t' : SigHashType) (flags : UInt32)
      (scriptCode scriptCode' : CScript) (r : SignatureHashResult),
      ctx.Sized → ctx'.Sized → scriptCode.length < 2 ^ 64 → scriptCode'.length < 2 ^ 64 →
      (∀ out ∈ ctx.tx.vout, out.Representable) → (∀ out ∈ ctx'.tx.vout, out.Representable) →
      ctx.coin.out.tokenDataPtr.isSome = ctx'.coin.out.tokenDataPtr.isSome →
      Set.InjOn hash256 (hashedStrings hash256 ctx t flags scriptCode ∪
        hashedStrings hash256 ctx' t' flags scriptCode') →
      signatureHash hash256 ctx t none flags scriptCode = some r →
      signatureHash hash256 ctx' t' none flags scriptCode' = some r →
      t = t' ∧ ctx.tx.nVersion = ctx'.tx.nVersion ∧ ctx.tx.nLockTime = ctx'.tx.nLockTime ∧
      ctx.txin.prevout = ctx'.txin.prevout ∧ ctx.txin.nSequence = ctx'.txin.nSequence ∧
      scriptCode = scriptCode' ∧ ctx.coin.out.nValue = ctx'.coin.out.nValue ∧
      (t.hasAnyoneCanPay = false → t.getBaseType ≠ baseSingle →
        t.getBaseType ≠ baseNone →
        ctx.tx.prevouts = ctx'.tx.prevouts ∧
        ctx.tx.vin.map (·.nSequence) = ctx'.tx.vin.map (·.nSequence) ∧
        ctx.tx.vout = ctx'.tx.vout) ∧
      (t.getBaseType = baseSingle →
        (∀ out out', ctx.tx.vout[ctx.nIn]? = some out → ctx'.tx.vout[ctx'.nIn]? = some out' →
          out = out') ∧
        ((∀ w, hash256 w ≠ 0) → ctx.tx.vout[ctx.nIn]? = ctx'.tx.vout[ctx'.nIn]?)) := by
  refine ⟨fun ctx ctx₀ c t flags scriptCode htx hcoins hlimited hc =>
    signatureHash_cache htx hcoins hlimited hc, ?_⟩
  intro ctx ctx' t t' flags scriptCode scriptCode' r hctx hctx' hlen hlen' hwire hwire' hboth hinj
    hr hr'
  obtain ⟨f, hf, rfl⟩ := map_eq_some_iff.mp hr
  obtain ⟨f', hf', heq⟩ := map_eq_some_iff.mp hr'
  have hwrite : f.write = f'.write := by
    refine hinj (.inl ?_) (.inr ?_) (congrArg SignatureHashResult.signatureHash heq).symm
    · exact .inr (.inr (.inr (.inr ⟨f, hf, rfl⟩)))
    · exact .inr (.inr (.inr (.inr ⟨f', hf', rfl⟩)))
  have hsf := sized_of_digestFields hctx hlen hf
  have hsf' := sized_of_digestFields hctx' hlen' hf'
  obtain ⟨hp, hu, hs, htok, ho, hversion, hprevout, hscript, hvalue, hsequence, hlock, htype⟩ :=
    digestFields_eq_some hf
  obtain ⟨hp', hu', hs', htok', ho', hversion', hprevout', hscript', hvalue', hsequence', hlock',
    htype'⟩ := digestFields_eq_some hf'
  obtain ⟨hfront, hval, hseq, houtputs, hlk, hty⟩ := DigestFields.write_tail hsf hsf' hwrite
  -- with the type it is known which of the optional fields are there
  obtain rfl : t = t' := by rw [← htype, ← htype', hty]
  obtain ⟨hver, hprevouts, -, hseqs, hprev, hsc⟩ := DigestFields.write_front hsf hsf' hfront
    (by rw [length_digestUtxos hu, length_digestUtxos hu'])
    (digestToken_append hctx hctx' hboth htok htok')
  rw [← hprevouts] at hp'
  rw [← hseqs] at hs'
  rw [← houtputs] at ho'
  refine ⟨rfl, ?_, ?_, ?_, ?_, ?_, ?_, ?_, ?_⟩
  · rw [← hversion, ← hversion', hver]
  · rw [← hlock, ← hlock', hlk]
  · rw [← hprevout, ← hprevout', hprev]
  · rw [← hsequence, ← hsequence', hseq]
  · rw [← hscript, ← hscript', hsc]
  · rw [← hvalue, ← hvalue', hval]
  · intro hpay hsingle hnone
    exact ⟨prevouts_eq_of_digest hctx hctx' hinj hpay hp hp',
      sequences_eq_of_digest hctx hctx' hinj hpay hsingle hnone hs hs',
      outputs_eq_of_digest hwire hwire' hinj hsingle hnone ho ho'⟩
  · intro hsingle
    refine ⟨fun out out' hout hout' =>
      single_eq_of_digest hwire hwire' hinj hsingle ho ho' hout hout', fun hnull => ?_⟩
    rcases digestOutputs_single hsingle ho with ⟨hout, hzero⟩ | ⟨out, w, hout, hw, hhash⟩
    · rcases digestOutputs_single hsingle ho' with ⟨hout', -⟩ | ⟨out', w', -, -, hhash'⟩
      · rw [hout, hout']
      · exact absurd (hhash'.trans hzero) (hnull w')
    · rcases digestOutputs_single hsingle ho' with ⟨-, hzero'⟩ | ⟨out', w', hout', -, -⟩
      · exact absurd (hhash.trans hzero') (hnull w)
      · rw [hout, hout', single_eq_of_digest hwire hwire' hinj hsingle ho ho' hout hout']

namespace OneInput

/-- A context with one input, whose coin has no tokens. -/
def context (scriptSig : CScript) (out : CTxOut) : ScriptExecutionContext where
  tx := ⟨[⟨⟨1, 0⟩, scriptSig, 0xffffffff⟩], [out], 2, 0, 9⟩
  inputCoins := [⟨⟨500, [0x51], none⟩, 1, false⟩]
  nIn := 0
  length_inputCoins := rfl
  nIn_lt := Nat.one_pos

/-- `ALL | FORKID`. -/
def allFork : SigHashType := ⟨0x41⟩

/-- A hash that has no collisions between strings of different length. -/
def lengthHash (w : List UInt8) : UInt256 := Fin.ofNat (2 ^ 256) w.length

/-- The digest does not depend on the signature. -/
theorem digestFields_eq_fields_oneInput :
    signatureHash lengthHash (context [0x52] ⟨100, [0x51], none⟩) allFork none
        scriptEnableSighashForkid [0x51] =
      signatureHash lengthHash (context [] ⟨100, [0x51], none⟩) allFork none
        scriptEnableSighashForkid [0x51] :=
  (digestFields_eq_fields lengthHash rfl).2 _ _ _ _ rfl

theorem sized (scriptSig : CScript) (out : CTxOut) : (context scriptSig out).Sized where
  nVersion := by
    show SignedRange 4 2
    constructor <;> decide
  nLockTime := Nat.two_pow_pos 32
  vin := by
    intro txin h
    obtain rfl := mem_singleton.mp h
    show COutPoint.Sized ⟨1, 0⟩ ∧ 0xffffffff < 2 ^ 32
    exact ⟨⟨by decide, by decide⟩, by decide⟩
  nValue := by
    show SignedRange 8 500
    constructor <;> decide
  commitment := by
    intro d h
    exact absurd h (by simp [context, ScriptExecutionContext.coin])

/-- An output without tokens, as it is read off the wire. -/
theorem representable : CTxOut.Representable ⟨100, [0x51], none⟩ := by
  refine ⟨by constructor <;> decide, [0x51], by decide, rfl⟩

/-- The strings that are hashed for `ALL`: the outpoint, the sequence, the output and the
digest. -/
theorem mem_of_hashed {scriptSig : CScript}
    (h : w ∈ hashedStrings lengthHash (context scriptSig ⟨100, [0x51], none⟩) allFork
      scriptEnableSighashForkid [0x51]) :
    w ∈ [leBytes 32 1 ++ leBytes 4 0, leBytes 4 0xffffffff, leBytes 8 100 ++ [1, 0x51],
      DigestFields.write ⟨2, 36, [], 4, ⟨1, 0⟩, [], [0x51], 500, 0xffffffff, 10, 0, allFork⟩] := by
  rcases h with h | h | h | ⟨out, hout, h⟩ | ⟨f, hf, rfl⟩
  · cases h
    exact mem_cons_self
  · cases h
    exact mem_cons_of_mem _ mem_cons_self
  · cases h
    exact mem_cons_of_mem _ (mem_cons_of_mem _ mem_cons_self)
  · cases hout
    cases h
    exact mem_cons_of_mem _ (mem_cons_of_mem _ mem_cons_self)
  · have hfields : f = ⟨2, 36, [], 4, ⟨1, 0⟩, [], [0x51], 500, 0xffffffff, 10, 0, allFork⟩ :=
      (some.inj hf).symm
    rw [hfields]
    exact mem_cons_of_mem _ (mem_cons_of_mem _ (mem_cons_of_mem _ mem_cons_self))

/-- The digest does not cover the script of the input. -/
theorem signatureHash_commits_scriptSig :
    let out : CTxOut := ⟨100, [0x51], none⟩
    signatureHash lengthHash (context [] out) allFork none scriptEnableSighashForkid [0x51] =
        signatureHash lengthHash (context [0x51] out) allFork none
          scriptEnableSighashForkid [0x51] ∧
      (context [] out).tx.prevouts = (context [0x51] out).tx.prevouts ∧
      (context [] out).tx.vout = (context [0x51] out).tx.vout := by
  intro out
  have hinj : Set.InjOn lengthHash
    (hashedStrings lengthHash (context [] out) allFork scriptEnableSighashForkid [0x51] ∪
      hashedStrings lengthHash (context [0x51] out) allFork scriptEnableSighashForkid [0x51]) := by
    have hclosed : ∀ w ∈ [leBytes 32 1 ++ leBytes 4 0, leBytes 4 0xffffffff,
        leBytes 8 100 ++ [1, 0x51],
        DigestFields.write ⟨2, 36, [], 4, ⟨1, 0⟩, [], [0x51], 500, 0xffffffff, 10, 0, allFork⟩],
        ∀ v ∈ [leBytes 32 1 ++ leBytes 4 0, leBytes 4 0xffffffff, leBytes 8 100 ++ [1, 0x51],
        DigestFields.write ⟨2, 36, [], 4, ⟨1, 0⟩, [], [0x51], 500, 0xffffffff, 10, 0, allFork⟩],
        lengthHash w = lengthHash v → w = v := by
      decide +kernel
    intro w hw v hv
    exact hclosed w (hw.elim mem_of_hashed mem_of_hashed) v (hv.elim mem_of_hashed mem_of_hashed)
  obtain ⟨r, hr⟩ : ∃ r, signatureHash lengthHash (context [] out) allFork none
      scriptEnableSighashForkid [0x51] = some r :=
    ⟨_, rfl⟩
  have hr' : signatureHash lengthHash (context [0x51] out) allFork none
      scriptEnableSighashForkid [0x51] = some r := hr
  have hwire : ∀ o ∈ [out], o.Representable := by
    intro o ho
    obtain rfl := mem_singleton.mp ho
    exact representable
  obtain ⟨-, -, -, -, -, -, -, hall, -⟩ := (signatureHash_commits lengthHash).2 _ _ _ _ _ _ _ r
    (sized [] out) (sized [0x51] out) (by decide) (by decide) hwire hwire rfl hinj hr hr'
  obtain ⟨hprevouts, -, hvout⟩ := hall (by decide) (by decide) (by decide)
  exact ⟨hr.trans hr'.symm, hprevouts, hvout⟩

/-- **Two different outputs with one digest.** An output with ten tokens, and one without whose
script begins with the bytes of the payload. The latter cannot be read off the wire, but its digest
is defined. -/
theorem signatureHash_tokenPrefix :
    ∃ out out' : CTxOut, out ≠ out' ∧
      (context [] out).Sized ∧ (context [] out').Sized ∧
      (context [] out).coin.out.tokenDataPtr = none ∧
      (context [] out').coin.out.tokenDataPtr = none ∧
      ∀ hash256 : List UInt8 → UInt256, ∃ r,
        signatureHash hash256 (context [] out) allFork none
          scriptEnableSighashForkid [0x51] = some r ∧
        signatureHash hash256 (context [] out') allFork none
          scriptEnableSighashForkid [0x51] = some r := by
  refine ⟨⟨100, [0x51], some ⟨7, 0x10, 10, []⟩⟩,
    ⟨100, 0xef :: (leBytes 32 7 ++ [0x10, 10, 0x51]), none⟩, by decide +kernel,
      sized _ _, sized _ _,
    rfl, rfl, fun hash256 => ⟨_, rfl, ?_⟩⟩
  -- both outputs are written as the same bytes
  rfl

end OneInput

end DeVault
