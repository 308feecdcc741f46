import DeVault.Lib.Subsequence
import DeVault.Script.NumEncoding

/-!
# `OP_CHECKMULTISIG` (`interpreter.cpp`, `bitfield.cpp`)

The opcode takes keys, signatures and a dummy element from the stack and checks the signatures in
one of two ways. Without a bit field, it walks down keys and signatures together and tries every key
on the current signature (`legacyLoop`). With one, the bits say which key belongs to which signature
(`schnorrLoop`).

What the opcode asks of other code is in `MultisigEnv`: whether a signature is valid for a key and a
script code, and the encoding checks. Stacks are lists whose top comes first. The execution metrics
are left out.
-/

namespace DeVault

open Bytes List Nat Outcome Subsequence

/-- What the opcode calls, under given flags. -/
structure MultisigEnv where
  flags : UInt32
  checkSig : CScript → List UInt8 → List UInt8 → Bool
  cleanupScriptCode : CScript → List UInt8 → CScript
  checkTransactionECDSASignatureEncoding : List UInt8 → Except ScriptError Unit
  checkTransactionSchnorrSignatureEncoding : List UInt8 → Except ScriptError Unit
  checkPubKeyEncoding : List UInt8 → Except ScriptError Unit

/-! ### The source -/

/-- `MAX_PUBKEYS_PER_MULTISIG`. -/
def maxPubkeysPerMultisig : Int := 20

/-- `MAX_OPS_PER_SCRIPT_LEGACY`. -/
def maxOpsPerScriptLegacy : Int := 201

/-- `DecodeBitfield`. The mask is truncated to 32 bits. -/
def decodeBitfield (vch : List UInt8) (size : Nat) : Except ScriptError (BitVec 32) :=
  if size > 32 then .error .invalidBitfieldSize
  else if vch.length ≠ (size + 7) / 8 then .error .invalidBitfieldSize
  else
    let bitfield : BitVec 32 := orBytes vch 0 0
    let mask := BitVec.ofNat 32 (2 ^ size - 1)
    if bitfield &&& mask ≠ bitfield then .error .invalidBitRange else .ok bitfield

/-- `countBits`. -/
def countBits (v : BitVec 32) : Nat := (range 32).countP v.getLsbD

/-- The operands of the opcode, keys and signatures from the top down, and the stack below them. -/
structure MultisigArgs where
  keys : List (List UInt8)
  sigs : List (List UInt8)
  dummy : List UInt8
  rest : List (List UInt8)

/-- The beginning of the opcode: the operands and the new `nOpCount`. -/
def multisigArgs (flags : UInt32) (nOpCount : Int) (stack : List (List UInt8)) :
    Except ScriptError (MultisigArgs × Int) := do
  let limits := ScriptLimits.ofFlags flags
  require (!(stack.length < 1)) .invalidStackOperation
  let nKeysCount ← cScriptNum (stack.getD 0 []) limits.fRequireMinimal limits.maxIntegerSizeLegacy
  require (!(nKeysCount < 0 || nKeysCount > maxPubkeysPerMultisig)) .pubkeyCount
  let chipVmLimitsEnabled : Bool := flags &&& scriptEnableMay2025 ≠ 0
  let nOpCount := if chipVmLimitsEnabled then nOpCount else nOpCount + nKeysCount
  require (!(!chipVmLimitsEnabled && nOpCount > maxOpsPerScriptLegacy)) .opCount
  let idxSigCount := 2 + nKeysCount.toNat
  require (!(stack.length < idxSigCount)) .invalidStackOperation
  let nSigsCount ← cScriptNum (stack.getD (idxSigCount - 1) []) limits.fRequireMinimal
    limits.maxIntegerSizeLegacy
  require (!(nSigsCount < 0 || nSigsCount > nKeysCount)) .sigCount
  let idxDummy := idxSigCount + 1 + nSigsCount.toNat
  require (!(stack.length < idxDummy)) .invalidStackOperation
  pure ({ keys := (stack.drop 1).take nKeysCount.toNat
          sigs := (stack.drop idxSigCount).take nSigsCount.toNat
          dummy := stack.getD (idxDummy - 1) []
          rest := stack.drop idxDummy }, nOpCount)

section Source

variable (env : MultisigEnv)

/-- The loop of the legacy branch, which ends early when there are more signatures left than keys.
-/
def legacyLoop (scriptCode : CScript) :
    List (List UInt8) → List (List UInt8) → Except ScriptError Bool
  | [], _ => pure true
  | _ :: _, [] => pure false
  | vchSig :: sigs, vchPubKey :: keys => do
    env.checkTransactionECDSASignatureEncoding vchSig
    env.checkPubKeyEncoding vchPubKey
    let remaining := if env.checkSig scriptCode vchSig vchPubKey then sigs else vchSig :: sigs
    if remaining.length > keys.length then pure false
    else legacyLoop scriptCode remaining keys

variable (scriptCode : CScript) (args : MultisigArgs)

/-- The legacy branch. -/
def legacyMultisig : Except ScriptError Bool := do
  let cleanedUp := args.sigs.foldl env.cleanupScriptCode scriptCode
  let fSuccess ← legacyLoop env cleanedUp args.sigs args.keys
  let areAllSignaturesNull := args.sigs.all (·.isEmpty)
  if !fSuccess && env.flags &&& scriptVerifyNullfail ≠ 0 && !areAllSignaturesNull then
    throw .sigNullfail
  pure fSuccess

/-- The inner loop of the other branch: the next bit that is set, from `iKey` on. The fuel is the
number of bits left. -/
def nextKey (checkBits : BitVec 32) : Nat → Nat → Nat
  | 0, iKey => iKey
  | fuel + 1, iKey =>
    if (checkBits >>> iKey) &&& 1 = 0 then nextKey checkBits fuel (iKey + 1) else iKey

/-- The loop of the Schnorr branch, on the signatures from the bottom up. It returns the last
`iKey`. -/
def schnorrLoop (scriptCode : CScript) (checkBits : BitVec 32) (keys : List (List UInt8)) :
    List (List UInt8) → Nat → Except ScriptError Nat
  | [], iKey => pure iKey
  | vchSig :: sigs, iKey =>
    if checkBits >>> iKey = 0 then throw .invalidBitRange
    else
      let iKey := nextKey checkBits (32 - iKey) iKey
      if iKey ≥ keys.length then throw .pubkeyCount
      else do
        let vchPubKey := keys.getD iKey []
        env.checkTransactionSchnorrSignatureEncoding vchSig
        env.checkPubKeyEncoding vchPubKey
        if !env.checkSig scriptCode vchSig vchPubKey then throw .sigNullfail
        schnorrLoop scriptCode checkBits keys sigs (iKey + 1)

/-- The Schnorr branch. -/
def schnorrMultisig : Except ScriptError Bool := do
  let checkBits ← decodeBitfield args.dummy args.keys.length
  require (countBits checkBits = args.sigs.length) .invalidBitCount
  let iKey ← schnorrLoop env scriptCode checkBits args.keys.reverse args.sigs.reverse 0
  require (checkBits >>> iKey = 0) .invalidBitCount
  pure true

/-- The dummy element says which branch is taken. -/
def usesSchnorr : Bool :=
  env.flags &&& scriptEnableSchnorrMultisig ≠ 0 && args.dummy.length ≠ 0

/-- The branch: `fSuccess`. -/
def multisigBranch : Except ScriptError Bool :=
  if usesSchnorr env args then schnorrMultisig env scriptCode args
  else legacyMultisig env scriptCode args

/-- `OP_CHECKMULTISIG`, and with `verify` `OP_CHECKMULTISIGVERIFY`: the new stack and `nOpCount`. -/
def opCheckMultisig (verify : Bool) (scriptCode : CScript) (nOpCount : Int)
    (stack : List (List UInt8)) : Except ScriptError (List (List UInt8) × Int) := do
  let (args, nOpCount) ← multisigArgs env.flags nOpCount stack
  let fSuccess ← multisigBranch env scriptCode args
  if verify then
    if fSuccess then pure (args.rest, nOpCount) else throw .checkMultisigVerify
  else pure ((if fSuccess then [1] else []) :: args.rest, nOpCount)

end Source

/-! ### The operands -/

theorem multisigArgs_length {flags : UInt32} {nOpCount nOpCount' : Int} {stack : List (List UInt8)}
    {args : MultisigArgs} (h : multisigArgs flags nOpCount stack = .ok (args, nOpCount')) :
    args.sigs.length ≤ args.keys.length ∧ args.keys.length ≤ 20 := by
  unfold multisigArgs at h
  obtain ⟨_, -, h⟩ := bind_ok_iff.mp h
  obtain ⟨nKeysCount, -, h⟩ := bind_ok_iff.mp h
  obtain ⟨_, hkeys, h⟩ := bind_ok_iff.mp h
  obtain ⟨_, -, h⟩ := bind_ok_iff.mp h
  obtain ⟨_, -, h⟩ := bind_ok_iff.mp h
  obtain ⟨nSigsCount, -, h⟩ := bind_ok_iff.mp h
  obtain ⟨_, hsigs, h⟩ := bind_ok_iff.mp h
  obtain ⟨_, hdummy, h⟩ := bind_ok_iff.mp h
  obtain rfl := congrArg Prod.fst (Except.ok.inj h)
  rw [require_ok_iff] at hkeys hsigs hdummy
  simp only [Bool.not_eq_true', Bool.or_eq_false_iff, decide_eq_false_iff_not, not_lt]
    at hkeys hsigs hdummy
  unfold maxPubkeysPerMultisig at hkeys
  simp only [length_take, length_drop]
  omega

/-- The encoding checks of the branch accept all keys and signatures. Only the empty signature
passes the checks of both branches. -/
structure MultisigArgs.Encodable (env : MultisigEnv) (args : MultisigArgs) : Prop where
  ecdsa : usesSchnorr env args = false →
    ∀ sig ∈ args.sigs, env.checkTransactionECDSASignatureEncoding sig = .ok ()
  schnorr : usesSchnorr env args = true →
    ∀ sig ∈ args.sigs, env.checkTransactionSchnorrSignatureEncoding sig = .ok ()
  key : ∀ key ∈ args.keys, env.checkPubKeyEncoding key = .ok ()

/-! ### The legacy branch -/

section Legacy

variable {env : MultisigEnv}

/-- **The greedy walk decides whether there is a matching.** -/
theorem legacyLoop_eq (scriptCode : CScript) {sigs keys : List (List UInt8)}
    (hsigs : ∀ sig ∈ sigs, env.checkTransactionECDSASignatureEncoding sig = .ok ())
    (hkeys : ∀ key ∈ keys, env.checkPubKeyEncoding key = .ok ()) :
    ∃ fSuccess, legacyLoop env scriptCode sigs keys = .ok fSuccess ∧
      (fSuccess = true ↔
        SublistForall₂ (fun sig key => env.checkSig scriptCode sig key = true) sigs keys) := by
  induction keys generalizing sigs with
  | nil =>
    cases sigs with
    | nil => exact ⟨true, rfl, iff_of_true rfl .nil⟩
    | cons sig sigs => exact ⟨false, rfl, iff_of_false (by decide) (by rintro ⟨⟩)⟩
  | cons key keys ih =>
    cases sigs with
    | nil => exact ⟨true, rfl, iff_of_true rfl .nil⟩
    | cons sig sigs =>
      rw [legacyLoop, hsigs sig mem_cons_self, hkeys key mem_cons_self,
        sublistForall₂_cons_cons_iff]
      have hkeys' : ∀ key ∈ keys, env.checkPubKeyEncoding key = .ok () :=
        fun k hk => hkeys k (mem_cons_of_mem _ hk)
      -- Either way, what remains is a matching problem with one key less.
      have hnext : ∀ remaining : List (List UInt8), (∀ sig' ∈ remaining, sig' ∈ sig :: sigs) →
          ∃ fSuccess, (if remaining.length > keys.length then pure false
              else legacyLoop env scriptCode remaining keys) = .ok fSuccess ∧
            (fSuccess = true ↔ SublistForall₂
              (fun sig key => env.checkSig scriptCode sig key = true) remaining keys) := by
        intro remaining hmem
        split
        next hlong =>
          refine ⟨false, rfl, iff_of_false (by decide) fun hmatch => ?_⟩
          have := length_le_of_sublistForall₂ hmatch
          omega
        · exact ih (fun s hs => hsigs s (hmem s hs)) hkeys'
      by_cases hvalid : env.checkSig scriptCode sig key = true
      · obtain ⟨fSuccess, hloop, hiff⟩ := hnext sigs fun s hs => mem_cons_of_mem _ hs
        refine ⟨fSuccess, ?_, ?_⟩
        · rw [← hloop, if_pos hvalid]
          rfl
        · rw [hiff]
          simp [hvalid]
      · obtain ⟨fSuccess, hloop, hiff⟩ := hnext (sig :: sigs) fun s hs => hs
        refine ⟨fSuccess, ?_, ?_⟩
        · rw [← hloop, if_neg hvalid]
          rfl
        · rw [hiff]
          simp [hvalid]

end Legacy

/-! ### The Schnorr branch -/

section Schnorr

variable {bits : BitVec 32} {keys : List (List UInt8)}

theorem shiftRight_eq_zero_iff (i : Nat) : bits >>> i = 0 ↔ bits.toNat >>> i = 0 := by
  rw [← BitVec.toNat_inj, BitVec.toNat_ushiftRight]
  rfl

theorem lt_length_of_shiftRight_ne_zero (hbits : bits.toNat < 2 ^ keys.length) {i : Nat}
    (hne : bits.toNat >>> i ≠ 0) : i < keys.length := by
  by_contra hge
  refine hne ?_
  rw [shiftRight_eq_div_pow]
  exact div_eq_of_lt (hbits.trans_le (Nat.pow_le_pow_right (by norm_num) (by omega)))

/-- The inner loop stops at the next bit, and skips no key. -/
theorem nextKey_spec (hbits : bits.toNat < 2 ^ keys.length) {fuel iKey : Nat}
    (hfuel : 32 ≤ iKey + fuel) (hne : bits.toNat >>> iKey ≠ 0) :
    select (bits.toNat >>> iKey) (keys.drop iKey) =
        select (bits.toNat >>> nextKey bits fuel iKey) (keys.drop (nextKey bits fuel iKey)) ∧
      (bits.toNat >>> nextKey bits fuel iKey) % 2 = 1 := by
  induction fuel generalizing iKey with
  | zero =>
    have hlt : bits.toNat < 2 ^ iKey :=
      bits.isLt.trans_le (Nat.pow_le_pow_right (by norm_num) (by omega))
    exact absurd (by rw [shiftRight_eq_div_pow, div_eq_of_lt hlt]) hne
  | succ fuel ih =>
    have hbit : (bits >>> iKey) &&& 1 = 0 ↔ (bits.toNat >>> iKey) % 2 = 0 := by
      rw [← BitVec.toNat_inj, BitVec.toNat_and, BitVec.toNat_ushiftRight,
        show (1 : BitVec 32).toNat = 1 from rfl, and_one_is_mod]
      rfl
    rw [nextKey]
    split
    next heven =>
      rw [hbit] at heven
      have hhalf : bits.toNat >>> (iKey + 1) = (bits.toNat >>> iKey) / 2 := shiftRight_succ _ _
      obtain ⟨hsel, hodd⟩ := @ih (iKey + 1) (by omega) (by omega)
      refine ⟨?_, hodd⟩
      rw [← hsel, drop_eq_getElem_cons (lt_length_of_shiftRight_ne_zero hbits hne), select,
        if_neg (by omega), hhalf]
    next hodd =>
      rw [hbit] at hodd
      exact ⟨rfl, by omega⟩

/-- **The loop of the Schnorr branch** checks the signatures against the selected keys, one by one,
and does nothing else: at its end no bits are left, and where it fails it is for a signature. -/
theorem schnorrLoop_spec {env : MultisigEnv} (scriptCode : CScript) {sigs : List (List UInt8)}
    (iKey : Nat) (hbits : bits.toNat < 2 ^ keys.length)
    (hsigs : ∀ sig ∈ sigs, env.checkTransactionSchnorrSignatureEncoding sig = .ok ())
    (hkeys : ∀ key ∈ keys, env.checkPubKeyEncoding key = .ok ())
    (hcount : (select (bits.toNat >>> iKey) (keys.drop iKey)).length = sigs.length) :
    (Forall₂ (fun sig key => env.checkSig scriptCode sig key = true) sigs
        (select (bits.toNat >>> iKey) (keys.drop iKey)) ∧
      ∃ last, schnorrLoop env scriptCode bits keys sigs iKey = .ok last ∧ bits >>> last = 0) ∨
    (¬ Forall₂ (fun sig key => env.checkSig scriptCode sig key = true) sigs
        (select (bits.toNat >>> iKey) (keys.drop iKey)) ∧
      schnorrLoop env scriptCode bits keys sigs iKey = .error .sigNullfail) := by
  have hshort : ∀ i, bits.toNat >>> i < 2 ^ (keys.drop i).length := by
    intro i
    rw [shiftRight_eq_div_pow, Nat.div_lt_iff_lt_mul (Nat.two_pow_pos _), ← Nat.pow_add,
      length_drop]
    exact hbits.trans_le (Nat.pow_le_pow_right (by norm_num) (by omega))
  induction sigs generalizing iKey with
  | nil =>
    have hnil := length_eq_zero_iff.mp hcount
    rw [hnil]
    exact .inl ⟨.nil, iKey, rfl,
      (shiftRight_eq_zero_iff iKey).mpr (eq_zero_of_select_eq_nil (hshort iKey) hnil)⟩
  | cons sig sigs ih =>
    have hne : bits.toNat >>> iKey ≠ 0 := by
      intro hzero
      rw [hzero, select_zero] at hcount
      cases hcount
    obtain ⟨hsel, hodd⟩ := nextKey_spec hbits (show 32 ≤ iKey + (32 - iKey) by omega) hne
    set j := nextKey bits (32 - iKey) iKey with hnext
    have hj : j < keys.length := lt_length_of_shiftRight_ne_zero hbits (by omega)
    have hcons : select (bits.toNat >>> iKey) (keys.drop iKey) =
        keys[j] :: select (bits.toNat >>> (j + 1)) (keys.drop (j + 1)) := by
      rw [hsel, drop_eq_getElem_cons hj, select, if_pos hodd, shiftRight_succ]
    rw [hcons, length_cons, length_cons, Nat.add_right_cancel_iff] at hcount
    have hkey : keys.getD j [] = keys[j] := by
      rw [getD_eq_getElem?_getD, getElem?_eq_getElem hj, Option.getD_some]
    -- The sanity checks are passed, and the encodings are accepted.
    have hbody : schnorrLoop env scriptCode bits keys (sig :: sigs) iKey =
        if env.checkSig scriptCode sig keys[j] then
          schnorrLoop env scriptCode bits keys sigs (j + 1)
        else .error .sigNullfail := by
      rw [schnorrLoop, if_neg (mt (shiftRight_eq_zero_iff iKey).mp hne)]
      dsimp only
      rw [← hnext, if_neg (by omega), hkey, hsigs sig mem_cons_self, hkeys _ (getElem_mem hj)]
      cases env.checkSig scriptCode sig keys[j] <;> rfl
    rw [hcons, hbody, forall₂_cons]
    by_cases hvalid : env.checkSig scriptCode sig keys[j] = true
    · rw [if_pos hvalid]
      simp only [hvalid, true_and]
      exact ih (j + 1) (fun s hs => hsigs s (mem_cons_of_mem _ hs)) hcount
    · rw [if_neg hvalid]
      exact .inr ⟨fun h => hvalid h.1, rfl⟩

/-- The `i`-th bit of a bit field. -/
def bitAt (vch : List UInt8) (i : Nat) : Bool := (vch.getD (i / 8) 0).toNat.testBit (i % 8)

theorem testBit_ofLe (vch : List UInt8) (i : Nat) : (ofLe vch).testBit i = bitAt vch i := by
  induction vch generalizing i with
  | nil => simp [ofLe, bitAt]
  | cons b vch ih =>
    have hb : b.toNat < 2 ^ 8 := b.toNat_lt
    rw [ofLe, Nat.add_comm, show (256 : Nat) = 2 ^ 8 from rfl, testBit_two_pow_mul_add _ hb]
    split
    next h => rw [bitAt, div_eq_of_lt h, mod_eq_of_lt h, getD_cons_zero]
    next h =>
      obtain ⟨k, rfl⟩ : ∃ k, i = k + 8 := ⟨i - 8, by omega⟩
      rw [Nat.add_sub_cancel, ih, bitAt, bitAt, add_div_right _ (by norm_num), add_mod_right,
        getD_cons_succ]

/-- **`DecodeBitfield`** accepts a bit field of the right size without superfluous bits. -/
theorem decodeBitfield_ok_iff {vch : List UInt8} {size : Nat} (hsize : size ≤ 32) :
    decodeBitfield vch size = .ok bits ↔
      vch.length = (size + 7) / 8 ∧ bits.toNat = ofLe vch ∧ ofLe vch < 2 ^ size := by
  unfold decodeBitfield
  rw [if_neg (by omega)]
  by_cases hlen : vch.length = (size + 7) / 8
  · have hvalue : (orBytes vch 0 (0 : BitVec 32)).toNat = ofLe vch := by
      rw [toNat_orBytes (by omega) (by simp)]
      simp
    have hmask : (orBytes vch 0 (0 : BitVec 32) &&& BitVec.ofNat 32 (2 ^ size - 1) =
        orBytes vch 0 0) ↔ ofLe vch < 2 ^ size := by
      have hpow : 2 ^ size ≤ 2 ^ 32 := Nat.pow_le_pow_right (by norm_num) hsize
      rw [← BitVec.toNat_inj, BitVec.toNat_and, BitVec.toNat_ofNat, hvalue,
        mod_eq_of_lt (show 2 ^ size - 1 < 2 ^ 32 by omega), and_two_pow_sub_one_eq_mod]
      exact mod_eq_iff_lt (Nat.two_pow_pos size).ne'
    rw [if_neg (not_not.mpr hlen)]
    by_cases hrange : ofLe vch < 2 ^ size
    · rw [if_neg (not_not.mpr (hmask.mpr hrange)), Except.ok.injEq, ← BitVec.toNat_inj, hvalue]
      exact ⟨fun h => ⟨hlen, h.symm, hrange⟩, fun h => h.2.1.symm⟩
    · rw [if_pos (mt hmask.mp hrange)]
      exact iff_of_false (by rintro ⟨⟩) fun h => hrange h.2.2
  · rw [if_pos hlen]
    exact iff_of_false (by rintro ⟨⟩) fun h => hlen h.1

theorem countBits_eq {vch : List UInt8} {size : Nat} (hbits : bits.toNat = ofLe vch)
    (hrange : ofLe vch < 2 ^ keys.length) (hkeys : keys.length ≤ 32) (hsize : keys.length ≤ size) :
    countBits bits = (range size).countP (bitAt vch) ∧
      countBits bits = (select bits.toNat keys).length := by
  have hcount : countBits bits = (range 32).countP bits.toNat.testBit := by
    refine congrArg (fun p => (range 32).countP p) ?_
    funext i
    exact (BitVec.testBit_toNat bits).symm
  have hfield : bitAt vch = bits.toNat.testBit := by
    funext i
    rw [hbits, testBit_ofLe]
  rw [← hbits] at hrange
  rw [hcount, hfield, ← length_select hrange hkeys, ← length_select hrange hsize]
  exact ⟨rfl, rfl⟩

end Schnorr

/-! ### The opcode -/

/-- The keys that a bit field selects. -/
def selectedKeys (dummy : List UInt8) (keys : List (List UInt8)) : List (List UInt8) :=
  (keys.zipIdx.filter fun p => bitAt dummy p.2).map Prod.fst

theorem selectedKeys_eq (dummy : List UInt8) (keys : List (List UInt8)) :
    selectedKeys dummy keys = select (ofLe dummy) keys := by
  rw [select_eq_filter, selectedKeys]
  simp only [testBit_ofLe]

/-- The bits of a field that is not too long are below `n` if its number is. -/
theorem ofLe_lt_iff (dummy : List UInt8) (n : Nat) :
    ofLe dummy < 2 ^ n ↔ ∀ i, n ≤ i → bitAt dummy i = false := by
  simp only [← testBit_ofLe]
  exact ⟨fun h i hi => testBit_lt_two_pow (h.trans_le (Nat.pow_le_pow_right (by norm_num) hi)),
    fun h => lt_pow_two_of_testBit _ h⟩

section Opcode

variable {env : MultisigEnv} {scriptCode : CScript} {nOpCount nOpCount' : Int}
  {stack : List (List UInt8)} {args : MultisigArgs}

/-- The opcode pushes what its branch returns. -/
theorem opCheckMultisig_true_iff
    (hargs : multisigArgs env.flags nOpCount stack = .ok (args, nOpCount')) :
    opCheckMultisig env false scriptCode nOpCount stack = .ok ([1] :: args.rest, nOpCount') ↔
      multisigBranch env scriptCode args = .ok true := by
  unfold opCheckMultisig
  constructor
  · intro h
    obtain ⟨operands, hoperands, h⟩ := bind_ok_iff.mp h
    cases hargs.symm.trans hoperands
    obtain ⟨fSuccess, hbranch, hpush⟩ := bind_ok_iff.mp h
    cases fSuccess with
    | true => exact hbranch
    | false => simp [pure, Except.pure] at hpush
  · intro hbranch
    exact bind_ok hargs (bind_ok hbranch rfl)

/-- The legacy branch, on the keys and signatures in the order of the script. -/
theorem legacyMultisig_iff (henc : args.Encodable env) (hbranch : usesSchnorr env args = false) :
    legacyMultisig env scriptCode args = .ok true ↔
      SublistForall₂ (fun sig key =>
        env.checkSig (args.sigs.foldl env.cleanupScriptCode scriptCode) sig key = true)
        args.sigs.reverse args.keys.reverse := by
  obtain ⟨fSuccess, hloop, hiff⟩ := legacyLoop_eq (args.sigs.foldl env.cleanupScriptCode scriptCode)
    (henc.ecdsa hbranch) henc.key
  rw [sublistForall₂_reverse_iff, ← hiff]
  unfold legacyMultisig
  dsimp only
  rw [hloop]
  cases fSuccess with
  | true => exact iff_of_true rfl rfl
  | false =>
    refine iff_of_false (fun h => ?_) (by decide)
    obtain ⟨fSuccess, hok, h⟩ := bind_ok_iff.mp h
    cases hok
    split at h <;> cases h

/-- The Schnorr branch, on the keys and signatures in the order of the script. -/
theorem schnorrMultisig_iff (henc : args.Encodable env) (hbranch : usesSchnorr env args = true)
    (hkeys : args.keys.length ≤ 32) :
    (schnorrMultisig env scriptCode args = .ok true ↔
      args.dummy.length = (args.keys.length + 7) / 8 ∧
        (range (8 * args.dummy.length)).countP (bitAt args.dummy) = args.sigs.length ∧
        (∀ i, args.keys.length ≤ i → bitAt args.dummy i = false) ∧
        Forall₂ (fun sig key => env.checkSig scriptCode sig key = true) args.sigs.reverse
          (selectedKeys args.dummy args.keys.reverse)) ∧
    ∀ checkBits, decodeBitfield args.dummy args.keys.length = .ok checkBits →
      countBits checkBits = args.sigs.length →
        (∃ iKey, schnorrLoop env scriptCode checkBits args.keys.reverse args.sigs.reverse 0 =
            .ok iKey ∧ checkBits >>> iKey = 0) ∨
          schnorrLoop env scriptCode checkBits args.keys.reverse args.sigs.reverse 0 =
            .error .sigNullfail := by
  have hrev : args.keys.reverse.length = args.keys.length := length_reverse
  -- What the loop does once the bit field has been accepted.
  have hloop := fun (checkBits : BitVec 32) (hbits : checkBits.toNat = ofLe args.dummy)
      (hrange : ofLe args.dummy < 2 ^ args.keys.length)
      (hcount : countBits checkBits = args.sigs.length) =>
    schnorrLoop_spec scriptCode 0 (hbits ▸ hrev ▸ hrange)
      (fun sig hsig => henc.schnorr hbranch sig (mem_reverse.mp hsig))
      (fun key hkey => henc.key key (mem_reverse.mp hkey)) (show _ = args.sigs.reverse.length by
        rw [shiftRight_zero, drop_zero, length_reverse, ← hcount,
          ← (countBits_eq hbits (hrev.symm ▸ hrange) (hrev.symm ▸ hkeys) le_rfl).2])
  simp only [shiftRight_zero, drop_zero] at hloop
  have hwidth : args.dummy.length = (args.keys.length + 7) / 8 →
      args.keys.reverse.length ≤ 8 * args.dummy.length := by omega
  refine ⟨⟨fun h => ?_, fun h => ?_⟩, fun checkBits hdecode hcount => ?_⟩
  · obtain ⟨checkBits, hdecode, h⟩ := bind_ok_iff.mp h
    obtain ⟨_, hcount, h⟩ := bind_ok_iff.mp h
    obtain ⟨iKey, hok, -⟩ := bind_ok_iff.mp h
    obtain ⟨hlen, hbits, hrange⟩ := (decodeBitfield_ok_iff hkeys).mp hdecode
    have hcount := of_decide_eq_true (require_ok_iff.mp hcount)
    refine ⟨hlen, ?_, (ofLe_lt_iff _ _).mp hrange, ?_⟩
    · rw [← hcount, (countBits_eq hbits (hrev.symm ▸ hrange) (hrev.symm ▸ hkeys) (hwidth hlen)).1]
    · rcases hloop checkBits hbits hrange hcount with ⟨hforall, -⟩ | ⟨-, herror⟩
      · rwa [selectedKeys_eq, ← hbits]
      · rw [herror] at hok
        cases hok
  · obtain ⟨hlen, hcount, hrange, hforall⟩ := h
    rw [← ofLe_lt_iff] at hrange
    have hbits : (BitVec.ofNat 32 (ofLe args.dummy)).toNat = ofLe args.dummy := by
      rw [BitVec.toNat_ofNat]
      exact mod_eq_of_lt (hrange.trans_le (Nat.pow_le_pow_right (by norm_num) hkeys))
    have hcount :=
      (countBits_eq hbits (hrev.symm ▸ hrange) (hrev.symm ▸ hkeys) (hwidth hlen)).1.trans
      hcount
    rw [selectedKeys_eq, ← hbits] at hforall
    rcases hloop _ hbits hrange hcount with ⟨-, last, hok, hlast⟩ | ⟨hnot, -⟩
    · refine bind_ok ((decodeBitfield_ok_iff hkeys).mpr ⟨hlen, hbits, hrange⟩) ?_
      refine bind_ok (require_ok (decide_eq_true hcount)) (bind_ok hok ?_)
      exact bind_ok (require_ok (decide_eq_true hlast)) rfl
    · exact absurd hforall hnot
  · obtain ⟨-, hbits, hrange⟩ := (decodeBitfield_ok_iff hkeys).mp hdecode
    exact (hloop checkBits hbits hrange hcount).imp And.right And.right

/-- **`OP_CHECKMULTISIG`.** For any operands and encodings that are accepted, the legacy branch
yields true if and only if the signatures can be assigned to keys in order; and the Schnorr branch
if and only if the dummy element is a bit field of the right size that selects a key for each
signature, for which it is valid. The sanity checks of its loop do not fail. -/
theorem opCheckMultisig_iff
    (hargs : multisigArgs env.flags nOpCount stack = .ok (args, nOpCount'))
    (henc : args.Encodable env) :
    (usesSchnorr env args = false →
      (opCheckMultisig env false scriptCode nOpCount stack = .ok ([1] :: args.rest, nOpCount') ↔
        ∃ f : Fin args.sigs.reverse.length → Fin args.keys.reverse.length, StrictMono f ∧
          ∀ i, env.checkSig (args.sigs.foldl env.cleanupScriptCode scriptCode)
            (args.sigs.reverse.get i) (args.keys.reverse.get (f i)) = true)) ∧
    (usesSchnorr env args = true →
      (opCheckMultisig env false scriptCode nOpCount stack = .ok ([1] :: args.rest, nOpCount') ↔
        args.dummy.length = (args.keys.length + 7) / 8 ∧
          (range (8 * args.dummy.length)).countP (bitAt args.dummy) = args.sigs.length ∧
          (∀ i, args.keys.length ≤ i → bitAt args.dummy i = false) ∧
          Forall₂ (fun sig key => env.checkSig scriptCode sig key = true) args.sigs.reverse
            (selectedKeys args.dummy args.keys.reverse)) ∧
      ∀ checkBits, decodeBitfield args.dummy args.keys.length = .ok checkBits →
        countBits checkBits = args.sigs.length →
          (∃ iKey, schnorrLoop env scriptCode checkBits args.keys.reverse args.sigs.reverse 0 =
              .ok iKey ∧ checkBits >>> iKey = 0) ∨
            schnorrLoop env scriptCode checkBits args.keys.reverse args.sigs.reverse 0 =
              .error .sigNullfail) := by
  have hlen := multisigArgs_length hargs
  rw [opCheckMultisig_true_iff hargs, multisigBranch]
  refine ⟨fun hbranch => ?_, fun hbranch => ?_⟩
  · rw [if_neg (by rw [hbranch]; decide), legacyMultisig_iff henc hbranch,
      sublistForall₂_iff_strictMono]
  · rw [if_pos hbranch]
    exact schnorrMultisig_iff henc hbranch (by omega)

end Opcode

namespace TwoOfThree

/-- A key of one byte signs with this byte. A signature of 65 bytes is one of Schnorr's. -/
def env : MultisigEnv where
  flags := scriptEnableSchnorrMultisig
  checkSig _ sig key := sig.take 1 == key
  cleanupScriptCode scriptCode _ := scriptCode
  checkTransactionECDSASignatureEncoding sig :=
    if sig.length = 65 then .error .sigBadlength else .ok ()
  checkTransactionSchnorrSignatureEncoding sig :=
    if sig.length = 0 ∨ sig.length = 65 then .ok () else .error .sigNonschnorr
  checkPubKeyEncoding _ := .ok ()

/-- The first and the third of three keys have signed. -/
def args (size : Nat) (dummy : List UInt8) : MultisigArgs :=
  ⟨[[30], [20], [10]], [replicate size 30, replicate size 10], dummy, []⟩

/-- The stack with these operands. -/
def stack (args : MultisigArgs) : List (List UInt8) :=
  [3] :: args.keys ++ [2] :: args.sigs ++ [args.dummy]

end TwoOfThree

open TwoOfThree in
theorem opCheckMultisig_iff_twoOfThree :
    opCheckMultisig env false [] 0 (stack (args 71 [])) = .ok ([[1]], 3) ∧
      opCheckMultisig env false [] 0 (stack (args 65 [5])) = .ok ([[1]], 3) := by
  have hlegacy : multisigArgs env.flags 0 (stack (args 71 [])) = .ok (args 71 [], 3) := by rfl
  have hschnorr : multisigArgs env.flags 0 (stack (args 65 [5])) = .ok (args 65 [5], 3) := by rfl
  constructor
  · refine ((opCheckMultisig_iff hlegacy ⟨fun _ => by decide, ?_, fun _ _ => rfl⟩).1 rfl).mpr
      ⟨(![0, 2] : Fin 2 → Fin 3), Fin.strictMono_iff_lt_succ.mpr (by decide), by decide⟩
    exact fun h => absurd h (by decide)
  · refine ((opCheckMultisig_iff hschnorr ⟨?_, fun _ => by decide, fun _ _ => rfl⟩).2 rfl).1.mpr
      ⟨by decide, by decide, (ofLe_lt_iff [5] 3).mp (by decide), .cons rfl (.cons rfl .nil)⟩
    exact fun h => absurd h (by decide)

end DeVault
