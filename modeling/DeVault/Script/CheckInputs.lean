import DeVault.Script.SignatureHash

/-!
# Script checks and their cache (`CheckInputs`, `validation.cpp`)

`checkInputs` runs the script of every input against the coin that the view
shows for it, unless the transaction is in the script execution cache, which
remembers transactions whose scripts have passed under given flags. The key of
the cache is made from the transaction and the flags alone. So a hit is right
only if the view shows the coins that the scripts were run against.

The interpreter is a parameter: `verifyScript` gives the number of signature
checks of an input, or the text of the script error.
-/

namespace DeVault

/-- The script interpreter. -/
abbrev VerifyScript := ScriptExecutionContext → UInt32 → Except String Nat

/-- `STANDARD_NOT_MANDATORY_VERIFY_FLAGS`: the flags `DERSIG`, `SIGPUSHONLY`,
`DISCOURAGE_UPGRADABLE_NOPS`, `CLEANSTACK`, `CHECKLOCKTIMEVERIFY`,
`CHECKSEQUENCEVERIFY`, `DISALLOW_SEGWIT_RECOVERY` and `INPUT_SIGCHECKS`. -/
def standardNotMandatoryVerifyFlags : UInt32 :=
  [2, 5, 7, 8, 9, 10, 20, 22].foldl (fun flags (bit : UInt32) => flags ||| (1 : UInt32) <<< bit) 0

/-- `IsBlsKeyHashScript`. -/
def isBlsKeyHashScript (s : CScript) : Bool :=
  s.length == 25 && s[0]? == some 0x76 && s[1]? == some 0xbd && s[2]? == some 0x14 &&
    s[23]? == some 0x88 && s[24]? == some 0xac

/-- `IsGrandfatheredBlsSpend`: the two spends that are excepted. -/
def isGrandfatheredBlsSpend (txid : TxId) : Bool :=
  [0x83a9f90fd0261884822192be7824987e5d4fc2a283c164fdd0aaa4556ad2757e,
    0x83cb86d4a15a7eee085faf0b1d04aca8daf56fa63c245ba31c8d85f9172a0192].contains txid

/-- The body of the loop of `CheckInputs`: the signature checks of one input. -/
def checkInput (verifyScript : VerifyScript) (flags : UInt32) (context : ScriptExecutionContext) :
    Except Fault Nat :=
  if context.coin.isSpent then
    .error (.assertion "!contextVec[i].coin().IsSpent()")
  else if hasFlag flags scriptEnableBls && isBlsKeyHashScript context.coin.out.scriptPubKey then
    if isGrandfatheredBlsSpend context.tx.getId then .ok 0
    else .error (.dos 100 "bad-txns-blskeyhash-frozen")
  else
    match verifyScript context flags with
    | .ok n => .ok n
    | .error e =>
      let mandatoryFlags := flags &&& ~~~standardNotMandatoryVerifyFlags
      if flags ≠ mandatoryFlags then
        match verifyScript context mandatoryFlags with
        | .ok _ => .error (.invalid s!"non-mandatory-script-verify-flag ({e})")
        | .error e => .error (.dos 100 s!"mandatory-script-verify-flag-failed ({e})")
      else
        .error (.dos 100 s!"mandatory-script-verify-flag-failed ({e})")

/-- `ScriptCacheKey`, as the data that is hashed into it. -/
structure ScriptCacheKey where
  txid : TxId
  flags : UInt32
  deriving DecidableEq, Repr

/-- The script execution cache: keys and signature checks. It does not evict. -/
abbrev ScriptCache := List (ScriptCacheKey × Nat)

/-- `IsKeyInScriptCache`. An entry that is marked for erasure is still found. -/
def isKeyInScriptCache (cache : ScriptCache) (key : ScriptCacheKey) : Option Nat :=
  (cache.find? fun e => e.1 == key).map (·.2)

/-- `CheckInputs` without deferred checks: the cache afterwards, and the number of
signature checks if all scripts pass. -/
def checkInputs {B : Type} [CCoinsView B] (verifyScript : VerifyScript) (cache : ScriptCache)
    (tx : CTransaction) (view : CCoinsViewCache B) (flags : UInt32) (scriptCacheStore : Bool) :
    ScriptCache × Except Fault Nat :=
  if tx.isCoinBase then
    (cache, .error (.assertion "!tx.IsCoinBase()"))
  else
    let hashCacheEntry : ScriptCacheKey := ⟨tx.getId, flags⟩
    match isKeyInScriptCache cache hashCacheEntry with
    | some nSigChecks => (cache, .ok nSigChecks)
    | none =>
      let run := (ScriptExecutionContext.createForAllInputs tx view).foldlM
        (fun n context => (checkInput verifyScript flags context).map (n + ·)) 0
      match run with
      | .error e => (cache, .error e)
      | .ok nSigChecksTotal =>
        (if scriptCacheStore then (hashCacheEntry, nSigChecksTotal) :: cache else cache,
          .ok nSigChecksTotal)

end DeVault
