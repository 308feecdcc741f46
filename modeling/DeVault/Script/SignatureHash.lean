import DeVault.Coins

/-!
# What a signature commits to (`script/interpreter.cpp`, `script/sighashtype.h`)

A `ScriptExecutionContext` is what the script of an input can see: the
transaction, the index of the input and the coins that the inputs spend.
`forkIdPreimage` is the branch of `SignatureHash` for signatures with
`SIGHASH_FORKID`: the record of what goes into the digest, in the order in which
it is written. Hashes are modelled by what is hashed, so two digests are equal
exactly when the records are.
-/

namespace DeVault

/-- `SCRIPT_ENABLE_SIGHASH_FORKID`. -/
def scriptEnableSighashForkid : UInt32 := (1 : UInt32) <<< 16

/-- `SCRIPT_ENABLE_BLS`. -/
def scriptEnableBls : UInt32 := (1 : UInt32) <<< 19

/-- `SCRIPT_ENABLE_TOKENS`. -/
def scriptEnableTokens : UInt32 := (1 : UInt32) <<< 27

/-- `flags & flag` as a condition. -/
def hasFlag (flags flag : UInt32) : Bool := flags &&& flag != 0

/-- `SigHashType`. -/
structure SigHashType where
  sigHash : UInt32 := 1
  deriving DecidableEq, Repr, Inhabited

variable (t : SigHashType)

namespace SigHashType

/-- `withFork`. -/
def withFork : SigHashType := ⟨(t.sigHash &&& ~~~0x40) ||| 0x40⟩

/-- `getBaseType`: the lower five bits. -/
def getBaseType : UInt32 := t.sigHash &&& 0x1f

/-- `BaseSigHashType::NONE`. -/
def baseNone : UInt32 := 2

/-- `BaseSigHashType::SINGLE`. -/
def baseSingle : UInt32 := 3

/-- `hasUtxos`. -/
def hasUtxos : Bool := hasFlag t.sigHash 0x20

/-- `hasAnyoneCanPay`. -/
def hasAnyoneCanPay : Bool := hasFlag t.sigHash 0x80

end SigHashType

/-- `ScriptExecutionContext`. In a `limited` one the coins of the other inputs
are missing. -/
structure ScriptExecutionContext where
  tx : CTransaction
  inputCoins : List Coin
  nIn : Nat
  limited : Bool := false
  length_inputCoins : inputCoins.length = tx.vin.length
  nIn_lt : nIn < tx.vin.length

namespace ScriptExecutionContext

/-- The input being evaluated. -/
def txin (ctx : ScriptExecutionContext) : CTxIn := ctx.tx.vin.get ⟨ctx.nIn, ctx.nIn_lt⟩

/-- `coin()`: the coin that the input spends. -/
def coin (ctx : ScriptExecutionContext) : Coin :=
  ctx.inputCoins.get ⟨ctx.nIn, ctx.length_inputCoins.symm ▸ ctx.nIn_lt⟩

/-- The context of one input over a view. `createForAllInputs` makes one for each
input. -/
def ofView {B : Type} [CCoinsView B] (tx : CTransaction) (view : CCoinsViewCache B) (nIn : Nat)
    (h : nIn < tx.vin.length) : ScriptExecutionContext where
  tx := tx
  inputCoins := tx.vin.map fun txin => view.peek txin.prevout
  nIn := nIn
  length_inputCoins := List.length_map _
  nIn_lt := h

/-- `createForAllInputs`. -/
def createForAllInputs {B : Type} [CCoinsView B] (tx : CTransaction) (view : CCoinsViewCache B) :
    List ScriptExecutionContext :=
  (List.finRange tx.vin.length).map fun i : Fin tx.vin.length => ofView tx view i i.isLt

/-- The limited context of an input with a given output to spend. -/
def ofOutput (nIn : Nat) (utxo : CTxOut) (tx : CTransaction) (h : nIn < tx.vin.length) :
    ScriptExecutionContext where
  tx := tx
  inputCoins := (List.replicate tx.vin.length Coin.empty).set nIn ⟨utxo, 1, false⟩
  nIn := nIn
  limited := true
  length_inputCoins := by simp
  nIn_lt := h

theorem coin_ofView {B : Type} [CCoinsView B] {tx : CTransaction} {view : CCoinsViewCache B}
    {nIn : Nat} (h : nIn < tx.vin.length) :
    (ofView tx view nIn h).coin = view.peek (ofView tx view nIn h).txin.prevout := by
  simp [coin, ofView, txin]

theorem coin_ofOutput {nIn : Nat} {utxo : CTxOut} {tx : CTransaction} (h : nIn < tx.vin.length) :
    (ofOutput nIn utxo tx h).coin = ⟨utxo, 1, false⟩ := by
  simp [coin, ofOutput]

end ScriptExecutionContext

/-! ### The digest -/

/-- What `SignatureHash` writes with `SIGHASH_FORKID`. The hashes stand for the lists that are
hashed; `none` is the zero hash, and for `hashUtxos` and the token data that nothing is written. -/
structure ForkIdPreimage where
  nVersion : Int
  hashPrevouts : Option (List COutPoint)
  hashUtxos : Option (List CTxOut)
  hashSequence : Option (List Nat)
  prevout : COutPoint
  tokenData : Option OutputData
  scriptCode : CScript
  nValue : Int
  nSequence : Nat
  hashOutputs : Option (List CTxOut)
  nLockTime : Nat
  sigHashType : SigHashType
  deriving DecidableEq, Repr

/-- The outputs that `hashOutputs` covers: all, the one at the index of the
input, or none. -/
def hashedOutputs (tx : CTransaction) (nIn : Nat) (t : SigHashType) : Option (List CTxOut) :=
  if t.getBaseType ≠ SigHashType.baseSingle ∧ t.getBaseType ≠ SigHashType.baseNone then
    some tx.vout
  else if t.getBaseType = SigHashType.baseSingle then
    tx.vout[nIn]?.map fun out => [out]
  else
    none

/-- `SignatureHash` for a type with `SIGHASH_FORKID` where it is enabled. It throws if the digest
covers all coins and the context is limited. -/
def forkIdPreimage (scriptCode : CScript) (context : ScriptExecutionContext)
    (sigHashType : SigHashType) (flags : UInt32) : Except Fault ForkIdPreimage :=
  let txTo := context.tx
  let prevTxOut := context.coin.out
  let utxos := sigHashType.hasUtxos && hasFlag flags scriptEnableTokens
  if utxos && context.limited then
    .error (.runtimeError "SignatureHash error: SIGHASH_UTXOS requested but missing utxo data")
  else
    .ok
      { nVersion := txTo.nVersion
        hashPrevouts := if sigHashType.hasAnyoneCanPay then none else some txTo.prevouts
        hashUtxos := if utxos then some (context.inputCoins.map (·.out)) else none
        hashSequence :=
          if !sigHashType.hasAnyoneCanPay &&
              sigHashType.getBaseType ≠ SigHashType.baseSingle &&
              sigHashType.getBaseType ≠ SigHashType.baseNone then
            some (txTo.vin.map (·.nSequence))
          else none
        prevout := context.txin.prevout
        tokenData := if hasFlag flags scriptEnableTokens then prevTxOut.tokenDataPtr else none
        scriptCode := scriptCode
        nValue := prevTxOut.nValue
        nSequence := context.txin.nSequence
        hashOutputs := hashedOutputs txTo context.nIn sigHashType
        nLockTime := txTo.nLockTime
        sigHashType := sigHashType }

section Views

variable {B C : Type} [CCoinsView B] [CCoinsView C] {tx : CTransaction} {v : CCoinsViewCache B}
  {w : CCoinsViewCache C} {nIn : Nat}

open ScriptExecutionContext

/-- A context over a view is never limited, so there is a digest. -/
theorem exists_forkIdPreimage (h : nIn < tx.vin.length) (scriptCode : CScript) (t : SigHashType)
    (flags : UInt32) :
    ∃ pre, forkIdPreimage scriptCode (ofView tx v nIn h) t flags = .ok pre ∧
      pre.nValue = (v.peek (ofView tx v nIn h).txin.prevout).out.nValue := by
  refine ⟨_, if_neg (by simp [ofView]), ?_⟩
  show (ofView tx v nIn h).coin.out.nValue = _
  rw [coin_ofView]

/-- Views that show the same outputs at the inputs give the same digests. -/
theorem forkIdPreimage_congr
    (hsame : ∀ i ∈ tx.vin, (v.peek i.prevout).out = (w.peek i.prevout).out)
    (h : nIn < tx.vin.length) (scriptCode : CScript) (t : SigHashType) (flags : UInt32) :
    forkIdPreimage scriptCode (ofView tx v nIn h) t flags =
      forkIdPreimage scriptCode (ofView tx w nIn h) t flags := by
  have hcoin : (ofView tx v nIn h).coin.out = (ofView tx w nIn h).coin.out := by
    rw [coin_ofView, coin_ofView]
    exact hsame _ (List.get_mem _ _)
  have hcoins : (ofView tx v nIn h).inputCoins.map (·.out) =
      (ofView tx w nIn h).inputCoins.map (·.out) := by
    show (tx.vin.map _).map _ = (tx.vin.map _).map _
    rw [List.map_map, List.map_map]
    exact List.map_congr_left hsame
  unfold forkIdPreimage
  rw [hcoin, hcoins]
  rfl

end Views

end DeVault
