import DeVault.Lib.Retry
import DeVault.Script.SignatureHash
import DeVault.Wallet.CoinSelection
import DeVault.Wallet.Fees

/-!
# Creating a transaction (`CWallet::CreateTransaction`)

The wallet builds a transaction in a loop. Each turn makes the outputs of the
recipients, selects coins, gives what is over to a change output or to the fee, and
compares the fee with the minimum fee for the size. A turn fails, tries again with
another fee, or leaves the loop in one of three ways: as it is, with the excess fee
moved to the change, or with the missing fee taken from it. Then the inputs are
ordered, and signed with the output that each coin has in the wallet.

Amounts are `int64_t` in the source. Where a sum or a product of the wallet leaves this range, the
model ends with `overflowFailure`. What the wallet calls and this development leaves open is in
`CreateEnv`. `bnb_used` is read without having been written when the inputs of an earlier turn are
kept; `uninitialized` is what it then has.
-/

namespace DeVault

open Retry

/-- `CreateTransactionResult`, without `CT_OK`. A signed overflow, for which the source has no
result, is `overflow`. -/
inductive CreateTransactionResult where
  | ctError
  | ctInsufficientFunds
  | ctInsufficientAmount
  | ctInvalidParameter
  | overflow
  deriving DecidableEq, Repr

/-- Why no transaction was created. -/
structure Failure where
  result : CreateTransactionResult
  strFailReason : String
  deriving DecidableEq, Repr

/-- A computation with amounts leaves `int64_t`. -/
def overflowFailure : Failure := ⟨.overflow, ""⟩

/-- `CRecipient`. -/
structure CRecipient where
  scriptPubKey : CScript
  tokenDataPtr : Option OutputData := none
  nAmount : Int
  fSubtractFeeFromAmount : Bool := false

/-- `CoinSelectionHint`. -/
inductive CoinSelectionHint where
  | default
  | fast
  | fastReserved
  | invalid
  deriving DecidableEq, Repr

/-- `MIN_FINAL_CHANGE`. -/
def minFinalChange : Int := coin / 100 / 2

/-- `MAX_STANDARD_TX_SIZE`. -/
def maxStandardTxSize : Nat := 100000

/-- What the creation reads besides its arguments. -/
structure CreateEnv where
  wallet : CWallet
  solver : Solver
  policy : FeePolicy
  /-- `AvailableCoins`, which looks at the hint and the amount. -/
  availableCoins : CoinSelectionHint → Int → List COutput
  /-- The script of the coin control or of a reserved key, or why there is none. -/
  scriptChange : Except Failure CScript
  /-- `CalculateMaximumSignedTxSize`, negative if the wallet cannot sign. -/
  calculateMaximumSignedTxSize : CTransaction → Int
  /-- `GetRandInt` in a turn. -/
  getRandInt : Nat → Nat → Nat
  uninitialized : Nat → Bool
  shuffle : List CInputCoin → List CInputCoin
  usebip69 : Bool
  nLockTime : Nat
  /-- `ProduceSignature` with the mempool flags of the tip. -/
  produceSignature : ScriptExecutionContext → CScript → Option CScript
  computeHash : CTransaction → TxId
  nodup_availableCoins : ∀ hint nValue,
    (outpoints ((availableCoins hint nValue).map COutput.getInputCoin)).Nodup
  getRandInt_lt : ∀ attempt n, 0 < n → getRandInt attempt n < n
  shuffle_perm : ∀ coins, (shuffle coins).Perm coins

/-- What is known before the loop: the amount to send, how many recipients pay for the fee, the
script for change and the coins. -/
structure Order where
  vecSend : List CRecipient
  control : CCoinControl
  nValue : Int
  nSubtractFeeFromAmount : Nat
  scriptChange : CScript
  vAvailableCoins : List COutput
  /-- `nChangePosRequest`; `none` is -1. -/
  nChangePosRequest : Option Nat

/-! ### The outputs of the recipients -/

variable (nFeeRet : Int)

/-- The output of a recipient, less its part of the fee. The first that pays for the
fee also pays the remainder. -/
def recipientOutput (nSubtractFeeFromAmount : Nat) (fFirst : Bool)
    (recipient : CRecipient) : CTxOut where
  nValue :=
    if recipient.fSubtractFeeFromAmount then
      recipient.nAmount - nFeeRet.tdiv nSubtractFeeFromAmount -
        (if fFirst then nFeeRet.tmod nSubtractFeeFromAmount else 0)
    else recipient.nAmount
  scriptPubKey := recipient.scriptPubKey
  tokenDataPtr := recipient.tokenDataPtr

variable (recipient : CRecipient)

/-- The failure for an output that is too small. -/
def dustFailure (txout : CTxOut) : Failure where
  result := .ctInsufficientAmount
  strFailReason :=
    if recipient.fSubtractFeeFromAmount ∧ 0 < nFeeRet then
      if txout.nValue < 0 then "The transaction amount is too small to pay the fee"
      else "The transaction amount is too small to send after the fee has been deducted"
    else "Transaction amount too small"

/-- The loop over the recipients. -/
def recipientOutputs (policy : FeePolicy) (nFeeRet : Int) (nSubtractFeeFromAmount : Nat) :
    (fFirst : Bool) → List CRecipient → Except Failure (List CTxOut)
  | _, [] => .ok []
  | fFirst, recipient :: rest => do
    let txout := recipientOutput nFeeRet nSubtractFeeFromAmount fFirst recipient
    if !policy.dustFits txout then .error overflowFailure
    else if policy.isDust txout then .error (dustFailure nFeeRet recipient txout)
    else
      let outs ← recipientOutputs policy nFeeRet nSubtractFeeFromAmount
        (fFirst && !recipient.fSubtractFeeFromAmount) rest
      .ok (txout :: outs)

/-! ### One turn -/

/-- What a turn of the loop starts from. -/
structure LoopState where
  nFeeRet : Int := 0
  pickNewInputs : Bool := true
  setCoins : List CInputCoin := []
  nValueIn : Int := 0
  useBnb : Bool
  attempt : Nat := 0

/-- What the loop leaves. `nChangePosInOut` is `none` for -1. -/
structure Built where
  setCoins : List CInputCoin
  vout : List CTxOut
  nFeeRet : Int
  nChangePosInOut : Option Nat

/-- The coins of a turn. -/
structure Chosen where
  setCoins : List CInputCoin
  nValueIn : Int
  bnbUsed : Bool
  useBnb : Bool

variable (order : Order)

/-- The amount that the coins of a turn have to reach. -/
def Order.nValueToSelect (nFeeRet : Int) : Int :=
  if order.nSubtractFeeFromAmount = 0 then order.nValue + nFeeRet else order.nValue

variable (env : CreateEnv)

/-- What `SelectCoins` answers in a turn that selects coins. -/
def selectionOf (order : Order) (s : LoopState) : Selection :=
  selectCoins env.wallet env.solver s.attempt order.vAvailableCoins
    (order.nValueToSelect s.nFeeRet) order.control s.useBnb

/-- The coins of a turn: new ones, or those of the turn before. -/
def chooseCoins (order : Order) (s : LoopState) : Option Bool × Chosen :=
  let uninitialized := env.uninitialized s.attempt
  if s.pickNewInputs then
    let selection := selectionOf env order s
    let bnbUsed := selection.bnbUsed.getD uninitialized
    (if selection.found then none else some bnbUsed,
      { setCoins := selection.setCoinsRet, nValueIn := selection.nValueRet
        bnbUsed := bnbUsed, useBnb := selection.useBnb })
  else
    (none, { setCoins := s.setCoins, nValueIn := s.nValueIn
             bnbUsed := uninitialized, useBnb := s.useBnb })

/-- Where the coins are worth more than the turn needs: the outputs, where the change
is among them, and the fee. -/
def placeChange (order : Order) (attempt : Nat) (nChange : Int) (bnbUsed : Bool)
    (outs : List CTxOut) (nFeeRet : Int) : Except Failure (List CTxOut × Option Nat × Int) :=
  let newTxOut : CTxOut := { nValue := nChange, scriptPubKey := order.scriptChange }
  if 0 < nChange then
    if !env.policy.dustFits newTxOut then .error overflowFailure
    else if env.policy.isDust newTxOut || bnbUsed then
      if !int64Range (nFeeRet + nChange) then .error overflowFailure
      else .ok (outs, none, nFeeRet + nChange)
    else
      match order.nChangePosRequest with
      | none =>
        let position := env.getRandInt attempt (outs.length + 1)
        .ok (outs.insertIdx position newTxOut, some position, nFeeRet)
      | some position =>
        if outs.length < position then .error ⟨.ctInvalidParameter, "Change index out of range"⟩
        else .ok (outs.insertIdx position newTxOut, some position, nFeeRet)
  else .ok (outs, none, nFeeRet)

variable (vout : List CTxOut)

/-- Adds to the value of the output at a position. -/
def addToOutput (position : Nat) (amount : Int) : List CTxOut :=
  vout.modify position fun out => { out with nValue := out.nValue + amount }

/-- The transaction whose size is estimated. -/
def unsignedTx (coins : List CInputCoin) (vout : List CTxOut) : CTransaction :=
  let tx : CTransaction :=
    { vin := coins.map fun c => { prevout := c.outpoint }, vout := vout
      nLockTime := env.nLockTime, hash := 0 }
  { tx with hash := env.computeHash tx }

/-- The end of a turn with enough fee: once, the excess is tried as change; else it
goes to the change that is there. -/
def enoughFee (order : Order) (s : LoopState) (chosen : Chosen)
    (vout : List CTxOut) (nChangePosInOut : Option Nat) (nFeeRet nFeeNeeded : Int)
    (nBytes : Nat) : Turn LoopState (Except Failure Built) :=
  let changePrototype : CTxOut := { nValue := 0, scriptPubKey := order.scriptChange }
  let feeNeededWithChange :=
    env.policy.getMinimumFee (nBytes + changePrototype.serializeSize + 2)
  if nChangePosInOut = none ∧ order.nSubtractFeeFromAmount = 0 ∧ s.pickNewInputs ∧
      !(env.policy.getMinimumFeeRate.fits (nBytes + changePrototype.serializeSize + 2) &&
        env.policy.dustFits changePrototype) then .leave (.error overflowFailure)
  else if nChangePosInOut = none ∧ order.nSubtractFeeFromAmount = 0 ∧ s.pickNewInputs ∧
      feeNeededWithChange + env.policy.getDustThreshold changePrototype ≤ nFeeRet then
    .again { nFeeRet := feeNeededWithChange, pickNewInputs := false, setCoins := chosen.setCoins
             nValueIn := chosen.nValueIn, useBnb := chosen.useBnb, attempt := s.attempt + 1 }
  else
    match nChangePosInOut with
    | some position =>
      if nFeeNeeded < nFeeRet ∧ order.nSubtractFeeFromAmount = 0 then
        .leave (.ok ⟨chosen.setCoins, addToOutput vout position (nFeeRet - nFeeNeeded), nFeeNeeded,
          some position⟩)
      else .leave (.ok ⟨chosen.setCoins, vout, nFeeRet, some position⟩)
    | none => .leave (.ok ⟨chosen.setCoins, vout, nFeeRet, none⟩)

variable (s : LoopState) (chosen : Chosen)

/-- The end of a turn with too small a fee: the change pays what is missing, or the loop tries again
with the needed fee. -/
def missingFee (vout : List CTxOut) (nChangePosInOut : Option Nat) (nFeeRet nFeeNeeded : Int) :
    Turn LoopState (Except Failure Built) :=
  let again : LoopState :=
    { nFeeRet := nFeeNeeded, pickNewInputs := order.nSubtractFeeFromAmount = 0
      setCoins := chosen.setCoins, nValueIn := chosen.nValueIn, useBnb := false
      attempt := s.attempt + 1 }
  if !s.pickNewInputs then
    .leave (.error ⟨.ctError, "Transaction fee and change calculation failed"⟩)
  else
    match nChangePosInOut with
    | some position =>
      if order.nSubtractFeeFromAmount = 0 ∧
          minFinalChange + (nFeeNeeded - nFeeRet) ≤ (vout.getD position default).nValue then
        .leave (.ok ⟨chosen.setCoins, addToOutput vout position (nFeeRet - nFeeNeeded), nFeeNeeded,
          some position⟩)
      else .again again
    | none => .again again

/-- The end of a turn: the fee against the minimum fee for the size. -/
def settleFee (order : Order) (s : LoopState) (chosen : Chosen)
    (vout : List CTxOut) (nChangePosInOut : Option Nat) (nFeeRet : Int) :
    Turn LoopState (Except Failure Built) :=
  let nBytes := env.calculateMaximumSignedTxSize (unsignedTx env chosen.setCoins vout)
  if nBytes < 0 then .leave (.error ⟨.ctError, "Signing transaction failed"⟩)
  else if !(env.policy.getMinimumFeeRate.fits nBytes.toNat &&
      env.policy.minRelayTxFee.fits nBytes.toNat) then .leave (.error overflowFailure)
  else
    let nFeeNeeded := env.policy.getMinimumFee nBytes.toNat
    if nFeeNeeded < env.policy.minRelayTxFee.getFee nBytes.toNat then
      .leave (.error ⟨.ctError, "Transaction too large for fee policy"⟩)
    else if nFeeNeeded ≤ nFeeRet then
      enoughFee env order s chosen vout nChangePosInOut nFeeRet nFeeNeeded nBytes.toNat
    else missingFee order s chosen vout nChangePosInOut nFeeRet nFeeNeeded

/-- One turn of the loop of `CreateTransaction`. -/
def turn (env : CreateEnv) (order : Order) (s : LoopState) :
    Turn LoopState (Except Failure Built) :=
  if !int64Range (order.nValueToSelect s.nFeeRet) then .leave (.error overflowFailure) else
  match recipientOutputs env.policy s.nFeeRet order.nSubtractFeeFromAmount true order.vecSend with
  | .error failure => .leave (.error failure)
  | .ok outs =>
  if s.pickNewInputs && !(selectionOf env order s).fits then .leave (.error overflowFailure) else
  match chooseCoins env order s with
  -- branch and bound was tried first; the next turn takes the other solver
  | (some true, _) => .again { s with useBnb := false, attempt := s.attempt + 1 }
  | (some false, _) => .leave (.error ⟨.ctInsufficientFunds, "Insufficient funds"⟩)
  | (none, chosen) =>
  match placeChange env order s.attempt (chosen.nValueIn - order.nValueToSelect s.nFeeRet)
      chosen.bnbUsed outs s.nFeeRet with
  | .error failure => .leave (.error failure)
  | .ok (vout, nChangePosInOut, nFeeRet) =>
    settleFee env order s chosen vout nChangePosInOut nFeeRet

/-! ### Before and after the loop -/

/-- The sum of the amounts, and from how many recipients the fee is taken. -/
def sumRecipient (s : Int × Nat) (recipient : CRecipient) : Except Failure (Int × Nat) :=
  if s.1 < 0 ∨ recipient.nAmount < 0 then
    .error ⟨.ctInvalidParameter, "Transaction amounts must not be negative"⟩
  else if !int64Range (s.1 + recipient.nAmount) then .error overflowFailure
  else .ok (s.1 + recipient.nAmount, s.2 + if recipient.fSubtractFeeFromAmount then 1 else 0)

/-- What comes before the loop. -/
def prepare (vecSend : List CRecipient) (nChangePosRequest : Option Nat)
    (control : CCoinControl) (coinsel : CoinSelectionHint) : Except Failure Order := do
  let (nValue, nSubtractFeeFromAmount) ← vecSend.foldlM sumRecipient (0, 0)
  if vecSend.isEmpty then
    .error ⟨.ctInvalidParameter, "Transaction must have at least one recipient"⟩
  else if coinsel = .invalid then
    .error ⟨.ctInvalidParameter, "Invalid coin selection hint"⟩
  -- the fast hints ask for coins worth ten times the amount
  else if coinsel ≠ .default ∧ !int64Range (10 * nValue) then .error overflowFailure
  else
    let scriptChange ← env.scriptChange
    .ok { vecSend := vecSend, control := control, nValue := nValue
          nSubtractFeeFromAmount := nSubtractFeeFromAmount, scriptChange := scriptChange
          vAvailableCoins := env.availableCoins coinsel nValue
          nChangePosRequest := nChangePosRequest }

/-- How `OutputData::operator<` compares token data. -/
def compareOutputData (a b : OutputData) : Ordering :=
  (compare a.amount b.amount).then <|
    (compare (a.bitfield &&& 0x20 != 0) (b.bitfield &&& 0x20 != 0)).then <|
      (compare (a.bitfield &&& 0x0f) (b.bitfield &&& 0x0f)).then <|
        (compare a.commitment b.commitment).then (compare a.id b.id)

/-- How two outputs compare for BIP69: by value, script and token data. -/
def compareOutputs (a b : CTxOut) : Ordering :=
  (compare a.nValue b.nValue).then <|
    (compare a.scriptPubKey b.scriptPubKey).then <|
      match a.tokenDataPtr, b.tokenDataPtr with
      | none, none => .eq
      | none, some _ => .lt
      | some _, none => .gt
      | some d, some e => compareOutputData d e

variable (nChangePosInOut : Option Nat)

/-- `sortOutputsBIP69`: the sorted outputs, and where the change is now. -/
def sortOutputsBIP69 : List CTxOut × Option Nat :=
  let sorted := vout.insertionSort fun a b => (compareOutputs a b).isLE = true
  let savedChangeOut := nChangePosInOut.bind fun position => vout[position]?
  (sorted, savedChangeOut.bind fun out => sorted.findIdx? fun o => decide (o = out))

/-- Signs one input with the output that its coin has in the wallet. -/
def signInput (tx : CTransaction) (p : CInputCoin × Nat) : Except Failure CTransaction :=
  if h : p.2 < tx.vin.length then
    match env.produceSignature (.ofOutput p.2 p.1.txout tx h) p.1.txout.scriptPubKey with
    | none => .error ⟨.ctError, "Signing transaction failed"⟩
    | some scriptSig =>
      .ok { tx with vin := tx.vin.modify p.2 fun txin => { txin with scriptSig := scriptSig } }
  else .error ⟨.ctError, "vector::at"⟩

/-- What `CreateTransaction` returns with `CT_OK`. -/
structure Created where
  tx : CTransaction
  nFeeRet : Int
  nChangePosInOut : Option Nat

/-- The transaction to be signed, with the coins in the order of its inputs. -/
def unsignedWith (order : Order) (sign : Bool) (built : Built) :
    List CInputCoin × CTransaction × Option Nat :=
  let bip69 := sign && order.nChangePosRequest.isNone && env.usebip69
  let selectedCoins := if bip69 then built.setCoins else env.shuffle built.setCoins
  let (vout, nChangePosInOut) :=
    if bip69 then sortOutputsBIP69 built.vout built.nChangePosInOut
    else (built.vout, built.nChangePosInOut)
  (selectedCoins,
    { vin := selectedCoins.map fun c => { prevout := c.outpoint, nSequence := 0xffffffff - 1 }
      vout := vout, nLockTime := env.nLockTime, hash := 0 }, nChangePosInOut)

variable (sign : Bool)

/-- The signing loop, if there is signing. -/
def signInputs (selectedCoins : List CInputCoin)
    (txNew : CTransaction) : Except Failure CTransaction :=
  if sign then selectedCoins.zipIdx.foldlM (signInput env) txNew else .ok txNew

/-- What comes after the loop. -/
def finish (order : Order) (sign : Bool) (built : Built) :
    Except Failure Created := do
  let unsigned := unsignedWith env order sign built
  let txNew ← signInputs env sign unsigned.1 unsigned.2.1
  let tx := { txNew with hash := env.computeHash txNew }
  if tx.serializeSize > maxStandardTxSize then .error ⟨.ctError, "Transaction too large"⟩
  else .ok { tx := tx, nFeeRet := built.nFeeRet, nChangePosInOut := unsigned.2.2 }

/-- The loop, with enough turns for every fee up to `maxTxFee`. -/
def runLoop (order : Order) : Option (Except Failure Built) :=
  retry (turn env order) (env.policy.maxTxFee.toNat + 4)
    { useBnb := order.nSubtractFeeFromAmount = 0 }

/-- `CWallet::CreateTransaction`. -/
def createTransaction (vecSend : List CRecipient)
    (nChangePosRequest : Option Nat) (control : CCoinControl) (sign : Bool)
    (coinsel : CoinSelectionHint) : Option (Except Failure Created) :=
  match prepare env vecSend nChangePosRequest control coinsel with
  | .error failure => some (.error failure)
  | .ok order => (runLoop env order).map fun result => result >>= finish env order sign

end DeVault
