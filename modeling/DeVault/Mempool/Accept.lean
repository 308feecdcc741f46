import DeVault.Mempool.Pool
import DeVault.Script.CheckInputs
import DeVault.Validation.ContextualCheck

/-!
# Acceptance to the memory pool (`AcceptToMemoryPoolWorker`, `validation.cpp`)

A loose transaction is checked on a view over the coins of the pool and of
`pcoinsTip`. Its fee is computed there and kept in the entry. Its scripts are run
twice, under the standard flags and under those of the next block, and the second
run leaves a mark in the script execution cache, so that `ConnectBlock` does not
run them again under the same flags.

What the node calls and this development leaves open is in `MempoolEnv`: standardness, the
relay fees, sequence locks, token rules, the eviction of `LimitSize` and the
interpreter. Double-spend proofs and the signals to other parts are left out.
-/

namespace DeVault

open Outcome Prod

/-- What the acceptance of a transaction reads besides the node's state. -/
structure MempoolEnv where
  ctx : ContextualEnv
  verifyScript : VerifyScript
  /-- `GetMemPoolScriptFlags` of the tip. -/
  scriptVerifyFlags : UInt32
  /-- `GetNextBlockScriptFlags` of the tip. -/
  nextBlockScriptVerifyFlags : UInt32
  fRequireStandard : Bool
  /-- `IsStandardTx`: the reason, if the transaction is not standard. -/
  isStandardTx : CTransaction → UInt32 → Option String
  areInputsStandard : CTransaction → List Coin → UInt32 → Bool
  checkSequenceLocks : CTransaction → Bool
  /-- The fee delta of `PrioritiseTransaction`. -/
  feeDelta : TxId → Int
  /-- `minRelayTxFee.GetFee`. -/
  minRelayFee : Nat → Int
  /-- `pool.GetMinFee(..).GetFee`. -/
  mempoolRejectFee : Nat → Int
  getVirtualTransactionSize : Nat → Nat → Nat
  checkTxTokens : CTransaction → List Coin → Option Fault
  /-- The transactions that `LimitSize` evicts from the pool. -/
  limitSize : CTxMemPool → List TxId

/-- Why a transaction was not accepted. Missing inputs and `error(..)` set no reject
reason. -/
inductive Refusal where
  | fault (e : Fault)
  | missingInputs
  | error (text : String)
  deriving DecidableEq, Repr

/-- The part of the node that acceptance works on. -/
structure MempoolNode (D : Type) where
  pcoinsTip : CCoinsViewCache D
  tip : CBlockIndex
  pool : CTxMemPool
  scriptCache : ScriptCache

/-- The view over the coins of the pool and of `pcoinsTip`. -/
abbrev MempoolView (D : Type) : Type := CCoinsViewCache (CCoinsViewMemPool (CCoinsViewCache D))

/-- A call of `AcceptToMemoryPool` besides the transaction. -/
structure AcceptCall where
  nAcceptTime : Int := 0
  bypassLimits : Bool := false
  nAbsurdFee : Int := 0
  testAccept : Bool := false

section Accept

variable {D : Type} [CCoinsView D]

variable (node : MempoolNode D)

/-- The view that acceptance starts from. -/
def MempoolNode.view : MempoolView D :=
  { base := ⟨node.pcoinsTip, node.pool⟩ }

/-- A failed check of this function. -/
def refuseUnless (cond : Bool) (r : Refusal) : Except Refusal Unit :=
  Outcome.require cond r

/-- A check that reports a failure. -/
def refuseWith : Option Fault → Except Refusal Unit
  | some e => .error (.fault e)
  | none => .ok ()

/-- The failure of a check whose ban score is dropped: the transaction may be valid
in the future. -/
def withoutScore : Except Fault Unit → Option Fault
  | .error (.dos _ reason) => some (.dos 0 reason)
  | .error e => some e
  | .ok () => none

/-- The outcome of a validation function, as a refusal. -/
def asRefusal {α : Type} : Except Fault α → Except Refusal α
  | .error e => .error (.fault e)
  | .ok a => .ok a

variable (env : MempoolEnv)

/-- The checks before any coin is read. -/
def checkLoose (node : MempoolNode D) (tx : CTransaction) :
    Except Refusal Unit := do
  refuseWith (if env.fRequireStandard then
    (env.isStandardTx tx env.scriptVerifyFlags).map (Fault.dos 0) else none)
  refuseWith (withoutScore (contextualCheckTransaction env.ctx tx (node.tip.nHeight + 1)
    (env.ctx.getMedianTimePast node.tip)))
  refuseUnless (!node.pool.has tx.getId) (.fault (.invalid "txn-already-in-mempool"))
  refuseUnless (!tx.prevouts.any node.pool.mapNextTx.contains)
    (.fault (.invalid "txn-mempool-conflict"))

variable (tx : CTransaction) (view : MempoolView D)

/-- One input of the loop that looks whether all inputs exist. -/
def inputExistsStep (txin : CTxIn) : Except Refusal (MempoolView D) :=
  let (view, isThere) := view.haveCoin txin.prevout
  if isThere then .ok view
  else if (List.range tx.vout.length).any fun out =>
      node.pcoinsTip.haveCoinInCache (tx.outPoint out) then
    .error (.fault (.invalid "txn-already-known"))
  else .error .missingInputs

/-- One input of `HaveInputs`. -/
def haveInputsStep (txin : CTxIn) : Except Refusal (MempoolView D) :=
  let (view, isThere) := view.haveCoin txin.prevout
  if isThere then .ok view else .error (.fault (.invalid "bad-txns-inputs-spent"))

/-- One input of the loop of `CheckInputsFromMempoolAndCache`: the view shows what
the pool or `pcoinsTip` has. -/
def mempoolInputStep (txin : CTxIn) : Except Refusal Unit :=
  let coin := view.peek txin.prevout
  if coin.isSpent then .error (.error "CheckInputsFromMempoolAndCache")
  else
    match node.pool.get txin.prevout.txid with
    | some txFrom => do
      refuseUnless (txFrom.getId == txin.prevout.txid) (.fault (.assertion "txFrom->GetId()"))
      match txFrom.vout[txin.prevout.n]? with
      | none => .error (.fault (.assertion "txFrom->vout.size() > txin.prevout.GetN()"))
      | some out => refuseUnless (out == coin.out) (.fault (.assertion "txFrom->vout[n]"))
    | none => do
      let coinFromDisk := node.pcoinsTip.peek txin.prevout
      refuseUnless (!coinFromDisk.isSpent) (.fault (.assertion "!coinFromDisk.IsSpent()"))
      refuseUnless (coinFromDisk.out == coin.out) (.fault (.assertion "coinFromDisk.GetTxOut()"))

/-- What the checks before the second script run find: the view, the fee, whether a coinbase is
spent, and the signature checks. -/
structure CheckedTx (D : Type) where
  view : MempoolView D
  nFees : Int
  fSpendsCoinbase : Bool
  nSigChecksStandard : Nat

/-- From the look at the inputs to the mempool minimum fee. -/
def checkAgainstPool (node : MempoolNode D) (tx : CTransaction)
    (call : AcceptCall) : Except Refusal (CheckedTx D) := do
  let view ← tx.vin.foldlM (inputExistsStep node tx) node.view
  let view ← tx.vin.foldlM haveInputsStep view
  refuseUnless (env.checkSequenceLocks tx) (.fault (.dos 0 "non-BIP68-final"))
  let (view, nFees) ← asRefusal (checkTxInputs tx view (node.tip.nHeight + 1))
  let coins := tx.prevouts.map view.peek
  refuseUnless
    (!env.fRequireStandard || env.areInputsStandard tx coins env.nextBlockScriptVerifyFlags)
    (.fault (.invalid "bad-txns-nonstandard-inputs"))
  let nModifiedFees := nFees + env.feeDelta tx.getId
  let nSize := tx.serializeSize
  refuseUnless (call.bypassLimits || decide (nModifiedFees ≥ env.minRelayFee nSize))
    (.fault (.dos 0 "min relay fee not met"))
  refuseUnless (decide (call.nAbsurdFee = 0) || decide (nFees ≤ call.nAbsurdFee))
    (.fault (.invalid "absurdly-high-fee"))
  refuseWith (env.checkTxTokens tx coins)
  let nSigChecksStandard ← asRefusal
    (checkInputs env.verifyScript node.scriptCache tx view env.scriptVerifyFlags false).2
  let nVirtualSize := env.getVirtualTransactionSize nSize nSigChecksStandard
  refuseUnless (call.bypassLimits || decide (env.mempoolRejectFee nVirtualSize ≤ 0) ||
      decide (nModifiedFees ≥ env.mempoolRejectFee nVirtualSize))
    (.fault (.dos 0 "mempool min fee not met"))
  .ok { view := view, nFees := nFees, fSpendsCoinbase := coins.any (·.fCoinBase),
        nSigChecksStandard := nSigChecksStandard }

/-- `CheckInputsFromMempoolAndCache`, which stores the transaction in the script
execution cache. -/
def checkInputsFromMempoolAndCache (node : MempoolNode D) (tx : CTransaction)
    (view : MempoolView D) : ScriptCache × Except Refusal Nat :=
  match tx.vin.forM (mempoolInputStep node view) with
  | .error r => (node.scriptCache, .error r)
  | .ok () =>
    let (cache, run) := checkInputs env.verifyScript node.scriptCache tx view
      env.nextBlockScriptVerifyFlags true
    (cache, asRefusal run)

/-- The end of the function: the transaction enters the pool, which is trimmed. -/
def addToPool (node : MempoolNode D) (call : AcceptCall)
    (entry : CTxMemPoolEntry) (h : checkRegularTransaction entry.tx = .ok ()) :
    MempoolNode D × Except Refusal Unit :=
  if call.testAccept then (node, .ok ())
  else
    let pool := node.pool.addUnchecked entry h
    if call.bypassLimits then ({ node with pool := pool }, .ok ())
    else
      let pool := pool.limitSize (env.limitSize pool)
      ({ node with pool := pool },
        refuseUnless (pool.has entry.tx.getId) (.fault (.dos 0 "mempool full")))

/-- `AcceptToMemoryPoolWorker`: the node afterwards, and why the transaction was not
accepted. -/
def acceptToMemoryPoolWorker (node : MempoolNode D) (tx : CTransaction)
    (call : AcceptCall) : MempoolNode D × Except Refusal Unit :=
  match hregular : checkRegularTransaction tx with
  | .error e => (node, .error (.fault e))
  | .ok () =>
  match (checkLoose env node tx >>= fun _ => checkAgainstPool env node tx call) with
  | .error r => (node, .error r)
  | .ok checked =>
  match checkInputsFromMempoolAndCache env node tx checked.view with
  | (_, .error (.fault (.assertion expr))) => (node, .error (.fault (.assertion expr)))
  | (cache, .error _) =>
    ({ node with scriptCache := cache },
      .error (.error "BUG! CheckInputs failed against next-block but not STANDARD flags"))
  | (cache, .ok nSigChecksConsensus) =>
  let node := { node with scriptCache := cache }
  if checked.nSigChecksStandard ≠ nSigChecksConsensus then
    (node, .error (.error "BUG! SigChecks count differed between standard and consensus flags"))
  else if node.pool.mapNextTx.any fun o => o.txid == tx.getId then
    (node, .error (.fault (.invalid "txn-mempool-conflict")))
  else
    addToPool env node call
      ⟨tx, checked.nFees, call.nAcceptTime, checked.fSpendsCoinbase, checked.nSigChecksStandard⟩
      hregular

/-! ### An accepted transaction -/

variable {env : MempoolEnv} {node node' : MempoolNode D} {tx : CTransaction} {call : AcceptCall}

theorem asRefusal_ok {α : Type} {x : Except Fault α} {a : α} (h : asRefusal x = .ok a) :
    x = .ok a := by
  cases x with
  | error e => exact absurd h (by simp [asRefusal])
  | ok b => exact congrArg Except.ok (Except.ok.inj h)

theorem reads_inputExists {vin : List CTxIn} {v v' : MempoolView D}
    (h : vin.foldlM (inputExistsStep node tx) v = .ok v') : CCoinsViewCache.Reads v v' := by
  refine foldlM_ok_induct (P := CCoinsViewCache.Reads v) .refl ?_ h
  intro w i w' _ hw hstep
  unfold inputExistsStep at hstep
  simp only at hstep
  split at hstep
  · cases hstep
    exact hw.fetch i.prevout
  · split at hstep <;> cases hstep

theorem reads_haveInputs {vin : List CTxIn} {v v' : MempoolView D}
    (h : vin.foldlM haveInputsStep v = .ok v') : CCoinsViewCache.Reads v v' := by
  refine foldlM_ok_induct (P := CCoinsViewCache.Reads v) .refl ?_ h
  intro w i w' _ hw hstep
  unfold haveInputsStep at hstep
  simp only at hstep
  split at hstep
  · cases hstep
    exact hw.fetch i.prevout
  · cases hstep

/-- The fee does not depend on what was read before. -/
theorem exists_checkTxInputs_of_reads {B : Type} [CCoinsView B] {v v' : CCoinsViewCache B}
    (hr : CCoinsViewCache.Reads v v') {nSpendHeight : Nat} {fee : Int}
    (h : ∃ w, checkTxInputs tx v' nSpendHeight = .ok (w, fee)) :
    ∃ w, checkTxInputs tx v nSpendHeight = .ok (w, fee) := by
  obtain ⟨hcb, hsp, hle, valueOut, hout, hfee, hrange⟩ := checkTxInputs_ok_iff.mp h
  have hvalue : valueIn v' tx.prevouts = valueIn v tx.prevouts :=
    valueIn_congr fun o _ => hr.peek_eq o
  rw [hvalue] at hle hfee
  exact checkTxInputs_ok_iff.mpr ⟨hcb, fun i hi => (Spendable.congr (hr.peek_eq _)).mp (hsp i hi),
    hle, valueOut, hout, hfee, hrange⟩

/-- The fee of a checked transaction is that of `CheckTxInputs` on the view of the pool. -/
theorem checkTxInputs_of_checkAgainstPool {checked : CheckedTx D}
    (h : checkAgainstPool env node tx call = .ok checked) :
    ∃ w, checkTxInputs tx node.view (node.tip.nHeight + 1) = .ok (w, checked.nFees) := by
  unfold checkAgainstPool at h
  obtain ⟨v₁, hexist, h⟩ := bind_ok_iff.mp h
  obtain ⟨v₂, hhave, h⟩ := bind_ok_iff.mp h
  obtain ⟨_, -, h⟩ := bind_ok_iff.mp h
  obtain ⟨⟨v₃, nFees⟩, hinputs, h⟩ := bind_ok_iff.mp h
  obtain ⟨_, -, h⟩ := bind_ok_iff.mp h
  obtain ⟨_, -, h⟩ := bind_ok_iff.mp h
  obtain ⟨_, -, h⟩ := bind_ok_iff.mp h
  obtain ⟨_, -, h⟩ := bind_ok_iff.mp h
  obtain ⟨_, -, h⟩ := bind_ok_iff.mp h
  obtain ⟨_, -, h⟩ := bind_ok_iff.mp h
  cases h
  have hreads := (reads_inputExists hexist).trans (reads_haveInputs hhave)
  exact exists_checkTxInputs_of_reads hreads ⟨v₃, asRefusal_ok hinputs⟩

/-- A run of `CheckInputs` that stores leaves the transaction in the cache. -/
theorem isKeyInScriptCache_of_checkInputs {B : Type} [CCoinsView B] {verifyScript : VerifyScript}
    {cache cache' : ScriptCache} {view : CCoinsViewCache B} {flags : UInt32} {n : Nat}
    (h : checkInputs verifyScript cache tx view flags true = (cache', .ok n)) :
    isKeyInScriptCache cache' ⟨tx.getId, flags⟩ = some n := by
  unfold checkInputs at h
  split at h
  · cases congrArg snd h
  simp only at h
  split at h
  next k hkey =>
    obtain ⟨rfl, hn⟩ := Prod.mk.inj h
    rw [hkey, Except.ok.inj hn]
  · split at h
    · cases congrArg snd h
    next k hrun =>
      obtain ⟨rfl, hn⟩ := Prod.mk.inj h
      rw [← Except.ok.inj hn]
      simp [isKeyInScriptCache]

/-- What an acceptance leaves: the fee of `CheckTxInputs` on the view of the pool, the transaction
in the script cache for the flags of the next block, and the pool entry with the fee. -/
structure AcceptedTx (env : MempoolEnv) (node node' : MempoolNode D) (tx : CTransaction)
    (call : AcceptCall) (nFees : Int) : Prop where
  regular : checkRegularTransaction tx = .ok ()
  inputs : ∃ w, checkTxInputs tx node.view (node.tip.nHeight + 1) = .ok (w, nFees)
  cached : ∃ n, isKeyInScriptCache node'.scriptCache
    ⟨tx.getId, env.nextBlockScriptVerifyFlags⟩ = some n
  entry : call.testAccept = false → ∃ e, node'.pool.mapTx[tx.getId]? = some e ∧ e.tx = tx ∧
    e.nFee = nFees

omit [CCoinsView D] in
theorem addToPool_ok {entry : CTxMemPoolEntry}
    {hregular : checkRegularTransaction entry.tx = .ok ()}
    (h : addToPool env node call entry hregular = (node', .ok ())) :
    node'.scriptCache = node.scriptCache ∧
      (call.testAccept = false → node'.pool.mapTx[entry.tx.getId]? = some entry) := by
  have hself : (node.pool.addUnchecked entry hregular).mapTx[entry.tx.getId]? = some entry := by
    rw [CTxMemPool.addUnchecked, Ledger.getElem?_insert, if_pos rfl]
  unfold addToPool at h
  split at h
  next htest =>
    cases h
    exact ⟨rfl, fun hno => absurd (htest.symm.trans hno) (by decide)⟩
  split at h
  · cases h
    exact ⟨rfl, fun _ => hself⟩
  · obtain ⟨rfl, hin⟩ := Prod.mk.inj h
    refine ⟨rfl, fun _ => ?_⟩
    have hhas := require_ok_iff.mp hin
    exact (CTxMemPool.getElem?_limitSize hhas).trans hself

/-- An acceptance: the entry is stored with the fee of `CheckTxInputs` on the view of the pool, and
the script cache has the transaction for the flags of the next block. -/
theorem acceptToMemoryPoolWorker_ok
    (h : acceptToMemoryPoolWorker env node tx call = (node', .ok ())) :
    ∃ nFees, AcceptedTx env node node' tx call nFees := by
  unfold acceptToMemoryPoolWorker at h
  split at h
  · cases congrArg snd h
  next hregular =>
  split at h
  · cases congrArg snd h
  next checked hchecked =>
  obtain ⟨_, -, hpool⟩ := bind_ok_iff.mp hchecked
  split at h
  · cases congrArg snd h
  · cases congrArg snd h
  next cache nSigChecksConsensus hscripts =>
  simp only at h
  split at h
  · cases congrArg snd h
  split at h
  · cases congrArg snd h
  obtain ⟨hcache, hentry⟩ := addToPool_ok h
  refine ⟨checked.nFees, hregular, checkTxInputs_of_checkAgainstPool hpool, ?_, fun htest =>
    ⟨_, hentry htest, rfl, rfl⟩⟩
  rw [hcache]
  refine ⟨nSigChecksConsensus, ?_⟩
  -- the second script run stores what it finds
  unfold checkInputsFromMempoolAndCache at hscripts
  split at hscripts
  · cases congrArg snd hscripts
  · obtain ⟨hc, hn⟩ := Prod.mk.inj hscripts
    refine isKeyInScriptCache_of_checkInputs (Prod.ext hc ?_)
    exact asRefusal_ok hn

end Accept

end DeVault
