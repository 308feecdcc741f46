import DeVault.Script.ScriptNum
import DeVault.Validation.Finalize

/-!
# Block checks that need the parent (`ContextualCheckBlock`, `validation.cpp`)

`contextualCheckBlock` checks a block against the block below it: the canonical
order of the transactions, their finality, size and version
(`contextualCheckTransaction`), and the height that the coinbase has to begin
with.
-/

namespace DeVault

/-- What the contextual checks read besides the block: the activation heights, and
the times of blocks. -/
structure ContextualEnv where
  CSVHeight : Int
  magneticAnomalyHeight : Int
  upgrade9Height : Int
  getBlockTime : CBlock → Int
  getMedianTimePast : CBlockIndex → Int

/-- The activation heights of the three DeVault networks. -/
def ContextualEnv.ofTimes (getBlockTime : CBlock → Int) (getMedianTimePast : CBlockIndex → Int) :
    ContextualEnv where
  CSVHeight := 0
  magneticAnomalyHeight := 0
  upgrade9Height := 2000000000
  getBlockTime := getBlockTime
  getMedianTimePast := getMedianTimePast

/-- `LOCKTIME_THRESHOLD`. -/
def locktimeThreshold : Nat := 500000000

/-- `CTxIn::SEQUENCE_FINAL`. -/
def sequenceFinal : Nat := 0xffffffff

variable (tx : CTransaction)

/-- `IsFinalTx`. -/
def isFinalTx (nBlockHeight nBlockTime : Int) : Bool :=
  tx.nLockTime == 0 ||
    decide ((tx.nLockTime : Int) <
      if tx.nLockTime < locktimeThreshold then nBlockHeight else nBlockTime) ||
    tx.vin.all fun txin => txin.nSequence == sequenceFinal

variable (ctx : ContextualEnv)

/-- `GetMinimumTxSize`, `MIN_TX_SIZE_UPGRADE9` and `MIN_TX_SIZE_MAGNETIC_ANOMALY`. -/
def getMinimumTxSize (nHeightPrev : Int) : Nat :=
  if nHeightPrev ≥ ctx.upgrade9Height then 65
  else if nHeightPrev ≥ ctx.magneticAnomalyHeight then 100
  else 0

/-- `ContextualCheckTransaction`. -/
def contextualCheckTransaction (tx : CTransaction)
    (nHeight nLockTimeCutoff : Int) : Except Fault Unit :=
  if !isFinalTx tx nHeight nLockTimeCutoff then
    .error (.dos 10 "bad-txns-nonfinal")
  else if tx.serializeSize < getMinimumTxSize ctx (nHeight - 1) then
    .error (.dos 100 "bad-txns-undersize")
  else if nHeight - 1 ≥ ctx.upgrade9Height ∧ (tx.nVersion > 2 ∨ tx.nVersion < 1) then
    .error (.dos 100 "bad-txns-version")
  else
    .ok ()

/-- The canonical order of one transaction against `prevTx`, and the next
`prevTx`. The coinbase is not compared with anything. -/
def checkTxOrder (fIsMagneticAnomalyEnabled : Bool) (prevTx : Option CTransaction)
    (tx : CTransaction) : Except Fault (Option CTransaction) :=
  if !fIsMagneticAnomalyEnabled then
    .ok prevTx
  else
    match prevTx with
    | some prev =>
      if tx.getId = prev.getId then .error (.dos 100 "tx-duplicate")
      else if tx.getId < prev.getId then .error (.dos 100 "tx-ordering")
      else .ok (some tx)
    | none => .ok (if tx.isCoinBase then none else some tx)

/-- The body of the transaction loop. -/
def contextualCheckStep (fIsMagneticAnomalyEnabled : Bool)
    (nHeight nLockTimeCutoff : Int) (prevTx : Option CTransaction) (tx : CTransaction) :
    Except Fault (Option CTransaction) := do
  let prevTx ← checkTxOrder fIsMagneticAnomalyEnabled prevTx tx
  contextualCheckTransaction ctx tx nHeight nLockTimeCutoff
  .ok prevTx

variable (block : CBlock)

/-- `block.vtx[0]->vin[0].scriptSig`. -/
def CBlock.coinbaseScriptSig : CScript :=
  ((block.vtx.head?.bind fun tx => tx.vin.head?).map (·.scriptSig)).getD []

/-- The BIP34 rule: the coinbase starts with the serialized height. -/
def checkCoinbaseHeight (p : Params) (block : CBlock) (nHeight : Nat) : Except Fault Unit :=
  if nHeight ≥ p.BIP34Height then
    Outcome.require ((pushData (scriptNumSerialize nHeight)).isPrefixOf block.coinbaseScriptSig)
      (.dos 100 "bad-cb-height")
  else
    .ok ()

/-- `ContextualCheckBlock`. -/
def contextualCheckBlock (p : Params) (block : CBlock)
    (pindexPrev : Option CBlockIndex) : Except Fault Unit := do
  let nHeight : Nat := (pindexPrev.map fun prev => prev.nHeight + 1).getD 0
  let nMedianTimePast := (pindexPrev.map ctx.getMedianTimePast).getD 0
  -- BIP113: with CSV the lock times are compared with the median time past
  let nLockTimeCutoff := if nHeight ≥ ctx.CSVHeight then nMedianTimePast else ctx.getBlockTime block
  let fIsMagneticAnomalyEnabled :=
    (pindexPrev.map fun prev => decide (prev.nHeight ≥ ctx.magneticAnomalyHeight)).getD false
  let _ ← block.vtx.foldlM
    (contextualCheckStep ctx fIsMagneticAnomalyEnabled nHeight nLockTimeCutoff) none
  checkCoinbaseHeight p block nHeight

/-- **The height in the coinbase** of a block that passed the contextual checks. -/
theorem coinbase_pushes_height {ctx : ContextualEnv} {p : Params} {block : CBlock}
    {prev : CBlockIndex} (h : contextualCheckBlock ctx p block (some prev) = .ok ())
    (hheight : p.BIP34Height ≤ prev.nHeight + 1) :
    pushData (scriptNumSerialize (prev.nHeight + 1 : Nat)) <+: block.coinbaseScriptSig := by
  unfold contextualCheckBlock at h
  obtain ⟨_, -, hcheck⟩ := Outcome.bind_ok_iff.mp h
  unfold checkCoinbaseHeight at hcheck
  rw [if_pos (by exact hheight)] at hcheck
  exact List.isPrefixOf_iff_prefix.mp (Outcome.require_ok_iff.mp hcheck)

end DeVault
