import DeVault.Budget
import DeVault.Rewards.Engine
import DeVault.Validation.CheckBlock

/-!
# Connecting a block (`ConnectBlock`, `validation.cpp`)

`connectBlock` applies a block to a coins view and to the cold-reward engine. Its stages are
definitions of their own. The outputs of all transactions are added before any input is spent, so
that the order of the transactions does not matter. The engine is validated against before the block
is committed and can change then, so the engine comes back even when the block is rejected.
-/

namespace DeVault

open Prod

/-- `IsBIP30Repeat`. -/
def isBIP30Repeat (pindex : CBlockIndex) : Bool :=
  (pindex.nHeight == 91842 && pindex.hash ==
      0x00000000000a4d0a398161ffc163c503763b1f4360639393e0e4c8e300e0caec) ||
    (pindex.nHeight == 91880 && pindex.hash ==
      0x00000000000743f190a18c5577a3c2d2a1f610ae9601ac046a38084ccb7cd721)

/-- `fEnforceBIP30`: not for the two exceptions, and no more once the block at
the BIP34 height is the known one. -/
def enforceBIP30 (p : Params) (pindex : CBlockIndex) : Bool :=
  !isBIP30Repeat pindex &&
    match pindex.prevAncestor p.BIP34Height with
    | none => true
    | some hash => hash != p.BIP34Hash

/-- The outpoints of the outputs of a block, in order. -/
def CBlock.outpoints (block : CBlock) : List COutPoint :=
  block.vtx.flatMap fun tx => tx.vout.zipIdx.map fun o => tx.outPoint o.2

section Connect

variable {B : Type} [CCoinsView B]

/-- The body of the BIP30 loop. -/
def checkBIP30Step (view : CCoinsViewCache B) (o : COutPoint) : Except Fault (CCoinsViewCache B) :=
  let (view, isThere) := view.haveCoin o
  if isThere then .error (.dos 100 "bad-txns-BIP30") else .ok view

/-- The BIP30 loop. -/
def checkBIP30 (view : CCoinsViewCache B) (block : CBlock) : Except Fault (CCoinsViewCache B) :=
  block.outpoints.foldlM checkBIP30Step view

/-- Adding all outputs; a duplicate transaction shows as a `logic_error`. -/
def addAllCoins (view : CCoinsViewCache B) (block : CBlock) (nHeight : Nat) :
    Except Fault (CCoinsViewCache B) :=
  match block.vtx.foldlM (fun view tx => addCoins view tx nHeight false) view with
  | .error (.logicError _) => .error (.dos 100 "tx-duplicate")
  | r => r

/-- The body of the loop of `SpendCoins`. -/
def spendCoinsStep (s : CCoinsViewCache B × List Coin) (txin : CTxIn) :
    Except Fault (CCoinsViewCache B × List Coin) :=
  match s.1.spendCoin txin.prevout with
  | (view, some coin) => .ok (view, s.2 ++ [coin])
  | (_, none) => .error (.assertion "is_spent")

/-- `SpendCoins`: the view, and the spent coins as `CTxUndo`. -/
def spendCoins (view : CCoinsViewCache B) (tx : CTransaction) :
    Except Fault (CCoinsViewCache B × List Coin) :=
  if tx.isCoinBase then .ok (view, []) else tx.vin.foldlM spendCoinsStep (view, [])

/-- The state of the transaction loop: the view, `CBlockUndo` and the fees. -/
structure ConnectState (B : Type) where
  view : CCoinsViewCache B
  vtxundo : List (List Coin) := []
  nFees : Int := 0

/-- A check that reports a reject reason. -/
def rejectWith : Option String → Except Fault Unit
  | none => .ok ()
  | some reason => .error (.dos 100 reason)

/-- The inputs of one transaction: the fee, none for the coinbase. -/
def inputsAndFee (tx : CTransaction) (view : CCoinsViewCache B) (nHeight : Nat) :
    Except Fault (CCoinsViewCache B × Int) :=
  if tx.isCoinBase then .ok (view, 0) else checkTxInputs tx view nHeight

/-- The checks that do not apply to the coinbase, and the spending. The coins of the inputs are in
the cache by now. -/
def checkAndSpend (env : Env) (pindex : CBlockIndex) (view : CCoinsViewCache B)
    (vtxundo : List (List Coin)) (tx : CTransaction) :
    Except Fault (CCoinsViewCache B × List (List Coin)) :=
  if tx.isCoinBase then
    .ok (view, vtxundo)
  else do
    let coins := tx.prevouts.map view.peek
    Outcome.require (env.sequenceLocks tx (coins.map (·.nHeight)) pindex)
      (.dos 100 "bad-txns-nonfinal")
    rejectWith (env.checkInputs tx coins pindex)
    let (view, txundo) ← spendCoins view tx
    .ok (view, vtxundo ++ [txundo])

/-- The body of the transaction loop. -/
def connectTx (env : Env) (pindex : CBlockIndex) (s : ConnectState B) (tx : CTransaction) :
    Except Fault (ConnectState B) := do
  let (view, txfee) ← inputsAndFee tx s.view pindex.nHeight
  let nFees ← checkedAdd s.nFees txfee
  Outcome.require (moneyRange nFees) (.dos 100 "bad-txns-accumulated-fee-outofrange")
  rejectWith (env.checkTxTokens tx (if tx.isCoinBase then [] else tx.prevouts.map view.peek) pindex)
  let (view, vtxundo) ← checkAndSpend env pindex view s.vtxundo tx
  .ok { view := view, vtxundo := vtxundo, nFees := nFees }

/-- From the BIP30 check to the end of the transaction loop. -/
def connectTransactions (env : Env) (p : Params) (block : CBlock) (pindex : CBlockIndex)
    (view : CCoinsViewCache B) : Except Fault (ConnectState B) := do
  let view ← (if enforceBIP30 p pindex then checkBIP30 view block else .ok view :
    Except Fault (CCoinsViewCache B))
  let view ← addAllCoins view block pindex.nHeight
  block.vtx.foldlM (connectTx env pindex) { view := view }

/-- `CheckBlock` as `ConnectBlock` calls it: corrupted data stops the node. -/
def checkBlockAgain (env : Env) (block : CBlock) (fJustCheck : Bool) : Except Fault Unit :=
  match checkBlock env block (!fJustCheck) (!fJustCheck) with
  | .error e =>
    if corruptionPossible e then
      .error (.abortNode "Corrupt block found indicating potential hardware failure")
    else .error e
  | .ok () => .ok ()

/-- The part of `ConnectBlock` before the genesis special case. -/
def connectPreamble (env : Env) (block : CBlock) (pindex : CBlockIndex)
    (view : CCoinsViewCache B) (fJustCheck : Bool) : Except Fault Unit := do
  Outcome.require (pindex.hash == block.hash) (.assertion "*pindex->phashBlock == block.GetHash()")
  checkBlockAgain env block fJustCheck
  checkBlockSize block (env.nextBlockSizeLimit pindex)
  Outcome.require (pindex.prevHash == view.getBestBlock)
    (.assertion "hashPrevBlock == view.GetBestBlock()")

/-- The cold reward of a block: the engine, the reward, and the verdict. Without an engine in
charge, the value of `vout[1]` is taken as is. -/
def coldRewardOf (p : Params) (block : CBlock) (nHeight : Nat) (g : Option CColdRewards)
    (suppress fJustCheck : Bool) : Option CColdRewards × Int × Bool :=
  if p.isSuperBlock nHeight then
    (g, 0, true)
  else
    match g with
    | some r =>
      let (r, reward, ok) := r.quickValidate p block nHeight (fJustCheck || suppress)
      (some r, reward, ok)
    | none => (none, (block.coinbaseOutputs[1]?.map (·.nValue)).getD 0, true)

/-- The coinbase may pay at most the fees, the subsidy and the two extra rewards. -/
def checkCoinbaseAmount (block : CBlock) (nFees nBlockSubsidy nColdReward nBudgetReward : Int) :
    Except Fault Unit := do
  let blockReward ← checkedAdd nFees nBlockSubsidy
  let blockReward ← checkedAdd blockReward nColdReward
  let blockReward ← checkedAdd blockReward nBudgetReward
  let valueOut ← (block.vtx.head?.map (·.getValueOut)).getD (.ok 0)
  Outcome.require (decide (valueOut ≤ blockReward)) (.dos 100 "bad-cb-amount")

/-- The reward-state hooks of a committed block. -/
def commitColdRewards (env : Env) (p : Params) (block : CBlock) (pindex : CBlockIndex)
    (nColdReward : Int) (r : CColdRewards) : CColdRewards :=
  let r := if nColdReward > 0 then r.updateRewardsDB p pindex.nHeight else r
  (r.updateWithBlock p env.maxreorgdepth block pindex.nHeight).setBestBlock pindex.hash

/-- What an accepted block leaves: the view, the undo data and the terms of the
block reward equation. -/
structure ConnectOutput (B : Type) where
  view : CCoinsViewCache B
  vtxundo : List (List Coin) := []
  nFees : Int := 0
  nBlockSubsidy : Int := 0
  nBudgetReward : Int := 0
  nColdReward : Int := 0

/-- `ConnectBlock`, on a view and on the engine `g_coldRewards`. -/
def connectBlock (env : Env) (p : Params) (block : CBlock) (pindex : CBlockIndex)
    (view : CCoinsViewCache B) (g : Option CColdRewards) (suppress fJustCheck : Bool) :
    Option CColdRewards × Except Fault (ConnectOutput B) :=
  match connectPreamble env block pindex view fJustCheck with
  | .error e => (g, .error e)
  | .ok () =>
  if block.hash = p.hashGenesisBlock then
    (g, .ok { view := if fJustCheck then view else view.setBestBlock pindex.hash })
  else if pindex.ancestors.isEmpty then
    (g, .error (.assertion "pindex->pprev"))
  else
  match connectTransactions env p block pindex view with
  | .error e => (g, .error e)
  | .ok s =>
  let nBlockSubsidy := getBlockSubsidy pindex.nHeight p
  match checkSuperBlockBudget env.scriptFor p block.coinbaseOutputs
    pindex.nHeight nBlockSubsidy with
  | .error e => (g, .error e)
  | .ok (nBudgetReward, budgetOk) =>
  if !budgetOk then
    (g, .error (.dos 100 "bad-cb-amount"))
  else
  let (g, nColdReward, coldOk) := coldRewardOf p block pindex.nHeight g suppress fJustCheck
  if !coldOk then
    (g, .error (.dos 100 "bad-cb-coldreward"))
  else
  match checkCoinbaseAmount block s.nFees nBlockSubsidy nColdReward nBudgetReward with
  | .error e => (g, .error e)
  | .ok () =>
  if !env.scriptChecksPass block pindex then
    (g, .error (.dos 100 "blk-bad-inputs"))
  else if !fJustCheck && !env.writeUndoData pindex then
    (g, .error (.abortNode "Failed to write undo data"))
  else
    let view := if fJustCheck then s.view else s.view.setBestBlock pindex.hash
    let g := if fJustCheck || suppress then g
      else g.map (commitColdRewards env p block pindex nColdReward)
    (g, .ok {
      view := view, vtxundo := s.vtxundo, nFees := s.nFees, nBlockSubsidy := nBlockSubsidy
      nBudgetReward := nBudgetReward, nColdReward := nColdReward })

/-! ### Taking an accepted block apart -/

/-- How an accepted block above the genesis block passed each stage. `s` is the state after the
transactions, `g₁` the engine after validation. -/
structure Connected (env : Env) (p : Params) (block : CBlock) (pindex : CBlockIndex)
    (view : CCoinsViewCache B) (g : Option CColdRewards) (suppress fJustCheck : Bool)
    (s : ConnectState B) (g₁ g' : Option CColdRewards) (out : ConnectOutput B) : Prop where
  preamble : connectPreamble env block pindex view fJustCheck = .ok ()
  parent : pindex.ancestors ≠ []
  transactions : connectTransactions env p block pindex view = .ok s
  budget : checkSuperBlockBudget env.scriptFor p block.coinbaseOutputs pindex.nHeight
    out.nBlockSubsidy = .ok (out.nBudgetReward, true)
  cold : coldRewardOf p block pindex.nHeight g suppress fJustCheck = (g₁, out.nColdReward, true)
  amount : checkCoinbaseAmount block out.nFees out.nBlockSubsidy out.nColdReward
    out.nBudgetReward = .ok ()
  nFees_eq : out.nFees = s.nFees
  vtxundo_eq : out.vtxundo = s.vtxundo
  nBlockSubsidy_eq : out.nBlockSubsidy = getBlockSubsidy pindex.nHeight p
  view_eq : out.view = if fJustCheck then s.view else s.view.setBestBlock pindex.hash
  engine_eq : g' = if fJustCheck || suppress then g₁
    else g₁.map (commitColdRewards env p block pindex out.nColdReward)

variable {env : Env} {p : Params} {block : CBlock} {pindex : CBlockIndex}
  {view : CCoinsViewCache B} {g g' : Option CColdRewards} {suppress fJustCheck : Bool}
  {out : ConnectOutput B}

section

variable (h : connectBlock env p block pindex view g suppress fJustCheck = (g', .ok out))

include h

/-- An accepted block has passed every check. -/
theorem connectBlock_ok (hgen : block.hash ≠ p.hashGenesisBlock) :
    ∃ s g₁, Connected env p block pindex view g suppress fJustCheck s g₁ g' out := by
  -- all branches but the last one end in an error
  unfold connectBlock at h
  split at h
  · cases congrArg snd h
  next hpre =>
  rw [if_neg hgen] at h
  split at h
  · cases congrArg snd h
  next hparent =>
  split at h
  · cases congrArg snd h
  next s htx =>
  simp only at h
  split at h
  · cases congrArg snd h
  next nBudgetReward budgetOk hbudget =>
  cases budgetOk with
  | false => cases congrArg snd h
  | true =>
    rcases hcold : coldRewardOf p block pindex.nHeight g suppress fJustCheck
      with ⟨g₁, nColdReward, coldOk⟩
    simp only [hcold, Bool.not_true, Bool.false_eq_true, if_false] at h
    cases coldOk with
    | false => cases congrArg snd h
    | true =>
      simp only [Bool.not_true, Bool.false_eq_true, if_false] at h
      split at h
      · cases congrArg snd h
      next hamount =>
      split at h
      · cases congrArg snd h
      split at h
      · cases congrArg snd h
      obtain ⟨hg, hout⟩ := Prod.mk.inj h
      cases hout
      exact ⟨s, g₁, hpre, by simpa using hparent, htx, hbudget, hcold, hamount, rfl, rfl, rfl, rfl,
        hg.symm⟩

/-- The genesis block is taken without a look at its transactions. -/
theorem connectBlock_genesis_ok (hgen : block.hash = p.hashGenesisBlock) :
    g' = g ∧ out = { view := if fJustCheck then view else view.setBestBlock pindex.hash } := by
  unfold connectBlock at h
  split at h
  · cases congrArg snd h
  rw [if_pos hgen] at h
  obtain ⟨hg, hout⟩ := Prod.mk.inj h
  exact ⟨hg.symm, (Except.ok.inj hout).symm⟩

end

/-- A refused block has at most run the validation of the engine. -/
theorem connectBlock_error_engine {e : Fault}
    (h : connectBlock env p block pindex view g suppress fJustCheck = (g', .error e)) :
    g' = g ∨ g' = (coldRewardOf p block pindex.nHeight g suppress fJustCheck).1 := by
  unfold connectBlock at h
  split at h
  · exact .inl (congrArg fst h).symm
  split at h
  · exact .inl (congrArg fst h).symm
  split at h
  · exact .inl (congrArg fst h).symm
  split at h
  · exact .inl (congrArg fst h).symm
  simp only at h
  split at h
  · exact .inl (congrArg fst h).symm
  split at h
  · exact .inl (congrArg fst h).symm
  split at h
  · exact .inr (congrArg fst h).symm
  split at h
  · exact .inr (congrArg fst h).symm
  split at h
  · exact .inr (congrArg fst h).symm
  split at h
  · exact .inr (congrArg fst h).symm
  · cases congrArg snd h

theorem exists_of_connectBlock_isOk
    (h : (connectBlock env p block pindex view g suppress fJustCheck).2.isOk = true) :
    ∃ g' out, connectBlock env p block pindex view g suppress fJustCheck = (g', .ok out) := by
  obtain ⟨out, hout⟩ := Outcome.exists_of_isOk h
  exact ⟨_, out, Prod.ext rfl hout⟩

theorem checkBlock_of_preamble (h : connectPreamble env block pindex view fJustCheck = .ok ()) :
    checkBlock env block (!fJustCheck) (!fJustCheck) = .ok () := by
  obtain ⟨_, -, hpre⟩ := Outcome.bind_ok_iff.mp h
  obtain ⟨_, hagain, -⟩ := Outcome.bind_ok_iff.mp hpre
  unfold checkBlockAgain at hagain
  split at hagain
  · split at hagain <;> cases hagain
  next hok => exact hok

theorem Connected.checkBlock_ok {s : ConnectState B} {g₁ : Option CColdRewards}
    (h : Connected env p block pindex view g suppress fJustCheck s g₁ g' out) :
    checkBlock env block (!fJustCheck) (!fJustCheck) = .ok () :=
  checkBlock_of_preamble h.preamble

end Connect

/-! ### The first block of a chain -/

/-- The view of a chain that has only its genesis block. -/
def genesisView (p : Params) : CCoinsViewCache UtxoSet :=
  { base := UtxoSet.empty p.hashGenesisBlock, hashBlock := p.hashGenesisBlock }

/-- The index entry of a block on top of the genesis block. -/
def firstIndex (p : Params) (hash : BlockHash) : CBlockIndex :=
  { nHeight := 1, hash := hash, ancestors := [p.hashGenesisBlock], length_ancestors := rfl }

/-- A coinbase transaction with given outputs. -/
def coinbaseTx (hash : TxId) (vout : List CTxOut) : CTransaction :=
  { vin := [{ prevout := COutPoint.null, scriptSig := [1, 1] }], vout := vout, hash := hash }

/-- The first block on top of the genesis block, with a coinbase only. -/
def firstBlock (p : Params) (vout : List CTxOut) : CBlock :=
  { hash := 1, hashPrevBlock := p.hashGenesisBlock, vtx := [coinbaseTx 1 vout] }

end DeVault
