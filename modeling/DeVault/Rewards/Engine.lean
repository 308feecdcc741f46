import DeVault.UtxoSet
import DeVault.Consensus.Params

/-!
# The cold-reward engine (`devault/rewards.cpp`, `devault/coinreward.h`)

A cold reward is paid at most once per block, to the output that has waited
longest. The engine keeps one record per candidate output in `rewardMap`:
`height` is the age clock, set when the output is created and again when it is
paid, and `oldHeight` the reading before, so that a payout can be undone.
Records of spent outputs stay in the map, inactive, until a reorganisation can
no longer bring them back.

Heights are natural numbers: the source holds them in `int` and `uint32_t` and
they are never negative. `payCount` is a `uint32_t` that does wrap.
-/

namespace DeVault

/-! ### The reward of one candidate (`devault/rewards_calculation.cpp`) -/

variable (p : Params)

/-- The rate in force at a height, in percent per year. -/
def rewardPercent (height : Int) : Int :=
  let lastYear := p.nPerCentPerYear.length - 1
  let year := height.tdiv p.nBlocksPerYear
  -- a negative quotient becomes a huge `size_t`, and both ends are clamped
  let yearNumber := if 0 ≤ year ∧ year ≤ lastYear then year.toNat else lastYear
  p.nPerCentPerYear.getD yearNumber 0

/-- `CalculateReward`. -/
def calculateReward (height heightDiff balance : Int) : Int :=
  let percent := rewardPercent p height
  let nRewardRatePerBlockReciprocal := (wrap64 (100 * p.nBlocksPerYear)).tdiv percent
  let balanceInt := balance.tdiv satoshi
  let rewardPerBlock := balanceInt.tdiv nRewardRatePerBlockReciprocal
  let rewardX100 := (wrap64 (wrap64 (100 * heightDiff) * rewardPerBlock)).tdiv (coin.tdiv satoshi)
  let reward := wrap64 (rewardX100 * coin.tdiv 100)
  if reward < p.nMinReward then 0 else reward

/-! ### Records and state -/

/-- `CRewardValue`: the record of an output. -/
structure CRewardValue where
  txout : CTxOut
  creationHeight : Nat
  oldHeight : Nat
  height : Nat
  payCount : UInt32
  active : Bool
  inactiveHeight : Nat
  version : UInt8 := 2
  deriving DecidableEq, Repr, Inhabited

namespace CRewardValue

/-- The default constructor. -/
def empty : CRewardValue := ⟨CTxOut.null, 0, 0, 0, 0, false, 0, 2⟩

/-- `CRewardValue(ptr, cH, OldH, NewH)`: an active record that was never paid. -/
def new (txout : CTxOut) (creationHeight oldHeight newHeight : Nat) : CRewardValue :=
  ⟨txout, creationHeight, oldHeight, newHeight, 0, true, 0, 2⟩

/-- `GetValue`. -/
def getValue (r : CRewardValue) : Int := r.txout.nValue

end CRewardValue

/-- `CColdRewards`. `inactiveByHeight` is the `std::multimap`, as the list of its
entries in order. -/
structure CColdRewards where
  rewardMap : Std.ExtTreeMap COutPoint CRewardValue := ∅
  inactiveByHeight : List (Nat × COutPoint) := []
  setDirty : Std.ExtTreeSet COutPoint := ∅
  setErased : Std.ExtTreeSet COutPoint := ∅
  hashBestBlock : BlockHash := 0
  rewardKey : COutPoint := COutPoint.null
  nMinBlocks : Int
  nMinReward : Int
  nNumCandidates : Int := 0

/-- The superblock that clears low rewards. -/
def clearLowRewardsSuperBlock : Int := 6

variable (block : CBlock)

/-- The inputs of the transactions of a block other than the coinbase, in order. -/
def CBlock.spentOutpoints : List COutPoint :=
  block.vtx.flatMap fun tx => if tx.isCoinBase then [] else tx.prevouts

/-- The outputs of the transactions of a block other than the coinbase, in order. -/
def CBlock.createdOutputs : List (COutPoint × CTxOut) :=
  block.vtx.flatMap fun tx =>
    if tx.isCoinBase then [] else tx.vout.zipIdx.map fun p => (tx.outPoint p.2, p.1)

/-- The outputs of the first transaction of a block. -/
def CBlock.coinbaseOutputs : List CTxOut :=
  (block.vtx.head?.map (·.vout)).getD []

variable (r : CColdRewards) (op : COutPoint) (val : CRewardValue) (height : Nat) (nHeight : Nat)

namespace CColdRewards

/-- The constructor, with `Setup`. -/
def init : CColdRewards :=
  { nMinBlocks := p.nMinRewardBlocks, nMinReward := p.nMinReward }

/-- `PutInMap`. -/
def putInMap : CColdRewards :=
  { r with
    rewardMap := r.rewardMap.insert op val
    setDirty := r.setDirty.insert op
    setErased := r.setErased.erase op }

/-- `EraseFromMap`. -/
def eraseFromMap : CColdRewards :=
  { r with
    rewardMap := r.rewardMap.erase op
    setErased := r.setErased.insert op
    setDirty := r.setDirty.erase op }

/-- `SetBestBlock`. -/
def setBestBlock (h : BlockHash) : CColdRewards :=
  { r with hashBestBlock := h }

/-! ### Selection and validation -/

/-- `GetPayment`. -/
def getPayment (coinreward : CRewardValue) (reward : Int) : CTxOut :=
  { nValue := reward, scriptPubKey := coinreward.txout.scriptPubKey }

/-- The local variables of `FindReward`. -/
structure Selection where
  selReward : CRewardValue := CRewardValue.empty
  minKey : COutPoint := COutPoint.null
  minHeight : Int
  selAmount : Int := 0
  found : Bool := false
  count : Int := 0

/-- The body of the loop of `FindReward`. Heights become `int` by `toInt`. -/
def findRewardStep (toInt : Int → Int) (nMinBlocks nMinReward : Int) (height : Nat) (s : Selection)
    (entry : COutPoint × CRewardValue) : Selection :=
  let (key, theReward) := entry
  let stopLowRewards := decide ((height : Int) ≥ clearLowRewardsSuperBlock * p.nBlocksPerPeriod)
  if !theReward.active then
    s
  else if stopLowRewards && theReward.getValue < p.getMinRewardBalance height then
    s
  else
    let s := { s with count := s.count + 1 }
    let nHeight := toInt theReward.height
    let heightDiff := toInt (height - nHeight)
    if nHeight ≤ s.minHeight ∧ heightDiff > nMinBlocks then
      let reward := calculateReward p nHeight heightDiff theReward.getValue
      if reward ≥ nMinReward then
        if nHeight < s.minHeight ∨ reward > s.selAmount ∨
            (reward = s.selAmount ∧ key.lt s.minKey = true) then
          { s with
            selAmount := reward, minHeight := nHeight, minKey := key, selReward := theReward
            found := true }
        else
          { s with found := true }
      else s
    else s

/-- `FindReward` over the entries of `rewardMap` in some order: the payment of the next reward, if
one is due. -/
def findRewardIn (toInt : Int → Int) (p : Params) (height : Nat)
    (entries : List (COutPoint × CRewardValue)) : CColdRewards × Option CTxOut :=
  let s := entries.foldl (findRewardStep p toInt r.nMinBlocks r.nMinReward height)
    { minHeight := height }
  let r := { r with nNumCandidates := s.count }
  if s.found then
    ({ r with rewardKey := s.minKey }, some (getPayment s.selReward s.selAmount))
  else
    (r, none)

/-- `FindReward`, for heights that fit into `int`. -/
def findReward (p : Params) (height : Nat) : CColdRewards × Option CTxOut :=
  r.findRewardIn id p height r.rewardMap.toList

/-- Whether a record matches a payment: it is active, old enough, has the
script, and its reward is the amount. -/
def matchesPayment (nMinBlocks : Int) (height : Nat) (rewardPayment : CTxOut)
    (val : CRewardValue) : Bool :=
  val.active &&
    decide ((height : Int) - val.height > nMinBlocks) &&
    decide (rewardPayment.scriptPubKey = val.txout.scriptPubKey) &&
    decide (calculateReward p val.height (height - val.height) val.getValue = rewardPayment.nValue)

/-- The body of the second loop of `CheckReward`: `minHeight` holds the largest
age seen so far. -/
def checkRewardStep (s : Int × COutPoint) (entry : COutPoint × CRewardValue) : Int × COutPoint :=
  let heightDiff : Int := height - entry.2.height
  if heightDiff > s.1 then (heightDiff, entry.1) else s

/-- `CheckReward`: some record earns exactly this payment. -/
def checkReward (p : Params) (height : Nat) (rewardPayment : CTxOut) : CColdRewards × Bool :=
  let vals := r.rewardMap.toList.filter fun entry =>
    matchesPayment p r.nMinBlocks height rewardPayment entry.2
  if vals.isEmpty then
    (r, false)
  else
    ({ r with rewardKey := (vals.foldl (checkRewardStep height) (0, r.rewardKey)).2 }, true)

/-- `FillPayments`: the reward is the last output. -/
def fillPayments (p : Params) (vout : List CTxOut) (nHeight : Nat) : CColdRewards × List CTxOut :=
  match r.findReward p nHeight with
  | (r, some out) => (r, vout ++ [out])
  | (r, none) => (r, vout)

/-- `ClearLowRewards`. -/
def clearLowRewards (minRewardBalance : Int) : CColdRewards :=
  let toErase := (r.rewardMap.toList.filter fun entry =>
    decide (entry.2.getValue < minRewardBalance)).map (·.1)
  toErase.foldl eraseFromMap r

/-- `QuickValidate`: the state, the reward, and whether the block passes. -/
def quickValidate (p : Params) (block : CBlock) (nHeight : Nat)
    (fJustCheck : Bool) : CColdRewards × Int × Bool :=
  let vout := block.coinbaseOutputs
  if fJustCheck then
    (r, (vout[1]?.map (·.nValue)).getD 0, true)
  else
    let r :=
      if (nHeight : Int) = clearLowRewardsSuperBlock * p.nBlocksPerPeriod + 1 then
        r.clearLowRewards (p.getMinRewardBalance nHeight)
      else r
    match vout[1]? with
    | some coinbaseReward =>
      let (r, ok) := r.checkReward p nHeight coinbaseReward
      (r, coinbaseReward.nValue, ok)
    | none => (r, 0, true)

/-! ### The hooks of block connection and disconnection -/

/-- `UpdateRewardsDB`: the record that has been paid. -/
def updateRewardsDB (p : Params) (nNewHeight : Nat) : CColdRewards :=
  match r.rewardMap[r.rewardKey]? with
  | none => r
  | some coinreward =>
    if coinreward.getValue ≥ p.getMinRewardBalance nNewHeight then
      r.putInMap r.rewardKey
        { coinreward with
          oldHeight := coinreward.height, height := nNewHeight
          payCount := coinreward.payCount + 1 }
    else
      r.eraseFromMap r.rewardKey

/-- Pass 1 of `UpdateWithBlock`: a candidate for an output that is large enough. -/
def addCandidate (minRewardBalance : Int) (nHeight : Nat) (r : CColdRewards)
    (o : COutPoint × CTxOut) : CColdRewards :=
  let out := o.2.quantized
  if out.nValue ≥ minRewardBalance then
    r.putInMap o.1 (CRewardValue.new out nHeight nHeight nHeight)
  else r

/-- `std::multimap::emplace`: behind the entries with the same key. -/
def emplaceByHeight (h : Nat) (op : COutPoint) : List (Nat × COutPoint) → List (Nat × COutPoint)
  | [] => [(h, op)]
  | e :: rest => if e.1 ≤ h then e :: emplaceByHeight h op rest else (h, op) :: e :: rest

/-- Pass 2 of `UpdateWithBlock`: a spent candidate becomes inactive, or goes if
this very block created it. -/
def spendCandidate (r : CColdRewards) (op : COutPoint) : CColdRewards :=
  match r.rewardMap[op]? with
  | none => r
  | some val =>
    if val.creationHeight = nHeight then
      r.eraseFromMap op
    else
      { r.putInMap op { val with active := false, inactiveHeight := nHeight } with
        inactiveByHeight := emplaceByHeight nHeight op r.inactiveByHeight }

/-- Drop the record of an index entry, unless the entry is stale. -/
def pruneRecord (h : Nat) (op : COutPoint) : CColdRewards :=
  match r.rewardMap[op]? with
  | some val => if !val.active && val.inactiveHeight = h then r.eraseFromMap op else r
  | none => r

/-- The prune loop of `UpdateWithBlock`, over the index entries in order. -/
def pruneLoop (threshold : Int) : List (Nat × COutPoint) → CColdRewards → CColdRewards
  | [], r => { r with inactiveByHeight := [] }
  | (h, op) :: rest, r =>
    if (h : Int) < threshold then
      pruneLoop threshold rest (r.pruneRecord h op)
    else
      { r with inactiveByHeight := (h, op) :: rest }

/-- `UpdateWithBlock`: new outputs, spent outputs, then pruning. -/
def updateWithBlock (p : Params) (maxreorgdepth : Int) (block : CBlock)
    (nHeight : Nat) : CColdRewards :=
  let r := block.createdOutputs.foldl (addCandidate (p.getMinRewardBalance nHeight) nHeight) r
  let r := block.spentOutpoints.foldl (spendCandidate nHeight) r
  pruneLoop (nHeight - maxreorgdepth) r.inactiveByHeight r

/-- What pass 1 of `UndoBlock` makes of the record of a spent outpoint. -/
def reactivated (val : CRewardValue) : CRewardValue :=
  let val := if !val.active then { val with active := true }
    else { val with height := val.oldHeight }
  if val.height ≥ nHeight then { val with height := val.oldHeight } else val

/-- Pass 1 of `UndoBlock`. -/
def restoreCandidate (r : CColdRewards) (op : COutPoint) : CColdRewards :=
  match r.rewardMap[op]? with
  | none => r
  | some val => r.putInMap op (reactivated nHeight val)

/-- `RestoreRewardAtHeight`: rewind the first record whose clock stands at the
height, in the order of the map. -/
def restoreRewardAtHeight : CColdRewards :=
  match r.rewardMap.toList.find? fun entry => entry.2.height == height with
  | none => r
  | some (key, val) =>
    r.putInMap key { val with height := val.oldHeight, payCount := val.payCount - 1 }

/-- Drop the record of a created output, if there is one. -/
def dropCandidate : CColdRewards :=
  if r.rewardMap.contains op then r.eraseFromMap op else r

/-- Pass 2 of `UndoBlock`, for one transaction. -/
def undoTransaction (undoReward : Bool) (r : CColdRewards) (tx : CTransaction) : CColdRewards :=
  if !tx.isCoinBase then
    (tx.vout.zipIdx.map fun o => tx.outPoint o.2).foldl dropCandidate r
  else if tx.vout.length > 1 && !p.isSuperBlock nHeight && undoReward then
    r.restoreRewardAtHeight nHeight
  else r

/-- `UndoBlock`. -/
def undoBlock (p : Params) (block : CBlock) (nHeight : Nat) (undoReward : Bool) : CColdRewards :=
  let r := block.spentOutpoints.foldl (restoreCandidate nHeight) r
  block.vtx.foldl (undoTransaction p nHeight undoReward) r

end CColdRewards

end DeVault
