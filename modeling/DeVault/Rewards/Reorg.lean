import DeVault.Rewards.UndoBlock

/-!
# Taking back a run of blocks

A reorganisation disconnects blocks in reverse order. `disconnect_connect` is about any number of
blocks without payouts, on records that are older than the first of them: what `UpdateWithBlock` did
to the records at consecutive heights, `UndoBlock` takes back, and every record that was not pruned
on the way is as it was, up to the height at which it was last inactivated.

The induction is over the run, from its first block. Its hypothesis says of the records after the
later blocks were taken back that they agree with those right after the first block, where nothing
was pruned, and that pruned outpoints have no record. So the first block meets the records that it
left. Only those it created have their clock at its height, so if `RestoreRewardAtHeight` finds a
record to rewind, then one that goes.
-/

namespace DeVault

open CRewardValue

/-- A record without the height at which it was last inactivated, which
reactivation leaves. -/
def CRewardValue.core (val : CRewardValue) : CRewardValue := { val with inactiveHeight := 0 }

theorem CRewardValue.height_eq_of_core {val w : CRewardValue} (h : w.core = val.core) :
    w.height = val.height := by
  show w.core.height = val.core.height
  rw [h]

namespace CColdRewards

/-- `UpdateWithBlock` for blocks at consecutive heights, the first at `nHeight`. -/
def connectBlocks (p : Params) (maxreorgdepth : Int) :
    CColdRewards → Nat → List CBlock → CColdRewards
  | r, _, [] => r
  | r, nHeight, block :: blocks =>
    connectBlocks p maxreorgdepth (r.updateWithBlock p maxreorgdepth block nHeight) (nHeight + 1)
      blocks

/-- `UndoBlock` for the same blocks, the last one first. -/
def disconnectBlocks (p : Params) (r : CColdRewards) : Nat → List CBlock → CColdRewards
  | _, [] => r
  | nHeight, block :: blocks =>
    (disconnectBlocks p r (nHeight + 1) blocks).undoBlock p block nHeight true

/-- Each block extends the chain of the records it meets. -/
def ValidRun (p : Params) (maxreorgdepth : Int) : CColdRewards → Nat → List CBlock → Prop
  | _, _, [] => True
  | r, nHeight, block :: blocks => r.ValidAt block nHeight ∧
    ValidRun p maxreorgdepth (r.updateWithBlock p maxreorgdepth block nHeight) (nHeight + 1) blocks

/-- The pruning at the end of `UpdateWithBlock` takes the record. -/
def PrunedBy (r : CColdRewards) (p : Params) (maxreorgdepth : Int) (block : CBlock) (nHeight : Nat)
    (op : COutPoint) : Prop :=
  (connectedRecord p block nHeight op r.rewardMap[op]?).isSome = true ∧
    (r.updateWithBlock p maxreorgdepth block nHeight).rewardMap[op]? = none

/-- Some block of the run prunes the record. -/
def PrunedIn (p : Params) (maxreorgdepth : Int) (op : COutPoint) :
    CColdRewards → Nat → List CBlock → Prop
  | _, _, [] => False
  | r, nHeight, block :: blocks => r.PrunedBy p maxreorgdepth block nHeight op ∨
    PrunedIn p maxreorgdepth op (r.updateWithBlock p maxreorgdepth block nHeight) (nHeight + 1)
      blocks

variable {r r' : CColdRewards} {p : Params} {maxreorgdepth : Int} {block : CBlock} {nHeight : Nat}
  {op : COutPoint}

/-! ### One block -/

/-- Without pruning, the two passes decide the record. -/
theorem getElem?_of_not_prunedBy (h : ¬r.PrunedBy p maxreorgdepth block nHeight op) :
    (r.updateWithBlock p maxreorgdepth block nHeight).rewardMap[op]? =
      connectedRecord p block nHeight op r.rewardMap[op]? := by
  rcases getElem?_updateWithBlock (k := op) (r := r) p maxreorgdepth block nHeight with
    hsame | ⟨hnone, val, hval, -⟩
  · exact hsame
  · exact absurd ⟨by rw [hval]; rfl, hnone⟩ h

/-- The records when the first block of a run is taken back, against what that block left: those
that were pruned since are gone. -/
def Agrees (left found : CColdRewards) (op : COutPoint) : Prop :=
  found.rewardMap[op]? = none ∨
    found.rewardMap[op]?.map core = left.rewardMap[op]?.map core

section TakeBack

variable (hvalid : r.ValidAt block nHeight)
  (hfound : ∀ op, Agrees (r.updateWithBlock p maxreorgdepth block nHeight) r' op)
  (hnew : op ∉ block.createdOutputs.map Prod.fst)

include hvalid hfound hnew

/-- A record that the block did not create was there before it, and has changed
only if the block spent it. -/
theorem core_of_notMem_created {w : CRewardValue} (hw : r'.rewardMap[op]? = some w) :
    ∃ val, r.rewardMap[op]? = some val ∧
      w.core = (if op ∈ block.spentOutpoints then inactivated nHeight val else val).core := by
  rcases hfound op with hnone | hagree
  · cases hnone.symm.trans hw
  have hleft : (r.updateWithBlock p maxreorgdepth block nHeight).rewardMap[op]? =
      connectedRecord p block nHeight op r.rewardMap[op]? := by
    apply getElem?_of_not_prunedBy
    intro hpruned
    rw [hw, hpruned.2] at hagree
    cases hagree
  rw [hw, hleft] at hagree
  rcases hval : r.rewardMap[op]? with _ | val
  · rw [hval, connectedRecord_none, newCandidate_eq_none_of_notMem hnew] at hagree
    simp at hagree
  · rw [hval, connectedRecord_some hnew (hvalid.creationHeight_lt op val hval)] at hagree
    exact ⟨val, rfl, Option.some.inj hagree⟩

/-- Reactivation takes a spent record back to what it was. -/
theorem core_restored {w : CRewardValue}
    (hw : (r'.restored block nHeight).rewardMap[op]? = some w) :
    ∃ val, r.rewardMap[op]? = some val ∧ w.core = val.core := by
  rw [getElem?_restored hvalid.nodup_spent] at hw
  split at hw
  next hspent =>
    obtain ⟨v, hv, rfl⟩ := Option.map_eq_some_iff.mp hw
    obtain ⟨val, hval, hcore⟩ := core_of_notMem_created hvalid hfound hnew hv
    rw [if_pos hspent] at hcore
    refine ⟨val, hval, ?_⟩
    -- it is inactive with a clock below the height, so only the flag moves
    have hin : v.active = false := by
      show v.core.active = false
      rw [hcore]
      rfl
    have hheight : v.height = (inactivated nHeight val).height :=
      height_eq_of_core hcore
    have hlow : v.height < nHeight := hheight ▸ hvalid.height_lt op val hval
    calc (reactivated nHeight v).core
        = { v.core with active := true } := by
          simp [reactivated, hin, Nat.not_le.mpr hlow, core]
      _ = { (inactivated nHeight val).core with active := true } := by rw [hcore]
      _ = { val.core with active := true } := rfl
      _ = val.core := by
          have hactive : val.core.active = true := hvalid.active_spent op hspent val hval
          rw [← hactive]
  next hunspent =>
    obtain ⟨val, hval, hcore⟩ := core_of_notMem_created hvalid hfound hnew hw
    rw [if_neg hunspent] at hcore
    exact ⟨val, hval, hcore⟩

/-- So it comes out of `UndoBlock` as the first pass left it: its clock stands
below the height. -/
theorem getElem?_undoBlock_of_agrees :
    (r'.undoBlock p block nHeight true).rewardMap[op]? =
      (r'.restored block nHeight).rewardMap[op]? := by
  apply hvalid.getElem?_undoBlock_of_ne hnew
  intro w hfirst
  obtain ⟨hw, hheight, -⟩ := firstAt_eq_some_iff.mp hfirst
  obtain ⟨val, hval, hcore⟩ := core_restored hvalid hfound hnew hw
  have hlt := hvalid.height_lt op val hval
  have heq := height_eq_of_core hcore
  omega

omit hnew

/-- An outpoint without a record has none after `UndoBlock`. -/
theorem undoBlock_none (hnone : r'.rewardMap[op]? = none) :
    (r'.undoBlock p block nHeight true).rewardMap[op]? = none := by
  by_cases hnew : op ∈ block.createdOutputs.map Prod.fst
  · obtain ⟨coinbase, rest, hvtx, hcb, hreg⟩ := hvalid.shape
    rw [getElem?_undoBlock p hvtx hcb hreg, if_pos hnew]
  · rw [getElem?_undoBlock_of_agrees hvalid hfound hnew,
      getElem?_restored hvalid.nodup_spent, hnone]
    simp

/-- **One block taken back.** Where the records agree with what the block left and it pruned
nothing, `UndoBlock` brings back what it met. -/
theorem undoBlock_core (hkept : ¬r.PrunedBy p maxreorgdepth block nHeight op)
    (hagree : r'.rewardMap[op]?.map core =
      (r.updateWithBlock p maxreorgdepth block nHeight).rewardMap[op]?.map core) :
    (r'.undoBlock p block nHeight true).rewardMap[op]?.map core =
      r.rewardMap[op]?.map core := by
  by_cases hnew : op ∈ block.createdOutputs.map Prod.fst
  · -- what the block created was not there before
    obtain ⟨coinbase, rest, hvtx, hcb, hreg⟩ := hvalid.shape
    rw [getElem?_undoBlock p hvtx hcb hreg, if_pos hnew, hvalid.fresh op hnew]
  rw [getElem?_undoBlock_of_agrees hvalid hfound hnew]
  rcases hw : (r'.restored block nHeight).rewardMap[op]? with _ | w
  · -- no record now means none after the block, and then none before it
    have hgone : r'.rewardMap[op]? = none := by
      rw [getElem?_restored hvalid.nodup_spent] at hw
      split at hw
      · exact Option.map_eq_none_iff.mp hw
      · exact hw
    rw [hgone, getElem?_of_not_prunedBy hkept] at hagree
    rcases hval : r.rewardMap[op]? with _ | val
    · rfl
    · rw [hval, connectedRecord_some hnew (hvalid.creationHeight_lt op val hval)] at hagree
      cases hagree
  · obtain ⟨val, hval, hcore⟩ := core_restored hvalid hfound hnew hw
    rw [hval, Option.map_some, Option.map_some, hcore]

end TakeBack

/-! ### The run -/

/-- **Taking back a run of blocks.** After blocks without payouts were connected and disconnected in
reverse order, an outpoint whose record was not pruned on the way has the record it had, and a
pruned one has none. -/
theorem disconnect_connect {blocks : List CBlock}
    (hrun : ValidRun p maxreorgdepth r nHeight blocks) (op : COutPoint) :
    (¬PrunedIn p maxreorgdepth op r nHeight blocks →
      (disconnectBlocks p (connectBlocks p maxreorgdepth r nHeight blocks) nHeight
          blocks).rewardMap[op]?.map core =
        r.rewardMap[op]?.map core) ∧
    (PrunedIn p maxreorgdepth op r nHeight blocks →
      (disconnectBlocks p (connectBlocks p maxreorgdepth r nHeight blocks) nHeight
        blocks).rewardMap[op]? = none) := by
  induction blocks generalizing r nHeight op with
  | nil => exact ⟨fun _ => rfl, False.elim⟩
  | cons block blocks ih =>
    obtain ⟨hvalid, hrest⟩ := hrun
    have hlater := ih hrest
    -- what the first block finds when its turn comes
    have hfound : ∀ op, Agrees (r.updateWithBlock p maxreorgdepth block nHeight)
        (disconnectBlocks p (connectBlocks p maxreorgdepth
          (r.updateWithBlock p maxreorgdepth block nHeight) (nHeight + 1) blocks) (nHeight + 1)
          blocks) op := by
      intro op
      by_cases hpruned : PrunedIn p maxreorgdepth op
          (r.updateWithBlock p maxreorgdepth block nHeight) (nHeight + 1) blocks
      · exact Or.inl ((hlater op).2 hpruned)
      · exact Or.inr ((hlater op).1 hpruned)
    refine ⟨?_, ?_⟩
    · intro hkept
      obtain ⟨hhere, hthere⟩ := not_or.mp hkept
      exact undoBlock_core hvalid hfound hhere ((hlater op).1 hthere)
    · intro hpruned
      refine undoBlock_none hvalid hfound ?_
      rcases hpruned with hhere | hthere
      · rcases hfound op with hnone | hagree
        · exact hnone
        · rw [hhere.2] at hagree
          exact Option.map_eq_none_iff.mp hagree
      · exact (hlater op).2 hthere

/-! ### A candidate that is spent twice over -/

instance decidableValidRun (p : Params) (maxreorgdepth : Int) :
    ∀ r nHeight blocks, Decidable (ValidRun p maxreorgdepth r nHeight blocks)
  | _, _, [] => isTrue trivial
  | r, nHeight, block :: blocks =>
    have := decidableValidRun p maxreorgdepth (r.updateWithBlock p maxreorgdepth block nHeight)
      (nHeight + 1) blocks
    inferInstanceAs (Decidable (r.ValidAt block nHeight ∧ ValidRun p maxreorgdepth
      (r.updateWithBlock p maxreorgdepth block nHeight) (nHeight + 1) blocks))

instance decidablePrunedIn (p : Params) (maxreorgdepth : Int) (op : COutPoint) :
    ∀ r nHeight blocks, Decidable (PrunedIn p maxreorgdepth op r nHeight blocks)
  | _, _, [] => isFalse id
  | r, nHeight, block :: blocks =>
    have := decidablePrunedIn p maxreorgdepth op
      (r.updateWithBlock p maxreorgdepth block nHeight) (nHeight + 1) blocks
    inferInstanceAs (Decidable
      (((connectedRecord p block nHeight op r.rewardMap[op]?).isSome = true ∧
      (r.updateWithBlock p maxreorgdepth block nHeight).rewardMap[op]? = none) ∨
        PrunedIn p maxreorgdepth op (r.updateWithBlock p maxreorgdepth block nHeight) (nHeight + 1)
          blocks))

/-- A candidate of a thousand coins from height 132. -/
def oneRecord : CColdRewards :=
  (init regTestParams).putInMap ⟨1000, 0⟩
    (.new { nValue := 1000 * coin, scriptPubKey := [0x51] } 132 132 132)

/-- A transaction that moves a thousand coins. -/
def moveTx (source : COutPoint) (txid : TxId) : CTransaction :=
  { vin := [{ prevout := source }]
    vout := [{ nValue := 1000 * coin, scriptPubKey := [0x51] }]
    hash := txid }

/-- The candidate is spent to a new one, which is spent in the next block. -/
def moveBlocks : List CBlock :=
  [ChainState.chainBlock regTestParams 133 0 [opReturn] [moveTx ⟨1000, 0⟩ 1001],
    ChainState.chainBlock regTestParams 134 0 [opReturn] [moveTx ⟨1001, 0⟩ 1002]]

theorem disconnect_connect_moveBlocks :
    oneRecord.rewardMap[(⟨1000, 0⟩ : COutPoint)]?.isSome = true ∧
    (disconnectBlocks regTestParams (connectBlocks regTestParams 10 oneRecord 133 moveBlocks) 133
        moveBlocks).rewardMap[(⟨1000, 0⟩ : COutPoint)]?.map core =
      oneRecord.rewardMap[(⟨1000, 0⟩ : COutPoint)]?.map core := by
  have hrun : ValidRun regTestParams 10 oneRecord 133 moveBlocks := by decide +kernel
  exact ⟨by decide +kernel, (disconnect_connect hrun ⟨1000, 0⟩).1 (by decide +kernel)⟩

end CColdRewards

/-! ### A record that is not older than the run -/

namespace ChainState

open CColdRewards

/-- The chain after a payout was taken back that found the wrong record: the paid one keeps a height
above the tip. -/
def payoutTakenBack : ChainState :=
  { candidateState with rewards := (payoutUndone 900).getD 2 candidateState.rewards }

/-- A competing block at that height, which spends the record. -/
def competingBlock : CBlock :=
  { chainBlock regTestParams 277 0 [opReturn] [moveTx ⟨1000, 0⟩ 1001] with hash := 1277 }

/-- **The competing block is accepted**, and connecting and disconnecting it changes the height of
the record, with nothing pruned. -/
theorem payoutTakenBack_competingBlock :
    (payoutTakenBack.connectTip Env.permissive regTestParams competingBlock).2 = none ∧
    payoutTakenBack.tip.nHeight = 276 ∧
    ¬PrunedIn regTestParams 10 ⟨1000, 0⟩ payoutTakenBack.rewards 277 [competingBlock] ∧
    payoutTakenBack.rewards.rewardMap[(⟨1000, 0⟩ : COutPoint)]?.map (·.height) = some 277 ∧
    (disconnectBlocks regTestParams (connectBlocks regTestParams 10 payoutTakenBack.rewards 277
      [competingBlock]) 277 [competingBlock]).rewardMap[(⟨1000, 0⟩ : COutPoint)]?.map (·.height) =
        some 132 := by
  decide +kernel

end ChainState

end DeVault
