import DeVault.Rewards.ValidAt

/-!
# Taking a block back

`UndoBlock` has to reverse what `UpdateWithBlock` and `UpdateRewardsDB` did,
without being told what that was: it reactivates the records of spent outputs,
drops the records of created ones, and rewinds the first record whose clock
stands at the height of the block. If the block created a candidate that comes before the paid
record in the order of the map, that candidate is rewound, then dropped, and the paid record keeps
the new clock.
-/

namespace DeVault

open Option

variable {val old : CRewardValue}

namespace CColdRewards

variable {r : CColdRewards} {p : Params} {block : CBlock} {nHeight : Nat} {op : COutPoint}

/-! ### A record through connection -/

/-- What becomes of a record that is spent. -/
def inactivated (nHeight : Nat) (val : CRewardValue) : CRewardValue :=
  { val with active := false, inactiveHeight := nHeight }

theorem newCandidate_eq_none_of_notMem {minRewardBalance : Int}
    {created : List (COutPoint × CTxOut)} (h : op ∉ created.map Prod.fst) :
    newCandidate minRewardBalance nHeight created op = none :=
  newCandidate_eq_none_iff.mpr fun _ hmem => absurd (List.mem_map_of_mem hmem) h

/-- A record that was there and that the block did not create again. -/
theorem connectedRecord_some (hnew : op ∉ block.createdOutputs.map Prod.fst)
    (hold : val.creationHeight < nHeight) :
    connectedRecord p block nHeight op (some val) =
      some (if op ∈ block.spentOutpoints then inactivated nHeight val else val) := by
  simp only [connectedRecord, newCandidate_eq_none_of_notMem hnew, none_or]
  split
  · rw [bind_some, spentRecord, if_neg (by omega)]
    rfl
  · rfl

/-- An outpoint without a record gets one if the block creates a candidate there
and does not spend it. -/
theorem connectedRecord_none :
    connectedRecord p block nHeight op none =
      if op ∈ block.spentOutpoints then none
      else newCandidate (p.getMinRewardBalance nHeight) nHeight block.createdOutputs op := by
  simp only [connectedRecord, or_none]
  split
  · rcases h : newCandidate (p.getMinRewardBalance nHeight) nHeight block.createdOutputs op
      with _ | val
    · rfl
    · obtain ⟨out, -, -, rfl⟩ := newCandidate_eq_some h
      simp [spentRecord, CRewardValue.new]
  · rfl

/-! ### A record through disconnection -/

/-- The records after the first pass of `UndoBlock`. -/
def restored (r : CColdRewards) (block : CBlock) (nHeight : Nat) : CColdRewards :=
  block.spentOutpoints.foldl (restoreCandidate nHeight) r

theorem getElem?_restored (hnd : block.spentOutpoints.Nodup) :
    (r.restored block nHeight).rewardMap[op]? =
      if op ∈ block.spentOutpoints then r.rewardMap[op]?.map (reactivated nHeight)
      else r.rewardMap[op]? :=
  getElem?_foldl_restoreCandidate nHeight hnd

/-- A record that is not the first at the height is not rewound. -/
theorem getElem?_undoSpends_of_ne {undoReward : Bool}
    (h : ∀ val, (r.restored block nHeight).firstAt nHeight ≠ some (op, val)) :
    (r.undoSpends p block nHeight undoReward).rewardMap[op]? =
      (r.restored block nHeight).rewardMap[op]? := by
  unfold undoSpends
  simp only
  split
  · refine (getElem?_restoreRewardAtHeight nHeight).trans (if_neg ?_)
    intro hany
    obtain ⟨⟨key, val⟩, hfirst, hkey⟩ := (any_eq_true _ _).mp hany
    obtain rfl : key = op := by simpa using hkey
    exact h val hfirst
  · rfl

/-- The first record at the height is rewound, if the block may have paid one. -/
theorem getElem?_undoSpends_first (h : (r.restored block nHeight).firstAt nHeight = some (op, val))
    (hlen : 1 < block.coinbaseOutputs.length) (hsuper : p.isSuperBlock nHeight = false) :
    (r.undoSpends p block nHeight true).rewardMap[op]? = some (rewound val) := by
  have hval := (firstAt_eq_some_iff.mp h).1
  have hcond : (decide (block.coinbaseOutputs.length > 1) && !p.isSuperBlock nHeight && true) =
      true := by simp [hlen, hsuper]
  simp only [undoSpends, hcond, if_true]
  refine (getElem?_restoreRewardAtHeight nHeight).trans ?_
  rw [show block.spentOutpoints.foldl (restoreCandidate nHeight) r = r.restored block nHeight from
    rfl, h, hval]
  simp

/-- A record whose clock stands below the height is not the first at it. -/
theorem firstAt_ne_of_lt (hval : r.rewardMap[op]? = some val)
    (hlt : val.height < nHeight) (w : CRewardValue) : r.firstAt nHeight ≠ some (op, w) := by
  intro hfirst
  obtain ⟨hw, hheight, -⟩ := firstAt_eq_some_iff.mp hfirst
  cases hval.symm.trans hw
  omega

/-- A record that the block did not create and that is not the first at the height is left by
`UndoBlock` as its first pass left it. -/
theorem ValidAt.getElem?_undoBlock_of_ne (hvalid : ValidAt r block nHeight) {r' : CColdRewards}
    (hnew : op ∉ block.createdOutputs.map Prod.fst)
    (hne : ∀ w, (r'.restored block nHeight).firstAt nHeight ≠ some (op, w)) (undoReward : Bool) :
    (r'.undoBlock p block nHeight undoReward).rewardMap[op]? =
      (r'.restored block nHeight).rewardMap[op]? := by
  obtain ⟨coinbase, rest, hvtx, hcb, hreg⟩ := hvalid.shape
  rw [getElem?_undoBlock p hvtx hcb hreg, if_neg hnew]
  exact getElem?_undoSpends_of_ne hne

/-! ### A block that paid a record -/

/-- A candidate that the block created and did not spend. -/
def Survives (p : Params) (block : CBlock) (nHeight : Nat) (op : COutPoint) : Prop :=
  op ∉ block.spentOutpoints ∧ ∃ out, (op, out) ∈ block.createdOutputs ∧
    p.getMinRewardBalance nHeight ≤ out.quantized.nValue

theorem survives_iff :
    Survives p block nHeight op ↔
      ∃ val, connectedRecord p block nHeight op none = some val ∧ val.height = nHeight ∧
        val.active = true := by
  rw [connectedRecord_none]
  refine ⟨?_, ?_⟩
  · rintro ⟨hunspent, out, hmem, hmin⟩
    rw [if_neg hunspent]
    rcases h : newCandidate (p.getMinRewardBalance nHeight) nHeight block.createdOutputs op
      with _ | val
    · exact absurd hmin (not_le.mpr (newCandidate_eq_none_iff.mp h out hmem))
    · obtain ⟨out', -, -, rfl⟩ := newCandidate_eq_some h
      exact ⟨_, rfl, rfl, rfl⟩
  · rintro ⟨val, hval, -, -⟩
    split at hval
    · cases hval
    next hunspent =>
      obtain ⟨out, hmem, hmin, -⟩ := newCandidate_eq_some hval
      exact ⟨hunspent, out, hmem, hmin⟩

theorem reactivated_inactivated : reactivated nHeight (inactivated nHeight val) =
      { val with
        active := true, inactiveHeight := nHeight
        height := if val.height ≥ nHeight then val.oldHeight else val.height } := by
  unfold reactivated inactivated
  simp only [Bool.not_false, if_true]
  split <;> rfl

section Payout

/-- The records after a block that paid one: `UpdateRewardsDB`, then
`UpdateWithBlock`. -/
def payAndConnect (r : CColdRewards) (p : Params) (maxreorgdepth : Int) (block : CBlock)
    (nHeight : Nat) : CColdRewards :=
  (r.updateRewardsDB p nHeight).updateWithBlock p maxreorgdepth block nHeight

/-- The paid record. -/
def advanced (nHeight : Nat) (val : CRewardValue) : CRewardValue :=
  { val with oldHeight := val.height, height := nHeight, payCount := val.payCount + 1 }

/-- The record at an outpoint after the payout. -/
def afterPay (r : CColdRewards) (nHeight : Nat) (op : COutPoint) (old : CRewardValue) :
    CRewardValue :=
  if r.rewardKey = op then advanced nHeight old else old

/-- Reactivation takes the clock of a spent record back, paid or not. -/
theorem height_reactivated_afterPay (h : old.height < nHeight) :
    (reactivated nHeight (inactivated nHeight (r.afterPay nHeight op old))).height =
      old.height := by
  rw [reactivated_inactivated, afterPay]
  split
  · simp [advanced]
  · simp only
    rw [if_neg (by omega)]

theorem ValidAt.notMem_created (hvalid : ValidAt r block nHeight)
    (hold : r.rewardMap[op]? = some old) : op ∉ block.createdOutputs.map Prod.fst :=
  fun hmem => absurd ((hvalid.fresh op hmem).symm.trans hold) (by simp)

variable {maxreorgdepth : Int} {val : CRewardValue} (hvalid : ValidAt r block nHeight)
  (hval : r.rewardMap[r.rewardKey]? = some val)
  (hmin : p.getMinRewardBalance nHeight ≤ val.getValue)

include hval hmin

theorem getElem?_paid :
    (r.updateRewardsDB p nHeight).rewardMap[op]? =
      r.rewardMap[op]?.map (r.afterPay nHeight op) := by
  rw [getElem?_updateRewardsDB]
  split
  next hkey =>
    rw [← hkey, hval, bind_some, paidRecord, if_pos hmin, map_some, afterPay, if_pos rfl]
    rfl
  next hkey =>
    have hid : r.afterPay nHeight op = id := by
      funext old
      rw [afterPay, if_neg hkey]
      rfl
    rw [hid, map_id_fun, id]

theorem getElem?_payAndConnect_none (hnone : r.rewardMap[op]? = none) :
    (r.payAndConnect p maxreorgdepth block nHeight).rewardMap[op]? =
      connectedRecord p block nHeight op none := by
  unfold payAndConnect
  rcases getElem?_updateWithBlock (k := op) (r := r.updateRewardsDB p nHeight) p maxreorgdepth block
    nHeight with hsame | ⟨-, w, hw, hin, -⟩
  · rwa [getElem?_paid hval hmin, hnone, map_none] at hsame
  · -- what is new is active and is not pruned
    rw [getElem?_paid hval hmin, hnone, map_none] at hw
    rw [connectedRecord_none] at hw
    split at hw
    · cases hw
    · obtain ⟨out, -, -, rfl⟩ := newCandidate_eq_some hw
      exact absurd hin (by simp [CRewardValue.new])

include hvalid

/-- The record of an outpoint that had one, after the block: paid if it is the
one, inactive if spent, unless it was pruned. -/
theorem getElem?_payAndConnect_some (hold : r.rewardMap[op]? = some old) :
    (r.payAndConnect p maxreorgdepth block nHeight).rewardMap[op]? =
        some (if op ∈ block.spentOutpoints then inactivated nHeight (r.afterPay nHeight op old)
          else r.afterPay nHeight op old) ∨
      (r.payAndConnect p maxreorgdepth block nHeight).rewardMap[op]? = none ∧
        (op ∈ block.spentOutpoints ∨ (r.afterPay nHeight op old).active = false) := by
  have hcr : (r.afterPay nHeight op old).creationHeight < nHeight := by
    unfold afterPay
    split <;> exact hvalid.creationHeight_lt op old hold
  have hconn : connectedRecord p block nHeight op (some (r.afterPay nHeight op old)) = _ :=
    connectedRecord_some (hvalid.notMem_created hold) hcr
  unfold payAndConnect
  rcases getElem?_updateWithBlock (k := op) (r := r.updateRewardsDB p nHeight) p maxreorgdepth block
    nHeight with hsame | ⟨hnone, w, hw, hin, -⟩
  · refine .inl (hsame.trans ?_)
    rw [getElem?_paid hval hmin, hold, map_some, hconn]
  · refine .inr ⟨hnone, ?_⟩
    rw [getElem?_paid hval hmin, hold, map_some, hconn] at hw
    by_cases hspent : op ∈ block.spentOutpoints
    · exact .inl hspent
    · rw [if_neg hspent] at hw
      exact .inr (some.inj hw ▸ hin)

/-- A record that is still there, after the first pass of `UndoBlock`. -/
theorem getElem?_restored_payAndConnect (hold : r.rewardMap[op]? = some old)
    (hkept : (r.payAndConnect p maxreorgdepth block nHeight).rewardMap[op]? ≠ none) :
    ((r.payAndConnect p maxreorgdepth block nHeight).restored block nHeight).rewardMap[op]? =
      some (if op ∈ block.spentOutpoints
        then reactivated nHeight (inactivated nHeight (r.afterPay nHeight op old))
        else r.afterPay nHeight op old) := by
  rw [getElem?_restored hvalid.nodup_spent]
  rcases getElem?_payAndConnect_some hvalid hval hmin hold with hrec | ⟨hnone, -⟩
  · rw [hrec]
    split <;> rfl
  · exact absurd hnone hkept

/-- A surviving candidate is there after the first pass, with its clock at the
height. -/
theorem getElem?_restored_of_survives (maxreorgdepth : Int) (hsurv : Survives p block nHeight op) :
    ∃ w, ((r.payAndConnect p maxreorgdepth block nHeight).restored block
      nHeight).rewardMap[op]? = some w ∧ w.height = nHeight := by
  obtain ⟨w, hw, hheight, -⟩ := survives_iff.mp hsurv
  obtain ⟨hunspent, out, hmem, -⟩ := hsurv
  refine ⟨w, ?_, hheight⟩
  rw [getElem?_restored hvalid.nodup_spent, if_neg hunspent, getElem?_payAndConnect_none hval hmin
    (hvalid.fresh op (List.mem_map_of_mem hmem)), hw]

/-- The records whose clock stands at the height: the paid one unless it was spent, and the
surviving candidates. -/
theorem height_eq_restored {w : CRewardValue}
    (hw : ((r.payAndConnect p maxreorgdepth block nHeight).restored block nHeight).rewardMap[op]? =
      some w) (hheight : w.height = nHeight) :
    (op = r.rewardKey ∧ op ∉ block.spentOutpoints) ∨ Survives p block nHeight op := by
  rcases hold : r.rewardMap[op]? with _ | old
  · refine .inr ?_
    rw [getElem?_restored hvalid.nodup_spent, getElem?_payAndConnect_none hval hmin hold,
      connectedRecord_none] at hw
    by_cases hspent : op ∈ block.spentOutpoints
    · simp [hspent] at hw
    · simp only [hspent, if_false] at hw
      obtain ⟨out, hmem, hlarge, -⟩ := newCandidate_eq_some hw
      exact ⟨hspent, out, hmem, hlarge⟩
  · have hkept : (r.payAndConnect p maxreorgdepth block nHeight).rewardMap[op]? ≠ none := by
      intro hnone
      rw [getElem?_restored hvalid.nodup_spent, hnone] at hw
      split at hw <;> cases hw
    rw [getElem?_restored_payAndConnect hvalid hval hmin hold hkept] at hw
    have hlt := hvalid.height_lt op old hold
    cases hw
    by_cases hspent : op ∈ block.spentOutpoints
    · rw [if_pos hspent, height_reactivated_afterPay hlt] at hheight
      omega
    · rw [if_neg hspent] at hheight
      by_cases hkey : r.rewardKey = op
      · exact .inl ⟨hkey.symm, hspent⟩
      · rw [afterPay, if_neg hkey] at hheight
        omega

/-- Any record but the one that was paid and not spent comes back with its clock,
and one that was not paid with its count. -/
theorem undoBlock_payout_other (hold : r.rewardMap[op]? = some old)
    (hkept : (r.payAndConnect p maxreorgdepth block nHeight).rewardMap[op]? ≠ none)
    (hother : op ∈ block.spentOutpoints ∨ r.rewardKey ≠ op) :
    ∃ w, ((r.payAndConnect p maxreorgdepth block nHeight).undoBlock p block nHeight
      true).rewardMap[op]? = some w ∧ w.height = old.height ∧
      (r.rewardKey ≠ op → w.payCount = old.payCount) := by
  have hrec := getElem?_restored_payAndConnect hvalid hval hmin hold hkept
  have hlt := hvalid.height_lt op old hold
  -- its clock stands below the height, so it is not the one that is rewound
  have hback : ∀ w, ((r.payAndConnect p maxreorgdepth block nHeight).restored block
      nHeight).rewardMap[op]? = some w → w.height = old.height →
      ((r.payAndConnect p maxreorgdepth block nHeight).undoBlock p block nHeight
        true).rewardMap[op]? = some w := by
    intro w hw hheight
    rw [hvalid.getElem?_undoBlock_of_ne (hvalid.notMem_created hold)
      (firstAt_ne_of_lt hw (by omega)), hw]
  by_cases hspent : op ∈ block.spentOutpoints
  · rw [if_pos hspent] at hrec
    have hheight := (height_reactivated_afterPay hlt :
      (reactivated nHeight (inactivated nHeight (r.afterPay nHeight op old))).height = _)
    exact ⟨_, hback _ hrec hheight, hheight,
      fun h => by rw [reactivated_inactivated, afterPay, if_neg h]⟩
  · have hne : r.rewardKey ≠ op := hother.resolve_left hspent
    rw [if_neg hspent, afterPay, if_neg hne] at hrec
    exact ⟨old, hback old hrec rfl, rfl, fun _ => rfl⟩

variable (maxreorgdepth : Int) (hactive : val.active = true)
  (hunspent : r.rewardKey ∉ block.spentOutpoints)

include hactive hunspent

/-- The paid record, if the block did not spend it: it is there after the first
pass, with its clock at the height. -/
theorem getElem?_restored_paid :
    ((r.payAndConnect p maxreorgdepth block nHeight).restored block
      nHeight).rewardMap[r.rewardKey]? = some (advanced nHeight val) := by
  have hkey : r.afterPay nHeight r.rewardKey val = advanced nHeight val := if_pos rfl
  have hkept : (r.payAndConnect p maxreorgdepth block nHeight).rewardMap[r.rewardKey]? ≠ none := by
    intro hnone
    rcases getElem?_payAndConnect_some hvalid hval hmin hval with hrec | ⟨-, hspent | hin⟩
    · cases hnone.symm.trans hrec
    · exact hunspent hspent
    · rw [hkey] at hin
      cases hactive.symm.trans hin
  have hrec := getElem?_restored_payAndConnect hvalid hval hmin hval hkept
  rwa [if_neg hunspent, hkey] at hrec

/-- The paid record is the first at the height unless a surviving candidate comes
before it. -/
theorem firstAt_paid_iff :
    ((r.payAndConnect p maxreorgdepth block nHeight).restored block nHeight).firstAt nHeight =
        some (r.rewardKey, advanced nHeight val) ↔
      ¬∃ op, Survives p block nHeight op ∧ compare op r.rewardKey = .lt := by
  refine ⟨?_, fun hfirst => ?_⟩
  · rintro hat ⟨op, hsurv, hless⟩
    obtain ⟨w, hw, hheight⟩ :=
      getElem?_restored_of_survives hvalid hval hmin maxreorgdepth hsurv
    exact (firstAt_eq_some_iff.mp hat).2.2 op w hw hheight hless
  · refine firstAt_eq_some_iff.mpr
      ⟨getElem?_restored_paid hvalid hval hmin maxreorgdepth hactive hunspent, rfl,
        fun op w hw hheight hless => ?_⟩
    rcases height_eq_restored hvalid hval hmin hw hheight with ⟨rfl, -⟩ | hsurv
    · cases Std.ReflCmp.compare_self.symm.trans hless
    · exact hfirst ⟨op, hsurv, hless⟩

end Payout

/-- **Taking a payout back.** A block paid a record of at least the minimum
balance. After `UndoBlock`

* if the block did not spend the record, its clock and count are back exactly
  when no surviving candidate of the block has a smaller outpoint;
* if it did, and the record was not pruned, the clock is back;
* every other record that was not pruned has its clock and count. -/
theorem undoBlock_payout (maxreorgdepth : Int) {val : CRewardValue}
    (hvalid : r.ValidAt block nHeight) (hpays : r.Pays p block nHeight val)
    (hmin : p.getMinRewardBalance nHeight ≤ val.getValue) :
    (r.rewardKey ∉ block.spentOutpoints →
      ((∃ w, ((r.payAndConnect p maxreorgdepth block nHeight).undoBlock p block nHeight
          true).rewardMap[r.rewardKey]? = some w ∧ w.height = val.height ∧
          w.payCount = val.payCount) ↔
        ¬∃ op, Survives p block nHeight op ∧ compare op r.rewardKey = .lt)) ∧
    (r.rewardKey ∈ block.spentOutpoints →
      (r.payAndConnect p maxreorgdepth block nHeight).rewardMap[r.rewardKey]? ≠ none →
      ∃ w, ((r.payAndConnect p maxreorgdepth block nHeight).undoBlock p block nHeight
        true).rewardMap[r.rewardKey]? = some w ∧ w.height = val.height) ∧
    (∀ op old, op ≠ r.rewardKey → r.rewardMap[op]? = some old →
      (r.payAndConnect p maxreorgdepth block nHeight).rewardMap[op]? ≠ none →
      ∃ w, ((r.payAndConnect p maxreorgdepth block nHeight).undoBlock p block nHeight
        true).rewardMap[op]? = some w ∧ w.height = old.height ∧ w.payCount = old.payCount) := by
  have hval := hpays.record
  have hnew := hvalid.notMem_created hval
  refine ⟨fun hunspent => ⟨?_, fun hfirst => ?_⟩, fun hspent hkept => ?_,
    fun op old hne hold hkept => ?_⟩
  · rintro ⟨w, hw, hheight, -⟩ hsmaller
    -- another record is rewound, so the paid one keeps its new clock
    have hrec := getElem?_restored_paid hvalid hval hmin maxreorgdepth hpays.active hunspent
    rw [hvalid.getElem?_undoBlock_of_ne hnew ?_, hrec] at hw
    · cases hw
      exact absurd hheight (ne_of_gt (hvalid.height_lt _ val hval))
    · intro w' hw'
      cases hrec.symm.trans (firstAt_eq_some_iff.mp hw').1
      exact (firstAt_paid_iff hvalid hval hmin maxreorgdepth hpays.active hunspent).mp hw' hsmaller
  · have hat := (firstAt_paid_iff hvalid hval hmin maxreorgdepth hpays.active hunspent).mpr hfirst
    obtain ⟨coinbase, rest, hvtx, hcb, hreg⟩ := hvalid.shape
    refine ⟨rewound (advanced nHeight val), ?_, rfl, ?_⟩
    · rw [getElem?_undoBlock p hvtx hcb hreg, if_neg hnew]
      exact getElem?_undoSpends_first hat hpays.outputs hpays.notSuperBlock
    · simp [rewound, advanced]
  · obtain ⟨w, hw, hheight, -⟩ :=
      undoBlock_payout_other hvalid hval hmin hval hkept (.inl hspent)
    exact ⟨w, hw, hheight⟩
  · obtain ⟨w, hw, hheight, hcount⟩ :=
      undoBlock_payout_other hvalid hval hmin hold hkept (.inr (Ne.symm hne))
    exact ⟨w, hw, hheight, hcount (Ne.symm hne)⟩

end CColdRewards

/-! ### A chain with a payout -/

namespace ChainState

open CColdRewards

/-- A chain in which thirty coinbases of five hundred coins are spent to one candidate, which waits
until a reward is due. -/
def candidateChain : List CBlock :=
  (List.range 32).map (fun i => chainBlock regTestParams (i + 1) (500 * coin) [0x51] []) ++
  (List.range 99).map (fun i => chainBlock regTestParams (i + 33) 0 [opReturn] []) ++
  [chainBlock regTestParams 132 0 [opReturn]
    [{ vin := (List.range 30).map fun i => { prevout := ⟨i + 1, 0⟩ }
       vout := [{ nValue := 15000 * coin, scriptPubKey := [0x51] }]
       hash := 1000 }]] ++
  (List.range 144).map (fun i => chainBlock regTestParams (i + 133) 0 [opReturn] [])

/-- The state after that chain. -/
def candidateState : ChainState :=
  (genesis regTestParams).connectAll Env.permissive regTestParams candidateChain

/-- The next block: it pays the candidate and creates another from the two coinbases left, in a
transaction with the given identifier. -/
def payoutBlock (txid : TxId) : CBlock where
  hash := 277
  hashPrevBlock := 276
  vtx := [coinbaseTx 277 [{ nValue := 0, scriptPubKey := [opReturn] },
      { nValue := 124 * coin / 100, scriptPubKey := [0x51] }],
    { vin := [{ prevout := ⟨31, 0⟩ }, { prevout := ⟨32, 0⟩ }]
      vout := [{ nValue := 1000 * coin, scriptPubKey := [0x51] }]
      hash := txid }]

/-- The records before that block, with it, and after it was taken back. -/
def payoutUndone (txid : TxId) : List CColdRewards :=
  let s := candidateState
  let s' := (s.connectTip Env.permissive regTestParams (payoutBlock txid)).1
  [s.rewards, s'.rewards, s'.rewards.undoBlock regTestParams (payoutBlock txid) 277 true]

/-- The candidate before the block. -/
def candidate : CRewardValue :=
  .new { nValue := 15000 * coin, scriptPubKey := [0x51] } 132 132 132

/-- All blocks are accepted. The last transaction has a smaller identifier, so its candidate is
found instead of the paid record, which keeps clock and count. -/
theorem payoutUndone_smallerOutpoint :
    acceptsAll Env.permissive regTestParams (fun s block => decide (s.NewOutpoints block))
      (genesis regTestParams) (candidateChain ++ [payoutBlock 900]) = true ∧
    (payoutUndone 900).map (fun r =>
        r.rewardMap[(⟨1000, 0⟩ : COutPoint)]?.map fun val => (val.height, val.payCount)) =
      [some (132, 0), some (277, 1), some (277, 1)] := by
  decide +kernel

/-- With a larger identifier the paid record is rewound. -/
theorem undoBlock_payout_largerOutpoint :
    ∃ w, (((candidateState.rewards.validated regTestParams (payoutBlock 1100) 277).payAndConnect
        regTestParams 10 (payoutBlock 1100) 277).undoBlock regTestParams (payoutBlock 1100) 277
          true).rewardMap[(⟨1000, 0⟩ : COutPoint)]? = some w ∧
      w.height = 132 ∧ w.payCount = 0 := by
  have hrun : acceptsAll Env.permissive regTestParams (fun s block => decide (s.NewOutpoints block))
      (genesis regTestParams) (candidateChain ++ [payoutBlock 1100]) = true := by
    decide +kernel
  have hfacts : candidateState.tip.nHeight = 276 ∧
      (candidateState.rewards.validated regTestParams (payoutBlock 1100) 277).rewardKey =
        ⟨1000, 0⟩ ∧
      (candidateState.rewards.validated regTestParams (payoutBlock 1100)
        277).rewardMap[(⟨1000, 0⟩ : COutPoint)]? = some candidate := by
    decide +kernel
  obtain ⟨htip, hkey, hval⟩ := hfacts
  have hvalid := validAt_of_acceptsAll (s := candidateState) (by decide) hrun rfl
  rw [htip] at hvalid
  rw [← hkey] at hval
  have hpays : (candidateState.rewards.validated regTestParams (payoutBlock 1100) 277).Pays
      regTestParams (payoutBlock 1100) 277 candidate := ⟨hval, rfl, by decide, by decide⟩
  have hundone := undoBlock_payout 10 hvalid hpays (by decide)
  rw [hkey] at hundone
  refine (hundone.1 (by decide)).mpr ?_
  rintro ⟨op, ⟨-, out, hmem, -⟩, hless⟩
  obtain rfl : op = ⟨1100, 0⟩ := by
    have hop : op ∈ (payoutBlock 1100).createdOutputs.map Prod.fst := List.mem_map_of_mem hmem
    rwa [show (payoutBlock 1100).createdOutputs.map Prod.fst = [⟨1100, 0⟩] from rfl,
      List.mem_singleton] at hop
  cases hless

end ChainState

end DeVault
