import DeVault.Lib.Scan
import DeVault.Rewards.Engine

/-!
# The record of one outpoint

Every operation of the engine treats the records separately: what it makes of
the record at an outpoint depends on that record alone, apart from two choices
that look at the whole map (which record a payout goes to, and which one a
disconnected payout is taken back from). This file says for each operation what
becomes of the record at an arbitrary outpoint, so that no later proof has to
unfold a loop over the map.
-/

namespace DeVault

open List
open Std.ExtTreeMap (mem_toList_iff_getElem?_eq_some)

variable {block : CBlock}

theorem CBlock.mem_createdOutputs_iff {op : COutPoint} {out : CTxOut} :
    (op, out) ∈ block.createdOutputs ↔
      ∃ tx ∈ block.vtx, tx.isCoinBase = false ∧ (out, op.n) ∈ tx.vout.zipIdx ∧
        op = tx.outPoint op.n := by
  simp only [CBlock.createdOutputs, mem_flatMap]
  refine exists_congr fun tx => and_congr_right fun _ => ?_
  cases hcb : tx.isCoinBase with
  | true => simp
  | false =>
    simp only [Bool.false_eq_true, if_false, mem_map, Prod.mk.injEq, Prod.exists, true_and]
    refine ⟨?_, ?_⟩
    · rintro ⟨out', n, hmem, rfl, rfl⟩
      exact ⟨hmem, rfl⟩
    · rintro ⟨hmem, hop⟩
      exact ⟨out, op.n, hmem, hop.symm, rfl⟩

variable {p : Params} {height nHeight : Nat} {val : CRewardValue}

variable (op : COutPoint) (minRewardBalance : Int)

namespace CColdRewards

variable {r : CColdRewards} {k : COutPoint}

/-! ### Writing and erasing -/

theorem getElem?_putInMap :
    (r.putInMap op val).rewardMap[k]? = if op = k then some val else r.rewardMap[k]? :=
  Ledger.getElem?_insert ..

theorem getElem?_eraseFromMap :
    (r.eraseFromMap op).rewardMap[k]? = if op = k then none else r.rewardMap[k]? :=
  Ledger.getElem?_erase ..

theorem getElem?_foldl_eraseFromMap (l : List COutPoint) :
    (l.foldl eraseFromMap r).rewardMap[k]? = if k ∈ l then none else r.rewardMap[k]? := by
  induction l generalizing r with
  | nil => simp
  | cons op l ih =>
    rw [foldl_cons, ih, getElem?_eraseFromMap]
    by_cases hl : k ∈ l
    · simp [hl]
    · by_cases hop : op = k
      · simp [hop]
      · simp [hl, hop, Ne.symm hop]

@[simp] theorem rewardMap_setBestBlock (hash : BlockHash) :
    (r.setBestBlock hash).rewardMap = r.rewardMap := rfl

/-- The purge keeps the records of at least the minimum balance. -/
theorem getElem?_clearLowRewards :
    (r.clearLowRewards minRewardBalance).rewardMap[k]? =
      r.rewardMap[k]?.filter fun val => decide (minRewardBalance ≤ val.getValue) := by
  rw [clearLowRewards, getElem?_foldl_eraseFromMap]
  have hmem : k ∈ (r.rewardMap.toList.filter fun entry =>
        decide (entry.2.getValue < minRewardBalance)).map (·.1) ↔
      ∃ val, r.rewardMap[k]? = some val ∧ val.getValue < minRewardBalance := by
    simp only [mem_map, mem_filter, decide_eq_true_eq, Prod.exists, exists_and_right,
      exists_eq_right, mem_toList_iff_getElem?_eq_some]
  simp only [hmem]
  rcases r.rewardMap[k]? with _ | val
  · simp
  · by_cases hlow : val.getValue < minRewardBalance
    · simp [hlow, Option.filter]
    · have hge : minRewardBalance ≤ val.getValue := by omega
      simp [hlow, hge, Option.filter]

/-! ### Validation -/

/-- A payment that `CheckReward` lets through is the reward of an active record. -/
theorem checkReward_ok {rewardPayment : CTxOut}
    (h : (r.checkReward p height rewardPayment).2 = true) :
    ∃ (op : COutPoint) (val : CRewardValue), r.rewardMap[op]? = some val ∧
      matchesPayment p r.nMinBlocks height rewardPayment val = true := by
  unfold checkReward at h
  simp only at h
  split at h
  · cases h
  next hne =>
  obtain ⟨⟨op, val⟩, hmem⟩ := exists_mem_of_ne_nil _ (mt List.isEmpty_iff.mpr hne)
  obtain ⟨hmem, hmatch⟩ := mem_filter.mp hmem
  exact ⟨op, val, mem_toList_iff_getElem?_eq_some.mp hmem, hmatch⟩

theorem matchesPayment_iff {nMinBlocks : Int} {rewardPayment : CTxOut} :
    matchesPayment p nMinBlocks height rewardPayment val = true ↔
      val.active = true ∧ (height : Int) - val.height > nMinBlocks ∧
      rewardPayment.scriptPubKey = val.txout.scriptPubKey ∧
      calculateReward p val.height (height - val.height) val.getValue = rewardPayment.nValue := by
  simp only [matchesPayment, Bool.and_eq_true, decide_eq_true_eq, and_assoc]

/-- The engine after the validation of a block, which does not run on a
superblock. -/
def validated (r : CColdRewards) (p : Params) (block : CBlock) (nHeight : Nat) : CColdRewards :=
  if p.isSuperBlock nHeight then r else (r.quickValidate p block nHeight false).1

@[simp] theorem rewardMap_checkReward (rewardPayment : CTxOut) :
    (r.checkReward p height rewardPayment).1.rewardMap = r.rewardMap := by
  unfold checkReward
  simp only
  split <;> rfl

/-- The records that validation sees: at one height those below the minimum go. -/
def purged (r : CColdRewards) (p : Params) (nHeight : Nat) : CColdRewards :=
  if (nHeight : Int) = clearLowRewardsSuperBlock * p.nBlocksPerPeriod + 1 then
    r.clearLowRewards (p.getMinRewardBalance nHeight)
  else r

/-- A real validation purges, and then checks the second output if there is one. -/
theorem quickValidate_eq : r.quickValidate p block nHeight false =
      match block.coinbaseOutputs[1]? with
      | some out =>
        let checked := (r.purged p nHeight).checkReward p nHeight out
        (checked.1, out.nValue, checked.2)
      | none => (r.purged p nHeight, 0, true) := rfl

theorem rewardMap_quickValidate (p : Params) (block : CBlock) (nHeight : Nat) :
    (r.quickValidate p block nHeight false).1.rewardMap = (r.purged p nHeight).rewardMap := by
  rw [quickValidate_eq]
  split
  · exact rewardMap_checkReward ..
  · rfl

theorem getElem?_of_purged
    (h : (r.purged p nHeight).rewardMap[k]? = some val) : r.rewardMap[k]? = some val := by
  unfold purged at h
  split at h
  · rw [getElem?_clearLowRewards] at h
    exact (Option.filter_eq_some_iff.mp h).1
  · exact h

/-- Validation adds no record and changes none. -/
theorem getElem?_validated
    (h : (r.validated p block nHeight).rewardMap[k]? = some val) : r.rewardMap[k]? = some val := by
  unfold validated at h
  split at h
  · exact h
  · exact getElem?_of_purged (rewardMap_quickValidate .. ▸ h)

/-! ### Connecting a block -/

/-- The record after a payout at a height, if it stays. -/
def paidRecord (p : Params) (nNewHeight : Nat) (val : CRewardValue) : Option CRewardValue :=
  if val.getValue ≥ p.getMinRewardBalance nNewHeight then
    some { val with oldHeight := val.height, height := nNewHeight, payCount := val.payCount + 1 }
  else none

/-- Only the record that was paid changes. -/
theorem getElem?_updateRewardsDB (nNewHeight : Nat) :
    (r.updateRewardsDB p nNewHeight).rewardMap[k]? =
      if r.rewardKey = k then r.rewardMap[k]?.bind (paidRecord p nNewHeight)
      else r.rewardMap[k]? := by
  unfold updateRewardsDB
  split
  next hnone =>
    split
    next hk => rw [← hk, hnone, Option.bind_none]
    · rfl
  next val hval =>
    split
    next hge =>
      rw [getElem?_putInMap]
      split
      next hk => rw [← hk, hval, Option.bind_some, paidRecord, if_pos hge]
      · rfl
    next hlow =>
      rw [getElem?_eraseFromMap]
      split
      next hk => rw [← hk, hval, Option.bind_some, paidRecord, if_neg hlow]
      · rfl

/-- The candidate that pass 1 of `UpdateWithBlock` enters at an outpoint; a
later output overwrites an earlier one. -/
def newCandidate (minRewardBalance : Int) (nHeight : Nat) (created : List (COutPoint × CTxOut))
    (k : COutPoint) : Option CRewardValue :=
  (created.reverse.find? fun o =>
    decide (o.1 = k) && decide (minRewardBalance ≤ o.2.quantized.nValue)).map
      fun o => CRewardValue.new o.2.quantized nHeight nHeight nHeight

theorem newCandidate_cons (o : COutPoint × CTxOut) (created : List (COutPoint × CTxOut)) :
    newCandidate minRewardBalance nHeight (o :: created) k =
      (newCandidate minRewardBalance nHeight created k).or
        (newCandidate minRewardBalance nHeight [o] k) := by
  simp only [newCandidate, reverse_cons, find?_append, Option.map_or, reverse_nil, nil_append]

theorem getElem?_foldl_addCandidate (created : List (COutPoint × CTxOut)) :
    (created.foldl (addCandidate minRewardBalance nHeight) r).rewardMap[k]? =
      (newCandidate minRewardBalance nHeight created k).or r.rewardMap[k]? := by
  induction created generalizing r with
  | nil => rfl
  | cons o created ih =>
    rw [foldl_cons, ih, newCandidate_cons, Option.or_assoc]
    congr 1
    -- one output
    unfold addCandidate newCandidate
    simp only [reverse_singleton, find?_singleton]
    by_cases hmin : o.2.quantized.nValue ≥ minRewardBalance
    · rw [if_pos hmin, getElem?_putInMap]
      by_cases hk : o.1 = k
      · simp [hk, hmin]
      · simp [hk]
    · simp [hmin]

theorem newCandidate_eq_some {minRewardBalance : Int} {created : List (COutPoint × CTxOut)}
    (h : newCandidate minRewardBalance nHeight created k = some val) :
    ∃ out, (k, out) ∈ created ∧ minRewardBalance ≤ out.quantized.nValue ∧
      val = CRewardValue.new out.quantized nHeight nHeight nHeight := by
  obtain ⟨⟨k', out⟩, hfind, rfl⟩ := Option.map_eq_some_iff.mp h
  have hmem := mem_reverse.mp (mem_of_find?_eq_some hfind)
  have hprop := find?_some hfind
  simp only [Bool.and_eq_true, decide_eq_true_eq] at hprop
  obtain ⟨rfl, hmin⟩ := hprop
  exact ⟨out, hmem, hmin, rfl⟩

/-- Outputs below the minimum are no candidates. -/
theorem newCandidate_eq_none_iff {minRewardBalance : Int} {created : List (COutPoint × CTxOut)} :
    newCandidate minRewardBalance nHeight created k = none ↔
      ∀ out, (k, out) ∈ created → out.quantized.nValue < minRewardBalance := by
  simp only [newCandidate, Option.map_eq_none_iff, find?_eq_none, mem_reverse,
    Bool.and_eq_true, decide_eq_true_eq, not_and, not_le, Prod.forall]
  exact ⟨fun h out hmem => h k out hmem rfl, fun h k' out hmem hk => h out (hk ▸ hmem)⟩

/-- What pass 2 of `UpdateWithBlock` makes of the record of a spent outpoint. -/
def spentRecord (nHeight : Nat) (val : CRewardValue) : Option CRewardValue :=
  if val.creationHeight = nHeight then none
  else some { val with active := false, inactiveHeight := nHeight }

theorem getElem?_spendCandidate (op : COutPoint) : (spendCandidate nHeight r op).rewardMap[k]? =
      if op = k then r.rewardMap[k]?.bind (spentRecord nHeight) else r.rewardMap[k]? := by
  unfold spendCandidate
  split
  next hnone =>
    split
    next hk => rw [← hk, hnone, Option.bind_none]
    · rfl
  next val hval =>
    split
    next hc =>
      rw [getElem?_eraseFromMap]
      split
      next hk => rw [← hk, hval, Option.bind_some, spentRecord, if_pos hc]
      · rfl
    next hc =>
      rw [getElem?_putInMap]
      split
      next hk => rw [← hk, hval, Option.bind_some, spentRecord, if_neg hc]
      · rfl

/-- Spending a record twice is spending it once. -/
theorem spentRecord_bind (cur : Option CRewardValue) :
    (cur.bind (spentRecord nHeight)).bind (spentRecord nHeight) =
      cur.bind (spentRecord nHeight) := by
  rcases cur with _ | val
  · rfl
  · by_cases hc : val.creationHeight = nHeight <;> simp [spentRecord, hc]

theorem getElem?_foldl_spendCandidate (spent : List COutPoint) :
    (spent.foldl (spendCandidate nHeight) r).rewardMap[k]? =
      if k ∈ spent then r.rewardMap[k]?.bind (spentRecord nHeight) else r.rewardMap[k]? := by
  induction spent generalizing r with
  | nil => simp
  | cons op spent ih =>
    rw [foldl_cons, ih, getElem?_spendCandidate]
    by_cases hop : op = k
    · by_cases hk : k ∈ spent <;> simp [hop, hk, spentRecord_bind]
    · simp [hop, Ne.symm hop]

theorem getElem?_pruneRecord (h : Nat) (op : COutPoint) :
    (r.pruneRecord h op).rewardMap[k]? = r.rewardMap[k]? ∨
      (r.pruneRecord h op).rewardMap[k]? = none ∧
        ∃ val, r.rewardMap[k]? = some val ∧ val.active = false ∧ val.inactiveHeight = h := by
  unfold pruneRecord
  split
  next val hval =>
    split
    next hprune =>
      simp only [Bool.and_eq_true, Bool.not_eq_true', decide_eq_true_eq] at hprune
      rw [getElem?_eraseFromMap]
      split
      next hk => exact .inr ⟨rfl, val, hk ▸ hval, hprune.1, hprune.2⟩
      · exact .inl rfl
    · exact .inl rfl
  · exact .inl rfl

/-- Pruning only takes records that have been inactive since below the
threshold. -/
theorem getElem?_pruneLoop (threshold : Int) (l : List (Nat × COutPoint)) :
    (pruneLoop threshold l r).rewardMap[k]? = r.rewardMap[k]? ∨
      (pruneLoop threshold l r).rewardMap[k]? = none ∧
        ∃ val, r.rewardMap[k]? = some val ∧ val.active = false ∧
          (val.inactiveHeight : Int) < threshold := by
  induction l generalizing r with
  | nil => exact .inl rfl
  | cons e l ih =>
    obtain ⟨h, op⟩ := e
    rw [pruneLoop]
    split
    next hlt =>
      rcases ih (r := r.pruneRecord h op) with hsame | ⟨hnone, val, hval, hin, hold⟩
      · rw [hsame]
        refine (getElem?_pruneRecord h op).imp id ?_
        rintro ⟨hnone, val, hval, hin, rfl⟩
        exact ⟨hnone, val, hval, hin, hlt⟩
      · rcases getElem?_pruneRecord (r := r) (k := k) h op with hsame | ⟨hnone', -⟩
        · exact .inr ⟨hnone, val, hsame ▸ hval, hin, hold⟩
        · cases hnone'.symm.trans hval
    · exact .inl rfl

/-- The record at an outpoint after both passes of `UpdateWithBlock`. -/
def connectedRecord (p : Params) (block : CBlock) (nHeight : Nat) (k : COutPoint)
    (cur : Option CRewardValue) : Option CRewardValue :=
  let cur := (newCandidate (p.getMinRewardBalance nHeight) nHeight block.createdOutputs k).or cur
  if k ∈ block.spentOutpoints then cur.bind (spentRecord nHeight) else cur

/-- **Connecting a block, at one outpoint.** The two passes of `UpdateWithBlock` decide the record,
and pruning can take an inactive one. -/
theorem getElem?_updateWithBlock (p : Params) (maxreorgdepth : Int) (block : CBlock)
    (nHeight : Nat) :
    (r.updateWithBlock p maxreorgdepth block nHeight).rewardMap[k]? =
        connectedRecord p block nHeight k r.rewardMap[k]? ∨
      (r.updateWithBlock p maxreorgdepth block nHeight).rewardMap[k]? = none ∧
        ∃ val, connectedRecord p block nHeight k r.rewardMap[k]? = some val ∧ val.active = false ∧
          (val.inactiveHeight : Int) < nHeight - maxreorgdepth := by
  have hpasses : (block.spentOutpoints.foldl (spendCandidate nHeight)
      (block.createdOutputs.foldl (addCandidate (p.getMinRewardBalance nHeight) nHeight)
        r)).rewardMap[k]? = connectedRecord p block nHeight k r.rewardMap[k]? := by
    rw [getElem?_foldl_spendCandidate, getElem?_foldl_addCandidate]
    rfl
  rw [updateWithBlock, ← hpasses]
  exact getElem?_pruneLoop ..

/-! ### What all operations keep -/

/-- What is written over a record while it stays active: the clocks move to values of its
own or to the height `n`. -/
structure Updated (n : Nat) (val val' : CRewardValue) : Prop where
  txout : val'.txout = val.txout
  creationHeight : val'.creationHeight = val.creationHeight
  oldHeight : val'.oldHeight = val.oldHeight ∨ val'.oldHeight = val.height
  height : val'.height = val.oldHeight ∨ val'.height = val.height ∨ val'.height = n
  active : val'.active = false → val.active = false
  inactiveHeight : val'.inactiveHeight = val.inactiveHeight

/-- **A property that the operations at a height keep**: one that survives erasing and updating
records and does not depend on `rewardKey` and `nNumCandidates`. -/
structure Closed (n : Nat) (P : CColdRewards → Prop) : Prop where
  frame : ∀ {r : CColdRewards} key count, P r →
    P { r with rewardKey := key, nNumCandidates := count }
  erase : ∀ {r : CColdRewards} op, P r → P (r.eraseFromMap op)
  update : ∀ {r : CColdRewards} {op : COutPoint} {val val' : CRewardValue}, P r →
    r.rewardMap[op]? = some val → Updated n val val' → P (r.putInMap op val')

namespace Closed

variable {n : Nat} {P : CColdRewards → Prop} (hP : Closed n P) (h : P r)

include hP h

theorem purged (p : Params) (nHeight : Nat) : P (r.purged p nHeight) := by
  unfold CColdRewards.purged
  split
  · exact foldlRecOn (motive := P) _ _ h fun _ hr op _ => hP.erase op hr
  · exact h

theorem quickValidate (p : Params) (block : CBlock) (nHeight : Nat) (fJustCheck : Bool) :
    P (r.quickValidate p block nHeight fJustCheck).1 := by
  cases fJustCheck with
  | true => exact h
  | false =>
    have hpurged := hP.purged h p nHeight
    rw [quickValidate_eq]
    split
    · unfold checkReward
      simp only
      split
      · exact hpurged
      · exact hP.frame _ _ hpurged
    · exact hpurged

theorem validated (p : Params) (block : CBlock) (nHeight : Nat) :
    P (r.validated p block nHeight) := by
  unfold CColdRewards.validated
  split
  · exact h
  · exact hP.quickValidate h p block nHeight false

theorem updateRewardsDB (p : Params) : P (r.updateRewardsDB p n) := by
  unfold CColdRewards.updateRewardsDB
  split
  · exact h
  next hval =>
    split
    · exact hP.update h hval ⟨rfl, rfl, .inr rfl, .inr (.inr rfl), id, rfl⟩
    · exact hP.erase _ h

/-- The two passes of `UpdateWithBlock`, for a property that also survives a new candidate
and a spent one. -/
theorem passes {block : CBlock} (p : Params)
    (hnew : ∀ {r : CColdRewards}, ∀ o ∈ block.createdOutputs, P r →
      P (r.putInMap o.1 (CRewardValue.new o.2.quantized n n n)))
    (hspend : ∀ {r : CColdRewards} {op val}, P r → r.rewardMap[op]? = some val →
      P { r.putInMap op { val with active := false, inactiveHeight := n } with
        inactiveByHeight := emplaceByHeight n op r.inactiveByHeight }) :
    P (block.spentOutpoints.foldl (spendCandidate n)
      (block.createdOutputs.foldl (addCandidate (p.getMinRewardBalance n) n) r)) := by
  refine foldlRecOn (motive := P) _ _ ?_ fun r hr op _ => ?_
  · refine foldlRecOn (motive := P) _ _ h fun r hr o ho => ?_
    unfold addCandidate
    simp only
    split
    · exact hnew o ho hr
    · exact hr
  · unfold spendCandidate
    split
    · exact hr
    next hval =>
      split
      · exact hP.erase op hr
      · exact hspend hr hval

theorem pruneLoop (hindex : ∀ {r : CColdRewards} l, P r → P { r with inactiveByHeight := l })
    (threshold : Int) (l : List (Nat × COutPoint)) : P (pruneLoop threshold l r) := by
  induction l generalizing r with
  | nil => exact hindex [] h
  | cons e l ih =>
    rw [CColdRewards.pruneLoop]
    split
    · refine ih ?_
      unfold pruneRecord
      split
      · split
        · exact hP.erase _ h
        · exact h
      · exact h
    · exact hindex _ h

theorem restoreCandidate (nHeight : Nat) (op : COutPoint) : P (restoreCandidate nHeight r op) := by
  unfold CColdRewards.restoreCandidate
  split
  · exact h
  next val hval =>
    refine hP.update h hval ?_
    -- the clock is the old one or the one before, and nothing else changes
    unfold reactivated
    cases val.active <;> simp only [Bool.not_true, Bool.not_false, if_true, if_false,
      Bool.false_eq_true] <;> split
    · exact ⟨rfl, rfl, .inl rfl, .inl rfl, nofun, rfl⟩
    · exact ⟨rfl, rfl, .inl rfl, .inr (.inl rfl), nofun, rfl⟩
    · exact ⟨rfl, rfl, .inl rfl, .inl rfl, nofun, rfl⟩
    · exact ⟨rfl, rfl, .inl rfl, .inl rfl, nofun, rfl⟩

theorem undoBlock (p : Params) (block : CBlock) (nHeight : Nat) (undoReward : Bool) :
    P (r.undoBlock p block nHeight undoReward) := by
  unfold CColdRewards.undoBlock
  refine foldlRecOn (motive := P) _ _ ?_ fun r hr tx _ => ?_
  · exact foldlRecOn (motive := P) _ _ h fun _ hr op _ => hP.restoreCandidate hr nHeight op
  unfold undoTransaction
  split
  · refine foldlRecOn (motive := P) _ _ hr fun r hr op _ => ?_
    unfold dropCandidate
    split
    · exact hP.erase op hr
    · exact hr
  split
  · unfold restoreRewardAtHeight
    split
    · exact hr
    next key val hfind =>
      exact hP.update hr (mem_toList_iff_getElem?_eq_some.mp (mem_of_find?_eq_some hfind))
        ⟨rfl, rfl, .inl rfl, .inl rfl, id, rfl⟩
  · exact hr

end Closed

/-- The settings, which no operation changes. -/
def settings (r : CColdRewards) : Int × Int := (r.nMinBlocks, r.nMinReward)

theorem closed_settings (n : Nat) (s : Int × Int) : Closed n fun r => r.settings = s :=
  ⟨fun _ _ h => h, fun _ h => h, fun h _ _ => h⟩

theorem settings_purged (p : Params) (nHeight : Nat) : (r.purged p nHeight).settings = r.settings :=
  (closed_settings 0 _).purged rfl p nHeight

theorem settings_validated : (r.validated p block nHeight).settings = r.settings :=
  (closed_settings 0 _).validated rfl p block nHeight

theorem settings_updateRewardsDB (nNewHeight : Nat) :
    (r.updateRewardsDB p nNewHeight).settings = r.settings :=
  (closed_settings nNewHeight _).updateRewardsDB rfl p

/-- A block changes no settings. -/
theorem settings_updateWithBlock (maxreorgdepth : Int) :
    (r.updateWithBlock p maxreorgdepth block nHeight).settings = r.settings := by
  have hset := closed_settings nHeight r.settings
  exact hset.pruneLoop (hset.passes rfl p (fun _ _ h => h) fun h _ => h) (fun _ h => h) _ _

/-! ### Disconnecting a block -/

theorem getElem?_restoreCandidate (op : COutPoint) : (restoreCandidate nHeight r op).rewardMap[k]? =
      if op = k then r.rewardMap[k]?.map (reactivated nHeight) else r.rewardMap[k]? := by
  unfold restoreCandidate
  split
  next hnone =>
    split
    next hk => rw [← hk, hnone, Option.map_none]
    · rfl
  next val hval =>
    rw [getElem?_putInMap]
    split
    next hk => rw [← hk, hval, Option.map_some]
    · rfl

theorem getElem?_foldl_restoreCandidate (nHeight : Nat) {spent : List COutPoint}
    (hnd : spent.Nodup) :
    (spent.foldl (restoreCandidate nHeight) r).rewardMap[k]? =
      if k ∈ spent then r.rewardMap[k]?.map (reactivated nHeight) else r.rewardMap[k]? := by
  induction spent generalizing r with
  | nil => simp
  | cons op spent ih =>
    obtain ⟨hop, hnd⟩ := nodup_cons.mp hnd
    rw [foldl_cons, ih hnd, getElem?_restoreCandidate]
    by_cases hk : op = k
    · subst hk
      simp [hop]
    · simp [hk, Ne.symm hk]

theorem getElem?_dropCandidate :
    (r.dropCandidate op).rewardMap[k]? = if op = k then none else r.rewardMap[k]? := by
  unfold dropCandidate
  split
  · exact getElem?_eraseFromMap op
  next hno =>
    split
    next hk =>
      subst hk
      simpa [Std.ExtTreeMap.contains_iff_mem] using hno
    · rfl

theorem getElem?_foldl_dropCandidate (ops : List COutPoint) :
    (ops.foldl dropCandidate r).rewardMap[k]? = if k ∈ ops then none else r.rewardMap[k]? := by
  induction ops generalizing r with
  | nil => simp
  | cons op ops ih =>
    rw [foldl_cons, ih, getElem?_dropCandidate]
    by_cases hk : op = k
    · simp [hk]
    · simp [hk, Ne.symm hk]

/-- The record that `RestoreRewardAtHeight` rewinds. -/
def firstAt (r : CColdRewards) (height : Nat) : Option (COutPoint × CRewardValue) :=
  r.rewardMap.toList.find? fun entry => entry.2.height == height

/-- What `RestoreRewardAtHeight` makes of the record it finds. -/
def rewound (val : CRewardValue) : CRewardValue :=
  { val with height := val.oldHeight, payCount := val.payCount - 1 }

theorem getElem?_restoreRewardAtHeight (height : Nat) :
    (r.restoreRewardAtHeight height).rewardMap[k]? =
      if (r.firstAt height).any (fun entry => decide (entry.1 = k)) then
        r.rewardMap[k]?.map rewound else r.rewardMap[k]? := by
  unfold restoreRewardAtHeight
  split
  next hnone => simp [firstAt, hnone]
  next key val hfind =>
    have hval : r.rewardMap[key]? = some val :=
      mem_toList_iff_getElem?_eq_some.mp (mem_of_find?_eq_some hfind)
    rw [getElem?_putInMap]
    by_cases hk : key = k
    · subst hk
      simp [firstAt, hfind, hval, rewound]
    · simp [firstAt, hfind, hk]

/-- The rewound record is the first in the order of the map among those whose
clock stands at the height. -/
theorem firstAt_eq_some_iff :
    r.firstAt height = some (k, val) ↔
      r.rewardMap[k]? = some val ∧ val.height = height ∧
        ∀ (op : COutPoint) (w : CRewardValue), r.rewardMap[op]? = some w → w.height = height →
          compare op k ≠ .lt := by
  have hord := Std.ExtTreeMap.ordered_keys_toList (t := r.rewardMap)
  rw [firstAt, find?_eq_some_iff_append]
  refine ⟨?_, ?_⟩
  · rintro ⟨hheight, before, after, hlist, hbefore⟩
    rw [hlist, pairwise_append, pairwise_cons] at hord
    have hmem : ∀ op w, r.rewardMap[op]? = some w ↔ (op, w) ∈ before ++ (k, val) :: after := by
      intro op w
      rw [← hlist, mem_toList_iff_getElem?_eq_some]
    refine ⟨(hmem k val).mpr (by simp), by simpa using hheight, fun op w hw hh hlt => ?_⟩
    rcases mem_append.mp ((hmem op w).mp hw) with hin | hin
    · exact absurd hh (by simpa using hbefore (op, w) hin)
    · rcases mem_cons.mp hin with heq | hin
      · cases heq
        cases Std.ReflCmp.compare_self.symm.trans hlt
      · -- the entries behind it are larger
        have hgt := hord.2.1.1 (op, w) hin
        rw [Std.OrientedOrd.eq_swap, hlt] at hgt
        cases hgt
  · rintro ⟨hval, hheight, hfirst⟩
    obtain ⟨before, after, hlist⟩ := append_of_mem
      (mem_toList_iff_getElem?_eq_some.mpr hval)
    refine ⟨by simpa using hheight, before, after, hlist, ?_⟩
    rintro ⟨op, w⟩ hin
    rw [hlist, pairwise_append] at hord
    have hlt := hord.2.2 (op, w) hin (k, val) mem_cons_self
    have hw : r.rewardMap[op]? = some w := by
      rw [← mem_toList_iff_getElem?_eq_some, hlist]
      exact mem_append_left _ hin
    simp only [Bool.not_eq_true', beq_eq_false_iff_ne]
    exact fun hh => hfirst op w hw hh hlt

/-- Pass 2 of `UndoBlock` over transactions other than a coinbase. -/
theorem getElem?_foldl_undoTransaction {vtx : List CTransaction}
    (hreg : ∀ tx ∈ vtx, tx.isCoinBase = false) (undoReward : Bool) :
    (vtx.foldl (undoTransaction p nHeight undoReward) r).rewardMap[k]? =
      if k ∈ vtx.flatMap fun tx => tx.vout.zipIdx.map fun o => tx.outPoint o.2 then none
      else r.rewardMap[k]? := by
  induction vtx generalizing r with
  | nil => simp
  | cons tx vtx ih =>
    obtain ⟨htx, hreg⟩ := forall_mem_cons.mp hreg
    have hstep : (undoTransaction p nHeight undoReward r tx).rewardMap[k]? =
        if k ∈ tx.vout.zipIdx.map (fun o => tx.outPoint o.2) then none else r.rewardMap[k]? := by
      simp only [undoTransaction, htx, Bool.not_false, if_true]
      exact getElem?_foldl_dropCandidate _
    rw [foldl_cons, ih hreg, hstep, flatMap_cons]
    simp only [mem_append]
    by_cases h1 : k ∈ tx.vout.zipIdx.map (fun o => tx.outPoint o.2)
    · simp [h1]
    · by_cases h2 : k ∈ vtx.flatMap fun tx => tx.vout.zipIdx.map fun o => tx.outPoint o.2
      · simp [h1, h2]
      · simp only [h1, h2, or_self, if_false]

/-- The part of `UndoBlock` before the candidates are dropped: the spent records are reactivated and
the paid one is rewound. -/
def undoSpends (r : CColdRewards) (p : Params) (block : CBlock) (nHeight : Nat)
    (undoReward : Bool) : CColdRewards :=
  let r := block.spentOutpoints.foldl (restoreCandidate nHeight) r
  if block.coinbaseOutputs.length > 1 && !p.isSuperBlock nHeight && undoReward then
    r.restoreRewardAtHeight nHeight
  else r

/-- Spent records are reactivated, one record is rewound if the coinbase had a
second output, and the block's candidates go. -/
theorem getElem?_undoBlock (p : Params) {coinbase : CTransaction}
    {rest : List CTransaction} (hvtx : block.vtx = coinbase :: rest)
    (hcb : coinbase.isCoinBase = true) (hreg : ∀ tx ∈ rest, tx.isCoinBase = false) (nHeight : Nat)
    (undoReward : Bool) :
    (r.undoBlock p block nHeight undoReward).rewardMap[k]? =
      if k ∈ block.createdOutputs.map Prod.fst then none
      else (r.undoSpends p block nHeight undoReward).rewardMap[k]? := by
  have hcreated : block.createdOutputs.map Prod.fst =
      rest.flatMap fun tx => tx.vout.zipIdx.map fun o => tx.outPoint o.2 := by
    rw [CBlock.createdOutputs, hvtx, flatMap_cons, if_pos hcb, nil_append, map_flatMap]
    refine flatMap_congr fun tx htx => ?_
    rw [if_neg (by simp [hreg tx htx]), map_map]
    rfl
  have hfirst : undoTransaction p nHeight undoReward
      (block.spentOutpoints.foldl (restoreCandidate nHeight) r) coinbase =
        r.undoSpends p block nHeight undoReward := by
    simp only [undoTransaction, undoSpends, CBlock.coinbaseOutputs, hvtx, hcb, Bool.not_true,
      Bool.false_eq_true, if_false, head?_cons, Option.map_some, Option.getD_some]
  rw [undoBlock, hcreated, ← hfirst, hvtx, foldl_cons]
  exact getElem?_foldl_undoTransaction hreg undoReward

end CColdRewards

end DeVault
