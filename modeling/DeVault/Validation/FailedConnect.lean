import DeVault.Rewards.Records
import DeVault.Validation.ConnectBlock

/-!
# The engine after a block that is not committed

`ConnectBlock` works on two states. The view is a cache that the caller throws
away when the block fails; the cold-reward engine is the global one. A block
that is refused, that is only checked, or that is checked while the engine is
suppressed must therefore leave the engine as it found it.

Such a call stops before the cold reward is looked at, or the engine is the one that `coldRewardOf`
returns, whatever happens afterwards. `coldRewardOf` writes `rewardKey`, a variable that is set
again before each use and never stored. It also runs the one-time purge of the records below the new
minimum, and that one is a write.
-/

namespace DeVault

variable {nHeight : Nat}

namespace CColdRewards

variable {r : CColdRewards} {p : Params}

/-- **The stored state of the engine is the same**: the records, their index, the pending writes and
the block they belong to. -/
structure SameState (r r' : CColdRewards) : Prop where
  rewardMap : r'.rewardMap = r.rewardMap
  inactiveByHeight : r'.inactiveByHeight = r.inactiveByHeight
  setDirty : r'.setDirty = r.setDirty
  setErased : r'.setErased = r.setErased
  hashBestBlock : r'.hashBestBlock = r.hashBestBlock

theorem SameState.refl (r : CColdRewards) : r.SameState r := ⟨rfl, rfl, rfl, rfl, rfl⟩

/-- **Validation at this height drops a record**: it is the height of the one-time purge and no
superblock, and a record is below the minimum. -/
def PurgesAt (r : CColdRewards) (p : Params) (nHeight : Nat) : Prop :=
  p.isSuperBlock nHeight = false ∧
  (nHeight : Int) = clearLowRewardsSuperBlock * p.nBlocksPerPeriod + 1 ∧
  ∃ (op : COutPoint) (val : CRewardValue), r.rewardMap[op]? = some val ∧
    val.getValue < p.getMinRewardBalance nHeight

theorem clearLowRewards_eq_self {minRewardBalance : Int}
    (h : ∀ (op : COutPoint) (val : CRewardValue), r.rewardMap[op]? = some val →
      minRewardBalance ≤ val.getValue) : r.clearLowRewards minRewardBalance = r := by
  have hnone : (r.rewardMap.toList.filter fun entry =>
      decide (entry.2.getValue < minRewardBalance)) = [] := by
    rw [List.filter_eq_nil_iff]
    rintro ⟨op, val⟩ hmem
    have hle := h op val (Std.ExtTreeMap.mem_toList_iff_getElem?_eq_some.mp hmem)
    simpa using hle
  rw [clearLowRewards, hnone]
  rfl

/-- Outside a purge, validation works on the engine as it is. -/
theorem purged_eq_self (hsuper : p.isSuperBlock nHeight = false)
    (h : ¬r.PurgesAt p nHeight) : r.purged p nHeight = r := by
  unfold purged
  split
  next hheight =>
    apply clearLowRewards_eq_self
    intro op val hval
    by_contra hlow
    exact h ⟨hsuper, hheight, op, val, hval, by omega⟩
  · rfl

/-- A purge shows in the records. -/
theorem PurgesAt.rewardMap_ne (h : r.PurgesAt p nHeight) :
    (r.purged p nHeight).rewardMap ≠ r.rewardMap := by
  obtain ⟨-, hheight, op, val, hval, hlow⟩ := h
  intro heq
  have hgone : (r.purged p nHeight).rewardMap[op]? = none := by
    rw [purged, if_pos hheight, getElem?_clearLowRewards, hval]
    simp [Option.filter, not_le.mpr hlow]
  rw [heq, hval] at hgone
  cases hgone

theorem sameState_quickValidate (block : CBlock)
    (hsuper : p.isSuperBlock nHeight = false) (h : ¬r.PurgesAt p nHeight) :
    r.SameState (r.quickValidate p block nHeight false).1 := by
  rw [quickValidate_eq, purged_eq_self hsuper h]
  split
  · unfold checkReward
    simp only
    split
    · exact SameState.refl r
    · exact ⟨rfl, rfl, rfl, rfl, rfl⟩
  · exact SameState.refl r

end CColdRewards

/-! ### How far a call gets -/

section Connect

variable {B : Type} [CCoinsView B] {env : Env} {p : Params} {block : CBlock} {pindex : CBlockIndex}
  {view : CCoinsViewCache B} {g : Option CColdRewards} {r : CColdRewards}
  {suppress fJustCheck : Bool}

/-- **The block passes all checks before the cold reward**: it is not the genesis block, its
transactions connect, and a superblock pays its budget. -/
structure ReachesColdReward (env : Env) (p : Params) (block : CBlock) (pindex : CBlockIndex)
    (view : CCoinsViewCache B) (fJustCheck : Bool) : Prop where
  preamble : connectPreamble env block pindex view fJustCheck = .ok ()
  notGenesis : block.hash ≠ p.hashGenesisBlock
  parent : pindex.ancestors ≠ []
  transactions : ∃ s, connectTransactions env p block pindex view = .ok s
  budget : ∃ nBudgetReward, checkSuperBlockBudget env.scriptFor p block.coinbaseOutputs
    pindex.nHeight (getBlockSubsidy pindex.nHeight p) = .ok (nBudgetReward, true)

/-- **A call that commits nothing** was refused, only checks, or runs while the
engine is suppressed. -/
def Uncommitted (env : Env) (p : Params) (block : CBlock) (pindex : CBlockIndex)
    (view : CCoinsViewCache B) (g : Option CColdRewards) (suppress fJustCheck : Bool) : Prop :=
  (connectBlock env p block pindex view g suppress fJustCheck).2.isOk = false ∨
    fJustCheck = true ∨ suppress = true

/-- The engine after a call that commits nothing: untouched when the call stops
early, and otherwise the one that validation returns. -/
theorem connectBlock_engine (h : Uncommitted env p block pindex view g suppress fJustCheck) :
    (¬ReachesColdReward env p block pindex view fJustCheck ∧
      (connectBlock env p block pindex view g suppress fJustCheck).1 = g) ∨
    (ReachesColdReward env p block pindex view fJustCheck ∧
      (connectBlock env p block pindex view g suppress fJustCheck).1 =
        (coldRewardOf p block pindex.nHeight g suppress fJustCheck).1) := by
  unfold Uncommitted at h
  unfold connectBlock at h ⊢
  -- the exits before the cold reward, each with the clause that failed
  split
  next hpre => exact .inl ⟨fun hr => by simp [hr.preamble] at hpre, rfl⟩
  next hpre =>
  split
  next hgen => exact .inl ⟨fun hr => hr.notGenesis hgen, rfl⟩
  next hgen =>
  split
  next hparent => exact .inl ⟨fun hr => hr.parent (List.isEmpty_iff.mp hparent), rfl⟩
  next hparent =>
  split
  next htx =>
    refine .inl ⟨fun hr => ?_, rfl⟩
    obtain ⟨s, hs⟩ := hr.transactions
    simp [hs] at htx
  next s htx =>
  simp only
  split
  next hbudget =>
    refine .inl ⟨fun hr => ?_, rfl⟩
    obtain ⟨n, hn⟩ := hr.budget
    simp [hn] at hbudget
  next nBudgetReward budgetOk hbudget =>
  cases budgetOk with
  | false =>
    refine .inl ⟨fun hr => ?_, rfl⟩
    obtain ⟨n, hn⟩ := hr.budget
    simp [hn] at hbudget
  | true =>
    have hreach : ReachesColdReward env p block pindex view fJustCheck :=
      ⟨hpre, hgen, by simpa using hparent, ⟨s, htx⟩, ⟨nBudgetReward, hbudget⟩⟩
    refine .inr ⟨hreach, ?_⟩
    -- the exits after it, all with the engine of the validation
    simp only [hpre, hgen, hparent, htx, hbudget, Bool.not_true,
      Bool.false_eq_true, if_false] at h ⊢
    generalize coldRewardOf p block pindex.nHeight g suppress fJustCheck = validation at h ⊢
    obtain ⟨g₁, nColdReward, coldOk⟩ := validation
    simp only at h ⊢
    split
    · rfl
    next hcold =>
    split
    · rfl
    next hamount =>
    split
    · rfl
    next hscripts =>
    split
    · rfl
    next hundo =>
    simp only [hcold, hamount, hscripts, hundo, if_false, Bool.false_eq_true] at h
    rcases h with h | h | h
    · exact absurd h (by simp [Except.isOk, Except.toBool])
    · simp [h]
    · simp [h]

theorem sameState_coldRewardOf (h : fJustCheck = true ∨ suppress = true ∨ ¬r.PurgesAt p nHeight) :
    ∃ r', (coldRewardOf p block nHeight (some r) suppress fJustCheck).1 = some r' ∧
      r.SameState r' := by
  unfold coldRewardOf
  split
  · exact ⟨r, rfl, CColdRewards.SameState.refl r⟩
  next hsuper =>
  refine ⟨_, rfl, ?_⟩
  cases hcheck : fJustCheck || suppress with
  | true => exact CColdRewards.SameState.refl r
  | false =>
    obtain ⟨hj, hs⟩ := Bool.or_eq_false_iff.mp hcheck
    have hpurge : ¬r.PurgesAt p nHeight := by simpa [hj, hs] using h
    exact CColdRewards.sameState_quickValidate block (by simpa using hsuper) hpurge

/-- A real validation at the height of the purge writes to the engine. -/
theorem CColdRewards.PurgesAt.not_sameState {r' : CColdRewards} (h : r.PurgesAt p nHeight)
    (hr' : (coldRewardOf p block nHeight (some r) false false).1 = some r') : ¬r.SameState r' := by
  intro hsame
  rw [coldRewardOf, h.1] at hr'
  cases hr'
  exact h.rewardMap_ne ((rewardMap_quickValidate p block nHeight).symm.trans hsame.rewardMap)

/-- **What a block that is not committed leaves of the engine.** The stored state is what it was,
except when the block is really validated, gets as far as its cold reward, and the purge drops a
record at its height. -/
theorem connectBlock_sameState_iff (env : Env) (p : Params) (block : CBlock) (pindex : CBlockIndex)
    (view : CCoinsViewCache B) (r : CColdRewards) (suppress fJustCheck : Bool)
    (h : Uncommitted env p block pindex view (some r) suppress fJustCheck) :
    (∃ r', (connectBlock env p block pindex view (some r) suppress fJustCheck).1 = some r' ∧
      r.SameState r') ↔
    ¬(fJustCheck = false ∧ suppress = false ∧
      ReachesColdReward env p block pindex view fJustCheck ∧ r.PurgesAt p pindex.nHeight) := by
  obtain ⟨hstop, heng⟩ | ⟨hreach, heng⟩ := connectBlock_engine h <;> rw [heng]
  · refine iff_of_true ⟨r, rfl, CColdRewards.SameState.refl r⟩ ?_
    rintro ⟨-, -, hreach, -⟩
    exact hstop hreach
  · constructor
    · rintro ⟨r', hr', hsame⟩ ⟨rfl, rfl, -, hpurge⟩
      exact hpurge.not_sameState hr' hsame
    · intro hno
      apply sameState_coldRewardOf
      by_contra hall
      simp only [not_or, Bool.not_eq_true, not_not] at hall
      exact hno ⟨hall.1, hall.2.1, hreach, hall.2.2⟩

end Connect

/-! ### The purge of a block that is then refused -/

/-- A position above a run of blocks of one hash. -/
def uniformIndex (nHeight : Nat) (hash parent : BlockHash) : CBlockIndex where
  nHeight := nHeight
  hash := hash
  ancestors := List.replicate nHeight parent
  length_ancestors := List.length_replicate

theorem prevAncestor_uniformIndex {height : Nat} {hash parent : BlockHash} (h : height < nHeight) :
    (uniformIndex nHeight hash parent).prevAncestor height = some parent := by
  show (if height < nHeight then (List.replicate nHeight parent)[nHeight - 1 - height]?
    else none) = some parent
  rw [if_pos h, List.getElem?_replicate, if_pos (by omega)]

theorem enforceBIP30_uniformIndex {p : Params} {hash parent : BlockHash}
    (hlt : p.BIP34Height < nHeight) (hne : (parent != p.BIP34Hash) = true)
    (hrepeat : isBIP30Repeat (uniformIndex nHeight hash parent) = false) :
    enforceBIP30 p (uniformIndex nHeight hash parent) = true := by
  rw [enforceBIP30, hrepeat, prevAncestor_uniformIndex hlt]
  exact hne

/-- The first block after the sixth superblock of the main network, where the
records below 25000 coins go. -/
def purgeIndex : CBlockIndex := uniformIndex 131491 1 2

/-- An engine with one candidate, of 2000 coins from the first year. -/
def lowRecordEngine : CColdRewards :=
  (CColdRewards.init mainParams).putInMap ⟨7, 0⟩
    (CRewardValue.new { nValue := 2000 * coin, scriptPubKey := [] } 100 100 100)

/-- A block whose coinbase pays far too much. -/
def overpaidBlock : CBlock :=
  { hash := 1, hashPrevBlock := 2
    vtx := [coinbaseTx 1 [{ nValue := maxMoney, scriptPubKey := [] }]] }

/-- A cache without coins. -/
def emptyViewAt (hash : BlockHash) : CCoinsViewCache UtxoSet :=
  { base := UtxoSet.empty hash, hashBlock := hash }

/-- A refused first block leaves the engine alone. -/
theorem connectBlock_sameState_overpaidAfter :
    ∃ r', (connectBlock Env.permissive regTestParams (firstBlock regTestParams
        [{ nValue := maxMoney, scriptPubKey := [] }]) (firstIndex regTestParams 1)
        (genesisView regTestParams) (some lowRecordEngine) false false).1 = some r' ∧
      lowRecordEngine.SameState r' :=
  (connectBlock_sameState_iff _ _ _ _ _ _ false false (.inl (by decide +kernel))).mpr
    fun h => absurd h.2.2.2.2.1 (by decide)

/-- **A refused block purges the engine**: the block fails for its coinbase, and
the only record is gone. -/
theorem connectBlock_overpaid_purges :
    (connectBlock Env.permissive mainParams overpaidBlock purgeIndex (emptyViewAt 2)
        (some lowRecordEngine) false false).2.isOk = false ∧
      lowRecordEngine.rewardMap.size = 1 ∧
      (connectBlock Env.permissive mainParams overpaidBlock purgeIndex (emptyViewAt 2)
        (some lowRecordEngine) false false).1.map (·.rewardMap.size) = some 0 := by
  have hBIP30 : enforceBIP30 mainParams purgeIndex = true :=
    enforceBIP30_uniformIndex (by decide) (by decide) (by decide)
  rw [connectBlock, connectTransactions, hBIP30]
  exact ⟨by decide +kernel, by decide +kernel, by decide +kernel⟩

end DeVault
