import DeVault.Rewards.Selection

/-!
# Blocks that extend the chain of the records

What the engine does with a block makes sense relative to its records only if
the block extends the chain they come from. `ValidAt r block nHeight` collects
what that means for the records: the block spends active ones only, each once,
its outputs have no record yet, and the records are older than the block.

The engine checks none of this. It follows from the checks of `ConnectBlock`
along a chain in which no transaction comes twice (`NewOutpoints`).
-/

namespace DeVault

open CColdRewards

/-- A block that extends the chain the records belong to. -/
structure CColdRewards.ValidAt (r : CColdRewards) (block : CBlock) (nHeight : Nat) : Prop where
  shape : ∃ coinbase rest, block.vtx = coinbase :: rest ∧ coinbase.isCoinBase = true ∧
    ∀ tx ∈ rest, tx.isCoinBase = false
  height_lt : ∀ (op : COutPoint) (val : CRewardValue), r.rewardMap[op]? = some val →
    val.height < nHeight
  creationHeight_lt : ∀ (op : COutPoint) (val : CRewardValue), r.rewardMap[op]? = some val →
    val.creationHeight < nHeight
  nodup_spent : block.spentOutpoints.Nodup
  active_spent : ∀ op ∈ block.spentOutpoints, ∀ val, r.rewardMap[op]? = some val →
    val.active = true
  fresh : ∀ op ∈ block.createdOutputs.map Prod.fst, r.rewardMap[op]? = none

theorem forall_rewardMap_iff {r : CColdRewards} {P : CRewardValue → Prop} :
    (∀ e ∈ r.rewardMap.toList, P e.2) ↔
      ∀ (op : COutPoint) (val : CRewardValue), r.rewardMap[op]? = some val → P val := by
  refine ⟨?_, ?_⟩
  · intro h op val hval
    exact h (op, val) (Std.ExtTreeMap.mem_toList_iff_getElem?_eq_some.mpr hval)
  · rintro h ⟨op, val⟩ hmem
    exact h op val (Std.ExtTreeMap.mem_toList_iff_getElem?_eq_some.mp hmem)

instance (r : CColdRewards) (block : CBlock) (nHeight : Nat) :
    Decidable (r.ValidAt block nHeight) :=
  decidable_of_iff
    ((∃ coinbase ∈ block.vtx.head?, coinbase.isCoinBase = true ∧
        ∀ tx ∈ block.vtx.tail, tx.isCoinBase = false) ∧
      (∀ e ∈ r.rewardMap.toList, e.2.height < nHeight) ∧
      (∀ e ∈ r.rewardMap.toList, e.2.creationHeight < nHeight) ∧
      block.spentOutpoints.Nodup ∧
      (∀ op ∈ block.spentOutpoints, ∀ val ∈ r.rewardMap[op]?, val.active = true) ∧
      ∀ op ∈ block.createdOutputs.map Prod.fst, r.rewardMap[op]? = none) <| by
    rw [forall_rewardMap_iff (P := fun val => val.height < nHeight),
      forall_rewardMap_iff (P := fun val => val.creationHeight < nHeight)]
    refine ⟨?_, ?_⟩
    · rintro ⟨⟨coinbase, hhead, hcb, hreg⟩, hheight, hcreation, hnodup, hactive, hfresh⟩
      refine ⟨⟨coinbase, block.vtx.tail, ?_, hcb, hreg⟩, hheight, hcreation,
        hnodup, hactive, hfresh⟩
      exact (List.eq_cons_of_mem_head? hhead)
    · rintro ⟨⟨coinbase, rest, hvtx, hcb, hreg⟩, hheight, hcreation, hnodup, hactive, hfresh⟩
      refine ⟨⟨coinbase, ?_, hcb, ?_⟩, hheight, hcreation, hnodup, hactive, hfresh⟩
      · simp [hvtx]
      · simpa [hvtx] using hreg

/-- A block that paid the record that validation selected. -/
structure CColdRewards.Pays (r : CColdRewards) (p : Params) (block : CBlock) (nHeight : Nat)
    (val : CRewardValue) : Prop where
  record : r.rewardMap[r.rewardKey]? = some val
  active : val.active = true
  outputs : 1 < block.coinbaseOutputs.length
  notSuperBlock : p.isSuperBlock nHeight = false

namespace ChainState

variable {env : Env} {p : Params} {s s' : ChainState} {block : CBlock} {op : COutPoint}

/-- The outputs of a block are at outpoints with neither a coin nor a record. -/
def NewOutpoints (s : ChainState) (block : CBlock) : Prop :=
  ∀ tx ∈ block.vtx, ∀ o ∈ tx.vout.zipIdx,
    s.utxo.coins[tx.outPoint o.2]? = none ∧ s.rewards.rewardMap[tx.outPoint o.2]? = none

instance (s : ChainState) (block : CBlock) : Decidable (s.NewOutpoints block) :=
  inferInstanceAs (Decidable (∀ tx ∈ block.vtx, ∀ o ∈ tx.vout.zipIdx,
    s.utxo.coins[tx.outPoint o.2]? = none ∧ s.rewards.rewardMap[tx.outPoint o.2]? = none))

theorem NewOutpoints.of_created (h : s.NewOutpoints block) {nHeight : Nat}
    (hc : (createdBy block.vtx nHeight op).isSome = true) :
    s.utxo.coins[op]? = none ∧ s.rewards.rewardMap[op]? = none := by
  obtain ⟨tx, htx, hsome⟩ := createdBy_isSome_iff.mp hc
  obtain ⟨c, hcoin⟩ := Option.isSome_iff_exists.mp hsome
  obtain ⟨out, hmem, hop, -⟩ := CTransaction.createdCoin_eq_some_iff.mp hcoin
  rw [hop]
  exact h tx htx (out, op.n) hmem

theorem NewOutpoints.noOverwrite (h : s.NewOutpoints block) (nHeight : Nat) :
    NoOverwrite s.view block.vtx nHeight :=
  fun o ho => (s.lookup_view o).trans (h.of_created ho).1

theorem NewOutpoints.fresh (h : s.NewOutpoints block)
    (hop : op ∈ block.createdOutputs.map Prod.fst) : s.rewards.rewardMap[op]? = none := by
  obtain ⟨⟨op, out⟩, hmem, rfl⟩ := List.mem_map.mp hop
  obtain ⟨tx, htx, -, hzip, heq⟩ := CBlock.mem_createdOutputs_iff.mp hmem
  rw [heq]
  exact (h tx htx (out, op.n) hzip).2

/-- No record runs ahead of the tip, and an inactive record has no coin. -/
structure RecordsSettled (s : ChainState) : Prop where
  height_le : ∀ (op : COutPoint) (val : CRewardValue), s.rewards.rewardMap[op]? = some val →
    val.height ≤ s.tip.nHeight
  creationHeight_le : ∀ (op : COutPoint) (val : CRewardValue),
    s.rewards.rewardMap[op]? = some val → val.creationHeight ≤ s.tip.nHeight
  spent : ∀ (op : COutPoint) (val : CRewardValue), s.rewards.rewardMap[op]? = some val →
    val.active = false → s.utxo.coins[op]? = none

theorem RecordsSettled.mono (h : s.RecordsSettled)
    (hrec : ∀ (op : COutPoint) (val : CRewardValue), s'.rewards.rewardMap[op]? = some val →
      s.rewards.rewardMap[op]? = some val) (htip : s.tip.nHeight ≤ s'.tip.nHeight)
    (hcoins : ∀ op : COutPoint, s'.utxo.coins[op]? = s.utxo.coins[op]?) : s'.RecordsSettled := by
  refine ⟨fun op val hval => ?_, fun op val hval => ?_, fun op val hval hin => ?_⟩
  · exact (h.height_le op val (hrec op val hval)).trans htip
  · exact (h.creationHeight_le op val (hrec op val hval)).trans htip
  · exact (hcoins op).trans (h.spent op val (hrec op val hval) hin)

theorem recordsSettled_step (hs : s.RecordsSettled) (hnew : s.NewOutpoints block)
    (h : s.connectTip env p block = (s', none)) : s'.RecordsSettled := by
  obtain ⟨htip, ⟨-, hsame, hcoins⟩ | ⟨t, out, hconn, hcoins, -⟩⟩ := connectTip_accepted h
  · exact hs.mono (by simp [hsame]) (by rw [htip]; exact Nat.le_succ _) hcoins
  have hheight : s'.tip.nHeight = s.tip.nHeight + 1 := by rw [htip]; rfl
  have hrecord : ∀ (op : COutPoint) (val : CRewardValue), s'.rewards.rewardMap[op]? = some val →
      (val.height = s.tip.nHeight + 1 ∧ val.creationHeight = s.tip.nHeight + 1 ∧
        val.active = true) ∨
      ∃ old, s.rewards.rewardMap[op]? = some old ∧
        Carried block (s.tip.nHeight + 1) op old val := by
    intro op val hval
    rw [rewards_of_connected hconn] at hval
    rcases record_commitColdRewards hval with ⟨_, -, -, -, rfl⟩ | ⟨old, hold, hcarried⟩
    · exact Or.inl ⟨rfl, rfl, rfl⟩
    · exact Or.inr ⟨old, getElem?_validated hold, hcarried⟩
  refine ⟨fun op val hval => ?_, fun op val hval => ?_, fun op val hval hin => ?_⟩
  · rcases hrecord op val hval with ⟨hh, -⟩ | ⟨old, hold, hcarried⟩
    · omega
    · have := hs.height_le op old hold
      rcases hcarried.height_eq with hh | hh <;> omega
  · rcases hrecord op val hval with ⟨-, hh, -⟩ | ⟨old, hold, hcarried⟩
    · omega
    · have := hs.creationHeight_le op old hold
      have := hcarried.creationHeight_eq
      omega
  · rcases hrecord op val hval with ⟨-, -, hact⟩ | ⟨old, hold, hcarried⟩
    · cases hact.symm.trans hin
    rw [hcoins, coins_of_connected (hnew.noOverwrite _) hconn]
    split
    · rfl
    next hunspent =>
    -- the record was inactive before, and the block does not bring its coin back
    have hinactive : old.active = false := by
      by_contra hne
      have := hcarried.active_iff.mpr ⟨by simpa using hne, hunspent⟩
      cases this.symm.trans hin
    have hnone : createdBy block.vtx (s.tip.nHeight + 1) op = none := by
      by_contra hne
      have hfresh := (hnew.of_created (Option.isSome_iff_ne_none.mpr hne)).2
      cases hfresh.symm.trans hold
    rw [hnone, Option.none_or]
    exact hs.spent op old hold hinactive

/-- No record runs ahead of the tip, and an inactive one has no coin. -/
theorem recordsSettled_of_reachable (h : Reachable env p NewOutpoints s) : s.RecordsSettled := by
  induction h with
  | genesis =>
    refine ⟨fun op val hval => ?_, fun op val hval => ?_, fun op val hval => ?_⟩ <;>
      exact absurd hval (by simp [genesis, init])
  | accepted _ hnew hstep ih => exact recordsSettled_step ih hnew hstep
  | refused _ hstep ih =>
    obtain ⟨hutxo, htip, hrewards⟩ := connectTip_refused hstep
    refine ih.mono (fun op val hval => ?_) (by rw [htip]) (by simp [hutxo])
    rcases hrewards with heq | heq
    · rwa [heq] at hval
    · rw [heq] at hval
      exact getElem?_validated hval

/-- **Accepted blocks extend the chain of the records.** -/
theorem validAt_of_accepted (h : Reachable env p NewOutpoints s) (hnew : s.NewOutpoints block)
    (hgen : block.hash ≠ p.hashGenesisBlock) (hacc : s.connectTip env p block = (s', none)) :
    (s.rewards.validated p block (s.tip.nHeight + 1)).ValidAt block (s.tip.nHeight + 1) := by
  have hs := recordsSettled_of_reachable h
  obtain ⟨-, ⟨heq, -⟩ | ⟨t, out, hconn, -⟩⟩ := connectTip_accepted hacc
  · exact absurd heq hgen
  obtain ⟨hnodup, hcoin⟩ := coin_of_spent (hnew.noOverwrite _) hconn
  have hold : ∀ {op : COutPoint} {val : CRewardValue},
      (s.rewards.validated p block (s.tip.nHeight + 1)).rewardMap[op]? = some val →
        s.rewards.rewardMap[op]? = some val := getElem?_validated
  refine ⟨(blockShape_of_checkBlock hconn.checkBlock_ok).exists_cons, fun op val hval => ?_,
    fun op val hval => ?_, hnodup, fun op hop val hval => ?_, fun op hop => ?_⟩
  · exact Nat.lt_succ_of_le (hs.height_le op val (hold hval))
  · exact Nat.lt_succ_of_le (hs.creationHeight_le op val (hold hval))
  · -- the block found a coin there, which an inactive record rules out
    by_contra hne
    have hgone := hs.spent op val (hold hval) (by simpa using hne)
    have hcreated : createdBy block.vtx (s.tip.nHeight + 1) op = none := by
      by_contra hsome
      have hfresh := (hnew.of_created (Option.isSome_iff_ne_none.mpr hsome)).2
      cases hfresh.symm.trans (hold hval)
    exact hcoin op hop (by rw [hcreated, hgone]; rfl)
  · by_contra hne
    obtain ⟨val, hval⟩ := Option.ne_none_iff_exists'.mp hne
    cases (hnew.fresh hop).symm.trans (hold hval)

/-- The same for the last of a list of blocks. -/
theorem validAt_of_acceptsAll {blocks : List CBlock} (hgen : block.hash ≠ p.hashGenesisBlock)
    (hrun : acceptsAll env p (fun s block => decide (s.NewOutpoints block)) (genesis p)
      (blocks ++ [block]) = true) (hs : (genesis p).connectAll env p blocks = s) :
    (s.rewards.validated p block (s.tip.nHeight + 1)).ValidAt block (s.tip.nHeight + 1) := by
  rw [acceptsAll_append, hs, Bool.and_eq_true] at hrun
  obtain ⟨hchain, hlast⟩ := hrun
  simp only [acceptsAll, Bool.and_true, Bool.and_eq_true, decide_eq_true_eq,
    Option.isNone_iff_eq_none] at hlast
  have hreach : Reachable env p NewOutpoints s :=
    hs ▸ Reachable.connectAll _ (fun s block h => of_decide_eq_true h) .genesis hchain
  exact validAt_of_accepted hreach hlast.1 hgen (Prod.ext rfl hlast.2)

/-- **Payouts of accepted blocks.** If an accepted block has a cold reward, its
coinbase has a second output, and validation has selected an active record. -/
theorem pays_of_connected (hmin : 0 ≤ s.rewards.nMinBlocks) {t : ConnectState UtxoSet}
    {out : ConnectOutput UtxoSet} {g₁ g' : Option CColdRewards}
    (hconn : Connected env p block (s.tip.next block.hash) s.view (some s.rewards) false false t
      g₁ g' out) (hpaid : 0 < out.nColdReward) :
    ∃ val, (s.rewards.validated p block (s.tip.nHeight + 1)).Pays p block (s.tip.nHeight + 1)
      val := by
  have hcold := hconn.cold
  have hnext : (s.tip.next block.hash).nHeight = s.tip.nHeight + 1 := rfl
  rw [hnext, coldRewardOf] at hcold
  split at hcold
  · -- no cold reward on a superblock
    have hzero : (0 : Int) = out.nColdReward := congrArg (fun x => x.2.1) hcold
    exact absurd hpaid (by omega)
  next hsuper =>
  have hsuper : p.isSuperBlock (s.tip.nHeight + 1) = false := by simpa using hsuper
  rw [validated, if_neg (by simp [hsuper])]
  simp only [Bool.or_self, Prod.mk.injEq] at hcold
  obtain ⟨-, hreward, hok⟩ := hcold
  rw [quickValidate_eq] at hreward hok ⊢
  rcases hvout : block.coinbaseOutputs[1]? with _ | payment
  · rw [hvout] at hreward
    have hzero : (0 : Int) = out.nColdReward := hreward
    exact absurd hpaid (by omega)
  · rw [hvout] at hok
    have hmin' : 0 ≤ (s.rewards.purged p (s.tip.nHeight + 1)).nMinBlocks := by
      rw [show (s.rewards.purged p (s.tip.nHeight + 1)).nMinBlocks = s.rewards.nMinBlocks from
        congrArg Prod.fst (settings_purged p (s.tip.nHeight + 1))]
      exact hmin
    obtain ⟨op, val, hval, hmatch⟩ := checkReward_ok hok
    obtain ⟨r₂, hcheck, hmap, w, hw, hwmatch, -⟩ :=
      checkReward_spec hmin' hval hmatch
    refine ⟨w, ?_, (matchesPayment_iff.mp hwmatch).1, ?_, hsuper⟩
    · simp only [hcheck, hmap]
      exact hw
    · exact (List.getElem?_eq_some_iff.mp hvout).1

end ChainState

end DeVault
