import DeVault.Validation.Chain

/-!
# The reward records as a projection of the chain state

The engine is meant to be a view on the unspent coins: every active record
stands for a coin that can still be spent. `Projects` says so, and this file
shows how far it holds along the chain.

The two sides are maintained by different passes. `AddCoins` drops outputs whose script cannot be
spent, while `UpdateWithBlock` enters every output of a regular transaction that reaches the minimum
balance. So the correspondence is kept by a block if no regular output is unspendable and large
enough to be a candidate, and if it creates no coin over an unspent one (`NoOverwrite`), which would
leave the record of the old coin in place.
-/

namespace DeVault

namespace ChainState

/-- The coin that an active record stands for. -/
structure DenotesCoin (utxo : UtxoSet) (op : COutPoint) (val : CRewardValue) (c : Coin) : Prop where
  unspent : utxo.coins[op]? = some c
  notCoinBase : c.fCoinBase = false
  out_eq : c.out = val.txout
  height_eq : c.nHeight = val.creationHeight

/-- Every active record of the engine stands for an unspent coin. -/
def Projects (s : ChainState) : Prop :=
  ∀ (op : COutPoint) (val : CRewardValue), s.rewards.rewardMap[op]? = some val →
    val.active = true → ∃ c, DenotesCoin s.utxo op val c

/-- A block whose candidates are coins: no regular output of the minimum balance is unspendable, and
no coin is created over an unspent one. -/
structure CandidatesAreCoins (p : Params) (s : ChainState) (block : CBlock) : Prop where
  spendable : ∀ tx ∈ block.vtx, tx.isCoinBase = false → ∀ out ∈ tx.vout,
    isUnspendable out.scriptPubKey = true →
      out.quantized.nValue < p.getMinRewardBalance (s.tip.nHeight + 1)
  noOverwrite : NoOverwrite s.view block.vtx (s.tip.nHeight + 1)

variable {env : Env} {p : Params} {s s' : ChainState} {block : CBlock} {op : COutPoint}

/-- **One step.** A block whose candidates are coins keeps the correspondence. -/
theorem projects_step (hp : s.Projects) (hsafe : CandidatesAreCoins p s block)
    (h : s.connectTip env p block = (s', none)) : s'.Projects := by
  intro op val hval hactive
  obtain ⟨-, ⟨-, hsame, hcoins⟩ | ⟨t, out, hconn, hcoins, -⟩⟩ := connectTip_accepted h
  · -- the genesis block again: nothing has moved
    rw [hsame] at hval
    obtain ⟨c, hc⟩ := hp op val hval hactive
    exact ⟨c, (hcoins op).trans hc.unspent, hc.notCoinBase, hc.out_eq, hc.height_eq⟩
  obtain ⟨v₂, hspec⟩ := connectTransactions_spec (blockShape_of_checkBlock hconn.checkBlock_ok)
    s.wf_view hsafe.noOverwrite hconn.transactions
  rw [rewards_of_connected hconn] at hval
  have hrecord := record_commitColdRewards hval
  have hunspent : op ∉ block.spentOutpoints := by
    rcases hrecord with ⟨_, -, hunspent, -⟩ | ⟨old, -, hcarried⟩
    · exact hunspent
    · exact (hcarried.active_iff.mp hactive).2
  -- what is not spent is what the block created, or else what was there
  have hnow : s'.utxo.coins[op]? =
      (createdBy block.vtx (s.tip.nHeight + 1) op).or s.utxo.coins[op]? := by
    rw [hcoins, coins_of_connected hsafe.noOverwrite hconn, if_neg hunspent]
  rcases hrecord with ⟨txout, hmem, -, hmin, rfl⟩ | ⟨old, hold, hcarried⟩
  · obtain ⟨tx, htx, hreg, hzip, hop⟩ := CBlock.mem_createdOutputs_iff.mp hmem
    have hspendable : isUnspendable txout.scriptPubKey = false := by
      by_contra hne
      have hlow := hsafe.spendable tx htx hreg txout (List.fst_mem_of_mem_zipIdx hzip)
        (by simpa using hne)
      exact absurd hmin (not_le.mpr hlow)
    have hcoin := hspec.unique tx htx op _
      (CTransaction.createdCoin_eq_some_iff.mpr ⟨txout, hzip, hop, hspendable, rfl⟩)
    refine ⟨⟨txout.quantized, (s.tip.next block.hash).nHeight, tx.isCoinBase⟩, ?_, hreg, rfl, rfl⟩
    exact hnow.trans (congrArg (Option.or · s.utxo.coins[op]?) hcoin)
  · obtain ⟨c, hc⟩ := hp op old (CColdRewards.getElem?_validated hold)
      (hcarried.active_iff.mp hactive).1
    have hnone : createdBy block.vtx (s.tip.nHeight + 1) op = none := by
      by_contra hne
      have hclash := hsafe.noOverwrite op (Option.isSome_iff_ne_none.mpr hne)
      rw [s.lookup_view, hc.unspent] at hclash
      cases hclash
    refine ⟨c, ?_, hc.notCoinBase, hc.out_eq.trans hcarried.txout_eq.symm,
      hc.height_eq.trans hcarried.creationHeight_eq.symm⟩
    rw [hnow, hnone, Option.none_or, hc.unspent]

/-- A refused block keeps the correspondence: validation only removes records. -/
theorem projects_refused {e : Fault} (hp : s.Projects)
    (h : s.connectTip env p block = (s', some e)) : s'.Projects := by
  intro op val hval hactive
  obtain ⟨hutxo, -, hrewards⟩ := connectTip_refused h
  have hold : s.rewards.rewardMap[op]? = some val := by
    rcases hrewards with heq | heq
    · rwa [heq] at hval
    · rw [heq] at hval
      exact CColdRewards.getElem?_validated hval
  obtain ⟨c, hc⟩ := hp op val hold hactive
  rw [hutxo]
  exact ⟨c, hc⟩

/-- **The projection along the chain.** In every state reached from the genesis block by accepted
blocks whose candidates are coins, with refused blocks in between, every active record stands for an
unspent coin, not of a coinbase, with the record's output and creation height. -/
theorem rewardMap_projects_utxo
    (h : Reachable env p (CandidatesAreCoins p) s) : s.Projects := by
  induction h with
  | genesis => exact fun op val hval => absurd hval (by simp [genesis, CColdRewards.init])
  | accepted _ hsafe hstep ih => exact projects_step ih hsafe hstep
  | refused _ hstep ih => exact projects_refused ih hstep

/-! ### A chain that burns coins -/

instance (p : Params) (s : ChainState) (block : CBlock) :
    Decidable (CandidatesAreCoins p s block) :=
  decidable_of_iff
    ((∀ tx ∈ block.vtx, tx.isCoinBase = false → ∀ out ∈ tx.vout,
        isUnspendable out.scriptPubKey = true →
          out.quantized.nValue < p.getMinRewardBalance (s.tip.nHeight + 1)) ∧
      ∀ o ∈ createdOutpoints block.vtx, s.view.lookup o = none)
    ⟨fun h => ⟨h.1, fun o ho => h.2 o (mem_createdOutpoints_iff.mpr ho)⟩,
      fun h => ⟨h.spendable, fun o ho => h.noOverwrite o (mem_createdOutpoints_iff.mp ho)⟩⟩

theorem rewardMap_projects_thousandCoinState :
    ∃ val c, (thousandCoinState regTestParams [0x51]).rewards.rewardMap[(⟨1000, 0⟩ : COutPoint)]? =
      some val ∧
      DenotesCoin (thousandCoinState regTestParams [0x51]).utxo ⟨1000, 0⟩ val c := by
  have hreach : Reachable Env.permissive regTestParams (CandidatesAreCoins regTestParams)
      (thousandCoinState regTestParams [0x51]) := by
    refine Reachable.connectAll (fun s block => decide (CandidatesAreCoins _ s block))
      (fun s block h => of_decide_eq_true h) .genesis ?_
    decide +kernel
  have hrecord : ((thousandCoinState regTestParams [0x51]).rewards.rewardMap[
      (⟨1000, 0⟩ : COutPoint)]?).any
      (·.active) = true := by
    decide +kernel
  obtain ⟨val, hval, hactive⟩ := (Option.any_eq_true _ _).mp hrecord
  obtain ⟨c, hc⟩ := rewardMap_projects_utxo hreach _ val hval hactive
  exact ⟨val, c, hval, hc⟩

/-- Every block of the chain is accepted, and in the end an active record has no
coin behind it. -/
theorem thousandCoinState_burnt :
    acceptsAll Env.permissive regTestParams (fun _ _ => true) (genesis regTestParams)
      (thousandCoinChain regTestParams [opReturn]) = true ∧
    ¬(thousandCoinState regTestParams [opReturn]).Projects := by
  have hrun : acceptsAll Env.permissive regTestParams (fun _ _ => true) (genesis regTestParams)
      (thousandCoinChain regTestParams [opReturn]) = true := by decide +kernel
  have hrecord : ((thousandCoinState regTestParams [opReturn]).rewards.rewardMap[
      (⟨1000, 0⟩ : COutPoint)]?).any
      (·.active) = true := by decide +kernel
  have hgone :
      (thousandCoinState regTestParams [opReturn]).utxo.coins[(⟨1000, 0⟩ : COutPoint)]? = none := by
    decide +kernel
  refine ⟨hrun, fun hproj => ?_⟩
  obtain ⟨val, hval, hactive⟩ := (Option.any_eq_true _ _).mp hrecord
  obtain ⟨c, hc⟩ := hproj _ val hval hactive
  cases hgone.symm.trans hc.unspent

end ChainState

end DeVault
