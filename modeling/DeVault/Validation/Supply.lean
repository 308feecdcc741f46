import DeVault.Consensus.Subsidy
import DeVault.Rewards.Calculation
import DeVault.Validation.Chain
import DeVault.Validation.FailedConnect
import DeVault.Validation.Faults

/-!
# The money supply

A block may add to the value of the unspent coins at most the subsidy, the cold
reward and the budget of its height. The fees drop out: what a transaction leaves unspent of its
inputs is claimed by the coinbase.

The bound is carried by `CCoinsViewCache.potential`. With the outputs of all transactions added
first, the potential stands at most the quantised value of all outputs above the old one; each
transaction of the loop then takes off its inputs, which are its outputs and its fee; so what stays
is the coinbase less the fees, and the coinbase is bounded by the block reward equation. Outputs
that overwrite an unspent coin, and outputs that cannot be spent, only make the bound less tight.

Along a chain the subsidies and budgets stay below `MAX_MONEY`, so that only the
cold rewards can bring the supply above it.
-/

namespace DeVault

open List Outcome

namespace CCoinsViewCache

variable {v v' : CCoinsViewCache UtxoSet}

theorem CoinsWf.accounted (h : v.CoinsWf) (hclean : v.Clean) : v.Accounted where
  clean := hclean
  nonneg := by
    intro o e he
    cases hs : e.coin.isSpent with
    | true => exact (liveValue_of_spent hs).ge
    | false =>
      rw [liveValue_of_unspent hs]
      exact (moneyRange_iff.mp (h o e he hs).moneyRange).1

/-- With right flags nothing is hidden: the view shows its potential. -/
theorem Wf.potential_eq_total (h : v.Wf) : v.potential = v.total := by
  rw [total, utxo, Ledger.weight_overlay coinValue v.nodup_pending, potential, pending,
    map_map, Ledger.weight]
  refine congrArg _ (congrArg sum (map_congr_left fun p hp => ?_))
  have hc := Std.ExtTreeMap.mem_toList_iff_getElem?_eq_some.mp hp
  have hhidden : p.2.fresh = true → Ledger.weightAt coinValue v.base.coins p.1 = 0 :=
    fun hfr => Ledger.weightAt_of_none (h.fresh p.1 p.2 hc hfr)
  simp only [Function.comp_apply, entryDelta, liveValue]
  cases hs : p.2.coin.isSpent <;> cases hfr : p.2.fresh <;>
    simp [coinValue, hfr] at hhidden ⊢ <;> omega

/-- Spending distinct unspent coins takes exactly their value. -/
theorem potential_spendAll {os : List COutPoint} (hnd : os.Nodup)
    (h : ∀ o ∈ os, (v.peek o).isSpent = false) :
    (v.spendAll os).potential = v.potential - valueIn v os := by
  induction os generalizing v with
  | nil => simp [valueIn]
  | cons a os ih =>
    obtain ⟨ha, hnd⟩ := nodup_cons.mp hnd
    obtain ⟨hun, hrest⟩ := forall_mem_cons.mp h
    -- the later inputs are other outpoints and show the same coins
    have hpeek : ∀ o ∈ os, (v.spendCoin a).1.peek o = v.peek o := by
      intro o ho
      refine peek_congr (find_spendCoin_of_ne ?_)
      rintro rfl
      exact ha ho
    rw [spendAll_cons, ih hnd fun o ho => by rw [hpeek o ho]; exact hrest o ho,
      potential_spendCoin, liveValue_of_unspent hun, valueIn_cons, valueIn_congr hpeek]
    ring

end CCoinsViewCache

open CCoinsViewCache (Accounted)

/-! ### Adding the outputs -/

section AddCoins

variable {v v' : CCoinsViewCache UtxoSet} {nHeight : Nat}

/-- The outputs of a transaction raise the potential by their quantised value at
most. -/
theorem potential_addCoins_le {tx : CTransaction}
    (hr : ∀ out ∈ tx.vout, moneyRange out.nValue = true) (hv : v.Accounted)
    (h : addCoins v tx nHeight false = .ok v') :
    v'.Accounted ∧ v'.potential ≤ v.potential + quantizedValueOut tx.vout := by
  have hrun : ∀ (l : List (CTxOut × Nat)) (w : CCoinsViewCache UtxoSet), w.Accounted →
      (∀ p ∈ l, 0 ≤ p.1.nValue) → l.foldlM (addCoinsStep tx nHeight false) w = .ok v' →
      v'.Accounted ∧ v'.potential ≤ w.potential + quantizedValueOut (l.map Prod.fst) := by
    intro l
    induction l with
    | nil =>
      intro w hw _ hrun
      cases hrun
      exact ⟨hw, by simp⟩
    | cons p l ih =>
      intro w hw hl hrun
      obtain ⟨hp, hl⟩ := forall_mem_cons.mp hl
      obtain ⟨w', hstep, hrun⟩ := foldlM_cons_ok.mp hrun
      rw [addCoinsStep_false] at hstep
      have hq : 0 ≤ (p.1.quantized).nValue := spockQuantize_nonneg hp
      obtain ⟨hacc, hle⟩ := ih w' (hw.addCoin hstep hq) hl hrun
      have hadd := CCoinsViewCache.potential_addCoin_le hw hstep hq
      refine ⟨hacc, ?_⟩
      rw [map_cons, quantizedValueOut_cons]
      simp only [CTxOut.quantized] at hadd
      omega
  have hzip : tx.vout.zipIdx.map Prod.fst = tx.vout := by simp
  have hnonneg : ∀ p ∈ tx.vout.zipIdx, 0 ≤ p.1.nValue := by
    intro p hp
    exact (moneyRange_iff.mp (hr p.1 (hzip ▸ mem_map_of_mem hp))).1
  have hall := hrun tx.vout.zipIdx v hv hnonneg h
  rwa [hzip] at hall

/-- The quantised value of the outputs of a list of transactions. -/
def valueCreated (vtx : List CTransaction) : Int :=
  (vtx.map fun tx => quantizedValueOut tx.vout).sum

theorem potential_foldlM_addCoins_le {vtx : List CTransaction}
    (hr : ∀ tx ∈ vtx, ∀ out ∈ tx.vout, moneyRange out.nValue = true) (hv : v.Accounted)
    (h : vtx.foldlM (fun view tx => addCoins view tx nHeight false) v = .ok v') :
    v'.Accounted ∧ v'.potential ≤ v.potential + valueCreated vtx := by
  induction vtx generalizing v with
  | nil =>
    cases h
    exact ⟨hv, by simp [valueCreated]⟩
  | cons tx vtx ih =>
    obtain ⟨htx, hr⟩ := forall_mem_cons.mp hr
    obtain ⟨w, hstep, hrun⟩ := foldlM_cons_ok.mp h
    obtain ⟨hw, hle⟩ := potential_addCoins_le htx hv hstep
    obtain ⟨hacc, hle'⟩ := ih hr hw hrun
    refine ⟨hacc, ?_⟩
    simp only [valueCreated, map_cons, sum_cons] at hle' ⊢
    omega

end AddCoins

/-! ### The transaction loop -/

section Loop

variable {env : Env} {pindex : CBlockIndex} {s s' : ConnectState UtxoSet}

/-- The outputs of the transactions other than a coinbase. -/
def valueRespent (vtx : List CTransaction) : Int :=
  valueCreated (vtx.filter fun tx => !tx.isCoinBase)

/-- A transaction takes its outputs and its fee off the potential. -/
theorem potential_connectTx {tx : CTransaction} (hr : ∀ out ∈ tx.vout, moneyRange out.nValue = true)
    (hnd : tx.isCoinBase = false → tx.prevouts.Nodup) (h : connectTx env pindex s tx = .ok s') :
    s'.view.potential + s'.nFees + valueRespent [tx] = s.view.potential + s.nFees := by
  cases hcb : tx.isCoinBase with
  | true =>
    obtain rfl := connectTx_coinbase hcb h
    simp [valueRespent, valueCreated, hcb]
  | false =>
    obtain ⟨w, fee, hin, hfees, -, hview, -⟩ := connectTx_regular hcb (hnd hcb) h
    have hreads := reads_of_checkTxInputs hin
    obtain ⟨-, hsp, -, valueOut, hvo, hfee, -⟩ := checkTxInputs_ok_iff.mp ⟨w, hin⟩
    obtain ⟨rfl, -⟩ := (CTransaction.getValueOut_eq_ok_iff hr valueOut).mp hvo
    have hun : ∀ o ∈ tx.prevouts, (w.peek o).isSpent = false := by
      refine forall_mem_map.mpr fun i hi => ?_
      rw [hreads.peek_eq]
      exact (hsp i hi).unspent
    rw [hview, CCoinsViewCache.potential_spendAll (hnd hcb) hun, hreads.potential_eq, hfees, hfee,
      valueIn_congr fun o _ => hreads.peek_eq o]
    simp only [valueRespent, valueCreated, filter_cons, hcb, Bool.not_false, if_true,
      filter_nil, map_cons, map_nil, sum_cons, sum_nil]
    ring

theorem potential_connectLoop {vtx : List CTransaction}
    (hr : ∀ tx ∈ vtx, ∀ out ∈ tx.vout, moneyRange out.nValue = true)
    (hnd : ∀ tx ∈ vtx, tx.isCoinBase = false → tx.prevouts.Nodup)
    (h : vtx.foldlM (connectTx env pindex) s = .ok s') :
    s'.view.potential + s'.nFees + valueRespent vtx = s.view.potential + s.nFees := by
  induction vtx generalizing s with
  | nil =>
    cases h
    simp [valueRespent, valueCreated]
  | cons tx vtx ih =>
    obtain ⟨hrtx, hr⟩ := forall_mem_cons.mp hr
    obtain ⟨hndtx, hnd⟩ := forall_mem_cons.mp hnd
    obtain ⟨t, hstep, hrun⟩ := foldlM_cons_ok.mp h
    have h1 := potential_connectTx hrtx hndtx hstep
    have h2 := ih hr hnd hrun
    have hsplit : valueRespent (tx :: vtx) = valueRespent [tx] + valueRespent vtx := by
      simp only [valueRespent, valueCreated]
      rw [← singleton_append, filter_append, map_append, sum_append]
    omega

end Loop

/-! ### A block -/

section Block

variable {env : Env} {p : Params} {block : CBlock} {pindex : CBlockIndex}
  {view : CCoinsViewCache UtxoSet}

/-- Between the outputs and the spent inputs only the coinbase and the fees
make a difference. -/
theorem potential_connectTransactions_le {s : ConnectState UtxoSet}
    (hshape : BlockShape block.vtx) (hv : view.Accounted)
    (h : connectTransactions env p block pindex view = .ok s) :
    s.view.potential + s.nFees ≤ view.potential + quantizedValueOut block.coinbaseOutputs := by
  obtain ⟨v₁, v₂, hreads, -, hadd, hloop⟩ := connectTransactions_ok h
  have h1 := (potential_foldlM_addCoins_le hshape.moneyRange (hreads.accounted hv) hadd).2
  have h2 := potential_connectLoop hshape.moneyRange hshape.nodup_prevouts hloop
  have hcb := hshape.head_coinbase
  have hreg := hshape.tail_regular
  rcases hvtx : block.vtx with _ | ⟨coinbase, rest⟩
  · exact absurd hvtx hshape.ne_nil
  rw [hvtx] at h1 h2 hcb hreg
  have hsplit : valueRespent (coinbase :: rest) = valueCreated rest := by
    rw [valueRespent, filter_cons_of_neg (by simpa using hcb),
      filter_eq_self.mpr fun tx htx => by simpa using hreg tx htx]
  have hcreated : valueCreated (coinbase :: rest) =
      quantizedValueOut block.coinbaseOutputs + valueCreated rest := by
    simp [valueCreated, CBlock.coinbaseOutputs, hvtx]
  rw [hreads.potential_eq] at h1
  simp only at h2
  omega

/-- The block reward equation, as a bound on the coinbase. -/
theorem coinbase_le_of_checkCoinbaseAmount {nFees nBlockSubsidy nColdReward nBudgetReward : Int}
    (hne : block.vtx ≠ []) (hr : ∀ out ∈ block.coinbaseOutputs, moneyRange out.nValue = true)
    (h : checkCoinbaseAmount block nFees nBlockSubsidy nColdReward nBudgetReward = .ok ()) :
    quantizedValueOut block.coinbaseOutputs ≤
      nFees + nBlockSubsidy + nColdReward + nBudgetReward := by
  unfold checkCoinbaseAmount at h
  obtain ⟨a, ha, h⟩ := bind_ok_iff.mp h
  obtain ⟨b, hb, h⟩ := bind_ok_iff.mp h
  obtain ⟨c, hc, h⟩ := bind_ok_iff.mp h
  obtain ⟨valueOut, hvo, h⟩ := bind_ok_iff.mp h
  have hle : valueOut ≤ c := by simpa using require_ok_iff.mp h
  obtain ⟨-, rfl⟩ := checkedAdd_eq_ok.mp ha
  obtain ⟨-, rfl⟩ := checkedAdd_eq_ok.mp hb
  obtain ⟨-, rfl⟩ := checkedAdd_eq_ok.mp hc
  rcases hvtx : block.vtx with _ | ⟨coinbase, rest⟩
  · exact absurd hvtx hne
  rw [hvtx] at hvo
  have hout : block.coinbaseOutputs = coinbase.vout := by simp [CBlock.coinbaseOutputs, hvtx]
  rw [hout] at hr ⊢
  obtain ⟨rfl, -⟩ := (CTransaction.getValueOut_eq_ok_iff hr valueOut).mp hvo
  exact hle

/-- A cold reward that a real validation passes is zero or the reward of an
active record. -/
theorem nColdReward_of_quickValidate {r r' : CColdRewards} {nHeight : Nat} {nColdReward : Int}
    (h : r.quickValidate p block nHeight false = (r', nColdReward, true)) :
    nColdReward = 0 ∨ ∃ (op : COutPoint) (val : CRewardValue), r.rewardMap[op]? = some val ∧
      val.active = true ∧
      nColdReward = calculateReward p val.height (nHeight - val.height) val.getValue := by
  rw [CColdRewards.quickValidate_eq] at h
  split at h
  · obtain ⟨-, hreward⟩ := Prod.mk.inj h
    obtain ⟨rfl, hok⟩ := Prod.mk.inj hreward
    obtain ⟨op, val, hval, hmatch⟩ := CColdRewards.checkReward_ok hok
    obtain ⟨hactive, -, -, hamount⟩ := CColdRewards.matchesPayment_iff.mp hmatch
    -- at the height of the purge the record has survived it
    exact .inr ⟨op, val, CColdRewards.getElem?_of_purged hval, hactive, hamount.symm⟩
  · obtain ⟨-, hreward⟩ := Prod.mk.inj h
    exact .inl (Prod.mk.inj hreward).1.symm

section Connected

variable {r : CColdRewards} {g₁ g' : Option CColdRewards} {s : ConnectState UtxoSet}
  {out : ConnectOutput UtxoSet}

section

variable (h : Connected env p block pindex view (some r) false false s g₁ g' out)
include h

theorem Connected.total_le (hw : view.Wf) (hv : view.CoinsWf) :
    out.view.total ≤
      view.total + out.nBlockSubsidy + out.nColdReward + out.nBudgetReward := by
  have hshape := blockShape_of_checkBlock h.checkBlock_ok
  have hpot := potential_connectTransactions_le hshape (hv.accounted hw.clean) h.transactions
  have hamount := coinbase_le_of_checkCoinbaseAmount hshape.ne_nil
    hshape.moneyRange_coinbaseOutputs h.amount
  have htotal : out.view.total ≤ s.view.potential := by
    rw [h.view_eq]
    exact s.view.total_le_potential
  rw [hw.potential_eq_total] at hpot
  rw [h.nFees_eq] at hamount
  omega

theorem Connected.nColdReward_eq : if p.isSuperBlock pindex.nHeight then out.nColdReward = 0
    else out.nColdReward = 0 ∨ ∃ (op : COutPoint) (val : CRewardValue),
      r.rewardMap[op]? = some val ∧ val.active = true ∧
        out.nColdReward =
          calculateReward p val.height (pindex.nHeight - val.height) val.getValue := by
  have hcold := h.cold
  unfold coldRewardOf at hcold
  split at hcold
  next hsuper =>
    rw [if_pos hsuper]
    obtain ⟨-, hreward⟩ := Prod.mk.inj hcold
    exact (Prod.mk.inj hreward).1.symm
  next hsuper =>
    rw [if_neg hsuper]
    obtain ⟨-, hreward⟩ := Prod.mk.inj hcold
    obtain ⟨hreward, hok⟩ := Prod.mk.inj hreward
    have hrun : r.quickValidate p block pindex.nHeight false =
        ((r.quickValidate p block pindex.nHeight false).1, out.nColdReward, true) :=
      Prod.ext rfl (Prod.ext hreward hok)
    exact nColdReward_of_quickValidate hrun

/-- The budget that is granted is the sum of the payments due. -/
theorem Connected.nBudgetReward_issue :
    out.nBudgetReward = budgetIssue env.scriptFor p pindex.nHeight := by
  have hcheck := h.budget
  rw [h.nBlockSubsidy_eq] at hcheck
  by_cases hnil : computeSuperBlockPayments env.scriptFor p pindex.nHeight
      (getBlockSubsidy pindex.nHeight p) = []
  · have hzero : 0 = out.nBudgetReward := by simpa [checkSuperBlockBudget, hnil] using hcheck
    simp [budgetIssue, hnil, ← hzero]
  · exact ((checkSuperBlockBudget_spec hnil hcheck).2.mp rfl).2

end

end Connected

/-- **The supply.** A block accepted with the engine in charge adds at most the subsidy, the cold
reward and the budget to the value of the unspent coins; the cold reward is the due reward of an
active candidate, and none on a superblock; the budget is none off superblocks; and no sum of
amounts overflows, for any block on the same view. -/
theorem connectBlock_supply (hp : p.IsDeVault) (hw : view.Wf) (hv : view.CoinsWf)
    {r : CColdRewards} {g' : Option CColdRewards} {out : ConnectOutput UtxoSet}
    (h : connectBlock env p block pindex view (some r) false false = (g', .ok out)) :
    out.view.total ≤
        view.total + getBlockSubsidy pindex.nHeight p + out.nColdReward + out.nBudgetReward ∧
    (p.isSuperBlock pindex.nHeight = true → out.nColdReward = 0) ∧
    (p.isSuperBlock pindex.nHeight = false → out.nColdReward = 0 ∨
      ∃ (op : COutPoint) (val : CRewardValue), r.rewardMap[op]? = some val ∧ val.active = true ∧
        out.nColdReward =
          calculateReward p val.height (pindex.nHeight - val.height) val.getValue) ∧
    (p.isSuperBlock pindex.nHeight = false → out.nBudgetReward = 0) ∧
    ∀ env block pindex g suppress fJustCheck,
      (connectBlock env p block pindex view g suppress fJustCheck).2 ≠ .error .overflow := by
  have hsub := (hp.getBlockSubsidy_bounds pindex.nHeight).1
  rw [← and_assoc, ← and_assoc, ← and_assoc]
  refine ⟨?_, ?_⟩
  · -- the genesis block adds no coins
    by_cases hgen : block.hash = p.hashGenesisBlock
    · obtain ⟨-, rfl⟩ := connectBlock_genesis_ok h hgen
      refine ⟨⟨⟨?_, fun _ => rfl⟩, fun _ => .inl rfl⟩, fun _ => rfl⟩
      have hsame : (view.setBestBlock pindex.hash).total = view.total := rfl
      simp only [Bool.false_eq_true, if_false, hsame]
      omega
    · obtain ⟨s, g₁, hconn⟩ := connectBlock_ok h hgen
      have hcold := hconn.nColdReward_eq
      refine ⟨⟨⟨?_, fun hsuper => ?_⟩, fun hsuper => ?_⟩,
        fun hsuper => hconn.nBudgetReward_issue.trans (budgetIssue_of_not_superBlock _ hsuper)⟩
      · rw [← hconn.nBlockSubsidy_eq]
        exact hconn.total_le hw hv
      · rwa [if_pos hsuper] at hcold
      · rwa [if_neg (by simp [hsuper])] at hcold
  · intro env block pindex g suppress fJustCheck hover
    have havoids : Outcome.Avoids (· = Fault.overflow)
        (connectBlock env p block pindex view g suppress fJustCheck).2 := by
      refine connectBlock_avoids ?_ hp env pindex hv g suppress fJustCheck
        fun tx _ hcommon => sumValueOut_avoids_overflow (moneyRange_of_common hcommon)
          moneyRange_zero
      rintro _ rfl
      rfl
    exact havoids _ hover rfl

end Block

/-- A block at height 21926 of the test network pays `nColdReward` for the only record of the
engine, which is of height 10. -/
def payRecord (value nColdReward : Int) :
    Option CColdRewards × Except Fault (ConnectOutput UtxoSet) :=
  connectBlock Env.permissive testNetParams
    { hash := 1, hashPrevBlock := 2
      vtx := [coinbaseTx 1 [{ nValue := 0, scriptPubKey := [] },
        { nValue := nColdReward, scriptPubKey := [0x51] }]] }
    (uniformIndex 21926 1 2) (emptyViewAt 2)
    (some ((CColdRewards.init testNetParams).putInMap ⟨7, 0⟩
      (CRewardValue.new { nValue := value, scriptPubKey := [0x51] } 10 10 10))) false false

theorem nColdReward_payRecord :
    (payRecord (25000 * coin) 3125142000000).2.toOption.map (·.nColdReward) =
      some 3125142000000 ∧
    (payRecord maxMoney 65543966974000000).2.toOption.map (·.nColdReward) =
      some 65543966974000000 := by
  have hBIP30 : enforceBIP30 testNetParams (uniformIndex 21926 1 2) = true :=
    enforceBIP30_uniformIndex (by decide) (by decide) (by decide)
  simp only [payRecord, connectBlock, connectTransactions, hBIP30]
  exact ⟨by decide +kernel, by decide +kernel⟩

/-- A record of 25000 coins is paid its reward. -/
theorem connectBlock_supply_paidRecord :
    ∃ g' out, payRecord (25000 * coin) 3125142000000 = (g', .ok out) ∧
      out.nColdReward = 3125142000000 ∧
      out.view.total ≤ (emptyViewAt 2).total + getBlockSubsidy 21926 testNetParams +
        out.nColdReward + out.nBudgetReward := by
  have hpaid := nColdReward_payRecord.1
  generalize hrun : payRecord (25000 * coin) 3125142000000 = run at hpaid ⊢
  obtain ⟨g', result⟩ := run
  obtain ⟨out, hout, hcold⟩ := Option.map_eq_some_iff.mp hpaid
  obtain rfl := Outcome.ok_of_toOption hout
  exact ⟨g', out, rfl, hcold, (connectBlock_supply (.inr (.inl rfl)) (CCoinsViewCache.Wf.ofBase _ _)
    (CCoinsViewCache.CoinsWf.ofBase _ _) hrun).1⟩

/-- **The product of an accepted reward can leave `int64_t`**: all the money is one record, and
what is left of its reward after the overflow is paid. -/
theorem connectBlock_rewardOverflows :
    (payRecord maxMoney 65543966974000000).2.toOption.map (·.nColdReward) =
      some 65543966974000000 ∧
    ¬FitsInt64 testNetParams 10 21916 maxMoney :=
  ⟨nColdReward_payRecord.2, fun h => absurd h.product (by decide)⟩

/-! ### The supply of a chain -/

namespace ChainState

variable {env : Env} {p : Params}

/-- The cold rewards of those blocks that are accepted. -/
def coldRewards (env : Env) (p : Params) : ChainState → List CBlock → Int
  | _, [] => 0
  | s, block :: blocks =>
    (match
      (connectBlock env p block (s.tip.next block.hash) s.view (some s.rewards) false false).2 with
      | .ok out => out.nColdReward
      | .error _ => 0) + coldRewards env p (s.connectTip env p block).1 blocks

/-- What the coins are worth beyond the subsidies and budgets up to the tip. -/
def surplus (env : Env) (p : Params) (s : ChainState) : Int :=
  s.view.total - totalIssued env.scriptFor p s.tip.nHeight

theorem total_view (s : ChainState) :
    s.view.total = Ledger.weight CCoinsViewCache.coinValue s.utxo.coins :=
  congrArg _ (CCoinsViewCache.utxo_ofBase s.utxo 0)

theorem surplus_connectTip_le (hp : p.IsDeVault) (s : ChainState) (block : CBlock) :
    (s.connectTip env p block).1.surplus env p ≤ s.surplus env p + s.coldRewards env p [block] := by
  simp only [coldRewards, add_zero]
  unfold connectTip
  split
  next hrun =>
    simp only [hrun, add_zero]
    exact le_rfl
  next g out hrun =>
  have hissued : totalIssued env.scriptFor p (s.tip.next block.hash).nHeight =
      totalIssued env.scriptFor p s.tip.nHeight + (_ + _) :=
    Finset.sum_Icc_succ_top (Nat.le_add_left 1 s.tip.nHeight) _
  simp only [hrun, surplus, hissued]
  rw [total_view]
  change out.view.total - _ ≤ _
  by_cases hgen : block.hash = p.hashGenesisBlock
  · obtain ⟨-, rfl⟩ := connectBlock_genesis_ok hrun hgen
    obtain ⟨hs0, hs⟩ := hp.getBlockSubsidy_bounds (s.tip.nHeight + 1)
    have hbudget : 0 ≤ budgetIssue env.scriptFor p (s.tip.nHeight + 1) :=
      sum_nonneg (forall_mem_map.mpr fun q hq =>
        ((computeSuperBlockPayments_bounds env.scriptFor hp _ hs0 hs).2 q hq).1)
    change s.view.total - _ ≤ _ + 0
    omega
  · obtain ⟨t, g₁, hconn⟩ := connectBlock_ok hrun hgen
    have hle := hconn.total_le s.wf_view s.coinsWf_view
    rw [hconn.nBlockSubsidy_eq, hconn.nBudgetReward_issue] at hle
    simp only [CBlockIndex.next] at hle
    omega

/-- **The supply of a chain.** Whatever blocks are offered, all coins together are worth at most
`MAX_MONEY` and the cold rewards paid. -/
theorem total_le_maxMoney (hp : p.IsDeVault) (blocks : List CBlock) :
    ((genesis p).connectAll env p blocks).view.total ≤
      maxMoney + (genesis p).coldRewards env p blocks := by
  have hrun : ∀ s : ChainState, (s.connectAll env p blocks).surplus env p ≤
      s.surplus env p + s.coldRewards env p blocks := by
    induction blocks with
    | nil => exact fun s => (add_zero _).ge
    | cons block blocks ih =>
      intro s
      have hstep := @surplus_connectTip_le env p hp s block
      have hrest := ih (s.connectTip env p block).1
      simp only [coldRewards] at hstep ⊢
      exact hrest.trans (by omega)
  have hstart : (genesis p).surplus env p = 0 := by
    rw [surplus, total_view]
    simp [genesis, UtxoSet.empty, totalIssued]
  have hend := hrun (genesis p)
  rw [hstart, surplus] at hend
  have hcap := totalIssued_le env.scriptFor hp ((genesis p).connectAll env p blocks).tip.nHeight
  omega

theorem total_le_maxMoney_firstBlock :
    let blocks := [firstBlock mainParams [{ nValue := 500 * coin, scriptPubKey := [0x51] }]]
    ((genesis mainParams).connectAll Env.permissive mainParams blocks).view.total ≤
      maxMoney + (genesis mainParams).coldRewards Env.permissive mainParams blocks :=
  total_le_maxMoney (.inl rfl) _

end ChainState

end DeVault
