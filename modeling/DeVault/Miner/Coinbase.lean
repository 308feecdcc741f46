import DeVault.Mempool.Mined
import DeVault.Validation.FillerChain

/-!
# The coinbase of a new block (`miner.cpp`, `devault/budget.cpp`)

`CreateNewBlock` pays the fees and the subsidy to the miner. On a superblock it appends the budget,
on any other height the cold reward that `FindReward` selects. `ConnectBlock` looks for the budget
again, takes the value of the second output for the cold reward, and compares `GetValueOut` with
the sum of the four rewards.

The two sides do not see the same numbers: `GetValueOut` rounds every output up to a spock, while
`ConnectBlock` adds exact values. The subsidy, the budget and the cold rewards are whole spocks, so
only the fees could be rounded. They are not: every coin was made by `AddCoins` from an output of
the chain (`AcceptedChain.exists_createdCoin`), so it is a whole number of spocks.
-/

namespace DeVault

open List CCoinsViewCache
open CoinsTip (genesis)

/-! ### What `CreateNewBlock` builds -/

/-- `CBlockTemplateEntry`: a transaction with the fee of its entry in the pool. -/
structure CBlockTemplateEntry where
  tx : CTransaction
  fees : Int

/-- The outputs of the coinbase of `CreateNewBlock`, with what `FindReward` leaves of the engine. -/
def createCoinbaseOutputs (scriptFor : String → CScript) (p : Params) (g : Option CColdRewards)
    (scriptPubKeyIn : CScript) (nFees : Int) (nHeight : Nat) : Option CColdRewards × List CTxOut :=
  let nBlockSubsidy := getBlockSubsidy nHeight p
  let vout : List CTxOut :=
    [{ nValue := nFees + nBlockSubsidy, scriptPubKey := scriptPubKeyIn }]
  match fillSuperBlockBudget scriptFor p vout nHeight nBlockSubsidy with
  | (vout, true) => (g, vout)
  | (vout, false) =>
    match g with
    | some r =>
      let (r, vout) := r.fillPayments p vout nHeight
      (some r, vout)
    | none => (none, vout)

/-! ### The cold reward -/

/-- A reward is a multiple of a hundredth of a coin, even after a wrap-around. -/
theorem spockAligned_calculateReward (p : Params) (height heightDiff balance : Int) :
    SpockAligned (calculateReward p height heightDiff balance) := by
  unfold calculateReward
  simp only
  generalize (balance.tdiv satoshi).tdiv _ = rewardPerBlock
  have hcoin : coin.tdiv satoshi = 100000000 := by decide
  have hcent : coin.tdiv 100 = 1000000 := by decide
  split
  · decide
  · rw [hcoin, hcent]
    -- the quotient is small enough for its product with a cent
    have hlow : -2 ^ 63 ≤ wrap64 (wrap64 (100 * heightDiff) * rewardPerBlock) := by
      have := Int.le_bmod (x := wrap64 (100 * heightDiff) * rewardPerBlock)
        (by norm_num : 0 < 2 ^ 64)
      norm_num at this
      exact this
    have hhigh : wrap64 (wrap64 (100 * heightDiff) * rewardPerBlock) < 2 ^ 63 := by
      have := Int.bmod_lt (x := wrap64 (100 * heightDiff) * rewardPerBlock)
        (by norm_num : 0 < 2 ^ 64)
      norm_num at this
      exact this
    generalize wrap64 (wrap64 (100 * heightDiff) * rewardPerBlock) = product at hlow hhigh
    have hquot : -(2 ^ 63 / 100000000 + 1) ≤ product.tdiv 100000000 ∧
        product.tdiv 100000000 ≤ 2 ^ 63 / 100000000 + 1 := by
      have hdiv := Int.mul_tdiv_add_tmod product 100000000
      have hlt := Int.tmod_lt_of_pos product (by norm_num : (0 : Int) < 100000000)
      have hgt := Int.lt_tmod_of_pos product (by norm_num : (0 : Int) < 100000000)
      omega
    rw [wrap64_of_range (by omega) (by omega), SpockAligned, spockSats]
    exact Int.tmod_eq_zero_of_dvd (Dvd.dvd.mul_left (by norm_num) _)

variable {p : Params}

/-- What `FindReward` selects is a whole number of spocks. -/
theorem CColdRewards.spockAligned_findReward {r r' : CColdRewards} {height : Nat}
    {payment : CTxOut} (h : r.findReward p height = (r', some payment)) :
    SpockAligned payment.nValue := by
  have hrun : ∀ (entries : List (COutPoint × CRewardValue)) (s : Selection),
      SpockAligned s.selAmount →
      SpockAligned
        (entries.foldl (findRewardStep p id r.nMinBlocks r.nMinReward height) s).selAmount := by
    intro entries
    induction entries with
    | nil => exact fun s hs => hs
    | cons entry entries ih =>
      intro s hs
      refine ih _ ?_
      unfold findRewardStep
      dsimp only
      split_ifs
      · exact hs
      · exact hs
      · exact spockAligned_calculateReward _ _ _ _
      · exact hs
      · exact hs
      · exact hs
  unfold findReward findRewardIn at h
  dsimp only at h
  split at h
  · obtain ⟨-, hpay⟩ := Prod.mk.inj h
    rw [← Option.some.inj hpay]
    exact hrun _ _ (show SpockAligned 0 by decide)
  · cases congrArg Prod.snd h

/-- The cold reward that `ConnectBlock` allows for is the second output, in whichever way it is
found. -/
theorem coldRewardOf_value (block : CBlock) (nHeight : Nat) (g : Option CColdRewards)
    (suppress fJustCheck : Bool) :
    (coldRewardOf p block nHeight g suppress fJustCheck).2.1 =
      if p.isSuperBlock nHeight then 0 else (block.coinbaseOutputs[1]?.map (·.nValue)).getD 0 := by
  unfold coldRewardOf
  split
  · rfl
  · cases g with
    | none => rfl
    | some r =>
      simp only [CColdRewards.quickValidate]
      split
      · rfl
      · cases block.coinbaseOutputs[1]? <;> rfl

variable {nHeight : Nat}

/-- **The outputs of a new coinbase**: that of the miner, and others of whole spocks that
`ConnectBlock` counts as budget and cold reward. -/
theorem createCoinbaseOutputs_cases (scriptFor : String → CScript) (hp : p.IsDeVault)
    (g : Option CColdRewards) (scriptPubKeyIn : CScript) (nFees : Int) (hh : nHeight < 2 ^ 31) :
    let miner : CTxOut := ⟨nFees + getBlockSubsidy nHeight p, scriptPubKeyIn, none⟩
    let payments := computeSuperBlockPayments scriptFor p nHeight (getBlockSubsidy nHeight p)
    let vout := (createCoinbaseOutputs scriptFor p g scriptPubKeyIn nFees nHeight).2
    (p.isSuperBlock nHeight = true ∧ vout = miner :: payments.map paymentOut) ∨
      (p.isSuperBlock nHeight = false ∧ payments = [] ∧
        (vout = [miner] ∨
          ∃ reward : CTxOut, vout = [miner, reward] ∧ SpockAligned reward.nValue)) := by
  intro miner payments vout
  cases hsuper : p.isSuperBlock nHeight with
  | true =>
    refine .inl ⟨rfl, ?_⟩
    have hne := computeSuperBlockPayments_ne_nil scriptFor hp hh hsuper (getBlockSubsidy nHeight p)
    show (createCoinbaseOutputs scriptFor p g scriptPubKeyIn nFees nHeight).2 = _
    simp only [createCoinbaseOutputs, fillSuperBlockBudget, List.isEmpty_iff, hne, if_false]
    rfl
  | false =>
    -- without a budget, the engine is asked for a reward
    have hnil : payments = [] := by
      show computeSuperBlockPayments scriptFor p nHeight (getBlockSubsidy nHeight p) = []
      simp [computeSuperBlockPayments, hsuper]
    refine .inr ⟨rfl, hnil, ?_⟩
    have hfill : fillSuperBlockBudget scriptFor p [miner] nHeight (getBlockSubsidy nHeight p) =
        ([miner], false) := by
      simp only [fillSuperBlockBudget]
      rw [show computeSuperBlockPayments scriptFor p nHeight
        (getBlockSubsidy nHeight p) = [] from hnil]
      rfl
    show (createCoinbaseOutputs scriptFor p g scriptPubKeyIn nFees nHeight).2 = [miner] ∨
      ∃ reward : CTxOut, (createCoinbaseOutputs scriptFor p g scriptPubKeyIn nFees nHeight).2 =
        [miner, reward] ∧ _
    simp only [createCoinbaseOutputs]
    rw [show fillSuperBlockBudget scriptFor p [⟨nFees + getBlockSubsidy nHeight p, scriptPubKeyIn,
      none⟩] nHeight (getBlockSubsidy nHeight p) = ([miner], false) from hfill]
    cases g with
    | none => exact .inl rfl
    | some r =>
      simp only [CColdRewards.fillPayments]
      cases hfind : r.findReward p nHeight with
      | mk r' payment =>
        cases payment with
        | none => exact .inl rfl
        | some reward => exact .inr ⟨reward, rfl, CColdRewards.spockAligned_findReward hfind⟩

/-! ### The fees -/

section Chain

variable {env : Env} {ctx : ContextualEnv} {p : Params} {blocks : List (Nat × CBlock)}
  {s : CoinsTip} {txs : List CTransaction}

/-- **Every coin of the chain was made by `AddCoins`** from an output of the chain. -/
theorem AcceptedChain.exists_createdCoin (hBIP34 : p.BIP34Height = 1)
    (h : AcceptedChain env ctx p blocks s) (hcf : CollisionFree (chainTxs blocks)) :
    ∀ o c, s.pcoinsTip.lookup o = some c →
      ∃ tx ∈ chainTxs blocks, ∃ nHeight, tx.createdCoin nHeight o = some c := by
  intro o c hc
  rw [h.lookup_eq hBIP34 hcf] at hc
  split at hc
  · cases hc
  obtain ⟨hb, hhb, hmade⟩ := exists_of_findSome?_eq_some hc
  obtain ⟨tx, htx, hmade⟩ := exists_of_findSome?_eq_some hmade
  exact ⟨tx, mem_flatMap.mpr ⟨hb, hhb, htx⟩, hb.1, hmade⟩

/-- The output of a transaction at an outpoint, as it stands or rounded to spocks. -/
def ShowsOutput (txs : List CTransaction) (o : COutPoint) (shown : CTxOut) : Prop :=
  ∃ tx ∈ txs, tx.getId = o.txid ∧ ∃ out, tx.vout[o.n]? = some out ∧
    (shown = out ∨ shown = out.quantized)

/-- **An entry of the pool with its fee.** A node with a chain of accepted blocks and a pool
accepted the transaction with this fee; `txs` has all transactions known then. -/
def AcceptedEntry (env : Env) (ctx : ContextualEnv) (p : Params) (txs : List CTransaction)
    (entry : CBlockTemplateEntry) : Prop :=
  ∃ (menv : MempoolEnv) (node node' : MempoolNode CCoinsViewDB) (call : AcceptCall)
    (blocks : List (Nat × CBlock)),
    AcceptedTx menv node node' entry.tx call entry.fees ∧
    AcceptedChain env ctx p blocks ⟨node.pcoinsTip, node.tip⟩ ∧
    (∀ tx ∈ chainTxs blocks, tx ∈ txs) ∧
    ∀ txid tx, node.pool.get txid = some tx → tx ∈ txs

/-- A coin that `AddCoins` made, in the terms of the transaction that made it. -/
theorem output_of_createdCoin {tx : CTransaction} {o : COutPoint} {c : Coin}
    (h : tx.createdCoin nHeight o = some c) :
    tx.getId = o.txid ∧ ∃ out, tx.vout[o.n]? = some out ∧ c.out = out.quantized := by
  unfold CTransaction.createdCoin at h
  split at h
  next hid =>
    refine ⟨hid.symm, ?_⟩
    cases hout : tx.vout[o.n]? with
    | none => simp [hout] at h
    | some out =>
      refine ⟨out, rfl, ?_⟩
      simp only [hout, Option.bind_some] at h
      split at h
      · cases h
      · rw [← Option.some.inj h]
  · cases h

/-- The acceptance computed the fee on outputs of known transactions. -/
theorem AcceptedEntry.inputs (hBIP34 : p.BIP34Height = 1) (hcf : CollisionFree txs)
    {entry : CBlockTemplateEntry} (h : AcceptedEntry env ctx p txs entry) :
    entry.tx.isCoinBase = false ∧ ∃ shown : COutPoint → CTxOut, ∃ valueOut,
      entry.tx.getValueOut = .ok valueOut ∧
      entry.fees = (entry.tx.prevouts.map fun o => (shown o).nValue).sum - valueOut ∧
      ∀ o ∈ entry.tx.prevouts, ShowsOutput txs o (shown o) := by
  obtain ⟨menv, node, node', call, blocks, hacc, hchain, hknown, hpool⟩ := h
  obtain ⟨hcb, hsp, -, valueOut, hout, hfee, -⟩ := checkTxInputs_ok_iff.mp hacc.inputs
  refine ⟨hcb, fun o => (node.view.peek o).out, valueOut, hout, hfee,
    forall_mem_map.mpr fun i hi => ?_⟩
  cases hget : node.pool.get i.prevout.txid with
  | some parent =>
    -- an output of the pool, as it stands
    obtain ⟨out, hvout, hpeek, -⟩ := (hsp i hi).output_of_get hget
    exact ⟨parent, hpool _ _ hget, CTxMemPool.getId_of_get hget, out, hvout, .inl hpeek⟩
  | none =>
    have hlook := (hsp i hi).lookup
    rw [lookup_view, CCoinsViewMemPool.getCoin_of_get_none hget] at hlook
    obtain ⟨tx, htx, nHeight, hmade⟩ :=
      hchain.exists_createdCoin hBIP34 (hcf.mono hknown) _ _ hlook
    obtain ⟨hid, out, hvout, hcoin⟩ := output_of_createdCoin hmade
    exact ⟨tx, hknown tx htx, hid, out, hvout, .inr hcoin⟩

/-- An output is at most what the chain makes of it. -/
theorem ShowsOutput.nValue_le (hcf : CollisionFree txs) {o : COutPoint} {shown : CTxOut} {c : Coin}
    {tx : CTransaction} (h : ShowsOutput txs o shown) (htx : tx ∈ txs)
    (hmade : tx.createdCoin nHeight o = some c) : shown.nValue ≤ c.out.nValue := by
  obtain ⟨tx', htx', hid', out, hout, hshown⟩ := h
  obtain ⟨hid, out', hout', hcoin⟩ := output_of_createdCoin hmade
  obtain rfl : tx' = tx := hcf.eq_of_getId tx' htx' tx htx (hid'.trans hid.symm)
  obtain rfl : out = out' := Option.some.inj (hout.symm.trans hout')
  rw [hcoin]
  rcases hshown with rfl | rfl
  · exact le_spockQuantize _
  · exact le_refl _

/-- **The fee of the block is at least the fee of the pool**, and whole spocks: `AddCoins` made all
coins at the turn of the transaction. -/
theorem AcceptedEntry.fees_le {B : Type} [CCoinsView B] (hBIP34 : p.BIP34Height = 1)
    (hcf : CollisionFree txs) {entry : CBlockTemplateEntry} (h : AcceptedEntry env ctx p txs entry)
    (hvout : ∀ out ∈ entry.tx.vout, moneyRange out.nValue = true) {v w : CCoinsViewCache B}
    {fee : Int} (hfee : checkTxInputs entry.tx v nHeight = .ok (w, fee))
    (hmade : ∀ o c, v.lookup o = some c →
      ∃ tx ∈ txs, ∃ nHeight, tx.createdCoin nHeight o = some c) :
    entry.fees ≤ fee ∧ spockSats ∣ fee := by
  obtain ⟨-, shown, valueOut, hout, hfees, hshown⟩ := h.inputs hBIP34 hcf
  obtain ⟨-, hsp, -, valueOut', hout', hfee', -⟩ := checkTxInputs_ok_iff.mp ⟨w, hfee⟩
  obtain rfl : valueOut = valueOut' := Except.ok.inj (hout.symm.trans hout')
  have hcoin : ∀ o ∈ entry.tx.prevouts,
      ∃ tx ∈ txs, ∃ nHeight, tx.createdCoin nHeight o = some (v.peek o) :=
    forall_mem_map.mpr fun i hi => hmade _ _ (hsp i hi).lookup
  constructor
  · have hle : (entry.tx.prevouts.map fun o => (shown o).nValue).sum ≤
        valueIn v entry.tx.prevouts := by
      refine sum_le_sum fun o ho => ?_
      obtain ⟨tx, htx, nHeight, hcreated⟩ := hcoin o ho
      exact (hshown o ho).nValue_le hcf htx hcreated
    omega
  · have hin : spockSats ∣ valueIn v entry.tx.prevouts := by
      refine dvd_sum (forall_mem_map.mpr fun o ho => ?_)
      obtain ⟨tx, htx, nHeight, hcreated⟩ := hcoin o ho
      obtain ⟨-, out, -, hquant⟩ := output_of_createdCoin hcreated
      rw [hquant]
      exact Int.dvd_of_tmod_eq_zero (spockAligned_spockQuantize _)
    have hpaid : spockSats ∣ valueOut := by
      rw [((CTransaction.getValueOut_eq_ok_iff hvout valueOut).mp hout).1]
      exact spockSats_dvd_quantizedValueOut _
    rw [hfee']
    exact dvd_sub hin hpaid

end Chain

/-! ### The block against the chain -/

theorem connectBefore_append {B : Type} [CCoinsView B] (block : CBlock)
    (pindex : CBlockIndex) (view : CCoinsViewCache B) (done : List CTransaction)
    (tx : CTransaction) :
    connectBefore env p block pindex view (done ++ [tx]) =
      connectBefore env p block pindex view done >>= fun t => connectTx env pindex t tx := by
  simp only [connectBefore, foldlM_append, foldlM_cons, foldlM_nil, bind_assoc, bind_pure]

/-- **A block that `CreateNewBlock` has put together**, on a chain of accepted blocks, of entries of
the pool that are not on the chain; `txs` has all transactions that ever come up. -/
structure Assembled (env : Env) (ctx : ContextualEnv) (p : Params) (txs : List CTransaction)
    (blocks : List (Nat × CBlock)) (s : CoinsTip) (g : Option CColdRewards)
    (scriptPubKeyIn : CScript) (entries : List CBlockTemplateEntry) (block : CBlock)
    (coinbase : CTransaction) : Prop where
  chain : AcceptedChain env ctx p blocks s
  chain_known : ∀ tx ∈ chainTxs blocks, tx ∈ txs
  height_lt : s.index.nHeight + 1 < 2 ^ 31
  vtx : block.vtx = coinbase :: entries.map (·.tx)
  known : ∀ tx ∈ block.vtx, tx ∈ txs
  new : ∀ tx ∈ block.vtx, ¬HasId (chainTxs blocks) tx.getId
  accepted : ∀ entry ∈ entries, AcceptedEntry env ctx p txs entry
  vout : coinbase.vout = (createCoinbaseOutputs env.scriptFor p g scriptPubKeyIn
    (entries.map (·.fees)).sum (s.index.nHeight + 1)).2

section Assembled

variable {env : Env} {ctx : ContextualEnv} {p : Params} {txs : List CTransaction}
  {blocks : List (Nat × CBlock)} {s : CoinsTip} {g : Option CColdRewards}
  {scriptPubKeyIn : CScript} {entries : List CBlockTemplateEntry} {block : CBlock}
  {coinbase : CTransaction} {t : ConnectState (CCoinsViewCache CCoinsViewDB)}

theorem coinbaseOutputs_eq (hvtx : block.vtx = coinbase :: entries.map (·.tx)) :
    block.coinbaseOutputs = coinbase.vout := by
  rw [CBlock.coinbaseOutputs, hvtx]
  rfl

variable (hBIP34 : p.BIP34Height = 1) (hcf : CollisionFree txs)
  (h : Assembled env ctx p txs blocks s g scriptPubKeyIn entries block coinbase)
  {pindex : CBlockIndex}

include hBIP34 hcf h

/-- A block of new transactions overwrites no coin. -/
theorem Assembled.noOverwrite (nHeight : Nat) :
    NoOverwrite ({ base := s.pcoinsTip } : CCoinsViewCache (CCoinsViewCache CCoinsViewDB)) block.vtx
      nHeight := by
  have inv := h.chain.tipInv hBIP34 (hcf.mono h.chain_known)
  intro o ho
  obtain ⟨tx, htx, hc⟩ := createdBy_isSome_iff.mp ho
  obtain ⟨c, hc⟩ := Option.isSome_iff_exists.mp hc
  rw [lookup_of_uncached (by simp), Option.eq_none_iff_forall_not_mem]
  intro c' hc'
  refine h.new tx htx ?_
  rw [(output_of_createdCoin hc).1]
  exact inv.hasId_of_lookup hc'

/-- **The fees of the block.** Those that the miner adds up are at most those that `ConnectBlock`
adds up, which are whole spocks. -/
theorem Assembled.fees_le
    (hshape : BlockShape block.vtx) (hcommon : ∀ tx ∈ block.vtx, checkTransactionCommon tx = .ok ())
    (hconn : connectTransactions env p block pindex { base := s.pcoinsTip } = .ok t) :
    (entries.map (·.fees)).sum ≤ t.nFees ∧ spockSats ∣ t.nFees := by
  have hnew := h.noOverwrite hBIP34 hcf pindex.nHeight
  have hcoinbase : coinbase.isCoinBase = true :=
    hshape.head_coinbase coinbase (by rw [h.vtx]; rfl)
  -- what the view shows on the way was made by a known transaction
  have hturn : ∀ done tx rest, block.vtx = done ++ tx :: rest →
      ∃ t t', connectBefore env p block pindex { base := s.pcoinsTip } done = .ok t ∧
        connectTx env pindex t tx = .ok t' ∧ ∀ o c, t.view.lookup o = some c →
          ∃ tx ∈ txs, ∃ nHeight, tx.createdCoin nHeight o = some c := by
    intro done tx rest hvtx
    obtain ⟨t, t', hbefore, hstep, hshown, -⟩ :=
      exists_connectBefore hshape (CCoinsViewCache.Wf.ofBase _ _) hnew hconn hvtx
    refine ⟨t, t', hbefore, hstep, fun o c hc => ?_⟩
    have hover := hshown o c hc
    rw [lookup_of_uncached (by simp), Option.or_eq_some_iff] at hover
    rcases hover with hnew | ⟨-, hold⟩
    · obtain ⟨tx, htx, hmade⟩ := exists_of_findSome?_eq_some hnew
      exact ⟨tx, h.known tx htx, _, hmade⟩
    · obtain ⟨tx, htx, hmade⟩ :=
        h.chain.exists_createdCoin hBIP34 (hcf.mono h.chain_known) o c hold
      exact ⟨tx, h.chain_known tx htx, hmade⟩
  -- the loop up to some entry, by induction on the entries that are done
  have hrun : ∀ done rest, entries = done ++ rest →
      ∃ t, connectBefore env p block pindex { base := s.pcoinsTip }
          (coinbase :: done.map (·.tx)) = .ok t ∧
        (done.map (·.fees)).sum ≤ t.nFees ∧ spockSats ∣ t.nFees := by
    intro done
    induction done using reverseRecOn with
    | nil =>
      intro rest _
      obtain ⟨t, t', hbefore, hstep, -⟩ := hturn [] coinbase _ h.vtx
      obtain rfl := connectTx_coinbase hcoinbase hstep
      have hzero : t'.nFees = 0 := by
        obtain ⟨v₁, -, hbefore⟩ := Outcome.bind_ok_iff.mp hbefore
        obtain ⟨v₂, -, hbefore⟩ := Outcome.bind_ok_iff.mp hbefore
        rw [← Except.ok.inj hbefore]
      refine ⟨t', ?_, by rw [hzero]; rfl, by rw [hzero]; exact dvd_zero _⟩
      show connectBefore env p block pindex { base := s.pcoinsTip } ([] ++ [coinbase]) = .ok t'
      rw [connectBefore_append, hbefore]
      exact hstep
    | append_singleton done entry ih =>
      intro rest hsplit
      have hentry : entry ∈ entries := by
        rw [hsplit]
        simp
      obtain ⟨t, hdone, hle, hdvd⟩ := ih (entry :: rest) (by rw [hsplit]; simp)
      have hvtx : block.vtx = (coinbase :: done.map (·.tx)) ++ entry.tx :: rest.map (·.tx) := by
        rw [h.vtx, hsplit]
        simp
      obtain ⟨t₁, t', hbefore, hstep, hmade⟩ := hturn _ _ _ hvtx
      obtain rfl : t₁ = t := Except.ok.inj (hbefore.symm.trans hdone)
      have hin : entry.tx ∈ block.vtx := by
        rw [hvtx]
        simp
      have hreg := ((h.accepted entry hentry).inputs hBIP34 hcf).1
      obtain ⟨w, fee, hfee, hsum, -⟩ :=
        connectTx_regular hreg (hshape.nodup_prevouts entry.tx hin hreg) hstep
      obtain ⟨hfees, halign⟩ := (h.accepted entry hentry).fees_le hBIP34 hcf
        (moneyRange_of_common (hcommon entry.tx hin)) hfee hmade
      refine ⟨t', ?_, ?_, ?_⟩
      · rw [map_append, map_singleton, ← cons_append, connectBefore_append, hdone]
        exact hstep
      · rw [map_append, sum_append, map_singleton, sum_singleton, hsum]
        exact add_le_add hle hfees
      · rw [hsum]
        exact dvd_add hdvd halign
  obtain ⟨t₁, hall, hresult⟩ := hrun entries [] (by simp)
  rw [← h.vtx] at hall
  obtain rfl : t₁ = t := Except.ok.inj (hall.symm.trans hconn)
  exact hresult

/-- **The coinbase of a new block is within the bound of `ConnectBlock`.** If the block has passed
`CheckBlock` and its transactions, the budget and the amount of the coinbase pass, whatever the
engine is and however the cold reward is found. -/
theorem Assembled.checkCoinbaseAmount_ok (hp : p.IsDeVault)
    (hnd : ((computeSuperBlockPayments env.scriptFor p (s.index.nHeight + 1)
      (getBlockSubsidy (s.index.nHeight + 1) p)).map Prod.fst).Nodup)
    (hscript : scriptPubKeyIn ∉ (computeSuperBlockPayments env.scriptFor p (s.index.nHeight + 1)
      (getBlockSubsidy (s.index.nHeight + 1) p)).map Prod.fst)
    {checkPoW checkMerkle : Bool} (hcheck : checkBlock env block checkPoW checkMerkle = .ok ())
    (hheight : pindex.nHeight = s.index.nHeight + 1)
    (hconn : connectTransactions env p block pindex { base := s.pcoinsTip } = .ok t)
    (engine : Option CColdRewards) (suppress fJustCheck : Bool) :
    ∃ nBudgetReward, checkSuperBlockBudget env.scriptFor p block.coinbaseOutputs pindex.nHeight
        (getBlockSubsidy pindex.nHeight p) = .ok (nBudgetReward, true) ∧
      checkCoinbaseAmount block t.nFees (getBlockSubsidy pindex.nHeight p)
        (coldRewardOf p block pindex.nHeight engine suppress fJustCheck).2.1 nBudgetReward =
          .ok () := by
  have hshape := blockShape_of_checkBlock hcheck
  have hcommon := common_of_checkBlock hcheck
  obtain ⟨hfees, hdvd⟩ := h.fees_le hBIP34 hcf hshape hcommon hconn
  have hnFees := moneyRange_nFees_connectTransactions hshape hconn
  have hcb : checkTransactionCommon coinbase = .ok () :=
    hcommon coinbase (by rw [h.vtx]; exact mem_cons_self)
  rw [hheight]
  set nHeight := s.index.nHeight + 1
  set nSubsidy := getBlockSubsidy nHeight p
  set nFees := (entries.map (·.fees)).sum
  obtain ⟨hs0, hs⟩ := hp.getBlockSubsidy_bounds nHeight
  obtain ⟨hbudget0, hbudget⟩ := sum_payments_range env.scriptFor nHeight hp hs0 hs
  have hsubsidy : moneyRange nSubsidy = true :=
    moneyRange_iff.mpr ⟨hs0, hs.trans (by decide)⟩
  have hminer : nFees + nSubsidy ≤ t.nFees + nSubsidy := by omega
  have hwhole : spockSats ∣ t.nFees + nSubsidy :=
    dvd_add hdvd (hp.spockSats_dvd_getBlockSubsidy _)
  rw [coinbaseOutputs_eq h.vtx, coldRewardOf_value, coinbaseOutputs_eq h.vtx]
  have hamount : ∀ (rest : List CTxOut) (nColdReward nBudgetReward : Int),
      coinbase.vout = ⟨nFees + nSubsidy, scriptPubKeyIn, none⟩ :: rest →
      (∀ out ∈ rest, SpockAligned out.nValue) → rawValueOut rest = nColdReward + nBudgetReward →
      moneyRange nColdReward = true → moneyRange nBudgetReward = true →
      checkCoinbaseAmount block t.nFees nSubsidy nColdReward nBudgetReward = .ok () := by
    intro rest nColdReward nBudgetReward hvout hrest hsum hcold hbudget
    exact checkCoinbaseAmount_of_rest h.vtx hvout hcb hrest hsum hnFees hsubsidy hcold hbudget
      hminer hwhole
  rcases createCoinbaseOutputs_cases env.scriptFor hp g scriptPubKeyIn nFees h.height_lt with
    ⟨hsuper, hvout⟩ | ⟨hsuper, hnone, hvout⟩
  · -- a superblock: the other outputs are the budget
    rw [← h.vout] at hvout
    refine ⟨((computeSuperBlockPayments env.scriptFor p nHeight nSubsidy).map Prod.snd).sum, ?_, ?_⟩
    · have hfill := checkSuperBlockBudget_fillSuperBlockBudget env.scriptFor nHeight hp
        hs0 hs hnd [⟨nFees + nSubsidy, scriptPubKeyIn, none⟩]
          (fun out hout => by rw [mem_singleton.mp hout]; exact hscript)
      rw [fillSuperBlockBudget_fst] at hfill
      rw [hvout]
      exact hfill
    · rw [if_pos hsuper]
      refine hamount _ _ _ hvout ?_ ?_ moneyRange_zero
        (moneyRange_iff.mpr ⟨hbudget0, hbudget.trans (by decide)⟩)
      · exact forall_mem_map.mpr fun q hq =>
          ((computeSuperBlockPayments_bounds env.scriptFor hp _ hs0 hs).2 q hq).2.2
      · rw [zero_add, rawValueOut, map_map]
        rfl
  · -- no budget; the second output, if there is one, is the cold reward
    rw [← h.vout] at hvout
    refine ⟨0, ?_, ?_⟩
    · rw [checkSuperBlockBudget, hnone]
      rfl
    · rw [if_neg (by rw [hsuper]; exact Bool.false_ne_true)]
      rcases hvout with hvout | ⟨reward, hvout, haligned⟩
      · rw [hvout]
        exact hamount [] 0 0 hvout (forall_mem_nil _) rfl moneyRange_zero moneyRange_zero
      · have hreward : moneyRange reward.nValue = true :=
          moneyRange_of_common hcb reward (by rw [hvout]; simp)
        rw [hvout]
        refine hamount [reward] reward.nValue 0 hvout (forall_mem_singleton.mpr haligned) ?_
          hreward moneyRange_zero
        rw [rawValueOut_cons, rawValueOut_nil]

end Assembled

/-! ### Mining and validation -/

/-- The addresses of one epoch have different scripts. -/
def DistinctScripts (scriptFor : String → CScript) (p : Params) : Prop :=
  ∀ epoch ∈ payouts, (epoch.budget.map fun b =>
    scriptFor (if p.strNetworkID != "main" then b.testNetAddress else b.mainNetAddress)).Nodup

instance (scriptFor : String → CScript) (p : Params) : Decidable (DistinctScripts scriptFor p) :=
  inferInstanceAs (Decidable (∀ epoch ∈ payouts, (epoch.budget.map fun b =>
    scriptFor (if p.strNetworkID != "main" then b.testNetAddress else b.mainNetAddress)).Nodup))

theorem DistinctScripts.nodup {scriptFor : String → CScript}
    (h : DistinctScripts scriptFor p) (nHeight : Nat) (nBlockSubsidy : Int) :
    ((computeSuperBlockPayments scriptFor p nHeight nBlockSubsidy).map Prod.fst).Nodup := by
  unfold computeSuperBlockPayments
  split
  · exact nodup_nil
  simp only [map_map]
  rcases budgetAt_eq_nil_or_mem p nHeight with hnil | ⟨epoch, hmem, hbudget⟩
  · rw [hnil]
    exact nodup_nil
  · rw [hbudget]
    exact h epoch hmem

/-- **No product of a payment leaves `int64_t`.** -/
structure PaymentFits (p : Params) (scale nBlockSubsidy percent : Int) : Prop where
  share : int64Range (percent * p.nBlocksPerPeriod) = true
  product : int64Range (percent * p.nBlocksPerPeriod * nBlockSubsidy.tdiv satoshi) = true
  divisor : int64Range (scale * coin.tdiv satoshi) = true
  payment : int64Range ((percent * p.nBlocksPerPeriod * nBlockSubsidy.tdiv satoshi).tdiv
    (scale * coin.tdiv satoshi) * coin) = true

theorem paymentFits (hp : p.IsDeVault) {nBlockSubsidy : Int}
    (hs0 : 0 ≤ nBlockSubsidy) (hs : nBlockSubsidy ≤ 750 * coin) {b : BudgetStruct}
    (hb : b ∈ budgetAt p nHeight) :
    PaymentFits p (scaleFactor (budgetAt p nHeight)) nBlockSubsidy b.percent := by
  rcases budgetAt_eq_nil_or_mem p nHeight with hnil | ⟨epoch, hmem, hbudget⟩
  · rw [hnil] at hb
    cases hb
  obtain ⟨-, hscale, hpercent⟩ := payouts_shares epoch hmem
  rw [hbudget] at hb ⊢
  obtain ⟨h0, h15⟩ := hpercent b hb
  obtain ⟨hprod0, hprod⟩ := budgetShare_bounds hs0 hs h0 h15
  have hsat : nBlockSubsidy.tdiv satoshi = nBlockSubsidy := by simp [satoshi]
  have hcoin : (coin.tdiv satoshi : Int) = 100000000 := by decide
  have hquot : (b.percent * 21915 * nBlockSubsidy).tdiv (55 * 100000000) =
      b.percent * 21915 * nBlockSubsidy / (55 * 100000000) :=
    Int.tdiv_eq_ediv_of_nonneg hprod0
  rw [hscale]
  constructor <;> rw [int64Range_iff] <;> try rw [hp.nBlocksPerPeriod_eq]
  · omega
  · rw [hsat]
    omega
  · rw [hcoin]
    norm_num
  · rw [hsat, hcoin, hquot]
    simp only [coin, satoshi]
    omega

/-- **Mining and validation agree on the coinbase.** With the parameters of the main or the test
network, and different scripts for the payees of an epoch:

* On a superblock, for a subsidy of the inflation curve and any coinbase that pays no budget script
  yet, `FillSuperBlockBudget` appends the payments and `CheckSuperBlockBudget` accepts the result
  with their sum. On another height the first changes nothing and the second accepts with zero. No
  product of a payment overflows.
* A block that `CreateNewBlock` has put together, with a miner's script that is no budget script,
  passes the budget check and the bound on the coinbase amount of `ConnectBlock`, once `CheckBlock`
  and the transactions have passed. -/
theorem createNewBlock_coinbase (env : Env) (ctx : ContextualEnv) {p : Params}
    (hp : p = mainParams ∨ p = testNetParams) (hdistinct : DistinctScripts env.scriptFor p) :
    (∀ nHeight < 2 ^ 31, ∀ nBlockSubsidy, 0 ≤ nBlockSubsidy → nBlockSubsidy ≤ 750 * coin →
      (∀ vout, p.isSuperBlock nHeight = true →
        (∀ out ∈ vout, out.scriptPubKey ∉
          (computeSuperBlockPayments env.scriptFor p nHeight nBlockSubsidy).map Prod.fst) →
        ∃ appended, fillSuperBlockBudget env.scriptFor p vout nHeight nBlockSubsidy =
            (vout ++ appended, true) ∧ appended ≠ [] ∧
          checkSuperBlockBudget env.scriptFor p (vout ++ appended) nHeight nBlockSubsidy =
            .ok (rawValueOut appended, true)) ∧
      (∀ vout, p.isSuperBlock nHeight = false →
        fillSuperBlockBudget env.scriptFor p vout nHeight nBlockSubsidy = (vout, false) ∧
        checkSuperBlockBudget env.scriptFor p vout nHeight nBlockSubsidy = .ok (0, true)) ∧
      ∀ b ∈ budgetAt p nHeight,
        PaymentFits p (scaleFactor (budgetAt p nHeight)) nBlockSubsidy b.percent) ∧
    ∀ txs blocks s g scriptPubKeyIn entries block coinbase, CollisionFree txs →
      Assembled env ctx p txs blocks s g scriptPubKeyIn entries block coinbase →
      scriptPubKeyIn ∉ (computeSuperBlockPayments env.scriptFor p (s.index.nHeight + 1)
        (getBlockSubsidy (s.index.nHeight + 1) p)).map Prod.fst →
      ∀ (checkPoW checkMerkle : Bool) (pindex : CBlockIndex)
        (t : ConnectState (CCoinsViewCache CCoinsViewDB)),
        checkBlock env block checkPoW checkMerkle = .ok () →
        pindex.nHeight = s.index.nHeight + 1 →
        connectTransactions env p block pindex { base := s.pcoinsTip } = .ok t →
        ∀ (engine : Option CColdRewards) (suppress fJustCheck : Bool),
          ∃ nBudgetReward, checkSuperBlockBudget env.scriptFor p block.coinbaseOutputs
              pindex.nHeight (getBlockSubsidy pindex.nHeight p) = .ok (nBudgetReward, true) ∧
            checkCoinbaseAmount block t.nFees (getBlockSubsidy pindex.nHeight p)
              (coldRewardOf p block pindex.nHeight engine suppress fJustCheck).2.1 nBudgetReward =
                .ok () := by
  have hdv : p.IsDeVault := hp.imp id .inl
  have hBIP34 : p.BIP34Height = 1 := by rcases hp with rfl | rfl <;> rfl
  constructor
  · intro nHeight hh nBlockSubsidy hs0 hs
    refine ⟨?_, ?_, fun b hb => paymentFits hdv hs0 hs hb⟩
    · -- no output of the coinbase but the new ones pays a budget script
      intro vout hsuper hother
      have hne := computeSuperBlockPayments_ne_nil env.scriptFor hdv hh hsuper nBlockSubsidy
      have hcheck := checkSuperBlockBudget_fillSuperBlockBudget env.scriptFor nHeight hdv hs0 hs
        (hdistinct.nodup nHeight nBlockSubsidy) vout hother
      rw [fillSuperBlockBudget_fst] at hcheck
      refine ⟨_, ?_, ?_, hcheck.trans ?_⟩
      · simp only [fillSuperBlockBudget, List.isEmpty_iff, hne, if_false]
        rfl
      · exact fun hnil => hne (map_eq_nil_iff.mp hnil)
      · rw [rawValueOut, map_map]
        rfl
    · intro vout hsuper
      have hnil : computeSuperBlockPayments env.scriptFor p nHeight nBlockSubsidy = [] := by
        simp [computeSuperBlockPayments, hsuper]
      simp [fillSuperBlockBudget, checkSuperBlockBudget, hnil]
  · intro txs blocks s g scriptPubKeyIn entries block coinbase hcf h hscript checkPoW checkMerkle
      pindex t hcheck hheight hconn engine suppress fJustCheck
    exact h.checkCoinbaseAmount_ok hBIP34 hcf hdv (hdistinct.nodup _ _) hscript hcheck hheight hconn
      engine suppress fJustCheck

/-! ### New blocks on filler blocks -/

/-- The coinbase that `CreateNewBlock` builds when the pool has `spender`. -/
def newCoinbase (g : Option CColdRewards) (nHeight : Nat) : CTransaction where
  vin := (fillerCoinbase nHeight).vin
  vout := (createCoinbaseOutputs asciiBytes mainParams g fillerScript (100 * coin) nHeight).2
  hash := nHeight

/-- The block that `CreateNewBlock` builds when the pool has `spender`. -/
def newBlock (g : Option CColdRewards) (nHeight : Nat) : CBlock where
  hash := nHeight
  hashPrevBlock := nHeight - 1
  vtx := [newCoinbase g nHeight, spender]

/-- An engine with one record, of 25000 coins from height 10. -/
def oneRecordEngine : CColdRewards :=
  (CColdRewards.init mainParams).putInMap ⟨7, 0⟩
    (CRewardValue.new { nValue := 25000 * coin, scriptPubKey := [0x51] } 10 10 10)

/-- The pool of a node with filler blocks takes `spender` in, with a fee of 100 coins. -/
theorem acceptedEntry_spender {n : Nat} {s : CoinsTip} {txs : List CTransaction} (h : Filled n s)
    (hmature : 100 ≤ n) (hlt : n + 1 < 2 ^ 31)
    (hknown : ∀ tx ∈ chainTxs (fillerBlocks n), tx ∈ txs) :
    AcceptedEntry fillerEnv fillerCtx mainParams txs ⟨spender, 100 * coin⟩ := by
  have hregular : checkRegularTransaction spender = .ok () := by decide +kernel
  have hkey : isKeyInScriptCache [(⟨spender.getId, 0⟩, 1)] ⟨spender.getId, 0⟩ = some 1 := by decide
  let entry : CTxMemPoolEntry := ⟨spender, 100 * coin, 0, true, 1⟩
  let node : MempoolNode CCoinsViewDB := ⟨s.pcoinsTip, s.index, .empty, []⟩
  refine ⟨ParentChild.env, node,
    { node with
      pool := node.pool.addUnchecked entry hregular, scriptCache := [(⟨spender.getId, 0⟩, 1)] },
    {}, fillerBlocks n, ⟨hregular, ?_, ⟨1, hkey⟩, fun _ => ⟨entry, ?_, rfl, rfl⟩⟩, h.chain, hknown,
    nofun⟩
  · have hcoin : node.view.lookup ⟨1, 0⟩ = some firstCoin := by
      rw [lookup_view, CCoinsViewMemPool.getCoin_of_get_none (by rfl)]
      exact h.first_coin (by omega)
    refine exists_checkTxInputs_spender hcoin ?_ ?_ <;>
      · rw [h.nHeight_eq]
        omega
  · exact Std.ExtTreeMap.getElem?_insert_self

/-- The new block is put together by `CreateNewBlock`, and connects. -/
theorem assembled_newBlock {n : Nat} {s : CoinsTip} (h : Filled n s)
    (hmature : 100 ≤ n) (hlt : n + 1 < 2 ^ 31) (hc : NextCoinbase n (newCoinbase g (n + 1))) :
    Assembled fillerEnv fillerCtx mainParams
      ((newBlock g (n + 1)).vtx ++ chainTxs (fillerBlocks n)) (fillerBlocks n) s g fillerScript
      [⟨spender, 100 * coin⟩] (newBlock g (n + 1)) (newCoinbase g (n + 1)) where
  chain := h.chain
  chain_known := fun tx htx => mem_append_right _ htx
  height_lt := by rw [h.nHeight_eq]; exact hlt
  vtx := rfl
  known := fun tx htx => mem_append_left _ htx
  new := by
    have hnew : ∀ tx ∈ (newBlock g (n + 1)).vtx, n < tx.getId :=
      forall_mem_cons.mpr ⟨hc.lt_getId, forall_mem_singleton.mpr hc.getId_lt⟩
    rintro tx htx ⟨tx', htx', heq⟩
    obtain ⟨k, -, hk, rfl⟩ := mem_chainTxs_fillerBlocks.mp htx'
    exact absurd ((hnew tx htx).trans_eq heq.symm) (Nat.not_lt.mpr hk)
  accepted := forall_mem_singleton.mpr
    (acceptedEntry_spender h hmature hlt fun tx htx => mem_append_right _ htx)
  vout := by rw [h.nHeight_eq]; rfl

/-- On the chain up to height `n` the new block connects with a fee of 100 coins, and its coinbase
is within what the two rewards allow. -/
def ConnectsNewBlock (g : Option CColdRewards) (n : Nat) (nColdReward nBudgetReward : Int) : Prop :=
  ∃ s t, Filled n s ∧
    connectTransactions fillerEnv mainParams (newBlock g (n + 1)) (s.index.next (n + 1))
      { base := s.pcoinsTip } = .ok t ∧ t.nFees = 100 * coin ∧
    checkCoinbaseAmount (newBlock g (n + 1)) t.nFees (getBlockSubsidy (n + 1) mainParams)
      nColdReward nBudgetReward = .ok ()

/-- The block with `spender` at the first superblock has a budget of 9897608 coins, and the one at
height 21930 a reward of 312.57 coins. Both pass. -/
theorem createNewBlock_coinbase_spending :
    ConnectsNewBlock none 21914 0 989760800000000 ∧
      ConnectsNewBlock (some oneRecordEngine) 21929 31257000000 0 := by
  have hrun : ∀ g n nColdReward nBudgetReward, 100 ≤ n → n + 1 < 2 ^ 31 →
      (∀ out ∈ (newCoinbase g (n + 1)).vout, 0 ≤ out.nValue) →
      checkBlock fillerEnv (newBlock g (n + 1)) true true = .ok () →
      checkSuperBlockBudget asciiBytes mainParams (newBlock g (n + 1)).coinbaseOutputs (n + 1)
        (getBlockSubsidy (n + 1) mainParams) = .ok (nBudgetReward, true) →
      (coldRewardOf mainParams (newBlock g (n + 1)) (n + 1) g false false).2.1 = nColdReward →
      ConnectsNewBlock g n nColdReward nBudgetReward := by
    intro g n nColdReward nBudgetReward hmature hlt hnonneg hcheck hbudget hcold
    obtain ⟨s, h⟩ := exists_filled (Nat.lt_of_succ_lt hlt)
    have hc : NextCoinbase n (newCoinbase g (n + 1)) := by
      refine ⟨isCoinBase_fillerCoinbase (n + 1), hnonneg, Nat.lt_succ_self n, ?_, ?_⟩
      · exact (Nat.lt_of_succ_lt hlt).trans (by decide)
      · exact (hlt.trans (by decide)).ne
    obtain ⟨t, ht, hfees⟩ := h.exists_connectTransactions_spending hc hmature hlt
      (show (newBlock g (n + 1)).vtx = _ from rfl)
    have hscript : fillerScript ∉ (paymentsAt (n + 1)).map Prod.fst := by
      intro hmem
      obtain ⟨q, hq, heq⟩ := mem_map.mp hmem
      exact ((paymentsAt_scripts (n + 1)).2 q hq).2 heq
    have hassembled := assembled_newBlock h hmature hlt hc
    obtain rfl := h.nHeight_eq
    obtain ⟨budget, hfound, hamount⟩ :=
      (createNewBlock_coinbase fillerEnv fillerCtx (.inl rfl) (by decide +kernel)).2 _ _ s g _ _ _ _
        hc.collisionFree hassembled hscript true true (s.index.next (s.index.nHeight + 1)) t hcheck
        rfl ht g false false
    have hsame : (nBudgetReward, true) = (budget, true) :=
      Except.ok.inj (hbudget.symm.trans hfound)
    rw [(Prod.mk.inj hsame).1, ← hcold]
    exact ⟨s, t, h, ht, hfees, hamount⟩
  constructor
  · exact hrun none 21914 _ _ (by decide) (by decide) (by decide +kernel) (by decide +kernel)
      (by decide +kernel) (by decide +kernel)
  · exact hrun (some oneRecordEngine) 21929 _ _ (by decide) (by decide) (by decide +kernel)
      (by decide +kernel) (by decide +kernel) (by decide +kernel)

end DeVault
