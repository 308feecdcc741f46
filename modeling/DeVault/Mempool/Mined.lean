import DeVault.Mempool.Accept

/-!
# A coin in the pool and the coin when it is mined

A transaction that spends an output of the pool is checked twice on two different
coins. `AcceptToMemoryPool` sees the output as it stands in the transaction;
`ConnectBlock` sees the coin that `AddCoins` stored, whose value is rounded up to a
spock.
-/

namespace DeVault

open List Outcome

/-- Term by term smaller sums are equal only if all terms are. -/
theorem sum_map_eq_iff_of_le {α : Type} {l : List α} {f g : α → Int} (h : ∀ a ∈ l, f a ≤ g a) :
    (l.map g).sum = (l.map f).sum ↔ ∀ a ∈ l, g a = f a := by
  induction l with
  | nil => simp
  | cons a l ih =>
    obtain ⟨ha, hl⟩ := forall_mem_cons.mp h
    have hle : (l.map f).sum ≤ (l.map g).sum := sum_le_sum hl
    rw [map_cons, map_cons, sum_cons, sum_cons, forall_mem_cons, ← ih hl]
    constructor
    · intro heq
      exact ⟨by omega, by omega⟩
    · rintro ⟨h₁, h₂⟩
      omega

section Before

variable {B : Type} [CCoinsView B]

/-- `ConnectBlock` from the BIP30 check through some of its transactions. -/
def connectBefore (env : Env) (p : Params) (block : CBlock) (pindex : CBlockIndex)
    (view : CCoinsViewCache B) (done : List CTransaction) : Except Fault (ConnectState B) := do
  let view ← (if enforceBIP30 p pindex then checkBIP30 view block else .ok view :
    Except Fault (CCoinsViewCache B))
  let view ← addAllCoins view block pindex.nHeight
  done.foldlM (connectTx env pindex) { view := view }

variable {env : Env} {p : Params} {block : CBlock} {pindex : CBlockIndex}
  {view : CCoinsViewCache B} {s : ConnectState B} {done rest : List CTransaction}
  {tx : CTransaction}

/-- The loop of an accepted block stops before each transaction, and the view shows what it showed
at the start, without what was spent. -/
theorem exists_connectBefore (hshape : BlockShape block.vtx) (hw : view.Wf)
    (hnew : NoOverwrite view block.vtx pindex.nHeight)
    (h : connectTransactions env p block pindex view = .ok s)
    (hvtx : block.vtx = done ++ tx :: rest) :
    ∃ t t', connectBefore env p block pindex view done = .ok t ∧
      connectTx env pindex t tx = .ok t' ∧
      (∀ o c, t.view.lookup o = some c →
        (createdBy block.vtx pindex.nHeight o).or (view.lookup o) = some c) ∧
      ∀ parent ∈ block.vtx, ∀ o c, parent.createdCoin pindex.nHeight o = some c →
        createdBy block.vtx pindex.nHeight o = some c := by
  unfold connectTransactions at h
  obtain ⟨v₁, hbip, h⟩ := bind_ok_iff.mp h
  obtain ⟨v₂, hadd, hloop⟩ := bind_ok_iff.mp h
  have hfold := addAllCoins_ok hadd
  have hreads : CCoinsViewCache.Reads view v₁ := by
    split at hbip
    · exact (noOverwrite_of_checkBIP30 hbip pindex.nHeight).1
    · exact Except.ok.inj hbip ▸ .refl
  rw [hvtx, foldlM_append] at hloop
  obtain ⟨t, hdone, hloop⟩ := bind_ok_iff.mp hloop
  obtain ⟨t', hstep, -⟩ := foldlM_cons_ok.mp hloop
  refine ⟨t, t', ?_, hstep, ?_, ?_⟩
  · exact bind_ok hbip (bind_ok hadd hdone)
  · intro o c hlook
    have hwf := wf_foldlM_addCoins hshape.tail_regular (hreads.wf hw) (hnew.congr hreads.lookup_eq)
      hfold
    have hnd : ∀ tx ∈ done, tx.isCoinBase = false → tx.prevouts.Nodup :=
      fun tx htx => hshape.nodup_prevouts tx (hvtx ▸ mem_append_left _ htx)
    have hspec := connectLoop_spec hnd hwf hdone
    rw [hspec.lookup_eq] at hlook
    split at hlook
    · cases hlook
    · rw [← hlook, ← hreads.lookup_eq, ← lookup_foldlM_addCoins hshape.tail_regular hfold]
  · exact fun parent hparent o c hc => createdBy_eq_of_mem hshape.tail_regular hfold hparent hc

end Before

variable (pool : CTxMemPool)

section Mined

variable {D : Type} [CCoinsView D]

/-- The transaction is mined on top of what it was accepted on. `tip` are the coins below the block.
The block creates no coin that is there; an input that comes from the pool is created by the block
or was created before it; any other input is as it was. -/
structure MinedIn (node : MempoolNode D) (tx : CTransaction) (block : CBlock)
    (tip : CCoinsViewCache D) (nHeight : Nat) : Prop where
  noOverwrite : NoOverwrite ({ base := tip } : CCoinsViewCache (CCoinsViewCache D)) block.vtx
    nHeight
  fromPool : ∀ o ∈ tx.prevouts, ∀ parent, node.pool.get o.txid = some parent →
    parent ∈ block.vtx ∨ ∃ h, tip.lookup o = parent.createdCoin h o
  onChain : ∀ o ∈ tx.prevouts, node.pool.get o.txid = none →
    tip.lookup o = node.pcoinsTip.lookup o

/-- The outpoint is not one of the pool, or its output there is a whole number of
spocks. -/
def AlignedAt (o : COutPoint) : Prop :=
  ∀ parent, pool.get o.txid = some parent →
    ∀ out, parent.vout[o.n]? = some out → SpockAligned out.nValue

/-- Every output of the pool that the transaction spends is a whole number of spocks. -/
def AlignedInputs (tx : CTransaction) : Prop :=
  ∀ o ∈ tx.prevouts, AlignedAt pool o

/-! ### The two coins of one outpoint -/

theorem quantized_eq_self_iff {out : CTxOut} : out.quantized = out ↔ SpockAligned out.nValue := by
  rw [← spockQuantize_eq_self_iff]
  refine ⟨congrArg CTxOut.nValue, fun h => ?_⟩
  rw [CTxOut.quantized, h]

/-- The coin that a mined transaction of the pool leaves at a spendable output. -/
theorem createdCoin_of_get {pool : CTxMemPool} {o : COutPoint} {parent : CTransaction}
    {out : CTxOut} (hget : pool.get o.txid = some parent) (hout : parent.vout[o.n]? = some out)
    (hu : isUnspendable out.scriptPubKey = false) (nHeight : Nat) :
    parent.createdCoin nHeight o = some ⟨out.quantized, nHeight, parent.isCoinBase⟩ := by
  have hid : o.txid = parent.getId := (CTxMemPool.getId_of_get hget).symm
  rw [CTransaction.createdCoin, if_pos hid, hout]
  exact if_neg (by rw [hu]; decide)

variable {env : MempoolEnv} {node node' : MempoolNode D} {tx : CTransaction} {call : AcceptCall}
  {nFees : Int} {o : COutPoint}

theorem lookup_view (node : MempoolNode D) (o : COutPoint) :
    node.view.lookup o =
      CCoinsView.getCoin (⟨node.pcoinsTip, node.pool⟩ : CCoinsViewMemPool (CCoinsViewCache D)) o :=
  CCoinsViewCache.lookup_of_uncached (by simp [MempoolNode.view])

/-- An input that the acceptance found in the pool: an output of its parent, as it
stands there. -/
theorem Spendable.output_of_get {nSpendHeight : Nat} (h : Spendable node.view nSpendHeight o)
    {parent : CTransaction} (hget : node.pool.get o.txid = some parent) :
    ∃ out, parent.vout[o.n]? = some out ∧ (node.view.peek o).out = out ∧
      isUnspendable out.scriptPubKey = false := by
  have hlook := h.lookup
  rw [lookup_view, CCoinsViewMemPool.getCoin_of_get hget] at hlook
  obtain ⟨out, hout, hcoin⟩ := Option.map_eq_some_iff.mp hlook
  have hpeek : (node.view.peek o).out = out := by rw [← hcoin]
  exact ⟨out, hout, hpeek, hpeek ▸ h.spendable⟩

/-- How the coin of an input changed from the acceptance to the block: an output of the pool was
rounded. -/
def RoundedFrom (o : COutPoint) (before after : CTxOut) : Prop :=
  match pool.get o.txid with
  | some parent => parent.vout[o.n]? = some before ∧ after = before.quantized
  | none => after = before

/-- **The two coins of an input.** `c` is a coin over the created coins of the block
and the coins it is connected to. -/
theorem MinedIn.roundedFrom {block : CBlock} {tip : CCoinsViewCache D} {nHeight : Nat}
    (hmined : MinedIn node tx block tip nHeight) (ho : o ∈ tx.prevouts) {nSpendHeight : Nat}
    (hsp : Spendable node.view nSpendHeight o)
    (hunique : ∀ parent ∈ block.vtx, ∀ c, parent.createdCoin nHeight o = some c →
      createdBy block.vtx nHeight o = some c) {c : Coin}
    (hc : (createdBy block.vtx nHeight o).or (tip.lookup o) = some c) :
    RoundedFrom node.pool o (node.view.peek o).out c.out := by
  -- a coin that was there before the block is not created by it
  have hold : ∀ c', tip.lookup o = some c' → c = c' := by
    intro c' hc'
    cases hcreated : createdBy block.vtx nHeight o with
    | none =>
      rw [hcreated, Option.none_or, hc'] at hc
      exact (Option.some.inj hc).symm
    | some c₁ =>
      have hnone := hmined.noOverwrite o (by rw [hcreated]; rfl)
      rw [CCoinsViewCache.lookup_of_uncached (by simp)] at hnone
      cases hc'.symm.trans hnone
  unfold RoundedFrom
  split
  next parent hget =>
    obtain ⟨out, hout, hpeek, hu⟩ := hsp.output_of_get hget
    rw [hpeek]
    refine ⟨hout, ?_⟩
    obtain hin | ⟨h, hbefore⟩ := hmined.fromPool o ho parent hget
    · rw [hunique parent hin _ (createdCoin_of_get hget hout hu nHeight)] at hc
      rw [← Option.some.inj hc]
    · rw [createdCoin_of_get hget hout hu] at hbefore
      rw [hold _ hbefore]
  next hget =>
    have hlook := hsp.lookup
    rw [lookup_view, CCoinsViewMemPool.getCoin_of_get_none hget] at hlook
    rw [hold _ ((hmined.onChain o ho hget).trans hlook)]

/-- Rounding raises a value, and keeps it exactly if it is a whole number of spocks. -/
theorem RoundedFrom.compare {pool : CTxMemPool} {before after : CTxOut}
    (h : RoundedFrom pool o before after) :
    before.nValue ≤ after.nValue ∧ (after.nValue = before.nValue ↔ AlignedAt pool o) ∧
      (AlignedAt pool o → after = before) := by
  unfold RoundedFrom at h
  split at h
  next parent hget =>
    obtain ⟨hout, rfl⟩ := h
    have haligned : AlignedAt pool o ↔ SpockAligned before.nValue := by
      refine ⟨fun hal => hal parent hget before hout, ?_⟩
      intro hal parent' hget' out hout'
      obtain rfl : parent = parent' := Option.some.inj (hget.symm.trans hget')
      rwa [← Option.some.inj (hout.symm.trans hout')]
    rw [haligned]
    exact ⟨le_spockQuantize _, spockQuantize_eq_self_iff _, quantized_eq_self_iff.mpr⟩
  next hget =>
    obtain rfl := h
    have haligned : AlignedAt pool o := by
      intro parent hparent
      cases hget.symm.trans hparent
    exact ⟨le_refl _, ⟨fun _ => haligned, fun _ => rfl⟩, fun _ => rfl⟩

/-! ### The two checks of a transaction -/

variable {cenv : Env} {p : Params} {block : CBlock} {pindex : CBlockIndex}
  {tip : CCoinsViewCache D} {s : ConnectState (CCoinsViewCache D)} {done rest : List CTransaction}

/-- **The coins at its turn.** When the block comes to the transaction, every input has its coin of
the acceptance, rounded if it is from the pool. -/
theorem AcceptedTx.coins_at_turn (hacc : AcceptedTx env node node' tx call nFees)
    (hshape : BlockShape block.vtx)
    (hconn : connectTransactions cenv p block pindex { base := tip } = .ok s)
    (hvtx : block.vtx = done ++ tx :: rest) (hmined : MinedIn node tx block tip pindex.nHeight) :
    ∃ t w fee, connectBefore cenv p block pindex { base := tip } done = .ok t ∧
      checkTxInputs tx t.view pindex.nHeight = .ok (w, fee) ∧
      ∀ o ∈ tx.prevouts, RoundedFrom node.pool o (node.view.peek o).out (t.view.peek o).out := by
  obtain ⟨t, t', hbefore, hstep, hshown, hunique⟩ :=
    exists_connectBefore hshape (CCoinsViewCache.Wf.ofBase _ _) hmined.noOverwrite hconn hvtx
  obtain ⟨hcb, hsp, -⟩ := checkTxInputs_ok_iff.mp hacc.inputs
  have hin : tx ∈ block.vtx := hvtx ▸ mem_append_right _ mem_cons_self
  obtain ⟨w, fee, hinputs, -⟩ := connectTx_regular hcb (hshape.nodup_prevouts tx hin hcb) hstep
  refine ⟨t, w, fee, hbefore, hinputs, fun o ho => ?_⟩
  obtain ⟨i, hi, rfl⟩ := mem_map.mp ho
  have hturn := ((checkTxInputs_ok_iff.mp ⟨w, hinputs⟩).2.1 i hi).lookup
  have hover := hshown _ _ hturn
  rw [CCoinsViewCache.lookup_of_uncached (by simp)] at hover
  exact hmined.roundedFrom ho (hsp i hi) (fun parent hp c hc => hunique parent hp _ c hc) hover

/-- The fees of the two checks are equal exactly if the coins are whole spocks. -/
theorem fee_eq_iff_aligned {B : Type} [CCoinsView B] {v w : CCoinsViewCache B}
    {nSpendHeight : Nat} {fee : Int}
    (hacc : ∃ w, checkTxInputs tx node.view (node.tip.nHeight + 1) = .ok (w, nFees))
    (hfee : checkTxInputs tx v nSpendHeight = .ok (w, fee))
    (hcoins : ∀ o ∈ tx.prevouts, RoundedFrom node.pool o (node.view.peek o).out (v.peek o).out) :
    fee = nFees ↔ AlignedInputs node.pool tx := by
  obtain ⟨-, -, -, valueOut, hout, hnFees, -⟩ := checkTxInputs_ok_iff.mp hacc
  obtain ⟨-, -, -, valueOut', hout', hfee, -⟩ := checkTxInputs_ok_iff.mp ⟨w, hfee⟩
  obtain rfl : valueOut = valueOut' := Except.ok.inj (hout.symm.trans hout')
  calc fee = nFees
      ↔ valueIn v tx.prevouts = valueIn node.view tx.prevouts := by omega
    _ ↔ ∀ o ∈ tx.prevouts, (v.peek o).out.nValue = (node.view.peek o).out.nValue :=
        sum_map_eq_iff_of_le fun o ho => (hcoins o ho).compare.1
    _ ↔ AlignedInputs node.pool tx :=
        forall₂_congr fun o ho => (hcoins o ho).compare.2.1

/-- The signed data of the two checks are equal exactly if the coins are whole spocks. -/
theorem forkIdPreimage_eq_iff_aligned {B : Type} [CCoinsView B] {v : CCoinsViewCache B}
    (hcoins : ∀ o ∈ tx.prevouts, RoundedFrom node.pool o (node.view.peek o).out (v.peek o).out) :
    (∀ nIn (h : nIn < tx.vin.length) scriptCode sigHashType flags,
      forkIdPreimage scriptCode (.ofView tx v nIn h) sigHashType flags =
        forkIdPreimage scriptCode (.ofView tx node.view nIn h) sigHashType flags) ↔
      AlignedInputs node.pool tx := by
  constructor
  · intro hsame o ho
    refine (hcoins o ho).compare.2.1.mp ?_
    obtain ⟨i, hi, rfl⟩ := mem_map.mp ho
    obtain ⟨⟨nIn, h⟩, rfl⟩ := get_of_mem hi
    obtain ⟨pre, hpre, hvalue⟩ := exists_forkIdPreimage (v := v) h [] ⟨0⟩ 0
    obtain ⟨pre', hpre', hvalue'⟩ :=
      exists_forkIdPreimage (v := node.view) h [] ⟨0⟩ 0
    have heq : pre = pre' := by
      have := hsame nIn h [] ⟨0⟩ 0
      rw [hpre, hpre'] at this
      exact Except.ok.inj this
    rw [heq] at hvalue
    exact hvalue.symm.trans hvalue'
  · intro haligned nIn h scriptCode sigHashType flags
    refine forkIdPreimage_congr (fun i hi => ?_) h scriptCode sigHashType flags
    have ho : i.prevout ∈ tx.prevouts := mem_map_of_mem hi
    exact (hcoins _ ho).compare.2.2 (haligned _ ho)

/-- **When the pool and the chain agree on a coin.** The output that the pool shows is the one that
`AddCoins` stores when the transaction is mined, exactly if it is a whole number of spocks. And an
accepted transaction, mined on top of what it was accepted on, has the fee of the acceptance in the
block, and its signatures are checked on the same data, exactly if what it spends from the pool are
whole spocks. -/
theorem mempoolCoins_agree_iff (env : MempoolEnv) (node : MempoolNode D) :
    (∀ (o : COutPoint) (parent : CTransaction) (out : CTxOut),
      node.pool.get o.txid = some parent → parent.vout[o.n]? = some out →
      isUnspendable out.scriptPubKey = false →
      ∀ {B : Type} [CCoinsView B] (cache cache' : CCoinsViewCache B) (nHeight : Nat),
        addCoins cache parent nHeight false = .ok cache' →
        ((CCoinsView.getCoin node.view.base o).map (·.out) = (cache'.lookup o).map (·.out) ↔
          SpockAligned out.nValue)) ∧
    ∀ (tx : CTransaction) (call : AcceptCall) (node' : MempoolNode D),
      acceptToMemoryPoolWorker env node tx call = (node', .ok ()) →
      ∃ nFees, AcceptedTx env node node' tx call nFees ∧
        ∀ (cenv : Env) (p : Params) (block : CBlock) (pindex : CBlockIndex)
          (tip : CCoinsViewCache D) (g g' : Option CColdRewards) (suppress fJustCheck : Bool)
          (out : ConnectOutput (CCoinsViewCache D)) (done rest : List CTransaction),
          connectBlock cenv p block pindex { base := tip } g suppress fJustCheck = (g', .ok out) →
          block.hash ≠ p.hashGenesisBlock → block.vtx = done ++ tx :: rest →
          MinedIn node tx block tip pindex.nHeight →
          ∃ t w fee, connectBefore cenv p block pindex { base := tip } done = .ok t ∧
            checkTxInputs tx t.view pindex.nHeight = .ok (w, fee) ∧
            (fee = nFees ↔ AlignedInputs node.pool tx) ∧
            ((∀ nIn (h : nIn < tx.vin.length) scriptCode sigHashType flags,
              forkIdPreimage scriptCode (.ofView tx t.view nIn h) sigHashType flags =
                forkIdPreimage scriptCode (.ofView tx node.view nIn h) sigHashType flags) ↔
              AlignedInputs node.pool tx) := by
  refine ⟨?_, ?_⟩
  · intro o parent out hget hout hu B _ cache cache' nHeight hadd
    have hpool : CCoinsView.getCoin node.view.base o = some ⟨out, mempoolHeight, false⟩ := by
      rw [CCoinsViewMemPool.getCoin_of_get hget, hout]
      rfl
    rw [hpool, lookup_addCoins hadd, createdCoin_of_get hget hout hu]
    show some out = some out.quantized ↔ _
    rw [Option.some_inj, eq_comm, quantized_eq_self_iff]
  · intro tx call node' hrun
    obtain ⟨nFees, hacc⟩ := acceptToMemoryPoolWorker_ok hrun
    refine ⟨nFees, hacc, ?_⟩
    intro cenv p block pindex tip g g' suppress fJustCheck out done rest hblock hgen hvtx hmined
    obtain ⟨s, g₁, hconn⟩ := connectBlock_ok hblock hgen
    have hshape := blockShape_of_checkBlock hconn.checkBlock_ok
    obtain ⟨t, w, fee, hbefore, hinputs, hcoins⟩ :=
      hacc.coins_at_turn hshape hconn.transactions hvtx hmined
    exact ⟨t, w, fee, hbefore, hinputs, fee_eq_iff_aligned hacc.inputs hinputs hcoins,
      forkIdPreimage_eq_iff_aligned hcoins⟩

end Mined

/-! ### A parent and a child

The tip is the first block, and one coin of 10 is there. A parent pays `value` of it,
and a child spends that while the parent waits in the pool. Then a block has both. -/

variable (value : Int)

namespace ParentChild

/-- An environment whose other checks pass. -/
def env : MempoolEnv where
  ctx := .ofTimes (fun _ => 0) fun _ => 0
  verifyScript := fun _ _ => .ok 1
  scriptVerifyFlags := 0
  nextBlockScriptVerifyFlags := 0
  fRequireStandard := true
  isStandardTx := fun _ _ => none
  areInputsStandard := fun _ _ _ => true
  checkSequenceLocks := fun _ => true
  feeDelta := fun _ => 0
  minRelayFee := fun nSize => 1000 * nSize
  mempoolRejectFee := fun _ => 0
  getVirtualTransactionSize := fun nSize _ => nSize
  checkTxTokens := fun _ _ => none
  limitSize := fun _ => []

/-- The script of all outputs. -/
def script : CScript := replicate 60 0x51

/-- `pcoinsTip` at the first block, with the one coin. -/
def pcoinsTip : CCoinsViewCache CCoinsViewDB :=
  { base := (CCoinsViewDB.empty 1).writeEntry
      (⟨7, 0⟩, ⟨⟨⟨10 * coin, script, none⟩, 1, false⟩, true, false⟩) }

/-- The node with an empty pool. -/
def start : MempoolNode CCoinsViewDB :=
  { pcoinsTip := pcoinsTip, tip := firstIndex mainParams 1, pool := .empty, scriptCache := [] }

/-- It spends the confirmed coin. -/
def parent : CTransaction :=
  { vin := [{ prevout := ⟨7, 0⟩ }], vout := [{ nValue := value, scriptPubKey := script }]
    hash := 8 }

/-- It spends the output of `parent`. -/
def child : CTransaction :=
  { vin := [{ prevout := ⟨8, 0⟩ }], vout := [{ nValue := 5 * coin, scriptPubKey := script }]
    hash := 9 }

/-- The node once the parent was offered, and once the child was. -/
def withParent : MempoolNode CCoinsViewDB :=
  (acceptToMemoryPoolWorker env start (parent value) {}).1

/-- Both transactions are in the pool. -/
def withChild : MempoolNode CCoinsViewDB :=
  (acceptToMemoryPoolWorker env (withParent value) child {}).1

/-- The coinbase of the new block. -/
def coinbase : CTransaction := coinbaseTx 3 [{ nValue := 500 * coin, scriptPubKey := script }]

/-- The block that mines both. -/
def block : CBlock :=
  { hash := 2, hashPrevBlock := 1, vtx := [coinbase, parent value, child] }

/-- Its index entry. -/
def index : CBlockIndex := (firstIndex mainParams 1).next 2

/-- Whether the pool took both, and a block with both is accepted. -/
def accepted : Bool :=
  (acceptToMemoryPoolWorker env start (parent value) {}).2.isOk &&
    (acceptToMemoryPoolWorker env (withParent value) child {}).2.isOk &&
    (connectBlock Env.permissive mainParams (block value) index { base := pcoinsTip }
      none false false).2.isOk

/-- The fee of the child in the pool. -/
def poolFee : Option Int :=
  (withChild value).pool.mapTx[child.getId]?.map (·.nFee)

/-- The state of `ConnectBlock` when it comes to the child. -/
def atChild : Option (ConnectState (CCoinsViewCache CCoinsViewDB)) :=
  (connectBefore Env.permissive mainParams (block value) index { base := pcoinsTip }
    [coinbase, parent value]).toOption

/-- The fee of the child in the block. -/
def blockFee : Option Int :=
  (atChild value).bind fun t =>
    (checkTxInputs child t.view index.nHeight).toOption.map (·.2)

/-- The block is mined on top of what the child was accepted on. -/
theorem minedIn (hget : (withParent value).pool.get 8 = some (parent value))
    (hcreated : ∀ o ∈ createdOutpoints (block value).vtx,
      ({ base := pcoinsTip } : CCoinsViewCache (CCoinsViewCache CCoinsViewDB)).lookup o = none) :
    MinedIn (withParent value) child (block value) pcoinsTip index.nHeight where
  noOverwrite := fun o ho => hcreated o (mem_createdOutpoints_iff.mpr ho)
  fromPool := by
    intro o ho parent' hparent
    obtain rfl : o = ⟨8, 0⟩ := by simpa [child, CTransaction.prevouts] using ho
    obtain rfl : parent value = parent' := Option.some.inj (hget.symm.trans hparent)
    exact Or.inl (by simp [block])
  onChain := by
    intro o ho hnone
    obtain rfl : o = ⟨8, 0⟩ := by simpa [child, CTransaction.prevouts] using ho
    cases hget.symm.trans hnone

/-- The amount that the signature of the child commits to, over a view. -/
def signedAmount {B : Type} [CCoinsView B] (view : CCoinsViewCache B) : Option Int :=
  (forkIdPreimage script (.ofView child view 0 (by decide)) ⟨0x41⟩ 0).toOption.map (·.nValue)

end ParentChild

open ParentChild in
/-- With a parent that pays 9 coins, the block computes the fee of the pool and checks
the child on the same data. -/
theorem mempoolCoins_agree_nineCoins :
    ∃ nFees, AcceptedTx env (withParent (9 * coin)) (withChild (9 * coin)) child {} nFees ∧
      ∃ t w, connectBefore Env.permissive mainParams (block (9 * coin)) index
          { base := pcoinsTip } [coinbase, parent (9 * coin)] = .ok t ∧
        checkTxInputs child t.view index.nHeight = .ok (w, nFees) := by
  have hpool : (acceptToMemoryPoolWorker env (withParent (9 * coin)) child {}).2.isOk = true := by
    decide +kernel
  have hok : (connectBlock Env.permissive mainParams (block (9 * coin)) index
      { base := pcoinsTip } none false false).2.isOk = true := by decide +kernel
  have hget : (withParent (9 * coin)).pool.get 8 = some (parent (9 * coin)) := by decide +kernel
  obtain ⟨g', out, hconn⟩ := exists_of_connectBlock_isOk hok
  have hrun : acceptToMemoryPoolWorker env (withParent (9 * coin)) child {} =
      (withChild (9 * coin), .ok ()) := by
    obtain ⟨u, hu⟩ := Outcome.exists_of_isOk hpool
    exact Prod.ext rfl hu
  have haligned : AlignedInputs (withParent (9 * coin)).pool child := by
    intro o ho parent' hparent out hout
    obtain rfl : o = ⟨8, 0⟩ := by simpa [child, CTransaction.prevouts] using ho
    obtain rfl : parent (9 * coin) = parent' := Option.some.inj (hget.symm.trans hparent)
    cases hout
    show SpockAligned (9 * coin)
    decide
  have hmined := minedIn (9 * coin) hget (by decide +kernel)
  obtain ⟨nFees, hacc, hblocks⟩ :=
    (mempoolCoins_agree_iff env (withParent (9 * coin))).2 child {} _ hrun
  obtain ⟨t, w, fee, hbefore, hinputs, hfee, -⟩ := hblocks Env.permissive mainParams
    (block (9 * coin)) index pcoinsTip none g' false false out [coinbase, parent (9 * coin)] []
    hconn (by decide) rfl hmined
  rw [hfee.mpr haligned] at hinputs
  exact ⟨nFees, hacc, t, w, hbefore, hinputs⟩

open ParentChild in
/-- One satoshi over a whole number of spocks: the block sees a larger coin, a larger fee and
another signed amount. -/
theorem mempoolCoins_differ :
    accepted (9 * coin + 1) = true ∧
      poolFee (9 * coin + 1) = some (4 * coin + 1) ∧
      blockFee (9 * coin + 1) = some (4 * coin + spockSats) ∧
      signedAmount (withParent (9 * coin + 1)).view = some (9 * coin + 1) ∧
      (atChild (9 * coin + 1)).bind (fun t => signedAmount t.view) =
        some (9 * coin + spockSats) := by
  decide +kernel

end DeVault
