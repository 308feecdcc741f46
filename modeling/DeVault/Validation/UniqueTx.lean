import DeVault.CoinsStack
import DeVault.Validation.ContextualCheck

/-!
# No transaction comes twice

From the BIP34 height on, `ConnectBlock` may skip the BIP30 look-up: if all ids
on a chain are different, no output of a new block can meet a coin. This file
proves that they are, for chains on which every coinbase starts with its height.

The hash is taken to be collision free (`CollisionFree`): two transactions with
one id are one transaction, and no id depends on itself through the inputs.

The invariant is `TipInv`. A new coinbase differs from all others by the height it
pushes. A regular transaction that came before has spent its inputs, and a spent
outpoint never shows a coin again (`TipInv.unspent`), so the input must be created
by the same block, by a transaction that also came before; this descends through
the inputs and must end.

The coinbase of the genesis block pushes the number 486604799 first, which is a height: the coinbase
of the block at that height may be a copy of it. Its outputs are not among the coins, so nothing is
overwritten then.
-/

namespace DeVault

open List hiding lookup_eq_some_iff
open Option Outcome CCoinsViewCache CTransaction

variable {B : Type} [CCoinsView B]

/-! ### Views between the two loops

What follows does not ask the flags of the cache to be right. -/

namespace CCoinsViewCache

variable {v v' : CCoinsViewCache B} {o : COutPoint} {c : Coin}

/-- Spending reveals at most what is below. -/
theorem shown_of_lookup_spendCoin {a : COutPoint} (h : (v.spendCoin a).1.lookup o = some c) :
    v.lookup o = some c ∨ CCoinsView.getCoin v.base o = some c := by
  by_cases hao : a = o
  · subst hao
    cases hc : (v.spendCoin a).1.cacheCoins[a]? with
    | none =>
      rw [lookup_of_uncached hc, base_spendCoin] at h
      exact .inr h
    | some e =>
      -- an entry that stays is empty
      refine absurd h ?_
      rw [lookup_of_cached hc]
      rw [spendCoin_eq] at hc
      cases hf : v.find a with
      | none =>
        rw [hf] at hc
        rw [find_of_cached hc] at hf
        cases hf
      | some e' =>
        rw [hf] at hc
        cases hfresh : e'.fresh with
        | true => simp [hfresh] at hc
        | false =>
          simp only [hfresh, Bool.false_eq_true, if_false, Ledger.getElem?_insert, if_true,
            some.injEq] at hc
          subst hc
          simp
  · rw [lookup_congr (find_spendCoin_of_ne hao)] at h
    exact .inl h

theorem shown_of_lookup_spendAll {os : List COutPoint} (h : (v.spendAll os).lookup o = some c) :
    v.lookup o = some c ∨ CCoinsView.getCoin v.base o = some c := by
  induction os generalizing v with
  | nil => exact .inl h
  | cons a os ih =>
    rw [spendAll_cons] at h
    rcases ih h with hlook | hbase
    · exact shown_of_lookup_spendCoin hlook
    · rw [base_spendCoin] at hbase
      exact .inr hbase

end CCoinsViewCache

variable {env : Env} {pindex : CBlockIndex} {s : ConnectState B} {o : COutPoint}

/-- Whatever a block spends was shown by the view before the loop, or is below it. -/
theorem shown_of_connectLoop {vtx : List CTransaction}
    (hnd : ∀ tx ∈ vtx, tx.isCoinBase = false → tx.prevouts.Nodup) {s' : ConnectState B}
    (h : vtx.foldlM (connectTx env pindex) s = .ok s') (ho : o ∈ spentBy vtx) :
    ∃ c, s.view.lookup o = some c ∨ CCoinsView.getCoin s.view.base o = some c := by
  induction vtx generalizing s with
  | nil => cases ho
  | cons tx vtx ih =>
    obtain ⟨t, hstep, hrun⟩ := foldlM_cons_ok.mp h
    have hrest : ∀ tx ∈ vtx, tx.isCoinBase = false → tx.prevouts.Nodup :=
      fun tx htx => hnd tx (mem_cons_of_mem _ htx)
    cases hcb : tx.isCoinBase with
    | true =>
      obtain rfl := connectTx_coinbase hcb hstep
      rw [spentBy_cons_coinbase hcb] at ho
      exact ih hrest hrun ho
    | false =>
      obtain ⟨v, fee, hin, -, -, hview, -⟩ :=
        connectTx_regular hcb (hnd tx mem_cons_self hcb) hstep
      have hreads := reads_of_checkTxInputs hin
      rw [spentBy_cons_regular hcb, mem_append] at ho
      rcases ho with ho | ho
      · -- an input of this transaction is spendable in the view it finds
        obtain ⟨-, hsp, -⟩ := checkTxInputs_ok_iff.mp ⟨v, hin⟩
        obtain ⟨txin, htxin, rfl⟩ := mem_map.mp ho
        exact ⟨_, .inl (hsp txin htxin).lookup⟩
      · obtain ⟨c, hc⟩ := ih hrest hrun ho
        refine ⟨c, ?_⟩
        rw [hview, base_spendAll, hreads.base_eq] at hc
        rcases hc with hc | hc
        · rcases shown_of_lookup_spendAll hc with hc | hc
          · rw [hreads.lookup_eq] at hc
            exact .inl hc
          · rw [hreads.base_eq] at hc
            exact .inr hc
        · exact .inr hc

variable {p : Params} {b : B}

/-- **Inputs are available.** Whatever an accepted block spends, it creates, or
the coins below have it. -/
theorem available_of_connectTransactions {block : CBlock} (hshape : BlockShape block.vtx)
    (h : connectTransactions env p block pindex { base := b } = .ok s)
    (ho : o ∈ spentBy block.vtx) :
    (∃ tx ∈ block.vtx, tx.getId = o.txid) ∨ ∃ c, CCoinsView.getCoin b o = some c := by
  obtain ⟨v₁, v₂, hreads, -, hadd, hloop⟩ := connectTransactions_ok h
  have hbase : v₂.base = b := by
    refine foldlM_ok_induct (P := fun w : CCoinsViewCache B => w.base = b)
      hreads.base_eq ?_ hadd
    intro w tx w' _ hw hstep
    rw [base_addCoins hstep, hw]
  obtain ⟨c, hc | hc⟩ := shown_of_connectLoop hshape.nodup_prevouts hloop ho
  · -- shown after the outputs were added: created here, or shown before
    change v₂.lookup o = some c at hc
    rw [lookup_foldlM_addCoins hshape.tail_regular hadd, hreads.lookup_eq,
      lookup_of_uncached (by simp)] at hc
    cases hcreated : createdBy block.vtx pindex.nHeight o with
    | none =>
      rw [hcreated, none_or] at hc
      exact .inr ⟨c, hc⟩
    | some c' =>
      obtain ⟨tx, htx, hcoin⟩ := createdBy_isSome_iff.mp (isSome_of_mem hcreated)
      obtain ⟨c'', hcoin⟩ := isSome_iff_exists.mp hcoin
      obtain ⟨out, -, hout, -⟩ := createdCoin_eq_some_iff.mp hcoin
      refine .inl ⟨tx, htx, ?_⟩
      rw [hout]
      rfl
  · change CCoinsView.getCoin v₂.base o = some c at hc
    rw [hbase] at hc
    exact .inr ⟨c, hc⟩

variable {P : COutPoint → Prop}

theorem CCoinsViewCache.EntriesIn.spendAll {v : CCoinsViewCache B}
    (h : v.EntriesIn P) (hbase : ∀ o c, CCoinsView.getCoin v.base o = some c → P o)
    (os : List COutPoint) : (v.spendAll os).EntriesIn P := by
  induction os generalizing v with
  | nil => exact h
  | cons a os ih => exact ih (h.spendCoin hbase a) (by rwa [base_spendCoin])

theorem entriesIn_foldlM_addCoins {vtx : List CTransaction} {nHeight : Nat}
    {v v' : CCoinsViewCache B} (hv : v.EntriesIn P ∧ v.base = b)
    (hnew : ∀ tx ∈ vtx, ∀ n, P (tx.outPoint n))
    (h : vtx.foldlM (fun view tx => addCoins view tx nHeight false) v = .ok v') :
    v'.EntriesIn P ∧ v'.base = b := by
  refine foldlM_ok_induct
    (P := fun w : CCoinsViewCache B => w.EntriesIn P ∧ w.base = b) hv ?_ h
  intro w tx w' htx hw hstep
  refine ⟨?_, (base_addCoins hstep).trans hw.2⟩
  refine foldlM_ok_induct (P := CCoinsViewCache.EntriesIn P) hw.1 ?_ hstep
  intro u q u' _ hu hadd
  rw [addCoinsStep_false] at hadd
  exact hu.addCoin hadd (hnew tx htx q.2)

/-- The entries of the view after the two loops come from the block or from below. -/
theorem entriesIn_connectTransactions {block : CBlock} (hshape : BlockShape block.vtx)
    (hbelow : ∀ o c, CCoinsView.getCoin b o = some c → P o)
    (hblock : ∀ tx ∈ block.vtx, ∀ n, P (tx.outPoint n))
    (h : connectTransactions env p block pindex { base := b } = .ok s) :
    s.view.EntriesIn P ∧ s.view.base = b := by
  obtain ⟨v₁, v₂, hreads, -, hadd, hloop⟩ := connectTransactions_ok h
  have hempty : CCoinsViewCache.EntriesIn P ({ base := b } : CCoinsViewCache B) :=
    fun o e he => absurd he (by simp)
  have hv₂ : v₂.EntriesIn P ∧ v₂.base = b :=
    entriesIn_foldlM_addCoins ⟨hempty.reads hbelow hreads, hreads.base_eq⟩ hblock hadd
  -- the loop reads and spends
  refine foldlM_ok_induct
    (P := fun t : ConnectState B => t.view.EntriesIn P ∧ t.view.base = b) hv₂ ?_ hloop
  intro t tx t' htx ht hstep
  cases hcb : tx.isCoinBase with
  | true => rwa [connectTx_coinbase hcb hstep]
  | false =>
    obtain ⟨w, fee, hin, -, -, hview, -⟩ :=
      connectTx_regular hcb (hshape.nodup_prevouts tx htx hcb) hstep
    have hr := reads_of_checkTxInputs hin
    have hw : w.EntriesIn P := ht.1.reads (by rwa [ht.2]) hr
    have hwb : w.base = b := hr.base_eq.trans ht.2
    rw [hview, base_spendAll]
    exact ⟨hw.spendAll (by rwa [hwb]) _, hwb⟩

/-! ### Chains of accepted blocks -/

/-- The coins and the position of the node: `pcoinsTip`, over the coins database,
and `chainActive.Tip()`. -/
structure CoinsTip where
  pcoinsTip : CCoinsViewCache CCoinsViewDB
  index : CBlockIndex

/-- A node with the genesis block, whose outputs are not among the coins. -/
def CoinsTip.genesis (p : Params) : CoinsTip where
  pcoinsTip := { base := CCoinsViewDB.empty p.hashGenesisBlock, hashBlock := p.hashGenesisBlock }
  index := CBlockIndex.ofLine p.hashGenesisBlock []

/-- The next block is accepted: it passes `ContextualCheckBlock`, and `ConnectBlock`
on a view over `pcoinsTip`. Heights are of type `int`. -/
structure CoinsTip.Accepts (env : Env) (ctx : ContextualEnv) (p : Params) (s : CoinsTip)
    (block : CBlock) (out : ConnectOutput (CCoinsViewCache CCoinsViewDB)) : Prop where
  contextual : contextualCheckBlock ctx p block (some s.index) = .ok ()
  not_genesis : block.hash ≠ p.hashGenesisBlock
  height_lt : s.index.nHeight + 1 < 2 ^ 31
  connected : ∃ g suppress g', connectBlock env p block (s.index.next block.hash)
    { base := s.pcoinsTip } g suppress false = (g', .ok out)

/-- **The chains from the genesis block**: the blocks above it with their heights, the newest first,
and the coins that they leave. A new block is flushed into `pcoinsTip`, which validation has read in
the meantime; between blocks, `pcoinsTip` may be read, lose clean entries, and be flushed. -/
inductive AcceptedChain (env : Env) (ctx : ContextualEnv) (p : Params) :
    List (Nat × CBlock) → CoinsTip → Prop where
  | genesis : AcceptedChain env ctx p [] (CoinsTip.genesis p)
  | block {blocks : List (Nat × CBlock)} {s : CoinsTip} {block : CBlock}
      {out : ConnectOutput (CCoinsViewCache CCoinsViewDB)}
      {tip tip' : CCoinsViewCache CCoinsViewDB} :
      AcceptedChain env ctx p blocks s → s.Accepts env ctx p block out →
      CCoinsViewCache.Reads s.pcoinsTip tip →
      tip.batchWrite out.view.cacheCoins out.view.hashBlock = .ok tip' →
      AcceptedChain env ctx p ((s.index.nHeight + 1, block) :: blocks)
        ⟨tip', s.index.next block.hash⟩
  | read {blocks : List (Nat × CBlock)} {s : CoinsTip} {tip : CCoinsViewCache CCoinsViewDB} :
      AcceptedChain env ctx p blocks s → CCoinsViewCache.Reads s.pcoinsTip tip →
      AcceptedChain env ctx p blocks ⟨tip, s.index⟩
  | uncache {blocks : List (Nat × CBlock)} {s : CoinsTip} (o : COutPoint) :
      AcceptedChain env ctx p blocks s →
      AcceptedChain env ctx p blocks ⟨s.pcoinsTip.uncache o, s.index⟩
  | flush {blocks : List (Nat × CBlock)} {s : CoinsTip} :
      AcceptedChain env ctx p blocks s →
      AcceptedChain env ctx p blocks ⟨s.pcoinsTip.flushToDB, s.index⟩

/-- The transactions of blocks. -/
def chainTxs (blocks : List (Nat × CBlock)) : List CTransaction := blocks.flatMap (·.2.vtx)

/-- **The hash is collision free** on these transactions: an id names one transaction, and as it
commits to the ids of the inputs, no id depends on itself. -/
structure CollisionFree (txs : List CTransaction) : Prop where
  eq_of_getId : ∀ tx ∈ txs, ∀ tx' ∈ txs, tx.getId = tx'.getId → tx = tx'
  acyclic : ∃ rank : TxId → Nat, ∀ tx ∈ txs, tx.isCoinBase = false →
    ∀ o ∈ tx.prevouts, rank o.txid < rank tx.getId

variable {txs : List CTransaction}

theorem CollisionFree.mono {txs' : List CTransaction} (h : CollisionFree txs)
    (hsub : ∀ tx ∈ txs', tx ∈ txs) : CollisionFree txs' := by
  obtain ⟨rank, hrank⟩ := h.acyclic
  exact ⟨fun tx htx tx' htx' => h.eq_of_getId tx (hsub tx htx) tx' (hsub tx' htx'),
    rank, fun tx htx => hrank tx (hsub tx htx)⟩

/-- A transaction has this id. -/
def HasId (txs : List CTransaction) (id : TxId) : Prop := ∃ tx ∈ txs, tx.getId = id

variable {tx : CTransaction}

theorem CollisionFree.mem_of_hasId {txs' : List CTransaction} (h : CollisionFree (txs ++ txs'))
    (htx : tx ∈ txs) (hid : HasId txs' tx.getId) : tx ∈ txs' := by
  obtain ⟨tx', htx', hid⟩ := hid
  have heq : tx' = tx := h.eq_of_getId tx' (mem_append_right _ htx') tx
    (mem_append_left _ htx) hid
  exact heq ▸ htx'

/-- The first script of a transaction, where a coinbase has its height. -/
def CTransaction.firstScriptSig (tx : CTransaction) : CScript :=
  (tx.vin.head?.map (·.scriptSig)).getD []

/-- A transaction begins with the push of a height. -/
def CTransaction.PushesHeight (tx : CTransaction) (nHeight : Nat) : Prop :=
  pushData (scriptNumSerialize nHeight) <+: tx.firstScriptSig

/-- **The invariant** of the chains of accepted blocks. -/
structure TipInv (blocks : List (Nat × CBlock)) (s : CoinsTip) : Prop where
  wf : s.pcoinsTip.Wf
  /-- Every entry of the cache and every stored coin is of a transaction of the chain. -/
  entries : s.pcoinsTip.EntriesIn fun o => HasId (chainTxs blocks) o.txid
  stored : ∀ (o : COutPoint) c, s.pcoinsTip.base.coins[o]? = some c →
    HasId (chainTxs blocks) o.txid
  /-- A coin that a transaction of the chain has spent is not shown again. -/
  unspent : ∀ o c, s.pcoinsTip.lookup o = some c → o ∉ spentBy (chainTxs blocks)
  /-- What was spent had been created on the chain. -/
  parents : ∀ o ∈ spentBy (chainTxs blocks), HasId (chainTxs blocks) o.txid
  shape : ∀ hb ∈ blocks, BlockShape hb.2.vtx
  heights : ∀ hb ∈ blocks, 0 < hb.1 ∧ hb.1 ≤ s.index.nHeight
  pushes : ∀ hb ∈ blocks, ∀ tx ∈ hb.2.vtx, tx.isCoinBase = true → tx.PushesHeight hb.1
  nHeight_lt : s.index.nHeight < 2 ^ 31
  nodup : ((chainTxs blocks).map getId).Nodup

theorem chainTxs_cons (h : Nat) (block : CBlock) (blocks : List (Nat × CBlock)) :
    chainTxs ((h, block) :: blocks) = block.vtx ++ chainTxs blocks := rfl

theorem spentBy_append (txs txs' : List CTransaction) :
    spentBy (txs ++ txs') = spentBy txs ++ spentBy txs' := by
  rw [spentBy, flatMap_append]
  rfl

theorem mem_spentBy_iff :
    o ∈ spentBy txs ↔ ∃ tx ∈ txs, tx.isCoinBase = false ∧ o ∈ tx.prevouts := by
  rw [spentBy, mem_flatMap]
  refine exists_congr fun tx => and_congr_right fun _ => ?_
  cases tx.isCoinBase <;> simp

theorem TipInv.genesis (p : Params) : TipInv [] (CoinsTip.genesis p) where
  wf := CCoinsViewCache.Wf.ofBase _ _
  entries := fun o e he => absurd he (by simp [CoinsTip.genesis])
  stored := fun o c hc => absurd hc (by simp [CoinsTip.genesis, CCoinsViewDB.empty])
  unspent := fun o c _ => not_mem_nil
  parents := nofun
  shape := nofun
  heights := nofun
  pushes := nofun
  nHeight_lt := by simp [CoinsTip.genesis, CBlockIndex.ofLine]
  nodup := nodup_nil

variable {tip : CCoinsViewCache CCoinsViewDB}

section NextBlock

variable {env : Env} {ctx : ContextualEnv} {p : Params} {blocks : List (Nat × CBlock)}
  {s : CoinsTip} {block : CBlock} {out : ConnectOutput (CCoinsViewCache CCoinsViewDB)}

section

variable (h : s.Accepts env ctx p block out)
include h

theorem CoinsTip.Accepts.connected_ok :
    ∃ g suppress t g₁ g', Connected env p block (s.index.next block.hash)
      { base := s.pcoinsTip } g suppress false t g₁ g' out := by
  obtain ⟨g, suppress, g', hconn⟩ := h.connected
  obtain ⟨t, g₁, hok⟩ := connectBlock_ok hconn h.not_genesis
  exact ⟨g, suppress, t, g₁, g', hok⟩

theorem CoinsTip.Accepts.shape : BlockShape block.vtx := by
  obtain ⟨_, _, _, _, _, hok⟩ := h.connected_ok
  exact blockShape_of_checkBlock hok.checkBlock_ok

/-- A regular transaction of an accepted block has an input. -/
theorem CoinsTip.Accepts.exists_prevout (htx : tx ∈ block.vtx) : ∃ o, o ∈ tx.prevouts := by
  obtain ⟨_, _, _, _, _, hok⟩ := h.connected_ok
  obtain ⟨hvin, -⟩ := checkTransactionCommon_ok (common_of_checkBlock hok.checkBlock_ok tx htx)
  obtain ⟨txin, htxin⟩ := exists_mem_of_ne_nil _ hvin
  exact ⟨txin.prevout, mem_map_of_mem htxin⟩

/-- Under BIP34 from the first block on, the coinbase pushes the height. -/
theorem CoinsTip.Accepts.pushes (hBIP34 : p.BIP34Height = 1) (htx : tx ∈ block.vtx)
    (hcb : tx.isCoinBase = true) :
    tx.PushesHeight (s.index.nHeight + 1) := by
  have hpush := coinbase_pushes_height h.contextual (by rw [hBIP34]; exact Nat.succ_pos _)
  have hshape := h.shape
  -- the coinbase is the first transaction
  cases hvtx : block.vtx with
  | nil => exact absurd hvtx hshape.ne_nil
  | cons coinbase rest =>
    rw [hvtx] at htx
    rcases mem_cons.mp htx with rfl | hrest
    · rw [CBlock.coinbaseScriptSig, hvtx, head?_cons, bind_some] at hpush
      exact hpush
    · have hreg := hshape.tail_regular tx (by rw [hvtx, tail_cons]; exact hrest)
      cases hcb.symm.trans hreg

end

variable (inv : TipInv blocks s) (hacc : s.Accepts env ctx p block out)
  (hcf : CollisionFree (block.vtx ++ chainTxs blocks))

include inv in
/-- What `pcoinsTip` shows is of a transaction of the chain. -/
theorem TipInv.hasId_of_lookup {c : Coin} (h : s.pcoinsTip.lookup o = some c) :
    HasId (chainTxs blocks) o.txid := by
  cases hf : s.pcoinsTip.find o with
  | none =>
    rw [lookup_eq_some_iff, peek, hf] at h
    cases h.1 ▸ h.2
  | some e => exact inv.entries.of_find inv.stored hf

include inv hacc hcf in
/-- **A new coinbase is new**: the coinbases of the chain push other heights. -/
theorem notMem_ids_of_coinbase (hBIP34 : p.BIP34Height = 1)
    (htx : tx ∈ block.vtx) (hcb : tx.isCoinBase = true) : ¬HasId (chainTxs blocks) tx.getId := by
  intro hold
  obtain ⟨hb, hhb, htxb⟩ := mem_flatMap.mp (hcf.mem_of_hasId htx hold)
  obtain ⟨hpos, hle⟩ := inv.heights hb hhb
  have hlt := hacc.height_lt
  have hheight : hb.1 = s.index.nHeight + 1 :=
    eq_of_pushes_number (by omega) (by omega) (inv.pushes hb hhb tx htxb hcb)
      (hacc.pushes hBIP34 htx hcb)
  omega

include inv hacc hcf in
/-- **A new regular transaction is new.** If it came before, its input was spent then, so its own
block creates the coin it finds now, by a transaction that came before too and is lower in the order
of dependence. -/
theorem notMem_ids_of_regular (hBIP34 : p.BIP34Height = 1)
    (htx : tx ∈ block.vtx) (hreg : tx.isCoinBase = false) : ¬HasId (chainTxs blocks) tx.getId := by
  obtain ⟨rank, hrank⟩ := hcf.acyclic
  obtain ⟨_, _, t, _, _, hok⟩ := hacc.connected_ok
  -- induction on the rank of the id
  induction hn : rank tx.getId using Nat.strong_induction_on generalizing tx with
  | _ n ih =>
    intro hold
    have htx' := hcf.mem_of_hasId htx hold
    obtain ⟨o, ho⟩ := hacc.exists_prevout htx
    have hspent : o ∈ spentBy (chainTxs blocks) := mem_spentBy_iff.mpr ⟨tx, htx', hreg, ho⟩
    have hnow : o ∈ spentBy block.vtx := mem_spentBy_iff.mpr ⟨tx, htx, hreg, ho⟩
    rcases available_of_connectTransactions hacc.shape hok.transactions hnow with
      ⟨parent, hparent, hpid⟩ | ⟨c, hc⟩
    · -- the block creates the input, and its creator was on the chain before
      have hbefore : HasId (chainTxs blocks) parent.getId := by
        rw [hpid]
        exact inv.parents o hspent
      cases hpcb : parent.isCoinBase with
      | true => exact notMem_ids_of_coinbase inv hacc hcf hBIP34 hparent hpcb hbefore
      | false =>
        have hlt : rank parent.getId < n := by
          rw [hpid, ← hn]
          exact hrank tx (mem_append_left _ htx) hreg o ho
        exact ih _ hlt hparent hpcb rfl hbefore
    · exact inv.unspent o c hc hspent

include inv hacc hcf in
theorem notMem_ids (hBIP34 : p.BIP34Height = 1) (htx : tx ∈ block.vtx) :
    ¬HasId (chainTxs blocks) tx.getId := by
  cases hcb : tx.isCoinBase with
  | true => exact notMem_ids_of_coinbase inv hacc hcf hBIP34 htx hcb
  | false => exact notMem_ids_of_regular inv hacc hcf hBIP34 htx hcb

/-- `pcoinsTip` has nothing of an outpoint: no coin, no entry, not even below. -/
def CoinsTip.Lacks (s : CoinsTip) (o : COutPoint) : Prop :=
  s.pcoinsTip.lookup o = none ∧ s.pcoinsTip.cacheCoins[o]? = none ∧
    s.pcoinsTip.base.coins[o]? = none

include inv in
theorem TipInv.lacks (h : ¬HasId (chainTxs blocks) o.txid) : s.Lacks o := by
  refine ⟨?_, ?_, ?_⟩ <;> rw [eq_none_iff_forall_not_mem] <;> intro a ha
  · exact h (inv.hasId_of_lookup ha)
  · exact h (inv.entries o a ha)
  · exact h (inv.stored o a ha)

include inv hacc hcf in
theorem transactionsSpec_of_accepts (hBIP34 : p.BIP34Height = 1) :
    ∃ v₂ t, TransactionsSpec (s.index.next block.hash) block.vtx { base := s.pcoinsTip } v₂ t ∧
      out.view = t.view.setBestBlock block.hash ∧
      (t.view.EntriesIn fun o => HasId (block.vtx ++ chainTxs blocks) o.txid) ∧
      t.view.base = s.pcoinsTip := by
  obtain ⟨_, _, t, _, _, hok⟩ := hacc.connected_ok
  have hnew : NoOverwrite ({ base := s.pcoinsTip } : CCoinsViewCache (CCoinsViewCache CCoinsViewDB))
      block.vtx (s.index.next block.hash).nHeight := by
    intro o ho
    obtain ⟨tx, htx, hc⟩ := createdBy_isSome_iff.mp ho
    obtain ⟨c, hc⟩ := isSome_iff_exists.mp hc
    obtain ⟨_, -, hout, -⟩ := createdCoin_eq_some_iff.mp hc
    rw [lookup_of_uncached (by simp), hout]
    exact (inv.lacks (notMem_ids inv hacc hcf hBIP34 htx)).1
  obtain ⟨v₂, hspec⟩ := connectTransactions_spec hacc.shape (CCoinsViewCache.Wf.ofBase _ _) hnew
    hok.transactions
  refine ⟨v₂, t, hspec, hok.view_eq, ?_⟩
  refine entriesIn_connectTransactions hacc.shape ?_ ?_ hok.transactions
  · intro o c hc
    obtain ⟨tx, htx, hid⟩ := inv.hasId_of_lookup hc
    exact ⟨tx, mem_append_right _ htx, hid⟩
  · exact fun tx htx n => ⟨tx, mem_append_left _ htx, rfl⟩

/-- Spending no outpoint twice keeps regular transactions apart. -/
theorem nodup_of_nodup_spentBy (hreg : ∀ tx ∈ txs, tx.isCoinBase = false)
    (hin : ∀ tx ∈ txs, ∃ o, o ∈ tx.prevouts) (hnd : (spentBy txs).Nodup) : txs.Nodup := by
  induction txs with
  | nil => exact nodup_nil
  | cons tx txs ih =>
    rw [spentBy_cons_regular (hreg tx mem_cons_self), nodup_append'] at hnd
    obtain ⟨-, hrest, hdisj⟩ := hnd
    rw [nodup_cons]
    refine ⟨fun hmem => ?_, ih (fun tx' h => hreg tx' (mem_cons_of_mem _ h))
      (fun tx' h => hin tx' (mem_cons_of_mem _ h)) hrest⟩
    obtain ⟨o, ho⟩ := hin tx mem_cons_self
    exact hdisj ho (mem_spentBy_iff.mpr ⟨tx, hmem, hreg tx mem_cons_self, ho⟩)

include inv hacc hcf in
/-- **The ids stay different** with the new block. -/
theorem nodup_ids_of_accepts (hBIP34 : p.BIP34Height = 1) :
    ((block.vtx ++ chainTxs blocks).map getId).Nodup := by
  obtain ⟨v₂, t, hspec, -⟩ := transactionsSpec_of_accepts inv hacc hcf hBIP34
  have hshape := hacc.shape
  -- within the block, the ids differ as the transactions do
  have hblock : (block.vtx.map getId).Nodup := by
    have htxs : block.vtx.Nodup := by
      cases hvtx : block.vtx with
      | nil => exact nodup_nil
      | cons coinbase rest =>
        have hcb := hshape.head_coinbase coinbase (by rw [hvtx]; rfl)
        have hregs : ∀ tx ∈ rest, tx.isCoinBase = false := by
          have hall := hshape.tail_regular
          rwa [hvtx, tail_cons] at hall
        have hspent := hspec.loop.nodup
        rw [hvtx, spentBy_cons_coinbase hcb] at hspent
        rw [nodup_cons]
        refine ⟨fun hmem => absurd (hcb.symm.trans (hregs coinbase hmem)) (by decide), ?_⟩
        refine nodup_of_nodup_spentBy hregs (fun tx htx => ?_) hspent
        exact hacc.exists_prevout (by rw [hvtx]; exact mem_cons_of_mem _ htx)
    refine htxs.map_on fun tx htx tx' htx' hid => ?_
    exact hcf.eq_of_getId tx (mem_append_left _ htx) tx' (mem_append_left _ htx') hid
  rw [map_append, nodup_append']
  refine ⟨hblock, inv.nodup, fun id hid hid' => ?_⟩
  obtain ⟨tx, htx, rfl⟩ := mem_map.mp hid
  obtain ⟨tx', htx', heq⟩ := mem_map.mp hid'
  exact notMem_ids inv hacc hcf hBIP34 htx ⟨tx', htx', heq⟩

include inv hacc hcf in
/-- **The flush of the new block** does not throw. -/
theorem flush_of_accepts (hBIP34 : p.BIP34Height = 1)
    (hreads : CCoinsViewCache.Reads s.pcoinsTip tip) :
    ∃ tip', tip.batchWrite out.view.cacheCoins out.view.hashBlock = .ok tip' ∧ tip'.Wf ∧
      tip'.base = s.pcoinsTip.base ∧ ∀ o, tip'.lookup o = out.view.lookup o := by
  obtain ⟨v₂, t, hspec, hview, -, htbase⟩ := transactionsSpec_of_accepts inv hacc hcf hBIP34
  have hbase : out.view.base = s.pcoinsTip := by
    rw [hview]
    exact htbase
  obtain ⟨tip', hrun, hwf, hb, -, hlook⟩ := flush_spec
    (hview ▸ hspec.loop.wf.setBestBlock _) (hbase ▸ inv.wf) (hbase ▸ hreads) out.view.hashBlock
  exact ⟨tip', hrun, hwf, hb.trans (by rw [hbase]), hlook⟩

theorem HasId.append_left {id : TxId} (h : HasId txs id)
    (txs' : List CTransaction) : HasId (txs' ++ txs) id := by
  obtain ⟨tx, htx, hid⟩ := h
  exact ⟨tx, mem_append_right _ htx, hid⟩

include inv hacc hcf in
/-- The coins after the new block were not spent by it, nor before. -/
theorem unspent_of_accepts (hBIP34 : p.BIP34Height = 1) {c : Coin}
    (h : out.view.lookup o = some c) : o ∉ spentBy (block.vtx ++ chainTxs blocks) := by
  obtain ⟨v₂, t, hspec, hview, -, -⟩ := transactionsSpec_of_accepts inv hacc hcf hBIP34
  rw [hview, lookup_setBestBlock, hspec.loop.lookup_eq] at h
  split at h
  · cases h
  next hnow =>
  rw [spentBy_append, mem_append, not_or]
  refine ⟨hnow, fun hbefore => ?_⟩
  change v₂.lookup o = some c at h
  rw [hspec.created, lookup_of_uncached (by simp)] at h
  cases hcreated : createdBy block.vtx (s.index.next block.hash).nHeight o with
  | none =>
    rw [hcreated, none_or] at h
    exact inv.unspent o c h hbefore
  | some c' =>
    -- a coin of the block cannot have been spent before: its id is new
    obtain ⟨tx, htx, hcoin⟩ := createdBy_isSome_iff.mp (isSome_of_mem hcreated)
    obtain ⟨c'', hcoin⟩ := isSome_iff_exists.mp hcoin
    obtain ⟨_, -, hout, -⟩ := createdCoin_eq_some_iff.mp hcoin
    have hid := inv.parents o hbefore
    rw [hout] at hid
    exact notMem_ids inv hacc hcf hBIP34 htx hid

include inv hacc in
theorem parents_of_accepts : ∀ o ∈ spentBy (block.vtx ++ chainTxs blocks),
    HasId (block.vtx ++ chainTxs blocks) o.txid := by
  obtain ⟨_, _, t, _, _, hok⟩ := hacc.connected_ok
  intro o ho
  rw [spentBy_append, mem_append] at ho
  rcases ho with ho | ho
  · rcases available_of_connectTransactions hacc.shape hok.transactions ho with
      ⟨tx, htx, hid⟩ | ⟨c, hc⟩
    · exact ⟨tx, mem_append_left _ htx, hid⟩
    · exact (inv.hasId_of_lookup hc).append_left _
  · exact (inv.parents o ho).append_left _

include inv hacc hcf in
theorem TipInv.connect (hBIP34 : p.BIP34Height = 1) {tip' : CCoinsViewCache CCoinsViewDB}
    (hreads : CCoinsViewCache.Reads s.pcoinsTip tip)
    (hflush : tip.batchWrite out.view.cacheCoins out.view.hashBlock = .ok tip') :
    TipInv ((s.index.nHeight + 1, block) :: blocks) ⟨tip', s.index.next block.hash⟩ := by
  obtain ⟨v₂, t, -, hview, hentries, -⟩ := transactionsSpec_of_accepts inv hacc hcf hBIP34
  obtain ⟨tip₁, hrun, hwf, hbase, hlook⟩ := flush_of_accepts inv hacc hcf hBIP34 hreads
  obtain rfl : tip₁ = tip' := Except.ok.inj (hrun.symm.trans hflush)
  have hmem : ∀ hb ∈ (s.index.nHeight + 1, block) :: blocks,
      hb = (s.index.nHeight + 1, block) ∨ hb ∈ blocks := fun hb => mem_cons.mp
  refine ⟨hwf, ?_, ?_, ?_, parents_of_accepts inv hacc, ?_, ?_, ?_, hacc.height_lt,
    nodup_ids_of_accepts inv hacc hcf hBIP34⟩
  · -- entries come from the old cache, from reads, and from the view of the block
    have hold : tip.EntriesIn fun o => HasId (chainTxs blocks) o.txid :=
      inv.entries.reads inv.stored hreads
    have hmono : tip.EntriesIn fun o => HasId (block.vtx ++ chainTxs blocks) o.txid :=
      fun o e he => (hold o e he).append_left _
    exact hmono.batchWrite hflush (by rw [hview]; exact hentries)
  · intro o c hc
    change tip₁.base.coins[o]? = some c at hc
    rw [hbase] at hc
    exact (inv.stored o c hc).append_left _
  · intro o c hc
    exact unspent_of_accepts inv hacc hcf hBIP34 ((hlook o).symm.trans hc)
  · intro hb hhb
    rcases hmem hb hhb with rfl | hhb
    · exact hacc.shape
    · exact inv.shape hb hhb
  · intro hb hhb
    rcases hmem hb hhb with rfl | hhb
    · exact ⟨Nat.succ_pos _, Nat.le_refl _⟩
    · exact ⟨(inv.heights hb hhb).1, Nat.le_succ_of_le (inv.heights hb hhb).2⟩
  · intro hb hhb tx htx hcb
    rcases hmem hb hhb with rfl | hhb
    · exact hacc.pushes hBIP34 htx hcb
    · exact inv.pushes hb hhb tx htx hcb

end NextBlock

section BetweenBlocks

variable {blocks : List (Nat × CBlock)} {s : CoinsTip}

section

variable (inv : TipInv blocks s)
include inv

/-- What changes `pcoinsTip` between blocks keeps the invariant, if it keeps what
is shown. -/
theorem TipInv.congr (hwf : tip.Wf)
    (hentries : tip.EntriesIn fun o => HasId (chainTxs blocks) o.txid)
    (hstored : ∀ (o : COutPoint) c, tip.base.coins[o]? = some c → HasId (chainTxs blocks) o.txid)
    (hlook : ∀ o, tip.lookup o = s.pcoinsTip.lookup o) : TipInv blocks ⟨tip, s.index⟩ :=
  ⟨hwf, hentries, hstored, fun o c hc => inv.unspent o c ((hlook o).symm.trans hc), inv.parents,
    inv.shape, inv.heights, inv.pushes, inv.nHeight_lt, inv.nodup⟩

theorem TipInv.read
    (hreads : CCoinsViewCache.Reads s.pcoinsTip tip) : TipInv blocks ⟨tip, s.index⟩ := by
  refine inv.congr (hreads.wf inv.wf) (inv.entries.reads inv.stored hreads) ?_ hreads.lookup_eq
  rw [hreads.base_eq]
  exact inv.stored

theorem TipInv.uncache (o : COutPoint) : TipInv blocks ⟨s.pcoinsTip.uncache o, s.index⟩ := by
  obtain ⟨hwf, hbase, hlook⟩ := uncache_spec inv.wf o
  refine inv.congr hwf (inv.entries.uncache o) ?_ hlook
  rw [hbase]
  exact inv.stored

theorem TipInv.flush : TipInv blocks ⟨s.pcoinsTip.flushToDB, s.index⟩ := by
  obtain ⟨hwf, hlook, hcoins⟩ := flushToDB_spec inv.wf
  refine inv.congr hwf (fun o e he => ?_) (fun o c hc => ?_) hlook
  · exact absurd he (by simp [flushToDB])
  · exact inv.hasId_of_lookup ((hcoins o).symm.trans hc)

end

end BetweenBlocks

theorem AcceptedChain.tipInv {ctx : ContextualEnv}
    (hBIP34 : p.BIP34Height = 1) {blocks : List (Nat × CBlock)} {s : CoinsTip}
    (h : AcceptedChain env ctx p blocks s) (hcf : CollisionFree (chainTxs blocks)) :
    TipInv blocks s := by
  induction h with
  | genesis => exact TipInv.genesis p
  | block _ hacc hreads hflush ih =>
    have hbefore := hcf.mono fun tx htx => mem_append_right _ htx
    exact TipInv.connect (ih hbefore) hacc hcf hBIP34 hreads hflush
  | read _ hreads ih => exact (ih hcf).read hreads
  | uncache o _ ih => exact (ih hcf).uncache o
  | flush _ ih => exact (ih hcf).flush

/-! ### The coinbase of the genesis block -/

/-- The bytes of an ASCII text. -/
def asciiBytes (text : String) : List UInt8 := text.toList.map fun c => UInt8.ofNat c.toNat

/-- The public key of the genesis output. -/
def genesisPubKey : List UInt8 :=
  [0x04, 0x67, 0x8a, 0xfd, 0xb0, 0xfe, 0x55, 0x48, 0x27, 0x19, 0x67, 0xf1, 0xa6, 0x71, 0x30, 0xb7,
   0x10, 0x5c, 0xd6, 0xa8, 0x28, 0xe0, 0x39, 0x09, 0xa6, 0x79, 0x62, 0xe0, 0xea, 0x1f, 0x61, 0xde,
   0xb6, 0x49, 0xf6, 0xbc, 0x3f, 0x4c, 0xef, 0x38, 0xc4, 0xf3, 0x55, 0x04, 0xe5, 0x1e, 0xc1, 0x12,
   0xde, 0x5c, 0x38, 0x4d, 0xf7, 0xba, 0x0b, 0x8d, 0x57, 0x8a, 0x4c, 0x70, 0x2b, 0x6b, 0xf1, 0x1d,
   0x5f]

/-- `OP_CHECKSIG`. -/
def opCheckSig : UInt8 := 0xac

/-- The only transaction of the genesis block of the three networks, so that its id is the Merkle
root. -/
def genesisCoinbase : CTransaction where
  vin := [{
    prevout := COutPoint.null
    scriptSig := pushData (scriptNumSerialize 486604799) ++ pushData (scriptNumSerialize 4) ++
      pushData (asciiBytes "BBC 06/03/2019 Tiananmen's tank man: The image that China forgot") }]
  vout := [{ nValue := 50 * coin, scriptPubKey := pushData genesisPubKey ++ [opCheckSig] }]
  nVersion := 1
  hash := 0x95d9f62f327ebae0d88f38c72224407e5dde5157f952cdb70921c2dda326f35b

/-- The height that the coinbase of the genesis block happens to push. -/
def genesisPushedHeight : Nat := 486604799

theorem genesisCoinbase_pushesHeight : genesisCoinbase.PushesHeight genesisPushedHeight :=
  ⟨_, (append_assoc _ _ _).symm⟩

/-! ### The theorem -/

/-- **`AddCoins` adds new coins only.** The levels below have nothing of the outpoints of the block;
`AddCoins` of each transaction finds the cache without an entry and sets its flags right; and the
flush of what `ConnectBlock` leaves does not throw and keeps the flags of `pcoinsTip` right. -/
structure AddsNewCoins (s : CoinsTip) (block : CBlock)
    (out : ConnectOutput (CCoinsViewCache CCoinsViewDB)) : Prop where
  lacks : ∀ tx ∈ block.vtx, ∀ n, s.Lacks (tx.outPoint n)
  addCoins : ∀ view, CCoinsViewCache.Reads { base := s.pcoinsTip } view →
    ∀ done tx rest, block.vtx = done ++ tx :: rest → ∀ view₁,
      done.foldlM (fun view tx => addCoins view tx (s.index.nHeight + 1) false) view = .ok view₁ →
      (∀ n, view₁.lookup (tx.outPoint n) = none ∧ view₁.cacheCoins[tx.outPoint n]? = none) ∧
        ∀ view₂, addCoins view₁ tx (s.index.nHeight + 1) false = .ok view₂ → view₂.Wf
  flush : ∀ tip, CCoinsViewCache.Reads s.pcoinsTip tip →
    ∃ tip', tip.batchWrite out.view.cacheCoins out.view.hashBlock = .ok tip' ∧ tip'.Wf

section Theorem

variable {env : Env} {ctx : ContextualEnv} {p : Params} {blocks : List (Nat × CBlock)}
  {s : CoinsTip} {block : CBlock} {out : ConnectOutput (CCoinsViewCache CCoinsViewDB)}

theorem addsNewCoins_of_accepts (inv : TipInv blocks s) (hacc : s.Accepts env ctx p block out)
    (hcf : CollisionFree (block.vtx ++ chainTxs blocks)) (hBIP34 : p.BIP34Height = 1) :
    AddsNewCoins s block out := by
  have hlacks : ∀ tx ∈ block.vtx, ∀ n, s.Lacks (tx.outPoint n) :=
    fun tx htx n => inv.lacks (notMem_ids inv hacc hcf hBIP34 htx)
  have hids := nodup_ids_of_accepts inv hacc hcf hBIP34
  refine ⟨hlacks, ?_, fun tip hreads => ?_⟩
  · intro view hreads done tx rest hvtx view₁ hrun
    have hmem : ∀ tx' ∈ done ++ [tx], tx' ∈ block.vtx := by
      intro tx' htx'
      rw [hvtx]
      rcases mem_append.mp htx' with h | h
      · exact mem_append_left _ h
      · exact mem_append_right _ (mem_singleton.mp h ▸ mem_cons_self)
    -- the cache has entries of the chain and of the transactions that went before
    have hbelow : ∀ (o : COutPoint) c, CCoinsView.getCoin s.pcoinsTip o = some c →
        HasId (done ++ chainTxs blocks) o.txid :=
      fun o c hc => (inv.hasId_of_lookup hc).append_left _
    have hempty : CCoinsViewCache.EntriesIn (fun o => HasId (done ++ chainTxs blocks) o.txid)
        ({ base := s.pcoinsTip } : CCoinsViewCache (CCoinsViewCache CCoinsViewDB)) :=
      fun o e he => absurd he (by simp)
    obtain ⟨hentries, hbase⟩ := entriesIn_foldlM_addCoins
      ⟨hempty.reads hbelow hreads, hreads.base_eq⟩
      (fun tx' htx' n => ⟨tx', mem_append_left _ htx', rfl⟩) hrun
    have hnone : ∀ n, view₁.cacheCoins[tx.outPoint n]? = none := by
      intro n
      rw [eq_none_iff_forall_not_mem]
      intro e he
      obtain ⟨tx', htx', hid⟩ := hentries _ e he
      rcases mem_append.mp htx' with hdone | hchain
      · -- an earlier transaction of the block has another id
        rw [hvtx, append_assoc, map_append, nodup_append'] at hids
        refine hids.2.2 (mem_map_of_mem hdone) ?_
        rw [hid]
        exact mem_map_of_mem (mem_append_left _ mem_cons_self)
      · exact notMem_ids inv hacc hcf hBIP34 (hmem tx (by simp)) ⟨tx', hchain, hid⟩
    have hlook : ∀ n, view₁.lookup (tx.outPoint n) = none := by
      intro n
      rw [lookup_of_uncached (hnone n), hbase]
      exact (hlacks tx (hmem tx (by simp)) n).1
    refine ⟨fun n => ⟨hlook n, hnone n⟩, fun view₂ hadd => ?_⟩
    have hwf : view₁.Wf := by
      have htail : ∀ tx' ∈ done.tail, tx'.isCoinBase = false := by
        intro tx' htx'
        refine hacc.shape.tail_regular tx' ?_
        rw [hvtx]
        cases done with
        | nil => exact absurd htx' not_mem_nil
        | cons a done => exact mem_append_left _ htx'
      refine wf_foldlM_addCoins htail (hreads.wf (CCoinsViewCache.Wf.ofBase _ _)) ?_ hrun
      intro o ho
      obtain ⟨tx', htx', hc⟩ := createdBy_isSome_iff.mp ho
      obtain ⟨c, hc⟩ := isSome_iff_exists.mp hc
      obtain ⟨_, -, hout, -⟩ := createdCoin_eq_some_iff.mp hc
      rw [hreads.lookup_eq, lookup_of_uncached (by simp), hout]
      exact (hlacks tx' (hmem tx' (mem_append_left _ htx')) o.n).1
    refine hwf.addCoins hadd (.inr fun o ho => ?_)
    obtain ⟨c, hc⟩ := isSome_iff_exists.mp ho
    obtain ⟨_, -, hout, -⟩ := createdCoin_eq_some_iff.mp hc
    rw [hout]
    exact hlook o.n
  · obtain ⟨tip', hrun, hwf, -⟩ := flush_of_accepts inv hacc hcf hBIP34 hreads
    exact ⟨tip', hrun, hwf⟩

/-- **All transactions above the genesis block have different ids**, on every chain of accepted
blocks with BIP34 from the first block on, with or without the BIP30 look-up. The genesis coinbase
shares its id at most with the coinbase of the one block whose height it pushes. So `AddCoins` adds
new coins only. -/
theorem AcceptedChain.unique_ids (hchain : AcceptedChain env ctx p blocks s)
    (hBIP34 : p.BIP34Height = 1) (hacc : s.Accepts env ctx p block out)
    (hcf : CollisionFree (genesisCoinbase :: (block.vtx ++ chainTxs blocks))) :
    ((block.vtx ++ chainTxs blocks).map getId).Nodup ∧
      (∀ hb ∈ (s.index.nHeight + 1, block) :: blocks, ∀ tx ∈ hb.2.vtx,
        tx.getId = genesisCoinbase.getId → tx = genesisCoinbase ∧ hb.1 = genesisPushedHeight) ∧
      AddsNewCoins s block out := by
  have hall : CollisionFree (block.vtx ++ chainTxs blocks) :=
    hcf.mono fun tx htx => mem_cons_of_mem _ htx
  have inv : TipInv blocks s :=
    hchain.tipInv hBIP34 (hall.mono fun tx htx => mem_append_right _ htx)
  refine ⟨nodup_ids_of_accepts inv hacc hall hBIP34, ?_,
    addsNewCoins_of_accepts inv hacc hall hBIP34⟩
  intro hb hhb tx htx hid
  have hmem : tx ∈ block.vtx ++ chainTxs blocks := by
    rw [← chainTxs_cons (s.index.nHeight + 1)]
    exact mem_flatMap.mpr ⟨hb, hhb, htx⟩
  have heq : tx = genesisCoinbase :=
    hcf.eq_of_getId tx (mem_cons_of_mem _ hmem) genesisCoinbase mem_cons_self hid
  have hcb : tx.isCoinBase = true := by
    rw [heq]
    rfl
  have hlt := hacc.height_lt
  -- a script starts with the push of at most one number
  have hpush : tx.PushesHeight hb.1 ∧ hb.1 ≤ s.index.nHeight + 1 := by
    rcases mem_cons.mp hhb with rfl | hhb
    · exact ⟨hacc.pushes hBIP34 htx hcb, Nat.le_refl _⟩
    · exact ⟨inv.pushes hb hhb tx htx hcb, Nat.le_succ_of_le (inv.heights hb hhb).2⟩
  refine ⟨heq, eq_of_pushes_number (by omega) (by decide) hpush.1 ?_⟩
  rw [heq]
  exact genesisCoinbase_pushesHeight

end Theorem

/-- A first block of the main network whose coinbase is large enough. -/
def paddedFirstBlock : CBlock :=
  firstBlock mainParams [{ nValue := 0, scriptPubKey := replicate 50 0x51 }]

theorem accepts_paddedFirstBlock : ∃ g' out, connectBlock Env.permissive mainParams paddedFirstBlock
      ((CoinsTip.genesis mainParams).index.next paddedFirstBlock.hash)
      { base := (CoinsTip.genesis mainParams).pcoinsTip } none false false = (g', .ok out) ∧
    (CoinsTip.genesis mainParams).Accepts Env.permissive
      (ContextualEnv.ofTimes (fun _ => 0) fun _ => 0) mainParams paddedFirstBlock out := by
  refine (exists_of_connectBlock_isOk ?_).imp fun g' => Exists.imp fun out hconn => ⟨hconn, ?_⟩
  · decide +kernel
  · exact ⟨by decide +kernel, by decide +kernel, by decide +kernel, none, false, g', hconn⟩

/-! ### The coins of a chain -/

section Coins

variable {env : Env} {ctx : ContextualEnv} {p : Params} {blocks : List (Nat × CBlock)}
  {s : CoinsTip}

/-- The coin that blocks, the newest first, have created at an outpoint. -/
def chainCoin (blocks : List (Nat × CBlock)) (o : COutPoint) : Option Coin :=
  blocks.findSome? fun hb => createdBy hb.2.vtx hb.1 o

theorem chainCoin_cons (hb : Nat × CBlock) :
    chainCoin (hb :: blocks) o = (createdBy hb.2.vtx hb.1 o).or (chainCoin blocks o) := by
  rw [chainCoin, findSome?_cons]
  cases createdBy hb.2.vtx hb.1 o <;> rfl

/-- `pcoinsTip` shows the coins that the chain has created and not spent. -/
theorem AcceptedChain.lookup_eq (h : AcceptedChain env ctx p blocks s) (hBIP34 : p.BIP34Height = 1)
    (hcf : CollisionFree (chainTxs blocks)) (o : COutPoint) :
    s.pcoinsTip.lookup o =
      if o ∈ spentBy (chainTxs blocks) then none else chainCoin blocks o := by
  by_cases hspent : o ∈ spentBy (chainTxs blocks)
  · rw [if_pos hspent, eq_none_iff_forall_not_mem]
    exact fun c hc => (h.tipInv hBIP34 hcf).unspent o c hc hspent
  rw [if_neg hspent]
  induction h with
  | genesis => exact lookup_of_uncached (by simp [CoinsTip.genesis])
  | @block blocks s block out tip tip' hchain hacc hreads hflush ih =>
    have hbefore := hcf.mono fun tx htx => mem_append_right _ htx
    have inv := hchain.tipInv hBIP34 hbefore
    rw [chainTxs_cons, spentBy_append, mem_append, not_or] at hspent
    obtain ⟨v₂, t, hspec, hview, -, -⟩ := transactionsSpec_of_accepts inv hacc hcf hBIP34
    obtain ⟨tip₁, hrun, -, -, hlook⟩ := flush_of_accepts inv hacc hcf hBIP34 hreads
    obtain rfl : tip₁ = tip' := Except.ok.inj (hrun.symm.trans hflush)
    refine (hlook o).trans ?_
    rw [hview, lookup_setBestBlock, hspec.loop.lookup_eq, if_neg hspent.1, chainCoin_cons,
      ← ih hbefore hspent.2]
    refine (hspec.created o).trans ?_
    rw [lookup_of_uncached (by simp)]
    rfl
  | read _ hreads ih => exact (hreads.lookup_eq o).trans (ih hcf hspent)
  | uncache o' hchain ih =>
    exact ((uncache_spec (hchain.tipInv hBIP34 hcf).wf o').2.2 o).trans (ih hcf hspent)
  | flush hchain ih =>
    exact ((flushToDB_spec (hchain.tipInv hBIP34 hcf).wf).2.1 o).trans (ih hcf hspent)

/-- **The ledger of a chain.** No outpoint is spent twice, what is spent was created on the chain,
by a coinbase long enough ago, and `pcoinsTip` shows exactly what was created and not spent. -/
theorem AcceptedChain.coins_eq (h : AcceptedChain env ctx p blocks s) (hBIP34 : p.BIP34Height = 1)
    (hcf : CollisionFree (chainTxs blocks)) :
    (spentBy (chainTxs blocks)).Nodup ∧
      (∀ hb ∈ blocks, ∀ o ∈ spentBy hb.2.vtx, ∃ c, chainCoin blocks o = some c ∧
        (c.fCoinBase = true → coinbaseMaturity ≤ spendDepth hb.1 c.nHeight)) ∧
      ∀ o, s.pcoinsTip.lookup o =
        if o ∈ spentBy (chainTxs blocks) then none else chainCoin blocks o := by
  rw [← and_assoc]
  refine ⟨?_, h.lookup_eq hBIP34 hcf⟩
  induction h with
  | genesis => exact ⟨nodup_nil, forall_mem_nil _⟩
  | @block blocks s block out _ _ hchain hacc _ _ ih =>
    have hbefore := hcf.mono fun tx htx => mem_append_right _ htx
    have inv := hchain.tipInv hBIP34 hbefore
    obtain ⟨hnd, hold⟩ := ih hbefore
    obtain ⟨v₂, _, hspec, -⟩ := transactionsSpec_of_accepts inv hacc hcf hBIP34
    -- an outpoint that was spent is not created again, as the ids of the block are new
    have hfresh : ∀ o ∈ spentBy (chainTxs blocks),
        createdBy block.vtx (s.index.nHeight + 1) o = none := by
      intro o ho
      rw [eq_none_iff_forall_not_mem]
      intro c hc
      obtain ⟨tx, htx, hcoin⟩ := exists_of_findSome?_eq_some hc
      obtain ⟨_, -, hout, -⟩ := createdCoin_eq_some_iff.mp hcoin
      have hid := inv.parents o ho
      rw [hout] at hid
      exact notMem_ids inv hacc hcf hBIP34 htx hid
    have hmeets : ∀ o ∈ spentBy block.vtx, (createdBy block.vtx (s.index.nHeight + 1) o).or
        (if o ∈ spentBy (chainTxs blocks) then none else chainCoin blocks o) =
          some (v₂.peek o) := by
      intro o ho
      rw [← (hspec.loop.spendable o ho).lookup, hspec.created, lookup_of_uncached (by simp),
        ← hchain.lookup_eq hBIP34 hbefore]
      rfl
    have hnew : ∀ o ∈ spentBy block.vtx, o ∉ spentBy (chainTxs blocks) := by
      intro o ho hin
      have hc := hmeets o ho
      rw [hfresh o hin, if_pos hin] at hc
      cases hc
    rw [chainTxs_cons, spentBy_append, nodup_append', forall_mem_cons]
    refine ⟨⟨hspec.loop.nodup, hnd, hnew⟩, fun o ho => ⟨v₂.peek o, ?_, fun hcb => ?_⟩,
      fun hb hhb o ho => ?_⟩
    · rw [chainCoin_cons, ← hmeets o ho, if_neg (hnew o ho)]
    · have hmature := (hspec.loop.spendable o ho).mature
      simp only [hcb, Bool.true_and, decide_eq_false_iff_not, not_lt] at hmature
      exact hmature
    · obtain ⟨tx, htx, hreg⟩ := mem_spentBy_iff.mp ho
      have hin : o ∈ spentBy (chainTxs blocks) :=
        mem_spentBy_iff.mpr ⟨tx, mem_flatMap.mpr ⟨hb, hhb, htx⟩, hreg⟩
      rw [chainCoin_cons, hfresh o hin, none_or]
      exact hold hb hhb o ho
  | read _ _ ih => exact ih hcf
  | uncache _ _ ih => exact ih hcf
  | flush _ ih => exact ih hcf

theorem collisionFree_firstBlock : CollisionFree (chainTxs [(1, paddedFirstBlock)]) :=
  ⟨by decide +kernel, fun _ => 0, by decide +kernel⟩

theorem exists_firstChain : ∃ s, AcceptedChain Env.permissive
    (ContextualEnv.ofTimes (fun _ => 0) fun _ => 0) mainParams [(1, paddedFirstBlock)] s := by
  obtain ⟨-, out, -, hacc⟩ := accepts_paddedFirstBlock
  obtain ⟨tip', hflush, -⟩ :=
    flush_of_accepts (TipInv.genesis mainParams) hacc collisionFree_firstBlock rfl .refl
  exact ⟨_, .block .genesis hacc .refl hflush⟩

end Coins

end DeVault
