import DeVault.Mempool.Indexed
import DeVault.Validation.UniqueTx

/-!
# The memory pool along a chain (`txmempool.cpp`, `validation.cpp`)

A node has a chain of accepted blocks and a memory pool over it. Transactions enter the pool under
the checks of `AcceptToMemoryPool`; they leave it when they are removed by hand, when they are too
old, when the pool is too large, and when a block comes (`PoolNode.Step`).

That a new transaction has no children in the pool is not checked by the source: *such children
would be orphans*. The reason is an invariant that joins the pool with the chain (`PoolNode.Inv`):
no transaction of the pool is on the chain, and its parents are in the pool or on the chain. So the
parent of an entry that is not in the pool is on the chain, where its inputs were spent, and a spent
input is not found again. Hence it does not pass the checks a second time.
-/

namespace DeVault

open List MemPool

/-- A node: the blocks above the genesis block, the coins they leave, and the pool. -/
structure PoolNode where
  blocks : List (Nat × CBlock)
  tip : CoinsTip
  pool : MemPool

namespace PoolNode

/-- What `AcceptToMemoryPool` has checked of a transaction when it calls `addUnchecked`. -/
structure Accepts (n : PoolNode) (tx : CTransaction) : Prop where
  regular : checkRegularTransaction tx = .ok ()
  /-- `txn-already-in-mempool`. -/
  absent : tx.getId ∉ n.pool.mapTx
  /-- `txn-mempool-conflict`. -/
  noConflict : ∀ o ∈ tx.prevouts, n.pool.mapNextTx[o]? = none
  /-- Every input is a coin of the chain or an output of the pool. -/
  inputs : ∀ o ∈ tx.prevouts, (∃ c, n.tip.pcoinsTip.lookup o = some c) ∨
    ∃ e, n.pool.mapTx[o.txid]? = some e ∧ o.n < e.tx.vout.length

/-- **One step of a node.** All transactions are among `txs`. A block that is connected is accepted
on the current chain, and `removeForBlock` gets its transactions in some order. Between blocks the
cache of the coins may be read, lose entries and be flushed. -/
inductive Step (env : Env) (ctx : ContextualEnv) (p : Params) (trim : TrimEnv)
    (txs : List CTransaction) : PoolNode → PoolNode → Prop where
  | add {n : PoolNode} {entry : CTxMemPoolEntry} {pool : MemPool} {entryId : Nat} :
      n.Accepts entry.tx → entry.tx ∈ txs → n.pool.addUnchecked entry = .ok (pool, entryId) →
      Step env ctx p trim txs n { n with pool := pool }
  | removeRecursive {n : PoolNode} {tx : CTransaction} {pool : MemPool} :
      n.pool.removeRecursive tx = .ok pool → Step env ctx p trim txs n { n with pool := pool }
  | expire {n : PoolNode} {time : Int} {fast : Bool} {pool : MemPool} {removed : Nat} :
      n.pool.expire time fast = .ok (pool, removed) →
      Step env ctx p trim txs n { n with pool := pool }
  | trimToSize {n : PoolNode} {sizelimit : Nat} {pool : MemPool} {removed : List COutPoint} :
      n.pool.trimToSize trim sizelimit = .ok (pool, removed) →
      Step env ctx p trim txs n { n with pool := pool }
  | block {n : PoolNode} {block : CBlock} {out : ConnectOutput (CCoinsViewCache CCoinsViewDB)}
      {tip tip' : CCoinsViewCache CCoinsViewDB} {queuedTx : List CTransaction} {pool : MemPool} :
      n.tip.Accepts env ctx p block out → CCoinsViewCache.Reads n.tip.pcoinsTip tip →
      tip.batchWrite out.view.cacheCoins out.view.hashBlock = .ok tip' →
      (∀ tx ∈ block.vtx, tx ∈ txs) → queuedTx.Perm block.vtx →
      n.pool.removeForBlock queuedTx = .ok pool →
      Step env ctx p trim txs n
        ⟨(n.tip.index.nHeight + 1, block) :: n.blocks, ⟨tip', n.tip.index.next block.hash⟩, pool⟩
  | coins {n : PoolNode} {tip : CoinsTip} :
      AcceptedChain env ctx p n.blocks tip → Step env ctx p trim txs n { n with tip := tip }

/-- The nodes that start with an empty pool on some chain. -/
inductive Reachable (env : Env) (ctx : ContextualEnv) (p : Params) (trim : TrimEnv)
    (txs : List CTransaction) : PoolNode → Prop where
  | start {blocks : List (Nat × CBlock)} {tip : CoinsTip} :
      AcceptedChain env ctx p blocks tip → (∀ tx ∈ chainTxs blocks, tx ∈ txs) →
      Reachable env ctx p trim txs ⟨blocks, tip, {}⟩
  | step {n n' : PoolNode} : Reachable env ctx p trim txs n → Step env ctx p trim txs n n' →
      Reachable env ctx p trim txs n'

/-! ### The pool and the chain -/

/-- **The invariant of a node.** -/
structure Inv (env : Env) (ctx : ContextualEnv) (p : Params) (txs : List CTransaction)
    (n : PoolNode) : Prop where
  chain : AcceptedChain env ctx p n.blocks n.tip
  chain_known : ∀ tx ∈ chainTxs n.blocks, tx ∈ txs
  pool : n.pool.Inv
  pool_known : ∀ (txid : TxId) e, n.pool.mapTx[txid]? = some e →
    e.tx ∈ txs ∧ e.tx.isCoinBase = false
  /-- No transaction of the pool is on the chain. -/
  fresh : ∀ txid ∈ n.pool.mapTx, ¬HasId (chainTxs n.blocks) txid
  /-- Parents are in the pool or on the chain. -/
  backed : ∀ (txid : TxId) e, n.pool.mapTx[txid]? = some e → ∀ o ∈ e.tx.prevouts,
    o.txid ∈ n.pool.mapTx ∨ HasId (chainTxs n.blocks) o.txid

variable {env : Env} {ctx : ContextualEnv} {p : Params} {trim : TrimEnv} {txs : List CTransaction}
  {n n' : PoolNode} {tx : CTransaction} {pool' : MemPool}

theorem inv_start {blocks : List (Nat × CBlock)} {tip : CoinsTip}
    (hchain : AcceptedChain env ctx p blocks tip) (hknown : ∀ tx ∈ chainTxs blocks, tx ∈ txs) :
    Inv env ctx p txs ⟨blocks, tip, {}⟩ where
  chain := hchain
  chain_known := hknown
  pool := inv_empty
  pool_known := fun txid e h => absurd h (by simp)
  fresh := fun txid h => absurd h (by simp)
  backed := fun txid e h => absurd h (by simp)

section Known

variable (hBIP34 : p.BIP34Height = 1) (hcf : CollisionFree txs) (h : Inv env ctx p txs n)

include hBIP34 hcf h

theorem Inv.tipInv : TipInv n.blocks n.tip := h.chain.tipInv hBIP34 (hcf.mono h.chain_known)

/-- **A transaction that passes the checks is not on the chain**: its inputs are there, and
the chain has not spent them. -/
theorem Inv.not_confirmed (hacc : n.Accepts tx) (htx : tx ∈ txs) :
    ¬HasId (chainTxs n.blocks) tx.getId := by
  rintro ⟨tx', htx', hid⟩
  obtain rfl : tx' = tx := hcf.eq_of_getId tx' (h.chain_known tx' htx') tx htx hid
  obtain ⟨hreg, hcommon⟩ := common_of_regular hacc.regular
  obtain ⟨txin, htxin⟩ := exists_mem_of_ne_nil _ (checkTransactionCommon_ok hcommon).1
  have ho : txin.prevout ∈ tx'.prevouts := mem_map_of_mem htxin
  have hspent : txin.prevout ∈ spentBy (chainTxs n.blocks) :=
    mem_spentBy_iff.mpr ⟨tx', htx', hreg, ho⟩
  have htip := h.tipInv hBIP34 hcf
  rcases hacc.inputs _ ho with ⟨c, hc⟩ | ⟨e, he, -⟩
  · exact htip.unspent _ c hc hspent
  · exact h.fresh _ (mem_mapTx_iff.mpr ⟨e, he⟩) (htip.parents _ hspent)

/-- **No orphans**: a transaction that passes the checks has no children in the pool. -/
theorem Inv.addable (hacc : n.Accepts tx) (htx : tx ∈ txs) : n.pool.Addable tx where
  absent := hacc.absent
  unspent := hacc.noConflict
  childless := by
    intro txid e he o ho hid
    rcases h.backed txid e he o ho with hpool | hchain
    · exact hacc.absent (hid ▸ hpool)
    · exact h.not_confirmed hBIP34 hcf hacc htx (hid ▸ hchain)
  not_own := by
    intro o ho hid
    obtain ⟨rank, hrank⟩ := hcf.acyclic
    have hlt := hrank tx htx (common_of_regular hacc.regular).1 o ho
    rw [hid] at hlt
    exact Nat.lt_irrefl _ hlt

theorem Inv.add {entry : CTxMemPoolEntry} {links : TxLinksMap} (hacc : n.Accepts entry.tx)
    (htx : entry.tx ∈ txs) (hinv : (n.pool.withEntry entry links).Inv) :
    Inv env ctx p txs { n with pool := n.pool.withEntry entry links } := by
  have hcases : ∀ {txid : TxId} {e : MempoolEntry},
      (n.pool.withEntry entry links).mapTx[txid]? = some e →
        (entry.tx.getId = txid ∧ e.tx = entry.tx) ∨ n.pool.mapTx[txid]? = some e := by
    intro txid e he
    rw [getElem?_withEntry] at he
    split at he
    next hid => exact .inl ⟨hid, congrArg (·.tx) (Option.some.inj he).symm⟩
    · exact .inr he
  have hmem : ∀ txid : TxId, txid ∈ n.pool.mapTx → txid ∈ (n.pool.withEntry entry links).mapTx :=
    fun txid hin => mem_withEntry.mpr (.inr hin)
  have hnew := h.not_confirmed hBIP34 hcf hacc htx
  refine ⟨h.chain, h.chain_known, hinv, fun txid e he => ?_, fun txid hin => ?_,
    fun txid e he o ho => ?_⟩
  · rcases hcases he with ⟨-, heq⟩ | he
    · rw [heq]
      exact ⟨htx, (common_of_regular hacc.regular).1⟩
    · exact h.pool_known txid e he
  · rcases mem_withEntry.mp hin with rfl | hin
    · exact hnew
    · exact h.fresh txid hin
  · rcases hcases he with ⟨-, heq⟩ | he
    · -- the inputs of the new entry are coins of the chain or outputs of the pool
      rw [heq] at ho
      rcases hacc.inputs o ho with ⟨c, hc⟩ | ⟨e', he', -⟩
      · exact .inr ((h.tipInv hBIP34 hcf).hasId_of_lookup hc)
      · exact .inl (hmem _ (mem_mapTx_iff.mpr ⟨e', he'⟩))
    · exact (h.backed txid e he o ho).imp (hmem _) id

end Known

theorem Inv.removes (h : Inv env ctx p txs n) (hinv : pool'.Inv)
    (hremoves : MemPool.Removes [] n.pool pool') : Inv env ctx p txs { n with pool := pool' } := by
  refine ⟨h.chain, h.chain_known, hinv,
    fun txid e he => h.pool_known txid e (hremoves.sub txid e he),
    fun txid hin => h.fresh txid (hremoves.mem hin), fun txid e he o ho => ?_⟩
  have hold := hremoves.sub txid e he
  rcases h.backed txid e hold o ho with hpar | hchain
  · -- a parent that went would have taken this entry along
    refine .inl ?_
    by_contra hgone
    have hspends : n.pool.Spends txid o.txid := ⟨hpar, e, hold, o, ho, rfl⟩
    exact hremoves.closed _ _ hspends hgone (by simp) (mem_mapTx_iff.mpr ⟨e, he⟩)
  · exact .inr hchain

/-! ### A block -/

section Block

variable {block : CBlock} {out : ConnectOutput (CCoinsViewCache CCoinsViewDB)}
  {queuedTx : List CTransaction}

theorem mem_ids_iff_hasId {vtx : List CTransaction} {txid : TxId} :
    txid ∈ vtx.map CTransaction.getId ↔ HasId vtx txid := by
  rw [mem_map]
  rfl

/-- An entry of the pool with the id of a transaction of a block is that transaction. -/
theorem Inv.eq_of_block (h : Inv env ctx p txs n) (hcf : CollisionFree txs)
    (hknown : ∀ tx ∈ block.vtx, tx ∈ txs) (hperm : queuedTx.Perm block.vtx) :
    ∀ tx ∈ queuedTx, ∀ e, n.pool.mapTx[tx.getId]? = some e → e.tx = tx := by
  intro tx htx e he
  exact hcf.eq_of_getId e.tx (h.pool_known _ e he).1 tx (hknown tx (hperm.mem_iff.mp htx))
    (h.pool.keyed _ e he)

/-- `removeForBlock` keeps the invariant, for the chain with the block. -/
theorem Inv.afterBlock (h : Inv env ctx p txs n) {tip tip' : CCoinsViewCache CCoinsViewDB}
    (hacc : n.tip.Accepts env ctx p block out) (hreads : CCoinsViewCache.Reads n.tip.pcoinsTip tip)
    (hflush : tip.batchWrite out.view.cacheCoins out.view.hashBlock = .ok tip')
    (hknown : ∀ tx ∈ block.vtx, tx ∈ txs) (hperm : queuedTx.Perm block.vtx)
    (hafter : MemPool.AfterBlock queuedTx n.pool pool') :
    Inv env ctx p txs ⟨(n.tip.index.nHeight + 1, block) :: n.blocks,
      ⟨tip', n.tip.index.next block.hash⟩, pool'⟩ := by
  refine ⟨.block h.chain hacc hreads hflush, ?_, hafter.inv, ?_, ?_, ?_⟩
  · intro tx htx
    rcases mem_append.mp htx with htx | htx
    · exact hknown tx htx
    · exact h.chain_known tx htx
  · exact fun txid e he => h.pool_known txid e (hafter.removes.sub txid e he)
  · rintro txid hin ⟨tx, htx, rfl⟩
    rcases mem_append.mp htx with htx | htx
    · exact hafter.gone tx (hperm.mem_iff.mpr htx) hin
    · exact h.fresh _ (hafter.removes.mem hin) ⟨tx, htx, rfl⟩
  · intro txid e he o ho
    have hold := hafter.removes.sub txid e he
    have hleft : txid ∈ pool'.mapTx := mem_mapTx_iff.mpr ⟨e, he⟩
    rcases h.backed txid e hold o ho with hpar | hchain
    · by_cases hin : o.txid ∈ pool'.mapTx
      · exact .inl hin
      -- the parent went, but not its child: the block has confirmed it
      have hconfirmed : o.txid ∈ queuedTx.map CTransaction.getId := by
        by_contra hnot
        exact hafter.removes.closed _ _ ⟨hpar, e, hold, o, ho, rfl⟩ hin hnot hleft
      obtain ⟨tx, htx, hid⟩ := mem_ids_iff_hasId.mp hconfirmed
      exact .inr ⟨tx, mem_append_left _ (hperm.mem_iff.mp htx), hid⟩
    · exact .inr (hchain.append_left _)

/-- A block does not confirm a transaction of the pool without its parents in the pool. -/
theorem Inv.not_in_block (h : Inv env ctx p txs n) (hBIP34 : p.BIP34Height = 1)
    (hcf : CollisionFree txs) (hacc : n.tip.Accepts env ctx p block out)
    (hknown : ∀ tx ∈ block.vtx, tx ∈ txs) {a b : TxId} (hab : n.pool.Spends b a)
    (ha : ¬HasId block.vtx a) : ¬HasId block.vtx b := by
  rintro ⟨tx, htx, rfl⟩
  obtain ⟨hamem, e, he, o, ho, rfl⟩ := hab
  obtain rfl : e.tx = tx := hcf.eq_of_getId e.tx (h.pool_known _ e he).1 tx (hknown tx htx)
    (h.pool.keyed _ e he)
  have hspent : o ∈ spentBy (block.vtx ++ chainTxs n.blocks) := by
    rw [spentBy_append, mem_append]
    exact .inl (mem_spentBy_iff.mpr ⟨e.tx, htx, (h.pool_known _ e he).2, ho⟩)
  obtain ⟨parent, hparent, hid⟩ := parents_of_accepts (h.tipInv hBIP34 hcf) hacc o hspent
  rcases mem_append.mp hparent with hparent | hparent
  · exact ha ⟨parent, hparent, hid⟩
  · exact h.fresh _ hamem ⟨parent, hparent, hid⟩

end Block

/-! ### All states -/

theorem Inv.step (hBIP34 : p.BIP34Height = 1) (hcf : CollisionFree txs) (h : Inv env ctx p txs n)
    (hstep : Step env ctx p trim txs n n') : Inv env ctx p txs n' := by
  cases hstep with
  | add hacc htx hrun =>
    obtain ⟨links, hadd, hinv⟩ := addUnchecked_spec h.pool (h.addable hBIP34 hcf hacc htx)
    cases hadd.symm.trans hrun
    exact h.add hBIP34 hcf hacc htx hinv
  | removeRecursive hrun =>
    obtain ⟨pool', hrun', hinv, hremoves, -⟩ := removeRecursive_spec h.pool _
    cases hrun'.symm.trans hrun
    exact h.removes hinv hremoves
  | expire hrun =>
    obtain ⟨pool', _, hrun', hinv, hremoves⟩ := expire_spec h.pool _ _
    cases hrun'.symm.trans hrun
    exact h.removes hinv hremoves
  | trimToSize hrun =>
    obtain ⟨pool', _, hrun', hinv, hremoves⟩ := trimToSize_spec h.pool _ _
    cases hrun'.symm.trans hrun
    exact h.removes hinv hremoves
  | block hacc hreads hflush hknown hperm hrun =>
    obtain ⟨pool', hrun', hafter⟩ :=
      removeForBlock_spec h.pool (h.eq_of_block hcf hknown hperm)
    cases hrun'.symm.trans hrun
    exact h.afterBlock hacc hreads hflush hknown hperm hafter
  | coins hchain =>
    exact ⟨hchain, h.chain_known, h.pool, h.pool_known, h.fresh, h.backed⟩

theorem Reachable.inv (hBIP34 : p.BIP34Height = 1) (hcf : CollisionFree txs)
    (h : Reachable env ctx p trim txs n) : Inv env ctx p txs n := by
  induction h with
  | start hchain hknown => exact inv_start hchain hknown
  | step _ hstep ih => exact ih.step hBIP34 hcf hstep

/-- The entries of the pool that depend on an entry. -/
def Descendant (pool : MemPool) : TxId → TxId → Prop :=
  Relation.TransGen fun a b => pool.Spends b a

/-- **A removal takes all descendants along**: with an entry, everything in the pool that depends on
it goes. -/
def TakesDescendants (pool pool' : MemPool) (except : TxId → Prop) : Prop :=
  ∀ a, a ∈ pool.mapTx → a ∉ pool'.mapTx → ¬ except a →
    ∀ b, Descendant pool a b → b ∉ pool'.mapTx

theorem takesDescendants_of_step {pool : MemPool} {except : TxId → Prop}
    (hstep : ∀ a b, pool.Spends b a → a ∉ pool'.mapTx → ¬except a → b ∉ pool'.mapTx ∧ ¬except b) :
    TakesDescendants pool pool' except := by
  intro a _ hgone hexcept b hdesc
  suffices hboth : b ∉ pool'.mapTx ∧ ¬except b from hboth.1
  induction hdesc with
  | single hab => exact hstep _ _ hab hgone hexcept
  | tail _ hbc ih => exact hstep _ _ hbc ih.1 ih.2

theorem takesDescendants_of_removes {pool : MemPool} (h : MemPool.Removes [] pool pool') :
    TakesDescendants pool pool' fun _ => False :=
  takesDescendants_of_step fun a b hab ha _ => ⟨h.closed a b hab ha (by simp), id⟩

end PoolNode

/-- **The memory pool is consistent in every state of a node**, and every operation returns.
`mapNextTx` maps the inputs of the pool to their spenders, the links are the spending relation in
both directions, `totalTxSize` is the sum of the sizes, and parents have smaller numbers than
children. A removal that is not for a block takes all descendants along; `removeRecursive` of a
transaction that is not in the pool takes its children along; and after a block nothing in the pool
spends what the block has spent. -/
theorem mempool_consistent {env : Env} {ctx : ContextualEnv} {p : Params} {trim : TrimEnv}
    {txs : List CTransaction} {n : PoolNode} (hBIP34 : p.BIP34Height = 1)
    (hcf : CollisionFree txs) (hreach : PoolNode.Reachable env ctx p trim txs n) :
    n.pool.Inv ∧
    (∀ entry : CTxMemPoolEntry, n.Accepts entry.tx → entry.tx ∈ txs →
      ∃ pool' entryId, n.pool.addUnchecked entry = .ok (pool', entryId)) ∧
    (∀ tx, ∃ pool', n.pool.removeRecursive tx = .ok pool' ∧ tx.getId ∉ pool'.mapTx ∧
      (∀ (txid : TxId) e, pool'.mapTx[txid]? = some e → ∀ o ∈ e.tx.prevouts, o.txid ≠ tx.getId) ∧
      PoolNode.TakesDescendants n.pool pool' fun _ => False) ∧
    (∀ time fast, ∃ pool' removed, n.pool.expire time fast = .ok (pool', removed) ∧
      PoolNode.TakesDescendants n.pool pool' fun _ => False) ∧
    (∀ sizelimit, ∃ pool' removed, n.pool.trimToSize trim sizelimit = .ok (pool', removed) ∧
      PoolNode.TakesDescendants n.pool pool' fun _ => False) ∧
    (∀ block out queuedTx, n.tip.Accepts env ctx p block out → (∀ tx ∈ block.vtx, tx ∈ txs) →
      queuedTx.Perm block.vtx →
      ∃ pool', n.pool.removeForBlock queuedTx = .ok pool' ∧
        (∀ (txid : TxId) e, pool'.mapTx[txid]? = some e →
          ∀ tx ∈ block.vtx, ∀ o ∈ tx.prevouts, o ∉ e.tx.prevouts) ∧
        PoolNode.TakesDescendants n.pool pool' (HasId block.vtx)) := by
  have h := hreach.inv hBIP34 hcf
  refine ⟨h.pool, fun entry hacc htx => ?_, fun tx => ?_, fun time fast => ?_, fun sizelimit => ?_,
    fun block out queuedTx hacc hknown hperm => ?_⟩
  · obtain ⟨links, hadd, -⟩ := addUnchecked_spec h.pool (h.addable hBIP34 hcf hacc htx)
    exact ⟨_, _, hadd⟩
  · obtain ⟨pool', hrun, -, hremoves, hgone, hchildren⟩ := removeRecursive_spec h.pool tx
    exact ⟨pool', hrun, hgone, hchildren, PoolNode.takesDescendants_of_removes hremoves⟩
  · obtain ⟨pool', removed, hrun, -, hremoves⟩ := expire_spec h.pool time fast
    exact ⟨pool', removed, hrun, PoolNode.takesDescendants_of_removes hremoves⟩
  · obtain ⟨pool', removed, hrun, -, hremoves⟩ := trimToSize_spec h.pool trim sizelimit
    exact ⟨pool', removed, hrun, PoolNode.takesDescendants_of_removes hremoves⟩
  · obtain ⟨pool', hrun, hafter⟩ :=
      removeForBlock_spec h.pool (h.eq_of_block hcf hknown hperm)
    refine ⟨pool', hrun, fun txid e he tx htx o ho hin => ?_,
      PoolNode.takesDescendants_of_step fun a b hab ha hnot => ⟨?_, ?_⟩⟩
    · have hnone := hafter.unspent tx (hperm.mem_iff.mpr htx) o ho
      cases hnone.symm.trans (hafter.inv.next_of_mem he hin)
    · refine hafter.removes.closed a b hab ha fun hmem => hnot ?_
      obtain ⟨tx, htx, hid⟩ := PoolNode.mem_ids_iff_hasId.mp hmem
      exact ⟨tx, hperm.mem_iff.mp htx, hid⟩
    · -- a child in the block has its parent there or on the chain
      exact h.not_in_block hBIP34 hcf hacc hknown hab hnot

/-! ### A parent and a child in the pool

The first block has one coin. A parent that spends it and a child of the parent are added,
and then the parent is removed. -/

namespace PooledChild

/-- All blocks have time 0. -/
def ctx : ContextualEnv := .ofTimes (fun _ => 0) fun _ => 0

/-- A pool that takes no memory. -/
def trim : TrimEnv := ⟨fun _ => 0, 0⟩

/-- An output of value 0. -/
def out : CTxOut := { nValue := 0, scriptPubKey := [] }

/-- The transaction in the pool. -/
def parent : CTransaction := { vin := [{ prevout := ⟨1, 0⟩ }], vout := [out], hash := 8 }

/-- A transaction that spends it. -/
def child : CTransaction := { vin := [{ prevout := ⟨8, 0⟩ }], vout := [out], hash := 9 }

/-- Its entry in the pool. -/
def entryOf (tx : CTransaction) : CTxMemPoolEntry := ⟨tx, 0, 0, false, 0⟩

/-- All transactions of the run. -/
def txs : List CTransaction := paddedFirstBlock.vtx ++ [parent, child]

theorem collisionFree : CollisionFree txs := ⟨by decide +kernel, id, by decide +kernel⟩

/-- The pool that `addUnchecked` leaves. -/
def poolWith (pool : MemPool) (tx : CTransaction) : MemPool :=
  match pool.addUnchecked (entryOf tx) with
  | .ok (pool', _) => pool'
  | .error _ => pool

theorem addUnchecked_poolWith {pool : MemPool} {tx : CTransaction}
    (h : (pool.addUnchecked (entryOf tx)).isOk = true) :
    ∃ entryId, pool.addUnchecked (entryOf tx) = .ok (poolWith pool tx, entryId) := by
  obtain ⟨r, hadd⟩ := Outcome.exists_of_isOk h
  exact ⟨r.2, by simp [poolWith, hadd]⟩

/-- The chain with the first block, and its coin. -/
theorem exists_chain :
    ∃ tip, AcceptedChain Env.permissive ctx mainParams [(1, paddedFirstBlock)] tip ∧
    ∃ c, tip.pcoinsTip.lookup ⟨1, 0⟩ = some c := by
  obtain ⟨tip, hchain⟩ := exists_firstChain
  refine ⟨tip, hchain, Option.isSome_iff_exists.mp ?_⟩
  rw [hchain.lookup_eq rfl collisionFree_firstBlock]
  decide +kernel

end PooledChild

open PooledChild in
/-- The child goes with its parent. -/
theorem mempool_consistent_parent :
    ∃ n : PoolNode, n.pool = poolWith (poolWith {} parent) child ∧ n.pool.Inv ∧
      PoolNode.Descendant n.pool 8 9 ∧
      ∃ pool', n.pool.removeRecursive parent = .ok pool' ∧ 9 ∉ pool'.mapTx := by
  obtain ⟨tip, hchain, c, hc⟩ := exists_chain
  obtain ⟨id₁, hadd₁⟩ := addUnchecked_poolWith
    (show (({} : MemPool).addUnchecked (entryOf parent)).isOk = true by decide +kernel)
  obtain ⟨id₂, hadd₂⟩ := addUnchecked_poolWith
    (show ((poolWith {} parent).addUnchecked (entryOf child)).isOk = true by decide +kernel)
  have hin₁ : (poolWith {} parent).mapTx[8]? = some ⟨entryOf parent, 1, 0⟩ := by decide +kernel
  have habsent : child.getId ∉ (poolWith {} parent).mapTx := by decide +kernel
  have hfree : ∀ o ∈ child.prevouts, (poolWith {} parent).mapNextTx[o]? = none := by decide +kernel
  have hstart : PoolNode.Reachable Env.permissive ctx mainParams trim txs
      ⟨[(1, paddedFirstBlock)], tip, {}⟩ :=
    .start hchain fun tx htx => by
      rw [chainTxs, flatMap_cons, flatMap_nil, append_nil] at htx
      exact mem_append_left _ htx
  have hparent : PoolNode.Accepts ⟨[(1, paddedFirstBlock)], tip, {}⟩ parent :=
    ⟨by decide +kernel, by simp, by simp, fun o ho => by
      obtain rfl : o = ⟨1, 0⟩ := by simpa [parent, CTransaction.prevouts] using ho
      exact .inl ⟨c, hc⟩⟩
  have hchild : PoolNode.Accepts ⟨[(1, paddedFirstBlock)], tip, poolWith {} parent⟩ child :=
    ⟨by decide +kernel, habsent, hfree, fun o ho => by
      obtain rfl : o = ⟨8, 0⟩ := by simpa [child, CTransaction.prevouts] using ho
      exact .inr ⟨_, hin₁, by decide⟩⟩
  have hreach := (hstart.step (.add hparent (by decide +kernel) hadd₁)).step
    (.add hchild (by decide +kernel) hadd₂)
  obtain ⟨hinv, -, hremove, -⟩ := mempool_consistent rfl collisionFree hreach
  obtain ⟨pool', hrun, hgone, -, htakes⟩ := hremove parent
  have hin₂ : 8 ∈ (poolWith (poolWith {} parent) child).mapTx := by decide +kernel
  have hchild₂ : (poolWith (poolWith {} parent) child).mapTx[9]? = some ⟨entryOf child, 2, 0⟩ := by
    decide +kernel
  have hdesc : PoolNode.Descendant (poolWith (poolWith {} parent) child) 8 9 :=
    .single ⟨hin₂, _, hchild₂, ⟨8, 0⟩, by decide, rfl⟩
  exact ⟨_, rfl, hinv, hdesc, pool', hrun, htakes 8 hin₂ hgone id 9 hdesc⟩

end DeVault
