import DeVault.CoinsStack
import DeVault.Lib.Between

/-!
# Flushing the coins in batches (`CCoinsViewDB::BatchWrite`, `txdb.cpp`)

A flush of the coins cache may be too large for one write. `BatchWrite` collects the dirty
entries into a batch, writes it whenever it has grown past a limit, and goes on with an
empty one. Only single batches are atomic. So the first batch also replaces the best block
by the record of the transition, the pair of the new and the old tip, and the last one
takes that record away again and sets the new best block.

`batchWrite` gives the batches. What a crash leaves are the first few of them, written.
-/

namespace DeVault

open CCoinsViewCache

/-- The coins database with `DB_HEAD_BLOCKS`. A tip that is not recorded is null, and
heads that are not recorded are empty. -/
structure CoinsStore extends CCoinsViewDB where
  headBlocks : List BlockHash

instance : CCoinsView CoinsStore where
  getCoin db o := db.coins[o]?
  getBestBlock db := db.hashBestBlock
  isSpent_getCoin db o c h := db.unspent o c h

/-- The writes of a `CDBBatch` to the coins database. -/
inductive BatchOp where
  | eraseBestBlock
  | writeBestBlock (hashBlock : BlockHash)
  | eraseHeadBlocks
  | writeHeadBlocks (heads : List BlockHash)
  | eraseCoin (outpoint : COutPoint)
  | writeCoin (outpoint : COutPoint) (coin : Coin) (unspent : coin.isSpent = false)

/-- What a flush reads besides the coins. -/
structure FlushEnv where
  /-- `batch.SizeEstimate() > batch_size`. -/
  full : List BatchOp → Bool
  /-- The order in which the hash map is iterated. -/
  order : Std.ExtTreeMap COutPoint CCoinsCacheEntry → List (COutPoint × CCoinsCacheEntry)
  order_perm : ∀ m, (order m).Perm m.toList

variable (it : COutPoint × CCoinsCacheEntry)

/-- The writes for an entry of the cache. -/
def entryOps : List BatchOp :=
  if it.2.dirty then
    if h : it.2.coin.isSpent = true then [.eraseCoin it.1]
    else [.writeCoin it.1 it.2.coin (by simpa using h)]
  else []

/-- The loop over the entries, with the batch collected so far, to the last batch. -/
def batchLoop (full : List BatchOp → Bool) (hashBlock : BlockHash) :
    List BatchOp → List (COutPoint × CCoinsCacheEntry) → List (List BatchOp)
  | batch, [] => [batch ++ [.eraseHeadBlocks, .writeBestBlock hashBlock]]
  | batch, it :: rest =>
    if full (batch ++ entryOps it) then
      (batch ++ entryOps it) :: batchLoop full hashBlock [] rest
    else
      batchLoop full hashBlock (batch ++ entryOps it) rest

variable {v : CCoinsViewCache CoinsStore}

variable (db : CoinsStore) (hashBlock : BlockHash)

namespace CoinsStore

/-- One write. -/
def apply : BatchOp → CoinsStore
  | .eraseBestBlock => { db with hashBestBlock := 0 }
  | .writeBestBlock hashBlock => { db with hashBestBlock := hashBlock }
  | .eraseHeadBlocks => { db with headBlocks := [] }
  | .writeHeadBlocks heads => { db with headBlocks := heads }
  | .eraseCoin o =>
    { db with coins := db.coins.erase o, unspent := Ledger.forall_erase db.unspent o }
  | .writeCoin o coin h =>
    { db with coins := db.coins.insert o coin, unspent := Ledger.forall_insert db.unspent h }

/-- `CDBWrapper::WriteBatch`: the operations of a batch, in order. -/
def writeBatch (batch : List BatchOp) : CoinsStore := batch.foldl apply db

/-- Writing batches one after the other. -/
def writeBatches (batches : List (List BatchOp)) : CoinsStore :=
  batches.foldl writeBatch db

/-- `old_tip`: the best block, or in the middle of a transition the tip that it left. -/
def oldTip : Except Fault BlockHash :=
  if db.hashBestBlock = 0 then
    match db.headBlocks with
    | [newHead, oldHead] => do
      Outcome.require (newHead == hashBlock) (.assertion "old_heads[0] == hashBlock")
      .ok oldHead
    | _ => .ok 0
  else .ok db.hashBestBlock

/-- `CCoinsViewDB::BatchWrite`: the batches that it writes. -/
def batchWrite (env : FlushEnv) (db : CoinsStore)
    (mapCoins : Std.ExtTreeMap COutPoint CCoinsCacheEntry) (hashBlock : BlockHash) :
    Except Fault (List (List BatchOp)) := do
  Outcome.require (hashBlock != 0) (.assertion "!hashBlock.IsNull()")
  let old ← db.oldTip hashBlock
  .ok (batchLoop env.full hashBlock [.eraseBestBlock, .writeHeadBlocks [hashBlock, old]]
    (env.order mapCoins))

/-- The coins of a database. -/
def getCoin (o : COutPoint) : Option Coin := db.coins[o]?

variable {db db' : CoinsStore} {hashBlock old : BlockHash} {a b : COutPoint → Option Coin}

/-- **In the middle of a transition** between two tips, from the coins `a` to the coins `b`. -/
structure Flushing (hashBlock old : BlockHash) (a b : COutPoint → Option Coin) (db : CoinsStore) :
    Prop where
  hashBestBlock : db.hashBestBlock = 0
  headBlocks : db.headBlocks = [hashBlock, old]
  coins : Between a b db.getCoin

/-- **At the end**: the database is at `hashBlock` and has the coins `b`. -/
structure Flushed (hashBlock : BlockHash) (b : COutPoint → Option Coin) (db : CoinsStore) :
    Prop where
  hashBestBlock : db.hashBestBlock = hashBlock
  headBlocks : db.headBlocks = []
  coins : ∀ o, db.getCoin o = b o

/-! ### The writes for the entries -/

@[simp] theorem writeBatch_nil : db.writeBatch [] = db := rfl

theorem writeBatch_append (xs ys : List BatchOp) :
    db.writeBatch (xs ++ ys) = (db.writeBatch xs).writeBatch ys := by
  rw [writeBatch, List.foldl_append]
  rfl

/-- The writes for an entry are those of `CCoinsViewDB::BatchWrite` for it, and leave tip
and heads alone. -/
theorem writeBatch_entryOps (it : COutPoint × CCoinsCacheEntry) : db.writeBatch (entryOps it) =
      { db with toCCoinsViewDB := db.toCCoinsViewDB.writeEntry it } := by
  unfold entryOps CCoinsViewDB.writeEntry
  split
  · split <;> rfl
  · rfl

theorem getCoin_writeBatch_entryOps (it : COutPoint × CCoinsCacheEntry)
    (o : COutPoint) :
    (db.writeBatch (entryOps it)).getCoin o =
      if it.1 = o then written (db.getCoin o) it.2 else db.getCoin o := by
  rw [writeBatch_entryOps]
  exact getElem?_writeEntry db.toCCoinsViewDB it o

/-- Writing the entries one by one, in any order, gives the coins that the cache shows. -/
theorem writeEntries_spec (db : CoinsStore) (hv : v.Wf)
    {l : List (COutPoint × CCoinsCacheEntry)} (hl : l.Perm v.cacheCoins.toList)
    (hdb : ∀ o, db.getCoin o = v.base.getCoin o) (o : COutPoint) :
    (l.foldl CCoinsViewDB.writeEntry db.toCCoinsViewDB).coins[o]? = v.lookup o := by
  have hnd : (l.map Prod.fst).Nodup :=
    (hl.map Prod.fst).nodup_iff.mpr (Ledger.nodup_keys v.cacheCoins)
  obtain ⟨hin, hout⟩ := foldl_writeEntry db.toCCoinsViewDB hnd
  have hbase : ∀ o : COutPoint, db.coins[o]? = CCoinsView.getCoin v.base o := hdb
  rw [lookup_eq_written hv.clean]
  cases hc : v.cacheCoins[o]? with
  | none =>
    rw [hout o fun hmem => mem_keys_iff.mp (((hl.map Prod.fst).mem_iff).mp hmem) hc]
    exact hbase o
  | some e =>
    have hmem := hl.mem_iff.mpr (Std.ExtTreeMap.mem_toList_iff_getElem?_eq_some.mpr hc)
    rw [hin (o, e) hmem, hbase]

/-- What an entry of a cache writes is the coin that the cache shows. -/
theorem Flushing.entry
    (h : Flushing hashBlock old a v.lookup db) {it : COutPoint × CCoinsCacheEntry}
    (hit : it ∈ v.cacheCoins.toList) :
    Flushing hashBlock old a v.lookup (db.writeBatch (entryOps it)) := by
  have hcached := Std.ExtTreeMap.mem_toList_iff_getElem?_eq_some.mp hit
  refine ⟨?_, ?_, h.coins.cut fun o => ?_⟩
  · rw [writeBatch_entryOps]
    exact (hashBestBlock_writeEntry _ _).trans h.hashBestBlock
  · rw [writeBatch_entryOps]
    exact h.headBlocks
  · rw [getCoin_writeBatch_entryOps]
    split
    next ho =>
      subst ho
      -- an entry that is not dirty is not written
      cases hd : it.2.dirty with
      | false => exact Or.inl (by simp [written, hd])
      | true =>
        refine Or.inr ?_
        rw [lookup_of_cached hcached, written, hd, if_pos rfl]
    · exact Or.inl rfl

/-! ### The batches -/

@[simp] theorem writeBatches_nil : db.writeBatches [] = db := rfl

theorem writeBatches_cons (batch : List BatchOp) (batches : List (List BatchOp)) :
    db.writeBatches (batch :: batches) = (db.writeBatch batch).writeBatches batches := rfl

/-- **The loop of `BatchWrite`.** A property of the database that the entries keep holds after every
batch but the last, and in the end all entries are written. -/
theorem batchLoop_spec {Q : CoinsStore → Prop} (full : List BatchOp → Bool)
    (l : List (COutPoint × CCoinsCacheEntry))
    (hQ : ∀ it ∈ l, ∀ db : CoinsStore, Q db → Q (db.writeBatch (entryOps it)))
    {batch : List BatchOp} (hbatch : Q (db.writeBatch batch)) :
    (∀ k, 0 < k → k < (batchLoop full hashBlock batch l).length →
      Q (db.writeBatches ((batchLoop full hashBlock batch l).take k))) ∧
    db.writeBatches (batchLoop full hashBlock batch l) =
      { l.foldl (fun db it => db.writeBatch (entryOps it)) (db.writeBatch batch) with
        headBlocks := [], hashBestBlock := hashBlock } := by
  induction l generalizing batch db with
  | nil =>
    rw [batchLoop]
    refine ⟨fun k hk hlt => ?_, ?_⟩
    · rw [List.length_singleton] at hlt
      omega
    · rw [writeBatches_cons, writeBatches_nil, writeBatch_append]
      rfl
  | cons it l ih =>
    rw [List.forall_mem_cons] at hQ
    have hnext : Q (db.writeBatch (batch ++ entryOps it)) := by
      rw [writeBatch_append]
      exact hQ.1 _ hbatch
    rw [batchLoop, List.foldl_cons, ← writeBatch_append]
    split
    · -- the batch is written, and the next one is empty
      have hempty : Q ((db.writeBatch (batch ++ entryOps it)).writeBatch []) := hnext
      obtain ⟨hmid, hend⟩ := ih hQ.2 hempty
      refine ⟨fun k hk hlt => ?_, hend⟩
      obtain ⟨k, rfl⟩ := Nat.exists_eq_succ_of_ne_zero (Nat.pos_iff_ne_zero.mp hk)
      rw [List.take_succ_cons, writeBatches_cons]
      cases Nat.eq_zero_or_pos k with
      | inl h0 => rwa [h0, List.take_zero, writeBatches_nil]
      | inr hpos => exact hmid k hpos (Nat.lt_of_succ_lt_succ hlt)
    · exact ih hQ.2 hnext

theorem foldl_writeBatch_entryOps (l : List (COutPoint × CCoinsCacheEntry)) :
    l.foldl (fun db it => db.writeBatch (entryOps it)) db =
      { db with toCCoinsViewDB := l.foldl CCoinsViewDB.writeEntry db.toCCoinsViewDB } := by
  induction l generalizing db with
  | nil => rfl
  | cons it l ih => rw [List.foldl_cons, writeBatch_entryOps, ih, List.foldl_cons]

/-- **A flush in batches.** A crash between two of them leaves the database in the middle of the
transition; after the last it has the coins that the cache showed. -/
theorem batchWrite_spec (env : FlushEnv) (hv : v.Wf)
    (hne : hashBlock ≠ 0) (hold : v.base.oldTip hashBlock = .ok old) :
    ∃ batches, v.base.batchWrite env v.cacheCoins hashBlock = .ok batches ∧
      (∀ k, 0 < k → k < batches.length →
        Flushing hashBlock old v.base.getCoin v.lookup (v.base.writeBatches (batches.take k))) ∧
      Flushed hashBlock v.lookup (v.base.writeBatches batches) := by
  have hperm := env.order_perm v.cacheCoins
  have hstart : Flushing hashBlock old v.base.getCoin v.lookup
      (v.base.writeBatch [.eraseBestBlock, .writeHeadBlocks [hashBlock, old]]) :=
    ⟨rfl, rfl, .left _ _⟩
  obtain ⟨hmid, hend⟩ := batchLoop_spec env.full (env.order v.cacheCoins)
    (fun it hit db hdb => hdb.entry (hperm.mem_iff.mp hit)) hstart
  refine ⟨_, ?_, hmid, ?_⟩
  · refine Outcome.bind_ok (Outcome.require_ok (by simpa using hne)) ?_
    exact Outcome.bind_ok hold rfl
  · rw [hend, foldl_writeBatch_entryOps]
    refine ⟨rfl, rfl, fun o => ?_⟩
    exact writeEntries_spec (v.base.writeBatch [.eraseBestBlock, .writeHeadBlocks [hashBlock, old]])
      hv hperm (fun _ => rfl) o

end CoinsStore

end DeVault
