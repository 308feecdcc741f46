import DeVault.CoinsStack
import DeVault.Consensus.TxCheck

/-!
# The memory pool and the coins it shows (`txmempool.h`, `txmempool.cpp`)

`CTxMemPool` holds the transactions that wait for a block, by id. The pool carries
what every transaction in it has passed: it is stored under its own id, and
`CheckRegularTransaction` accepted it.

`CCoinsViewMemPool` lays the outputs of these transactions over a coins view, so
that a transaction can spend them before they are mined. An output of the pool is
shown as it stands in the transaction, at the height `MEMPOOL_HEIGHT`.
-/

namespace DeVault

/-- `CTxMemPoolEntry`: the transaction, its fee, and what else is recorded when it
enters the pool. -/
structure CTxMemPoolEntry where
  tx : CTransaction
  nFee : Int
  nTime : Int
  spendsCoinbase : Bool
  sigChecks : Nat
  deriving DecidableEq, Repr

/-- What the transactions of a pool have passed: they are stored by their id, and
their own check accepted them. -/
def MapTxChecked (mapTx : Std.ExtTreeMap TxId CTxMemPoolEntry) : Prop :=
  ∀ (txid : TxId) (e : CTxMemPoolEntry), mapTx[txid]? = some e →
    e.tx.getId = txid ∧ checkRegularTransaction e.tx = .ok ()

/-- `CTxMemPool`, without its indexes. -/
structure CTxMemPool where
  mapTx : Std.ExtTreeMap TxId CTxMemPoolEntry
  checked : MapTxChecked mapTx

variable (pool : CTxMemPool)

namespace CTxMemPool

/-- The pool without transactions. -/
def empty : CTxMemPool where
  mapTx := ∅
  checked := nofun

/-- `CTxMemPool::get`. -/
def get (txid : TxId) : Option CTransaction := pool.mapTx[txid]?.map (·.tx)

/-- `exists`. -/
def has (txid : TxId) : Bool := pool.mapTx.contains txid

/-- The outpoints that the pool spends, which are the keys of `mapNextTx`. -/
def mapNextTx : List COutPoint :=
  pool.mapTx.toList.flatMap fun e => e.2.tx.prevouts

/-- `addUnchecked` of an entry whose transaction passed its check. -/
def addUnchecked (entry : CTxMemPoolEntry)
    (h : checkRegularTransaction entry.tx = .ok ()) : CTxMemPool where
  mapTx := pool.mapTx.insert entry.tx.getId entry
  checked := Ledger.forall_insert pool.checked ⟨rfl, h⟩

theorem mapTxChecked_eraseAll {mapTx : Std.ExtTreeMap TxId CTxMemPoolEntry}
    (h : MapTxChecked mapTx) (evicted : List TxId) :
    MapTxChecked (evicted.foldl (fun m txid => m.erase txid) mapTx) := by
  induction evicted generalizing mapTx with
  | nil => exact h
  | cons a evicted ih => exact ih (Ledger.forall_erase h a)

/-- The pool without the transactions that `LimitSize` evicts. -/
def limitSize (evicted : List TxId) : CTxMemPool where
  mapTx := evicted.foldl (fun m txid => m.erase txid) pool.mapTx
  checked := mapTxChecked_eraseAll pool.checked evicted

/-- Eviction takes entries away and changes none. -/
theorem getElem?_limitSize {pool : CTxMemPool} {evicted : List TxId} {txid : TxId}
    (h : (pool.limitSize evicted).has txid = true) :
    (pool.limitSize evicted).mapTx[txid]? = pool.mapTx[txid]? := by
  have herase : ∀ (l : List TxId) (m : Std.ExtTreeMap TxId CTxMemPoolEntry),
      (l.foldl (fun m txid => m.erase txid) m)[txid]? = if txid ∈ l then none else m[txid]? := by
    intro l
    induction l with
    | nil => intro m; simp
    | cons a l ih =>
      intro m
      rw [List.foldl_cons, ih, Ledger.getElem?_erase]
      by_cases hmem : txid ∈ l
      · simp [hmem]
      · by_cases ha : a = txid
        · simp [ha]
        · simp [hmem, ha, Ne.symm ha]
  have hget := herase evicted pool.mapTx
  have hsome : (pool.limitSize evicted).mapTx[txid]? ≠ none := by
    intro hnone
    rw [has, Std.ExtTreeMap.contains_eq_isSome_getElem?, hnone] at h
    cases h
  rw [limitSize] at hsome ⊢
  rw [hget] at hsome ⊢
  split at hsome
  · exact absurd rfl hsome
  next hnot => rw [if_neg hnot]

variable {pool : CTxMemPool} {txid : TxId} {tx : CTransaction}

theorem getId_of_get (h : pool.get txid = some tx) : tx.getId = txid := by
  obtain ⟨e, he, rfl⟩ := Option.map_eq_some_iff.mp h
  exact (pool.checked txid e he).1

theorem moneyRange_of_get (h : pool.get txid = some tx) {out : CTxOut} (hout : out ∈ tx.vout) :
    moneyRange out.nValue = true := by
  obtain ⟨e, he, rfl⟩ := Option.map_eq_some_iff.mp h
  exact moneyRange_of_common (common_of_regular (pool.checked txid e he).2).2 out hout

end CTxMemPool

/-- `MEMPOOL_HEIGHT`. -/
def mempoolHeight : Nat := 0x7fffffff

/-- `CCoinsViewMemPool`: the coins of a view and of the pool. -/
structure CCoinsViewMemPool (B : Type) where
  base : B
  mempool : CTxMemPool

/-- `CCoinsViewMemPool::GetCoin`: an output of the pool as it stands. -/
def CCoinsViewMemPool.getCoin {B : Type} [CCoinsView B] (v : CCoinsViewMemPool B)
    (outpoint : COutPoint) : Option Coin :=
  match v.mempool.get outpoint.txid with
  | some ptx => ptx.vout[outpoint.n]?.map fun out => ⟨out, mempoolHeight, false⟩
  | none => CCoinsView.getCoin v.base outpoint

instance {B : Type} [CCoinsView B] : CCoinsView (CCoinsViewMemPool B) where
  getCoin := CCoinsViewMemPool.getCoin
  getBestBlock v := CCoinsView.getBestBlock v.base
  isSpent_getCoin v o c h := by
    unfold CCoinsViewMemPool.getCoin at h
    split at h
    next ptx hget =>
      obtain ⟨out, hout, rfl⟩ := Option.map_eq_some_iff.mp h
      exact Coin.isSpent_of_moneyRange
        (CTxMemPool.moneyRange_of_get hget (List.mem_of_getElem? hout))
    · exact CCoinsView.isSpent_getCoin v.base o c h

namespace CCoinsViewMemPool

variable {B : Type} [CCoinsView B] {v : CCoinsViewMemPool B} {o : COutPoint} {ptx : CTransaction}

theorem getCoin_of_get (h : v.mempool.get o.txid = some ptx) :
    CCoinsView.getCoin v o = ptx.vout[o.n]?.map fun out => ⟨out, mempoolHeight, false⟩ := by
  change v.getCoin o = _
  rw [getCoin, h]

theorem getCoin_of_get_none (h : v.mempool.get o.txid = none) :
    CCoinsView.getCoin v o = CCoinsView.getCoin v.base o := by
  change v.getCoin o = _
  rw [getCoin, h]

end CCoinsViewMemPool

end DeVault
