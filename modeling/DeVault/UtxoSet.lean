import DeVault.Coins

/-!
# The set of unspent coins

`UtxoSet` is the coins database: a finite map from outpoints to coins, together
with what holds of every coin that consensus lets in. A cache over it shows a
finite set of coins as well (`CCoinsViewCache.utxo`), namely what a flush would
leave in the database.

`total` is the value of the coins a view shows. Its behaviour under a single operation depends on
whether `FRESH` was applied correctly, so the proofs about supply run on `potential`, which counts a
base coin hidden by a fresh entry as still there.
-/

namespace DeVault

open Ledger
open CCoinsCacheEntry (overwritten)

/-- What consensus guarantees of a coin in the database. -/
structure Coin.Wf (c : Coin) : Prop where
  moneyRange : moneyRange c.out.nValue = true
  spendable : isUnspendable c.out.scriptPubKey = false
  height_pos : 0 < c.nHeight

/-- The coins database. -/
structure UtxoSet where
  coins : Std.ExtTreeMap COutPoint Coin
  hashBestBlock : BlockHash
  wf : ∀ (o : COutPoint) c, coins[o]? = some c → c.Wf

/-- The database of a chain with no block: the genesis coinbase is not in it. -/
def UtxoSet.empty (hashBestBlock : BlockHash) : UtxoSet where
  coins := ∅
  hashBestBlock := hashBestBlock
  wf := fun o c h => absurd h (by simp)

variable (b : UtxoSet)

/-- A database with one more coin. -/
def UtxoSet.add (o : COutPoint) (c : Coin) (hc : c.Wf) : UtxoSet where
  coins := b.coins.insert o c
  hashBestBlock := b.hashBestBlock
  wf := Ledger.forall_insert b.wf hc

instance : CCoinsView UtxoSet where
  getCoin b o := b.coins[o]?
  getBestBlock b := b.hashBestBlock
  isSpent_getCoin b o c h := Coin.isSpent_of_moneyRange (b.wf o c h).moneyRange

theorem getCoin_utxoSet (o : COutPoint) : CCoinsView.getCoin b o = b.coins[o]? := rfl

variable {e : CCoinsCacheEntry} {ow : Bool}

namespace CCoinsViewCache

variable {v v' : CCoinsViewCache UtxoSet} {o : COutPoint} {c : Coin}

/-- The pending writes and erasures of the cache. -/
def pending (v : CCoinsViewCache UtxoSet) : List (COutPoint × Option Coin) :=
  v.cacheCoins.toList.map fun p => (p.1, if p.2.coin.isSpent then none else some p.2.coin)

/-- The unspent coins a view shows. -/
def utxo (v : CCoinsViewCache UtxoSet) : Std.ExtTreeMap COutPoint Coin :=
  Ledger.overlay v.base.coins v.pending

theorem nodup_pending (v : CCoinsViewCache UtxoSet) : (v.pending.map Prod.fst).Nodup := by
  rw [pending, List.map_map]
  exact nodup_keys v.cacheCoins

theorem getElem?_utxo (v : CCoinsViewCache UtxoSet) (o : COutPoint) : v.utxo[o]? = v.lookup o := by
  cases hc : v.cacheCoins[o]? with
  | none =>
    rw [lookup_of_uncached hc, getCoin_utxoSet]
    refine getElem?_overlay_of_notMem fun p hp hpo => ?_
    obtain ⟨q, hq, rfl⟩ := List.mem_map.mp hp
    rw [Std.ExtTreeMap.mem_toList_iff_getElem?_eq_some] at hq
    cases hc.symm.trans (hpo ▸ hq)
  | some e =>
    rw [lookup, peek_of_find (find_of_cached hc)]
    refine getElem?_overlay_of_mem v.nodup_pending (List.mem_map.mpr ⟨(o, e), ?_, rfl⟩)
    rwa [Std.ExtTreeMap.mem_toList_iff_getElem?_eq_some]

theorem utxo_ofBase (hash : BlockHash) : utxo { base := b, hashBlock := hash } = b.coins := by
  refine Std.ExtTreeMap.ext_getElem? fun o => ?_
  rw [getElem?_utxo, lookup_of_uncached (by simp)]
  rfl

/-! ### Every coin in the cache is well formed -/

/-- The unspent coins in the cache are well formed, as those of the database
behind it are. Nothing is asked of the flags. -/
def CoinsWf (v : CCoinsViewCache UtxoSet) : Prop :=
  ∀ (o : COutPoint) e, v.cacheCoins[o]? = some e → e.coin.isSpent = false → e.coin.Wf

theorem CoinsWf.ofBase (hash : BlockHash) : CoinsWf { base := b, hashBlock := hash } :=
  fun o e h => absurd h (by simp)

theorem CoinsWf.find (h : v.CoinsWf) (hf : v.find o = some e)
    (hs : e.coin.isSpent = false) : e.coin.Wf := by
  rcases cached_or_base hf with hc | ⟨-, hb, -⟩
  · exact h o e hc hs
  · exact v.base.wf o e.coin hb

theorem CoinsWf.lookup (h : v.CoinsWf) (hl : v.lookup o = some c) : c.Wf := by
  obtain ⟨rfl, hs⟩ := lookup_eq_some_iff.mp hl
  obtain hf | ⟨e, hf⟩ := Option.eq_none_or_eq_some (v.find o)
  · exact absurd hs (by simp [peek, hf])
  · rw [peek_of_find hf] at hs ⊢
    exact h.find hf hs

theorem CoinsWf.fetchCoin (h : v.CoinsWf) (o : COutPoint) : (v.fetchCoin o).1.CoinsWf :=
  forall_fetchCoin h fun _ hf hs => h.find hf hs

theorem Reads.coinsWf (hr : Reads v v') (h : v.CoinsWf) : v'.CoinsWf := by
  induction hr with
  | refl => exact h
  | fetch o _ ih => exact ih.fetchCoin o

theorem CoinsWf.addCoin (hv : v.CoinsWf) (h : v.addCoin o c ow = .ok v')
    (hr : moneyRange c.out.nValue = true) (hh : 0 < c.nHeight) : v'.CoinsWf :=
  forall_addCoin hv h fun _ hu _ => ⟨hr, hu, hh⟩

theorem CoinsWf.spendCoin (hv : v.CoinsWf) (o : COutPoint) : (v.spendCoin o).1.CoinsWf :=
  forall_spendCoin hv nofun

/-- `AddCoins` keeps the coins well formed: quantisation stays in range. -/
theorem CoinsWf.addCoins (hv : v.CoinsWf) {tx : CTransaction} {nHeight : Nat}
    (h : DeVault.addCoins v tx nHeight false = .ok v')
    (hr : ∀ out ∈ tx.vout, DeVault.moneyRange out.nValue = true) (hh : 0 < nHeight) :
    v'.CoinsWf := by
  refine Outcome.foldlM_ok_induct (P := CoinsWf) hv ?_ h
  intro w p w' hp hw hstep
  refine hw.addCoin hstep ?_ hh
  exact moneyRange_spockQuantize (hr p.1 (List.fst_mem_of_mem_zipIdx hp))

/-! ### Accounting -/

/-- The value of a coin as a contribution to a total. -/
def coinValue (_ : COutPoint) (c : Coin) : Int := c.out.nValue

/-- The value a cache entry shows. -/
def liveValue (c : Coin) : Int := if c.isSpent then 0 else c.out.nValue

/-- The total value of the coins a view shows. -/
def total (v : CCoinsViewCache UtxoSet) : Int := Ledger.weight coinValue v.utxo

/-- What an entry adds to the value of the base. A fresh entry is taken not to replace anything. -/
def entryDelta (o : COutPoint) (e : CCoinsCacheEntry) : Int :=
  liveValue e.coin - if e.fresh then 0 else Ledger.weightAt coinValue b.coins o

/-- The value of the coins a view shows or hides behind fresh entries. -/
def potential (v : CCoinsViewCache UtxoSet) : Int :=
  Ledger.weight coinValue v.base.coins + Ledger.weight (entryDelta v.base) v.cacheCoins

theorem coinValue_nonneg (o : COutPoint) : 0 ≤ weightAt coinValue b.coins o := by
  cases h : b.coins[o]? with
  | none => rw [weightAt_of_none h]
  | some c =>
    rw [weightAt_of_some h]
    exact (moneyRange_iff.mp (b.wf o c h).moneyRange).1

/-- A view never shows more than its potential: the two differ by the base
coins that fresh entries hide. -/
theorem total_le_potential (v : CCoinsViewCache UtxoSet) : v.total ≤ v.potential := by
  rw [total, utxo, weight_overlay coinValue v.nodup_pending, potential, pending,
    List.map_map, weight]
  refine Int.add_le_add_left (List.sum_le_sum fun p _ => ?_) _
  have hb := coinValue_nonneg v.base p.1
  simp only [Function.comp_apply, entryDelta, liveValue]
  cases p.2.coin.isSpent <;> cases p.2.fresh <;> simp [coinValue] <;> omega

/-- What the accounting asks of a cache: entries that are not dirty repeat the
base, and no entry shows a negative value. -/
structure Accounted (v : CCoinsViewCache UtxoSet) : Prop where
  clean : v.Clean
  nonneg : ∀ (o : COutPoint) e, v.cacheCoins[o]? = some e → 0 ≤ liveValue e.coin

theorem liveValue_of_unspent (h : c.isSpent = false) : liveValue c = c.out.nValue := by
  rw [liveValue, h, if_neg (by decide)]

theorem liveValue_of_spent (h : c.isSpent = true) : liveValue c = 0 := by
  rw [liveValue, h, if_pos rfl]

/-- Behind an entry that is not cached stands the base coin it shows. -/
theorem liveValue_of_base (h : v.base.coins[o]? = some e.coin) :
    liveValue e.coin = weightAt coinValue v.base.coins o := by
  rw [weightAt_of_some h, liveValue_of_unspent]
  · rfl
  · exact CCoinsView.isSpent_getCoin v.base o e.coin h

theorem Accounted.find_nonneg (h : v.Accounted) (hf : v.find o = some e) :
    0 ≤ liveValue e.coin := by
  rcases cached_or_base hf with hc | ⟨-, hb, -⟩
  · exact h.nonneg o e hc
  · rw [liveValue_of_base hb]
    exact coinValue_nonneg v.base o

theorem Accounted.fetchCoin (h : v.Accounted) (o : COutPoint) : (v.fetchCoin o).1.Accounted :=
  ⟨h.clean.fetchCoin o, forall_fetchCoin h.nonneg fun _ hf => h.find_nonneg hf⟩

theorem entryDelta_le (o : COutPoint) (e : CCoinsCacheEntry) :
    entryDelta b o e ≤ liveValue e.coin := by
  have hb := coinValue_nonneg b o
  unfold entryDelta
  split <;> omega

/-- Writing an entry moves the potential by the difference of the two deltas. -/
theorem potential_insert : potential { v with cacheCoins := v.cacheCoins.insert o e } =
      v.potential - weightAt (entryDelta v.base) v.cacheCoins o + entryDelta v.base o e := by
  unfold potential
  rw [weight_insert]
  ring

/-- The delta of the entry at `o`, cached or not, is that of the entry found. -/
theorem weightAt_entryDelta (hf : v.find o = some e) :
    weightAt (entryDelta v.base) v.cacheCoins o = entryDelta v.base o e := by
  rcases cached_or_base hf with hc | ⟨hc, hb, hnf⟩
  · rw [weightAt_of_some hc]
  · rw [weightAt_of_none hc, entryDelta, hnf, liveValue_of_base hb]
    simp

@[simp] theorem potential_fetchCoin : (v.fetchCoin o).1.potential = v.potential := by
  rw [fetchCoin_eq]
  obtain hf | ⟨e, hf⟩ := Option.eq_none_or_eq_some (v.find o)
  · simp only [hf]
  · simp only [hf, potential_insert, weightAt_entryDelta hf]
    ring

theorem Reads.potential_eq (h : Reads v v') : v'.potential = v.potential := by
  induction h with
  | refl => rfl
  | fetch o _ ih => rw [potential_fetchCoin, ih]

theorem Reads.accounted (h : Reads v v') (hv : v.Accounted) : v'.Accounted := by
  induction h with
  | refl => exact hv
  | fetch o _ ih => exact ih.fetchCoin o

theorem Accounted.addCoin (hv : v.Accounted) (h : v.addCoin o c ow = .ok v')
    (hc : 0 ≤ c.out.nValue) : v'.Accounted := by
  refine ⟨hv.clean.addCoin h, forall_addCoin hv.nonneg h fun hsp _ => ?_⟩
  rw [overwritten, liveValue_of_unspent hsp]
  exact hc

/-- `AddCoin` raises the potential by at most the value it adds. -/
theorem potential_addCoin_le (hv : v.Accounted) (h : v.addCoin o c ow = .ok v')
    (hc : 0 ≤ c.out.nValue) : v'.potential ≤ v.potential + c.out.nValue := by
  obtain ⟨hsp, ⟨-, rfl⟩ | ⟨-, how, rfl⟩⟩ := addCoin_cases h
  · omega
  rw [potential_insert]
  cases hcached : v.cacheCoins[o]? with
  | none =>
    have hle := entryDelta_le v.base o ((none.getD {} : CCoinsCacheEntry).overwritten c ow)
    rw [overwritten, liveValue_of_unspent hsp] at hle
    rw [weightAt_of_none hcached, overwritten]
    omega
  | some it =>
    have hit := hv.nonneg o it hcached
    rw [weightAt_of_some hcached]
    rw [hcached] at how
    simp only [entryDelta, overwritten, liveValue_of_unspent hsp, Option.getD_some]
    rcases Bool.eq_false_or_eq_true it.fresh with hfr | hfr
    · simp only [hfr, Bool.true_or, if_true]
      omega
    · -- the flag is set now only over a clean entry, which repeats an unspent base coin
      have hset : (!ow && !it.dirty) = false := by
        cases hd : it.dirty with
        | true => simp
        | false =>
          have hunspent := CCoinsView.isSpent_getCoin _ _ _ (hv.clean o it hcached hd)
          rcases how with rfl | hs
          · rfl
          · cases hs.symm.trans hunspent
      simp only [hfr, hset, Bool.or_self, Bool.false_eq_true, if_false]
      omega

/-- `SpendCoin` lowers the potential by exactly the value of the coin. -/
theorem potential_spendCoin : (v.spendCoin o).1.potential = v.potential - liveValue (v.peek o) := by
  rw [spendCoin_eq]
  obtain hf | ⟨e, hf⟩ := Option.eq_none_or_eq_some (v.find o)
  · simp [hf, peek, liveValue]
  have hdelta := weightAt_entryDelta hf
  rw [peek_of_find hf]
  simp only [hf]
  cases hfr : e.fresh with
  | true =>
    simp only [if_true, potential, weight_erase, hdelta, entryDelta, hfr]
    ring
  | false =>
    simp only [Bool.false_eq_true, if_false, potential_insert, hdelta, entryDelta, hfr,
      liveValue_of_spent Coin.isSpent_empty]
    ring

end CCoinsViewCache

/-- The database after a flush of the cache. -/
def UtxoSet.ofView (v : CCoinsViewCache UtxoSet) (h : v.CoinsWf) : UtxoSet where
  coins := v.utxo
  hashBestBlock := v.getBestBlock
  wf := fun o _ hc => h.lookup ((v.getElem?_utxo o).symm.trans hc)

end DeVault
