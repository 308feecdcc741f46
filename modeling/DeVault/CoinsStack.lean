import DeVault.Coins

/-!
# A cache over a cache (`CCoinsViewCache::BatchWrite`, `Flush`)

A node connects a block on a cache over `pcoinsTip`, which is itself a cache over the coins
database. `Flush` hands the dirty entries of a cache to what is below: a cache merges them into its
own, and the database writes the unspent coins and erases the spent ones.
-/

namespace DeVault

open List hiding getElem?_insert
open Std Ledger

/-- A cache is something that a cache can be laid over. -/
instance {B : Type} [CCoinsView B] : CCoinsView (CCoinsViewCache B) where
  getCoin v o := v.lookup o
  getBestBlock v := v.getBestBlock
  isSpent_getCoin _ _ _ h := (CCoinsViewCache.lookup_eq_some_iff.mp h).2

/-- `CCoinsViewDB`: the coins database, which holds unspent coins only. -/
structure CCoinsViewDB where
  coins : ExtTreeMap COutPoint Coin
  hashBestBlock : BlockHash
  unspent : ∀ (o : COutPoint) c, coins[o]? = some c → c.isSpent = false

instance : CCoinsView CCoinsViewDB where
  getCoin db o := db.coins[o]?
  getBestBlock db := db.hashBestBlock
  isSpent_getCoin db o c h := db.unspent o c h

variable (db : CCoinsViewDB) (it : COutPoint × CCoinsCacheEntry)

namespace CCoinsViewDB

/-- The database of a chain with no coins. -/
def empty (hashBestBlock : BlockHash) : CCoinsViewDB where
  coins := ∅
  hashBestBlock := hashBestBlock
  unspent := fun o c h => absurd h (by simp)

/-- One entry of `CCoinsViewDB::BatchWrite`. -/
def writeEntry : CCoinsViewDB :=
  if it.2.dirty then
    if h : it.2.coin.isSpent = true then
      { db with coins := db.coins.erase it.1, unspent := Ledger.forall_erase db.unspent it.1 }
    else
      { db with
        coins := db.coins.insert it.1 it.2.coin
        unspent := Ledger.forall_insert db.unspent (by simpa using h) }
  else db

/-- `CCoinsViewDB::BatchWrite`. -/
def batchWrite (mapCoins : ExtTreeMap COutPoint CCoinsCacheEntry)
    (hashBlock : BlockHash) : CCoinsViewDB :=
  { mapCoins.toList.foldl writeEntry db with hashBestBlock := hashBlock }

end CCoinsViewDB

variable (o : COutPoint)

namespace CCoinsViewCache

variable {B : Type} [CCoinsView B]

/-- One entry of `CCoinsViewCache::BatchWrite`. -/
def batchWriteEntry (us : CCoinsViewCache B) (it : COutPoint × CCoinsCacheEntry) :
    Except Fault (CCoinsViewCache B) :=
  if !it.2.dirty then .ok us
  else
    match us.cacheCoins[it.1]? with
    | none =>
      -- a coin that came and went above is not needed here
      if it.2.fresh && it.2.coin.isSpent then .ok us
      else
        .ok { us with cacheCoins := us.cacheCoins.insert it.1 ⟨it.2.coin, true, it.2.fresh⟩ }
    | some itUs =>
      if it.2.fresh && !itUs.coin.isSpent then
        .error (.logicError
          "FRESH flag misapplied to cache entry for base transaction with spendable outputs")
      else if itUs.fresh && it.2.coin.isSpent then
        .ok { us with cacheCoins := us.cacheCoins.erase it.1 }
      else
        -- a `FRESH` above is not copied: what is below may still have to be told
        .ok { us with cacheCoins := us.cacheCoins.insert it.1 ⟨it.2.coin, true, itUs.fresh⟩ }

/-- `CCoinsViewCache::BatchWrite`: a child cache is written into this one. -/
def batchWrite (us : CCoinsViewCache B)
    (mapCoins : ExtTreeMap COutPoint CCoinsCacheEntry) (hashBlock : BlockHash) :
    Except Fault (CCoinsViewCache B) := do
  let us ← mapCoins.toList.foldlM batchWriteEntry us
  .ok { us with hashBlock := hashBlock }

/-- `Uncache`: an unchanged entry is dropped. -/
def uncache (v : CCoinsViewCache B) (outpoint : COutPoint) : CCoinsViewCache B :=
  match v.cacheCoins[outpoint]? with
  | some e =>
    if !e.dirty && !e.fresh then { v with cacheCoins := v.cacheCoins.erase outpoint } else v
  | none => v

/-- `Flush` of a cache that lies over the database. -/
def flushToDB (v : CCoinsViewCache CCoinsViewDB) : CCoinsViewCache CCoinsViewDB :=
  { v with base := v.base.batchWrite v.cacheCoins v.hashBlock, cacheCoins := ∅ }

/-! ### Merging into a cache -/

variable {us us' : CCoinsViewCache B}

/-- What an entry leaves at its outpoint, where the cache below shows `cur`. -/
def written (cur : Option Coin) (e : CCoinsCacheEntry) : Option Coin :=
  if e.dirty then if e.coin.isSpent then none else some e.coin else cur

theorem lookup_of_cached {v : CCoinsViewCache B} {o : COutPoint} {e : CCoinsCacheEntry}
    (h : v.cacheCoins[o]? = some e) :
    v.lookup o = if e.coin.isSpent then none else some e.coin := by
  rw [lookup, peek_of_find (find_of_cached h)]

theorem lookup_insert {v : CCoinsViewCache B} (o o' : COutPoint) (e : CCoinsCacheEntry) :
    lookup { v with cacheCoins := v.cacheCoins.insert o e } o' =
      if o = o' then if e.coin.isSpent then none else some e.coin else v.lookup o' := by
  by_cases ho : o = o'
  · subst ho
    rw [if_pos rfl]
    exact lookup_of_cached (by rw [getElem?_insert, if_pos rfl])
  · rw [if_neg ho]
    refine lookup_congr (find_congr rfl ?_)
    rw [getElem?_insert, if_neg ho]

/-- **Merging one entry** whose `FRESH` is right keeps the flags right, and writes
one outpoint. -/
theorem batchWriteEntry_spec (hus : us.Wf) {it : COutPoint × CCoinsCacheEntry}
    (hfresh : it.2.dirty = true → it.2.fresh = true → us.lookup it.1 = none) :
    ∃ us', us.batchWriteEntry it = .ok us' ∧ us'.base = us.base ∧ us'.Wf ∧
      ∀ o, us'.lookup o = if it.1 = o then written (us.lookup o) it.2 else us.lookup o := by
  obtain ⟨o, e⟩ := it
  unfold batchWriteEntry written
  cases hdirty : e.dirty with
  | false => exact ⟨us, by simp, rfl, hus, fun o' => by simp⟩
  | true =>
    simp only [Bool.not_true, Bool.false_eq_true, if_false, if_true]
    -- an entry that is written keeps the flags right if `FRESH` hides nothing
    have hwrite : ∀ fresh : Bool, (fresh = true → CCoinsView.getCoin us.base o = none) →
        Wf { us with cacheCoins := us.cacheCoins.insert o ⟨e.coin, true, fresh⟩ } := by
      intro fresh hf
      refine ⟨?_, ?_⟩
      · exact forall_insert hus.clean nofun
      · exact forall_insert hus.fresh hf
    cases hc : us.cacheCoins[o]? with
    | none =>
      have hbase := lookup_of_uncached hc
      simp only
      split
      next hgone =>
        obtain ⟨hf, hspent⟩ := Bool.and_eq_true_iff.mp hgone
        refine ⟨us, rfl, rfl, hus, fun o' => ?_⟩
        split
        next ho =>
          rw [← ho]
          simpa only [hspent, if_true] using hfresh hdirty hf
        · rfl
      · refine ⟨_, rfl, rfl, hwrite e.fresh fun hf => ?_, fun o' => lookup_insert o o' _⟩
        rw [← hbase]
        exact hfresh hdirty hf
    | some itUs =>
      simp only
      split
      · -- the flag would be misapplied
        next hmis =>
        obtain ⟨hf, hunspent⟩ := Bool.and_eq_true_iff.mp hmis
        have hnone := hfresh hdirty hf
        rw [lookup_of_cached hc, if_neg (by simpa using hunspent)] at hnone
        cases hnone
      · split
        next hdrop =>
          obtain ⟨hf, hspent⟩ := Bool.and_eq_true_iff.mp hdrop
          refine ⟨_, rfl, rfl, ⟨forall_erase hus.clean o, forall_erase hus.fresh o⟩, fun o' => ?_⟩
          by_cases ho : o = o'
          · subst ho
            rw [if_pos rfl, if_pos hspent, lookup_of_uncached (by
              rw [getElem?_erase, if_pos rfl])]
            exact hus.fresh o itUs hc hf
          · rw [if_neg ho]
            refine lookup_congr (find_congr rfl ?_)
            rw [getElem?_erase, if_neg ho]
        · exact ⟨_, rfl, rfl, hwrite itUs.fresh (hus.fresh o itUs hc),
            fun o' => lookup_insert o o' _⟩

theorem foldlM_batchWriteEntry {l : List (COutPoint × CCoinsCacheEntry)}
    (hnd : (l.map Prod.fst).Nodup) (hus : us.Wf)
    (hfresh : ∀ it ∈ l, it.2.dirty = true → it.2.fresh = true → us.lookup it.1 = none) :
    ∃ us', l.foldlM batchWriteEntry us = .ok us' ∧ us'.base = us.base ∧ us'.Wf ∧
      (∀ it ∈ l, us'.lookup it.1 = written (us.lookup it.1) it.2) ∧
      ∀ o ∉ l.map Prod.fst, us'.lookup o = us.lookup o := by
  induction l generalizing us with
  | nil => exact ⟨us, rfl, rfl, hus, by simp, fun _ _ => rfl⟩
  | cons it l ih =>
    rw [map_cons, nodup_cons] at hnd
    obtain ⟨hnot, hnd⟩ := hnd
    obtain ⟨us₁, hone, hbase, hwf, hlook⟩ := batchWriteEntry_spec hus (hfresh it mem_cons_self)
    -- the later entries have other outpoints
    have hother : ∀ it' ∈ l, us₁.lookup it'.1 = us.lookup it'.1 := by
      intro it' hit'
      rw [hlook, if_neg]
      intro heq
      exact hnot (heq ▸ mem_map_of_mem hit')
    obtain ⟨us₂, hrest, hbase₂, hwf₂, hin, hout⟩ := ih hnd hwf fun it' hit' hd hf => by
      rw [hother it' hit']
      exact hfresh it' (mem_cons_of_mem it hit') hd hf
    refine ⟨us₂, ?_, hbase₂.trans hbase, hwf₂, fun it' hit' => ?_, fun o ho => ?_⟩
    · rw [foldlM_cons, hone]
      exact hrest
    · rcases mem_cons.mp hit' with rfl | hit'
      · rw [hout _ hnot, hlook, if_pos rfl]
      · rw [hin it' hit', hother it' hit']
    · rw [map_cons, mem_cons, not_or] at ho
      rw [hout o ho.2, hlook, if_neg (Ne.symm ho.1)]

theorem mem_keys_iff {m : ExtTreeMap COutPoint CCoinsCacheEntry} {o : COutPoint} :
    o ∈ m.toList.map Prod.fst ↔ m[o]? ≠ none := by
  rw [mem_map]
  constructor
  · rintro ⟨⟨o', e⟩, hmem, rfl⟩
    rw [ExtTreeMap.mem_toList_iff_getElem?_eq_some] at hmem
    simp [hmem]
  · intro hne
    obtain ⟨e, he⟩ := Option.ne_none_iff_exists'.mp hne
    exact ⟨(o, e), ExtTreeMap.mem_toList_iff_getElem?_eq_some.mpr he, rfl⟩

/-- What a cache with right flags shows, from its entries and its base. -/
theorem lookup_eq_written {v : CCoinsViewCache B} (hv : v.Clean) (o : COutPoint) :
    v.lookup o = match v.cacheCoins[o]? with
      | some e => written (CCoinsView.getCoin v.base o) e
      | none => CCoinsView.getCoin v.base o := by
  cases hc : v.cacheCoins[o]? with
  | none => exact lookup_of_uncached hc
  | some e =>
    rw [lookup_of_cached hc]
    change _ = written (CCoinsView.getCoin v.base o) e
    unfold written
    cases hdirty : e.dirty with
    | true => rw [if_pos rfl]
    | false =>
      have hbase := hv o e hc hdirty
      rw [hbase, CCoinsView.isSpent_getCoin _ _ _ hbase, if_neg Bool.false_ne_true,
        if_neg Bool.false_ne_true]

/-- **Flushing into a cache.** If the flags of both caches are right, the merge does not throw, and
the lower cache, which may have been read since, shows what the upper one did. -/
theorem flush_spec {v : CCoinsViewCache (CCoinsViewCache B)} (hv : v.Wf) (hbase : v.base.Wf)
    (hreads : Reads v.base us) (hashBlock : BlockHash) :
    ∃ us', us.batchWrite v.cacheCoins hashBlock = .ok us' ∧ us'.Wf ∧ us'.base = v.base.base ∧
      us'.hashBlock = hashBlock ∧ ∀ o, us'.lookup o = v.lookup o := by
  have hlook : ∀ o, us.lookup o = CCoinsView.getCoin v.base o := hreads.lookup_eq
  obtain ⟨us₁, hrun, hb, hwf, hin, hout⟩ := foldlM_batchWriteEntry (nodup_keys v.cacheCoins)
    (hreads.wf hbase) fun it hit _ hf => by
      rw [hlook]
      exact hv.fresh it.1 it.2 (ExtTreeMap.mem_toList_iff_getElem?_eq_some.mp hit) hf
  refine ⟨{ us₁ with hashBlock := hashBlock }, ?_, ⟨hwf.clean, hwf.fresh⟩,
    hb.trans hreads.base_eq, rfl, fun o => ?_⟩
  · unfold batchWrite
    rw [hrun]
    rfl
  · change us₁.lookup o = v.lookup o
    rw [lookup_eq_written hv.clean]
    cases hc : v.cacheCoins[o]? with
    | none =>
      rw [hout o fun hmem => mem_keys_iff.mp hmem hc]
      exact hlook o
    | some e =>
      have hit := ExtTreeMap.mem_toList_iff_getElem?_eq_some.mpr hc
      rw [hin (o, e) hit, hlook]

/-! ### Writing to the database -/

theorem getElem?_writeEntry :
    (db.writeEntry it).coins[o]? =
      if it.1 = o then written db.coins[o]? it.2 else db.coins[o]? := by
  unfold CCoinsViewDB.writeEntry written
  split
  · split
    · simp [getElem?_erase]
    · simp [getElem?_insert]
  · simp

theorem hashBestBlock_writeEntry : (db.writeEntry it).hashBestBlock = db.hashBestBlock := by
  unfold CCoinsViewDB.writeEntry
  split
  · split <;> rfl
  · rfl

/-- The database after some entries with different outpoints were written. -/
theorem foldl_writeEntry {l : List (COutPoint × CCoinsCacheEntry)} (hnd : (l.map Prod.fst).Nodup) :
    (∀ it ∈ l, (l.foldl CCoinsViewDB.writeEntry db).coins[it.1]? =
      written db.coins[it.1]? it.2) ∧
    ∀ o ∉ l.map Prod.fst, (l.foldl CCoinsViewDB.writeEntry db).coins[o]? = db.coins[o]? := by
  induction l generalizing db with
  | nil => exact ⟨by simp, fun _ _ => rfl⟩
  | cons it l ih =>
    rw [map_cons, nodup_cons] at hnd
    obtain ⟨hnot, hnd⟩ := hnd
    have hone := getElem?_writeEntry db it
    obtain ⟨hin, hout⟩ := ih (db.writeEntry it) hnd
    refine ⟨fun it' hit' => ?_, fun o ho => ?_⟩
    · rcases mem_cons.mp hit' with rfl | hit'
      · rw [foldl_cons, hout _ hnot, hone, if_pos rfl]
      · rw [foldl_cons, hin it' hit', hone, if_neg]
        intro heq
        exact hnot (heq ▸ mem_map_of_mem hit')
    · rw [map_cons, mem_cons, not_or] at ho
      rw [foldl_cons, hout o ho.2, hone, if_neg (Ne.symm ho.1)]

theorem flushToDB_spec {v : CCoinsViewCache CCoinsViewDB} (hv : v.Wf) :
    v.flushToDB.Wf ∧ (∀ o, v.flushToDB.lookup o = v.lookup o) ∧
      ∀ o : COutPoint, v.flushToDB.base.coins[o]? = v.lookup o := by
  have hcoins : ∀ o : COutPoint, v.flushToDB.base.coins[o]? = v.lookup o := by
    intro o
    obtain ⟨hin, hout⟩ := foldl_writeEntry v.base (nodup_keys v.cacheCoins)
    rw [lookup_eq_written hv.clean]
    cases hc : v.cacheCoins[o]? with
    | none => exact hout o fun hmem => mem_keys_iff.mp hmem hc
    | some e => exact hin (o, e) (ExtTreeMap.mem_toList_iff_getElem?_eq_some.mpr hc)
  refine ⟨Wf.ofBase _ _, fun o => ?_, hcoins⟩
  rw [lookup_of_uncached (by simp [flushToDB])]
  exact hcoins o

/-- Dropping a clean entry changes nothing. -/
theorem uncache_spec {v : CCoinsViewCache B} (hv : v.Wf) (a : COutPoint) :
    (v.uncache a).Wf ∧ (v.uncache a).base = v.base ∧ ∀ o, (v.uncache a).lookup o = v.lookup o := by
  unfold uncache
  split
  next e hc =>
    split
    next hflags =>
      obtain ⟨hdirty, -⟩ := Bool.and_eq_true_iff.mp hflags
      refine ⟨⟨forall_erase hv.clean a, forall_erase hv.fresh a⟩, rfl, fun o => ?_⟩
      by_cases ho : a = o
      · subst ho
        have hbase := hv.clean a e hc (by simpa using hdirty)
        rw [lookup_of_uncached (by rw [getElem?_erase, if_pos rfl]), lookup_of_cached hc,
          CCoinsView.isSpent_getCoin _ _ _ hbase]
        exact hbase
      · refine lookup_congr (find_congr rfl ?_)
        rw [getElem?_erase, if_neg ho]
    · exact ⟨hv, rfl, fun _ => rfl⟩
  · exact ⟨hv, rfl, fun _ => rfl⟩

/-! ### Which outpoints have entries

An entry comes into a cache by a read of a coin that is below, by `AddCoin`, or
by a merge. -/

/-- The entries of the cache lie in `P`. -/
def EntriesIn (P : COutPoint → Prop) (v : CCoinsViewCache B) : Prop :=
  ∀ (o : COutPoint) e, v.cacheCoins[o]? = some e → P o

section EntriesIn

variable {P : COutPoint → Prop} {v v' : CCoinsViewCache B} {o : COutPoint}

section

variable (h : v.EntriesIn P)
include h

section

variable (hbase : ∀ o c, CCoinsView.getCoin v.base o = some c → P o)
include hbase

/-- What a cache shows has an entry, or is below. -/
theorem EntriesIn.of_find {e : CCoinsCacheEntry} (hf : v.find o = some e) : P o := by
  rcases cached_or_base hf with hc | ⟨-, hb, -⟩
  · exact h o e hc
  · exact hbase o e.coin hb

theorem EntriesIn.fetchCoin (o : COutPoint) : (v.fetchCoin o).1.EntriesIn P :=
  forall_fetchCoin h fun _ hf => h.of_find hbase hf

theorem EntriesIn.reads (hr : Reads v v') : v'.EntriesIn P := by
  induction hr with
  | refl => exact h
  | fetch o hr ih => exact ih.fetchCoin (by rwa [hr.base_eq]) o

end

omit [CCoinsView B] in
theorem EntriesIn.addCoin {c : Coin} {ow : Bool}
    (hadd : v.addCoin o c ow = .ok v') (ho : P o) : v'.EntriesIn P :=
  forall_addCoin h hadd fun _ _ => ho

theorem EntriesIn.spendCoin
    (hbase : ∀ o c, CCoinsView.getCoin v.base o = some c → P o) (o : COutPoint) :
    (v.spendCoin o).1.EntriesIn P :=
  forall_spendCoin h fun _ hf _ => h.of_find hbase hf

omit [CCoinsView B] in
theorem EntriesIn.uncache (o : COutPoint) : (v.uncache o).EntriesIn P := by
  unfold CCoinsViewCache.uncache
  split
  · split
    · exact forall_erase h o
    · exact h
  · exact h

omit [CCoinsView B] in
theorem EntriesIn.batchWriteEntry {it : COutPoint × CCoinsCacheEntry}
    (hrun : v.batchWriteEntry it = .ok v') (ho : P it.1) : v'.EntriesIn P := by
  unfold CCoinsViewCache.batchWriteEntry at hrun
  split at hrun
  · exact Except.ok.inj hrun ▸ h
  split at hrun
  · split at hrun
    · exact Except.ok.inj hrun ▸ h
    · exact Except.ok.inj hrun ▸ forall_insert h ho
  · split at hrun
    · cases hrun
    split at hrun
    · exact Except.ok.inj hrun ▸ forall_erase h it.1
    · exact Except.ok.inj hrun ▸ forall_insert h ho

omit [CCoinsView B] in
theorem EntriesIn.batchWrite
    {mapCoins : ExtTreeMap COutPoint CCoinsCacheEntry} {hashBlock : BlockHash}
    (hrun : v.batchWrite mapCoins hashBlock = .ok v')
    (hmap : ∀ (o : COutPoint) e, mapCoins[o]? = some e → P o) : v'.EntriesIn P := by
  unfold CCoinsViewCache.batchWrite at hrun
  obtain ⟨w, hfold, hret⟩ := Outcome.bind_ok_iff.mp hrun
  cases hret
  change EntriesIn P w
  refine Outcome.foldlM_ok_induct (P := EntriesIn P) h ?_ hfold
  intro u it u' hit hu hstep
  exact hu.batchWriteEntry hstep
    (hmap it.1 it.2 (ExtTreeMap.mem_toList_iff_getElem?_eq_some.mp hit))

end

end EntriesIn

end CCoinsViewCache

end DeVault
