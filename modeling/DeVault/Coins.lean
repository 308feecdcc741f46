import DeVault.Primitives.Transaction
import DeVault.Lib.Ledger

/-!
# The coins cache (`coins.h`, `coins.cpp`)

`CCoinsViewCache` lays a map of cache entries over a backing view. Every entry
has two flags. `DIRTY` says that the entry may differ from the backing view,
`FRESH` that the backing view has no unspent coin there, so that spending the
coin may simply drop the entry. All operations, reads included, change the
cache: a read copies the coin it finds into it.

The cache is modelled by explicit state passing over an arbitrary backing view
(`CCoinsView`). What the operations mean is said by one function,
`CCoinsViewCache.lookup`: the unspent coin a view has at an outpoint.
-/

namespace DeVault

open List hiding getElem?_insert
open Option Outcome Ledger CTransaction

/-- `Coin`: an unspent output with the height of its transaction. -/
structure Coin where
  out : CTxOut
  nHeight : Nat
  fCoinBase : Bool
  deriving DecidableEq, Repr, Inhabited

variable {c : Coin}

namespace Coin

/-- `coinEmpty`, and what `Clear` leaves behind. -/
def empty : Coin := ⟨CTxOut.null, 0, false⟩

/-- `Coin::IsSpent`. -/
def isSpent (c : Coin) : Bool := c.out.isNull

@[simp] theorem isSpent_empty : empty.isSpent = true := rfl

theorem isSpent_eq_false_iff : c.isSpent = false ↔ c.out.nValue ≠ -satoshi := by
  simp [isSpent, CTxOut.isNull]

theorem isSpent_of_moneyRange (h : moneyRange c.out.nValue = true) : c.isSpent = false := by
  have h0 := (moneyRange_iff.mp h).1
  rw [isSpent_eq_false_iff]
  simp only [satoshi]
  omega

end Coin

/-- `CCoinsView`: what a cache can be laid over. `getCoin` is `GetCoin`, which
"returns true only when an unspent coin was found". -/
class CCoinsView (B : Type) where
  getCoin : B → COutPoint → Option Coin
  getBestBlock : B → BlockHash
  isSpent_getCoin : ∀ b o c, getCoin b o = some c → c.isSpent = false

/-- `CCoinsCacheEntry`, with one Boolean per flag. -/
structure CCoinsCacheEntry where
  coin : Coin := Coin.empty
  dirty : Bool := false
  fresh : Bool := false
  deriving DecidableEq, Repr, Inhabited

/-- What `AddCoin` makes of an entry: the new coin, `DIRTY`, and `FRESH` too if the coin is declared
new and the entry was not dirty. -/
def CCoinsCacheEntry.overwritten (it : CCoinsCacheEntry) (coin : Coin)
    (possibleOverwrite : Bool) : CCoinsCacheEntry :=
  { coin := coin
    dirty := true
    fresh := it.fresh || (!possibleOverwrite && !it.dirty) }

/-- `CCoinsViewCache`: entries over a base view, and the best block. -/
structure CCoinsViewCache (B : Type) where
  base : B
  cacheCoins : Std.ExtTreeMap COutPoint CCoinsCacheEntry := ∅
  hashBlock : BlockHash := 0

namespace CCoinsViewCache

variable {B : Type} [CCoinsView B]

/-! ### The operations -/

variable (v : CCoinsViewCache B)

/-- `FetchCoin`: the entry for an outpoint, copied from the backing view if the
cache has none. -/
def fetchCoin (outpoint : COutPoint) : CCoinsViewCache B × Option CCoinsCacheEntry :=
  match v.cacheCoins[outpoint]? with
  | some e => (v, some e)
  | none =>
    match CCoinsView.getCoin v.base outpoint with
    | none => (v, none)
    | some tmp =>
      let e : CCoinsCacheEntry := { coin := tmp, fresh := tmp.isSpent }
      ({ v with cacheCoins := v.cacheCoins.insert outpoint e }, some e)

/-- `CCoinsViewCache::GetCoin`. -/
def getCoin (outpoint : COutPoint) : CCoinsViewCache B × Option Coin :=
  let (v, it) := v.fetchCoin outpoint
  (v, it.bind fun e => if e.coin.isSpent then none else some e.coin)

/-- `CCoinsViewCache::HaveCoin`. -/
def haveCoin (outpoint : COutPoint) : CCoinsViewCache B × Bool :=
  let (v, it) := v.fetchCoin outpoint
  (v, it.any fun e => !e.coin.isSpent)

/-- `AccessCoin`; without an entry it returns `coinEmpty`. -/
def accessCoin (outpoint : COutPoint) : CCoinsViewCache B × Coin :=
  let (v, it) := v.fetchCoin outpoint
  (v, (it.map (·.coin)).getD Coin.empty)

/-- `AddCoin`. The backing view is not consulted: whether the coin is new is
judged by the cache entry alone. -/
def addCoin (outpoint : COutPoint) (coin : Coin)
    (possibleOverwrite : Bool) : Except Fault (CCoinsViewCache B) :=
  if coin.isSpent then
    .error (.assertion "!coin.IsSpent()")
  else if isUnspendable coin.out.scriptPubKey then
    .ok v
  else
    let it := v.cacheCoins[outpoint]?.getD {}
    if !possibleOverwrite && !it.coin.isSpent then
      .error (.logicError "Adding new coin that replaces non-pruned entry")
    else
      .ok { v with
        cacheCoins := v.cacheCoins.insert outpoint (it.overwritten coin possibleOverwrite) }

/-- `SpendCoin`: the moved-out coin, or nothing if there is no entry. A spent entry is found too,
and moves an empty coin out. -/
def spendCoin (outpoint : COutPoint) : CCoinsViewCache B × Option Coin :=
  let (v, it) := v.fetchCoin outpoint
  match it with
  | none => (v, none)
  | some e =>
    if e.fresh then
      ({ v with cacheCoins := v.cacheCoins.erase outpoint }, some e.coin)
    else
      let cleared := { e with coin := Coin.empty, dirty := true }
      ({ v with cacheCoins := v.cacheCoins.insert outpoint cleared }, some e.coin)

/-- `HaveCoinInCache`: the base is not asked. -/
def haveCoinInCache (outpoint : COutPoint) : Bool :=
  v.cacheCoins[outpoint]?.any fun e => !e.coin.isSpent

/-- `CCoinsViewCache::GetBestBlock`. -/
def getBestBlock (v : CCoinsViewCache B) : BlockHash :=
  if v.hashBlock = 0 then CCoinsView.getBestBlock v.base else v.hashBlock

/-- `SetBestBlock`. -/
def setBestBlock (hashBlock : BlockHash) : CCoinsViewCache B :=
  { v with hashBlock := hashBlock }

end CCoinsViewCache

open CCoinsViewCache

/-- What `AddCoins` stores for an output: the value is rounded up to a spock,
the rest is kept. -/
def CTxOut.quantized (out : CTxOut) : CTxOut :=
  { out with nValue := spockQuantize out.nValue }

/-- The body of the loop of `AddCoins`. -/
def addCoinsStep {B : Type} [CCoinsView B] (tx : CTransaction) (nHeight : Nat) (check : Bool)
    (cache : CCoinsViewCache B) (p : CTxOut × Nat) : Except Fault (CCoinsViewCache B) :=
  let outpoint := tx.outPoint p.2
  let (cache, overwrite) := if check then cache.haveCoin outpoint else (cache, tx.isCoinBase)
  cache.addCoin outpoint ⟨p.1.quantized, nHeight, tx.isCoinBase⟩ overwrite

/-- `AddCoins`: the outputs of a transaction, in order. -/
def addCoins {B : Type} [CCoinsView B] (cache : CCoinsViewCache B) (tx : CTransaction)
    (nHeight : Nat) (check : Bool) : Except Fault (CCoinsViewCache B) :=
  tx.vout.zipIdx.foldlM (addCoinsStep tx nHeight check) cache

/-! ### What a view shows

`find` is the entry `FetchCoin` returns, `peek` the coin `AccessCoin` returns,
and `lookup` the unspent coin, if any. -/

variable {e : CCoinsCacheEntry} {ow : Bool}

namespace CCoinsViewCache

variable {B : Type} [CCoinsView B]

variable (v : CCoinsViewCache B) (o : COutPoint)

/-- The entry a view has at an outpoint, in the cache or behind it. -/
def find : Option CCoinsCacheEntry :=
  match v.cacheCoins[o]? with
  | some e => some e
  | none => (CCoinsView.getCoin v.base o).map fun tmp => { coin := tmp, fresh := tmp.isSpent }

/-- The coin of that entry, empty if there is none. -/
def peek : Coin :=
  ((v.find o).map (·.coin)).getD Coin.empty

/-- The unspent coin a view has at an outpoint. -/
def lookup : Option Coin :=
  if (v.peek o).isSpent then none else some (v.peek o)

variable {v v' : CCoinsViewCache B} {o o' : COutPoint} {c : Coin}

theorem find_of_cached (h : v.cacheCoins[o]? = some e) : v.find o = some e := by
  rw [find, h]

theorem find_of_uncached (h : v.cacheCoins[o]? = none) :
    v.find o =
      (CCoinsView.getCoin v.base o).map fun tmp => { coin := tmp, fresh := tmp.isSpent } := by
  rw [find, h]

theorem find_insert : find { v with cacheCoins := v.cacheCoins.insert o e } o = some e := by
  refine find_of_cached ?_
  rw [getElem?_insert, if_pos rfl]

/-- Two views over the same base with the same entry at `o` show the same there. -/
theorem find_congr (hb : v'.base = v.base) (h : v'.cacheCoins[o]? = v.cacheCoins[o]?) :
    v'.find o = v.find o := by
  rw [find, find, hb, h]

theorem peek_congr (h : v'.find o = v.find o) : v'.peek o = v.peek o := by
  rw [peek, peek, h]

theorem lookup_congr (h : v'.find o = v.find o) : v'.lookup o = v.lookup o := by
  rw [lookup, lookup, peek_congr h]

theorem peek_of_find (h : v.find o = some e) : v.peek o = e.coin := by
  simp [peek, h]

theorem lookup_eq_some_iff : v.lookup o = some c ↔ v.peek o = c ∧ c.isSpent = false := by
  unfold lookup
  cases h : (v.peek o).isSpent with
  | true =>
    simp only [if_true, reduceCtorEq, false_iff]
    rintro ⟨rfl, hc⟩
    cases h.symm.trans hc
  | false =>
    simp only [Bool.false_eq_true, if_false, some.injEq]
    exact ⟨fun hc => ⟨hc, hc ▸ h⟩, And.left⟩

theorem lookup_eq_none_iff : v.lookup o = none ↔ (v.peek o).isSpent = true := by
  unfold lookup
  cases (v.peek o).isSpent <;> simp

/-- Where the cache has no entry a view shows what its base has. -/
theorem lookup_of_uncached (h : v.cacheCoins[o]? = none) :
    v.lookup o = CCoinsView.getCoin v.base o := by
  cases hg : CCoinsView.getCoin v.base o with
  | none =>
    rw [lookup_eq_none_iff, peek, find_of_uncached h, hg]
    rfl
  | some c =>
    rw [lookup_eq_some_iff, peek, find_of_uncached h, hg]
    exact ⟨rfl, CCoinsView.isSpent_getCoin _ _ _ hg⟩

/-! ### Reads -/

/-- `FetchCoin` returns the entry and leaves it in the cache. -/
theorem fetchCoin_eq : v.fetchCoin o =
      (match v.find o with
        | some e => { v with cacheCoins := v.cacheCoins.insert o e }
        | none => v, v.find o) := by
  unfold fetchCoin find
  cases hc : v.cacheCoins[o]? with
  | some e => simp only [insert_of_some hc]
  | none => cases CCoinsView.getCoin v.base o <;> rfl

@[simp] theorem fetchCoin_snd : (v.fetchCoin o).2 = v.find o := by
  rw [fetchCoin_eq]

@[simp] theorem base_fetchCoin : (v.fetchCoin o).1.base = v.base := by
  rw [fetchCoin_eq]
  cases v.find o <;> rfl

/-- A fetch caches what it finds. -/
theorem getElem?_fetchCoin :
    (v.fetchCoin o).1.cacheCoins[o']? = if o = o' then (v.find o).or v.cacheCoins[o]?
      else v.cacheCoins[o']? := by
  rw [fetchCoin_eq]
  by_cases h : o = o'
  · subst h
    cases v.find o <;> simp
  · cases v.find o <;> simp [h, getElem?_insert]

@[simp] theorem find_fetchCoin : (v.fetchCoin o).1.find o' = v.find o' := by
  by_cases h : o = o'
  · subst h
    cases hf : v.find o with
    | none =>
      rw [fetchCoin_eq, hf]
      exact hf
    | some e =>
      refine find_of_cached ?_
      rw [getElem?_fetchCoin, if_pos rfl, hf, some_or]
  · refine find_congr base_fetchCoin ?_
    rw [getElem?_fetchCoin, if_neg h]

@[simp] theorem peek_fetchCoin : (v.fetchCoin o).1.peek o' = v.peek o' :=
  peek_congr find_fetchCoin

@[simp] theorem lookup_fetchCoin : (v.fetchCoin o).1.lookup o' = v.lookup o' :=
  lookup_congr find_fetchCoin

@[simp] theorem haveCoin_fst : (v.haveCoin o).1 = (v.fetchCoin o).1 := rfl

@[simp] theorem accessCoin_fst : (v.accessCoin o).1 = (v.fetchCoin o).1 := rfl

@[simp] theorem getCoin_fst : (v.getCoin o).1 = (v.fetchCoin o).1 := rfl

@[simp] theorem accessCoin_snd : (v.accessCoin o).2 = v.peek o := by
  simp only [accessCoin, fetchCoin_snd, peek]

theorem getCoin_snd : (v.getCoin o).2 = v.lookup o := by
  simp only [getCoin, fetchCoin_snd, lookup, peek]
  obtain hf | ⟨e, hf⟩ := eq_none_or_eq_some (v.find o) <;> simp [hf]

theorem haveCoin_snd : (v.haveCoin o).2 = (v.lookup o).isSome := by
  simp only [haveCoin, fetchCoin_snd, lookup, peek]
  obtain hf | ⟨e, hf⟩ := eq_none_or_eq_some (v.find o)
  · simp [hf]
  · cases he : e.coin.isSpent <;> simp [hf, he]

/-- `v'` is `v` after some reads. -/
inductive Reads (v : CCoinsViewCache B) : CCoinsViewCache B → Prop where
  | refl : Reads v v
  | fetch {v' : CCoinsViewCache B} (o : COutPoint) : Reads v v' → Reads v (v'.fetchCoin o).1

section

variable (h : Reads v v')
include h

theorem Reads.trans {w : CCoinsViewCache B} (h' : Reads v' w) : Reads v w := by
  induction h' with
  | refl => exact h
  | fetch o _ ih => exact ih.fetch o

/-- Reads change nothing that a view shows. -/
theorem Reads.find_eq (o : COutPoint) : v'.find o = v.find o := by
  induction h with
  | refl => rfl
  | fetch o' _ ih => rw [find_fetchCoin, ih]

theorem Reads.base_eq : v'.base = v.base := by
  induction h with
  | refl => rfl
  | fetch o' _ ih => rw [base_fetchCoin, ih]

theorem Reads.peek_eq (o : COutPoint) : v'.peek o = v.peek o :=
  peek_congr (h.find_eq o)

theorem Reads.lookup_eq (o : COutPoint) : v'.lookup o = v.lookup o :=
  lookup_congr (h.find_eq o)

end

/-! ### Writes -/

section

variable (h : v.addCoin o c ow = .ok v')
include h

omit [CCoinsView B] in
/-- **What a successful `AddCoin` did**: nothing for an unspendable script, and otherwise write the
coin, dirty, over an entry that was spent or may be overwritten. -/
theorem addCoin_cases : c.isSpent = false ∧
    ((isUnspendable c.out.scriptPubKey = true ∧ v' = v) ∨
      (isUnspendable c.out.scriptPubKey = false ∧
        (ow = true ∨ (v.cacheCoins[o]?.getD {}).coin.isSpent = true) ∧
        v' = { v with
          cacheCoins := v.cacheCoins.insert o
            ((v.cacheCoins[o]?.getD {}).overwritten c ow) })) := by
  unfold addCoin at h
  obtain ⟨hsp, h⟩ := guard_ok.mp h
  refine ⟨by simpa using hsp, ?_⟩
  split at h
  next hu => exact .inl ⟨hu, (Except.ok.inj h).symm⟩
  next hu =>
  obtain ⟨how, h⟩ := guard_ok.mp h
  refine .inr ⟨by simpa using hu, ?_, (Except.ok.inj h).symm⟩
  cases ow with
  | true => exact .inl rfl
  | false => exact .inr (by simpa using how)

omit [CCoinsView B] in
theorem addCoin_unspendable (hu : isUnspendable c.out.scriptPubKey = true) : v' = v := by
  obtain ⟨-, ⟨-, heq⟩ | ⟨hu', -⟩⟩ := addCoin_cases h
  · exact heq
  · cases hu.symm.trans hu'

omit [CCoinsView B] in
theorem base_addCoin : v'.base = v.base := by
  obtain ⟨-, ⟨-, rfl⟩ | ⟨-, -, rfl⟩⟩ := addCoin_cases h <;> rfl

theorem find_addCoin_of_ne (hne : o ≠ o') : v'.find o' = v.find o' := by
  obtain ⟨-, ⟨-, rfl⟩ | ⟨-, -, rfl⟩⟩ := addCoin_cases h
  · rfl
  · refine find_congr rfl ?_
    rw [getElem?_insert, if_neg hne]

/-- `AddCoin` of a spendable coin writes the view at its outpoint. -/
theorem lookup_addCoin (hu : isUnspendable c.out.scriptPubKey = false) :
    v'.lookup o' = if o = o' then some c else v.lookup o' := by
  by_cases hne : o = o'
  · subst hne
    obtain ⟨hsp, ⟨hu', -⟩ | ⟨-, -, rfl⟩⟩ := addCoin_cases h
    · cases hu.symm.trans hu'
    · rw [if_pos rfl, lookup_eq_some_iff, peek_of_find find_insert]
      exact ⟨rfl, hsp⟩
  · rw [if_neg hne, lookup_congr (find_addCoin_of_ne h hne)]

omit [CCoinsView B] in
/-- `AddCoin` of a spendable coin leaves an unspent entry, and unless an
overwrite was announced there was none before. -/
theorem haveCoinInCache_addCoin (hu : isUnspendable c.out.scriptPubKey = false) :
    v'.haveCoinInCache o = true ∧ (ow = false → v.haveCoinInCache o = false) := by
  obtain ⟨hsp, ⟨hu', -⟩ | ⟨-, how, rfl⟩⟩ := addCoin_cases h
  · cases hu.symm.trans hu'
  refine ⟨?_, ?_⟩
  · rw [haveCoinInCache, getElem?_insert, if_pos rfl]
    simp [CCoinsCacheEntry.overwritten, hsp]
  · rintro rfl
    have hspent := how.resolve_left (by decide)
    unfold haveCoinInCache
    cases hc : v.cacheCoins[o]? with
    | none => rfl
    | some e =>
      rw [hc, getD_some] at hspent
      simp [hspent]

omit [CCoinsView B] in
theorem haveCoinInCache_addCoin_of_ne
    (hne : o ≠ o') : v'.haveCoinInCache o' = v.haveCoinInCache o' := by
  obtain ⟨-, ⟨-, rfl⟩ | ⟨-, -, rfl⟩⟩ := addCoin_cases h
  · rfl
  · rw [haveCoinInCache, haveCoinInCache, getElem?_insert, if_neg hne]

omit [CCoinsView B] in
theorem haveCoinInCache_addCoin_mono
    (hhave : v.haveCoinInCache o' = true) : v'.haveCoinInCache o' = true := by
  by_cases hne : o = o'
  · subst hne
    cases hu : isUnspendable c.out.scriptPubKey with
    | false => exact (haveCoinInCache_addCoin h hu).1
    | true => rwa [addCoin_unspendable h hu]
  · rw [haveCoinInCache_addCoin_of_ne h hne, hhave]

end

theorem spendCoin_eq : v.spendCoin o =
      match v.find o with
      | none => (v, none)
      | some e =>
        ({ v with cacheCoins :=
            if e.fresh then v.cacheCoins.erase o
            else v.cacheCoins.insert o { e with coin := Coin.empty, dirty := true } },
          some e.coin) := by
  unfold spendCoin
  rw [fetchCoin_eq]
  cases v.find o with
  | none => rfl
  | some e =>
    cases hf : e.fresh with
    | true => simp [hf, erase_insert]
    | false => simp [hf, insert_insert]

@[simp] theorem base_spendCoin : (v.spendCoin o).1.base = v.base := by
  rw [spendCoin_eq]
  cases v.find o <;> rfl

theorem find_spendCoin_of_ne (hne : o ≠ o') : (v.spendCoin o).1.find o' = v.find o' := by
  refine find_congr base_spendCoin ?_
  rw [spendCoin_eq]
  cases v.find o with
  | none => rfl
  | some e =>
    cases hf : e.fresh <;> simp [hf, getElem?_insert, getElem?_erase, hne]

/-- An unspent coin is there to be spent, and is what `SpendCoin` moves out. -/
theorem spendCoin_snd_of_lookup (h : v.lookup o = some c) : (v.spendCoin o).2 = some c := by
  obtain ⟨hp, hsp⟩ := lookup_eq_some_iff.mp h
  rw [spendCoin_eq]
  cases hf : v.find o with
  | none =>
    rw [peek, hf] at hp
    cases hp ▸ hsp
  | some e => rw [← hp, peek_of_find hf]

theorem spendCoin_snd_eq_some (h : (v.spendCoin o).2 = some c) : v.peek o = c := by
  rw [spendCoin_eq] at h
  cases hf : v.find o with
  | none => simp [hf] at h
  | some e =>
    simp only [hf, some.injEq] at h
    rw [peek_of_find hf, h]

/-! ### What every entry satisfies -/

section Entries

variable {Q : COutPoint → CCoinsCacheEntry → Prop}
  (h : ∀ (o : COutPoint) e, v.cacheCoins[o]? = some e → Q o e)

include h

/-- What holds of all entries holds after a fetch. -/
theorem forall_fetchCoin (hfind : ∀ e, v.find o = some e → Q o e) :
    ∀ (o' : COutPoint) e, (v.fetchCoin o).1.cacheCoins[o']? = some e → Q o' e := by
  rw [fetchCoin_eq]
  cases hf : v.find o with
  | none => exact h
  | some e => exact forall_insert h (hfind e hf)

theorem forall_spendCoin (hclear : ∀ e, v.find o = some e → e.fresh = false →
      Q o { e with coin := Coin.empty, dirty := true }) :
    ∀ (o' : COutPoint) e, (v.spendCoin o).1.cacheCoins[o']? = some e → Q o' e := by
  rw [spendCoin_eq]
  cases hf : v.find o with
  | none => exact h
  | some e =>
    simp only
    split
    · exact forall_erase h o
    next hfresh => exact forall_insert h (hclear e hf (by simpa using hfresh))

omit [CCoinsView B] in
theorem forall_addCoin (hadd : v.addCoin o c ow = .ok v')
    (hnew : c.isSpent = false → isUnspendable c.out.scriptPubKey = false →
      Q o ((v.cacheCoins[o]?.getD {}).overwritten c ow)) :
    ∀ (o' : COutPoint) e, v'.cacheCoins[o']? = some e → Q o' e := by
  obtain ⟨hsp, ⟨-, rfl⟩ | ⟨hu, -, rfl⟩⟩ := addCoin_cases hadd
  · exact h
  · exact forall_insert h (hnew hsp hu)

end Entries

/-! ### The promise of the flags -/

/-- What the absence of `DIRTY` promises: the entry repeats the base. -/
def Clean (v : CCoinsViewCache B) : Prop :=
  ∀ o e, v.cacheCoins[o]? = some e → e.dirty = false → CCoinsView.getCoin v.base o = some e.coin

/-- What the two flags of a cache promise about its base: an entry that is not
dirty repeats the base, and a fresh entry hides no coin of the base. -/
structure Wf (v : CCoinsViewCache B) : Prop where
  clean : v.Clean
  fresh : ∀ o e, v.cacheCoins[o]? = some e → e.fresh = true → CCoinsView.getCoin v.base o = none

theorem Wf.ofBase (b : B) (hash : BlockHash) : Wf { base := b, hashBlock := hash } where
  clean := fun o e h => absurd h (by simp)
  fresh := fun o e h => absurd h (by simp)

/-- An entry that is found is cached, or repeats the base and is not fresh. -/
theorem cached_or_base (h : v.find o = some e) :
    v.cacheCoins[o]? = some e ∨
      (v.cacheCoins[o]? = none ∧ CCoinsView.getCoin v.base o = some e.coin ∧ e.fresh = false) := by
  cases hc : v.cacheCoins[o]? with
  | some e' => exact .inl (by rw [← h, find_of_cached hc])
  | none =>
    rw [find_of_uncached hc] at h
    obtain ⟨tmp, htmp, rfl⟩ := map_eq_some_iff.mp h
    exact .inr ⟨rfl, htmp, CCoinsView.isSpent_getCoin _ _ _ htmp⟩

theorem Clean.fetchCoin (h : v.Clean) (o : COutPoint) : (v.fetchCoin o).1.Clean := by
  rw [Clean, base_fetchCoin]
  refine forall_fetchCoin h fun e hf hd => ?_
  rcases cached_or_base hf with hc | ⟨-, hb, -⟩
  · exact h o e hc hd
  · exact hb

theorem Wf.fetchCoin (h : v.Wf) (o : COutPoint) : (v.fetchCoin o).1.Wf := by
  refine ⟨h.clean.fetchCoin o, ?_⟩
  rw [base_fetchCoin]
  refine forall_fetchCoin h.fresh fun e hf hfr => ?_
  rcases cached_or_base hf with hc | ⟨-, -, hnf⟩
  · exact h.fresh o e hc hfr
  · cases hnf.symm.trans hfr

theorem Reads.wf (h : Reads v v') (hw : v.Wf) : v'.Wf := by
  induction h with
  | refl => exact hw
  | fetch o _ ih => exact ih.fetchCoin o

theorem Clean.addCoin (hw : v.Clean) (h : v.addCoin o c ow = .ok v') : v'.Clean := by
  rw [Clean, base_addCoin h]
  exact forall_addCoin hw h fun _ _ hd => absurd hd (by simp [CCoinsCacheEntry.overwritten])

/-- `AddCoin` keeps the promise unless it declares a coin new where the view
already has an unspent one. -/
theorem Wf.addCoin (hw : v.Wf) (h : v.addCoin o c ow = .ok v')
    (hnew : ow = true ∨ v.lookup o = none) : v'.Wf := by
  refine ⟨hw.clean.addCoin h, ?_⟩
  rw [base_addCoin h]
  refine forall_addCoin hw.fresh h fun _ _ hfr => ?_
  -- a fresh flag is either inherited or set now; set now, the view had no coin
  cases hc : v.cacheCoins[o]? with
  | none =>
    rw [hc] at hfr
    rw [lookup_of_uncached hc] at hnew
    exact hnew.resolve_left (by rintro rfl; simp [CCoinsCacheEntry.overwritten] at hfr)
  | some it =>
    rw [hc] at hfr
    cases hit : it.fresh with
    | true => exact hw.fresh o it hc hit
    | false =>
      have hset : ow = false ∧ it.dirty = false := by
        simpa [CCoinsCacheEntry.overwritten, hit] using hfr
      have hspent := CCoinsView.isSpent_getCoin _ _ _ (hw.clean o it hc hset.2)
      have hlook : v.lookup o = some it.coin :=
        lookup_eq_some_iff.mpr ⟨peek_of_find (find_of_cached hc), hspent⟩
      exact absurd (hnew.resolve_left (by rw [hset.1]; decide)) (by rw [hlook]; simp)

theorem Clean.spendCoin (hw : v.Clean) (o : COutPoint) : (v.spendCoin o).1.Clean := by
  rw [Clean, base_spendCoin]
  exact forall_spendCoin hw nofun

theorem Wf.spendCoin (hw : v.Wf) (o : COutPoint) : (v.spendCoin o).1.Wf := by
  refine ⟨hw.clean.spendCoin o, ?_⟩
  rw [base_spendCoin]
  exact forall_spendCoin hw.fresh fun _ _ hnf hfr => absurd (hnf.symm.trans hfr) (by decide)

/-- `SpendCoin` takes one coin out of the view. This is where `FRESH` matters:
dropping the entry must not bring a coin of the base back. -/
theorem lookup_spendCoin (hw : v.Wf) :
    (v.spendCoin o).1.lookup o' = if o = o' then none else v.lookup o' := by
  by_cases hne : o = o'
  · subst hne
    rw [if_pos rfl, spendCoin_eq]
    obtain hn | ⟨e, he⟩ := eq_none_or_eq_some (v.find o)
    · simp [hn, lookup, peek]
    simp only [he]
    cases hf : e.fresh with
    | true =>
      have hcached : v.cacheCoins[o]? = some e :=
        (cached_or_base he).resolve_right fun hb => absurd (hf.symm.trans hb.2.2) (by decide)
      rw [if_pos rfl, lookup_of_uncached]
      · exact hw.fresh o e hcached hf
      · rw [getElem?_erase, if_pos rfl]
    | false =>
      rw [if_neg (by decide), lookup_eq_none_iff, peek_of_find find_insert]
      rfl
  · rw [if_neg hne, lookup_congr (find_spendCoin_of_ne hne)]

/-- **A checked `AddCoin`**, which announces an overwrite exactly where the view has a coin, goes
through on every view with right flags, and a spendable coin is then there. -/
theorem exists_addCoin_checked (hw : v.Wf) (o : COutPoint) (hsp : c.isSpent = false) :
    ∃ w, (v.fetchCoin o).1.addCoin o c (v.lookup o).isSome = .ok w ∧ w.Wf ∧ w.base = v.base ∧
      ∀ o', w.lookup o' =
        if o = o' ∧ isUnspendable c.out.scriptPubKey = false then some c else v.lookup o' := by
  have hlook : (v.fetchCoin o).1.lookup o = v.lookup o := lookup_fetchCoin
  -- an entry of the cache that is not to be overwritten is spent
  have hentry : (v.lookup o).isSome = false →
      ((v.fetchCoin o).1.cacheCoins[o]?.getD {}).coin.isSpent = true := by
    intro hnone
    rw [← hlook, isSome_eq_false_iff, isNone_iff_eq_none] at hnone
    cases hc : (v.fetchCoin o).1.cacheCoins[o]? with
    | none => rfl
    | some e =>
      rw [lookup_eq_none_iff, peek_of_find (find_of_cached hc)] at hnone
      exact hnone
  have hadd : ∃ w, (v.fetchCoin o).1.addCoin o c (v.lookup o).isSome = .ok w := by
    unfold addCoin
    rw [if_neg (by simp [hsp])]
    split
    · exact ⟨_, rfl⟩
    · refine ⟨_, if_neg fun hbad => ?_⟩
      obtain ⟨hno, hun⟩ := Bool.and_eq_true_iff.mp hbad
      rw [hentry (by simpa using hno)] at hun
      cases hun
  obtain ⟨w, hadd⟩ := hadd
  refine ⟨w, hadd, (hw.fetchCoin o).addCoin hadd ?_, (base_addCoin hadd).trans base_fetchCoin,
    fun o' => ?_⟩
  · rw [hlook]
    cases v.lookup o <;> simp
  · cases hu : isUnspendable c.out.scriptPubKey with
    | false => rw [lookup_addCoin hadd hu, lookup_fetchCoin]; simp
    | true => rw [addCoin_unspendable hadd hu, lookup_fetchCoin]; simp

end CCoinsViewCache

/-! ### `AddCoins` -/

variable {o : COutPoint} {l : List (CTxOut × Nat)}

section AddCoins

variable {B : Type} [CCoinsView B] {v v' : CCoinsViewCache B} {tx : CTransaction} {nHeight : Nat}

/-- The coin a transaction creates at an outpoint: none for an outpoint that is
not its own or whose script is unspendable. -/
def CTransaction.createdCoin (tx : CTransaction) (nHeight : Nat) (o : COutPoint) : Option Coin :=
  if o.txid = tx.getId then
    (tx.vout[o.n]?).bind fun out =>
      if isUnspendable out.scriptPubKey then none
      else some ⟨out.quantized, nHeight, tx.isCoinBase⟩
  else none

theorem CTransaction.createdCoin_eq_some_iff :
    tx.createdCoin nHeight o = some c ↔
      ∃ out, (out, o.n) ∈ tx.vout.zipIdx ∧ o = tx.outPoint o.n ∧
        isUnspendable out.scriptPubKey = false ∧ c = ⟨out.quantized, nHeight, tx.isCoinBase⟩ := by
  obtain ⟨txid, n⟩ := o
  simp only [createdCoin, mem_zipIdx_iff_getElem?, outPoint, COutPoint.mk.injEq, and_true]
  split
  next h =>
    simp only [h, true_and, bind_eq_some_iff]
    refine exists_congr fun out => and_congr_right fun _ => ?_
    cases isUnspendable out.scriptPubKey <;> simp [eq_comm]
  next h => simp [h]

theorem addCoinsStep_false (p : CTxOut × Nat) :
    addCoinsStep tx nHeight false v p =
      v.addCoin (tx.outPoint p.2) ⟨p.1.quantized, nHeight, tx.isCoinBase⟩ tx.isCoinBase := rfl

/-- A step for an output at another index leaves the entry at `o` alone. -/
theorem find_foldlM_addCoinsStep_of_ne (h : l.foldlM (addCoinsStep tx nHeight false) v = .ok v')
    (hne : ∀ p ∈ l, isUnspendable p.1.scriptPubKey = false → tx.outPoint p.2 ≠ o) :
    v'.find o = v.find o := by
  refine foldlM_ok_induct (P := fun w : CCoinsViewCache B => w.find o = v.find o)
    rfl ?_ h
  intro w p w' hp hw hstep
  rw [addCoinsStep_false] at hstep
  cases hu : isUnspendable p.1.scriptPubKey with
  | false => rw [find_addCoin_of_ne hstep (hne p hp hu), hw]
  | true => rw [addCoin_unspendable hstep hu, hw]

/-- With distinct indices, the coin of a spendable output is there at the end. -/
theorem lookup_foldlM_addCoinsStep (hl : (l.map Prod.snd).Nodup)
    (h : l.foldlM (addCoinsStep tx nHeight false) v = .ok v') {p : CTxOut × Nat} (hp : p ∈ l)
    (hu : isUnspendable p.1.scriptPubKey = false) :
    v'.lookup (tx.outPoint p.2) = some ⟨p.1.quantized, nHeight, tx.isCoinBase⟩ := by
  induction l generalizing v with
  | nil => cases hp
  | cons q l ih =>
    rw [map_cons, nodup_cons] at hl
    obtain ⟨w, hstep, hrun⟩ := foldlM_cons_ok.mp h
    rcases mem_cons.mp hp with rfl | hp
    · have hrest : v'.find (tx.outPoint p.2) = w.find (tx.outPoint p.2) := by
        refine find_foldlM_addCoinsStep_of_ne hrun ?_
        intro q hq _ heq
        refine hl.1 (mem_map.mpr ⟨q, hq, ?_⟩)
        simpa [outPoint] using heq
      rw [lookup_congr hrest, lookup_addCoin hstep hu, if_pos rfl]
    · exact ih hl.2 hrun hp

theorem nodup_zipIdx_snd (l : List CTxOut) : (l.zipIdx.map Prod.snd).Nodup := by
  rw [zipIdx_map_snd]
  exact nodup_range'

/-- **`AddCoins` writes the created coins over the view.** -/
theorem lookup_addCoins (h : addCoins v tx nHeight false = .ok v') :
    v'.lookup o = (tx.createdCoin nHeight o).or (v.lookup o) := by
  cases hc : tx.createdCoin nHeight o with
  | none =>
    rw [none_or]
    refine lookup_congr (find_foldlM_addCoinsStep_of_ne h ?_)
    rintro ⟨out, n⟩ hp hu rfl
    rw [createdCoin_eq_some_iff.mpr ⟨out, hp, rfl, hu, rfl⟩] at hc
    cases hc
  | some c =>
    obtain ⟨out, hmem, ho, hu, rfl⟩ := createdCoin_eq_some_iff.mp hc
    rw [ho, some_or]
    exact lookup_foldlM_addCoinsStep (nodup_zipIdx_snd _) h hmem hu

theorem haveCoinInCache_foldlM_mono (h : l.foldlM (addCoinsStep tx nHeight false) v = .ok v')
    (hhave : v.haveCoinInCache o = true) : v'.haveCoinInCache o = true := by
  refine foldlM_ok_induct
    (P := fun w : CCoinsViewCache B => w.haveCoinInCache o = true) hhave ?_ h
  intro w p w' _ hw hstep
  exact haveCoinInCache_addCoin_mono hstep hw

/-- After `AddCoins` the cache has the created coins; before, it had none of
them, unless the transaction is a coinbase. -/
theorem haveCoinInCache_addCoins (h : addCoins v tx nHeight false = .ok v')
    (hc : (tx.createdCoin nHeight o).isSome = true) :
    v'.haveCoinInCache o = true ∧
      (tx.isCoinBase = false → v.haveCoinInCache o = false) := by
  obtain ⟨c, hc⟩ := isSome_iff_exists.mp hc
  obtain ⟨out, hmem, ho, hu, -⟩ := createdCoin_eq_some_iff.mp hc
  have hrun : ∀ (l : List (CTxOut × Nat)) (w : CCoinsViewCache B), (out, o.n) ∈ l →
      l.foldlM (addCoinsStep tx nHeight false) w = .ok v' →
      v'.haveCoinInCache o = true ∧
        (tx.isCoinBase = false → (l.map Prod.snd).Nodup → w.haveCoinInCache o = false) := by
    intro l
    induction l with
    | nil => exact nofun
    | cons p l ih =>
      intro w hm h
      obtain ⟨w', hstep, hrun⟩ := foldlM_cons_ok.mp h
      rw [addCoinsStep_false] at hstep
      rcases mem_cons.mp hm with rfl | hm
      · rw [← ho] at hstep
        obtain ⟨hpost, hpre⟩ := haveCoinInCache_addCoin hstep hu
        exact ⟨haveCoinInCache_foldlM_mono hrun hpost, fun hcb _ => hpre hcb⟩
      · obtain ⟨hpost, hpre⟩ := ih w' hm hrun
        refine ⟨hpost, fun hcb hnd => ?_⟩
        rw [map_cons, nodup_cons] at hnd
        rw [← hpre hcb hnd.2, haveCoinInCache_addCoin_of_ne hstep]
        intro heq
        refine hnd.1 (mem_map.mpr ⟨_, hm, ?_⟩)
        rw [← heq]
        rfl
  obtain ⟨hpost, hpre⟩ := hrun tx.vout.zipIdx v hmem h
  exact ⟨hpost, fun hcb => hpre hcb (nodup_zipIdx_snd _)⟩

theorem base_addCoins (h : addCoins v tx nHeight false = .ok v') : v'.base = v.base := by
  refine foldlM_ok_induct (P := fun w : CCoinsViewCache B => w.base = v.base) rfl ?_ h
  intro w p w' _ hw hstep
  rw [addCoinsStep_false] at hstep
  rw [base_addCoin hstep, hw]

/-- `AddCoins` does not misapply `FRESH` as long as a transaction that is not a
coinbase creates no coin over an unspent one. -/
theorem CCoinsViewCache.Wf.addCoins (hw : v.Wf) (h : addCoins v tx nHeight false = .ok v')
    (hnew : tx.isCoinBase = true ∨
      ∀ o, (tx.createdCoin nHeight o).isSome = true → v.lookup o = none) : v'.Wf := by
  -- the invariant also remembers that the outputs still to come are new
  have hrun : ∀ (l : List (CTxOut × Nat)) (w : CCoinsViewCache B), w.Wf →
      (l.map Prod.snd).Nodup →
      (tx.isCoinBase = true ∨ ∀ p ∈ l, isUnspendable p.1.scriptPubKey = false →
        w.lookup (tx.outPoint p.2) = none) →
      l.foldlM (addCoinsStep tx nHeight false) w = .ok v' → v'.Wf := by
    intro l
    induction l with
    | nil =>
      intro w hw _ _ h
      cases h
      exact hw
    | cons p l ih =>
      intro w hw hnd hnew h
      rw [map_cons, nodup_cons] at hnd
      obtain ⟨w', hstep, h⟩ := foldlM_cons_ok.mp h
      rw [addCoinsStep_false] at hstep
      refine ih w' ?_ hnd.2 (hnew.imp_right fun hn q hq hu => ?_) h
      · cases hu : isUnspendable p.1.scriptPubKey with
        | false => exact hw.addCoin hstep (hnew.imp_right fun hn => hn p mem_cons_self hu)
        | true => rwa [addCoin_unspendable hstep hu]
      · rw [lookup_congr (find_addCoin_of_ne hstep ?_)]
        · exact hn q (mem_cons_of_mem _ hq) hu
        · intro heq
          refine hnd.1 (mem_map.mpr ⟨q, hq, ?_⟩)
          simpa [outPoint] using heq.symm
  refine hrun tx.vout.zipIdx v hw (nodup_zipIdx_snd _) (hnew.imp_right fun hn p hp hu => ?_) h
  have hcreated : tx.createdCoin nHeight (tx.outPoint p.2) = some _ :=
    createdCoin_eq_some_iff.mpr ⟨p.1, hp, rfl, hu, rfl⟩
  exact hn _ (by rw [hcreated]; rfl)

end AddCoins

end DeVault
