import DeVault.CoinsStack

/-!
# A stack of caches refines a stack of maps (`coins.cpp`)

Caches are laid over caches, down to a map. A read that misses in one cache asks the one
below, which keeps a copy too, so that reads change all levels. Writes go to the cache on
top. `Flush` moves them one level down.

What a stack means are the coins visible at each level (`CoinsStack.views`). In terms of
these maps the operations are simple (`Reference.step`): a write changes one point of the
first map, `Flush` copies the first map over the second, and reads do nothing.
-/

namespace DeVault

open CCoinsView CCoinsViewCache List
open CCoinsViewDB (empty)

/-- Caches over caches over the database. -/
inductive CoinsStack where
  | db (d : CCoinsViewDB)
  | cache (cacheCoins : Std.ExtTreeMap COutPoint CCoinsCacheEntry) (hashBlock : BlockHash)
      (below : CoinsStack)

/-- What a cache shows, and the promise of its flags, depend on what its base shows only. -/
theorem lookup_eq_of_base {B B' : Type} [CCoinsView B] [CCoinsView B'] {v : CCoinsViewCache B}
    {w : CCoinsViewCache B'} (hm : v.cacheCoins = w.cacheCoins)
    (hb : ∀ o, getCoin v.base o = getCoin w.base o) (o : COutPoint) : v.lookup o = w.lookup o := by
  cases he : v.cacheCoins[o]? with
  | none => rw [lookup_of_uncached he, lookup_of_uncached (hm ▸ he), hb]
  | some e => rw [lookup_of_cached he, lookup_of_cached (hm ▸ he)]

theorem wf_of_base {B B' : Type} [CCoinsView B] [CCoinsView B'] {v : CCoinsViewCache B}
    {w : CCoinsViewCache B'} (hv : v.Wf) (hm : v.cacheCoins = w.cacheCoins)
    (hb : ∀ o, getCoin v.base o = getCoin w.base o) : w.Wf := by
  constructor
  · intro o e he hd
    rw [← hb]
    exact hv.clean o e (hm ▸ he) hd
  · intro o e he hf
    rw [← hb]
    exact hv.fresh o e (hm ▸ he) hf

variable (m : Std.ExtTreeMap COutPoint CCoinsCacheEntry) (s : CoinsStack)

namespace CoinsStack

/-! ### The operations -/

/-- `FetchCoin` of a cache, where `r` is what `GetCoin` of the view below does. -/
def fetchStep (h : BlockHash) (b : CoinsStack)
    (o : COutPoint) (r : CoinsStack × Option Coin) : CoinsStack × Option CCoinsCacheEntry :=
  match m[o]? with
  | some e => (cache m h b, some e)
  | none =>
    match r.2 with
    | none => (cache m h r.1, none)
    | some tmp =>
      let e : CCoinsCacheEntry := { coin := tmp, fresh := tmp.isSpent }
      (cache (m.insert o e) h r.1, some e)

/-- `GetCoin` at the top. The caches below may change, too. -/
def getCoin : CoinsStack → COutPoint → CoinsStack × Option Coin
  | db d, o => (db d, d.coins[o]?)
  | cache m h b, o =>
    let r := fetchStep m h b o (b.getCoin o)
    (r.1, r.2.bind fun e => if e.coin.isSpent then none else some e.coin)

/-- `FetchCoin` at the top. -/
def fetchCoin : CoinsStack → COutPoint → CoinsStack × Option CCoinsCacheEntry
  | db d, o => (db d, d.coins[o]?.map fun coin => { coin := coin })
  | cache m h b, o => fetchStep m h b o (b.getCoin o)

/-- `HaveCoin` at the top. -/
def haveCoin (o : COutPoint) : CoinsStack × Bool :=
  let r := s.fetchCoin o
  (r.1, r.2.any fun e => !e.coin.isSpent)

/-- `AccessCoin` at the top. -/
def accessCoin (o : COutPoint) : CoinsStack × Coin :=
  let r := s.fetchCoin o
  (r.1, (r.2.map (·.coin)).getD Coin.empty)

/-- The cache on top as a cache over what is below. -/
def asCache (h : BlockHash) (b : CoinsStack) : CCoinsViewCache CoinsStack :=
  { base := b, cacheCoins := m, hashBlock := h }

/-- A stack from a cache over a stack. -/
def ofCache (v : CCoinsViewCache CoinsStack) : CoinsStack := cache v.cacheCoins v.hashBlock v.base

/-- `AddCoin` at the top, which reads nothing below. -/
def addCoin : CoinsStack → COutPoint → Coin → Bool → Except Fault CoinsStack
  | db d, _, _, _ => .ok (db d)
  | cache m h b, o, coin, possibleOverwrite =>
    ((asCache m h b).addCoin o coin possibleOverwrite).map ofCache

/-- `SpendCoin` at the top. -/
def spendCoin (o : COutPoint) : CoinsStack :=
  match s.fetchCoin o with
  | (cache m h b, some e) =>
    if e.fresh then cache (m.erase o) h b
    else cache (m.insert o { e with coin := Coin.empty, dirty := true }) h b
  | (s, _) => s

/-- `Uncache` at the top. -/
def uncache : CoinsStack → COutPoint → CoinsStack
  | db d, _ => db d
  | cache m h b, o => ofCache ((asCache m h b).uncache o)

/-- `Flush` of the top into what is below. -/
def flush : CoinsStack → Except Fault CoinsStack
  | db d => .ok (db d)
  | cache m h (db d) => .ok (cache ∅ h (db (d.batchWrite m h)))
  | cache m h (cache m' h' b) =>
    ((asCache m' h' b).batchWrite m h).map fun us => cache ∅ h (ofCache us)

/-- An operation on the part of a stack from a level on. -/
def onLevel (f : CoinsStack → CoinsStack) : Nat → CoinsStack → CoinsStack
  | 0, s => f s
  | _ + 1, db d => db d
  | i + 1, cache m h b => cache m h (onLevel f i b)

/-- `Flush` of all caches, from the top down. -/
def flushAll : Nat → CoinsStack → Except Fault CoinsStack
  | 0, s => .ok s
  | n + 1, s =>
    match s.flush with
    | .error e => .error e
    | .ok (cache m h b) => (b.flushAll n).map fun b => cache m h b
    | .ok (db d) => .ok (db d)

/-! ### What is visible -/

/-- The coin visible at the top. -/
def visible : CoinsStack → COutPoint → Option Coin
  | db d, o => d.coins[o]?
  | cache m _ b, o =>
    match m[o]? with
    | some e => if e.coin.isSpent then none else some e.coin
    | none => b.visible o

theorem isSpent_visible {o : COutPoint} {coin : Coin}
    (h : s.visible o = some coin) : coin.isSpent = false := by
  induction s with
  | db d => exact d.unspent o coin h
  | cache m hash b ih =>
    rw [visible] at h
    split at h
    · obtain ⟨hunspent, heq⟩ := Option.ite_none_left_eq_some.mp h
      rw [← Option.some.inj heq]
      exact Bool.eq_false_iff.mpr hunspent
    · exact ih h

/-- `GetBestBlock`. -/
def bestBlock : CoinsStack → BlockHash
  | db d => d.hashBestBlock
  | cache _ h b => if h = 0 then b.bestBlock else h

instance : CCoinsView CoinsStack where
  getCoin := visible
  getBestBlock := bestBlock
  isSpent_getCoin s _ _ h := isSpent_visible s h

/-- The coins visible at each level. -/
def views : CoinsStack → List (COutPoint → Option Coin)
  | db d => [visible (db d)]
  | cache m h b => visible (cache m h b) :: b.views

/-- At every level the flags keep their promise towards what is visible below. -/
def Wf : CoinsStack → Prop
  | db _ => True
  | cache m h b => (asCache m h b).Wf ∧ b.Wf

variable {m : Std.ExtTreeMap COutPoint CCoinsCacheEntry} {h : BlockHash} {s s' b b' : CoinsStack}
  {o : COutPoint}

theorem lookup_asCache : (asCache m h b).lookup = visible (cache m h b) := by
  funext o
  rw [visible]
  split
  next e he => exact lookup_of_cached he
  next he => exact lookup_of_uncached he

theorem views_eq_cons (s : CoinsStack) : ∃ fs, s.views = s.visible :: fs := by
  cases s with
  | db d => exact ⟨[], rfl⟩
  | cache m h b => exact ⟨b.views, rfl⟩

theorem visible_of_views (hviews : s'.views = s.views) : s'.visible = s.visible := by
  obtain ⟨fs, hfs⟩ := views_eq_cons s
  obtain ⟨fs', hfs'⟩ := views_eq_cons s'
  rw [hfs, hfs'] at hviews
  exact (List.cons.inj hviews).1

/-- What a level shows depends on what is visible below only. -/
theorem views_cache_congr (hviews : b'.views = b.views) :
    (cache m h b').views = (cache m h b).views := by
  have hvis : visible (cache m h b') = visible (cache m h b) := by
    funext o
    rw [visible, visible, visible_of_views hviews]
  rw [views, views, hvis, hviews]

/-- So does the promise of its flags. -/
theorem wf_cache_congr (hviews : b'.views = b.views) (hwf : (asCache m h b).Wf) :
    (asCache m h b').Wf :=
  wf_of_base hwf rfl fun o => congrFun (visible_of_views hviews).symm o

/-! ### Reads -/

/-- A cache is the top of a stack, over a base that may have been read. -/
theorem views_ofCache {v : CCoinsViewCache CoinsStack} (hviews : b'.views = v.base.views) :
    (cache v.cacheCoins v.hashBlock b').views = v.lookup :: v.base.views := by
  rw [views_cache_congr hviews, views, ← lookup_asCache]
  rfl

theorem wf_ofCache {v : CCoinsViewCache CoinsStack} (hviews : b'.views = v.base.views) (hb : b'.Wf)
    (hv : v.Wf) : (cache v.cacheCoins v.hashBlock b').Wf :=
  ⟨wf_cache_congr hviews hv, hb⟩

/-- **`FetchCoin` of a cache** does what it does over the visible coins, if `GetCoin` of the view
below returns what is visible there and changes nothing. -/
theorem fetchStep_eq {r : CoinsStack × Option Coin} (hr : r.2 = b.visible o)
    (hviews : r.1.views = b.views) (hwf : r.1.Wf) (hb : b.Wf) :
    ∃ b', b'.views = b.views ∧ b'.Wf ∧ fetchStep m h b o r =
      (cache ((asCache m h b).fetchCoin o).1.cacheCoins
        ((asCache m h b).fetchCoin o).1.hashBlock b',
        (asCache m h b).find o) := by
  unfold fetchStep CCoinsViewCache.fetchCoin find
  cases hm : m[o]? with
  | some e =>
    refine ⟨b, rfl, hb, ?_⟩
    simp only [asCache, hm]
  | none =>
    have hbase : CCoinsView.getCoin (asCache m h b).base o = r.2 := hr.symm
    refine ⟨r.1, hviews, hwf, ?_⟩
    simp only [asCache, hm] at hbase ⊢
    rw [hbase]
    cases r.2 <;> rfl

/-- The unspent coin of an entry that was found. -/
def unspent (it : Option CCoinsCacheEntry) : Option Coin :=
  it.bind fun e => if e.coin.isSpent then none else some e.coin

/-- `FetchCoin` at the top of a stack whose lower part is read properly. -/
theorem fetchStep_spec {r : CoinsStack × Option Coin} (hr : r.2 = b.visible o)
    (hviews : r.1.views = b.views) (hwf : r.1.Wf) (hs : (cache m h b).Wf) :
    unspent (fetchStep m h b o r).2 = visible (cache m h b) o ∧
      (fetchStep m h b o r).1.views = (cache m h b).views ∧ (fetchStep m h b o r).1.Wf := by
  obtain ⟨b', hb', hwf', heq⟩ := fetchStep_eq hr hviews hwf hs.2
  have hbase : b'.views = ((asCache m h b).fetchCoin o).1.base.views := by
    rw [base_fetchCoin]
    exact hb'
  rw [heq]
  refine ⟨?_, ?_, wf_ofCache hbase hwf' (hs.1.fetchCoin o)⟩
  · have hget : unspent ((asCache m h b).fetchCoin o).2 = (asCache m h b).lookup o := getCoin_snd
    rwa [fetchCoin_snd, lookup_asCache] at hget
  · have hlook : ((asCache m h b).fetchCoin o).1.lookup = visible (cache m h b) := by
      funext o'
      rw [lookup_fetchCoin, lookup_asCache]
    rw [views_ofCache hbase, hlook, base_fetchCoin]
    rfl

/-- **A read at the top** returns what is visible, and changes neither what is visible nor the
promise of the flags at any level. -/
theorem getCoin_spec (hs : s.Wf) :
    (s.getCoin o).2 = s.visible o ∧ (s.getCoin o).1.views = s.views ∧ (s.getCoin o).1.Wf := by
  induction s with
  | db d => exact ⟨rfl, rfl, hs⟩
  | cache m h b ih =>
    obtain ⟨hr, hviews, hwf⟩ := ih hs.2
    exact fetchStep_spec hr hviews hwf hs

theorem fetchCoin_spec (hs : s.Wf) :
    unspent (s.fetchCoin o).2 = s.visible o ∧ (s.fetchCoin o).1.views = s.views ∧
      (s.fetchCoin o).1.Wf := by
  cases s with
  | db d =>
    refine ⟨?_, rfl, hs⟩
    show unspent (d.coins[o]?.map fun coin => { coin := coin }) = d.coins[o]?
    cases hd : d.coins[o]? with
    | none => rfl
    | some coin => simp [unspent, d.unspent o coin hd]
  | cache m h b =>
    obtain ⟨hr, hviews, hwf⟩ := getCoin_spec hs.2
    exact fetchStep_spec hr hviews hwf hs

theorem haveCoin_snd_eq (hs : s.Wf) : (s.haveCoin o).2 = (s.visible o).isSome := by
  rw [← (fetchCoin_spec hs).1, haveCoin]
  cases (s.fetchCoin o).2 with
  | none => rfl
  | some e => cases hspent : e.coin.isSpent <;> simp [unspent, hspent]

/-- `AccessCoin` returns the visible coin, or a spent one if there is none. -/
theorem accessCoin_snd_eq (hs : s.Wf) :
    (if (s.accessCoin o).2.isSpent then none else some (s.accessCoin o).2) = s.visible o := by
  rw [← (fetchCoin_spec hs).1, accessCoin]
  cases (s.fetchCoin o).2 with
  | none => rfl
  | some e => rfl

/-- What changes nothing at the top of the lower part changes nothing of the stack. -/
theorem onLevel_spec {f : CoinsStack → CoinsStack}
    (hf : ∀ s : CoinsStack, s.Wf → (f s).views = s.views ∧ (f s).Wf) (i : Nat) (hs : s.Wf) :
    (onLevel f i s).views = s.views ∧ (onLevel f i s).Wf := by
  induction i generalizing s with
  | zero => exact hf s hs
  | succ i ih =>
    cases s with
    | db d => exact ⟨rfl, hs⟩
    | cache m h b =>
      obtain ⟨hviews, hwf⟩ := ih hs.2
      exact ⟨views_cache_congr hviews, wf_cache_congr hviews hs.1, hwf⟩

theorem uncache_views (hs : s.Wf) : (s.uncache o).views = s.views ∧ (s.uncache o).Wf := by
  cases s with
  | db d => exact ⟨rfl, hs⟩
  | cache m h b =>
    obtain ⟨hwf, hbase, hlook⟩ := uncache_spec hs.1 o
    have hviews : ((asCache m h b).uncache o).base.views = b.views := by
      rw [hbase]
      rfl
    refine ⟨?_, ⟨hwf, by rw [hbase]; exact hs.2⟩⟩
    show (cache _ _ ((asCache m h b).uncache o).base).views = _
    rw [views_ofCache rfl, hviews, views, ← lookup_asCache, funext hlook]

/-! ### Writes -/

/-- One point of a map is written. -/
def write (f : COutPoint → Option Coin) (o : COutPoint) (coin : Option Coin) :
    COutPoint → Option Coin :=
  Function.update f o coin

/-- **`AddCoin` at the top** writes the coin, if overwrites are announced. -/
theorem addCoin_spec (hs : (cache m h b).Wf) {coin : Coin} {possibleOverwrite : Bool}
    (hcoin : coin.isSpent = false)
    (hnew : possibleOverwrite = true ∨ visible (cache m h b) o = none) :
    ∃ s', (cache m h b).addCoin o coin possibleOverwrite = .ok s' ∧ s'.Wf ∧
      s'.views = (if isUnspendable coin.out.scriptPubKey then visible (cache m h b)
        else write (visible (cache m h b)) o (some coin)) :: b.views := by
  rw [← lookup_asCache] at hnew
  obtain ⟨v, hv⟩ : ∃ v, (asCache m h b).addCoin o coin possibleOverwrite = .ok v := by
    unfold CCoinsViewCache.addCoin
    rw [hcoin]
    simp only [Bool.false_eq_true, if_false]
    split
    · exact ⟨_, rfl⟩
    · -- an unspent entry would be visible
      rw [if_neg]
      · exact ⟨_, rfl⟩
      intro hreplace
      obtain ⟨how, hunspent⟩ := Bool.and_eq_true_iff.mp hreplace
      have hnone := hnew.resolve_left (by simpa using how)
      cases he : (asCache m h b).cacheCoins[o]? with
      | none =>
        rw [he] at hunspent
        cases hunspent
      | some e =>
        rw [he, Option.getD_some, Bool.not_eq_true'] at hunspent
        rw [lookup_of_cached he, hunspent] at hnone
        cases hnone
  have hbase : v.base = b := base_addCoin hv
  refine ⟨ofCache v, ?_, ⟨hs.1.addCoin hv hnew, by rw [hbase]; exact hs.2⟩, ?_⟩
  · rw [addCoin, hv]
    rfl
  · show (cache _ _ v.base).views = _
    rw [views_ofCache rfl, hbase, ← lookup_asCache]
    congr 1
    split
    next hu => rw [addCoin_unspendable hv hu]
    next hu =>
      funext o'
      rw [lookup_addCoin hv (Bool.eq_false_iff.mpr hu), write, Function.update_apply]
      simp only [eq_comm]

/-- `SpendCoin` does what it does in the cache over the visible coins. -/
theorem spendCoin_eq_ofCache (hb : b.Wf) :
    ∃ b', b'.views = b.views ∧ b'.Wf ∧ (cache m h b).spendCoin o =
      cache ((asCache m h b).spendCoin o).1.cacheCoins
        ((asCache m h b).spendCoin o).1.hashBlock b' := by
  obtain ⟨hr, hviews, hwf⟩ := getCoin_spec hb
  obtain ⟨b', hb', hwf', heq⟩ := fetchStep_eq (m := m) (h := h) hr hviews hwf hb
  refine ⟨b', hb', hwf', ?_⟩
  have hsnd : ((asCache m h b).fetchCoin o).2 = (asCache m h b).find o := fetchCoin_snd
  rw [spendCoin, fetchCoin, heq, CCoinsViewCache.spendCoin]
  generalize (asCache m h b).fetchCoin o = p at hsnd
  obtain ⟨v, it⟩ := p
  rw [← hsnd]
  cases it with
  | none => rfl
  | some e => cases hf : e.fresh <;> simp [hf]

/-- **`SpendCoin` at the top** takes the coin out. -/
theorem spendCoin_spec (hs : (cache m h b).Wf) : ((cache m h b).spendCoin o).Wf ∧
      ((cache m h b).spendCoin o).views = write (visible (cache m h b)) o none :: b.views := by
  obtain ⟨b', hb', hwf', heq⟩ := spendCoin_eq_ofCache hs.2
  have hbase : b'.views = ((asCache m h b).spendCoin o).1.base.views := by
    rw [base_spendCoin]
    exact hb'
  rw [heq]
  refine ⟨wf_ofCache hbase hwf' (hs.1.spendCoin o), ?_⟩
  rw [views_ofCache hbase, base_spendCoin, ← lookup_asCache]
  congr 1
  funext o'
  rw [lookup_spendCoin hs.1, write, Function.update_apply]
  simp only [eq_comm]

/-! ### Flushing -/

/-- **`Flush` of the top** throws no error, and then the level below shows what the top
shows. -/
theorem flush_views (hs : (cache m h b).Wf) :
    ∃ b', (cache m h b).flush = .ok (cache ∅ h b') ∧ b'.Wf ∧
      b'.views = visible (cache m h b) :: b.views.tail := by
  cases b with
  | db d =>
    -- a cache over the database itself
    have hsame : ∀ o, (asCache m h (db d)).lookup o = lookup (B := CCoinsViewDB) ⟨d, m, h⟩ o :=
      lookup_eq_of_base rfl fun _ => rfl
    obtain ⟨-, -, hcoins⟩ := flushToDB_spec
      (wf_of_base (w := ⟨d, m, h⟩) hs.1 rfl fun _ => rfl)
    refine ⟨db (d.batchWrite m h), rfl, trivial, ?_⟩
    show [visible (db (d.batchWrite m h))] = [visible (cache m h (db d))]
    congr 1
    funext o
    rw [← lookup_asCache, hsame]
    exact hcoins o
  | cache m' h' b =>
    -- a cache over the cache below
    have hbase :
      ∀ o, CCoinsView.getCoin (cache m' h' b) o = CCoinsView.getCoin (asCache m' h' b) o :=
      fun o => (congrFun lookup_asCache o).symm
    have hsame : ∀ o, (asCache m h (cache m' h' b)).lookup o =
        lookup (B := CCoinsViewCache CoinsStack) ⟨asCache m' h' b, m, h⟩ o :=
      lookup_eq_of_base rfl hbase
    obtain ⟨us, hrun, hwf, hus, -, hlook⟩ :=
      flush_spec (wf_of_base (w := ⟨asCache m' h' b, m, h⟩) hs.1 rfl hbase) hs.2.1 Reads.refl h
    refine ⟨ofCache us, ?_, ⟨hwf, by rw [hus]; exact hs.2.2⟩, ?_⟩
    · rw [flush, hrun]
      rfl
    · show (cache _ _ us.base).views = _
      rw [views_ofCache rfl, hus]
      show us.lookup :: b.views = visible (cache m h (cache m' h' b)) :: b.views
      congr 1
      funext o
      rw [hlook o, ← lookup_asCache, hsame]

theorem views_empty_cache : (cache ∅ h s).views = s.visible :: s.views := by
  have hempty : visible (cache ∅ h s) = s.visible := by
    funext o
    simp [visible]
  rw [views, hempty]

/-- The number of caches. -/
def height : CoinsStack → Nat
  | db _ => 0
  | cache _ _ b => b.height + 1

/-- The database at the bottom. -/
def bottom : CoinsStack → CCoinsViewDB
  | db d => d
  | cache _ _ b => b.bottom

theorem length_views : s.views.length = s.height + 1 := by
  induction s with
  | db d => rfl
  | cache m h b ih => rw [views, length_cons, ih, height]

theorem visible_mem_views : s.visible ∈ s.views := by
  obtain ⟨fs, hfs⟩ := views_eq_cons s
  rw [hfs]
  exact mem_cons_self

theorem bottom_mem_views : (fun o : COutPoint => s.bottom.coins[o]?) ∈ s.views := by
  induction s with
  | db d => exact mem_cons_self
  | cache m h b ih => exact mem_cons_of_mem _ ih

/-- **After flushing all levels** they all show what the top showed. -/
theorem flushAll_spec (hs : s.Wf) :
    ∃ s', s.flushAll s.height = .ok s' ∧ ∀ f ∈ s'.views, f = s.visible := by
  generalize hn : s.height = n
  induction n generalizing s with
  | zero =>
    cases s with
    | db d => exact ⟨db d, rfl, fun f hf => mem_singleton.mp hf⟩
    | cache m h b => exact absurd hn (Nat.succ_ne_zero _)
  | succ n ih =>
    cases s with
    | db d => exact absurd hn (Nat.succ_ne_zero _).symm
    | cache m h b =>
      obtain ⟨b', hflush, hwf, hviews⟩ := flush_views hs
      obtain ⟨fs, hfs⟩ := views_eq_cons b'
      have htop : b'.visible = visible (cache m h b) := (List.cons.inj (hfs.symm.trans hviews)).1
      have hheight : b'.height = n := by
        have hlen := congrArg length hviews
        rw [length_views, length_cons, List.length_tail, length_views] at hlen
        rw [height] at hn
        omega
      obtain ⟨b'', hrest, hall⟩ := ih hwf hheight
      refine ⟨cache ∅ h b'', ?_, ?_⟩
      · rw [flushAll, hflush]
        show (b'.flushAll n).map _ = _
        rw [hrest]
        rfl
      · rw [views_empty_cache]
        refine forall_mem_cons.mpr ⟨?_, fun f hf => ?_⟩
        · rw [hall _ visible_mem_views, htop]
        · rw [hall f hf, htop]

end CoinsStack

open CoinsStack

/-! ### Sequences of operations -/

/-- The operations. Reads and `Uncache` go to any level, counted from the top; writes and `Flush` go
to the cache on top. A cache may be laid on top, and dropped while there is another. -/
inductive CoinsOp where
  | addCoin (o : COutPoint) (coin : Coin) (possibleOverwrite : Bool)
  | spendCoin (o : COutPoint)
  | getCoin (level : Nat) (o : COutPoint)
  | haveCoin (level : Nat) (o : COutPoint)
  | accessCoin (level : Nat) (o : COutPoint)
  | uncache (level : Nat) (o : COutPoint)
  | flush
  | newCache
  | dropCache

/-- An operation on a stack of caches. -/
def CoinsStack.step (s : CoinsStack) : CoinsOp → Except Fault CoinsStack
  | .addCoin o coin possibleOverwrite => s.addCoin o coin possibleOverwrite
  | .spendCoin o =>
    match s with
    | .db d => .ok (.db d)
    | .cache m h b => .ok ((cache m h b).spendCoin o)
  | .getCoin level o => .ok (onLevel (fun s => (s.getCoin o).1) level s)
  | .haveCoin level o => .ok (onLevel (fun s => (s.haveCoin o).1) level s)
  | .accessCoin level o => .ok (onLevel (fun s => (s.accessCoin o).1) level s)
  | .uncache level o => .ok (onLevel (fun s => s.uncache o) level s)
  | .flush => s.flush
  | .newCache => .ok (.cache ∅ 0 s)
  | .dropCache =>
    match s with
    | .cache _ _ (.cache m h b) => .ok (.cache m h b)
    | s => .ok s

namespace Reference

/-- A change of the first map, which belongs to a cache if there is another below. -/
def onTop (change : (COutPoint → Option Coin) → COutPoint → Option Coin) :
    List (COutPoint → Option Coin) → List (COutPoint → Option Coin)
  | f :: g :: fs => change f :: g :: fs
  | fs => fs

/-- The same operation on a stack of maps, of which the last is the one below the caches. -/
def step (fs : List (COutPoint → Option Coin)) : CoinsOp → List (COutPoint → Option Coin)
  | .addCoin o coin _ =>
    onTop (fun f => if isUnspendable coin.out.scriptPubKey then f
      else write f o (some coin)) fs
  | .spendCoin o => onTop (fun f => write f o none) fs
  | .getCoin _ _ | .haveCoin _ _ | .accessCoin _ _ | .uncache _ _ => fs
  | .flush =>
    match fs with
    | f :: _ :: fs => f :: f :: fs
    | fs => fs
  | .newCache =>
    match fs with
    | f :: fs => f :: f :: fs
    | [] => []
  | .dropCache =>
    match fs with
    | _ :: g :: k :: fs => g :: k :: fs
    | fs => fs

/-- What is asked of the caller of `AddCoin`: the coin is not spent, and an overwrite is
announced where a coin is visible. -/
def Allowed : List (COutPoint → Option Coin) → CoinsOp → Prop
  | fs, .addCoin o coin possibleOverwrite =>
    coin.isSpent = false ∧ (possibleOverwrite = true ∨ ∀ f ∈ fs.head?, f o = none)
  | _, _ => True

/-- All operations of a sequence are allowed where they happen. -/
def AllowedRun : List (COutPoint → Option Coin) → List CoinsOp → Prop
  | _, [] => True
  | fs, op :: ops => Allowed fs op ∧ AllowedRun (step fs op) ops

end Reference

section Refinement

open CoinsStack

variable {s : CoinsStack} {op : CoinsOp}

/-- **Each operation does to the visible coins what it does to the maps**, and throws
nothing. -/
theorem step_refines (hs : s.Wf) (hop : Reference.Allowed s.views op) :
    ∃ s', s.step op = .ok s' ∧ s'.Wf ∧ s'.views = Reference.step s.views op := by
  -- a read at some level does to the maps what it should: nothing
  have hread : ∀ {f : CoinsStack → CoinsStack},
      (∀ s : CoinsStack, s.Wf → (f s).views = s.views ∧ (f s).Wf) → ∀ i,
      ∃ s', Except.ok (onLevel f i s) = (.ok s' : Except Fault CoinsStack) ∧ s'.Wf ∧
        s'.views = s.views := by
    intro f hf i
    obtain ⟨hviews, hwf⟩ := onLevel_spec hf i hs
    exact ⟨_, rfl, hwf, hviews⟩
  cases op with
  | addCoin o coin possibleOverwrite =>
    obtain ⟨hcoin, hnew⟩ := hop
    cases s with
    | db d => exact ⟨db d, rfl, hs, rfl⟩
    | cache m h b =>
      obtain ⟨s', hadd, hwf, hviews⟩ := addCoin_spec hs hcoin (hnew.imp_right fun hf => hf _ rfl)
      obtain ⟨fs, hfs⟩ := views_eq_cons b
      refine ⟨s', hadd, hwf, ?_⟩
      rw [hviews, views, hfs]
      rfl
  | spendCoin o =>
    cases s with
    | db d => exact ⟨db d, rfl, hs, rfl⟩
    | cache m h b =>
      obtain ⟨hwf, hviews⟩ := spendCoin_spec hs
      obtain ⟨fs, hfs⟩ := views_eq_cons b
      refine ⟨_, rfl, hwf, ?_⟩
      rw [hviews, views, hfs]
      rfl
  | getCoin i o => exact hread (fun s hs => (getCoin_spec hs).2) i
  | haveCoin i o => exact hread (fun s hs => (fetchCoin_spec hs).2) i
  | accessCoin i o => exact hread (fun s hs => (fetchCoin_spec hs).2) i
  | uncache i o => exact hread (fun s hs => uncache_views hs) i
  | flush =>
    cases s with
    | db d => exact ⟨db d, rfl, hs, rfl⟩
    | cache m h b =>
      obtain ⟨b', hflush, hwf, hviews⟩ := flush_views hs
      obtain ⟨fs, hfs⟩ := views_eq_cons b
      obtain ⟨fs', hfs'⟩ := views_eq_cons b'
      have htop : b'.visible = visible (cache m h b) := (List.cons.inj (hfs'.symm.trans hviews)).1
      refine ⟨cache ∅ h b', hflush, ⟨Wf.ofBase b' h, hwf⟩, ?_⟩
      rw [views_empty_cache, hviews, htop, views, hfs]
      rfl
  | newCache =>
    refine ⟨cache ∅ 0 s, rfl, ⟨Wf.ofBase s 0, hs⟩, ?_⟩
    obtain ⟨fs, hfs⟩ := views_eq_cons s
    rw [views_empty_cache, hfs]
    rfl
  | dropCache =>
    cases s with
    | db d => exact ⟨db d, rfl, hs, rfl⟩
    | cache m h b =>
      cases b with
      | db d => exact ⟨_, rfl, hs, rfl⟩
      | cache m' h' b =>
        refine ⟨_, rfl, hs.2, ?_⟩
        obtain ⟨fs, hfs⟩ := views_eq_cons b
        have hviews : (cache m h (cache m' h' b)).views =
            visible (cache m h (cache m' h' b)) :: visible (cache m' h' b) :: b.visible :: fs := by
          rw [views, views, hfs]
        rw [hviews, views, hfs]
        rfl

theorem run_refines {ops : List CoinsOp} (hs : s.Wf) (hops : Reference.AllowedRun s.views ops) :
    ∃ s', ops.foldlM step s = .ok s' ∧ s'.Wf ∧
      s'.views = ops.foldl Reference.step s.views := by
  induction ops generalizing s with
  | nil => exact ⟨s, rfl, hs, rfl⟩
  | cons op ops ih =>
    obtain ⟨s₁, hstep, hwf, hviews⟩ := step_refines hs hops.1
    obtain ⟨s₂, hrun, hwf₂, hviews₂⟩ := ih hwf (by rw [hviews]; exact hops.2)
    refine ⟨s₂, ?_, hwf₂, ?_⟩
    · rw [foldlM_cons, hstep]
      exact hrun
    · rw [hviews₂, hviews, foldl_cons]

/-- The part of a stack from a level on. -/
def CoinsStack.level : Nat → CoinsStack → CoinsStack
  | 0, s => s
  | _ + 1, db d => db d
  | i + 1, cache _ _ b => b.level i

theorem level_of_views {i : Nat} {f : COutPoint → Option Coin} (hs : s.Wf)
    (hf : s.views[i]? = some f) : (s.level i).visible = f ∧ (s.level i).Wf := by
  induction i generalizing s with
  | zero =>
    obtain ⟨fs, hfs⟩ := views_eq_cons s
    rw [hfs] at hf
    exact ⟨Option.some.inj hf, hs⟩
  | succ i ih =>
    cases s with
    | db d => exact absurd hf (by simp [views])
    | cache m h b => exact ih hs.2 hf

/-- Empty caches over a database. -/
def CoinsStack.initial (d : CCoinsViewDB) : Nat → CoinsStack
  | 0 => db d
  | n + 1 => cache ∅ 0 (initial d n)

theorem initial_spec (d : CCoinsViewDB) (n : Nat) :
    (initial d n).Wf ∧
      (initial d n).views = replicate (n + 1) fun o : COutPoint => d.coins[o]? := by
  induction n with
  | zero => exact ⟨trivial, rfl⟩
  | succ n ih =>
    obtain ⟨hwf, hviews⟩ := ih
    refine ⟨⟨Wf.ofBase _ 0, hwf⟩, ?_⟩
    obtain ⟨fs, hfs⟩ := views_eq_cons (initial d n)
    have hhead := (List.cons.inj (hfs.symm.trans hviews)).1
    rw [initial, views_empty_cache, hviews, hhead]
    rfl

/-- **A stack of caches refines a stack of maps.** For any number of caches and any operations in
which `AddCoin` announces overwrites, no error is thrown, and at each level the reads return what is
in the map of this level. After flushing all levels the map at the bottom is that of the top. -/
theorem coinsStack_refines (d : CCoinsViewDB) (n : Nat) (ops : List CoinsOp)
    (hops : Reference.AllowedRun (replicate (n + 1) fun o => d.coins[o]?) ops) :
    ∃ s, ops.foldlM step (initial d n) = .ok s ∧
      s.views = ops.foldl Reference.step (replicate (n + 1) fun o => d.coins[o]?) ∧
      (∀ i f, s.views[i]? = some f → ∀ o,
        ((s.level i).getCoin o).2 = f o ∧ ((s.level i).haveCoin o).2 = (f o).isSome ∧
        (if ((s.level i).accessCoin o).2.isSpent then none
          else some ((s.level i).accessCoin o).2) = f o) ∧
      ∃ s', s.flushAll s.height = .ok s' ∧
        ∀ f ∈ s.views.head?, ∀ o : COutPoint, s'.bottom.coins[o]? = f o := by
  obtain ⟨hinit, hviews⟩ := initial_spec d n
  rw [← hviews] at hops ⊢
  obtain ⟨s, hrun, hwf, href⟩ := run_refines hinit hops
  refine ⟨s, hrun, href, ?_, ?_⟩
  · intro i f hf o
    obtain ⟨hvisible, hlevel⟩ := level_of_views hwf hf
    rw [← hvisible]
    exact ⟨(getCoin_spec hlevel).1, haveCoin_snd_eq hlevel, accessCoin_snd_eq hlevel⟩
  · obtain ⟨s', hflush, hall⟩ := flushAll_spec hwf
    refine ⟨s', hflush, fun f hf o => ?_⟩
    obtain ⟨fs, hfs⟩ := views_eq_cons s
    rw [hfs] at hf
    cases hf
    exact congrFun (hall _ bottom_mem_views) o

/-- Two caches: a new coin is flushed, spent and flushed again. -/
theorem coinsStack_refines_flushed :
    let coin : Coin := ⟨⟨100000, [0x51], none⟩, 1, false⟩
    let ops : List CoinsOp :=
      [.addCoin ⟨7, 0⟩ coin false, .flush, .getCoin 1 ⟨7, 0⟩, .spendCoin ⟨7, 0⟩]
    ∃ s, ops.foldlM step (initial (empty 0) 2) = .ok s ∧
      ((s.level 0).getCoin ⟨7, 0⟩).2 = none ∧ ((s.level 1).getCoin ⟨7, 0⟩).2 = some coin ∧
      ((s.level 2).getCoin ⟨7, 0⟩).2 = none := by
  intro coin ops
  have hops : Reference.AllowedRun
      (replicate 3 fun o => (empty 0).coins[o]?) ops := by
    refine ⟨⟨rfl, .inr fun f hf => ?_⟩, trivial, trivial, trivial, trivial⟩
    cases hf
    simp [empty]
  obtain ⟨s, hrun, hviews, hread, -⟩ := coinsStack_refines (empty 0) 2 ops hops
  have hempty : (empty 0).coins[(⟨7, 0⟩ : COutPoint)]? = none := by
    simp [empty]
  refine ⟨s, hrun, ?_, ?_, ?_⟩
  · refine (hread 0 _ (by rw [hviews]; rfl) ⟨7, 0⟩).1.trans ?_
    simp [write]
  · refine (hread 1 _ (by rw [hviews]; rfl) ⟨7, 0⟩).1.trans ?_
    have hspendable : isUnspendable coin.out.scriptPubKey = false := by decide
    simp [write, hspendable]
  · exact (hread 2 _ (by rw [hviews]; rfl) ⟨7, 0⟩).1.trans hempty

end Refinement

end DeVault
