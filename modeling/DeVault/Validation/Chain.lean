import DeVault.Rewards.Records
import DeVault.Validation.BlockEffect

/-!
# The active chain (`ConnectTip`, `validation.cpp`)

The chain state is the coins database, the cold-reward engine and the tip.
`connectTip` offers a block to `ConnectBlock` on a fresh cache over the database
and flushes the cache if the block is accepted. A refused block leaves coins and
tip alone, but the engine may have run its validation, which can purge records.

`Reachable env p valid s` are the states a node gets to from the genesis block
by offering blocks, where the accepted ones satisfy `valid`. Invariants of
the node are proved by induction on it.
-/

namespace DeVault

open CColdRewards

/-- The index entry of a block on top of another. -/
def CBlockIndex.next (tip : CBlockIndex) (hash : BlockHash) : CBlockIndex where
  nHeight := tip.nHeight + 1
  hash := hash
  ancestors := tip.hash :: tip.ancestors
  length_ancestors := by simp [tip.length_ancestors]

/-- The state of the active chain. -/
structure ChainState where
  utxo : UtxoSet
  rewards : CColdRewards
  tip : CBlockIndex

variable {r : CColdRewards} {t : ConnectState UtxoSet} {out : ConnectOutput UtxoSet}

variable (p : Params) (s : ChainState)

namespace ChainState

/-- The chain with its genesis block only. -/
def genesis : ChainState where
  utxo := UtxoSet.empty p.hashGenesisBlock
  rewards := init p
  tip := ⟨0, p.hashGenesisBlock, [], rfl⟩

/-- A fresh cache over the coins database. -/
def view : CCoinsViewCache UtxoSet := { base := s.utxo }

theorem wf_view : s.view.Wf := CCoinsViewCache.Wf.ofBase s.utxo 0

theorem coinsWf_view : s.view.CoinsWf := CCoinsViewCache.CoinsWf.ofBase s.utxo 0

theorem lookup_view (o : COutPoint) : s.view.lookup o = s.utxo.coins[o]? :=
  CCoinsViewCache.lookup_of_uncached (by simp [view])

/-- `ConnectTip`: the new state, and the failure if the block is refused. -/
def connectTip (env : Env) (p : Params) (s : ChainState) (block : CBlock) :
    ChainState × Option Fault :=
  match h : connectBlock env p block (s.tip.next block.hash) s.view (some s.rewards) false
    false with
  | (g, .error e) => ({ s with rewards := g.getD s.rewards }, some e)
  | (g, .ok out) =>
    ({ utxo := UtxoSet.ofView out.view (coinsWf_of_connectBlock h s.coinsWf_view)
       rewards := g.getD s.rewards
       tip := s.tip.next block.hash }, none)

/-- Offering blocks one after the other. -/
def connectAll (env : Env) (p : Params) (s : ChainState) (blocks : List CBlock) : ChainState :=
  blocks.foldl (fun s block => (s.connectTip env p block).1) s

/-- The states reached from the genesis block, where each accepted block was
`valid` on the state it was accepted on. -/
inductive Reachable (env : Env) (p : Params) (valid : ChainState → CBlock → Prop) :
    ChainState → Prop
  | genesis : Reachable env p valid (genesis p)
  | accepted {s s' : ChainState} {block : CBlock} : Reachable env p valid s → valid s block →
      s.connectTip env p block = (s', none) → Reachable env p valid s'
  | refused {s s' : ChainState} {block : CBlock} {e : Fault} : Reachable env p valid s →
      s.connectTip env p block = (s', some e) → Reachable env p valid s'

variable {env : Env} {p : Params} {s s' : ChainState} {block : CBlock}

/-- Whether blocks are accepted one after the other, each passing a test on the
state it meets. -/
def acceptsAll (env : Env) (p : Params) (test : ChainState → CBlock → Bool) :
    ChainState → List CBlock → Bool
  | _, [] => true
  | s, block :: blocks =>
    test s block && (s.connectTip env p block).2.isNone &&
      acceptsAll env p test (s.connectTip env p block).1 blocks

theorem acceptsAll_append (test : ChainState → CBlock → Bool) (blocks blocks' : List CBlock) :
    acceptsAll env p test s (blocks ++ blocks') =
      (acceptsAll env p test s blocks &&
        acceptsAll env p test (s.connectAll env p blocks) blocks') := by
  induction blocks generalizing s with
  | nil => rfl
  | cons block blocks ih => simp only [List.cons_append, acceptsAll, ih, Bool.and_assoc]; rfl

theorem Reachable.connectAll {valid : ChainState → CBlock → Prop}
    (test : ChainState → CBlock → Bool) (htest : ∀ s block, test s block = true → valid s block)
    {blocks : List CBlock} (h : Reachable env p valid s)
    (hacc : acceptsAll env p test s blocks = true) :
    Reachable env p valid (s.connectAll env p blocks) := by
  induction blocks generalizing s with
  | nil => exact h
  | cons block blocks ih =>
    simp only [acceptsAll, Bool.and_eq_true, Option.isNone_iff_eq_none] at hacc
    exact ih (h.accepted (htest s block hacc.1.1) (Prod.ext rfl hacc.1.2)) hacc.2

theorem coldRewardOf_engine (nHeight : Nat) :
    (coldRewardOf p block nHeight (some r) false false).1 = some (r.validated p block nHeight) := by
  unfold coldRewardOf validated
  split <;> rfl

/-- A refused block leaves coins and tip; the engine may have validated it. -/
theorem connectTip_refused {e : Fault} (h : s.connectTip env p block = (s', some e)) :
    s'.utxo = s.utxo ∧ s'.tip = s.tip ∧
      (s'.rewards = s.rewards ∨
        s'.rewards = s.rewards.validated p block (s.tip.next block.hash).nHeight) := by
  unfold connectTip at h
  split at h
  next g e' hrun =>
    cases h
    refine ⟨rfl, rfl, ?_⟩
    rcases connectBlock_error_engine hrun with rfl | rfl
    · exact .inl rfl
    · exact .inr (by rw [coldRewardOf_engine]; rfl)
  · cases congrArg Prod.snd h

/-- An accepted block moves the tip. Unless it is the genesis block, it has passed all stages, and
the database shows what the view did. -/
theorem connectTip_accepted (h : s.connectTip env p block = (s', none)) :
    s'.tip = s.tip.next block.hash ∧
      ((block.hash = p.hashGenesisBlock ∧ s'.rewards = s.rewards ∧
          ∀ o : COutPoint, s'.utxo.coins[o]? = s.utxo.coins[o]?) ∨
        ∃ t out, Connected env p block (s.tip.next block.hash) s.view (some s.rewards) false false
            t (some (s.rewards.validated p block (s.tip.next block.hash).nHeight))
            (some s'.rewards) out ∧
          (∀ o : COutPoint, s'.utxo.coins[o]? = out.view.lookup o) ∧
          s'.utxo.hashBestBlock = out.view.getBestBlock ∧
          ∃ g, connectBlock env p block (s.tip.next block.hash) s.view (some s.rewards) false
            false =
            (g, .ok out)) := by
  unfold connectTip at h
  split at h
  · cases congrArg Prod.snd h
  next g out hrun =>
  cases h
  refine ⟨rfl, ?_⟩
  have hcoins : ∀ o : COutPoint, out.view.utxo[o]? = out.view.lookup o := out.view.getElem?_utxo
  by_cases hgen : block.hash = p.hashGenesisBlock
  · obtain ⟨rfl, rfl⟩ := connectBlock_genesis_ok hrun hgen
    refine .inl ⟨hgen, rfl, fun o => (hcoins o).trans ?_⟩
    exact s.lookup_view o
  · obtain ⟨t, g₁, hconn⟩ := connectBlock_ok hrun hgen
    have hg₁ : g₁ = some (s.rewards.validated p block (s.tip.next block.hash).nHeight) := by
      rw [← coldRewardOf_engine, hconn.cold]
    subst hg₁
    have hg : g = some (g.getD s.rewards) := by rw [hconn.engine_eq]; rfl
    rw [hg] at hconn
    exact .inr ⟨t, out, hconn, hcoins, rfl, g, hrun⟩

/-- What a block at a height can do to a record it keeps: the payout may set the
clock, and spending makes it inactive. -/
structure Carried (block : CBlock) (nHeight : Nat) (op : COutPoint) (old val : CRewardValue) :
    Prop where
  txout_eq : val.txout = old.txout
  creationHeight_eq : val.creationHeight = old.creationHeight
  height_eq : val.height = old.height ∨ val.height = nHeight
  active_iff : val.active = true ↔ old.active = true ∧ op ∉ block.spentOutpoints

theorem record_updateRewardsDB {nHeight : Nat} {op : COutPoint} {val : CRewardValue}
    (h : (r.updateRewardsDB p nHeight).rewardMap[op]? = some val) :
    ∃ old, r.rewardMap[op]? = some old ∧ val.txout = old.txout ∧
      val.creationHeight = old.creationHeight ∧ val.active = old.active ∧
      (val.height = old.height ∨ val.height = nHeight) := by
  rw [getElem?_updateRewardsDB] at h
  split at h
  · obtain ⟨old, hcur, hpaid⟩ := Option.bind_eq_some_iff.mp h
    unfold paidRecord at hpaid
    split at hpaid
    · cases hpaid
      exact ⟨old, hcur, rfl, rfl, rfl, .inr rfl⟩
    · cases hpaid
  · exact ⟨val, h, rfl, rfl, rfl, .inl rfl⟩

/-- **The records of a committed block.** Each is a candidate that the block
created and did not spend, or was there before. -/
theorem record_commitColdRewards {pindex : CBlockIndex} {nColdReward : Int}
    {op : COutPoint} {val : CRewardValue}
    (h : (commitColdRewards env p block pindex nColdReward r).rewardMap[op]? = some val) :
    (∃ out, (op, out) ∈ block.createdOutputs ∧ op ∉ block.spentOutpoints ∧
        p.getMinRewardBalance pindex.nHeight ≤ out.quantized.nValue ∧
        val = .new out.quantized pindex.nHeight pindex.nHeight pindex.nHeight) ∨
      ∃ old, r.rewardMap[op]? = some old ∧ Carried block pindex.nHeight op old val := by
  simp only [commitColdRewards, rewardMap_setBestBlock] at h
  -- pruning only removes
  have hrec : connectedRecord p block pindex.nHeight op
      (if nColdReward > 0 then r.updateRewardsDB p pindex.nHeight else r).rewardMap[op]? =
        some val := by
    rcases getElem?_updateWithBlock (k := op)
      (r := if nColdReward > 0 then r.updateRewardsDB p pindex.nHeight else r) p env.maxreorgdepth
      block pindex.nHeight with hsame | ⟨hnone, -⟩
    · exact hsame.symm.trans h
    · cases hnone.symm.trans h
  have hpaid : ∀ cur, (if nColdReward > 0 then r.updateRewardsDB p pindex.nHeight
      else r).rewardMap[op]? = some cur → ∃ old, r.rewardMap[op]? = some old ∧
        cur.txout = old.txout ∧ cur.creationHeight = old.creationHeight ∧
        cur.active = old.active ∧ (cur.height = old.height ∨ cur.height = pindex.nHeight) := by
    intro cur hcur
    split at hcur
    · exact record_updateRewardsDB hcur
    · exact ⟨cur, hcur, rfl, rfl, rfl, .inl rfl⟩
  simp only [connectedRecord] at hrec
  split at hrec
  next hspent =>
    obtain ⟨cur, hcur, hgone⟩ := Option.bind_eq_some_iff.mp hrec
    unfold spentRecord at hgone
    split at hgone
    · cases hgone
    next hcreation =>
    cases hgone
    rcases Option.or_eq_some_iff.mp hcur with hnew | ⟨-, hold⟩
    · -- created and spent by this block: the record would be gone
      obtain ⟨out, -, -, rfl⟩ := newCandidate_eq_some hnew
      exact absurd rfl hcreation
    · obtain ⟨old, hval, htxout, hcr, -, hheight⟩ := hpaid cur hold
      exact .inr ⟨old, hval, htxout, hcr, hheight, by simp [hspent]⟩
  next hunspent =>
    rcases Option.or_eq_some_iff.mp hrec with hnew | ⟨-, hold⟩
    · obtain ⟨out, hmem, hmin, rfl⟩ := newCandidate_eq_some hnew
      exact .inl ⟨out, hmem, hunspent, hmin, rfl⟩
    · obtain ⟨old, hval, htxout, hcr, hact, hheight⟩ := hpaid val hold
      exact .inr ⟨old, hval, htxout, hcr, hheight, by simp [hunspent, hact]⟩

/-- The engine of an accepted block: validated, then committed. -/
theorem rewards_of_connected {pindex : CBlockIndex}
    (h : Connected env p block pindex s.view (some s.rewards) false false t (some r)
      (some s'.rewards) out) :
    s'.rewards = commitColdRewards env p block pindex out.nColdReward r :=
  Option.some.inj h.engine_eq

/-- The coins after an accepted block that overwrites none. -/
theorem coins_of_connected {g : CColdRewards}
    (hno : NoOverwrite s.view block.vtx (s.tip.nHeight + 1))
    (h : Connected env p block (s.tip.next block.hash) s.view (some s.rewards) false false t
      (some r)
      (some g) out) (op : COutPoint) :
    out.view.lookup op = if op ∈ block.spentOutpoints then none
      else (createdBy block.vtx (s.tip.nHeight + 1) op).or s.utxo.coins[op]? := by
  obtain ⟨v₂, hspec⟩ := connectTransactions_spec (blockShape_of_checkBlock h.checkBlock_ok)
    s.wf_view hno h.transactions
  rw [h.lookup_view, hspec.loop.lookup_eq]
  refine if_congr .rfl rfl ?_
  rw [← s.lookup_view]
  exact hspec.created op

/-- The inputs of an accepted block that overwrites no coin are among the coins or
its own outputs, and none comes twice. -/
theorem coin_of_spent {g₁ g' : Option CColdRewards}
    (hno : NoOverwrite s.view block.vtx (s.tip.nHeight + 1))
    (h : Connected env p block (s.tip.next block.hash) s.view (some s.rewards) false false t g₁ g'
      out) :
    block.spentOutpoints.Nodup ∧ ∀ op ∈ block.spentOutpoints,
      (createdBy block.vtx (s.tip.nHeight + 1) op).or s.utxo.coins[op]? ≠ none := by
  obtain ⟨v₂, hspec⟩ := connectTransactions_spec (blockShape_of_checkBlock h.checkBlock_ok)
    s.wf_view hno h.transactions
  refine ⟨hspec.loop.nodup, fun op hop hnone => ?_⟩
  have hlookup := (hspec.loop.spendable op hop).lookup
  have hcreated : v₂.lookup op = (createdBy block.vtx (s.tip.nHeight + 1) op).or
    (s.view.lookup op) := hspec.created op
  rw [hcreated, s.lookup_view, hnone] at hlookup
  cases hlookup

theorem settings_commitColdRewards (pindex : CBlockIndex) (nColdReward : Int) :
    (commitColdRewards env p block pindex nColdReward r).settings = r.settings := by
  refine (settings_updateWithBlock ..).trans ?_
  split
  · exact settings_updateRewardsDB ..
  · rfl

theorem settings_of_reachable {valid : ChainState → CBlock → Prop} (h : Reachable env p valid s) :
    s.rewards.settings = (p.nMinRewardBlocks, p.nMinReward) := by
  induction h with
  | genesis => rfl
  | accepted _ _ hstep ih =>
    obtain ⟨-, ⟨-, hsame, -⟩ | ⟨t, out, hconn, -⟩⟩ := connectTip_accepted hstep
    · rwa [hsame]
    · rw [rewards_of_connected hconn, settings_commitColdRewards, settings_validated, ih]
  | refused _ hstep ih =>
    obtain ⟨-, -, hsame | hval⟩ := connectTip_refused hstep
    · rwa [hsame]
    · rwa [hval, settings_validated]

/-! ### A chain with one candidate -/

/-- The block at a height, with a coinbase to a given script and further transactions. Hashes are
the heights. -/
def chainBlock (p : Params) (nHeight : Nat) (value : Int) (script : CScript)
    (txs : List CTransaction) : CBlock :=
  { hash := nHeight
    hashPrevBlock := if nHeight = 1 then p.hashGenesisBlock else nHeight - 1
    vtx := coinbaseTx nHeight [{ nValue := value, scriptPubKey := script }] :: txs }

/-- A chain in which two coinbases of five hundred coins mature for a hundred blocks and are then
spent to one output. -/
def thousandCoinChain (p : Params) (script : CScript) : List CBlock :=
  [chainBlock p 1 (500 * coin) [0x51] [], chainBlock p 2 (500 * coin) [0x51] []] ++
  (List.range 99).map (fun i => chainBlock p (i + 3) 0 [opReturn] []) ++
  [chainBlock p 102 0 [opReturn]
    [{ vin := [{ prevout := ⟨1, 0⟩ }, { prevout := ⟨2, 0⟩ }]
       vout := [{ nValue := 1000 * coin, scriptPubKey := script }]
       hash := 1000 }]]

/-- The state at the end of that chain. -/
def thousandCoinState (p : Params) (script : CScript) : ChainState :=
  (genesis p).connectAll Env.permissive p (thousandCoinChain p script)

end ChainState

end DeVault
