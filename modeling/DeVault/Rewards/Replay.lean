import DeVault.Rewards.Persistence
import DeVault.Validation.Chain

/-!
# Replaying blocks at start-up (`ReplayColdRewardRange`, `validation.cpp`)

The reward database is written now and then, so after a restart it may be behind
the chain. The engine is then brought up to the tip by running the hooks of the
missing blocks again, or of all blocks after `ClearForRebuild`.

The replay is a loop of its own beside `ConnectBlock`, and the engine it works on differs from the
one that went through the blocks: the index has been rebuilt and has no stale entries, and
`rewardKey` is that of a new engine. `SameRecords` relates two such engines. The replay of one block
treats them alike: the verdict and the reward are read off the records, and so is the prune, by
`Indexed`; `rewardKey` matters when a reward was paid, and `CheckReward` has then set it from the
records, because every match is older than `nMinBlocks`.
-/

namespace DeVault

open CColdRewards ChainState List Option

/-! ### The loop -/

/-- What the replay finds outside the engine. -/
structure ReplayEnv where
  shutdownRequested : Nat → Bool
  /-- The hash of `ChainActive()[h]`. -/
  chainActive : Nat → Option BlockHash
  readBlockFromDisk : BlockHash → Option CBlock

/-- The hooks of one block: the engine, and whether the reward was valid. -/
def replayBlock (p : Params) (maxreorgdepth : Int) (r : CColdRewards) (block : CBlock)
    (nHeight : Nat) (hash : BlockHash) : CColdRewards × Bool :=
  let (r, nColdReward, ok) :=
    if p.isSuperBlock nHeight then (r, 0, true) else r.quickValidate p block nHeight false
  if !ok then (r, false)
  else
    let r := if nColdReward > 0 then r.updateRewardsDB p nHeight else r
    ((r.updateWithBlock p maxreorgdepth block nHeight).setBestBlock hash, true)

/-- `ReplayColdRewardRange`, over the heights of the range. -/
def replayColdRewardRange (env : ReplayEnv) (p : Params) (maxreorgdepth : Int) :
    List Nat → CColdRewards → CColdRewards × Bool
  | [], r => (r, true)
  | h :: heights, r =>
    if env.shutdownRequested h then (r, false)
    else
      match env.chainActive h with
      | none => (r, false)
      | some hash =>
        match env.readBlockFromDisk hash with
        | none => (r, false)
        | some block =>
          match replayBlock p maxreorgdepth r block h hash with
          | (r, true) => replayColdRewardRange env p maxreorgdepth heights r
          | (r, false) => (r, false)

/-- The heights from `startHeight` to the tip. -/
def replayHeights (startHeight tip : Nat) : List Nat :=
  range' startHeight (tip + 1 - startHeight)

/-! ### Engines with the same records -/

variable {height : Nat}

namespace CColdRewards

variable {r r' : CColdRewards} {p : Params}

/-- **Two engines that no block tells apart**: the records and the settings are
the same, and both have a complete index. -/
structure SameRecords (r r' : CColdRewards) : Prop where
  rewardMap : r'.rewardMap = r.rewardMap
  settings : r'.settings = r.settings
  indexed : r.Indexed
  indexed' : r'.Indexed

theorem rewardMap_purged_congr (h : r'.rewardMap = r.rewardMap) (nHeight : Nat) :
    (r'.purged p nHeight).rewardMap = (r.purged p nHeight).rewardMap := by
  unfold purged
  split
  · apply Std.ExtTreeMap.ext_getElem?
    intro k
    rw [getElem?_clearLowRewards, getElem?_clearLowRewards, h]
  · exact h

/-- The verdict of `CheckReward` is read off the records. -/
theorem checkReward_congr (hmap : r'.rewardMap = r.rewardMap) (hmin : r'.nMinBlocks = r.nMinBlocks)
    (rewardPayment : CTxOut) :
    (r'.checkReward p height rewardPayment).2 = (r.checkReward p height rewardPayment).2 := by
  unfold checkReward
  rw [hmap, hmin]
  simp only
  split <;> rfl

/-- The first match already replaces the key from before. -/
theorem foldl_checkRewardStep_congr {vals : List (COutPoint × CRewardValue)}
    (hne : vals ≠ []) (hold : ∀ e ∈ vals, (0 : Int) < height - e.2.height) (key key' : COutPoint) :
    vals.foldl (checkRewardStep height) (0, key') =
      vals.foldl (checkRewardStep height) (0, key) := by
  cases vals with
  | nil => exact absurd rfl hne
  | cons e vals =>
    have hpos := hold e mem_cons_self
    rw [foldl_cons, foldl_cons]
    simp only [checkRewardStep, if_pos hpos]

/-- A payment that passes sets `rewardKey` from the records. -/
theorem rewardKey_checkReward_congr (hmap : r'.rewardMap = r.rewardMap)
    (hmin : r'.nMinBlocks = r.nMinBlocks) (hpos : 0 ≤ r.nMinBlocks)
    {rewardPayment : CTxOut} (hok : (r.checkReward p height rewardPayment).2 = true) :
    (r'.checkReward p height rewardPayment).1.rewardKey =
      (r.checkReward p height rewardPayment).1.rewardKey := by
  unfold checkReward at hok ⊢
  rw [hmap, hmin]
  simp only at hok ⊢
  split at hok
  · cases hok
  next hne =>
  rw [if_neg hne, if_neg hne]
  refine congrArg Prod.snd (foldl_checkRewardStep_congr (mt List.isEmpty_iff.mpr hne) ?_ _ _)
  intro e he
  have hmatch := (mem_filter.mp he).2
  obtain ⟨-, hage, -, -⟩ := matchesPayment_iff.mp hmatch
  omega

/-- Validation reads off the records whether a block passes and what it pays,
and sets `rewardKey` when it pays something. -/
theorem quickValidate_congr (h : r.SameRecords r') (hpos : 0 ≤ r.nMinBlocks) (block : CBlock)
    (nHeight : Nat) :
    (r'.quickValidate p block nHeight false).2 = (r.quickValidate p block nHeight false).2 ∧
      (r'.quickValidate p block nHeight false).1.rewardMap =
        (r.quickValidate p block nHeight false).1.rewardMap ∧
      ((r.quickValidate p block nHeight false).2.2 = true →
        (r.quickValidate p block nHeight false).2.1 > 0 →
        (r'.quickValidate p block nHeight false).1.rewardKey =
          (r.quickValidate p block nHeight false).1.rewardKey) := by
  have hmap := rewardMap_purged_congr (p := p) h.rewardMap nHeight
  have hset : ∀ q : CColdRewards, (q.purged p nHeight).nMinBlocks = q.nMinBlocks :=
    fun q => congrArg Prod.fst (settings_purged p nHeight)
  have hmin : (r'.purged p nHeight).nMinBlocks = (r.purged p nHeight).nMinBlocks := by
    rw [hset, hset]
    exact congrArg Prod.fst h.settings
  refine ⟨?_, ?_, ?_⟩
  · rw [quickValidate_eq, quickValidate_eq]
    split
    next out _ =>
      simp only [checkReward_congr hmap hmin]
    · rfl
  · rw [rewardMap_quickValidate, rewardMap_quickValidate, hmap]
  · rw [quickValidate_eq, quickValidate_eq]
    split
    · intro hok _
      exact rewardKey_checkReward_congr hmap hmin (by rw [hset]; exact hpos) hok
    · intro _ hpaid
      cases hpaid

theorem rewardMap_updateRewardsDB_congr (hmap : r'.rewardMap = r.rewardMap)
    (hkey : r'.rewardKey = r.rewardKey) (nNewHeight : Nat) :
    (r'.updateRewardsDB p nNewHeight).rewardMap = (r.updateRewardsDB p nNewHeight).rewardMap := by
  apply Std.ExtTreeMap.ext_getElem?
  intro k
  rw [getElem?_updateRewardsDB, getElem?_updateRewardsDB, hmap, hkey]

/-- `UpdateWithBlock` and the change of the best block keep the relation. -/
theorem SameRecords.updateWithBlock (h : r.SameRecords r') (maxreorgdepth : Int) (block : CBlock)
    (nHeight : Nat) (hash : BlockHash) :
    ((r.updateWithBlock p maxreorgdepth block nHeight).setBestBlock hash).SameRecords
      ((r'.updateWithBlock p maxreorgdepth block nHeight).setBestBlock hash) where
  rewardMap := by
    apply Std.ExtTreeMap.ext_getElem?
    intro k
    rw [rewardMap_setBestBlock, rewardMap_setBestBlock, h.indexed.getElem?_updateWithBlock,
      h.indexed'.getElem?_updateWithBlock, h.rewardMap]
  settings := by
    show (r'.updateWithBlock p maxreorgdepth block nHeight).settings =
      (r.updateWithBlock p maxreorgdepth block nHeight).settings
    rw [settings_updateWithBlock, settings_updateWithBlock, h.settings]
  indexed := (h.indexed.updateWithBlock p maxreorgdepth block nHeight).of_eq rfl rfl
  indexed' := (h.indexed'.updateWithBlock p maxreorgdepth block nHeight).of_eq rfl rfl

theorem replayBlock_congr (h : r.SameRecords r') (hpos : 0 ≤ r.nMinBlocks) (maxreorgdepth : Int)
    (block : CBlock) (nHeight : Nat) (hash : BlockHash)
    (hok : (replayBlock p maxreorgdepth r block nHeight hash).2 = true) :
    (replayBlock p maxreorgdepth r' block nHeight hash).2 = true ∧
      (replayBlock p maxreorgdepth r block nHeight hash).1.SameRecords
        (replayBlock p maxreorgdepth r' block nHeight hash).1 := by
  unfold replayBlock at hok ⊢
  cases hsuper : p.isSuperBlock nHeight with
  | true =>
    -- a superblock pays no reward and is not validated
    exact ⟨rfl, h.updateWithBlock maxreorgdepth block nHeight hash⟩
  | false =>
  obtain ⟨hverdict, hmap, hkey⟩ := quickValidate_congr (p := p) h hpos block nHeight
  have hindexed := (Indexed.closed 0).quickValidate h.indexed p block nHeight false
  have hindexed' := (Indexed.closed 0).quickValidate h.indexed' p block nHeight false
  have hsettings : ∀ q : CColdRewards,
      (q.quickValidate p block nHeight false).1.settings = q.settings :=
    fun _ => (closed_settings 0 _).quickValidate rfl ..
  have hset := (hsettings r').trans (h.settings.trans (hsettings r).symm)
  simp only [hsuper, Bool.false_eq_true, if_false] at hok ⊢
  generalize r.quickValidate p block nHeight false = v at *
  generalize r'.quickValidate p block nHeight false = v' at *
  obtain ⟨r₁, reward, ok⟩ := v
  obtain ⟨r₁', reward', ok'⟩ := v'
  obtain ⟨rfl, rfl⟩ := Prod.mk.inj hverdict
  cases ok' with
  | false => cases hok
  | true =>
    simp only [Bool.not_true, Bool.false_eq_true, if_false]
    refine ⟨trivial, SameRecords.updateWithBlock ?_ maxreorgdepth block nHeight hash⟩
    split
    next hpaid =>
      exact ⟨rewardMap_updateRewardsDB_congr hmap (hkey rfl hpaid) nHeight,
        by rw [settings_updateRewardsDB, settings_updateRewardsDB]; exact hset,
        (Indexed.closed nHeight).updateRewardsDB hindexed p,
        (Indexed.closed nHeight).updateRewardsDB hindexed' p⟩
    · exact ⟨hmap, hset, hindexed, hindexed'⟩

/-- A property that the operations keep is kept by the replay of a block. -/
theorem Closed.replayBlock {P : CColdRewards → Prop} {r : CColdRewards} {block : CBlock}
    {nHeight : Nat} (hP : Closed nHeight P) (maxreorgdepth : Int) (h : P r) (hash : BlockHash)
    (hupdate : ∀ {r : CColdRewards}, P r →
      P ((r.updateWithBlock p maxreorgdepth block nHeight).setBestBlock hash)) :
    P (replayBlock p maxreorgdepth r block nHeight hash).1 := by
  have hfst : P (if p.isSuperBlock nHeight then (r, 0, true)
      else r.quickValidate p block nHeight false).1 := by
    split
    · exact h
    · exact hP.quickValidate h ..
  unfold DeVault.replayBlock
  generalize (if p.isSuperBlock nHeight then (r, 0, true)
    else r.quickValidate p block nHeight false) = v at hfst
  obtain ⟨r₁, reward, ok⟩ := v
  simp only
  split
  · exact hfst
  · refine hupdate ?_
    split
    · exact hP.updateRewardsDB hfst p
    · exact hfst

end CColdRewards

/-! ### The live path -/

namespace ChainState

variable {env : Env} {p : Params} {s s' : ChainState} {block : CBlock}

/-- **An accepted block runs the hooks of the replay** on the live engine. -/
theorem replayBlock_of_accepted (h : s.connectTip env p block = (s', none))
    (hgen : block.hash ≠ p.hashGenesisBlock) :
    replayBlock p env.maxreorgdepth s.rewards block (s.tip.nHeight + 1) block.hash =
      (s'.rewards, true) := by
  obtain ⟨-, ⟨hgen', -⟩ | ⟨t, out, hconn, -⟩⟩ := connectTip_accepted h
  · exact absurd hgen' hgen
  -- the verdict of the live path, read as that of the replay
  have hverdict : (if p.isSuperBlock (s.tip.nHeight + 1) then (s.rewards, 0, true)
      else s.rewards.quickValidate p block (s.tip.nHeight + 1) false) =
      (s.rewards.validated p block (s.tip.nHeight + 1), out.nColdReward, true) := by
    have hcold : coldRewardOf p block (s.tip.nHeight + 1) (some s.rewards) false false =
      (some (s.rewards.validated p block (s.tip.nHeight + 1)), out.nColdReward, true) := hconn.cold
    unfold coldRewardOf at hcold
    split at hcold
    next hsuper =>
      rw [if_pos hsuper]
      obtain ⟨hr, hrest⟩ := Prod.mk.inj hcold
      rw [← hrest, ← Option.some.inj hr]
    next hsuper =>
      rw [if_neg hsuper]
      obtain ⟨hr, hrest⟩ := Prod.mk.inj hcold
      rw [← Option.some.inj hr, ← hrest]
      rfl
  rw [replayBlock, hverdict, rewards_of_connected hconn]
  rfl

end ChainState

/-! ### A node with its reward database -/

/-- The chain and the reward database of a running node. -/
structure LiveNode where
  chain : ChainState
  db : CRewardsViewDB

/-- What the node does to its engine: it connects a block, or `FlushStateToDisk`
writes the engine with the hash of the tip. -/
inductive LiveStep where
  | connect (block : CBlock)
  | flush (writeOk : Bool)

/-- The blocks of a run. -/
def blocksOf (steps : List LiveStep) : List CBlock :=
  steps.filterMap fun
    | .connect block => some block
    | .flush _ => none

variable {r : CColdRewards} {renv : ReplayEnv} {blocks : List CBlock}

namespace LiveNode

variable {env : Env} {p : Params} {s t : LiveNode} {steps : List LiveStep}

/-- A node with the genesis block and an empty database. -/
def genesis (p : Params) : LiveNode := { chain := ChainState.genesis p, db := {} }

/-- One step; a block has to be accepted. -/
def step (env : Env) (p : Params) (s : LiveNode) : LiveStep → Option LiveNode
  | .connect block =>
    match s.chain.connectTip env p block with
    | (chain, none) => some { s with chain := chain }
    | (_, some _) => none
  | .flush writeOk =>
    let flushed := (s.chain.rewards.flush s.db s.chain.tip.hash writeOk).1
    some { chain := { s.chain with rewards := flushed.1 }, db := flushed.2 }

/-- A run, none of whose blocks is refused. -/
def run (env : Env) (p : Params) (s : LiveNode) (steps : List LiveStep) : Option LiveNode :=
  steps.foldlM (step env p) s

/-- The node serves the replay: from a height on, the active chain is the given blocks, they can be
read, and nobody asks for a shutdown. -/
def Serves (renv : ReplayEnv) (height : Nat) (blocks : List CBlock) : Prop :=
  ∀ (i : Nat) (block : CBlock), blocks[i]? = some block →
    renv.shutdownRequested (height + i) = false ∧
    renv.chainActive (height + i) = some block.hash ∧
    renv.readBlockFromDisk block.hash = some block

theorem Serves.tail {renv : ReplayEnv} {height : Nat} {block : CBlock} {blocks : List CBlock}
    (h : Serves renv height (block :: blocks)) : Serves renv (height + 1) blocks := by
  intro i block' hi
  have hnext := h (i + 1) block' hi
  rwa [show height + (i + 1) = height + 1 + i by omega] at hnext

theorem flush_rewards (db : CRewardsViewDB) (hash : BlockHash) (writeOk : Bool) :
    (r.flush db hash writeOk).1.1.rewardMap = r.rewardMap ∧
      (r.flush db hash writeOk).1.1.inactiveByHeight = r.inactiveByHeight ∧
      (r.flush db hash writeOk).1.1.settings = r.settings := by
  unfold flush
  split <;> exact ⟨rfl, rfl, rfl⟩

theorem settings_replayBlock (maxreorgdepth : Int) (r : CColdRewards) (block : CBlock)
    (nHeight : Nat) (hash : BlockHash) :
    (replayBlock p maxreorgdepth r block nHeight hash).1.settings = r.settings :=
  (closed_settings nHeight _).replayBlock maxreorgdepth rfl hash
    fun h => (settings_updateWithBlock ..).trans h

/-- **The replay follows the live engine**, block by block. -/
theorem replay_follows {renv : ReplayEnv} (hmin : 0 ≤ p.nMinRewardBlocks)
    (hrun : s.run env p steps = some t)
    (hset : s.chain.rewards.settings = (p.nMinRewardBlocks, p.nMinReward))
    (hgen : ∀ block ∈ blocksOf steps, block.hash ≠ p.hashGenesisBlock)
    (hserves : Serves renv (s.chain.tip.nHeight + 1) (blocksOf steps))
    {r : CColdRewards} (hsame : s.chain.rewards.SameRecords r) :
    t.chain.tip.nHeight = s.chain.tip.nHeight + (blocksOf steps).length ∧
      t.chain.rewards.settings = (p.nMinRewardBlocks, p.nMinReward) ∧
      ∃ r', replayColdRewardRange renv p env.maxreorgdepth
          (range' (s.chain.tip.nHeight + 1) (blocksOf steps).length) r = (r', true) ∧
        t.chain.rewards.SameRecords r' := by
  induction steps generalizing s r with
  | nil =>
    cases hrun
    exact ⟨rfl, hset, r, rfl, hsame⟩
  | cons a steps ih =>
    obtain ⟨s₁, hstep, hrest⟩ := bind_eq_some_iff.mp hrun
    cases a with
    | flush writeOk =>
      -- a flush leaves the records and the index
      cases hstep
      obtain ⟨hmap, hindex, hsettings⟩ :=
        flush_rewards s.db s.chain.tip.hash writeOk
      exact ih hrest (hsettings.trans hset) hgen hserves
        ⟨hsame.rewardMap.trans hmap.symm, hsame.settings.trans hsettings.symm,
          hsame.indexed.of_eq hmap hindex, hsame.indexed'⟩
    | connect block =>
      obtain ⟨hhash, hgen⟩ := forall_mem_cons.mp hgen
      simp only [step] at hstep
      split at hstep
      next chain hacc =>
        cases hstep
        have hlive := replayBlock_of_accepted hacc hhash
        have htip : chain.tip = s.chain.tip.next block.hash :=
          (connectTip_accepted hacc).1
        have hheight : chain.tip.nHeight = s.chain.tip.nHeight + 1 := by rw [htip]; rfl
        have hpos : 0 ≤ s.chain.rewards.nMinBlocks := by
          rw [show s.chain.rewards.nMinBlocks = p.nMinRewardBlocks from congrArg Prod.fst hset]
          exact hmin
        obtain ⟨hok, hsame₁⟩ := replayBlock_congr hsame hpos env.maxreorgdepth block
          (s.chain.tip.nHeight + 1) block.hash (by rw [hlive])
        rw [hlive] at hsame₁
        have hset₁ : chain.rewards.settings = (p.nMinRewardBlocks, p.nMinReward) := by
          have hkeep := settings_replayBlock (p := p) env.maxreorgdepth s.chain.rewards block
            (s.chain.tip.nHeight + 1) block.hash
          rw [hlive] at hkeep
          exact hkeep.trans hset
        obtain ⟨hshut, hactive, hread⟩ := hserves 0 block rfl
        obtain ⟨hlen, hset', r', hreplay, hend⟩ := ih hrest hset₁ hgen
          (by rw [hheight]; exact hserves.tail) hsame₁
        refine ⟨?_, hset', r', ?_, hend⟩
        · rw [hlen, hheight]
          show _ = s.chain.tip.nHeight + ((blocksOf steps).length + 1)
          omega
        · show replayColdRewardRange renv p env.maxreorgdepth
            (range' (s.chain.tip.nHeight + 1) ((blocksOf steps).length + 1)) r = (r', true)
          rw [range'_succ, replayColdRewardRange]
          rw [Nat.add_zero] at hshut hactive
          have hstep' : replayBlock p env.maxreorgdepth r block (s.chain.tip.nHeight + 1)
              block.hash =
              ((replayBlock p env.maxreorgdepth r block (s.chain.tip.nHeight + 1) block.hash).1,
                true) := Prod.ext rfl hok
          rw [hheight] at hreplay
          simp only [hshut, hactive, hread, Bool.false_eq_true, if_false]
          rw [hstep']
          exact hreplay
      · cases hstep

/-! ### The database along a run -/

/-- An output of an accepted block is stored with its value rounded, which stays
within the range of money. -/
theorem representable_quantized {out : CTxOut} (h : out.Representable)
    (hmoney : moneyRange out.nValue = true) : out.quantized.Representable where
  value := by
    obtain ⟨hlo, hhi⟩ := moneyRange_iff.mp (moneyRange_spockQuantize hmoney)
    have hmax : maxMoney < 2 ^ 62 := by decide
    show -((256 ^ 8 : Nat) : Int) ≤ 2 * spockQuantize out.nValue ∧
      2 * spockQuantize out.nValue < ((256 ^ 8 : Nat) : Int)
    norm_num
    omega
  script := h.script

theorem sound_replayBlock {db : CRewardsViewDB} (h : r.Sound db)
    (maxreorgdepth : Int) {block : CBlock} {nHeight : Nat} (hheight : nHeight < 2 ^ 32)
    (hout : ∀ o ∈ block.createdOutputs, o.2.quantized.Representable) (hash : BlockHash) :
    (replayBlock p maxreorgdepth r block nHeight hash).1.Sound db :=
  (Sound.closed hheight).replayBlock maxreorgdepth h hash
    fun hr => (hr.updateWithBlock maxreorgdepth hheight hout).of_eq rfl rfl rfl

/-- The store stays sound along a run of the live node. -/
theorem sound_run (hrun : s.run env p steps = some t) (h : s.chain.rewards.Sound s.db)
    (hgen : ∀ block ∈ blocksOf steps, block.hash ≠ p.hashGenesisBlock)
    (hout : ∀ block ∈ blocksOf steps, ∀ o ∈ block.createdOutputs, o.2.Representable)
    (hheight : s.chain.tip.nHeight + (blocksOf steps).length < 2 ^ 32) :
    t.chain.rewards.Sound t.db := by
  induction steps generalizing s with
  | nil =>
    cases hrun
    exact h
  | cons a steps ih =>
    obtain ⟨s₁, hstep, hrest⟩ := bind_eq_some_iff.mp hrun
    cases a with
    | flush writeOk =>
      cases hstep
      refine ih hrest ?_ hgen hout hheight
      have hstore : ((RewardStore.mk s.chain.rewards s.db).step p env.maxreorgdepth
          (.flush s.chain.tip.hash writeOk)).engine.Sound _ := RewardStore.sound_step h trivial
      exact hstore
    | connect block =>
      obtain ⟨hhash, hgen⟩ := forall_mem_cons.mp hgen
      obtain ⟨hblock, hout⟩ := forall_mem_cons.mp hout
      simp only [step] at hstep
      split at hstep
      next chain hacc =>
        cases hstep
        -- the live step does to the engine what the replay does
        have hlive := replayBlock_of_accepted hacc hhash
        obtain ⟨htip, ⟨hgen', -⟩ | ⟨t', out, hconn, -⟩⟩ := connectTip_accepted hacc
        · exact absurd hgen' hhash
        have hmoney := (blockShape_of_checkBlock hconn.checkBlock_ok).moneyRange
        have hlen : s.chain.tip.nHeight + ((blocksOf steps).length + 1) < 2 ^ 32 := hheight
        have hquantized : ∀ o ∈ block.createdOutputs, o.2.quantized.Representable := by
          intro o ho
          obtain ⟨tx, htx, -, hvout, -⟩ := CBlock.mem_createdOutputs_iff.mp ho
          exact representable_quantized (hblock o ho)
            (hmoney tx htx o.2 (fst_mem_of_mem_zipIdx hvout))
        have hnext : s.chain.tip.nHeight + 1 < 2 ^ 32 := by omega
        have hsound := sound_replayBlock (p := p) h env.maxreorgdepth hnext hquantized block.hash
        rw [hlive] at hsound
        refine ih hrest hsound hgen hout ?_
        show chain.tip.nHeight + _ < _
        rw [htip]
        show s.chain.tip.nHeight + 1 + _ < _
        omega
      · cases hstep

/-! ### Restarting -/

theorem blocksOf_append (steps steps' : List LiveStep) :
    blocksOf (steps ++ steps') = blocksOf steps ++ blocksOf steps' := filterMap_append

theorem sound_genesis : (genesis p).chain.rewards.Sound (genesis p).db where
  staged := WriteBack.staged_of_stored fun k => by
    show Option.map readRecord (∅ : Std.ExtTreeMap COutPoint (List UInt8))[k]? =
      Option.map some (∅ : Std.ExtTreeMap COutPoint CRewardValue)[k]?
    rw [Std.ExtTreeMap.getElem?_empty, Std.ExtTreeMap.getElem?_empty]
    rfl
  storable := fun op val hval => absurd hval (by simp [genesis, ChainState.genesis, init])
  readable := fun op bs hbs => absurd hbs (by simp [genesis])

theorem indexed_of_empty (hmap : r.rewardMap = ∅)
    (hindex : r.inactiveByHeight = []) : r.Indexed where
  sorted := by
    rw [hindex]
    exact List.Pairwise.nil
  complete := by
    intro op val hval
    rw [hmap] at hval
    cases hval

theorem sameRecords_load {fresh : CColdRewards} {db : CRewardsViewDB} (hindexed : r.Indexed)
    (hset : fresh.settings = r.settings)
    (hstored : ∀ k, WriteBack.stored readRecord db.records k = r.rewardMap[k]?.map some) :
    r.SameRecords (fresh.load db).1 := by
  have hread := CRewardsViewDB.readable_of_stored hstored
  have hload := (reloads_iff fresh hstored).mpr rfl
  refine ⟨hload.rewardMap, ?_, hindexed, indexed_load fresh hread⟩
  rw [load_of_readable fresh hread]
  exact hset

theorem Serves.drop {blocks' : List CBlock}
    (h : Serves renv height (blocks ++ blocks')) :
    Serves renv (height + blocks.length) blocks' := by
  intro i block hi
  have hnext := h (blocks.length + i) block (by
    rw [getElem?_append_right (by omega)]
    simpa using hi)
  rwa [← Nat.add_assoc] at hnext

theorem Serves.take {blocks' : List CBlock}
    (h : Serves renv height (blocks ++ blocks')) : Serves renv height blocks := by
  intro i block hi
  refine h i block ?_
  rw [getElem?_append_left (List.getElem?_eq_some_iff.mp hi).1]
  exact hi

theorem run_append (steps steps' : List LiveStep) :
    s.run env p (steps ++ steps') = (s.run env p steps).bind fun s' => s'.run env p steps' :=
  foldlM_append

theorem stored_of_flushed (h : s.chain.rewards.Sound s.db)
    (hflush : s.run env p [.flush true] = some t) (k : COutPoint) :
    WriteBack.stored readRecord t.db.records k = t.chain.rewards.rewardMap[k]?.map some := by
  obtain ⟨db', hok, -, hstored⟩ := h.flush_ok s.chain.tip.hash
  have hstep : step env p s (.flush true) = some t := by
    rw [run, foldlM_cons] at hflush
    obtain ⟨t', hstep, hend⟩ := bind_eq_some_iff.mp hflush
    rwa [Option.some.inj hend] at hstep
  simp only [step, hok, Option.some.injEq] at hstep
  rw [← hstep]
  exact hstored k

/-- **A restart gives back the live records.** A node connects blocks on the genesis block and
flushes whenever it likes, with success after some of them. A new engine on the database of that
flush, replayed from the next height, and any engine that is cleared and replayed from height one,
pass every block and end with the live records. -/
theorem replay_rewardMap (hp : p.IsDeVault) (renv : ReplayEnv) {before after : List LiveStep}
    {a : LiveNode} (hbefore : (genesis p).run env p (before ++ [.flush true]) = some a)
    (hafter : a.run env p after = some t)
    (hgen : ∀ block ∈ blocksOf (before ++ after), block.hash ≠ p.hashGenesisBlock)
    (hout : ∀ block ∈ blocksOf (before ++ after), ∀ o ∈ block.createdOutputs, o.2.Representable)
    (hheight : (blocksOf (before ++ after)).length < 2 ^ 32)
    (hserves : Serves renv 1 (blocksOf (before ++ after))) :
    (∃ r, replayColdRewardRange renv p env.maxreorgdepth
        (replayHeights (a.chain.tip.nHeight + 1) t.chain.tip.nHeight)
        ((init p).load a.db).1 = (r, true) ∧
      r.rewardMap = t.chain.rewards.rewardMap) ∧
    ∀ old : CColdRewards, old.settings = (p.nMinRewardBlocks, p.nMinReward) →
      ∃ r, replayColdRewardRange renv p env.maxreorgdepth (replayHeights 1 t.chain.tip.nHeight)
          old.clearForRebuild = (r, true) ∧
        r.rewardMap = t.chain.rewards.rewardMap := by
  have hmin : 0 ≤ p.nMinRewardBlocks := by
    rcases hp with rfl | rfl | rfl <;> decide
  have hempty : (genesis p).chain.rewards.Indexed := indexed_of_empty rfl rfl
  have hflushed : blocksOf (before ++ [.flush true]) = blocksOf before := by
    rw [blocksOf_append]
    exact append_nil _
  rw [blocksOf_append] at hgen hout hheight hserves
  rw [length_append] at hheight
  constructor
  · -- the flush stores the records, and the replay goes on from there
    obtain ⟨b, hrun, hflush⟩ := bind_eq_some_iff.mp ((run_append ..).symm.trans hbefore)
    have hsound : b.chain.rewards.Sound b.db := by
      refine sound_run hrun sound_genesis
        (fun block hb => hgen block (mem_append_left _ hb))
        (fun block hb => hout block (mem_append_left _ hb)) ?_
      show 0 + (blocksOf before).length < 2 ^ 32
      omega
    obtain ⟨htip, hset, _, _, hlive⟩ := replay_follows hmin hbefore rfl
      (by rw [hflushed]; exact fun block hb => hgen block (mem_append_left _ hb))
      (by rw [hflushed]; exact hserves.take) ⟨rfl, rfl, hempty, hempty⟩
    have htip : a.chain.tip.nHeight = 0 + (blocksOf before).length := by
      rw [hflushed] at htip
      exact htip
    have hload : a.chain.rewards.SameRecords ((init p).load a.db).1 :=
      sameRecords_load hlive.indexed hset.symm (stored_of_flushed hsound hflush)
    have hnext : Serves renv (a.chain.tip.nHeight + 1) (blocksOf after) := by
      rw [htip, Nat.zero_add, Nat.add_comm]
      exact hserves.drop
    obtain ⟨hend, -, r, hreplay, hsame⟩ := replay_follows hmin hafter hset
      (fun block hb => hgen block (mem_append_right _ hb)) hnext hload
    refine ⟨r, ?_, hsame.rewardMap⟩
    rw [replayHeights, show t.chain.tip.nHeight + 1 - (a.chain.tip.nHeight + 1) =
      (blocksOf after).length by omega]
    exact hreplay
  · -- the rebuild goes over the whole run
    intro old hold
    have hall : (genesis p).run env p (before ++ [.flush true] ++ after) = some t := by
      rw [run_append, hbefore]
      exact hafter
    have hblocks : blocksOf (before ++ [.flush true] ++ after) =
        blocksOf before ++ blocksOf after := by
      rw [blocksOf_append, hflushed]
    have hcleared : (genesis p).chain.rewards.SameRecords old.clearForRebuild :=
      ⟨rfl, hold, hempty, indexed_of_empty rfl rfl⟩
    obtain ⟨hend, -, r, hreplay, hsame⟩ := replay_follows hmin hall rfl
      (by rw [hblocks]; exact hgen) (by rw [hblocks]; exact hserves) hcleared
    refine ⟨r, ?_, hsame.rewardMap⟩
    have hend : t.chain.tip.nHeight =
        0 + (blocksOf (before ++ [.flush true] ++ after)).length := hend
    rw [replayHeights, hend, Nat.zero_add, Nat.add_sub_cancel]
    exact hreplay

/-! ### A restart in the middle of a chain -/

/-- The chain with one candidate, with a flush after fifty blocks. -/
def thousandCoinBefore : List LiveStep :=
  ((thousandCoinChain regTestParams [0x51]).take 50).map .connect

/-- The rest of that chain. -/
def thousandCoinAfter : List LiveStep :=
  ((thousandCoinChain regTestParams [0x51]).drop 50).map .connect

/-- A disk that has the blocks of that chain, whose hashes are their heights. -/
def thousandCoinDisk : ReplayEnv where
  shutdownRequested := fun _ => false
  chainActive := fun h => some h
  readBlockFromDisk := fun hash => (thousandCoinChain regTestParams [0x51])[hash - 1]?

theorem blocksOf_thousandCoin :
    blocksOf (thousandCoinBefore ++ thousandCoinAfter) =
      thousandCoinChain regTestParams [0x51] := by
  decide +kernel

/-- The hypotheses hold for this chain, and the candidate is there in the end. -/
theorem replay_thousandCoin :
    ∃ a t, (genesis regTestParams).run Env.permissive regTestParams
        (thousandCoinBefore ++ [.flush true]) = some a ∧
      a.run Env.permissive regTestParams thousandCoinAfter = some t ∧
      t.chain.rewards.rewardMap.size = 1 ∧
      ∃ r, replayColdRewardRange thousandCoinDisk regTestParams 10
          (replayHeights (a.chain.tip.nHeight + 1) t.chain.tip.nHeight)
          ((init regTestParams).load a.db).1 = (r, true) ∧
        r.rewardMap = t.chain.rewards.rewardMap := by
  -- the whole run is evaluated once, and cut at the flush
  have hsize : ((genesis regTestParams).run Env.permissive regTestParams
      (thousandCoinBefore ++ [.flush true] ++ thousandCoinAfter)).map
        (·.chain.rewards.rewardMap.size) = some 1 := by
    decide +kernel
  obtain ⟨t, hall, hone⟩ := map_eq_some_iff.mp hsize
  rw [run_append] at hall
  obtain ⟨a, hbefore, hafter⟩ := bind_eq_some_iff.mp hall
  refine ⟨a, t, hbefore, hafter, hone, ?_⟩
  refine (replay_rewardMap (Or.inr (Or.inr rfl)) thousandCoinDisk hbefore hafter ?_ ?_ ?_ ?_).1
  · rw [blocksOf_thousandCoin]
    decide +kernel
  · rw [blocksOf_thousandCoin]
    intro block hblock o ho
    have hone : ∀ block ∈ ChainState.thousandCoinChain regTestParams [0x51],
        ∀ o ∈ block.createdOutputs,
          o.2 = { nValue := 1000 * coin, scriptPubKey := [0x51] } := by decide +kernel
    rw [hone block hblock o ho]
    exact ⟨⟨by decide, by decide⟩, [0x51], by decide, by decide⟩
  · rw [blocksOf_thousandCoin]
    decide +kernel
  · rw [blocksOf_thousandCoin]
    intro i block hi
    have hhash : ∀ i : Fin 102, ((ChainState.thousandCoinChain regTestParams [0x51])[i.val]?).map
        (·.hash) = some (1 + i.val) := by decide +kernel
    have hlt : i < 102 := (List.getElem?_eq_some_iff.mp hi).1
    have hat := hhash ⟨i, hlt⟩
    simp only [hi, map_some, Option.some.injEq] at hat
    refine ⟨rfl, congrArg some hat.symm, ?_⟩
    show (ChainState.thousandCoinChain regTestParams [0x51])[block.hash - 1]? = some block
    rw [hat, Nat.add_sub_cancel_left]
    exact hi

end LiveNode

end DeVault
