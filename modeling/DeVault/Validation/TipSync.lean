import DeVault.Validation.Tip

/-!
# The engine and the coins name the same best block

The cold-reward engine is written to disk under the best block of `pcoinsTip`.
That is right as long as the two are at the same block, `TipState.Synced`. A
successful call keeps them together, and so does a block that `ConnectBlock`
refuses. They come apart at the two early returns that drop a view after the
engine has moved: a block that is accepted while its finalization is refused leaves the engine one
block ahead of the coins, and a disconnection that is not clean leaves it one block behind.
`TipCall.InStep` excludes exactly these two.

The invariant behind it is `TipState.Settled`: either the coins have a `History`,
or a failed write has left the tip behind the coins, after which no block is
accepted and none can be taken back.
-/

namespace DeVault

open CColdRewards ChainState

theorem CColdRewards.hashBestBlock_validated (r : CColdRewards) (p : Params) (block : CBlock)
    (nHeight : Nat) : (r.validated p block nHeight).hashBestBlock = r.hashBestBlock := by
  have hpurged : (r.purged p nHeight).hashBestBlock = r.hashBestBlock := by
    unfold purged
    split
    · exact List.foldlRecOn (motive := fun r' : CColdRewards => r'.hashBestBlock = r.hashBestBlock)
        _ _ rfl fun r' h _ _ => h
    · rfl
  have hcheck : ∀ (r : CColdRewards) (out : CTxOut),
      (r.checkReward p nHeight out).1.hashBestBlock = r.hashBestBlock := by
    intro r out
    unfold checkReward
    simp only
    split <;> rfl
  unfold validated
  split
  · rfl
  · rw [quickValidate_eq]
    split
    · exact (hcheck _ _).trans hpurged
    · exact hpurged

/-- The engine and the coins are at the same block. -/
def TipState.Synced (s : TipState) : Prop :=
  s.chain.rewards.hashBestBlock = s.chain.utxo.hashBestBlock

/-- `FinalizeBlockInternal` would fail: the block picked is marked invalid, or on another fork than
the finalized block. -/
def TipState.FinalizationRefused (env : Env) (fin : FinalizationEnv) (s : TipState)
    (block : CBlock) : Prop :=
  ∃ pindex, findBlockToFinalize env.maxreorgdepth fin s.finalized (s.chain.tip.next block.hash) =
      some pindex ∧
    (fin.isInvalid pindex.hash = true ∨
      ∃ f, s.finalized = some f ∧ pindex.areOnTheSameFork f = false)

namespace TipCall

/-- A block is offered on top of the tip, with proper hashes and outputs that are
not yet among the coins. -/
def OffersNew (p : Params) (s : TipState) : TipCall → Prop
  | .connect block _ _ => block.WellHashed p ∧ block.hashPrevBlock = s.chain.tip.hash ∧
      NoOverwrite s.chain.view block.vtx (s.chain.tip.nHeight + 1)
  | .disconnect _ => True

/-- **The calls that keep the engine with the coins.** No block that is valid on the tip has its
finalization refused, and a block that is taken back has outputs of whole spocks only. -/
def InStep (env : Env) (p : Params) (s : TipState) : TipCall → Prop
  | .connect block fin io => io.readBlock = true → (s.chain.connectTip env p block).2 = none →
      ¬s.FinalizationRefused env fin block
  | .disconnect io => io.readBlock = true → io.readUndo = true →
      s.chain.utxo.hashBestBlock = s.chain.tip.hash →
      ∀ top ∈ s.connected.head?, OutputsAligned top.block.vtx

/-- After the call, the engine and the coins are at the same block. -/
def SyncedAfter (env : Env) (p : Params) (s : TipState) (call : TipCall) : Prop :=
  ∀ s', s.next env p call = some s' → s'.Synced

instance (s : TipState) : Decidable s.Synced := inferInstanceAs (Decidable (_ = _))

instance (env : Env) (p : Params) (s : TipState) (call : TipCall) :
    Decidable (call.SyncedAfter env p s) :=
  inferInstanceAs (Decidable (∀ s' ∈ s.next env p call, s'.Synced))

end TipCall

namespace TipState

variable {env : Env} {p : Params} {fin : FinalizationEnv} {io : TipIO} {s s' : TipState}
  {block : CBlock} {call : TipCall} {ok : Bool}

/-- The coins have a history, or are stuck ahead of the tip. -/
def Settled (env : Env) (p : Params) (s : TipState) : Prop :=
  History env p s.chain.utxo s.chain.tip s.connected ∨
    s.chain.utxo.hashBestBlock ≠ s.chain.tip.hash

/-- A refused block leaves the best blocks alone. -/
theorem hashBestBlock_of_refused {c c' : ChainState} {e : Fault}
    (h : c.connectTip env p block = (c', some e)) :
    c'.utxo = c.utxo ∧ c'.tip = c.tip ∧ c'.rewards.hashBestBlock = c.rewards.hashBestBlock := by
  obtain ⟨hutxo, htip, hsame | hval⟩ := connectTip_refused h
  · exact ⟨hutxo, htip, by rw [hsame]⟩
  · exact ⟨hutxo, htip, by rw [hval, hashBestBlock_validated]⟩

theorem connectTip_inStep (hsync : s.Synced) (hset : s.Settled env p)
    (hnew : (TipCall.connect block fin io).OffersNew p s)
    (hin : (TipCall.connect block fin io).InStep env p s)
    (h : ConnectOutcome env p fin io s block s' ok) : s'.Synced ∧ s'.Settled env p := by
  obtain ⟨hhash, hprev, hno⟩ := hnew
  -- an accepted block meets coins with a history
  have hhist : ∀ {chain : ChainState}, s.chain.connectTip env p block = (chain, none) →
      History env p s.chain.utxo s.chain.tip s.connected := by
    intro chain hchain
    exact hset.resolve_right (not_not.mpr (hashBestBlock_of_accepted hhash.hash_ne_genesis hchain))
  cases h with
  | unread hread => exact ⟨hsync, hset⟩
  | refused hread hchain =>
    obtain ⟨hutxo, htip, hbest⟩ := hashBestBlock_of_refused hchain
    constructor
    · simpa only [Synced, hutxo, hbest] using hsync
    · simpa only [Settled, hutxo, htip] using hset
  | notFinalized hread hchain hfin =>
    exact absurd (updateFinalized_error_iff.mp ⟨_, hfin⟩) (hin hread (congrArg Prod.snd hchain))
  | notFlushed hread hchain hfin =>
    obtain ⟨hcoins, hengine⟩ := hashBestBlock_of_connected hhash hchain
    refine ⟨hengine.trans hcoins.symm, .inr ?_⟩
    change _ ≠ s.chain.tip.hash
    rw [hcoins, ← hprev]
    exact hhash.hash_ne_prev
  | connected hread hchain hfin hflush =>
    obtain ⟨hcoins, hengine⟩ := hashBestBlock_of_connected hhash hchain
    have hnext := History.connect (hhist hchain) hhash hprev hno hchain
    refine ⟨?_, .inl hnext⟩
    obtain ⟨-, -, -, hsame | hwritten, -⟩ := flushStateToDisk_cases hflush
    · exact hsame.trans (hengine.trans hcoins.symm)
    · exact hwritten

theorem disconnectTip_inStep (hsync : s.Synced)
    (hist : History env p s.chain.utxo s.chain.tip s.connected)
    (hin : (TipCall.disconnect io).InStep env p s)
    (h : DisconnectOutcome env p io s s' ok) : s'.Synced ∧ s'.Settled env p := by
  cases h with
  | unread _ => exact ⟨hsync, .inl hist⟩
  | unclean hread hundo htop hbad hprev =>
    exact absurd (hin hread hundo hist.hashBestBlock_eq _ (by rw [htop]; rfl)) hbad
  | notFlushed htop hgood hprev hmoved => exact ⟨hprev, .inr hmoved⟩
  | disconnected htop hgood hist' hhash hprev hnew hacc hutxo htip hflush =>
    refine ⟨?_, .inl hist'⟩
    obtain ⟨-, -, -, hsame | hwritten, -⟩ := flushStateToDisk_cases hflush
    · exact hsame.trans (hprev.trans hist'.hashBestBlock_eq.symm)
    · exact hwritten

/-- Where the tip is behind the coins, nothing can be taken back. -/
theorem disconnectTip_stuck (hne : s.chain.utxo.hashBestBlock ≠ s.chain.tip.hash)
    (h : s.disconnectTip p io = .ok (s', ok)) : s' = s := by
  unfold disconnectTip at h
  split at h
  · exact (congrArg Prod.fst (Except.ok.inj h)).symm
  split at h
  · exact (congrArg Prod.fst (Except.ok.inj h)).symm
  -- the assertion on the best block fails
  cases h

theorem settled_step (hsync : s.Synced) (hset : s.Settled env p) (hnew : call.OffersNew p s)
    (hin : call.InStep env p s) (h : s.next env p call = some s') :
    s'.Synced ∧ s'.Settled env p := by
  obtain ⟨ok, h⟩ := next_eq_some_iff.mp h
  cases call with
  | connect block fin io =>
    obtain ⟨t, ok', hrun, hout⟩ := connectTip_cases env p fin io hnew.2.1
    cases h.symm.trans hrun
    exact connectTip_inStep hsync hset hnew hin hout
  | disconnect io =>
    rcases hset with hist | hne
    · obtain ⟨t, ok', hrun, hout⟩ := disconnectTip_cases io hist
      cases h.symm.trans hrun
      exact disconnectTip_inStep hsync hist hin hout
    · obtain rfl := disconnectTip_stuck hne h
      exact ⟨hsync, .inr hne⟩

/-- **A call out of step** separates the engine from the coins. -/
theorem not_synced_step (hset : s.Settled env p) (hnew : call.OffersNew p s)
    (hout : ¬call.InStep env p s) : ¬call.SyncedAfter env p s := by
  intro hsynced
  cases call with
  | connect block fin io =>
    obtain ⟨hhash, hprev, -⟩ := hnew
    simp only [TipCall.InStep, not_forall, not_not] at hout
    obtain ⟨hread, hacc, hfin⟩ := hout
    obtain ⟨e, he⟩ := updateFinalized_error_iff.mpr hfin
    have hchain : s.chain.connectTip env p block = ((s.chain.connectTip env p block).1, none) :=
      Prod.ext rfl hacc
    obtain ⟨s', ok, hrun, hcase⟩ := connectTip_cases env p fin io hprev
    have hsync' : s'.Synced := hsynced s' (next_eq_some_iff.mpr ⟨ok, hrun⟩)
    cases hcase with
    | unread hunread => cases hread.symm.trans hunread
    | refused _ hrefused => exact absurd (Prod.mk.inj (hchain.symm.trans hrefused)).2 (by simp)
    | notFlushed _ _ hok => cases he.symm.trans hok
    | connected _ _ hok _ => cases he.symm.trans hok
    | notFinalized _ hchain' _ =>
      -- the engine has moved to the block, the coins are still at its parent
      have hengine := (hashBestBlock_of_connected hhash hchain').2
      have hcoins := hashBestBlock_of_accepted hhash.hash_ne_genesis hchain'
      exact hhash.hash_ne_prev (hengine.symm.trans (hsync'.trans (hcoins.trans hprev.symm)))
  | disconnect io =>
    simp only [TipCall.InStep, not_forall] at hout
    obtain ⟨hread, hundo, hbest, top, htop, hbad⟩ := hout
    have hist := hset.resolve_right (not_not.mpr hbest)
    obtain ⟨s', ok, hrun, hcase⟩ := disconnectTip_cases io hist
    have hsync' : s'.Synced := hsynced s' (next_eq_some_iff.mpr ⟨ok, hrun⟩)
    cases hcase with
    | unread h =>
      rcases h with hnil | hunread | hunread
      · exact absurd htop (by simp [hnil])
      · cases hread.symm.trans hunread
      · cases hundo.symm.trans hunread
    | notFlushed htop' hgood _ _ =>
      rw [htop'] at htop
      cases htop
      exact absurd hgood hbad
    | disconnected htop' hgood _ _ _ _ _ _ _ _ =>
      rw [htop'] at htop
      cases htop
      exact absurd hgood hbad
    | unclean _ _ htop' _ hmoved =>
      -- the engine is back at the parent, the coins are still at the block
      exact hmoved (hsync'.trans hbest)

/-- A state at which the node starts: the coins and the engine are at the tip. -/
structure Started (s : TipState) : Prop where
  connected_eq : s.connected = []
  coins_eq : s.chain.utxo.hashBestBlock = s.chain.tip.hash
  engine_eq : s.chain.rewards.hashBestBlock = s.chain.tip.hash

theorem Started.settled (h : s.Started) : s.Settled env p := by
  refine .inl ?_
  rw [h.connected_eq]
  exact .base h.coins_eq

/-- **Best blocks along a run.** From a start, for any calls that connect new blocks on the tip or
disconnect it: the engine and the coins are at the same block after every call exactly when every
call is in step. -/
theorem alwaysSynced_iff (hstart : s.Started) {calls : List TipCall}
    (hnew : Run.Along (next env p) (fun s call => call.OffersNew p s) s calls) :
    Run.Along (next env p) (fun s call => call.SyncedAfter env p s) s calls ↔
      Run.Along (next env p) (fun s call => call.InStep env p s) s calls := by
  refine Run.along_iff (fun s : TipState => s.Synced ∧ s.Settled env p) ?_ ?_ ?_ hnew
  · intro s call hs hoffers
    constructor
    · intro hsynced
      by_contra hout
      exact not_synced_step hs.2 hoffers hout hsynced
    · intro hin s' hnext
      exact (settled_step hs.1 hs.2 hoffers hin hnext).1
  · intro s call s' hs hoffers hin hnext
    exact settled_step hs.1 hs.2 hoffers hin hnext
  · exact ⟨hstart.engine_eq.trans hstart.coins_eq.symm, hstart.settled⟩

/-! ### Runs from the genesis block -/

/-- The genesis block with an engine that has been reconciled with it. -/
def atGenesis (p : Params) : TipState :=
  { chain := { genesis p with
      rewards := (init p).setBestBlock p.hashGenesisBlock } }

/-- A node that has just started and finalizes nothing yet. -/
def justStarted : FinalizationEnv where
  finalizationdelay := 7200
  startupTime := 0
  now := 0
  headerReceivedTime := fun _ => 0
  isInvalid := fun _ => false

theorem started_atGenesis : (atGenesis p).Started := ⟨rfl, rfl, rfl⟩

theorem offersNew_atGenesis {io : TipIO} (hhash : block.WellHashed p)
    (hprev : block.hashPrevBlock = p.hashGenesisBlock) :
    (TipCall.connect block fin io).OffersNew p (atGenesis p) := by
  refine ⟨hhash, hprev, fun o _ => ?_⟩
  rw [ChainState.lookup_view]
  exact Std.ExtTreeMap.getElem?_empty

/-- The first block is connected and taken back. -/
theorem alwaysSynced_firstBlock :
    Run.Along (next Env.permissive mainParams)
      (fun s call => call.SyncedAfter Env.permissive mainParams s) (atGenesis mainParams)
      [.connect (chainBlock mainParams 1 (500 * coin) [0x51] []) justStarted {},
        .disconnect {}] := by
  have hnew : Run.Along (next Env.permissive mainParams)
      (fun s call => call.OffersNew mainParams s) (atGenesis mainParams)
      [.connect (chainBlock mainParams 1 (500 * coin) [0x51] []) justStarted {},
        .disconnect {}] :=
    ⟨offersNew_atGenesis ⟨by decide, by decide, by decide, by decide⟩ (by decide),
      fun _ _ => ⟨trivial, fun _ _ => trivial⟩⟩
  have haligned : ∀ s' ∈ (atGenesis mainParams).next Env.permissive mainParams
      (.connect (chainBlock mainParams 1 (500 * coin) [0x51] []) justStarted {}),
      ∀ top ∈ s'.connected.head?, OutputsAligned top.block.vtx := by
    unfold OutputsAligned
    decide +kernel
  refine (alwaysSynced_iff started_atGenesis hnew).mpr
    ⟨?_, fun s' hs' => ⟨fun _ _ _ => haligned s' hs', fun _ _ => trivial⟩⟩
  rintro - - ⟨pindex, hfind, -⟩
  exact absurd hfind (by simp [findBlockToFinalize, justStarted])

/-- **Both ways to lose step.** When the disconnection of a first block with an output of one
satoshi fails, the engine is at the genesis block and the coins at the first block; when the
finalization of a first block is refused, it is the other way round. -/
theorem not_alwaysSynced_firstBlock :
    (¬Run.Along (next Env.permissive mainParams)
      (fun s call => call.SyncedAfter Env.permissive mainParams s) (atGenesis mainParams)
      [.connect (chainBlock mainParams 1 1 [0x51] []) justStarted {}, .disconnect {}]) ∧
    ¬Run.Along (next { Env.permissive with maxreorgdepth := 0 } mainParams)
      (fun s call => call.SyncedAfter { Env.permissive with maxreorgdepth := 0 } mainParams s)
      (atGenesis mainParams)
      [.connect (chainBlock mainParams 1 (500 * coin) [0x51] [])
        { justStarted with now := 7200, isInvalid := fun _ => true } {}] := by
  constructor <;> decide +kernel

end TipState

end DeVault
