import DeVault.Lib.Run
import DeVault.Validation.Finalize
import DeVault.Validation.Undo

/-!
# The tip of the active chain (`ConnectTip`, `DisconnectTip`, `validation.cpp`)

`ConnectTip` and `DisconnectTip` change three things that the node keeps in
memory: the coins (`pcoinsTip`), the cold-reward engine and the tip, together
with the finalized block. The coins are staged in a view that the caller flushes
or drops; the engine is changed in place, inside `ConnectBlock` and
`ApplyBlockUndo`. Between the two stand early returns, and each of them is a
branch of `TipState.connectTip` and `TipState.disconnectTip`.
-/

namespace DeVault

open Outcome ChainState

/-! ### Undo data -/

/-- `CBlockUndo`: the coins a block spent, for each transaction but the coinbase. -/
def CBlockUndo : Type :=
  { vtxundo : List (List Coin) // ∀ txundo ∈ vtxundo, ∀ c ∈ txundo, c.Wf }

variable {g g' : Option CColdRewards} {suppress : Bool}

section CoinsWf

variable {env : Env} {p : Params} {block : CBlock} {pindex : CBlockIndex}
  {v v' : CCoinsViewCache UtxoSet}

/-- The coins a transaction loop records were in the view. -/
theorem undoWf_connectTx {t t' : ConnectState UtxoSet} {tx : CTransaction}
    (hnd : tx.isCoinBase = false → tx.prevouts.Nodup) (hview : t.view.CoinsWf)
    (hundo : ∀ txundo ∈ t.vtxundo, ∀ c ∈ txundo, c.Wf)
    (h : connectTx env pindex t tx = .ok t') : ∀ txundo ∈ t'.vtxundo, ∀ c ∈ txundo, c.Wf := by
  cases hcb : tx.isCoinBase with
  | true => rwa [connectTx_coinbase hcb h]
  | false =>
    obtain ⟨w, fee, hin, -, -, -, hvtxundo⟩ := connectTx_regular hcb (hnd hcb) h
    have hreads := reads_of_checkTxInputs hin
    have hspendable := (checkTxInputs_ok_iff.mp ⟨w, hin⟩).2.1
    rw [hvtxundo]
    intro txundo htxundo c hc
    rcases List.mem_append.mp htxundo with hold | hnew
    · exact hundo txundo hold c hc
    · rw [List.mem_singleton] at hnew
      subst hnew
      obtain ⟨o, ho, rfl⟩ := List.mem_map.mp hc
      obtain ⟨i, hi, rfl⟩ := List.mem_map.mp ho
      rw [hreads.peek_eq]
      exact hview.lookup (hspendable i hi).lookup

theorem Connected.undoWf {g₁ : Option CColdRewards} {fJustCheck : Bool}
    {s : ConnectState UtxoSet} {out : ConnectOutput UtxoSet}
    (h : Connected env p block pindex v g suppress fJustCheck s g₁ g' out) (hv : v.CoinsWf) :
    ∀ txundo ∈ out.vtxundo, ∀ c ∈ txundo, c.Wf := by
  have hshape := blockShape_of_checkBlock h.checkBlock_ok
  obtain ⟨v₁, v₂, hreads, -, hadd, hloop⟩ := connectTransactions_ok h.transactions
  have hv₂ := coinsWf_foldlM_addCoins hshape.moneyRange h.height_pos (hreads.coinsWf hv) hadd
  rw [h.vtxundo_eq]
  refine (foldlM_ok_induct (P := fun t : ConnectState UtxoSet =>
    t.view.CoinsWf ∧ ∀ txundo ∈ t.vtxundo, ∀ c ∈ txundo, c.Wf) ⟨hv₂, by simp⟩ ?_ hloop).2
  intro t tx t' htx ht hstep
  have hnd := hshape.nodup_prevouts tx htx
  exact ⟨coinsWf_connectTx hnd ht.1 hstep, undoWf_connectTx hnd ht.1 ht.2 hstep⟩

theorem undoWf_of_connectBlock {fJustCheck : Bool} {out : ConnectOutput UtxoSet}
    (h : connectBlock env p block pindex v g suppress fJustCheck = (g', .ok out))
    (hv : v.CoinsWf) : ∀ txundo ∈ out.vtxundo, ∀ c ∈ txundo, c.Wf := by
  by_cases hgen : block.hash = p.hashGenesisBlock
  · obtain ⟨-, rfl⟩ := connectBlock_genesis_ok h hgen
    cases fJustCheck <;> simp
  · obtain ⟨s, g₁, hconn⟩ := connectBlock_ok h hgen
    exact hconn.undoWf hv

theorem coinsWf_undoCoinSpend {undo : Coin} {out : COutPoint} {res : DisconnectResult}
    (hundo : undo.Wf) (hv : v.CoinsWf) (h : undoCoinSpend undo v out = .ok (v', res)) :
    v'.CoinsWf := by
  have hheight : undo.nHeight ≠ 0 := Nat.pos_iff_ne_zero.mp hundo.height_pos
  simp only [undoCoinSpend, if_neg hheight] at h
  obtain ⟨w, hadd, hres⟩ := bind_ok_iff.mp h
  cases hres
  exact (hv.fetchCoin out).addCoin hadd hundo.moneyRange hundo.height_pos

theorem coinsWf_applyBlockUndo {undo : CBlockUndo} {res : DisconnectResult} (hv : v.CoinsWf)
    (h : applyBlockUndo p undo.1 block pindex v g suppress = .ok (v', g', res)) : v'.CoinsWf := by
  unfold applyBlockUndo at h
  split at h
  · cases h
    exact hv
  obtain ⟨⟨w, r⟩, hinputs, hrest⟩ := bind_ok_iff.mp h
  have hw : w.CoinsWf := undoTransactions_induct
    (fun txundo hmem c hc => coinsWf_undoCoinSpend (undo.2 txundo hmem c hc)) hv hinputs
  simp only at hrest
  split at hrest
  · cases hrest
    exact hw
  · cases hrest
    rw [foldl_revertOutput_fst]
    exact hw.spendAll _

end CoinsWf

/-! ### The calls -/

/-- What `FlushStateToDisk` does inside a call: nothing is due, all is written, or
a write fails. -/
inductive DiskFlush where
  | notNeeded
  | written
  | failed
  deriving DecidableEq, Repr

/-- The disk as one call finds it. -/
structure TipIO where
  readBlock : Bool := true
  readUndo : Bool := true
  flush : DiskFlush := .notNeeded
  deriving DecidableEq, Repr

/-- A block of the active chain that can be taken back, with the undo data that
`ConnectBlock` wrote for it. -/
structure ConnectedTip where
  block : CBlock
  undo : CBlockUndo

/-- The active chain, its last blocks from the tip down, and `pindexFinalized`. -/
structure TipState where
  chain : ChainState
  connected : List ConnectedTip := []
  finalized : Option CBlockIndex := none

variable (env : Env)

/-- The undo data of a block that is connected to the tip. -/
def ChainState.undoOf (p : Params) (s : ChainState) (block : CBlock) : CBlockUndo :=
  match h : connectBlock env p block (s.tip.next block.hash) s.view (some s.rewards) false
    false with
  | (_, .ok out) => ⟨out.vtxundo, undoWf_of_connectBlock h s.coinsWf_view⟩
  | (_, .error _) => ⟨[], by simp⟩

/-- `InvalidBlockFound` for a block that `ConnectBlock` refused: a finalized block
is given up if the refused one is on its branch. -/
def invalidBlockFound (finalized : Option CBlockIndex) (pindex : CBlockIndex) (e : Fault) :
    Option CBlockIndex :=
  match e with
  | .dos _ _ | .invalid _ =>
    if !corruptionPossible e && isBlockFinalized finalized pindex then pindex.pprev else finalized
  | _ => finalized

/-- The engine after `FlushStateToDisk`, and whether the flush succeeded. -/
def flushStateToDisk (r : CColdRewards) (bestBlock : BlockHash) : DiskFlush → CColdRewards × Bool
  | .notNeeded => (r, true)
  | .written => ({ r with setDirty := ∅, setErased := ∅, hashBestBlock := bestBlock }, true)
  | .failed => (r, false)

variable (p : Params) (io : TipIO)

namespace TipState

/-- `ConnectTip`: the state after the call and what it returns. -/
def connectTip (env : Env) (p : Params) (fin : FinalizationEnv) (io : TipIO) (s : TipState)
    (block : CBlock) : Except Fault (TipState × Bool) := do
  let pindexNew := s.chain.tip.next block.hash
  Outcome.require (block.hashPrevBlock == s.chain.tip.hash)
    (.assertion "pindexNew->pprev == m_chain.Tip()")
  if !io.readBlock then .ok (s, false)
  else
    match s.chain.connectTip env p block with
    | (chain, some e) =>
      .ok ({ s with chain := chain, finalized := invalidBlockFound s.finalized pindexNew e }, false)
    | (chain, none) =>
      match updateFinalized env.maxreorgdepth fin s.finalized pindexNew with
      -- the view is dropped, but the engine has been committed
      | .error _ => .ok ({ s with chain := { s.chain with rewards := chain.rewards } }, false)
      | .ok finalized =>
        match flushStateToDisk chain.rewards chain.utxo.hashBestBlock io.flush with
        | (rewards, false) =>
          .ok ({ s with
            chain := ⟨chain.utxo, rewards, s.chain.tip⟩, finalized := finalized }, false)
        | (rewards, true) =>
          .ok ({ chain := ⟨chain.utxo, rewards, chain.tip⟩
                 connected := ⟨block, s.chain.undoOf env p block⟩ :: s.connected
                 finalized := finalized }, true)

/-- `DisconnectTip`. Blocks below `connected` cannot be read. -/
def disconnectTip (s : TipState) : Except Fault (TipState × Bool) :=
  match s.connected with
  | [] => .ok (s, false)
  | top :: rest =>
    if !io.readBlock then .ok (s, false)
    else if s.chain.utxo.hashBestBlock ≠ s.chain.tip.hash then
      .error (.assertion "view.GetBestBlock() == pindexDelete->GetBlockHash()")
    else if !io.readUndo then .ok (s, false)
    else
      match h : applyBlockUndo p top.undo.1 top.block s.chain.tip s.chain.view
          (some s.chain.rewards) false with
      | .error e => .error e
      | .ok (view, g, .ok) =>
        let utxo := UtxoSet.ofView view (coinsWf_applyBlockUndo s.chain.coinsWf_view h)
        match flushStateToDisk (g.getD s.chain.rewards) utxo.hashBestBlock io.flush with
        | (rewards, false) => .ok ({ s with chain := ⟨utxo, rewards, s.chain.tip⟩ }, false)
        | (rewards, true) =>
          .ok ({ chain := ⟨utxo, rewards, s.chain.tip.pprev.getD s.chain.tip⟩
                 connected := rest
                 finalized := if s.finalized = some s.chain.tip then s.chain.tip.pprev
                   else s.finalized }, true)
      -- the view is dropped, but an unclean undo has rewound the engine
      | .ok (_, g, _) =>
        .ok ({ s with chain := { s.chain with rewards := g.getD s.chain.rewards } }, false)

end TipState

/-- A call, with what it finds on disk and on the clock. -/
inductive TipCall where
  | connect (block : CBlock) (fin : FinalizationEnv) (io : TipIO)
  | disconnect (io : TipIO)

/-- One call. A failed assertion or an exception stops the node. -/
def TipState.step (p : Params) (s : TipState) : TipCall → Except Fault (TipState × Bool)
  | .connect block fin io => s.connectTip env p fin io block
  | .disconnect io => s.disconnectTip p io

/-- The state after a call that returns. -/
def TipState.next (p : Params) (s : TipState) (call : TipCall) : Option TipState :=
  (s.step env p call).toOption.map Prod.fst

theorem TipState.next_eq_some_iff {env : Env} {p : Params} {s s' : TipState} {call : TipCall} :
    s.next env p call = some s' ↔ ∃ ok, s.step env p call = .ok (s', ok) := by
  unfold TipState.next
  cases hstep : s.step env p call with
  | error e => simp [Except.toOption]
  | ok r =>
    obtain ⟨t, ok⟩ := r
    simp [Except.toOption]

/-! ### What a call can do -/

/-- The outcomes of `ConnectTip`. -/
inductive ConnectOutcome (env : Env) (p : Params) (fin : FinalizationEnv) (io : TipIO)
    (s : TipState) (block : CBlock) : TipState → Bool → Prop
  | unread (hread : io.readBlock = false) : ConnectOutcome env p fin io s block s false
  | refused {chain : ChainState} {e : Fault} (hread : io.readBlock = true)
      (hchain : s.chain.connectTip env p block = (chain, some e)) :
      ConnectOutcome env p fin io s block
        { s with
          chain := chain
          finalized := invalidBlockFound s.finalized (s.chain.tip.next block.hash) e } false
  | notFinalized {chain : ChainState} {e : Fault} (hread : io.readBlock = true)
      (hchain : s.chain.connectTip env p block = (chain, none))
      (hfin : updateFinalized env.maxreorgdepth fin s.finalized (s.chain.tip.next block.hash) =
        .error e) :
      ConnectOutcome env p fin io s block
        { s with chain := { s.chain with rewards := chain.rewards } } false
  | notFlushed {chain : ChainState} {finalized : Option CBlockIndex} (hread : io.readBlock = true)
      (hchain : s.chain.connectTip env p block = (chain, none))
      (hfin : updateFinalized env.maxreorgdepth fin s.finalized (s.chain.tip.next block.hash) =
        .ok finalized) :
      ConnectOutcome env p fin io s block
        { s with chain := ⟨chain.utxo, chain.rewards, s.chain.tip⟩, finalized := finalized } false
  | connected {chain : ChainState} {finalized : Option CBlockIndex} {rewards : CColdRewards}
      (hread : io.readBlock = true) (hchain : s.chain.connectTip env p block = (chain, none))
      (hfin : updateFinalized env.maxreorgdepth fin s.finalized (s.chain.tip.next block.hash) =
        .ok finalized)
      (hflush : flushStateToDisk chain.rewards chain.utxo.hashBestBlock io.flush =
        (rewards, true)) :
      ConnectOutcome env p fin io s block
        { chain := ⟨chain.utxo, rewards, chain.tip⟩
          connected := ⟨block, s.chain.undoOf env p block⟩ :: s.connected
          finalized := finalized } true

/-- A flush only drops the bookkeeping and names the best block. -/
theorem flushStateToDisk_cases {r r' : CColdRewards} {hash : BlockHash}
    {flush : DiskFlush} {ok : Bool}
    (h : flushStateToDisk r hash flush = (r', ok)) :
    r'.rewardMap = r.rewardMap ∧ r'.inactiveByHeight = r.inactiveByHeight ∧
      r'.settings = r.settings ∧ (r'.hashBestBlock = r.hashBestBlock ∨ r'.hashBestBlock = hash) ∧
      (ok = false → r' = r) := by
  cases flush <;> cases h
  · exact ⟨rfl, rfl, rfl, .inl rfl, fun _ => rfl⟩
  · exact ⟨rfl, rfl, rfl, .inr rfl, fun hok => absurd hok (by decide)⟩
  · exact ⟨rfl, rfl, rfl, .inl rfl, fun _ => rfl⟩

namespace TipState

variable {s : TipState} {block : CBlock}

/-- Everything one call can do. -/
theorem connectTip_cases (p : Params) (fin : FinalizationEnv) (io : TipIO)
    (hprev : block.hashPrevBlock = s.chain.tip.hash) :
    ∃ s' ok, s.connectTip env p fin io block = .ok (s', ok) ∧
      ConnectOutcome env p fin io s block s' ok := by
  unfold connectTip
  rw [show (require (block.hashPrevBlock == s.chain.tip.hash)
    (Fault.assertion "pindexNew->pprev == m_chain.Tip()")) = .ok () from
      require_ok (by simpa using hprev)]
  change ∃ s' ok, (if (!io.readBlock) = true then _ else _) = _ ∧ _
  cases hread : io.readBlock with
  | false => exact ⟨s, false, rfl, .unread hread⟩
  | true =>
    rw [if_neg (by decide)]
    split
    next chain e hchain => exact ⟨_, _, rfl, .refused hread hchain⟩
    next chain hchain =>
    split
    next e hfin => exact ⟨_, _, rfl, .notFinalized hread hchain hfin⟩
    next finalized hfin =>
    split
    next rewards hflush =>
      obtain rfl := (flushStateToDisk_cases hflush).2.2.2.2 rfl
      exact ⟨_, _, rfl, .notFlushed hread hchain hfin⟩
    next rewards hflush => exact ⟨_, _, rfl, .connected hread hchain hfin hflush⟩

end TipState

/-! ### Where the coins come from -/

/-- What is taken for granted of block hashes: a block is none of its ancestors,
and no hash is the null hash. -/
structure CBlock.WellHashed (p : Params) (block : CBlock) : Prop where
  hash_ne_zero : block.hash ≠ 0
  prev_ne_zero : block.hashPrevBlock ≠ 0
  hash_ne_prev : block.hash ≠ block.hashPrevBlock
  hash_ne_genesis : block.hash ≠ p.hashGenesisBlock

/-- The coins and the tip are those that the connected blocks made of an earlier
state, the first of them last. -/
inductive History (env : Env) (p : Params) : UtxoSet → CBlockIndex → List ConnectedTip → Prop
  | base {utxo : UtxoSet} {tip : CBlockIndex} (hbest : utxo.hashBestBlock = tip.hash) :
      History env p utxo tip []
  | connect {s s' : ChainState} {block : CBlock} {rest : List ConnectedTip}
      (hist : History env p s.utxo s.tip rest) (hhash : block.WellHashed p)
      (hprev : block.hashPrevBlock = s.tip.hash)
      (hnew : NoOverwrite s.view block.vtx (s.tip.nHeight + 1))
      (hacc : s.connectTip env p block = (s', none)) :
      History env p s'.utxo s'.tip (⟨block, s.undoOf env p block⟩ :: rest)

section History

variable {env : Env} {p : Params} {block : CBlock} {utxo : UtxoSet} {tip : CBlockIndex}
  {s s' : ChainState} {top : ConnectedTip} {rest : List ConnectedTip}

theorem UtxoSet.ext_coins {b b' : UtxoSet} (hcoins : ∀ o : COutPoint, b.coins[o]? = b'.coins[o]?)
    (hbest : b.hashBestBlock = b'.hashBestBlock) : b = b' := by
  obtain ⟨coins, hash, wf⟩ := b
  obtain ⟨coins', hash', wf'⟩ := b'
  obtain rfl : coins = coins' := Std.ExtTreeMap.ext_getElem? hcoins
  obtain rfl : hash = hash' := hbest
  rfl

/-- The stages an accepted block went through, and its undo data. -/
theorem connected_of_accepted (hgen : block.hash ≠ p.hashGenesisBlock)
    (hacc : s.connectTip env p block = (s', none)) :
    ∃ t out, Connected env p block (s.tip.next block.hash) s.view (some s.rewards) false false t
        (some (s.rewards.validated p block (s.tip.next block.hash).nHeight)) (some s'.rewards) out ∧
      (∀ o : COutPoint, s'.utxo.coins[o]? = t.view.lookup o) ∧
      s'.utxo.hashBestBlock = out.view.getBestBlock ∧
      (s.undoOf env p block).1 = t.vtxundo := by
  obtain ⟨-, ⟨heq, -⟩ | ⟨t, out, hconn, hcoins, hbest, g, hrun⟩⟩ :=
    connectTip_accepted hacc
  · exact absurd heq hgen
  have hundo : (s.undoOf env p block).1 = t.vtxundo := by
    unfold undoOf
    split
    next g' out' hrun' =>
      obtain rfl : out = out' := Except.ok.inj (Prod.mk.inj (hrun.symm.trans hrun')).2
      exact hconn.vtxundo_eq
    next g' e hrun' => exact absurd (Prod.mk.inj (hrun.symm.trans hrun')).2 (by simp)
  exact ⟨t, out, hconn, fun o => (hcoins o).trans (hconn.lookup_view o), hbest, hundo⟩

/-- The best block of the coins and of the engine after a connected block. -/
theorem hashBestBlock_of_connected (hhash : block.WellHashed p)
    (hacc : s.connectTip env p block = (s', none)) :
    s'.utxo.hashBestBlock = block.hash ∧ s'.rewards.hashBestBlock = block.hash := by
  obtain ⟨t, out, hconn, -, hbest, -⟩ := connected_of_accepted hhash.hash_ne_genesis hacc
  constructor
  · have hview : out.view = t.view.setBestBlock block.hash := hconn.view_eq
    rw [hbest, hview]
    exact if_neg hhash.hash_ne_zero
  · rw [rewards_of_connected hconn]
    rfl

theorem History.hashBestBlock_eq {connected : List ConnectedTip}
    (h : History env p utxo tip connected) : utxo.hashBestBlock = tip.hash := by
  cases h with
  | base hbest => exact hbest
  | connect hist hhash hprev hnew hacc =>
    rw [(hashBestBlock_of_connected hhash hacc).1, (connectTip_accepted hacc).1]
    rfl

/-- A block is only accepted where the coins are those of the tip. -/
theorem hashBestBlock_of_accepted (hgen : block.hash ≠ p.hashGenesisBlock)
    (hacc : s.connectTip env p block = (s', none)) : s.utxo.hashBestBlock = s.tip.hash := by
  obtain ⟨t, out, hconn, -⟩ := connected_of_accepted hgen hacc
  have hpre := hconn.preamble
  unfold connectPreamble at hpre
  obtain ⟨-, -, hpre⟩ := bind_ok_iff.mp hpre
  obtain ⟨-, -, hpre⟩ := bind_ok_iff.mp hpre
  obtain ⟨-, -, hpre⟩ := bind_ok_iff.mp hpre
  have hprev := beq_iff_eq.mp (require_ok_iff.mp hpre)
  exact hprev.symm

theorem hashBlock_applyBlockUndo {B : Type} [CCoinsView B] {vtxundo : List (List Coin)}
    {pindex : CBlockIndex} {v v' : CCoinsViewCache B}
    (h : applyBlockUndo p vtxundo block pindex v g suppress = .ok (v', g', .ok)) :
    v'.hashBlock = block.hashPrevBlock := by
  unfold applyBlockUndo at h
  split at h
  · cases h
  obtain ⟨⟨w, r⟩, -, hrest⟩ := bind_ok_iff.mp h
  simp only at hrest
  split at hrest
  · cases hrest
  · obtain ⟨rfl, -⟩ := Prod.mk.inj (Except.ok.inj hrest)
    rfl

/-- **The undo data of the top block fit the coins.** Undoing it runs through, is clean exactly when
its outputs are whole spocks, and then leaves the coins before the block. -/
theorem undo_of_accepted {view : CCoinsViewCache UtxoSet} {r : CColdRewards}
    (hhash : block.WellHashed p) (hprev : block.hashPrevBlock = s.tip.hash)
    (hbest : s.utxo.hashBestBlock = s.tip.hash)
    (hnew : NoOverwrite s.view block.vtx (s.tip.nHeight + 1))
    (hacc : s.connectTip env p block = (s', none)) (hview : view = s'.view) :
    ∃ view' res, applyBlockUndo p (s.undoOf env p block).1 block s'.tip view (some r) false =
        .ok (view', some (undoColdRewards p block s'.tip.nHeight r), res) ∧
      (res = .ok ↔ OutputsAligned block.vtx) ∧
      ∀ hwf : view'.CoinsWf, res = .ok → UtxoSet.ofView view' hwf = s.utxo := by
  subst hview
  obtain ⟨t, out, hconn, hcoins, -, hundo⟩ := connected_of_accepted hhash.hash_ne_genesis hacc
  have hshape := blockShape_of_checkBlock hconn.checkBlock_ok
  obtain ⟨v₂, hspec⟩ := connectTransactions_spec hshape s.wf_view hnew hconn.transactions
  have htip : s'.tip = s.tip.next block.hash := (connectTip_accepted hacc).1
  have hheights : ∀ o c, s.view.lookup o = some c → 0 < c.nHeight :=
    fun o c hc => (s.coinsWf_view.lookup hc).height_pos
  have hlookups : ∀ o, s'.view.lookup o = t.view.lookup o :=
    fun o => (s'.lookup_view o).trans (hcoins o)
  obtain ⟨view', res, hrun, hres, hback⟩ := applyBlockUndo_spec (p := p) hshape hspec
    hconn.height_pos hheights s'.wf_view (some r) false hnew hlookups
  rw [htip, hundo]
  refine ⟨view', res, hrun, hres, fun hwf hok => UtxoSet.ext_coins (fun o => ?_) ?_⟩
  · calc (UtxoSet.ofView view' hwf).coins[o]? = view'.lookup o := view'.getElem?_utxo o
      _ = s.view.lookup o := hback o
      _ = s.utxo.coins[o]? := s.lookup_view o
  · subst hok
    have hhashBlock := hashBlock_applyBlockUndo hrun
    change view'.getBestBlock = s.utxo.hashBestBlock
    rw [CCoinsViewCache.getBestBlock, hhashBlock, if_neg hhash.prev_ne_zero, hprev, hbest]

end History

section Top

variable {env : Env} {p : Params} {utxo : UtxoSet} {tip : CBlockIndex} {top : ConnectedTip}
  {rest : List ConnectedTip}

/-- The state the top block was connected to. -/
theorem History.before_top (h : History env p utxo tip (top :: rest)) :
    ∃ t t' : ChainState, History env p t.utxo t.tip rest ∧ top.block.WellHashed p ∧
      top.block.hashPrevBlock = t.tip.hash ∧
      NoOverwrite t.view top.block.vtx (t.tip.nHeight + 1) ∧
      t.connectTip env p top.block = (t', none) ∧ utxo = t'.utxo ∧ tip = t'.tip ∧
      top.undo = t.undoOf env p top.block := by
  cases h with
  | connect hist hhash hprev hnew hacc =>
    exact ⟨_, _, hist, hhash, hprev, hnew, hacc, rfl, rfl, rfl⟩

end Top

/-- The outcomes of `DisconnectTip` where the coins have a history. -/
inductive DisconnectOutcome (env : Env) (p : Params) (io : TipIO) (s : TipState) :
    TipState → Bool → Prop
  | unread (h : s.connected = [] ∨ io.readBlock = false ∨ io.readUndo = false) :
      DisconnectOutcome env p io s s false
  | unclean {top : ConnectedTip} {rest : List ConnectedTip} (hread : io.readBlock = true)
      (hundo : io.readUndo = true) (htop : s.connected = top :: rest)
      (hbad : ¬OutputsAligned top.block.vtx) (hprev : top.block.hashPrevBlock ≠ s.chain.tip.hash) :
      DisconnectOutcome env p io s
        { s with
          chain := { s.chain with
            rewards := undoColdRewards p top.block s.chain.tip.nHeight s.chain.rewards } } false
  | notFlushed {top : ConnectedTip} {rest : List ConnectedTip} {t : ChainState}
      (htop : s.connected = top :: rest) (hgood : OutputsAligned top.block.vtx)
      (hprev : top.block.hashPrevBlock = t.utxo.hashBestBlock)
      (hmoved : t.utxo.hashBestBlock ≠ s.chain.tip.hash) :
      DisconnectOutcome env p io s
        { s with
          chain := ⟨t.utxo, undoColdRewards p top.block s.chain.tip.nHeight s.chain.rewards,
            s.chain.tip⟩ } false
  | disconnected {top : ConnectedTip} {rest : List ConnectedTip} {t t' : ChainState}
      {rewards : CColdRewards}
      (htop : s.connected = top :: rest) (hgood : OutputsAligned top.block.vtx)
      (hist : History env p t.utxo t.tip rest) (hhash : top.block.WellHashed p)
      (hprev : top.block.hashPrevBlock = t.tip.hash)
      (hnew : NoOverwrite t.view top.block.vtx (t.tip.nHeight + 1))
      (hacc : t.connectTip env p top.block = (t', none))
      (hutxo : s.chain.utxo = t'.utxo) (htip : s.chain.tip = t'.tip)
      (hflush : flushStateToDisk (undoColdRewards p top.block s.chain.tip.nHeight s.chain.rewards)
        t.utxo.hashBestBlock io.flush = (rewards, true)) :
      DisconnectOutcome env p io s
        { chain := ⟨t.utxo, rewards, t.tip⟩
          connected := rest
          finalized := if s.finalized = some s.chain.tip then some t.tip else s.finalized } true

namespace TipState

variable {env : Env} {p : Params} {s : TipState}

/-- Everything one call can do. -/
theorem disconnectTip_cases (hist : History env p s.chain.utxo s.chain.tip s.connected) :
    ∃ s' ok, s.disconnectTip p io = .ok (s', ok) ∧ DisconnectOutcome env p io s s' ok := by
  have hbest := hist.hashBestBlock_eq
  unfold disconnectTip
  split
  next hnil => exact ⟨s, false, rfl, .unread (.inl hnil)⟩
  next top rest htop =>
  split
  next hread => exact ⟨s, false, rfl, .unread (.inr (.inl (by simpa using hread)))⟩
  next hread =>
  rw [if_neg (not_not.mpr hbest)]
  split
  next hundo => exact ⟨s, false, rfl, .unread (.inr (.inr (by simpa using hundo)))⟩
  next hundo =>
  rw [htop] at hist
  -- the top block was connected in some earlier state; this step is undone
  obtain ⟨t, t', hist', hhash, hprev, hnew, hacc, hutxo, htip, hundoOf⟩ := hist.before_top
  have hview : s.chain.view = t'.view := by rw [view, hutxo]; rfl
  have hbest' := hist'.hashBestBlock_eq
  have hpprev : s.chain.tip.pprev = some t.tip := by
    rw [htip, (connectTip_accepted hacc).1, CBlockIndex.pprev_next]
  have hmoved : top.block.hashPrevBlock ≠ s.chain.tip.hash := by
    rw [htip, (connectTip_accepted hacc).1]
    exact hhash.hash_ne_prev.symm
  obtain ⟨view, res, hrun, hres, hback⟩ :=
    undo_of_accepted (r := s.chain.rewards) hhash hprev hbest'
    hnew hacc hview
  rw [← htip, ← hundoOf] at hrun
  split
  next e hrun' => cases hrun.symm.trans hrun'
  next view' g hrun' =>
    obtain ⟨rfl, rfl, rfl⟩ : view = view' ∧ some _ = g ∧ res = .ok := by
      have heq := Except.ok.inj (hrun.symm.trans hrun')
      exact ⟨congrArg Prod.fst heq, congrArg (·.2.1) heq, congrArg (·.2.2) heq⟩
    have hgood := hres.mp rfl
    simp only [hback _ rfl, hpprev, Option.getD_some]
    split
    next rewards hflush =>
      obtain rfl := (flushStateToDisk_cases hflush).2.2.2.2 rfl
      exact ⟨_, _, rfl, .notFlushed htop hgood (hprev.trans hbest'.symm)
        (by rw [hbest', ← hprev]; exact hmoved)⟩
    next rewards hflush =>
      exact ⟨_, _, rfl, .disconnected htop hgood hist' hhash hprev hnew hacc hutxo htip hflush⟩
  next view' g res' hne hrun' =>
    obtain ⟨rfl, rfl, rfl⟩ : view = view' ∧ some _ = g ∧ res = res' := by
      have heq := Except.ok.inj (hrun.symm.trans hrun')
      exact ⟨congrArg Prod.fst heq, congrArg (·.2.1) heq, congrArg (·.2.2) heq⟩
    refine ⟨_, _, rfl, .unclean (by simpa using hread) (by simpa using hundo) htop ?_ hmoved⟩
    intro hgood
    exact hne (hres.mpr hgood)

end TipState

end DeVault
