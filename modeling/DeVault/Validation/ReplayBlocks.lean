import DeVault.CoinsFlush
import DeVault.Validation.Finalize
import DeVault.Validation.Undo

/-!
# Recovering from an interrupted flush (`ReplayBlocks`, `validation.cpp`)

A node that finds the record of a transition in its coins database was stopped in the middle
of a flush from an old tip `A` to a new tip `B`. `ReplayBlocks` undoes the blocks from `A`
down to the fork with `B`, does those from the fork up to `B`, and flushes.

The coins it works on are those of no block at all: every outpoint has its coin at `A` or its
coin at `B`. This is what `Between` says, and it is all that the proof needs. Undoing a block
removes its outputs and puts the coins that it spent back, whether or not the view shows them;
doing a block adds its outputs and then removes what it spends, in this order. So both redo
the step of the history (`Redoes`), at the outpoints of the block, and leave the others alone.
-/

namespace DeVault

open List hiding next
open Option CoinsStore Outcome CBlockIndex CCoinsViewCache

/-- The block index and the block files. -/
structure BlockTree where
  mapBlockIndex : BlockHash → Option CBlockIndex
  readBlockFromDisk : CBlockIndex → Option CBlock
  undoReadFromDisk : CBlockIndex → Option (List (List Coin))
  /-- The null hash is that of no block. -/
  null : mapBlockIndex 0 = none

/-- `LastCommonAncestor`: from the same height, down both lines until they meet, without the
shortcuts of the skip pointers. -/
def lastCommonAncestor (pa pb : CBlockIndex) : Option CBlockIndex := do
  let nHeight := min pa.nHeight pb.nHeight
  let pa ← pa.getAncestor nHeight
  let pb ← pb.getAncestor nHeight
  ((pa.branch.zip pb.branch).find? fun q => q.1 == q.2).map (·.1)

section Replay

variable {B : Type} [CCoinsView B]

/-- `DisconnectBlock`: the undo data is read, then applied. -/
def disconnectBlock (p : Params) (tree : BlockTree) (block : CBlock) (pindex : CBlockIndex)
    (view : CCoinsViewCache B) (g : Option CColdRewards) (suppress : Bool) :
    Except Fault (CCoinsViewCache B × Option CColdRewards × DisconnectResult) :=
  match tree.undoReadFromDisk pindex with
  | none => .ok (view, g, .failed)
  | some blockUndo => applyBlockUndo p blockUndo block pindex view g suppress

/-- Undoing one block of the old branch. The result is `none` where `ReplayBlocks` gives up. -/
def rollbackBlock (p : Params) (tree : BlockTree) (suppress : Bool) (pindexOld : CBlockIndex)
    (s : CCoinsViewCache B × Option CColdRewards) :
    Except Fault (Option (CCoinsViewCache B × Option CColdRewards)) :=
  match tree.readBlockFromDisk pindexOld with
  | none => .ok none
  | some block => do
    let (cache, g, res) ← disconnectBlock p tree block pindexOld s.1 s.2 suppress
    if res = .failed then .ok none else .ok (some (cache, g))

/-- The loop over the old branch, from the old tip to the fork. -/
def rollback (p : Params) (tree : BlockTree) (suppress : Bool) (pindexFork : Option CBlockIndex) :
    List CBlockIndex → CCoinsViewCache B × Option CColdRewards →
      Except Fault (Option (CCoinsViewCache B × Option CColdRewards))
  | [], s => .ok (some s)
  | pindexOld :: rest, s =>
    if some pindexOld = pindexFork then .ok (some s)
    else if 0 < pindexOld.nHeight then do
      match ← rollbackBlock p tree suppress pindexOld s with
      | none => .ok none
      | some s => rollback p tree suppress pindexFork rest s
    -- the genesis block is never disconnected
    else rollback p tree suppress pindexFork rest s

/-- `RollforwardBlock`. -/
def rollforwardBlock (tree : BlockTree) (pindex : CBlockIndex) (view : CCoinsViewCache B) :
    Except Fault (Option (CCoinsViewCache B)) :=
  match tree.readBlockFromDisk pindex with
  | none => .ok none
  | some block => do
    let view ← block.vtx.foldlM (fun view tx => addCoins view tx pindex.nHeight true) view
    .ok (some (block.vtx.foldl (fun view tx =>
      if tx.isCoinBase then view else view.spendAll tx.prevouts) view))

/-- The loop over the heights of the new branch. -/
def rollforward (tree : BlockTree) (pindexNew : CBlockIndex) :
    List Nat → CCoinsViewCache B → Except Fault (Option (CCoinsViewCache B))
  | [], view => .ok (some view)
  | nHeight :: rest, view =>
    match pindexNew.getAncestor nHeight with
    | none => .error (.assertion "pindex")
    | some pindex => do
      match ← rollforwardBlock tree pindex view with
      | none => .ok none
      | some view => rollforward tree pindexNew rest view

end Replay

/-- The old tip, if it is not null, and the fork with the new one; `none` where `ReplayBlocks` does
not know the block. -/
def replayFork (tree : BlockTree) (hashOld : BlockHash) (pindexNew : CBlockIndex) :
    Except Fault (Option (Option (CBlockIndex × CBlockIndex))) :=
  if hashOld = 0 then .ok (some none)
  else
    match tree.mapBlockIndex hashOld with
    | none => .ok none
    | some pindexOld =>
      match lastCommonAncestor pindexOld pindexNew with
      | none => .error (.assertion "pa == pb")
      | some pindexFork => .ok (some (some (pindexOld, pindexFork)))

/-- What `ReplayBlocks` returns, with the batches that it writes. -/
structure ReplayResult where
  ok : Bool
  batches : List (List BatchOp)
  rewards : Option CColdRewards

/-- `ReplayBlocks` between two tips: both branches, and the flush. -/
def replayBranches (env : FlushEnv) (p : Params) (tree : BlockTree) (db : CoinsStore)
    (g : Option CColdRewards) (suppress : Bool) (fork : Option (CBlockIndex × CBlockIndex))
    (pindexNew : CBlockIndex) : Except Fault ReplayResult := do
  let cache : CCoinsViewCache CoinsStore := { base := db }
  let pindexFork := fork.map (·.2)
  let nForkHeight := (pindexFork.map (·.nHeight)).getD 0
  match ← rollback p tree suppress pindexFork ((fork.map (·.1.branch)).getD []) (cache, g) with
  | none => .ok ⟨false, [], g⟩
  | some (cache, g) =>
    match ← rollforward tree pindexNew
        (range' (nForkHeight + 1) (pindexNew.nHeight - nForkHeight)) cache with
    | none => .ok ⟨false, [], g⟩
    | some cache => do
      let cache := cache.setBestBlock pindexNew.hash
      let batches ← cache.base.batchWrite env cache.cacheCoins cache.hashBlock
      .ok ⟨true, batches, g⟩

/-- `ReplayBlocks`, after an unclean shutdown. -/
def replayBlocks (env : FlushEnv) (p : Params) (tree : BlockTree) (db : CoinsStore)
    (g : Option CColdRewards) (suppress : Bool) : Except Fault ReplayResult :=
  match db.headBlocks with
  | [] => .ok ⟨true, [], g⟩
  | [hashNew, hashOld] =>
    match tree.mapBlockIndex hashNew with
    | none => .ok ⟨false, [], g⟩
    | some pindexNew => do
      match ← replayFork tree hashOld pindexNew with
      | none => .ok ⟨false, [], g⟩
      | some fork => replayBranches env p tree db g suppress fork pindexNew
  | _ => .ok ⟨false, [], g⟩

/-! ### Adding outputs that may be there -/

section AddCoinsChecked

variable {B : Type} [CCoinsView B] {v : CCoinsViewCache B} {tx : CTransaction} {nHeight : Nat}

/-- The loop of a checked `AddCoins`, over outputs with distinct indices. -/
theorem exists_foldlM_addCoinsStep_true {l : List (CTxOut × Nat)} (hnd : (l.map Prod.snd).Nodup)
    (hr : ∀ q ∈ l, moneyRange q.1.nValue = true) (hw : v.Wf) :
    ∃ w, l.foldlM (addCoinsStep tx nHeight true) v = .ok w ∧ w.Wf ∧ w.base = v.base ∧
      (∀ q ∈ l, isUnspendable q.1.scriptPubKey = false →
        w.lookup (tx.outPoint q.2) = some ⟨q.1.quantized, nHeight, tx.isCoinBase⟩) ∧
      ∀ o, (∀ q ∈ l, isUnspendable q.1.scriptPubKey = false → tx.outPoint q.2 ≠ o) →
        w.lookup o = v.lookup o := by
  induction l generalizing v with
  | nil => exact ⟨v, rfl, hw, rfl, nofun, fun _ _ => rfl⟩
  | cons q l ih =>
    rw [map_cons, nodup_cons] at hnd
    rw [forall_mem_cons] at hr
    have hunspent : Coin.isSpent ⟨q.1.quantized, nHeight, tx.isCoinBase⟩ = false :=
      Coin.isSpent_of_moneyRange (moneyRange_spockQuantize hr.1)
    obtain ⟨u, hadd, hwu, hbu, hlu⟩ :=
      exists_addCoin_checked hw (tx.outPoint q.2) hunspent
    obtain ⟨w, hrun, hww, hbw, hin, hout⟩ := ih hnd.2 hr.2 hwu
    refine ⟨w, ?_, hww, hbw.trans hbu, ?_, fun o ho => ?_⟩
    · rw [foldlM_cons]
      refine bind_ok ?_ hrun
      simpa [addCoinsStep, haveCoin_snd] using hadd
    · rw [forall_mem_cons]
      refine ⟨fun hu => ?_, hin⟩
      -- the later outputs have other indices
      rw [hout _ fun q' hq' _ heq => ?_, hlu, if_pos ⟨rfl, hu⟩]
      refine hnd.1 (mem_map.mpr ⟨q', hq', ?_⟩)
      simpa [CTransaction.outPoint] using heq
    · rw [forall_mem_cons] at ho
      rw [hout o ho.2, hlu, if_neg]
      rintro ⟨heq, hu⟩
      exact ho.1 hu heq

/-- **A checked `AddCoins`** writes the created coins over any view with right flags. -/
theorem exists_addCoins_checked (hr : ∀ out ∈ tx.vout, moneyRange out.nValue = true) (hw : v.Wf) :
    ∃ w, addCoins v tx nHeight true = .ok w ∧ w.Wf ∧ w.base = v.base ∧
      ∀ o, w.lookup o = (tx.createdCoin nHeight o).or (v.lookup o) := by
  obtain ⟨w, hrun, hww, hbw, hin, hout⟩ := exists_foldlM_addCoinsStep_true
    (nodup_zipIdx_snd tx.vout) (fun q hq => hr q.1 (fst_mem_of_mem_zipIdx hq)) hw
  refine ⟨w, hrun, hww, hbw, fun o => ?_⟩
  cases hc : tx.createdCoin nHeight o with
  | some c =>
    obtain ⟨out, hmem, ho, hu, rfl⟩ := CTransaction.createdCoin_eq_some_iff.mp hc
    rw [ho, some_or]
    exact hin (out, o.n) hmem hu
  | none =>
    rw [none_or]
    refine hout o ?_
    rintro ⟨out, n⟩ hq hu rfl
    rw [CTransaction.createdCoin_eq_some_iff.mpr ⟨out, hq, rfl, hu, rfl⟩] at hc
    cases hc

/-- Adding the outputs of transactions that agree on the coins they create. -/
theorem exists_addAllCoins_checked {vtx : List CTransaction} {f : COutPoint → Option Coin}
    (hr : ∀ tx ∈ vtx, ∀ out ∈ tx.vout, moneyRange out.nValue = true)
    (hf : ∀ tx ∈ vtx, ∀ o c, tx.createdCoin nHeight o = some c → f o = some c) (hw : v.Wf) :
    ∃ w, vtx.foldlM (fun view tx => addCoins view tx nHeight true) v = .ok w ∧ w.Wf ∧
      w.base = v.base ∧
      ∀ o, w.lookup o = if (createdBy vtx nHeight o).isSome then f o else v.lookup o := by
  induction vtx generalizing v with
  | nil => exact ⟨v, rfl, hw, rfl, fun o => rfl⟩
  | cons tx vtx ih =>
    rw [forall_mem_cons] at hr hf
    obtain ⟨u, hadd, hwu, hbu, hlu⟩ := exists_addCoins_checked hr.1 hw
    obtain ⟨w, hrun, hww, hbw, hlw⟩ := ih hr.2 hf.2 hwu
    refine ⟨w, ?_, hww, hbw.trans hbu, fun o => ?_⟩
    · rw [foldlM_cons]
      exact bind_ok hadd hrun
    · rw [hlw, hlu, createdBy_cons]
      cases hc : tx.createdCoin nHeight o with
      | none => rw [none_or, none_or]
      | some c => simp [hf.1 o c hc]

theorem foldl_spendAll (vtx : List CTransaction) :
    vtx.foldl (fun view tx => if tx.isCoinBase then view else view.spendAll tx.prevouts) v =
      v.spendAll (spentBy vtx) := by
  induction vtx generalizing v with
  | nil => rfl
  | cons tx vtx ih =>
    rw [foldl_cons, ih]
    cases hcb : tx.isCoinBase with
    | true => rw [spentBy_cons_coinbase hcb, if_pos rfl]
    | false =>
      rw [spentBy_cons_regular hcb, if_neg Bool.false_ne_true]
      exact foldl_append.symm

end AddCoinsChecked

/-! ### The blocks of the tree -/

/-- A block that `ConnectBlock` accepted on a view that shows the coins of `tip`. It is in the block
index, and its files hold it and the undo data. -/
structure Accepted {B : Type} [CCoinsView B] (env : Env) (p : Params) (tree : BlockTree)
    (tip : CBlockIndex) (coins : COutPoint → Option Coin) (block : CBlock)
    (view : CCoinsViewCache B) (out : ConnectOutput B) : Prop where
  indexed : tree.mapBlockIndex block.hash = some (tip.next block.hash)
  stored : tree.readBlockFromDisk (tip.next block.hash) = some block
  undo : tree.undoReadFromDisk (tip.next block.hash) = some out.vtxundo
  wf : view.Wf
  shows : ∀ o, view.lookup o = coins o
  connected : ∃ g suppress g',
    connectBlock env p block (tip.next block.hash) view g suppress false = (g', .ok out)
  /-- Where the look-up of BIP30 is skipped, the block overwrites no coin either. -/
  noOverwrite : enforceBIP30 p (tip.next block.hash) = false →
    NoOverwrite view block.vtx (tip.next block.hash).nHeight

/-- **The branches of the tree**: a block on accepted blocks, with the coins that they leave. The
outputs of the genesis block are not among them. -/
inductive BlockTree.Branch (env : Env) (p : Params) (tree : BlockTree) :
    CBlockIndex → (COutPoint → Option Coin) → Prop
  | genesis : tree.mapBlockIndex p.hashGenesisBlock = some (.ofLine p.hashGenesisBlock []) →
      Branch env p tree (.ofLine p.hashGenesisBlock []) fun _ => none
  | next {B : Type} [CCoinsView B] {tip : CBlockIndex} {coins : COutPoint → Option Coin}
      {block : CBlock} {view : CCoinsViewCache B} {out : ConnectOutput B} :
      Branch env p tree tip coins → Accepted env p tree tip coins block view out →
      Branch env p tree (tip.next block.hash) out.view.lookup

section Accepted

variable {env : Env} {p : Params} {tree : BlockTree} {tip : CBlockIndex}
  {coins : COutPoint → Option Coin}

section

variable (h : tree.Branch env p tip coins)
include h

theorem BlockTree.Branch.genesis_indexed :
    tree.mapBlockIndex p.hashGenesisBlock = some (.ofLine p.hashGenesisBlock []) := by
  induction h with
  | genesis h => exact h
  | next _ _ ih => exact ih

theorem BlockTree.Branch.indexed : tree.mapBlockIndex tip.hash = some tip := by
  cases h with
  | genesis h => exact h
  | next _ hacc => exact hacc.indexed

theorem BlockTree.Branch.hash_ne_zero : tip.hash ≠ 0 := by
  intro h0
  have hindexed := h.indexed
  rw [h0, tree.null] at hindexed
  cases hindexed

end

variable {B : Type} [CCoinsView B] {block : CBlock} {view : CCoinsViewCache B}
  {out : ConnectOutput B} (h : Accepted env p tree tip coins block view out)
  (hbranch : tree.Branch env p tip coins)

include h hbranch

/-- **What the block did**, by the two loops of `ConnectBlock`. -/
theorem Accepted.spec :
    ∃ v₂ s, BlockShape block.vtx ∧ TransactionsSpec (tip.next block.hash) block.vtx view v₂ s ∧
      NoOverwrite view block.vtx (tip.next block.hash).nHeight ∧ out.vtxundo = s.vtxundo ∧
      ∀ o, out.view.lookup o = s.view.lookup o := by
  -- the index has the genesis block at its own place only
  have hgen : block.hash ≠ p.hashGenesisBlock := by
    intro heq
    have hindexed := h.indexed
    rw [heq, hbranch.genesis_indexed, some.injEq] at hindexed
    exact absurd (congrArg nHeight hindexed) (by simp [ofLine, next])
  obtain ⟨g, suppress, g', hconn⟩ := h.connected
  obtain ⟨s, g₁, hok⟩ := connectBlock_ok hconn hgen
  have hshape := blockShape_of_checkBlock hok.checkBlock_ok
  have hnew : NoOverwrite view block.vtx (tip.next block.hash).nHeight := by
    cases hbip : enforceBIP30 p (tip.next block.hash) with
    | false => exact h.noOverwrite hbip
    | true =>
      obtain ⟨-, -, -, hno, -⟩ := connectTransactions_ok hok.transactions
      exact hno hbip
  obtain ⟨v₂, hspec⟩ := connectTransactions_spec hshape h.wf hnew hok.transactions
  exact ⟨v₂, s, hshape, hspec, hnew, hok.vtxundo_eq, hok.lookup_view⟩

theorem Accepted.lookup (o : COutPoint) :
    out.view.lookup o = if o ∈ spentBy block.vtx then none
      else (createdBy block.vtx (tip.next block.hash).nHeight o).or (coins o) := by
  obtain ⟨v₂, s, -, hspec, -, -, hview⟩ := h.spec hbranch
  have hcreated : v₂.lookup o = _ := hspec.created o
  rw [hview, hspec.loop.lookup_eq]
  refine if_congr .rfl rfl ?_
  rw [← h.shows]
  exact hcreated

omit h hbranch in
/-- The coins of a branch come from blocks above the genesis block. -/
theorem BlockTree.Branch.height_pos (h : tree.Branch env p tip coins) :
    ∀ o c, coins o = some c → 0 < c.nHeight := by
  induction h with
  | genesis => exact fun o c hc => absurd hc (by simp)
  | next hbranch hacc ih =>
    intro o c hc
    rw [hacc.lookup hbranch] at hc
    split at hc
    · cases hc
    rcases or_eq_some_iff.mp hc with hnew | ⟨-, hold⟩
    · rw [nHeight_of_createdBy hnew]
      exact Nat.succ_pos _
    · exact ih o c hold

variable {C : Type} [CCoinsView C] {W : CCoinsViewCache C}

/-- **Undoing a block of the tree**, on any view with right flags. -/
theorem Accepted.rollback (hW : W.Wf) (g : Option CColdRewards) (suppress : Bool) :
    ∃ W' g', rollbackBlock p tree suppress (tip.next block.hash) (W, g) = .ok (some (W', g')) ∧
      W'.Wf ∧ W'.base = W.base ∧ Redoes out.view.lookup coins W.lookup W'.lookup := by
  obtain ⟨v₂, s, hshape, hspec, hnew, hundo, -⟩ := h.spec hbranch
  obtain ⟨W', g', res, happ, hres, hwf, hbase, hlook⟩ :=
    applyBlockUndo_settles (p := p) hshape hspec
    (Nat.succ_pos _) (fun o c hc => hbranch.height_pos o c ((h.shows o).symm.trans hc)) hW g
    suppress
  refine ⟨W', g', ?_, hwf, hbase, fun o => ?_⟩
  · unfold rollbackBlock
    rw [h.stored]
    refine bind_ok (a := (W', g', res)) ?_ (if_neg hres)
    unfold disconnectBlock
    rw [h.undo]
    simpa only [hundo] using happ
  · rw [hlook]
    split
    · -- created by the block, so it was not there before
      next hc =>
      left
      rw [← h.shows]
      exact (hnew o (mem_createdOutpoints_iff.mp hc)).symm
    next hc =>
      have hnone : createdBy block.vtx (tip.next block.hash).nHeight o = none := by
        by_contra hne
        exact hc (mem_createdOutpoints_iff.mpr (isSome_iff_ne_none.mpr hne))
      split
      · -- spent by the block, and from before
        next hs =>
        left
        have hshown : v₂.lookup o = _ := hspec.created o
        rw [← h.shows, ← none_or (o := view.lookup o), ← hnone, ← hshown]
        exact (hspec.loop.spendable o hs).lookup.symm
      next hs =>
        right
        rw [h.lookup hbranch, if_neg hs, hnone, none_or]
        exact ⟨rfl, rfl⟩

/-- **Doing a block of the tree again**, on any view with right flags. -/
theorem Accepted.rollforward (hW : W.Wf) :
    ∃ W', rollforwardBlock tree (tip.next block.hash) W = .ok (some W') ∧
      W'.Wf ∧ W'.base = W.base ∧ Redoes coins out.view.lookup W.lookup W'.lookup := by
  obtain ⟨v₂, s, hshape, hspec, -⟩ := h.spec hbranch
  obtain ⟨W₁, hadd, hW₁, hbase, hlook⟩ := exists_addAllCoins_checked hshape.moneyRange
    hspec.unique hW
  refine ⟨W₁.spendAll (spentBy block.vtx), ?_, hW₁.spendAll _,
    base_spendAll.trans hbase, fun o => ?_⟩
  · unfold rollforwardBlock
    rw [h.stored]
    refine bind_ok hadd ?_
    rw [foldl_spendAll]
  · rw [lookup_spendAll hW₁, hlook, h.lookup hbranch]
    split
    · exact .inl rfl
    · cases hc : createdBy block.vtx (tip.next block.hash).nHeight o with
      | some c => exact .inl rfl
      | none => exact .inr ⟨rfl, rfl⟩

end Accepted

/-! ### Along a branch -/

section Branches

variable {env : Env} {p : Params} {tree : BlockTree} {tip fork : CBlockIndex}
  {a b f : COutPoint → Option Coin}

theorem CBlockIndex.next_inj {q q' : CBlockIndex} {hash hash' : BlockHash}
    (h : q.next hash = q'.next hash') : q = q' ∧ hash = hash' := by
  refine ⟨?_, congrArg CBlockIndex.hash h⟩
  have hprev := congrArg CBlockIndex.pprev h
  rwa [CBlockIndex.pprev_next, CBlockIndex.pprev_next, some.injEq] at hprev

/-- **A block has one set of coins**: they are computed from the blocks on disk. -/
theorem BlockTree.Branch.unique (h : tree.Branch env p tip a) (h' : tree.Branch env p tip b) :
    a = b := by
  induction h generalizing b with
  | genesis =>
    generalize ht : CBlockIndex.ofLine p.hashGenesisBlock [] = t at h'
    cases h' with
    | genesis => rfl
    | next =>
      exact absurd (congrArg CBlockIndex.nHeight ht)
        (by simp [CBlockIndex.ofLine, CBlockIndex.next])
  | @next B _ q coins block view out hbranch hacc ih =>
    generalize ht : q.next block.hash = t at h'
    cases h' with
    | genesis =>
      exact absurd (congrArg CBlockIndex.nHeight ht)
        (by simp [CBlockIndex.ofLine, CBlockIndex.next])
    | @next B' _ q' coins' block' view' out' hbranch' hacc' =>
      obtain ⟨rfl, hhash⟩ := CBlockIndex.next_inj ht
      have hblock : block = block' := by
        have hstored := hacc.stored
        rw [hhash, hacc'.stored] at hstored
        exact (some.inj hstored).symm
      subst hblock
      obtain rfl := ih hbranch'
      ext1 o
      rw [hacc.lookup hbranch, hacc'.lookup hbranch']

theorem BlockTree.Branch.genesis_mem (h : tree.Branch env p tip a) :
    ofLine p.hashGenesisBlock [] ∈ tip.branch := by
  induction h with
  | genesis => exact self_mem_branch _
  | next _ _ ih =>
    rw [branch_next]
    exact mem_cons_of_mem _ ih

/-- The blocks below a block of the tree are blocks of the tree. -/
theorem BlockTree.Branch.exists_of_mem (h : tree.Branch env p tip a) (hmem : fork ∈ tip.branch) :
    ∃ f, tree.Branch env p fork f := by
  induction h with
  | genesis hgen =>
    rw [branch_of_pprev_none rfl, mem_singleton] at hmem
    subst hmem
    exact ⟨_, .genesis hgen⟩
  | next hbranch hacc ih =>
    rw [branch_next, mem_cons] at hmem
    rcases hmem with rfl | hmem
    · exact ⟨_, .next hbranch hacc⟩
    · exact ih hmem

variable {C : Type} [CCoinsView C] {W W' : CCoinsViewCache C}

/-- **The way down.** From coins between those of `tip` and `b`, to coins between those of
the fork and `b`. -/
theorem rollback_spec (h : tree.Branch env p tip a) (hfork : tree.Branch env p fork f)
    (hmem : fork ∈ tip.branch) (hW : W.Wf) (hab : Between a b W.lookup) (g : Option CColdRewards)
    (suppress : Bool) :
    ∃ W' g', rollback p tree suppress (some fork) tip.branch (W, g) = .ok (some (W', g')) ∧
      W'.Wf ∧ W'.base = W.base ∧ Between f b W'.lookup := by
  induction h generalizing W g with
  | genesis hgen =>
    have hbranch : branch (.ofLine p.hashGenesisBlock []) =
        [.ofLine p.hashGenesisBlock []] := rfl
    rw [hbranch, mem_singleton] at hmem
    subst hmem
    obtain rfl := hfork.unique (.genesis hgen)
    exact ⟨W, g, by rw [hbranch, rollback, if_pos rfl], hW, rfl, hab⟩
  | @next B _ q coins block view out hbranch hacc ih =>
    rw [branch_next] at hmem ⊢
    rw [rollback]
    by_cases heq : fork = q.next block.hash
    · subst heq
      obtain rfl := hfork.unique (.next hbranch hacc)
      exact ⟨W, g, if_pos rfl, hW, rfl, hab⟩
    · have hpos : 0 < (q.next block.hash).nHeight := Nat.succ_pos _
      rw [if_neg fun h => heq (some.inj h).symm, if_pos hpos]
      obtain ⟨W₁, g₁, hstep, hW₁, hbase₁, hredo⟩ := hacc.rollback hbranch hW g suppress
      obtain ⟨W', g', hrun, hW', hbase', hbetween⟩ :=
        ih (mem_of_ne_of_mem heq hmem) hW₁ (hab.redo hredo) g₁
      exact ⟨W', g', bind_ok hstep hrun, hW', hbase'.trans hbase₁, hbetween⟩

theorem rollforward_append {pindexNew : CBlockIndex} {l l' : List Nat}
    (h : rollforward tree pindexNew l W = .ok (some W')) :
    rollforward tree pindexNew (l ++ l') W = rollforward tree pindexNew l' W' := by
  induction l generalizing W with
  | nil =>
    obtain rfl : W = W' := by simpa [rollforward] using h
    rfl
  | cons n l ih =>
    rw [cons_append, rollforward]
    rw [rollforward] at h
    split at h
    · cases h
    · obtain ⟨r, hstep, hrest⟩ := bind_ok_iff.mp h
      cases r with
      | none => cases hrest
      | some W₁ =>
        rw [hstep]
        exact ih hrest

/-- **The way up**, to a block `tip` on the branch of the new tip. -/
theorem rollforward_spec {pindexNew : CBlockIndex} (h : tree.Branch env p tip a)
    (hnew : tip ∈ pindexNew.branch) (hfork : tree.Branch env p fork f) (hmem : fork ∈ tip.branch)
    (hW : W.Wf) (hfb : Between f b W.lookup) :
    ∃ W', rollforward tree pindexNew
        (range' (fork.nHeight + 1) (tip.nHeight - fork.nHeight)) W = .ok (some W') ∧
      W'.Wf ∧ W'.base = W.base ∧ Between a b W'.lookup := by
  induction h with
  | genesis hgen =>
    rw [branch_of_pprev_none rfl, mem_singleton] at hmem
    subst hmem
    obtain rfl := hfork.unique (.genesis hgen)
    exact ⟨W, by rw [Nat.sub_self]; rfl, hW, rfl, hfb⟩
  | @next B _ q coins block view out hbranch hacc ih =>
    by_cases heq : fork = q.next block.hash
    · -- at the fork there is nothing to do
      subst heq
      obtain rfl := hfork.unique (.next hbranch hacc)
      exact ⟨W, by rw [Nat.sub_self]; rfl, hW, rfl, hfb⟩
    · rw [branch_next] at hmem
      have hlower := mem_of_ne_of_mem heq hmem
      have hq : q ∈ pindexNew.branch := by
        refine mem_branch_trans hnew ?_
        rw [branch_next]
        exact mem_cons_of_mem _ q.self_mem_branch
      obtain ⟨W₁, hrun, hW₁, hbase₁, hbetween⟩ := ih hq hlower
      obtain ⟨W', hstep, hW', hbase', hredo⟩ := hacc.rollforward hbranch hW₁
      refine ⟨W', ?_, hW', hbase'.trans hbase₁, hbetween.redo hredo⟩
      -- the heights end with the height of this block
      have hle := nHeight_le_of_mem_branch hlower
      have hcount : (q.next block.hash).nHeight - fork.nHeight = (q.nHeight - fork.nHeight) + 1 :=
        Nat.succ_sub hle
      have hlast : fork.nHeight + 1 + (q.nHeight - fork.nHeight) = (q.next block.hash).nHeight := by
        change _ = q.nHeight + 1
        omega
      rw [hcount, range'_concat, Nat.one_mul, hlast, rollforward_append hrun, rollforward,
        getAncestor_self_iff.mpr hnew]
      exact bind_ok hstep rfl

end Branches

/-! ### The whole run -/

section Recovery

variable {env : Env} {p : Params} {tree : BlockTree} {pa pb tip : CBlockIndex}
  {a b : COutPoint → Option Coin}

/-- Two blocks of the tree have a last common ancestor, as both lines end in the genesis
block. -/
theorem exists_lastCommonAncestor (ha : tree.Branch env p pa a) (hb : tree.Branch env p pb b) :
    ∃ fork, lastCommonAncestor pa pb = some fork ∧ fork ∈ pa.branch ∧ fork ∈ pb.branch := by
  obtain ⟨qa, hqa⟩ : ∃ q, pa.getAncestor (min pa.nHeight pb.nHeight : Nat) = some q :=
    pa.exists_getAncestor (Int.natCast_nonneg _) (by omega)
  obtain ⟨qb, hqb⟩ : ∃ q, pb.getAncestor (min pa.nHeight pb.nHeight : Nat) = some q :=
    pb.exists_getAncestor (Int.natCast_nonneg _) (by omega)
  obtain ⟨hma, hha⟩ := getAncestor_eq_some_iff.mp hqa
  obtain ⟨hmb, hhb⟩ := getAncestor_eq_some_iff.mp hqb
  -- the genesis block stands at the same place in both lines
  have hlast : ∀ {q r : CBlockIndex} {c : COutPoint → Option Coin}, tree.Branch env p r c →
      q ∈ r.branch → q.branch[q.nHeight]? = some (.ofLine p.hashGenesisBlock []) := by
    intro q r c hr hq
    have hmem := mem_branch_of_le hq hr.genesis_mem (Nat.zero_le _)
    obtain ⟨i, hi⟩ := mem_iff_getElem?.mp hmem
    have hheight := nHeight_of_getElem?_branch hi
    have h0 : (ofLine p.hashGenesisBlock []).nHeight = 0 := rfl
    rw [h0, Nat.zero_add] at hheight
    rwa [← hheight]
  have hzip : (ofLine p.hashGenesisBlock [], ofLine p.hashGenesisBlock []) ∈
      qa.branch.zip qb.branch := by
    refine mem_of_getElem? (i := qa.nHeight) ?_
    rw [getElem?_zip_eq_some]
    refine ⟨hlast ha hma, ?_⟩
    have heq : qa.nHeight = qb.nHeight := by omega
    rw [heq]
    exact hlast hb hmb
  obtain ⟨q, hq⟩ := isSome_iff_exists.mp
    (find?_isSome.mpr ⟨_, hzip, beq_self_eq_true _⟩ :
      ((qa.branch.zip qb.branch).find? fun q => q.1 == q.2).isSome = true)
  have heq : q.1 = q.2 := by simpa using find?_some hq
  obtain ⟨h1, h2⟩ := of_mem_zip (mem_of_find?_eq_some hq)
  refine ⟨q.1, ?_, mem_branch_trans hma h1, mem_branch_trans hmb (heq ▸ h2)⟩
  simp only [lastCommonAncestor, hqa, hqb, bind_eq_bind, bind_some, hq, map_some]

/-- The tip that a flush left, with its coins: a block of the tree, or null at the first
flush. -/
inductive BlockTree.OldTip (env : Env) (p : Params) (tree : BlockTree) :
    BlockHash → (COutPoint → Option Coin) → Prop
  | first : OldTip env p tree 0 fun _ => none
  | block {tip : CBlockIndex} {coins : COutPoint → Option Coin} :
      tree.Branch env p tip coins → OldTip env p tree tip.hash coins

variable {hashOld : BlockHash} {db : CoinsStore}

/-- The databases that crashes of `ReplayBlocks` leave, after some of its batches. Settings,
iteration order and engine may change from start to start. -/
inductive Interrupted (p : Params) (tree : BlockTree) (db : CoinsStore) : CoinsStore → Prop
  | start : Interrupted p tree db db
  | crash {db' : CoinsStore} {fenv : FlushEnv} {g : Option CColdRewards} {suppress : Bool}
      {r : ReplayResult} (k : Nat) : Interrupted p tree db db' →
      replayBlocks fenv p tree db' g suppress = .ok r →
      Interrupted p tree db (db'.writeBatches (r.batches.take k))

/-- A database at the new tip is left alone. -/
theorem replayBlocks_flushed (h : Flushed tip.hash b db) (fenv : FlushEnv)
    (g : Option CColdRewards) (suppress : Bool) :
    replayBlocks fenv p tree db g suppress = .ok ⟨true, [], g⟩ := by
  unfold replayBlocks
  rw [h.headBlocks]

section

variable (hold : tree.OldTip env p hashOld a) (hnew : tree.Branch env p tip b)
  (hdb : Flushing tip.hash hashOld a b db)

include hold hnew hdb

/-- **Both branches.** From any state in the middle of the transition, the cache comes to
show the coins of the new tip. -/
theorem exists_replayed (g : Option CColdRewards) (suppress : Bool) :
    ∃ (W : CCoinsViewCache CoinsStore) (g' : Option CColdRewards), W.Wf ∧ W.base = db ∧
      W.lookup = b ∧ ∀ fenv, replayBlocks fenv p tree db g suppress =
        (db.batchWrite fenv W.cacheCoins tip.hash >>= fun batches => .ok ⟨true, batches, g'⟩) := by
  have hbase : ∀ o, ({ base := db } : CCoinsViewCache CoinsStore).lookup o = db.getCoin o :=
    fun o => lookup_of_uncached (by simp)
  have hstart := hdb.coins.congr hbase
  have hW : ({ base := db } : CCoinsViewCache CoinsStore).Wf := CCoinsViewCache.Wf.ofBase db 0
  -- what the rest of the function does once both loops have ended
  have hrest : ∀ {fork : Option (CBlockIndex × CBlockIndex)} {W₁ W₂ : CCoinsViewCache CoinsStore}
      {g₁ : Option CColdRewards}, replayFork tree hashOld tip = .ok (some fork) →
      rollback p tree suppress (fork.map (·.2)) ((fork.map (·.1.branch)).getD [])
        ({ base := db }, g) = .ok (some (W₁, g₁)) →
      rollforward tree tip (range' (((fork.map (·.2)).map (·.nHeight)).getD 0 + 1)
        (tip.nHeight - ((fork.map (·.2)).map (·.nHeight)).getD 0)) W₁ = .ok (some W₂) →
      W₂.base = db → ∀ fenv, replayBlocks fenv p tree db g suppress =
        (db.batchWrite fenv (W₂.setBestBlock tip.hash).cacheCoins tip.hash >>= fun batches =>
          .ok ⟨true, batches, g₁⟩) := by
    intro fork W₁ W₂ g₁ hfork hdown hup hb fenv
    unfold replayBlocks
    simp only [hdb.headBlocks, hnew.indexed, hfork, bind, Except.bind]
    unfold replayBranches
    simp only [hdown, hup, bind, Except.bind, setBestBlock, hb]
  cases hold with
  | first =>
    have hgen : tree.Branch env p (.ofLine p.hashGenesisBlock []) fun _ => none :=
      .genesis hnew.genesis_indexed
    obtain ⟨W', hup, hW', hbase', hbetween⟩ := rollforward_spec hnew tip.self_mem_branch hgen
      hnew.genesis_mem hW hstart
    have hfork : replayFork tree 0 tip = .ok (some none) := if_pos rfl
    exact ⟨W'.setBestBlock tip.hash, g, hW'.setBestBlock _, hbase', funext hbetween.eq,
      hrest hfork rfl hup hbase'⟩
  | block hold =>
    rename_i old
    obtain ⟨fork, hlca, hfold, hfnew⟩ := exists_lastCommonAncestor hold hnew
    obtain ⟨f, hfork⟩ := hold.exists_of_mem hfold
    obtain ⟨W₁, g₁, hdown, hW₁, hbase₁, hbetween₁⟩ := rollback_spec hold hfork hfold hW hstart g
      suppress
    obtain ⟨W', hup, hW', hbase', hbetween⟩ := rollforward_spec hnew tip.self_mem_branch hfork
      hfnew hW₁ hbetween₁
    have hfound : replayFork tree old.hash tip = .ok (some (some (old, fork))) := by
      unfold replayFork
      rw [if_neg hold.hash_ne_zero, hold.indexed]
      simp only [hlca]
    exact ⟨W'.setBestBlock tip.hash, g₁, hW'.setBestBlock _, hbase'.trans hbase₁,
      funext hbetween.eq, hrest hfound hdown hup (hbase'.trans hbase₁)⟩

/-- **One run of `ReplayBlocks`** in the middle of the transition. Every batch of its flush but the
last leaves the database there. -/
theorem replayBlocks_spec (fenv : FlushEnv) (g : Option CColdRewards) (suppress : Bool) :
    ∃ r, replayBlocks fenv p tree db g suppress = .ok r ∧ r.ok = true ∧
      (∀ k < r.batches.length, Flushing tip.hash hashOld a b (db.writeBatches (r.batches.take k))) ∧
      Flushed tip.hash b (db.writeBatches r.batches) := by
  obtain ⟨W, g', hW, rfl, rfl, hrun⟩ := exists_replayed hold hnew hdb g suppress
  have hprev : W.base.oldTip tip.hash = .ok hashOld := by
    unfold CoinsStore.oldTip
    rw [if_pos hdb.hashBestBlock, hdb.headBlocks]
    exact bind_ok (require_ok (beq_self_eq_true _)) rfl
  obtain ⟨batches, hbatches, hmid, hend⟩ := batchWrite_spec fenv hW hnew.hash_ne_zero hprev
  refine ⟨⟨true, batches, g'⟩, ?_, rfl, fun k hk => ?_, hend⟩
  · rw [hrun, hbatches]
    rfl
  · rcases Nat.eq_zero_or_pos k with rfl | hpos
    · exact hdb
    · have hcut := hmid k hpos hk
      exact ⟨hcut.hashBestBlock, hcut.headBlocks, hdb.coins.cut hcut.coins⟩

/-- **Crashes of `ReplayBlocks`** leave the transition unfinished or finished. -/
theorem Interrupted.cases {db' : CoinsStore} (h : Interrupted p tree db db') :
    Flushing tip.hash hashOld a b db' ∨ Flushed tip.hash b db' := by
  induction h with
  | start => exact .inl hdb
  | @crash db' fenv g suppress r k _ hrun ih =>
    rcases ih with hmid | hend
    · obtain ⟨r', hrun', -, hcut, hlast⟩ := replayBlocks_spec hold hnew hmid fenv g suppress
      cases hrun.symm.trans hrun'
      by_cases hk : k < r.batches.length
      · exact .inl (hcut k hk)
      · rw [take_of_length_le (Nat.le_of_not_lt hk)]
        exact .inr hlast
    · rw [replayBlocks_flushed hend] at hrun
      cases hrun
      rw [take_nil]
      exact .inr hend

end

/-- **Recovery.** A crash between two batches of the flush from `hashOld` to `tip` leaves every
outpoint with its old or its new coin. From each such database, and after any number of crashes in
its own flush, `ReplayBlocks` returns true and leaves the coins of the new tip, with that tip as the
best block. -/
theorem replayBlocks_recovers (hold : tree.OldTip env p hashOld a)
    (hnew : tree.Branch env p tip b) :
    (∀ (fenv : FlushEnv) (v : CCoinsViewCache CoinsStore), v.Wf → Flushed hashOld a v.base →
      v.lookup = b →
      ∃ batches, v.base.batchWrite fenv v.cacheCoins tip.hash = .ok batches ∧
        (∀ k, 0 < k → k < batches.length →
          Flushing tip.hash hashOld a b (v.base.writeBatches (batches.take k))) ∧
        Flushed tip.hash b (v.base.writeBatches batches)) ∧
    ∀ db, Flushing tip.hash hashOld a b db → ∀ db', Interrupted p tree db db' →
      ∀ fenv g suppress, ∃ r, replayBlocks fenv p tree db' g suppress = .ok r ∧ r.ok = true ∧
        Flushed tip.hash b (db'.writeBatches r.batches) := by
  refine ⟨fun fenv v hv hdb hb => ?_, fun db hdb db' hint fenv g suppress => ?_⟩
  · subst hb
    have hprev : v.base.oldTip tip.hash = .ok hashOld := by
      unfold CoinsStore.oldTip
      rw [hdb.headBlocks, hdb.hashBestBlock]
      split
      next h0 => exact congrArg Except.ok h0.symm
      · rfl
    obtain ⟨batches, hbatches, hmid, hend⟩ := batchWrite_spec fenv hv hnew.hash_ne_zero hprev
    rw [funext hdb.coins] at hmid
    exact ⟨batches, hbatches, hmid, hend⟩
  · rcases hint.cases hold hnew hdb with hmid | hend
    · obtain ⟨r, hrun, hok, -, hlast⟩ := replayBlocks_spec hold hnew hmid fenv g suppress
      exact ⟨r, hrun, hok, hlast⟩
    · exact ⟨_, replayBlocks_flushed hend fenv g suppress, rfl, hend⟩

end Recovery

/-! ### Two first blocks -/

namespace TwoTips

/-- The genesis block of the main network. -/
def genesisIndex : CBlockIndex := .ofLine mainParams.hashGenesisBlock []

/-- A first block that pays five hundred coins. -/
def tipBlock (n : Nat) : CBlock :=
  { hash := n
    hashPrevBlock := mainParams.hashGenesisBlock
    vtx := [coinbaseTx n [{ nValue := 500 * coin, scriptPubKey := [0x51] }]] }

/-- A tree with the blocks 1 and 2 on top of the genesis block. -/
def tree : BlockTree where
  mapBlockIndex hash :=
    if hash = mainParams.hashGenesisBlock then some genesisIndex
    else if hash = 1 ∨ hash = 2 then some (genesisIndex.next hash) else none
  readBlockFromDisk pindex := some (tipBlock pindex.hash)
  undoReadFromDisk _ := some []
  null := by decide

theorem exists_accepted {n : Nat} (hn : n = 1 ∨ n = 2) :
    ∃ out, Accepted Env.permissive mainParams tree genesisIndex (fun _ => none) (tipBlock n)
      (genesisView mainParams) out := by
  have hrun : ∀ m ∈ [1, 2], (connectBlock Env.permissive mainParams (tipBlock m)
      (genesisIndex.next m) (genesisView mainParams) none false false).2.toOption.map
        (·.vtxundo) = some [] := by decide +kernel
  have hindexed : ∀ m ∈ [1, 2], tree.mapBlockIndex m = some (genesisIndex.next m) := by decide
  have hbip : ∀ m ∈ [1, 2], enforceBIP30 mainParams (genesisIndex.next m) = true := by
    decide +kernel
  have hmem : n ∈ [1, 2] := by simpa using hn
  have hone := hrun n hmem
  rcases hconn : connectBlock Env.permissive mainParams (tipBlock n) (genesisIndex.next n)
      (genesisView mainParams) none false false with ⟨g', _ | out⟩
  · rw [hconn] at hone
    exact absurd hone (by simp [Except.toOption])
  · rw [hconn] at hone
    have hundo : out.vtxundo = [] := by simpa [Except.toOption] using hone
    refine ⟨out, hindexed n hmem, rfl, congrArg some hundo.symm, CCoinsViewCache.Wf.ofBase _ _,
      fun o => ?_, ⟨none, false, g', hconn⟩, fun hoff => ?_⟩
    · rw [lookup_of_uncached (by simp [genesisView])]
      simp [getCoin_utxoSet, genesisView, UtxoSet.empty]
    · cases (hbip n hmem).symm.trans hoff

theorem genesis_branch :
    tree.Branch Env.permissive mainParams genesisIndex fun _ => none := .genesis (by decide)

/-- The coin of a first block is at an outpoint of its own. -/
theorem lookup_eq_none {n : Nat} {out : ConnectOutput UtxoSet}
    (h : Accepted Env.permissive mainParams tree genesisIndex (fun _ => none) (tipBlock n)
      (genesisView mainParams) out) {o : COutPoint} (ho : o.txid ≠ n) :
    out.view.lookup o = none := by
  have hnone :
      createdBy (tipBlock n).vtx (genesisIndex.next (tipBlock n).hash).nHeight o = none := by
    have hid : ¬o.txid = (coinbaseTx n [{ nValue := 500 * coin, scriptPubKey := [0x51] }]).getId :=
      ho
    rw [tipBlock, createdBy_cons, CTransaction.createdCoin, if_neg hid]
    rfl
  rw [h.lookup genesis_branch, hnone]
  split <;> rfl

/-- A database from which the coin of block 1 is gone, and in which that of block 2 is not yet.
It is brought to block 2. -/
theorem replayBlocks_recovers_fork :
    ∃ a b, tree.OldTip Env.permissive mainParams 1 a ∧
      tree.Branch Env.permissive mainParams (genesisIndex.next 2) b ∧
      ∃ db, Flushing 2 1 a b db ∧ ∀ fenv g suppress,
        ∃ r, replayBlocks fenv mainParams tree db g suppress = .ok r ∧ r.ok = true ∧
          Flushed 2 b (db.writeBatches r.batches) := by
  obtain ⟨outA, hA⟩ := exists_accepted (.inl rfl)
  obtain ⟨outB, hB⟩ := exists_accepted (.inr rfl)
  have hold : tree.OldTip Env.permissive mainParams 1 outA.view.lookup :=
    .block (.next genesis_branch hA)
  have hnew : tree.Branch Env.permissive mainParams (genesisIndex.next 2) outB.view.lookup :=
    .next genesis_branch hB
  have hdb : Flushing 2 1 outA.view.lookup outB.view.lookup
      { toCCoinsViewDB := CCoinsViewDB.empty 0, headBlocks := [2, 1] } := by
    refine ⟨rfl, rfl, fun o => ?_⟩
    have hempty : CoinsStore.getCoin
        { toCCoinsViewDB := CCoinsViewDB.empty 0, headBlocks := [2, 1] } o = none := by
      simp [CoinsStore.getCoin, CCoinsViewDB.empty]
    rw [hempty]
    by_cases ho : o.txid = 1
    · exact .inr (lookup_eq_none hB (by rw [ho]; decide)).symm
    · exact .inl (lookup_eq_none hA ho).symm
  exact ⟨_, _, hold, hnew, _, hdb, (replayBlocks_recovers hold hnew).2 _ hdb _ .start⟩

end TwoTips

end DeVault
