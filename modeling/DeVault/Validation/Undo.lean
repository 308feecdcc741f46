import DeVault.Validation.BlockEffect

/-!
# Disconnecting a block (`ApplyBlockUndo`, `validation.cpp`)

`applyBlockUndo` puts the spent coins back from the undo data and then spends
every output the block created, comparing each with the transaction in the
block. It reports `unclean` when something did not match: the output is compared unrounded with a
coin whose value was rounded up.

The view it is given need not be the one `ConnectBlock` worked on: in the node
the coins have been flushed in between. So the results are about any view with
right flags that shows the coins the block left.
-/

namespace DeVault

open List hiding lookup
open Outcome CCoinsViewCache

/-- `DisconnectResult`. -/
inductive DisconnectResult where
  | ok
  | unclean
  | failed
  deriving DecidableEq, Repr

/-- `MAX_OUTPUTS_PER_TX`: an empty output takes nine bytes. -/
def maxOutputsPerTx : Nat := maxTxSize / 9

variable {f : COutPoint → Coin} {vtx : List CTransaction} {nHeight : Nat} {res : DisconnectResult}

section Undo

variable {B : Type} [CCoinsView B]

/-- `AccessByTxid`, from the list of indices still to try. -/
def accessByTxid (view : CCoinsViewCache B) (txid : TxId) :
    List Nat → CCoinsViewCache B × Coin
  | [] => (view, Coin.empty)
  | n :: rest =>
    let (view, alternate) := view.accessCoin ⟨txid, n⟩
    if !alternate.isSpent then (view, alternate) else accessByTxid view txid rest

/-- The end of `UndoCoinSpend`: put the coin back. -/
def restoreCoin (view : CCoinsViewCache B) (out : COutPoint) (undo : Coin) (fClean : Bool) :
    Except Fault (CCoinsViewCache B × DisconnectResult) := do
  let view ← view.addCoin out undo (!fClean)
  .ok (view, if fClean then .ok else .unclean)

/-- `UndoCoinSpend`. -/
def undoCoinSpend (undo : Coin) (view : CCoinsViewCache B) (out : COutPoint) :
    Except Fault (CCoinsViewCache B × DisconnectResult) :=
  let (view, overwriting) := view.haveCoin out
  if undo.nHeight = 0 then
    -- undo data of old versions: the height stands with another output
    let (view, alternate) := accessByTxid view out.txid (range maxOutputsPerTx)
    if alternate.isSpent then
      .ok (view, .failed)
    else
      restoreCoin view out ⟨undo.out, alternate.nHeight, alternate.fCoinBase⟩ (!overwriting)
  else
    restoreCoin view out undo (!overwriting)

/-- Restoring the inputs of one transaction. -/
def undoInputs (view : CCoinsViewCache B) (fClean : Bool) :
    List (COutPoint × Coin) → Except Fault (CCoinsViewCache B × DisconnectResult)
  | [] => .ok (view, if fClean then .ok else .unclean)
  | (out, undo) :: rest => do
    let (view, res) ← undoCoinSpend undo view out
    if res = .failed then .ok (view, .failed)
    else undoInputs view (fClean && decide (res ≠ .unclean)) rest

/-- The first loop of `ApplyBlockUndo`, over the transactions and their undo data. -/
def undoTransactions (view : CCoinsViewCache B) (fClean : Bool) :
    List CTransaction → List (List Coin) → Except Fault (CCoinsViewCache B × DisconnectResult)
  | tx :: vtx, txundo :: vtxundo =>
    if txundo.length ≠ tx.vin.length then
      .ok (view, .failed)
    else do
      let (view, res) ← undoInputs view fClean (tx.prevouts.zip txundo)
      if res = .failed then .ok (view, .failed)
      else undoTransactions view (decide (res = .ok)) vtx vtxundo
  | _, _ => .ok (view, if fClean then .ok else .unclean)

/-- The outputs of a block, each with its transaction and index. -/
def CBlock.outputs (block : CBlock) : List (CTransaction × CTxOut × Nat) :=
  block.vtx.flatMap fun tx => tx.vout.zipIdx.map fun o => (tx, o)

/-- The body of the second loop: spend a created output and compare. -/
def revertOutput (nHeight : Nat) (s : CCoinsViewCache B × Bool)
    (output : CTransaction × CTxOut × Nat) : CCoinsViewCache B × Bool :=
  let (tx, txout, o) := output
  if isUnspendable txout.scriptPubKey then
    s
  else
    match s.1.spendCoin (tx.outPoint o) with
    | (view, none) => (view, false)
    | (view, some coin) =>
      (view, s.2 && (decide (txout = coin.out) && nHeight == coin.nHeight &&
        tx.isCoinBase == coin.fCoinBase))

/-- The engine part of `ApplyBlockUndo`. -/
def undoColdRewards (p : Params) (block : CBlock) (nHeight : Nat) (r : CColdRewards) :
    CColdRewards :=
  (r.undoBlock p block nHeight true).setBestBlock block.hashPrevBlock

/-- `ApplyBlockUndo`. -/
def applyBlockUndo (p : Params) (vtxundo : List (List Coin)) (block : CBlock)
    (pindex : CBlockIndex) (view : CCoinsViewCache B) (g : Option CColdRewards) (suppress : Bool) :
    Except Fault (CCoinsViewCache B × Option CColdRewards × DisconnectResult) :=
  if vtxundo.length + 1 ≠ block.vtx.length then
    .ok (view, g, .failed)
  else do
    let (view, res) ← undoTransactions view true block.vtx.tail vtxundo
    if res = .failed then
      .ok (view, g, .failed)
    else
      let (view, fClean) :=
        block.outputs.foldl (revertOutput pindex.nHeight) (view, decide (res = .ok))
      let g := if suppress then g else g.map (undoColdRewards p block pindex.nHeight)
      .ok (view.setBestBlock block.hashPrevBlock, g, if fClean then .ok else .unclean)

/-! ### Restoring the inputs -/

variable {v v' : CCoinsViewCache B}

/-- A coin whose undo record is complete and which `AddCoin` takes. -/
structure Restorable (c : Coin) : Prop where
  height_pos : 0 < c.nHeight
  unspent : c.isSpent = false
  spendable : isUnspendable c.out.scriptPubKey = false

/-- The spent coins `f` of some outpoints lie over the view again. -/
structure Restores (f : COutPoint → Coin) (os : List COutPoint) (v v' : CCoinsViewCache B) :
    Prop where
  wf : v'.Wf
  base_eq : v'.base = v.base
  lookup_eq : ∀ o, v'.lookup o = if o ∈ os then some (f o) else v.lookup o

theorem Restores.nil (hw : v.Wf) : Restores f [] v v :=
  ⟨hw, rfl, fun _ => (if_neg not_mem_nil).symm⟩

theorem Restores.trans {os os' : List COutPoint} {v'' : CCoinsViewCache B}
    (h : Restores f os v v') (h' : Restores f os' v' v'') : Restores f (os ++ os') v v'' := by
  refine ⟨h'.wf, h'.base_eq.trans h.base_eq, fun o => ?_⟩
  rw [h'.lookup_eq, h.lookup_eq]
  by_cases h1 : o ∈ os <;> by_cases h2 : o ∈ os' <;> simp [h1, h2]

/-- Restoring a coin works on every view with right flags, and is clean where there is none. -/
theorem undoCoinSpend_spec {out : COutPoint} (hr : Restorable (f out)) (hw : v.Wf) :
    ∃ v', undoCoinSpend (f out) v out =
        .ok (v', if (v.lookup out).isSome then .unclean else .ok) ∧ Restores f [out] v v' := by
  have hne : (f out).nHeight ≠ 0 := Nat.pos_iff_ne_zero.mp hr.height_pos
  obtain ⟨w, hadd, hww, hbase, hlook⟩ :=
    exists_addCoin_checked hw out hr.unspent
  refine ⟨w, ?_, hww, hbase, fun o => ?_⟩
  · simp only [undoCoinSpend, haveCoin_snd, haveCoin_fst, hne,
      if_false, restoreCoin, Bool.not_not, hadd, bind, Except.bind]
    cases (v.lookup out).isSome <;> rfl
  · rw [hlook]
    by_cases ho : out = o
    · subst ho
      simp [hr.spendable]
    · simp [ho, Ne.symm ho]

/-- Restoring the inputs of a transaction. It is clean if they are distinct and none is
there. -/
theorem undoInputs_spec {os : List COutPoint}
    (hos : ∀ o ∈ os, Restorable (f o)) (hw : v.Wf) (fClean : Bool) :
    ∃ v' clean, undoInputs v fClean (os.zip (os.map f)) =
        .ok (v', if clean then .ok else .unclean) ∧ Restores f os v v' ∧
      (os.Nodup → (∀ o ∈ os, v.lookup o = none) → clean = fClean) := by
  induction os generalizing v fClean with
  | nil => exact ⟨v, fClean, rfl, .nil hw, fun _ _ => rfl⟩
  | cons a os ih =>
    rw [forall_mem_cons] at hos
    obtain ⟨w, hstep, hone⟩ := undoCoinSpend_spec hos.1 hw
    obtain ⟨v', clean, hrun, hrest, hclean⟩ := ih hos.2 hone.wf
      (fClean &&
        decide ((if (v.lookup a).isSome then DisconnectResult.unclean else .ok) ≠ .unclean))
    refine ⟨v', clean, ?_, hone.trans hrest, fun hnd hnone => ?_⟩
    · rw [map_cons, zip_cons_cons, undoInputs]
      refine bind_ok hstep ?_
      simp only
      rw [if_neg (by split <;> decide)]
      exact hrun
    · rw [nodup_cons] at hnd
      rw [forall_mem_cons] at hnone
      rw [hclean hnd.2 fun o ho => ?_, hnone.1]
      · simp
      · have hao : o ∉ [a] := by
          rw [mem_singleton]
          rintro rfl
          exact hnd.1 ho
        rw [hone.lookup_eq, if_neg hao]
        exact hnone.2 o ho

theorem undoTransactions_spec
    (hreg : ∀ tx ∈ vtx, tx.isCoinBase = false) (hos : ∀ o ∈ spentBy vtx, Restorable (f o))
    (hw : v.Wf) (fClean : Bool) :
    ∃ v' clean, undoTransactions v fClean vtx (vtx.map fun tx => tx.prevouts.map f) =
        .ok (v', if clean then .ok else .unclean) ∧ Restores f (spentBy vtx) v v' ∧
      ((spentBy vtx).Nodup → (∀ o ∈ spentBy vtx, v.lookup o = none) → clean = fClean) := by
  induction vtx generalizing v fClean with
  | nil => exact ⟨v, fClean, rfl, .nil hw, fun _ _ => rfl⟩
  | cons tx vtx ih =>
    rw [forall_mem_cons] at hreg
    rw [spentBy_cons_regular hreg.1] at hos ⊢
    obtain ⟨w, clean₁, hstep, hone, hclean₁⟩ := undoInputs_spec
      (fun o ho => hos o (mem_append_left _ ho)) hw fClean
    obtain ⟨v', clean, hrun, hrest, hclean⟩ := ih hreg.2
      (fun o ho => hos o (mem_append_right _ ho)) hone.wf clean₁
    have hlen : (tx.prevouts.map f).length = tx.vin.length := by
      simp [CTransaction.prevouts]
    refine ⟨v', clean, ?_, hone.trans hrest, fun hnd hnone => ?_⟩
    · rw [map_cons, undoTransactions, if_neg (by simp [hlen])]
      refine bind_ok hstep ?_
      cases clean₁ <;> simpa using hrun
    · obtain ⟨hnd1, hnd2, hdisj⟩ := nodup_append'.mp hnd
      rw [hclean hnd2 fun o ho => ?_, hclean₁ hnd1 fun o ho => hnone o (mem_append_left _ ho)]
      rw [hone.lookup_eq, if_neg fun ho' => hdisj ho' ho]
      exact hnone o (mem_append_right _ ho)

/-! ### Reverting the outputs -/

/-- The outputs of the block that are compared. -/
def spendableOutpoints (outputs : List (CTransaction × CTxOut × Nat)) : List COutPoint :=
  (outputs.filter fun x => !isUnspendable x.2.1.scriptPubKey).map fun x => x.1.outPoint x.2.2

theorem spendableOutpoints_outputs (block : CBlock) :
    spendableOutpoints block.outputs = createdOutpoints block.vtx := by
  unfold spendableOutpoints CBlock.outputs createdOutpoints
  rw [filter_flatMap, map_flatMap]
  refine flatMap_congr fun tx _ => ?_
  rw [filter_map, map_map]
  rfl

/-- On the coins, the second loop spends the created outpoints. -/
theorem foldl_revertOutput_fst (nHeight : Nat) (outputs : List (CTransaction × CTxOut × Nat))
    (s : CCoinsViewCache B × Bool) :
    (outputs.foldl (revertOutput nHeight) s).1 = s.1.spendAll (spendableOutpoints outputs) := by
  induction outputs generalizing s with
  | nil => rfl
  | cons x outputs ih =>
    obtain ⟨tx, txout, o⟩ := x
    rw [foldl_cons, ih, spendableOutpoints, spendableOutpoints]
    cases hu : isUnspendable txout.scriptPubKey with
    | true => simp [revertOutput, hu]
    | false =>
      rw [filter_cons_of_pos (by simp [hu]), map_cons, spendAll_cons]
      congr 1
      simp only [revertOutput, hu, Bool.false_eq_true, if_false]
      rcases s.1.spendCoin (tx.outPoint o) with ⟨w, _ | c⟩ <;> rfl

/-- Every spendable output is a whole number of spocks. -/
def OutputsAligned (vtx : List CTransaction) : Prop :=
  ∀ tx ∈ vtx, ∀ txout ∈ tx.vout, isUnspendable txout.scriptPubKey = false →
    SpockAligned txout.nValue

theorem mem_outputs_iff {block : CBlock} {tx : CTransaction} {txout : CTxOut} {o : Nat} :
    (tx, txout, o) ∈ block.outputs ↔ tx ∈ block.vtx ∧ (txout, o) ∈ tx.vout.zipIdx := by
  simp [CBlock.outputs]

theorem outputsAligned_iff {block : CBlock} :
    OutputsAligned block.vtx ↔ ∀ x ∈ block.outputs, isUnspendable x.2.1.scriptPubKey = false →
      SpockAligned x.2.1.nValue := by
  refine ⟨?_, fun h tx htx txout hout hu => ?_⟩
  · rintro h ⟨tx, txout, o⟩ hx hu
    obtain ⟨htx, hq⟩ := mem_outputs_iff.mp hx
    exact h tx htx txout (fst_mem_of_mem_zipIdx hq) hu
  · obtain ⟨o, ho⟩ := mem_iff_getElem?.mp hout
    exact h (tx, txout, o) (mem_outputs_iff.mpr ⟨htx, mem_zipIdx_iff_getElem?.mpr ho⟩) hu

/-- One output, where the view has its coin: the comparison succeeds if rounding did not change the
value. -/
theorem revertOutput_snd {s : CCoinsViewCache B × Bool} {tx : CTransaction}
    {txout : CTxOut} {o : Nat} (hu : isUnspendable txout.scriptPubKey = false)
    (hl : s.1.lookup (tx.outPoint o) = some ⟨txout.quantized, nHeight, tx.isCoinBase⟩) :
    (revertOutput nHeight s (tx, txout, o)).2 = true ↔
      s.2 = true ∧ SpockAligned txout.nValue := by
  have hsp := spendCoin_snd_of_lookup hl
  simp only [revertOutput, hu, Bool.false_eq_true, if_false]
  rcases hres : s.1.spendCoin (tx.outPoint o) with ⟨w, r⟩
  rw [hres] at hsp
  subst hsp
  have hq : txout = txout.quantized ↔ SpockAligned txout.nValue := by
    rw [← spockQuantize_eq_self_iff]
    refine ⟨fun h => (congrArg CTxOut.nValue h).symm, fun h => ?_⟩
    rw [CTxOut.quantized, h]
  simp [hq]

/-- The verdict of the second loop, where the view has all created coins. -/
theorem foldl_revertOutput_snd {outputs : List (CTransaction × CTxOut × Nat)}
    (hnd : (spendableOutpoints outputs).Nodup) {s : CCoinsViewCache B × Bool}
    (hl : ∀ x ∈ outputs, isUnspendable x.2.1.scriptPubKey = false →
      s.1.lookup (x.1.outPoint x.2.2) = some ⟨x.2.1.quantized, nHeight, x.1.isCoinBase⟩) :
    (outputs.foldl (revertOutput nHeight) s).2 = true ↔
      s.2 = true ∧ ∀ x ∈ outputs, isUnspendable x.2.1.scriptPubKey = false →
        SpockAligned x.2.1.nValue := by
  induction outputs generalizing s with
  | nil => simp
  | cons x outputs ih =>
    obtain ⟨tx, txout, o⟩ := x
    rw [forall_mem_cons] at hl
    rw [foldl_cons, forall_mem_cons]
    cases hu : isUnspendable txout.scriptPubKey with
    | true =>
      have hskip : revertOutput nHeight s (tx, txout, o) = s := by simp [revertOutput, hu]
      rw [spendableOutpoints, filter_cons_of_neg (by simp [hu])] at hnd
      rw [hskip, ih hnd hl.2]
      simp
    | false =>
      rw [spendableOutpoints, filter_cons_of_pos (by simp [hu]), map_cons, nodup_cons] at hnd
      have hview : (revertOutput nHeight s (tx, txout, o)).1 = (s.1.spendCoin (tx.outPoint o)).1 :=
        foldl_revertOutput_fst nHeight [(tx, txout, o)] s |>.trans (by
          simp [spendableOutpoints, hu, spendAll_cons])
      rw [ih hnd.2, revertOutput_snd hu (hl.1 hu), and_assoc]
      · simp
      · intro y hy huy
        rw [hview, lookup_congr (find_spendCoin_of_ne ?_)]
        · exact hl.2 y hy huy
        · intro heq
          refine hnd.1 ?_
          rw [heq]
          exact mem_map.mpr ⟨y, mem_filter.mpr ⟨hy, by simp [huy]⟩, rfl⟩

/-! ### The whole run -/

theorem nHeight_of_createdBy {o : COutPoint} {c : Coin}
    (h : createdBy vtx nHeight o = some c) : c.nHeight = nHeight := by
  obtain ⟨tx, -, hc⟩ := exists_of_findSome?_eq_some h
  obtain ⟨out, -, -, -, rfl⟩ := CTransaction.createdCoin_eq_some_iff.mp hc
  rfl

/-- The undo data of an accepted block are those of its regular transactions. -/
theorem undoData_eq (hshape : BlockShape vtx) (v : CCoinsViewCache B) :
    undoData v vtx = vtx.tail.map (fun tx => tx.prevouts.map v.peek) ∧
      spentBy vtx = spentBy vtx.tail := by
  obtain ⟨coinbase, rest, rfl⟩ := exists_cons_of_ne_nil hshape.ne_nil
  have hcb : coinbase.isCoinBase = true := hshape.head_coinbase coinbase rfl
  rw [tail_cons, undoData, filter_cons_of_neg (by simp [hcb]), filter_eq_self.mpr]
  · exact ⟨rfl, spentBy_cons_coinbase hcb⟩
  · intro tx htx
    simp [hshape.tail_regular tx htx]

section Run

variable {p : Params} {block : CBlock} {pindex : CBlockIndex} {v₂ : CCoinsViewCache B}
  {s : ConnectState B}

section

variable {C : Type} [CCoinsView C] {W : CCoinsViewCache C}
  (hshape : BlockShape block.vtx) (hspec : TransactionsSpec pindex block.vtx v v₂ s)
  (hheight : 0 < pindex.nHeight) (hcoins : ∀ o c, v.lookup o = some c → 0 < c.nHeight)
  (hW : W.Wf) (g : Option CColdRewards) (suppress : Bool)

include hspec hheight hcoins

/-- Every coin a block spends can be restored: it is spendable, and its height
is that of the block or of an older coin. -/
theorem restorable_of_spent {o : COutPoint} (ho : o ∈ spentBy block.vtx) :
    Restorable (v₂.peek o) := by
  have hsp : Spendable v₂ pindex.nHeight o := hspec.loop.spendable o ho
  have hl := hsp.lookup
  refine ⟨?_, hsp.unspent, hsp.spendable⟩
  rw [hspec.created, Option.or_eq_some_iff] at hl
  rcases hl with hc | ⟨-, hold⟩
  · rw [nHeight_of_createdBy hc]
    exact hheight
  · exact hcoins o _ hold

include hshape hW

/-- **The run of `ApplyBlockUndo`** with the undo data of a connected block, on any view with right
flags: inputs are restored, then outputs reverted. -/
theorem applyBlockUndo_run :
    ∃ W₁ clean r, Restores v₂.peek (spentBy block.vtx) W W₁ ∧
      ((∀ o ∈ spentBy block.vtx, W.lookup o = none) → clean = true) ∧
      block.outputs.foldl (revertOutput pindex.nHeight) (W₁, clean) = r ∧
      applyBlockUndo p s.vtxundo block pindex W g suppress =
        .ok (r.1.setBestBlock block.hashPrevBlock,
          if suppress then g else g.map (undoColdRewards p block pindex.nHeight),
          if r.2 then .ok else .unclean) := by
  obtain ⟨hundo, hspent⟩ := undoData_eq hshape v₂
  have hvtxundo : s.vtxundo = block.vtx.tail.map fun tx => tx.prevouts.map v₂.peek := by
    rw [hspec.loop.vtxundo_eq, nil_append, hundo]
  have hlen : s.vtxundo.length + 1 = block.vtx.length := by
    rw [hvtxundo, length_map, length_tail]
    have := length_pos_iff.mpr hshape.ne_nil
    omega
  obtain ⟨W₁, clean, hrun, hrest, hclean⟩ := undoTransactions_spec (v := W) (f := v₂.peek)
    hshape.tail_regular (fun o ho => by
      rw [← hspent] at ho
      exact restorable_of_spent hspec hheight hcoins ho) hW true
  rw [← hspent] at hrest hclean
  refine ⟨W₁, clean, _, hrest, hclean hspec.loop.nodup, rfl, ?_⟩
  unfold applyBlockUndo
  rw [if_neg (by omega), hvtxundo]
  refine bind_ok hrun ?_
  cases clean <;> simp

/-- **Undoing a block on any view**, whatever part of it the view shows: its outputs are gone, and
every other coin that it spent is back. -/
theorem applyBlockUndo_settles :
    ∃ W' g' res, applyBlockUndo p s.vtxundo block pindex W g suppress = .ok (W', g', res) ∧
      res ≠ .failed ∧ W'.Wf ∧ W'.base = W.base ∧
      ∀ o, W'.lookup o = if o ∈ createdOutpoints block.vtx then none
        else if o ∈ spentBy block.vtx then some (v₂.peek o) else W.lookup o := by
  obtain ⟨W₁, clean, r, hrest, -, hfold, happ⟩ :=
    applyBlockUndo_run (p := p) hshape hspec hheight hcoins hW g suppress
  have hview := foldl_revertOutput_fst pindex.nHeight block.outputs (W₁, clean)
  rw [spendableOutpoints_outputs, hfold] at hview
  refine ⟨_, _, _, happ, by split <;> decide, ?_, ?_, fun o => ?_⟩
  · rw [hview]
    exact (hrest.wf.spendAll _).setBestBlock _
  · rw [hview]
    exact base_spendAll.trans hrest.base_eq
  · rw [lookup_setBestBlock, hview, lookup_spendAll hrest.wf, hrest.lookup_eq]

/-- **Undoing a block that overwrote nothing.** From any view that shows the coins the block left,
the coins before it are back; the verdict depends only on whether its outputs are aligned. -/
theorem applyBlockUndo_spec (hnew : NoOverwrite v block.vtx pindex.nHeight)
    (hWl : ∀ o, W.lookup o = s.view.lookup o) :
    ∃ W' res, applyBlockUndo p s.vtxundo block pindex W g suppress =
        .ok (W', if suppress then g else g.map (undoColdRewards p block pindex.nHeight), res) ∧
      (res = .ok ↔ OutputsAligned block.vtx) ∧ ∀ o, W'.lookup o = v.lookup o := by
  obtain ⟨W₁, clean, r, hrest, hclean, hfold, happ⟩ :=
    applyBlockUndo_run (p := p) hshape hspec hheight hcoins hW g suppress
  obtain rfl := hclean fun o ho => by rw [hWl, hspec.loop.lookup_eq, if_pos ho]
  -- after the first loop the view shows what it did between the loops of `ConnectBlock`
  have hl₂ : ∀ o, W₁.lookup o = v₂.lookup o := by
    intro o
    rw [hrest.lookup_eq, hWl, hspec.loop.lookup_eq]
    split
    next ho => rw [(hspec.loop.spendable o ho).lookup]
    · rfl
  -- second loop: every created coin is found and spent
  have hcreated : ∀ x ∈ block.outputs, isUnspendable x.2.1.scriptPubKey = false →
      W₁.lookup (x.1.outPoint x.2.2) = some ⟨x.2.1.quantized, pindex.nHeight, x.1.isCoinBase⟩ := by
    rintro ⟨tx, txout, o⟩ hx hu
    obtain ⟨htx, hq⟩ := mem_outputs_iff.mp hx
    have hc : tx.createdCoin pindex.nHeight (tx.outPoint o) = some _ :=
      CTransaction.createdCoin_eq_some_iff.mpr ⟨txout, hq, rfl, hu, rfl⟩
    rw [hl₂, hspec.created, hspec.unique tx htx _ _ hc, Option.some_or]
  have hnd : (spendableOutpoints block.outputs).Nodup := by
    rw [spendableOutpoints_outputs]
    exact hspec.nodup_created
  have hflag := foldl_revertOutput_snd hnd (s := (W₁, true)) hcreated
  have hview := foldl_revertOutput_fst pindex.nHeight block.outputs (W₁, true)
  rw [spendableOutpoints_outputs, hfold] at hview
  rw [← outputsAligned_iff, hfold] at hflag
  refine ⟨_, _, happ, ?_, fun o => ?_⟩
  · simp only [true_and] at hflag
    rw [← hflag]
    cases r.2 <;> simp
  · rw [lookup_setBestBlock, hview, lookup_spendAll hrest.wf, hl₂]
    split
    next ho => exact (hnew o (mem_createdOutpoints_iff.mp ho)).symm
    next ho =>
      have hnone : createdBy block.vtx pindex.nHeight o = none := by
        by_contra hne
        exact ho (mem_createdOutpoints_iff.mpr (Option.isSome_iff_ne_none.mpr hne))
      rw [hspec.created, hnone, Option.none_or]

end

/-! ### Right flags, whatever is undone -/

theorem reads_accessByTxid (view : CCoinsViewCache B) (txid : TxId) (ns : List Nat) :
    CCoinsViewCache.Reads view (accessByTxid view txid ns).1 := by
  induction ns generalizing view with
  | nil => exact .refl
  | cons n ns ih =>
    have hfetch : CCoinsViewCache.Reads view (view.accessCoin ⟨txid, n⟩).1 := .fetch _ .refl
    simp only [accessByTxid]
    split
    · exact hfetch
    · exact hfetch.trans (ih _)

theorem wf_undoCoinSpend {undo : Coin} {out : COutPoint} (hw : v.Wf)
    (h : undoCoinSpend undo v out = .ok (v', res)) : v'.Wf := by
  -- the overwrite flag says whether the view has a coin, and reads do not change that
  have hrestore : ∀ {w : CCoinsViewCache B} {c : Coin}, CCoinsViewCache.Reads v w →
      restoreCoin w out c (!(v.lookup out).isSome) = .ok (v', res) → v'.Wf := by
    intro w c hreads hres
    obtain ⟨w', hadd, hres⟩ := bind_ok_iff.mp hres
    cases hres
    refine (hreads.wf hw).addCoin hadd ?_
    rw [hreads.lookup_eq]
    cases v.lookup out <;> simp
  have hfetch : CCoinsViewCache.Reads v (v.haveCoin out).1 := .fetch _ .refl
  simp only [undoCoinSpend, haveCoin_snd] at h
  split at h
  · have hacc := hfetch.trans
      (reads_accessByTxid (v.haveCoin out).1 out.txid (range maxOutputsPerTx))
    split at h
    · obtain ⟨rfl, -⟩ := Prod.mk.inj (Except.ok.inj h)
      exact hacc.wf hw
    · exact hrestore hacc h
  · exact hrestore hfetch h

/-- **Invariant rule of the loop over the inputs**: what every restored coin keeps. -/
theorem undoInputs_induct {P : CCoinsViewCache B → Prop} {l : List (COutPoint × Coin)}
    {fClean : Bool} (hstep : ∀ a ∈ l, ∀ {v v' : CCoinsViewCache B} {res : DisconnectResult}, P v →
      undoCoinSpend a.2 v a.1 = .ok (v', res) → P v')
    (hv : P v) (h : undoInputs v fClean l = .ok (v', res)) : P v' := by
  induction l generalizing v fClean with
  | nil =>
    cases h
    exact hv
  | cons a l ih =>
    rw [undoInputs] at h
    obtain ⟨⟨w, r⟩, hspend, hrest⟩ := bind_ok_iff.mp h
    have hw := hstep a mem_cons_self hv hspend
    simp only at hrest
    split at hrest
    · cases hrest
      exact hw
    · exact ih (fun b hb => hstep b (mem_cons_of_mem a hb)) hw hrest

theorem undoTransactions_induct {P : CCoinsViewCache B → Prop}
    {vtxundo : List (List Coin)} {fClean : Bool}
    (hstep : ∀ txundo ∈ vtxundo, ∀ c ∈ txundo, ∀ {v v' : CCoinsViewCache B} {out : COutPoint}
      {res : DisconnectResult}, P v → undoCoinSpend c v out = .ok (v', res) → P v')
    (hv : P v) (h : undoTransactions v fClean vtx vtxundo = .ok (v', res)) : P v' := by
  induction vtx generalizing v fClean vtxundo with
  | nil =>
    cases h
    exact hv
  | cons tx vtx ih =>
    cases vtxundo with
    | nil =>
      cases h
      exact hv
    | cons txundo vtxundo =>
      rw [undoTransactions] at h
      split at h
      · cases h
        exact hv
      obtain ⟨⟨w, r⟩, hinputs, hrest⟩ := bind_ok_iff.mp h
      have hw : P w := undoInputs_induct (fun a ha =>
        hstep txundo mem_cons_self a.2 (of_mem_zip ha).2) hv hinputs
      simp only at hrest
      split at hrest
      · cases hrest
        exact hw
      · exact ih (fun l hl => hstep l (mem_cons_of_mem txundo hl)) hw hrest

/-- After an undo that went through, none of the outputs of the block is left. -/
theorem lookup_created_of_applyBlockUndo {vtxundo : List (List Coin)} {g g' : Option CColdRewards}
    {suppress : Bool} {W' : CCoinsViewCache B} (hW : W.Wf)
    (h : applyBlockUndo p vtxundo block pindex W g suppress = .ok (W', g', .ok)) :
    ∀ o ∈ createdOutpoints block.vtx, W'.lookup o = none := by
  unfold applyBlockUndo at h
  split at h
  · cases h
  obtain ⟨⟨W₁, r⟩, hrun, hrest⟩ := bind_ok_iff.mp h
  have hW₁ : W₁.Wf := undoTransactions_induct (fun _ _ _ _ => wf_undoCoinSpend) hW hrun
  simp only at hrest
  split at hrest
  · cases hrest
  obtain ⟨rfl, -⟩ := Prod.mk.inj (Except.ok.inj hrest)
  intro o ho
  rw [lookup_setBestBlock, foldl_revertOutput_fst, spendableOutpoints_outputs,
    lookup_spendAll hW₁, if_pos ho]

end Run

end Undo

/-! ### Connecting and disconnecting -/

section Restores

variable {env : Env} {p : Params} {block : CBlock} {pindex : CBlockIndex}
  {view : CCoinsViewCache UtxoSet} {g g' : Option CColdRewards} {suppress fJustCheck : Bool}
  {out : ConnectOutput UtxoSet}

/-- Disconnecting a connected block brings the coins of `view` back cleanly, on every view with
right flags that shows the resulting coins, such as one over the flushed database. -/
def UndoRestores (p : Params) (block : CBlock) (pindex : CBlockIndex)
    (view : CCoinsViewCache UtxoSet) (out : ConnectOutput UtxoSet) : Prop :=
  ∀ W : CCoinsViewCache UtxoSet, W = out.view ∨ W.Wf → (∀ o, W.lookup o = out.view.lookup o) →
    ∀ g suppress, ∃ W' g', applyBlockUndo p out.vtxundo block pindex W g suppress =
      .ok (W', g', .ok) ∧ ∀ o, W'.lookup o = view.lookup o

/-- **Undo after connect.** `ApplyBlockUndo` takes an accepted block back, with the verdict `ok`,
exactly when its spendable outputs are whole spocks and none was created where a coin was unspent.
-/
theorem applyBlockUndo_restores_iff (hview : view.Wf) (hcoins : view.CoinsWf)
    (hgen : block.hash ≠ p.hashGenesisBlock)
    (hacc : connectBlock env p block pindex view g suppress fJustCheck = (g', .ok out)) :
    UndoRestores p block pindex view out ↔
      OutputsAligned block.vtx ∧ NoOverwrite view block.vtx pindex.nHeight := by
  obtain ⟨s, g₁, hconn⟩ := connectBlock_ok hacc hgen
  have hshape := blockShape_of_checkBlock hconn.checkBlock_ok
  have hheights : ∀ o c, view.lookup o = some c → 0 < c.nHeight :=
    fun o c hc => (hcoins.lookup hc).height_pos
  -- a view with right flags that shows what the block left
  have hrun : NoOverwrite view block.vtx pindex.nHeight → ∀ W : CCoinsViewCache UtxoSet, W.Wf →
      (∀ o, W.lookup o = out.view.lookup o) → ∀ g suppress, ∃ W' g' res,
        applyBlockUndo p out.vtxundo block pindex W g suppress = .ok (W', g', res) ∧
        (res = .ok ↔ OutputsAligned block.vtx) ∧ ∀ o, W'.lookup o = view.lookup o := by
    intro hnew W hW hWl g suppress
    obtain ⟨v₂, hspec⟩ := connectTransactions_spec hshape hview hnew hconn.transactions
    obtain ⟨W', res, happ, hres, hl⟩ := applyBlockUndo_spec hshape hspec hconn.height_pos
      hheights hW g suppress hnew fun o => (hWl o).trans (hconn.lookup_view o)
    rw [← hconn.vtxundo_eq] at happ
    exact ⟨W', _, res, happ, hres, hl⟩
  refine ⟨fun hrestores => ?_, ?_⟩
  · -- undo on the flushed database
    let b := UtxoSet.ofView out.view (hconn.coinsWf hcoins)
    have hW := CCoinsViewCache.Wf.ofBase b 0
    have hWl : ∀ o, lookup { base := b, hashBlock := 0 } o =
        out.view.lookup o := by
      intro o
      rw [← getElem?_utxo, utxo_ofBase]
      exact out.view.getElem?_utxo o
    obtain ⟨W', g'', happ, hl⟩ := hrestores _ (Or.inr hW) hWl none true
    have hnew : NoOverwrite view block.vtx pindex.nHeight := by
      intro o ho
      rw [← hl]
      exact lookup_created_of_applyBlockUndo hW happ o (mem_createdOutpoints_iff.mpr ho)
    obtain ⟨W'', g''', res, happ', hres, -⟩ := hrun hnew _ hW hWl none true
    rw [happ] at happ'
    obtain ⟨-, -, rfl⟩ : _ ∧ _ ∧ DisconnectResult.ok = res := by
      simpa using Except.ok.inj happ'
    exact ⟨hres.mp rfl, hnew⟩
  · rintro ⟨haligned, hnew⟩ W hW hWl g suppress
    have hWwf : W.Wf := by
      rcases hW with rfl | hW
      · obtain ⟨v₂, hspec⟩ := connectTransactions_spec hshape hview hnew hconn.transactions
        rw [hconn.view_eq]
        cases fJustCheck
        · exact hspec.loop.wf.setBestBlock _
        · exact hspec.loop.wf
      · exact hW
    obtain ⟨W', g', res, happ, hres, hl⟩ := hrun hnew W hWwf hWl g suppress
    rw [hres.mpr haligned] at happ
    exact ⟨W', g', happ, hl⟩

end Restores

/-- The verdict of connecting the first block of the main network and
disconnecting it from the view that resulted. -/
def firstBlockUndone (vout : List CTxOut) : Option DisconnectResult :=
  let block := firstBlock mainParams vout
  let pindex := firstIndex mainParams block.hash
  match connectBlock Env.permissive mainParams block pindex (genesisView mainParams) none false
    false with
  | (_, .ok out) =>
    (applyBlockUndo mainParams out.vtxundo block pindex out.view none false).toOption.map (·.2.2)
  | (_, .error _) => none

/-- A coinbase of one satoshi makes the first block one that cannot be undone. -/
theorem firstBlockUndone_oneSatoshi :
    firstBlockUndone [{ nValue := 1, scriptPubKey := [0x51] }] = some .unclean := by
  decide +kernel

namespace OneSpend

/-- A view with a coin. -/
def view : CCoinsViewCache UtxoSet :=
  { genesisView mainParams with
    base := (UtxoSet.empty mainParams.hashGenesisBlock).add ⟨7, 0⟩
      ⟨⟨10 * coin, [0x51], none⟩, 1, false⟩ ⟨by decide, by decide, by decide⟩ }

/-- A first block that spends it. -/
def block : CBlock :=
  { firstBlock mainParams [] with
    vtx := [coinbaseTx 1 [⟨500 * coin, [0x51], none⟩],
      { vin := [{ prevout := ⟨7, 0⟩ }], vout := [⟨10 * coin, [0x51], none⟩], hash := 9 }] }

end OneSpend

open OneSpend in
/-- The coin that the block spends comes back. -/
theorem applyBlockUndo_restores_oneSpend :
    ∃ g' out, connectBlock Env.permissive mainParams block (firstIndex mainParams 1) view none
        false false = (g', .ok out) ∧
      UndoRestores mainParams block (firstIndex mainParams 1) view out := by
  refine (exists_of_connectBlock_isOk ?_).imp fun g' => Exists.imp fun out hacc =>
    ⟨hacc, (applyBlockUndo_restores_iff (CCoinsViewCache.Wf.ofBase _ _)
      (CCoinsViewCache.CoinsWf.ofBase _ _) (by decide) hacc).mpr ⟨?_, fun o ho => ?_⟩⟩
  · decide +kernel
  · unfold OutputsAligned
    decide +kernel
  · have hnone : ∀ o ∈ createdOutpoints block.vtx, view.lookup o = none := by decide +kernel
    exact hnone o (mem_createdOutpoints_iff.mpr ho)

end DeVault
