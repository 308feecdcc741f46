import DeVault.Validation.ConnectBlock

/-!
# What a block does to the coins

The two loops of `ConnectBlock` over a coins view, taken as functions on what
the view shows.

Both need the flags of the cache to be right, and they stay right as long as
the block does not create a coin where the view has an unspent one
(`NoOverwrite`), which the BIP30 rule enforces (`noOverwrite_of_checkBIP30`).
-/

namespace DeVault

open List Outcome CCoinsViewCache

variable {B : Type} [CCoinsView B]

namespace CCoinsViewCache

/-- Spending a list of outpoints, one after the other. -/
def spendAll (v : CCoinsViewCache B) (os : List COutPoint) : CCoinsViewCache B :=
  os.foldl (fun v o => (v.spendCoin o).1) v

variable {v v' : CCoinsViewCache B} {os : List COutPoint} {o : COutPoint}

@[simp] theorem spendAll_nil : v.spendAll [] = v := rfl

theorem spendAll_cons : v.spendAll (o :: os) = (v.spendCoin o).1.spendAll os := rfl

@[simp] theorem base_spendAll : (v.spendAll os).base = v.base := by
  induction os generalizing v with
  | nil => rfl
  | cons a os ih => rw [spendAll_cons, ih, base_spendCoin]

theorem Wf.spendAll (h : v.Wf) (os : List COutPoint) : (v.spendAll os).Wf := by
  induction os generalizing v with
  | nil => exact h
  | cons a os ih => exact ih (h.spendCoin a)

theorem lookup_spendAll (h : v.Wf) :
    (v.spendAll os).lookup o = if o ∈ os then none else v.lookup o := by
  induction os generalizing v with
  | nil => simp
  | cons a os ih =>
    rw [spendAll_cons, ih (h.spendCoin a), lookup_spendCoin h]
    by_cases ho : o ∈ os
    · simp [ho]
    · by_cases hao : a = o
      · simp [hao]
      · simp [ho, hao, Ne.symm hao]

@[simp] theorem lookup_setBestBlock {hash : BlockHash} :
    (v.setBestBlock hash).lookup o = v.lookup o := rfl

theorem Wf.setBestBlock (h : v.Wf) (hash : BlockHash) : (v.setBestBlock hash).Wf :=
  ⟨h.clean, h.fresh⟩

end CCoinsViewCache

/-! ### `SpendCoins` -/

section SpendCoins

variable {v v' : CCoinsViewCache B} {tx : CTransaction} {undo : List Coin}

theorem foldlM_spendCoinsStep_ok {vin : List CTxIn} (hnd : (vin.map (·.prevout)).Nodup)
    {acc : List Coin} (h : vin.foldlM spendCoinsStep (v, acc) = .ok (v', undo)) :
    v' = v.spendAll (vin.map (·.prevout)) ∧
      undo = acc ++ (vin.map (·.prevout)).map v.peek := by
  induction vin generalizing v acc with
  | nil =>
    cases h
    simp
  | cons i vin ih =>
    rw [map_cons, nodup_cons] at hnd
    obtain ⟨⟨w, acc'⟩, hstep, h⟩ := foldlM_cons_ok.mp h
    have hs : w = (v.spendCoin i.prevout).1 ∧ acc' = acc ++ [v.peek i.prevout] := by
      unfold spendCoinsStep at hstep
      split at hstep
      next view coin hsp =>
        cases hstep
        refine ⟨by rw [hsp], ?_⟩
        rw [spendCoin_snd_eq_some (by rw [hsp])]
      · cases hstep
    obtain ⟨rfl, rfl⟩ := hs
    obtain ⟨hv, hu⟩ := ih hnd.2 h
    refine ⟨hv, ?_⟩
    -- the remaining inputs are other outpoints, so they show the coins of `v`
    have hpeek : (vin.map (·.prevout)).map (v.spendCoin i.prevout).1.peek =
        (vin.map (·.prevout)).map v.peek := by
      refine map_congr_left fun o ho => ?_
      refine peek_congr (find_spendCoin_of_ne ?_)
      rintro rfl
      exact hnd.1 ho
    rw [hu, hpeek, map_cons, map_cons, append_assoc, singleton_append]

theorem spendCoins_ok (hcb : tx.isCoinBase = false) (hnd : tx.prevouts.Nodup)
    (h : spendCoins v tx = .ok (v', undo)) :
    v' = v.spendAll tx.prevouts ∧ undo = tx.prevouts.map v.peek := by
  unfold spendCoins at h
  rw [if_neg (by simp [hcb])] at h
  obtain ⟨hv, hu⟩ := foldlM_spendCoinsStep_ok hnd h
  exact ⟨hv, hu.trans (nil_append _)⟩

end SpendCoins

/-! ### One transaction -/

section ConnectTx

variable {env : Env} {pindex : CBlockIndex} {s s' : ConnectState B} {tx : CTransaction}

/-- The coinbase passes through the loop without effect. -/
theorem connectTx_coinbase (hcb : tx.isCoinBase = true) (h : connectTx env pindex s tx = .ok s') :
    s' = s := by
  unfold connectTx at h
  obtain ⟨⟨view, txfee⟩, hin, h⟩ := bind_ok_iff.mp h
  obtain ⟨nFees, hadd, h⟩ := bind_ok_iff.mp h
  obtain ⟨_, -, h⟩ := bind_ok_iff.mp h
  obtain ⟨_, -, h⟩ := bind_ok_iff.mp h
  obtain ⟨⟨view', vtxundo⟩, hspend, h⟩ := bind_ok_iff.mp h
  simp only [inputsAndFee, hcb, if_true, Except.ok.injEq, Prod.mk.injEq] at hin
  simp only [checkAndSpend, hcb, if_true, Except.ok.injEq, Prod.mk.injEq] at hspend
  obtain ⟨rfl, rfl⟩ := hin
  obtain ⟨rfl, rfl⟩ := hspend
  rw [← Except.ok.inj h, (checkedAdd_eq_ok.mp hadd).2, add_zero]

/-- **What a regular transaction did**: its inputs passed, its fee was added within the money range,
and its coins were spent into the undo data. -/
theorem connectTx_regular (hcb : tx.isCoinBase = false) (hnd : tx.prevouts.Nodup)
    (h : connectTx env pindex s tx = .ok s') :
    ∃ v fee, checkTxInputs tx s.view pindex.nHeight = .ok (v, fee) ∧
      s'.nFees = s.nFees + fee ∧ moneyRange s'.nFees = true ∧
      s'.view = v.spendAll tx.prevouts ∧
      s'.vtxundo = s.vtxundo ++ [tx.prevouts.map v.peek] := by
  unfold connectTx at h
  obtain ⟨⟨view, txfee⟩, hin, h⟩ := bind_ok_iff.mp h
  obtain ⟨nFees, hadd, h⟩ := bind_ok_iff.mp h
  obtain ⟨_, hrange, h⟩ := bind_ok_iff.mp h
  obtain ⟨_, -, h⟩ := bind_ok_iff.mp h
  obtain ⟨⟨view', vtxundo⟩, hspend, h⟩ := bind_ok_iff.mp h
  simp only [inputsAndFee, hcb, Bool.false_eq_true, if_false] at hin
  simp only [checkAndSpend, hcb, Bool.false_eq_true, if_false] at hspend
  obtain ⟨_, -, hspend⟩ := bind_ok_iff.mp hspend
  obtain ⟨_, -, hspend⟩ := bind_ok_iff.mp hspend
  obtain ⟨⟨view'', txundo⟩, hsc, hspend⟩ := bind_ok_iff.mp hspend
  cases hspend
  obtain ⟨hv, hu⟩ := spendCoins_ok hcb hnd hsc
  cases h
  exact ⟨view, txfee, hin, (checkedAdd_eq_ok.mp hadd).2, require_ok_iff.mp hrange, hv, by rw [hu]⟩

end ConnectTx

/-! ### Adding the outputs -/

/-- The coin a list of transactions creates at an outpoint. -/
def createdBy (vtx : List CTransaction) (nHeight : Nat) (o : COutPoint) : Option Coin :=
  vtx.findSome? fun tx => tx.createdCoin nHeight o

/-- The block creates no coin where the view has an unspent one. -/
def NoOverwrite (v : CCoinsViewCache B) (vtx : List CTransaction) (nHeight : Nat) : Prop :=
  ∀ o, (createdBy vtx nHeight o).isSome = true → v.lookup o = none

variable {tx : CTransaction}

section AddAllCoins

variable {v v' : CCoinsViewCache B} {vtx : List CTransaction} {nHeight : Nat} {o : COutPoint}

theorem createdBy_cons :
    createdBy (tx :: vtx) nHeight o = (tx.createdCoin nHeight o).or (createdBy vtx nHeight o) := by
  rw [createdBy, findSome?_cons]
  cases tx.createdCoin nHeight o <;> rfl

theorem createdBy_isSome_iff :
    (createdBy vtx nHeight o).isSome = true ↔
      ∃ tx ∈ vtx, (tx.createdCoin nHeight o).isSome = true := by
  rw [createdBy, findSome?_isSome_iff]

/-- A transaction that is not a coinbase creates nothing over an unspent entry. -/
theorem createdBy_eq_none_of_have (hreg : ∀ tx ∈ vtx, tx.isCoinBase = false)
    (h : vtx.foldlM (fun view tx => addCoins view tx nHeight false) v = .ok v')
    (hhave : v.haveCoinInCache o = true) : createdBy vtx nHeight o = none := by
  induction vtx generalizing v with
  | nil => rfl
  | cons tx vtx ih =>
    obtain ⟨w, hstep, hrun⟩ := foldlM_cons_ok.mp h
    have hnone : tx.createdCoin nHeight o = none := by
      by_contra hne
      have hpre := (haveCoinInCache_addCoins hstep (Option.isSome_iff_ne_none.mpr hne)).2
        (hreg tx mem_cons_self)
      cases hpre.symm.trans hhave
    rw [createdBy_cons, hnone, Option.none_or]
    exact ih (fun tx htx => hreg tx (mem_cons_of_mem _ htx)) hrun
      (haveCoinInCache_foldlM_mono hstep hhave)

section

variable (hreg : ∀ tx ∈ vtx.tail, tx.isCoinBase = false)
  (h : vtx.foldlM (fun view tx => addCoins view tx nHeight false) v = .ok v')

include hreg h

/-- **Adding all outputs.** The coins of the block come to lie over the view. -/
theorem lookup_foldlM_addCoins (o : COutPoint) :
    v'.lookup o = (createdBy vtx nHeight o).or (v.lookup o) := by
  induction vtx generalizing v with
  | nil =>
    cases h
    rfl
  | cons tx vtx ih =>
    obtain ⟨w, hstep, hrun⟩ := foldlM_cons_ok.mp h
    rw [tail_cons] at hreg
    rw [ih (fun tx htx => hreg tx (mem_of_mem_tail htx)) hrun, lookup_addCoins hstep,
      createdBy_cons]
    cases hc : tx.createdCoin nHeight o with
    | none => rfl
    | some c =>
      -- this transaction has put the coin into the cache, so no later one does
      have hhave := (haveCoinInCache_addCoins hstep (by rw [hc]; rfl)).1
      rw [createdBy_eq_none_of_have hreg hrun hhave]
      rfl

/-- No outpoint is created twice: whichever transaction creates it, it is the
coin the block creates there. -/
theorem createdBy_eq_of_mem (htx : tx ∈ vtx) {c : Coin}
    (hc : tx.createdCoin nHeight o = some c) : createdBy vtx nHeight o = some c := by
  induction vtx generalizing v with
  | nil => cases htx
  | cons tx' vtx ih =>
    obtain ⟨w, hstep, hrun⟩ := foldlM_cons_ok.mp h
    rw [tail_cons] at hreg
    rw [createdBy_cons]
    rcases mem_cons.mp htx with rfl | htx
    · rw [hc, Option.some_or]
    · have hlater := ih (fun tx htx => hreg tx (mem_of_mem_tail htx)) hrun htx
      cases hc' : tx'.createdCoin nHeight o with
      | none => rw [hlater, Option.none_or]
      | some c' =>
        have hhave := (haveCoinInCache_addCoins hstep (by rw [hc']; rfl)).1
        have hnone := createdBy_eq_none_of_have hreg hrun hhave
        cases hlater.symm.trans hnone

end

/-- The outpoints of the spendable outputs of a list of transactions. -/
def createdOutpoints (vtx : List CTransaction) : List COutPoint :=
  vtx.flatMap fun tx =>
    (tx.vout.zipIdx.filter fun p => !isUnspendable p.1.scriptPubKey).map fun p => tx.outPoint p.2

theorem mem_createdOutpoints_iff :
    o ∈ createdOutpoints vtx ↔ (createdBy vtx nHeight o).isSome = true := by
  rw [createdBy_isSome_iff, createdOutpoints, mem_flatMap]
  refine exists_congr fun tx => and_congr_right fun _ => ?_
  rw [Option.isSome_iff_exists]
  simp only [mem_map, mem_filter, Bool.not_eq_true', CTransaction.createdCoin_eq_some_iff]
  refine ⟨?_, ?_⟩
  · rintro ⟨⟨out, n⟩, ⟨hmem, hu⟩, rfl⟩
    exact ⟨_, out, hmem, rfl, hu, rfl⟩
  · rintro ⟨c, out, hmem, ho, hu, -⟩
    exact ⟨(out, o.n), ⟨hmem, hu⟩, ho.symm⟩

/-- The spendable outputs of a block that was added have distinct outpoints. -/
theorem nodup_createdOutpoints (hreg : ∀ tx ∈ vtx.tail, tx.isCoinBase = false)
    (h : vtx.foldlM (fun view tx => addCoins view tx nHeight false) v = .ok v') :
    (createdOutpoints vtx).Nodup := by
  induction vtx generalizing v with
  | nil => exact nodup_nil
  | cons tx vtx ih =>
    obtain ⟨w, hstep, hrun⟩ := foldlM_cons_ok.mp h
    rw [tail_cons] at hreg
    rw [createdOutpoints, flatMap_cons, nodup_append']
    refine ⟨?_, ih (fun tx htx => hreg tx (mem_of_mem_tail htx)) hrun, ?_⟩
    · -- the outpoints of one transaction differ in their index
      have hidx := (filter_sublist (p := fun p => !isUnspendable p.1.scriptPubKey)
        (l := tx.vout.zipIdx)).map Prod.snd
      have hnd := (nodup_zipIdx_snd tx.vout).sublist hidx
      refine Nodup.of_map COutPoint.n ?_
      rw [map_map]
      exact hnd
    · intro o ho ho'
      obtain ⟨⟨out, n⟩, hp, rfl⟩ := mem_map.mp ho
      obtain ⟨hmem, hu⟩ := mem_filter.mp hp
      have hc : tx.createdCoin nHeight (tx.outPoint n) = some _ :=
        CTransaction.createdCoin_eq_some_iff.mpr ⟨out, hmem, rfl, by simpa using hu, rfl⟩
      have hhave := (haveCoinInCache_addCoins hstep (by rw [hc]; rfl)).1
      have hsome : (createdBy vtx nHeight (tx.outPoint n)).isSome = true :=
        mem_createdOutpoints_iff.mp ho'
      rw [createdBy_eq_none_of_have hreg hrun hhave] at hsome
      cases hsome

theorem wf_foldlM_addCoins (hreg : ∀ tx ∈ vtx.tail, tx.isCoinBase = false) (hw : v.Wf)
    (hnew : NoOverwrite v vtx nHeight)
    (h : vtx.foldlM (fun view tx => addCoins view tx nHeight false) v = .ok v') : v'.Wf := by
  induction vtx generalizing v with
  | nil =>
    cases h
    exact hw
  | cons tx vtx ih =>
    obtain ⟨w, hstep, hrun⟩ := foldlM_cons_ok.mp h
    rw [tail_cons] at hreg
    refine ih (fun tx htx => hreg tx (mem_of_mem_tail htx)) ?_ ?_ hrun
    · refine hw.addCoins hstep (Or.inr fun o ho => hnew o ?_)
      exact createdBy_isSome_iff.mpr ⟨tx, mem_cons_self, ho⟩
    · intro o ho
      have hnone : tx.createdCoin nHeight o = none := by
        by_contra hne
        have hhave := (haveCoinInCache_addCoins hstep (Option.isSome_iff_ne_none.mpr hne)).1
        rw [createdBy_eq_none_of_have hreg hrun hhave] at ho
        cases ho
      rw [lookup_addCoins hstep, hnone, Option.none_or]
      refine hnew o ?_
      rwa [createdBy_cons, hnone, Option.none_or]

theorem addAllCoins_ok {block : CBlock} (h : addAllCoins v block nHeight = .ok v') :
    block.vtx.foldlM (fun view tx => addCoins view tx nHeight false) v = .ok v' := by
  unfold addAllCoins at h
  split at h
  · cases h
  · exact h

/-- The BIP30 loop only reads, and what it lets through overwrites nothing. -/
theorem noOverwrite_of_checkBIP30 {block : CBlock} (h : checkBIP30 v block = .ok v')
    (nHeight : Nat) : CCoinsViewCache.Reads v v' ∧ NoOverwrite v block.vtx nHeight := by
  have hrun : ∀ (l : List COutPoint) (w : CCoinsViewCache B), l.foldlM checkBIP30Step w = .ok v' →
      CCoinsViewCache.Reads w v' ∧ ∀ o ∈ l, w.lookup o = none := by
    intro l
    induction l with
    | nil =>
      intro w h
      cases h
      exact ⟨.refl, nofun⟩
    | cons a l ih =>
      intro w h
      obtain ⟨w', hstep, hrun⟩ := foldlM_cons_ok.mp h
      simp only [checkBIP30Step, haveCoin_snd] at hstep
      obtain ⟨hhave, hstep⟩ := guard_ok.mp hstep
      cases hstep
      obtain ⟨hreads, hrest⟩ := ih _ hrun
      have hfetch : CCoinsViewCache.Reads w (w.fetchCoin a).1 := .fetch a .refl
      refine ⟨hfetch.trans hreads, fun o ho => ?_⟩
      rcases mem_cons.mp ho with rfl | ho
      · simpa using hhave
      · rw [← hfetch.lookup_eq]
        exact hrest o ho
  obtain ⟨hreads, hnone⟩ := hrun block.outpoints v h
  refine ⟨hreads, fun o ho => hnone o ?_⟩
  obtain ⟨tx, htx, hc⟩ := createdBy_isSome_iff.mp ho
  obtain ⟨c, hc⟩ := Option.isSome_iff_exists.mp hc
  obtain ⟨out, hmem, hout, -⟩ := CTransaction.createdCoin_eq_some_iff.mp hc
  refine mem_flatMap.mpr ⟨tx, htx, mem_map.mpr ⟨(out, o.n), hmem, hout.symm⟩⟩

end AddAllCoins

/-! ### The transaction loop -/

/-- The outpoints a list of transactions spends: the inputs of those that are
not a coinbase. -/
def spentBy (vtx : List CTransaction) : List COutPoint :=
  vtx.flatMap fun tx => if tx.isCoinBase then [] else tx.prevouts

variable {vtx : List CTransaction}

theorem spentBy_cons_coinbase (h : tx.isCoinBase = true) : spentBy (tx :: vtx) = spentBy vtx := by
  simp [spentBy, h]

theorem spentBy_cons_regular
    (h : tx.isCoinBase = false) : spentBy (tx :: vtx) = tx.prevouts ++ spentBy vtx := by
  simp [spentBy, h]

/-- The undo data of a list of transactions, given what a view shows. -/
def undoData (v : CCoinsViewCache B) (vtx : List CTransaction) : List (List Coin) :=
  (vtx.filter fun tx => !tx.isCoinBase).map fun tx => tx.prevouts.map v.peek

/-- What the transaction loop did, relative to the state it started from. -/
structure LoopSpec (pindex : CBlockIndex) (s s' : ConnectState B) (vtx : List CTransaction) :
    Prop where
  wf : s'.view.Wf
  base_eq : s'.view.base = s.view.base
  nodup : (spentBy vtx).Nodup
  spendable : ∀ o ∈ spentBy vtx, Spendable s.view pindex.nHeight o
  lookup_eq : ∀ o, s'.view.lookup o = if o ∈ spentBy vtx then none else s.view.lookup o
  vtxundo_eq : s'.vtxundo = s.vtxundo ++ undoData s.view vtx

theorem undoData_congr {v v' : CCoinsViewCache B}
    (h : ∀ o ∈ spentBy vtx, v'.peek o = v.peek o) : undoData v' vtx = undoData v vtx := by
  refine map_congr_left fun tx htx => map_congr_left fun o ho => h o ?_
  obtain ⟨hmem, hcb⟩ := mem_filter.mp htx
  refine mem_flatMap.mpr ⟨tx, hmem, ?_⟩
  rwa [if_neg (by simpa using hcb)]

/-- **The transaction loop.** From a well-formed view, no coin is spent twice, every spent coin was
there at the start, and these are the undo data. -/
theorem connectLoop_spec {env : Env} {pindex : CBlockIndex}
    (hnd : ∀ tx ∈ vtx, tx.isCoinBase = false → tx.prevouts.Nodup) {s s' : ConnectState B}
    (hw : s.view.Wf) (h : vtx.foldlM (connectTx env pindex) s = .ok s') :
    LoopSpec pindex s s' vtx := by
  induction vtx generalizing s with
  | nil =>
    cases h
    exact ⟨hw, rfl, nodup_nil, nofun,
      fun o => (if_neg not_mem_nil).symm, (append_nil _).symm⟩
  | cons tx vtx ih =>
    obtain ⟨t, hstep, hrun⟩ := foldlM_cons_ok.mp h
    have hnd' : ∀ tx ∈ vtx, tx.isCoinBase = false → tx.prevouts.Nodup :=
      fun tx htx => hnd tx (mem_cons_of_mem _ htx)
    cases hcb : tx.isCoinBase with
    | true =>
      obtain rfl := connectTx_coinbase hcb hstep
      have hrest := ih hnd' hw hrun
      have hspent : spentBy (tx :: vtx) = spentBy vtx := spentBy_cons_coinbase hcb
      refine ⟨hrest.wf, hrest.base_eq, hspent ▸ hrest.nodup, hspent ▸ hrest.spendable,
        hspent ▸ hrest.lookup_eq, ?_⟩
      rw [hrest.vtxundo_eq, undoData, undoData, filter_cons_of_neg (by simp [hcb])]
    | false =>
      have hndtx := hnd tx mem_cons_self hcb
      obtain ⟨v, fee, hin, -, -, hview, hundo⟩ := connectTx_regular hcb hndtx hstep
      have hreads := reads_of_checkTxInputs hin
      obtain ⟨-, hsp, -⟩ := checkTxInputs_ok_iff.mp ⟨v, hin⟩
      have hwv := hreads.wf hw
      have htl : ∀ o, t.view.lookup o = if o ∈ tx.prevouts then none else s.view.lookup o := by
        intro o
        rw [hview, lookup_spendAll hwv, hreads.lookup_eq]
      have hrest := ih hnd' (hview ▸ hwv.spendAll _) hrun
      -- what is spendable after this transaction was not spent by it and shows the same coin
      have hlater : ∀ o ∈ spentBy vtx, o ∉ tx.prevouts ∧ t.view.peek o = s.view.peek o := by
        intro o ho
        have hl := (hrest.spendable o ho).lookup
        rw [htl] at hl
        split at hl
        · cases hl
        next hno => exact ⟨hno, (lookup_eq_some_iff.mp hl).1.symm⟩
      rw [← forall_mem_map (P := fun o => Spendable s.view pindex.nHeight o)] at hsp
      refine ⟨hrest.wf, ?_, ?_, ?_, ?_, ?_⟩
      · rw [hrest.base_eq, hview, base_spendAll, hreads.base_eq]
      · rw [spentBy_cons_regular hcb, nodup_append']
        exact ⟨hndtx, hrest.nodup, fun o ho ho' => (hlater o ho').1 ho⟩
      · intro o ho
        rw [spentBy_cons_regular hcb, mem_append] at ho
        rcases ho with ho | ho
        · exact hsp o ho
        · exact (Spendable.congr (hlater o ho).2).mp (hrest.spendable o ho)
      · intro o
        rw [hrest.lookup_eq, htl, spentBy_cons_regular hcb]
        by_cases h1 : o ∈ spentBy vtx <;> by_cases h2 : o ∈ tx.prevouts <;> simp [h1, h2]
      · have hpeek : tx.prevouts.map v.peek = tx.prevouts.map s.view.peek :=
          map_congr_left fun o _ => hreads.peek_eq o
        rw [hrest.vtxundo_eq, hundo, hpeek, undoData_congr fun o ho => (hlater o ho).2, undoData,
          undoData, filter_cons_of_pos (by simp [hcb]), map_cons, append_assoc,
          singleton_append]

/-! ### Both loops -/

/-- What connecting the transactions of a block did to a well-formed view: `v₂`
is the view between the two loops. -/
structure TransactionsSpec (pindex : CBlockIndex) (vtx : List CTransaction)
    (v v₂ : CCoinsViewCache B) (s : ConnectState B) : Prop where
  created : ∀ o, v₂.lookup o = (createdBy vtx pindex.nHeight o).or (v.lookup o)
  unique : ∀ tx ∈ vtx, ∀ o c, tx.createdCoin pindex.nHeight o = some c →
    createdBy vtx pindex.nHeight o = some c
  nodup_created : (createdOutpoints vtx).Nodup
  loop : LoopSpec pindex { view := v₂ } s vtx

section Transactions

variable {env : Env} {p : Params} {block : CBlock} {pindex : CBlockIndex}
  {v : CCoinsViewCache B} {s : ConnectState B}

/-- The stages of `connectTransactions`: reads, the new outputs, the loop. -/
theorem connectTransactions_ok (h : connectTransactions env p block pindex v = .ok s) :
    ∃ v₁ v₂, CCoinsViewCache.Reads v v₁ ∧
      (enforceBIP30 p pindex = true → NoOverwrite v block.vtx pindex.nHeight) ∧
      block.vtx.foldlM (fun view tx => addCoins view tx pindex.nHeight false) v₁ = .ok v₂ ∧
      block.vtx.foldlM (connectTx env pindex) { view := v₂ } = .ok s := by
  unfold connectTransactions at h
  obtain ⟨v₁, hbip, hrest⟩ := bind_ok_iff.mp h
  obtain ⟨v₂, hadd, hloop⟩ := bind_ok_iff.mp hrest
  split at hbip
  · obtain ⟨hreads, hno⟩ := noOverwrite_of_checkBIP30 hbip pindex.nHeight
    exact ⟨v₁, v₂, hreads, fun _ => hno, addAllCoins_ok hadd, hloop⟩
  next hoff =>
    cases hbip
    exact ⟨v, v₂, .refl, fun hon => absurd hon hoff, addAllCoins_ok hadd, hloop⟩

theorem NoOverwrite.congr {v' : CCoinsViewCache B} {nHeight : Nat}
    (h : NoOverwrite v vtx nHeight) (heq : ∀ o, v'.lookup o = v.lookup o) :
    NoOverwrite v' vtx nHeight :=
  fun o ho => (heq o).trans (h o ho)

theorem connectTransactions_spec (hshape : BlockShape block.vtx) (hw : v.Wf)
    (hnew : NoOverwrite v block.vtx pindex.nHeight)
    (h : connectTransactions env p block pindex v = .ok s) :
    ∃ v₂, TransactionsSpec pindex block.vtx v v₂ s := by
  obtain ⟨v₁, v₂, hreads, -, hadd, hloop⟩ := connectTransactions_ok h
  have hw₂ := wf_foldlM_addCoins hshape.tail_regular (hreads.wf hw) (hnew.congr hreads.lookup_eq)
    hadd
  refine ⟨v₂, fun o => ?_, fun tx htx o c hc => ?_, ?_, ?_⟩
  · rw [lookup_foldlM_addCoins hshape.tail_regular hadd, hreads.lookup_eq]
  · exact createdBy_eq_of_mem hshape.tail_regular hadd htx hc
  · exact nodup_createdOutpoints hshape.tail_regular hadd
  · exact connectLoop_spec hshape.nodup_prevouts hw₂ hloop

end Transactions

/-! ### The coins stay well formed

These hold whatever the block overwrites. -/

section CoinsWf

variable {env : Env} {p : Params} {block : CBlock} {pindex : CBlockIndex}
  {v v' : CCoinsViewCache UtxoSet} {s : ConnectState UtxoSet}

theorem CCoinsViewCache.CoinsWf.spendAll (h : v.CoinsWf) (os : List COutPoint) :
    (v.spendAll os).CoinsWf := by
  induction os generalizing v with
  | nil => exact h
  | cons a os ih => exact ih (h.spendCoin a)

theorem coinsWf_foldlM_addCoins {nHeight : Nat}
    (hr : ∀ tx ∈ vtx, ∀ out ∈ tx.vout, moneyRange out.nValue = true) (hheight : 0 < nHeight)
    (hv : v.CoinsWf)
    (h : vtx.foldlM (fun view tx => addCoins view tx nHeight false) v = .ok v') : v'.CoinsWf := by
  refine foldlM_ok_induct (P := CCoinsViewCache.CoinsWf) hv ?_ h
  intro w tx w' htx hw hstep
  exact hw.addCoins hstep (hr tx htx) hheight

theorem coinsWf_connectTx {t : ConnectState UtxoSet}
    (hnd : tx.isCoinBase = false → tx.prevouts.Nodup) (ht : t.view.CoinsWf)
    (h : connectTx env pindex t tx = .ok s) : s.view.CoinsWf := by
  cases hcb : tx.isCoinBase with
  | true => rwa [connectTx_coinbase hcb h]
  | false =>
    obtain ⟨w, fee, hin, -, -, hview, -⟩ := connectTx_regular hcb (hnd hcb) h
    rw [hview]
    exact ((reads_of_checkTxInputs hin).coinsWf ht).spendAll _

theorem coinsWf_connectTransactions (hshape : BlockShape block.vtx) (hheight : 0 < pindex.nHeight)
    (hv : v.CoinsWf) (h : connectTransactions env p block pindex v = .ok s) : s.view.CoinsWf := by
  obtain ⟨v₁, v₂, hreads, -, hadd, hloop⟩ := connectTransactions_ok h
  have hv₂ := coinsWf_foldlM_addCoins hshape.moneyRange hheight (hreads.coinsWf hv) hadd
  refine foldlM_ok_induct (P := fun t : ConnectState UtxoSet => t.view.CoinsWf) hv₂ ?_ hloop
  intro t tx t' htx ht hstep
  exact coinsWf_connectTx (hshape.nodup_prevouts tx htx) ht hstep

end CoinsWf

/-! ### An accepted block -/

section Connected

variable {env : Env} {p : Params} {block : CBlock} {pindex : CBlockIndex}
  {view : CCoinsViewCache B} {g g₁ g' : Option CColdRewards} {suppress fJustCheck : Bool}
  {s : ConnectState B} {out : ConnectOutput B}

theorem Connected.height_pos
    (h : Connected env p block pindex view g suppress fJustCheck s g₁ g' out) :
    0 < pindex.nHeight := by
  rw [← pindex.length_ancestors]
  exact length_pos_iff.mpr h.parent

theorem Connected.lookup_view
    (h : Connected env p block pindex view g suppress fJustCheck s g₁ g' out) (o : COutPoint) :
    out.view.lookup o = s.view.lookup o := by
  rw [h.view_eq]
  cases fJustCheck <;> rfl

end Connected

section Accepted

variable {env : Env} {p : Params} {block : CBlock} {pindex : CBlockIndex}
  {view : CCoinsViewCache UtxoSet} {g g' : Option CColdRewards} {suppress fJustCheck : Bool}
  {out : ConnectOutput UtxoSet}

theorem Connected.coinsWf {s : ConnectState UtxoSet} {g₁ : Option CColdRewards}
    (h : Connected env p block pindex view g suppress fJustCheck s g₁ g' out)
    (hcoins : view.CoinsWf) : out.view.CoinsWf := by
  have hs := coinsWf_connectTransactions (blockShape_of_checkBlock h.checkBlock_ok) h.height_pos
    hcoins h.transactions
  rw [h.view_eq]
  cases fJustCheck <;> exact hs

/-- The coins stay well formed, whatever block was accepted. -/
theorem coinsWf_of_connectBlock
    (h : connectBlock env p block pindex view g suppress fJustCheck = (g', .ok out))
    (hcoins : view.CoinsWf) : out.view.CoinsWf := by
  by_cases hgen : block.hash = p.hashGenesisBlock
  · obtain ⟨-, rfl⟩ := connectBlock_genesis_ok h hgen
    cases fJustCheck <;> exact hcoins
  · obtain ⟨s, g₁, hconn⟩ := connectBlock_ok h hgen
    exact hconn.coinsWf hcoins

end Accepted

end DeVault
