import DeVault.Validation.Acceptance

/-!
# Chains of filler blocks

Some behaviour shows only on a long chain: a coin of a coinbase is spent after a hundred blocks, the
first superblock comes after 21914. This file builds chains of the main network of any length from
the genesis block, and a block on top that spends. A filler block has only a coinbase, which pushes
the height and pays the superblock budget where it is due.
-/

namespace DeVault

open List Outcome CCoinsViewCache

/-- An environment in which every outside check passes, and an address has its own
text as script. -/
def fillerEnv : Env := { Env.permissive with scriptFor := asciiBytes }

/-- The activation heights of the networks, with all times zero. -/
def fillerCtx : ContextualEnv := ContextualEnv.ofTimes (fun _ => 0) fun _ => 0

/-! ### Blocks in between -/

/-- The script of the miner. -/
def fillerScript : CScript := replicate 60 0x51

variable (nHeight : Nat)

/-- What the miner takes: 100 coins from the first block, and nothing later. -/
def fillerOut : CTxOut :=
  { nValue := if nHeight = 1 then 100 * coin else 0, scriptPubKey := fillerScript }

/-- The coinbase of the block at a height: the height, and the budget on top. -/
def fillerCoinbase : CTransaction where
  vin := [{ prevout := COutPoint.null, scriptSig := pushData (scriptNumSerialize nHeight) }]
  vout := (fillSuperBlockBudget asciiBytes mainParams [fillerOut nHeight] nHeight
    (getBlockSubsidy nHeight mainParams)).1
  hash := nHeight

/-- The block with only a coinbase. -/
def fillerBlock : CBlock where
  hash := nHeight
  hashPrevBlock := if nHeight = 1 then mainParams.hashGenesisBlock else nHeight - 1
  vtx := [fillerCoinbase nHeight]

/-- The payments that are due at a height. -/
def paymentsAt : List (CScript × Int) :=
  computeSuperBlockPayments asciiBytes mainParams nHeight (getBlockSubsidy nHeight mainParams)

theorem vout_fillerCoinbase :
    (fillerCoinbase nHeight).vout = fillerOut nHeight :: (paymentsAt nHeight).map paymentOut :=
  fillSuperBlockBudget_fst _ _

theorem isCoinBase_fillerCoinbase : (fillerCoinbase nHeight).isCoinBase = true := by
  change COutPoint.null.isNull = true
  decide

/-- The payees of an epoch have different scripts of moderate length, none of which
is the miner's. -/
theorem payouts_scripts : ∀ epoch ∈ payouts,
    (epoch.budget.map fun b => asciiBytes b.mainNetAddress).Nodup ∧
      ∀ b ∈ epoch.budget, (asciiBytes b.mainNetAddress).length ≤ 60 ∧
        asciiBytes b.mainNetAddress ≠ fillerScript := by
  decide +kernel

theorem paymentsAt_scripts :
    ((paymentsAt nHeight).map Prod.fst).Nodup ∧
      ∀ q ∈ paymentsAt nHeight, q.1.length ≤ 60 ∧ q.1 ≠ fillerScript := by
  unfold paymentsAt computeSuperBlockPayments
  split
  · exact ⟨nodup_nil, nofun⟩
  have hmain : (mainParams.strNetworkID != "main") = false := rfl
  simp only [hmain, Bool.false_eq_true, if_false]
  rcases budgetAt_eq_nil_or_mem mainParams nHeight with hnil | ⟨epoch, hepoch, hbudget⟩
  · rw [hnil]
    exact ⟨nodup_nil, nofun⟩
  · obtain ⟨hnd, hscript⟩ := payouts_scripts epoch hepoch
    rw [hbudget, map_map]
    exact ⟨hnd, forall_mem_map.mpr hscript⟩

theorem paymentsAt_amounts :
    (paymentsAt nHeight).length ≤ 6 ∧
      ∀ q ∈ paymentsAt nHeight, 0 ≤ q.2 ∧ q.2 ≤ 5000000 * coin ∧ SpockAligned q.2 := by
  have hp : mainParams.IsDeVault := .inl rfl
  obtain ⟨hs0, hs⟩ := hp.getBlockSubsidy_bounds nHeight
  exact computeSuperBlockPayments_bounds asciiBytes hp nHeight hs0 hs

/-- The sum of the payments. -/
def paymentsTotal (nHeight : Nat) : Int := ((paymentsAt nHeight).map Prod.snd).sum

theorem paymentsTotal_bounds :
    0 ≤ paymentsTotal nHeight ∧ paymentsTotal nHeight ≤ 30000000 * coin := by
  have hp : mainParams.IsDeVault := .inl rfl
  obtain ⟨hs0, hs⟩ := hp.getBlockSubsidy_bounds nHeight
  exact sum_payments_range asciiBytes nHeight hp hs0 hs

theorem rawValueOut_payments (payments : List (CScript × Int)) :
    rawValueOut (payments.map paymentOut) = (payments.map Prod.snd).sum := by
  rw [rawValueOut, map_map]
  rfl

theorem valueOut_fillerCoinbase :
    rawValueOut (fillerCoinbase nHeight).vout =
        (if nHeight = 1 then 100 * coin else 0) + paymentsTotal nHeight ∧
      ∀ out ∈ (fillerCoinbase nHeight).vout, 0 ≤ out.nValue := by
  rw [vout_fillerCoinbase, rawValueOut_cons, rawValueOut_payments, forall_mem_cons]
  refine ⟨rfl, ?_, forall_mem_map.mpr fun q hq => ((paymentsAt_amounts nHeight).2 q hq).1⟩
  by_cases hone : nHeight = 1 <;> simp only [fillerOut, hone, if_true, if_false] <;> decide

theorem compactSizeSize_bounds (n : Nat) : 1 ≤ compactSizeSize n ∧ compactSizeSize n ≤ 9 := by
  unfold compactSizeSize
  split_ifs <;> decide

variable {nHeight : Nat}

section

variable (hpos : 0 < nHeight) (hlt : nHeight < 2 ^ 64)

include hpos hlt

theorem length_pushed_height : 2 ≤ (pushData (scriptNumSerialize nHeight)).length ∧
    (pushData (scriptNumSerialize nHeight)).length ≤ 10 := by
  have hle := length_scriptNumSerialize_le nHeight
  have hne : scriptNumSerialize nHeight ≠ [] := by
    intro hnil
    have hval := ofLe_scriptNumSerialize hlt
    rw [hnil] at hval
    exact absurd hval.symm (Nat.pos_iff_ne_zero.mp hpos)
  have hone := length_pos_iff.mpr hne
  rw [pushData, if_pos (by omega), length_cons]
  omega

theorem serializeSize_fillerCoinbase : 100 ≤ (fillerCoinbase nHeight).serializeSize ∧
    (fillerCoinbase nHeight).serializeSize ≤ 1000 := by
  obtain ⟨hlen, -⟩ := paymentsAt_amounts nHeight
  obtain ⟨-, hscripts⟩ := paymentsAt_scripts nHeight
  have hsig := length_pushed_height hpos hlt
  have hown : (fillerOut nHeight).serializeSize = 69 := by
    simp [fillerOut, CTxOut.serializeSize, fillerScript, compactSizeSize]
  -- each payment has at most 77 bytes
  have hpay : ((paymentsAt nHeight).map fun q => (paymentOut q).serializeSize).sum ≤ 6 * 77 := by
    have hle := sum_le_card_nsmul
      ((paymentsAt nHeight).map fun q => (paymentOut q).serializeSize) 77 fun x hx => by
        obtain ⟨q, hq, rfl⟩ := mem_map.mp hx
        have hscript := (hscripts q hq).1
        have hcompact := (compactSizeSize_bounds q.1.length).2
        simp only [paymentOut, CTxOut.serializeSize]
        omega
    rw [length_map, smul_eq_mul] at hle
    exact hle.trans (Nat.mul_le_mul_right 77 hlen)
  have hvout : ((fillerCoinbase nHeight).vout.map CTxOut.serializeSize).sum =
      69 + ((paymentsAt nHeight).map fun q => (paymentOut q).serializeSize).sum := by
    rw [vout_fillerCoinbase, map_cons, sum_cons, hown, map_map]
    rfl
  have hvin : ((fillerCoinbase nHeight).vin.map CTxIn.serializeSize).sum =
      36 + compactSizeSize (pushData (scriptNumSerialize nHeight)).length +
        (pushData (scriptNumSerialize nHeight)).length + 4 := by
    simp [fillerCoinbase, CTxIn.serializeSize]
  have hc₁ := compactSizeSize_bounds (pushData (scriptNumSerialize nHeight)).length
  have hc₂ := compactSizeSize_bounds (fillerCoinbase nHeight).vin.length
  have hc₃ := compactSizeSize_bounds (fillerCoinbase nHeight).vout.length
  rw [CTransaction.serializeSize, hvin, hvout]
  omega

theorem checkCoinbase_fillerCoinbase :
    checkTransactionCommon (fillerCoinbase nHeight) = .ok () ∧
      checkCoinbase (fillerCoinbase nHeight) = .ok () := by
  obtain ⟨-, hsize⟩ := serializeSize_fillerCoinbase hpos hlt
  obtain ⟨hraw, hnonneg⟩ := valueOut_fillerCoinbase nHeight
  have hpaid := paymentsTotal_bounds nHeight
  have htotal : rawValueOut (fillerCoinbase nHeight).vout ≤ maxMoney := by
    rw [hraw]
    simp only [coin, satoshi, maxMoney] at hpaid ⊢
    split <;> omega
  have hcommon : checkTransactionCommon (fillerCoinbase nHeight) = .ok () := by
    unfold checkTransactionCommon
    rw [if_neg (by simp [fillerCoinbase]), if_neg (by simp [vout_fillerCoinbase]),
      if_neg (by simp only [maxTxSize]; omega)]
    exact checkOutputs_of_le hnonneg le_rfl (by rwa [zero_add])
  refine ⟨hcommon, ?_⟩
  have hsig := length_pushed_height hpos hlt
  unfold checkCoinbase
  rw [if_neg (by simp [isCoinBase_fillerCoinbase]), hcommon]
  refine if_neg ?_
  change ¬(decide ((pushData (scriptNumSerialize nHeight)).length < 2) ||
    decide ((pushData (scriptNumSerialize nHeight)).length > 100)) = true
  simp only [Bool.or_eq_true, decide_eq_true_eq]
  omega

end

/-! ### The checks before the coins -/

variable {tx : CTransaction}

theorem contextualCheckTransaction_fillerCtx (hlock : tx.nLockTime = 0)
    (hsize : 100 ≤ tx.serializeSize) (hversion : 1 ≤ tx.nVersion ∧ tx.nVersion ≤ 2)
    (nHeight nLockTimeCutoff : Int) :
    contextualCheckTransaction fillerCtx tx nHeight nLockTimeCutoff = .ok () := by
  have hfinal : isFinalTx tx nHeight nLockTimeCutoff = true := by
    simp [isFinalTx, hlock]
  have hmin : getMinimumTxSize fillerCtx (nHeight - 1) ≤ 100 := by
    unfold getMinimumTxSize
    split
    · decide
    · split <;> decide
  unfold contextualCheckTransaction
  rw [hfinal, if_neg (by decide), if_neg (by omega), if_neg (by omega)]

variable {block : CBlock}

/-- A block with a coinbase and at most one other transaction is in order. -/
theorem contextualCheckBlock_fillerCtx {prev : CBlockIndex} {coinbase : CTransaction}
    {rest : List CTransaction} (hvtx : block.vtx = coinbase :: rest) (hrest : rest.length ≤ 1)
    (hcb : coinbase.isCoinBase = true)
    (htx : ∀ tx ∈ block.vtx, tx.nLockTime = 0 ∧ 100 ≤ tx.serializeSize ∧
      1 ≤ tx.nVersion ∧ tx.nVersion ≤ 2) (hpush : coinbase.PushesHeight (prev.nHeight + 1)) :
    contextualCheckBlock fillerCtx mainParams block (some prev) = .ok () := by
  have hstep : ∀ tx ∈ block.vtx, ∀ (enabled : Bool) (nHeight cutoff : Int),
      contextualCheckStep fillerCtx enabled nHeight cutoff none tx =
        .ok (if enabled && !tx.isCoinBase then some tx else none) := by
    intro tx hmem enabled nHeight cutoff
    obtain ⟨hlock, hsize, hversion⟩ := htx tx hmem
    unfold contextualCheckStep checkTxOrder
    rw [contextualCheckTransaction_fillerCtx hlock hsize hversion]
    cases enabled <;> cases tx.isCoinBase <;> rfl
  have hheight : checkCoinbaseHeight mainParams block (prev.nHeight + 1) = .ok () := by
    have hactive : prev.nHeight + 1 ≥ mainParams.BIP34Height := Nat.succ_pos _
    unfold checkCoinbaseHeight
    rw [if_pos hactive, require_ok_iff, isPrefixOf_iff_prefix, CBlock.coinbaseScriptSig, hvtx]
    exact hpush
  -- the coinbase does not become `prevTx`, so the other transaction has none
  have hloop : ∀ (enabled : Bool) (nHeight cutoff : Int), ∃ prevTx,
      block.vtx.foldlM (contextualCheckStep fillerCtx enabled nHeight cutoff) none =
        .ok prevTx := by
    intro enabled nHeight cutoff
    have hfirst := hstep coinbase (hvtx ▸ mem_cons_self) enabled nHeight cutoff
    rw [hcb, Bool.not_true, Bool.and_false, if_neg Bool.false_ne_true] at hfirst
    rw [hvtx]
    cases rest with
    | nil => exact ⟨none, bind_ok hfirst rfl⟩
    | cons tx rest =>
      obtain rfl := length_eq_zero_iff.mp (Nat.le_zero.mp (Nat.le_of_succ_le_succ hrest))
      have hsecond := hstep tx (hvtx ▸ mem_cons_of_mem _ mem_cons_self) enabled nHeight cutoff
      exact ⟨_, bind_ok hfirst (bind_ok hsecond rfl)⟩
  unfold contextualCheckBlock
  obtain ⟨prevTx, hrun⟩ := hloop _ _ _
  exact bind_ok hrun hheight

variable {s : CoinsTip}

theorem connectPreamble_fillerEnv {coinbase : CTransaction}
    {rest : List CTransaction} (hvtx : block.vtx = coinbase :: rest)
    (hbest : s.pcoinsTip.getBestBlock = s.index.hash) (hlen : block.vtx.length ≤ 1000)
    (hsize : block.serializeSize ≤ 1000000) (hcb : checkCoinbase coinbase = .ok ())
    (hrest : ∀ tx ∈ rest, checkRegularTransaction tx = .ok ()) :
    connectPreamble fillerEnv block (s.index.next block.hash) { base := s.pcoinsTip } false =
      .ok () := by
  have hsizes : ∀ limit, 1000000 ≤ limit → checkBlockSize block limit = .ok () := by
    intro limit hlimit
    unfold checkBlockSize
    rw [if_neg (by simp only [minTransactionSize]; omega), if_neg (by omega)]
  have hblock : checkBlock fillerEnv block true true = .ok () := by
    unfold checkBlock
    refine bind_ok rfl (bind_ok (a := ()) ?_ ?_)
    · simp [checkMerkleRoot, fillerEnv, Env.permissive]
    · rw [hvtx]
      refine bind_ok (hsizes _ (by decide)) ?_
      exact bind_ok hcb (forM_ok_iff.mpr hrest)
  unfold connectPreamble
  refine bind_ok (a := ()) ?_ (bind_ok (a := ()) ?_ (bind_ok (hsizes 32000000 (by decide)) ?_))
  · exact require_ok (beq_self_eq_true _)
  · unfold checkBlockAgain
    rw [Bool.not_false, hblock]
  · refine require_ok (beq_iff_eq.mpr ?_)
    exact hbest.symm

/-! ### Connecting -/

section Connect

variable {B : Type} [CCoinsView B]

theorem connectTx_fillerEnv_coinbase (hcb : tx.isCoinBase = true)
    (pindex : CBlockIndex) (v : CCoinsViewCache B) :
    connectTx fillerEnv pindex { view := v } tx = .ok { view := v } := by
  have hadd : checkedAdd 0 0 = .ok 0 := by decide
  unfold connectTx inputsAndFee checkAndSpend
  simp only [hcb, if_true, bind, Except.bind, hadd]
  rfl

/-- The BIP30 stage, made or skipped, lets new outpoints through. -/
theorem exists_bip30Stage {b : B} (p : Params) (pindex : CBlockIndex)
    (h : ∀ tx ∈ block.vtx, ∀ n, CCoinsView.getCoin b (tx.outPoint n) = none) :
    ∃ v₁, (if enforceBIP30 p pindex then checkBIP30 { base := b } block else .ok { base := b } :
      Except Fault (CCoinsViewCache B)) = .ok v₁ ∧ CCoinsViewCache.Reads { base := b } v₁ := by
  split
  · have hlook : ∀ o ∈ block.outpoints, ({ base := b } : CCoinsViewCache B).lookup o = none := by
      intro o ho
      obtain ⟨tx, htx, hmem⟩ := mem_flatMap.mp ho
      obtain ⟨q, -, rfl⟩ := mem_map.mp hmem
      rw [lookup_of_uncached (by simp)]
      exact h tx htx q.2
    obtain ⟨v₁, hrun⟩ := exists_checkBIP30 hlook
    exact ⟨v₁, hrun, (noOverwrite_of_checkBIP30 hrun 0).1⟩
  · exact ⟨_, rfl, .refl⟩

theorem addAllCoins_of_ok {v v' : CCoinsViewCache B}
    (h : block.vtx.foldlM (fun view tx => addCoins view tx nHeight false) v = .ok v') :
    addAllCoins v block nHeight = .ok v' := by
  unfold addAllCoins
  rw [h]

theorem exists_connectTransactions_filler (b : B) (pindex : CBlockIndex)
    (hnew : ∀ n, CCoinsView.getCoin b ⟨nHeight, n⟩ = none) :
    ∃ v, connectTransactions fillerEnv mainParams (fillerBlock nHeight) pindex { base := b } =
      .ok { view := v } := by
  obtain ⟨v₁, hbip, -⟩ := exists_bip30Stage mainParams pindex
    fun tx (htx : tx ∈ (fillerBlock nHeight).vtx) n => by rw [mem_singleton.mp htx]; exact hnew n
  obtain ⟨v₂, hadd⟩ := exists_addCoins (v := v₁) pindex.nHeight
    (valueOut_fillerCoinbase nHeight).2 (.inl (isCoinBase_fillerCoinbase nHeight))
  refine ⟨v₂, ?_⟩
  unfold connectTransactions
  refine bind_ok hbip (bind_ok (a := v₂) ?_ ?_)
  · exact addAllCoins_of_ok (bind_ok hadd rfl)
  · have hstep := connectTx_fillerEnv_coinbase (isCoinBase_fillerCoinbase nHeight) pindex v₂
    exact bind_ok hstep rfl

end Connect

theorem checkSuperBlockBudget_filler : checkSuperBlockBudget fillerEnv.scriptFor mainParams
      (fillerBlock nHeight).coinbaseOutputs nHeight
      (getBlockSubsidy nHeight mainParams) = .ok (paymentsTotal nHeight, true) := by
  obtain ⟨hnd, hscripts⟩ := paymentsAt_scripts nHeight
  have hp : mainParams.IsDeVault := .inl rfl
  obtain ⟨hs0, hs⟩ := hp.getBlockSubsidy_bounds nHeight
  refine checkSuperBlockBudget_fillSuperBlockBudget _ nHeight hp hs0 hs hnd _ ?_
  intro out hout hmem
  obtain rfl := mem_singleton.mp hout
  obtain ⟨q, hq, heq⟩ := mem_map.mp hmem
  exact (hscripts q hq).2 heq

/-- Without an engine a coinbase with one output has no cold reward, and a
superblock has none anyway. -/
theorem coldRewardOf_filler :
    coldRewardOf mainParams (fillerBlock nHeight) nHeight none false false = (none, 0, true) := by
  unfold coldRewardOf
  split
  · rfl
  next hsuper =>
    have hnone : paymentsAt nHeight = [] := by
      unfold paymentsAt computeSuperBlockPayments
      rw [if_pos (by simpa using hsuper)]
    have hvout : (fillerBlock nHeight).coinbaseOutputs = [fillerOut nHeight] := by
      change (fillerCoinbase nHeight).vout = _
      rw [vout_fillerCoinbase, hnone]
      rfl
    rw [hvout]
    rfl

theorem checkCoinbaseAmount_filler
    (hcommon : checkTransactionCommon (fillerCoinbase nHeight) = .ok ()) :
    checkCoinbaseAmount (fillerBlock nHeight) 0 (getBlockSubsidy nHeight mainParams) 0
      (paymentsTotal nHeight) = .ok () := by
  have hp : mainParams.IsDeVault := .inl rfl
  obtain ⟨hs0, hs⟩ := hp.getBlockSubsidy_bounds nHeight
  obtain ⟨hpaid0, hpaid⟩ := paymentsTotal_bounds nHeight
  -- the miner takes at most the subsidy
  have htaken : (fillerOut nHeight).nValue ≤ 0 + getBlockSubsidy nHeight mainParams := by
    rw [zero_add]
    change (if nHeight = 1 then 100 * coin else 0) ≤ _
    split
    next hone =>
      rw [hone]
      decide +kernel
    · exact hs0
  refine checkCoinbaseAmount_of_rest rfl (vout_fillerCoinbase nHeight) hcommon ?_ ?_ (by decide)
    (moneyRange_iff.mpr ⟨hs0, hs.trans (by decide)⟩) (by decide)
    (moneyRange_iff.mpr ⟨hpaid0, hpaid.trans (by decide)⟩) htaken ?_
  · exact forall_mem_map.mpr fun q hq => ((paymentsAt_amounts nHeight).2 q hq).2.2
  · rw [rawValueOut_payments, zero_add]
    rfl
  · rw [zero_add]
    exact hp.spockSats_dvd_getBlockSubsidy nHeight

/-! ### The chain -/

/-- The blocks up to a height, the newest first. -/
def fillerBlocks : Nat → List (Nat × CBlock)
  | 0 => []
  | n + 1 => (n + 1, fillerBlock (n + 1)) :: fillerBlocks n

variable {n : Nat}

theorem mem_chainTxs_fillerBlocks :
    tx ∈ chainTxs (fillerBlocks n) ↔ ∃ h, 0 < h ∧ h ≤ n ∧ tx = fillerCoinbase h := by
  induction n with
  | zero =>
    refine ⟨nofun, ?_⟩
    rintro ⟨h, hpos, hle, -⟩
    omega
  | succ n ih =>
    rw [fillerBlocks, chainTxs_cons, mem_append, ih]
    constructor
    · rintro (htx | ⟨h, hpos, hle, htx⟩)
      · exact ⟨n + 1, Nat.succ_pos n, le_rfl, mem_singleton.mp htx⟩
      · exact ⟨h, hpos, Nat.le_succ_of_le hle, htx⟩
    · rintro ⟨h, hpos, hle, htx⟩
      rcases Nat.lt_or_eq_of_le hle with hlt | heq
      · exact .inr ⟨h, hpos, Nat.lt_succ_iff.mp hlt, htx⟩
      · rw [heq] at htx
        exact .inl (mem_singleton.mpr htx)

/-- The id of a coinbase is its height. -/
theorem collisionFree_fillerBlocks (n : Nat) : CollisionFree (chainTxs (fillerBlocks n)) where
  eq_of_getId := by
    intro tx htx tx' htx' hid
    obtain ⟨h, -, -, rfl⟩ := mem_chainTxs_fillerBlocks.mp htx
    obtain ⟨h', -, -, rfl⟩ := mem_chainTxs_fillerBlocks.mp htx'
    exact congrArg fillerCoinbase hid
  acyclic := by
    refine ⟨fun _ => 0, fun tx htx hreg => ?_⟩
    obtain ⟨h, -, -, rfl⟩ := mem_chainTxs_fillerBlocks.mp htx
    cases hreg.symm.trans (isCoinBase_fillerCoinbase h)

/-- The coin of the miner of the first block. -/
def firstCoin : Coin := ⟨(fillerOut 1).quantized, 1, true⟩

/-- The node after the filler blocks up to a height. -/
structure Filled (n : Nat) (s : CoinsTip) : Prop where
  chain : AcceptedChain fillerEnv fillerCtx mainParams (fillerBlocks n) s
  nHeight_eq : s.index.nHeight = n
  best : s.pcoinsTip.getBestBlock = s.index.hash
  first_coin : 0 < n → s.pcoinsTip.lookup ⟨1, 0⟩ = some firstCoin

theorem Filled.inv (h : Filled n s) : TipInv (fillerBlocks n) s :=
  h.chain.tipInv rfl (collisionFree_fillerBlocks n)

/-- An id that is not a height so far is new to the coins. -/
theorem Filled.lookup_none (h : Filled n s) {id : TxId} (hid : n < id)
    (i : Nat) : s.pcoinsTip.lookup ⟨id, i⟩ = none := by
  refine (h.inv.lacks ?_).1
  rintro ⟨tx, htx, heq⟩
  obtain ⟨k, -, hk, rfl⟩ := mem_chainTxs_fillerBlocks.mp htx
  change k = id at heq
  omega

/-- The next block is accepted. -/
theorem Filled.accepts (h : Filled n s) (hlt : n + 1 < 2 ^ 31) :
    ∃ out, s.Accepts fillerEnv fillerCtx mainParams (fillerBlock (n + 1)) out := by
  have hlt64 : n + 1 < 2 ^ 64 := by omega
  have hpos : 0 < n + 1 := Nat.succ_pos n
  have hsize := serializeSize_fillerCoinbase hpos hlt64
  obtain ⟨hcommon, hcoinbase⟩ := checkCoinbase_fillerCoinbase hpos hlt64
  have hheight : (s.index.next (fillerBlock (n + 1)).hash).nHeight = n + 1 :=
    congrArg Nat.succ h.nHeight_eq
  obtain ⟨v, htx⟩ := exists_connectTransactions_filler s.pcoinsTip
    (s.index.next (fillerBlock (n + 1)).hash) fun i => h.lookup_none (Nat.lt_succ_self n) i
  have hpre : connectPreamble fillerEnv (fillerBlock (n + 1))
      (s.index.next (fillerBlock (n + 1)).hash) { base := s.pcoinsTip } false = .ok () := by
    refine connectPreamble_fillerEnv rfl h.best (show 1 ≤ 1000 by decide) ?_
      hcoinbase nofun
    change 80 + compactSizeSize 1 + (fillerCoinbase (n + 1)).serializeSize + 0 ≤ 1000000
    have hcompact := (compactSizeSize_bounds 1).2
    omega
  have hgenesis : (fillerBlock (n + 1)).hash ≠ mainParams.hashGenesisBlock := by
    change n + 1 ≠ 0x0000000038e62464371566f6a8d35c01aa54a7da351b2dbf85d92f30357f3a90
    omega
  have hcold : coldRewardOf mainParams (fillerBlock (n + 1))
      (s.index.next (fillerBlock (n + 1)).hash).nHeight none false false = (none, 0, true) := by
    rw [hheight]
    exact coldRewardOf_filler
  obtain ⟨g', out, hconn, -⟩ := exists_connectBlock hpre hgenesis (by simp [CBlockIndex.next]) htx
    (by rw [hheight]; exact checkSuperBlockBudget_filler) hcold
    (by rw [hheight]; exact checkCoinbaseAmount_filler hcommon) rfl rfl
  refine ⟨out, ?_, hgenesis, by rw [h.nHeight_eq]; exact hlt, none, false, g', hconn⟩
  refine contextualCheckBlock_fillerCtx rfl (by decide) (isCoinBase_fillerCoinbase _) ?_ ?_
  · intro tx hmem
    rw [mem_singleton.mp hmem]
    exact ⟨rfl, hsize.1, show (1 : Int) ≤ 2 by decide, show (2 : Int) ≤ 2 by decide⟩
  · rw [h.nHeight_eq]
    exact prefix_refl _

theorem hashBlock_batchWrite {B : Type} {us us' : CCoinsViewCache B}
    {mapCoins : Std.ExtTreeMap COutPoint CCoinsCacheEntry} {hashBlock : BlockHash}
    (h : us.batchWrite mapCoins hashBlock = .ok us') : us'.hashBlock = hashBlock := by
  unfold batchWrite at h
  obtain ⟨w, -, hret⟩ := bind_ok_iff.mp h
  rw [← Except.ok.inj hret]

/-- The chain grows by one block. -/
theorem Filled.succ (h : Filled n s) (hlt : n + 1 < 2 ^ 31) : ∃ s', Filled (n + 1) s' := by
  obtain ⟨out, hacc⟩ := h.accepts hlt
  have hcf : CollisionFree ((fillerBlock (n + 1)).vtx ++ chainTxs (fillerBlocks n)) :=
    collisionFree_fillerBlocks (n + 1)
  obtain ⟨v₂, t, hspec, hview, -⟩ := transactionsSpec_of_accepts h.inv hacc hcf rfl
  obtain ⟨tip, hrun, -, -, hlook⟩ := flush_of_accepts h.inv hacc hcf rfl .refl
  have hchain := AcceptedChain.block h.chain hacc .refl hrun
  rw [h.nHeight_eq] at hchain
  refine ⟨_, hchain, congrArg Nat.succ h.nHeight_eq, ?_, fun _ => ?_⟩
  · -- the tip carries the hash of the block, which is not null
    have hhash : tip.hashBlock = n + 1 := by
      rw [hashBlock_batchWrite hrun, hview]
      rfl
    change tip.getBestBlock = n + 1
    rw [getBestBlock, hhash, if_neg (Nat.succ_ne_zero n)]
  · change tip.lookup ⟨1, 0⟩ = some firstCoin
    have hspent : spentBy (fillerBlock (n + 1)).vtx = [] :=
      spentBy_cons_coinbase (isCoinBase_fillerCoinbase (n + 1))
    rw [hlook, hview, lookup_setBestBlock, hspec.loop.lookup_eq, hspent, if_neg not_mem_nil]
    change v₂.lookup ⟨1, 0⟩ = some firstCoin
    rw [hspec.created, lookup_of_uncached (by simp)]
    cases n with
    | zero =>
      -- the first block creates the coin
      have hcreated : createdBy (fillerBlock 1).vtx (s.index.next (fillerBlock 1).hash).nHeight
          ⟨1, 0⟩ = some firstCoin := by
        have hheight : (s.index.next (fillerBlock 1).hash).nHeight = 1 :=
          congrArg Nat.succ h.nHeight_eq
        rw [hheight]
        decide +kernel
      rw [hcreated, Option.some_or]
    | succ n =>
      -- a later block leaves it
      have hnone : createdBy (fillerBlock (n + 2)).vtx
          (s.index.next (fillerBlock (n + 2)).hash).nHeight ⟨1, 0⟩ = none := by
        rw [show (fillerBlock (n + 2)).vtx = [fillerCoinbase (n + 2)] from rfl, createdBy_cons,
          CTransaction.createdCoin, if_neg]
        · rfl
        · change ¬(1 = n + 2)
          omega
      rw [hnone, Option.none_or]
      exact h.first_coin (Nat.succ_pos n)

theorem exists_filled (hlt : n < 2 ^ 31) : ∃ s, Filled n s := by
  induction n with
  | zero =>
    refine ⟨CoinsTip.genesis mainParams, .genesis, rfl, ?_, fun h => absurd h (by decide)⟩
    decide +kernel
  | succ n ih =>
    obtain ⟨s, hs⟩ := ih (Nat.lt_of_succ_lt hlt)
    exact hs.succ hlt

/-! ### Spending the coin of the first block -/

/-- A transaction that leaves the coin of the first block as fee. -/
def spender : CTransaction where
  vin := [{ prevout := ⟨1, 0⟩ }]
  vout := [{ nValue := 0, scriptPubKey := fillerScript }]
  hash := 2 ^ 40

theorem exists_checkTxInputs_spender {B : Type} [CCoinsView B] {v : CCoinsViewCache B}
    (hcoin : v.lookup ⟨1, 0⟩ = some firstCoin) (hmature : 100 < nHeight) (hlt : nHeight < 2 ^ 31) :
    ∃ w, checkTxInputs spender v nHeight = .ok (w, 100 * coin) := by
  have hpeek : v.peek ⟨1, 0⟩ = firstCoin := (lookup_eq_some_iff.mp hcoin).1
  have hspendable : Spendable v nHeight ⟨1, 0⟩ := by
    constructor <;> rw [hpeek]
    · decide +kernel
    · have hdepth : coinbaseMaturity ≤ spendDepth nHeight firstCoin.nHeight := by
        change 100 ≤ (nHeight + 2 ^ 32 - 1 % 2 ^ 32) % 2 ^ 32
        omega
      rw [decide_eq_false (Nat.not_lt.mpr hdepth), Bool.and_false]
    · decide +kernel
    · decide +kernel
  have hvalueIn : valueIn v spender.prevouts = 100 * coin := by
    change (v.peek ⟨1, 0⟩).out.nValue + 0 = _
    rw [hpeek]
    decide +kernel
  refine checkTxInputs_ok_iff.mpr ⟨by decide +kernel, ?_, ?_, 0, by decide +kernel, ?_, ?_⟩
  · intro i hi
    rw [mem_singleton.mp hi]
    exact hspendable
  · rw [hvalueIn]
    decide
  · rw [hvalueIn, sub_zero]
  · decide

theorem exists_connectTx_spender {B : Type} [CCoinsView B] {v : CCoinsViewCache B}
    (hcoin : v.lookup ⟨1, 0⟩ = some firstCoin) {pindex : CBlockIndex}
    (hmature : 100 < pindex.nHeight) (hlt : pindex.nHeight < 2 ^ 31) :
    ∃ t, connectTx fillerEnv pindex { view := v } spender = .ok t ∧ t.nFees = 100 * coin := by
  obtain ⟨w, hin⟩ := exists_checkTxInputs_spender hcoin hmature hlt
  have hw : w.lookup ⟨1, 0⟩ = some firstCoin := by
    rw [(reads_of_checkTxInputs hin).lookup_eq, hcoin]
  have hspend : spendCoins w spender = .ok ((w.spendCoin ⟨1, 0⟩).1, [firstCoin]) := by
    have hsnd := spendCoin_snd_of_lookup hw
    unfold spendCoins
    rw [if_neg (by decide +kernel)]
    refine bind_ok ?_ rfl
    rw [spendCoinsStep, ← Prod.eta (w.spendCoin ⟨1, 0⟩), hsnd]
    rfl
  have hregular : spender.isCoinBase = false := by decide +kernel
  refine ⟨⟨(w.spendCoin ⟨1, 0⟩).1, [[firstCoin]], 100 * coin⟩, ?_, rfl⟩
  unfold connectTx
  refine bind_ok (a := (w, 100 * coin)) ?_ ?_
  · unfold inputsAndFee
    rw [if_neg (by rw [hregular]; decide)]
    exact hin
  refine bind_ok (show checkedAdd 0 (100 * coin) = .ok (100 * coin) by decide) ?_
  refine bind_ok (a := ()) (by decide) ?_
  refine bind_ok rfl ?_
  refine bind_ok (a := ((w.spendCoin ⟨1, 0⟩).1, [[firstCoin]])) ?_ rfl
  unfold checkAndSpend
  rw [if_neg (by rw [hregular]; decide)]
  refine bind_ok rfl ?_
  refine bind_ok rfl ?_
  exact bind_ok hspend rfl

/-- A coinbase for the block on top of `n` filler blocks: its id is new. -/
structure NextCoinbase (n : Nat) (coinbase : CTransaction) : Prop where
  isCoinBase : coinbase.isCoinBase = true
  nonneg : ∀ out ∈ coinbase.vout, 0 ≤ out.nValue
  lt_getId : n < coinbase.getId
  getId_lt : n < spender.getId
  getId_ne : coinbase.getId ≠ spender.getId

section Spend

variable {coinbase : CTransaction}

/-- The coinbase and the spender have ids of their own. -/
theorem NextCoinbase.collisionFree (hc : NextCoinbase n coinbase) :
    CollisionFree ([coinbase, spender] ++ chainTxs (fillerBlocks n)) := by
  have hmem : ∀ tx ∈ [coinbase, spender] ++ chainTxs (fillerBlocks n),
      tx = coinbase ∨ tx = spender ∨ ∃ h, 0 < h ∧ h ≤ n ∧ tx = fillerCoinbase h := by
    refine forall_mem_cons.mpr ⟨.inl rfl, forall_mem_cons.mpr ⟨.inr (.inl rfl), fun tx htx => ?_⟩⟩
    exact .inr (.inr (mem_chainTxs_fillerBlocks.mp htx))
  have hnew : ∀ h ≤ n, (fillerCoinbase h).getId ≠ coinbase.getId ∧
      (fillerCoinbase h).getId ≠ spender.getId := by
    intro h hle
    exact ⟨(hle.trans_lt hc.lt_getId).ne, (hle.trans_lt hc.getId_lt).ne⟩
  refine ⟨?_, fun id => if id = spender.getId then 1 else 0, ?_⟩
  · intro tx htx tx' htx' hid
    rcases hmem tx htx with rfl | rfl | ⟨k, -, hk, rfl⟩ <;>
      rcases hmem tx' htx' with rfl | rfl | ⟨k', -, hk', rfl⟩
    · rfl
    · exact absurd hid hc.getId_ne
    · exact absurd hid.symm (hnew k' hk').1
    · exact absurd hid.symm hc.getId_ne
    · rfl
    · exact absurd hid.symm (hnew k' hk').2
    · exact absurd hid (hnew k hk).1
    · exact absurd hid (hnew k hk).2
    · exact congrArg fillerCoinbase hid
  · intro tx htx hreg o ho
    rcases hmem tx htx with rfl | rfl | ⟨k, -, -, rfl⟩
    · cases hreg.symm.trans hc.isCoinBase
    · rw [mem_singleton.mp ho]
      decide +kernel
    · cases hreg.symm.trans (isCoinBase_fillerCoinbase k)

variable {s : CoinsTip} (h : Filled n s) (hc : NextCoinbase n coinbase)

include h hc

theorem Filled.exists_addCoins_spending {v₁ : CCoinsViewCache (CCoinsViewCache CCoinsViewDB)}
    (hreads : CCoinsViewCache.Reads { base := s.pcoinsTip } v₁) (nHeight : Nat) :
    ∃ v, [coinbase, spender].foldlM (fun view tx => addCoins view tx nHeight false) v₁ =
      .ok v := by
  obtain ⟨v₂, hfirst⟩ := exists_addCoins (v := v₁) nHeight hc.nonneg (.inl hc.isCoinBase)
  -- no entry has the id of the spender
  have hbelow : ∀ (o : COutPoint) c, CCoinsView.getCoin s.pcoinsTip o = some c →
      o.txid ≠ spender.getId := by
    rintro ⟨id, i⟩ c hcoin rfl
    cases (h.lookup_none hc.getId_lt i).symm.trans hcoin
  have hempty : CCoinsViewCache.EntriesIn (fun o => o.txid ≠ spender.getId)
      ({ base := s.pcoinsTip } : CCoinsViewCache (CCoinsViewCache CCoinsViewDB)) :=
    fun o e he => absurd he (by simp)
  have hadd : [coinbase].foldlM (fun view tx => addCoins view tx nHeight false) v₁ = .ok v₂ :=
    bind_ok hfirst rfl
  obtain ⟨hentries, -⟩ := entriesIn_foldlM_addCoins
    ⟨hempty.reads hbelow hreads, hreads.base_eq⟩
    (fun tx htx n => by rw [mem_singleton.mp htx]; exact hc.getId_ne) hadd
  have hfree : ∀ n, v₂.cacheCoins[spender.outPoint n]? = none := by
    intro n
    rw [Option.eq_none_iff_forall_not_mem]
    intro e he
    exact hentries _ e he rfl
  obtain ⟨v₃, hsecond⟩ : ∃ v₃, addCoins v₂ spender nHeight false = .ok v₃ :=
    exists_addCoins nHeight (by decide +kernel) (.inr hfree)
  exact ⟨v₃, bind_ok hfirst (bind_ok hsecond rfl)⟩

/-- **A block that spends the coin of the first block** connects, with a fee of 100 coins. -/
theorem Filled.exists_connectTransactions_spending (hmature : 100 ≤ n) (hlt : n + 1 < 2 ^ 31)
    (hvtx : block.vtx = [coinbase, spender]) :
    ∃ t, connectTransactions fillerEnv mainParams block (s.index.next block.hash)
      { base := s.pcoinsTip } = .ok t ∧ t.nFees = 100 * coin := by
  have hheight : (s.index.next block.hash).nHeight = n + 1 := congrArg Nat.succ h.nHeight_eq
  have hnew : ∀ tx ∈ block.vtx, n < tx.getId := by
    rw [hvtx, forall_mem_cons, forall_mem_singleton]
    exact ⟨hc.lt_getId, hc.getId_lt⟩
  obtain ⟨v₁, hbip, hreads⟩ := exists_bip30Stage (b := s.pcoinsTip) mainParams
    (s.index.next block.hash) fun tx htx => h.lookup_none (hnew tx htx)
  obtain ⟨v, hadd⟩ := h.exists_addCoins_spending hc hreads (n + 1)
  rw [← hvtx] at hadd
  -- the coin of the first block is still there
  have hcoin : v.lookup ⟨1, 0⟩ = some firstCoin := by
    have hnone : createdBy block.vtx (n + 1) ⟨1, 0⟩ = none := by
      rw [createdBy, findSome?_eq_none_iff]
      intro tx htx
      have hid : 1 < tx.getId := (show 1 < n by omega).trans (hnew tx htx)
      exact if_neg hid.ne
    have hregular : ∀ tx ∈ block.vtx.tail, tx.isCoinBase = false := by
      rw [hvtx]
      exact forall_mem_singleton.mpr (by decide +kernel)
    rw [lookup_foldlM_addCoins hregular hadd, hnone, Option.none_or, hreads.lookup_eq,
      lookup_of_uncached (by simp)]
    exact h.first_coin (by omega)
  obtain ⟨t, htx, hfees⟩ := exists_connectTx_spender hcoin
    (show 100 < (s.index.next block.hash).nHeight by omega) (by omega)
  refine ⟨t, ?_, hfees⟩
  unfold connectTransactions
  refine bind_ok hbip (bind_ok (a := v) ?_ ?_)
  · rw [hheight]
    exact addAllCoins_of_ok hadd
  · rw [hvtx]
    have hfirst := connectTx_fillerEnv_coinbase hc.isCoinBase (s.index.next block.hash) v
    exact bind_ok hfirst (bind_ok htx rfl)

end Spend

/-! ### A second genesis coinbase -/

/-- The block at the height that the coinbase of the genesis block pushes. -/
def copyBlock : CBlock where
  hash := genesisPushedHeight
  hashPrevBlock := genesisPushedHeight - 1
  vtx := [genesisCoinbase, spender]

theorem nextCoinbase_genesisCoinbase :
    NextCoinbase (genesisPushedHeight - 1) genesisCoinbase := by
  constructor <;> decide +kernel

theorem accepts_copyBlock (h : Filled (genesisPushedHeight - 1) s) :
    ∃ out, s.Accepts fillerEnv fillerCtx mainParams copyBlock out := by
  have hheight : (s.index.next copyBlock.hash).nHeight = genesisPushedHeight :=
    congrArg Nat.succ h.nHeight_eq
  obtain ⟨t, htx, hfees⟩ := h.exists_connectTransactions_spending nextCoinbase_genesisCoinbase
    (by decide) (by decide) (show copyBlock.vtx = _ from rfl)
  have hpre : connectPreamble fillerEnv copyBlock (s.index.next copyBlock.hash)
      { base := s.pcoinsTip } false = .ok () := by
    refine connectPreamble_fillerEnv rfl h.best (by decide) (by decide +kernel) (by decide +kernel)
      ?_
    decide +kernel
  have hcold : coldRewardOf mainParams copyBlock (s.index.next copyBlock.hash).nHeight none false
      false = (none, 0, true) := by
    rw [hheight]
    rfl
  have hbudget : checkSuperBlockBudget fillerEnv.scriptFor mainParams copyBlock.coinbaseOutputs
      (s.index.next copyBlock.hash).nHeight
      (getBlockSubsidy (s.index.next copyBlock.hash).nHeight mainParams) = .ok (0, true) := by
    rw [hheight]
    rfl
  have hamount : checkCoinbaseAmount copyBlock t.nFees
      (getBlockSubsidy (s.index.next copyBlock.hash).nHeight mainParams) 0 0 = .ok () := by
    rw [hheight, hfees]
    decide +kernel
  obtain ⟨g', out, hconn, -⟩ := exists_connectBlock hpre (by decide +kernel)
    (by simp [CBlockIndex.next]) htx hbudget hcold hamount rfl rfl
  refine ⟨out, ?_, by decide +kernel, by rw [h.nHeight_eq]; decide, none, false, g', hconn⟩
  refine contextualCheckBlock_fillerCtx rfl (by decide) (by decide +kernel) (by decide +kernel) ?_
  rw [h.nHeight_eq]
  exact genesisCoinbase_pushesHeight

/-- The chain with this block. -/
def copyChain : List (Nat × CBlock) :=
  (genesisPushedHeight, copyBlock) :: fillerBlocks (genesisPushedHeight - 1)

theorem collisionFree_copyChain : CollisionFree (genesisCoinbase :: chainTxs copyChain) :=
  nextCoinbase_genesisCoinbase.collisionFree.mono
    (forall_mem_cons.mpr ⟨mem_cons_self, fun _ htx => htx⟩)

/-- The copy of the genesis coinbase is accepted. -/
theorem exists_copyChain : ∃ s, AcceptedChain fillerEnv fillerCtx mainParams copyChain s := by
  obtain ⟨s, h⟩ := exists_filled (show genesisPushedHeight - 1 < 2 ^ 31 by decide)
  obtain ⟨out, hacc⟩ := accepts_copyBlock h
  obtain ⟨tip, hrun, -⟩ :=
    flush_of_accepts h.inv hacc nextCoinbase_genesisCoinbase.collisionFree rfl .refl
  have hchain := AcceptedChain.block h.chain hacc .refl hrun
  rw [h.nHeight_eq] at hchain
  exact ⟨_, hchain⟩

/-- **The coinbase of the genesis block can come again**, in the block whose height it pushes: a
chain of accepted blocks of the main network, without a collision of ids, has two blocks with one
and the same coinbase. -/
theorem exists_chain_repeating_genesisCoinbase :
    ∃ blocks s, AcceptedChain fillerEnv fillerCtx mainParams blocks s ∧
      CollisionFree (genesisCoinbase :: chainTxs blocks) ∧
      (genesisPushedHeight, copyBlock) ∈ blocks ∧ copyBlock.vtx.head? = some genesisCoinbase := by
  obtain ⟨s, hchain⟩ := exists_copyChain
  exact ⟨copyChain, s, hchain, collisionFree_copyChain, mem_cons_self, rfl⟩

/-- The block spends the coin of the first block, and creates new coins only. -/
theorem AcceptedChain.unique_ids_copyBlock :
    ∃ s out, s.Accepts fillerEnv fillerCtx mainParams copyBlock out ∧
      AddsNewCoins s copyBlock out := by
  obtain ⟨s, h⟩ := exists_filled (show genesisPushedHeight - 1 < 2 ^ 31 by decide)
  obtain ⟨out, hacc⟩ := accepts_copyBlock h
  exact ⟨s, out, hacc, (h.chain.unique_ids rfl hacc collisionFree_copyChain).2.2⟩

/-- The coin of the first block was created on the chain, and is spent. -/
theorem AcceptedChain.coins_eq_copyChain :
    ∃ s, AcceptedChain fillerEnv fillerCtx mainParams copyChain s ∧
      (∃ c, chainCoin copyChain ⟨1, 0⟩ = some c ∧
        (c.fCoinBase = true → coinbaseMaturity ≤ spendDepth genesisPushedHeight c.nHeight)) ∧
      s.pcoinsTip.lookup ⟨1, 0⟩ = none := by
  obtain ⟨s, hchain⟩ := exists_copyChain
  obtain ⟨-, hspent, hcoins⟩ := hchain.coins_eq rfl
    (collisionFree_copyChain.mono fun _ htx => mem_cons_of_mem _ htx)
  have hin : ⟨1, 0⟩ ∈ spentBy copyBlock.vtx := by decide +kernel
  refine ⟨s, hchain, hspent _ mem_cons_self _ hin, ?_⟩
  rw [hcoins, copyChain, chainTxs_cons, spentBy_append, if_pos (mem_append_left _ hin)]

end DeVault
