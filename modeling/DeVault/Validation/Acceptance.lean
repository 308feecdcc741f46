import DeVault.Validation.Faults
import DeVault.Validation.UniqueTx

/-!
# Blocks that pass

The other direction of the inversion lemmas: conditions under which the stages of
`ConnectBlock` succeed.
-/

namespace DeVault

open List Outcome Prod

/-! ### Stages that pass -/

theorem checkOutputs_of_le {vout : List CTxOut} (hv : ∀ o ∈ vout, 0 ≤ o.nValue) {acc : Int}
    (hacc : 0 ≤ acc) (h : acc + rawValueOut vout ≤ maxMoney) : checkOutputs acc vout = .ok () := by
  induction vout generalizing acc with
  | nil => rfl
  | cons o l ih =>
    obtain ⟨ho, hl⟩ := forall_mem_cons.mp hv
    have hrest : 0 ≤ rawValueOut l := sum_nonneg (forall_mem_map.mpr hl)
    rw [rawValueOut_cons] at h
    have hadd : checkedAdd acc o.nValue = .ok (acc + o.nValue) :=
      checkedAdd_of_le hacc ho (by simp only [maxMoney, coin, satoshi] at h ⊢; omega)
    have hrange : moneyRange (acc + o.nValue) = true := moneyRange_iff.mpr ⟨by omega, by omega⟩
    rw [checkOutputs, if_neg (by omega), if_neg (by omega), hadd]
    simp only [bind, Except.bind, hrange, Bool.not_true, Bool.false_eq_true, if_false]
    exact ih hl (by omega) (by omega)

section Coins

variable {B : Type} [CCoinsView B]

/-- `AddCoins` of a coinbase, or where the cache has no entries, does not throw. -/
theorem exists_addCoins {v : CCoinsViewCache B} {tx : CTransaction} (nHeight : Nat)
    (hv : ∀ out ∈ tx.vout, 0 ≤ out.nValue)
    (hfree : tx.isCoinBase = true ∨ ∀ n, v.cacheCoins[tx.outPoint n]? = none) :
    ∃ v', addCoins v tx nHeight false = .ok v' := by
  -- by induction on the outputs: each one leaves the entries of the others alone
  have hrun : ∀ (l : List (CTxOut × Nat)) (w : CCoinsViewCache B), (∀ q ∈ l, 0 ≤ q.1.nValue) →
      (l.map snd).Nodup →
      (tx.isCoinBase = true ∨ ∀ q ∈ l, w.cacheCoins[tx.outPoint q.2]? = none) →
      ∃ v', l.foldlM (addCoinsStep tx nHeight false) w = .ok v' := by
    intro l
    induction l with
    | nil => exact fun w _ _ _ => ⟨w, rfl⟩
    | cons q l ih =>
      intro w hval hnd hfree
      rw [map_cons, nodup_cons] at hnd
      obtain ⟨hq, hl⟩ := forall_mem_cons.mp hval
      have hunspent : Coin.isSpent ⟨q.1.quantized, nHeight, tx.isCoinBase⟩ = false := by
        rw [Coin.isSpent_eq_false_iff]
        have h0 := spockQuantize_nonneg hq
        simp only [CTxOut.quantized, satoshi]
        omega
      have hstep : ∃ w', w.addCoin (tx.outPoint q.2) ⟨q.1.quantized, nHeight, tx.isCoinBase⟩
          tx.isCoinBase = .ok w' ∧ ∀ o', tx.outPoint q.2 ≠ o' →
            w'.cacheCoins[o']? = w.cacheCoins[o']? := by
        unfold CCoinsViewCache.addCoin
        rw [hunspent, if_neg Bool.false_ne_true]
        split
        · exact ⟨w, rfl, fun _ _ => rfl⟩
        · have hnew : (!tx.isCoinBase && !(w.cacheCoins[tx.outPoint q.2]?.getD {}).coin.isSpent) =
              false := by
            rcases hfree with hcb | hnone
            · simp [hcb]
            · rw [hnone q mem_cons_self]
              simp
          simp only [hnew, Bool.false_eq_true, if_false]
          refine ⟨_, rfl, fun o' ho' => ?_⟩
          rw [Ledger.getElem?_insert, if_neg ho']
      obtain ⟨w', hadd, hother⟩ := hstep
      obtain ⟨v', hrest⟩ := ih w' hl hnd.2 (hfree.imp_right fun hnone q' hq' => by
        rw [hother _ ?_]
        · exact hnone q' (mem_cons_of_mem _ hq')
        · intro heq
          refine hnd.1 (mem_map.mpr ⟨q', hq', ?_⟩)
          exact (congrArg COutPoint.n heq).symm)
      exact ⟨v', bind_ok hadd hrest⟩
  refine hrun tx.vout.zipIdx v (fun q hq => hv q.1 ?_) (nodup_zipIdx_snd _)
    (hfree.imp_right fun hnone q _ => hnone q.2)
  exact fst_mem_of_mem_zipIdx hq

theorem exists_checkBIP30 {v : CCoinsViewCache B} {block : CBlock}
    (h : ∀ o ∈ block.outpoints, v.lookup o = none) : ∃ v', checkBIP30 v block = .ok v' := by
  have hrun : ∀ (l : List COutPoint) (w : CCoinsViewCache B), (∀ o ∈ l, w.lookup o = none) →
      ∃ v', l.foldlM checkBIP30Step w = .ok v' := by
    intro l
    induction l with
    | nil => exact fun w _ => ⟨w, rfl⟩
    | cons a l ih =>
      intro w hw
      obtain ⟨ha, hl⟩ := forall_mem_cons.mp hw
      obtain ⟨v', hrest⟩ := ih (w.fetchCoin a).1 fun o ho => by
        rw [CCoinsViewCache.lookup_fetchCoin]
        exact hl o ho
      refine ⟨v', bind_ok ?_ hrest⟩
      simp only [checkBIP30Step, CCoinsViewCache.haveCoin_snd, ha]
      rfl
  exact hrun block.outpoints v h

end Coins

/-! ### A coinbase that pays the budget -/

section Budget

/-- The output that makes a payment. -/
def paymentOut (payment : CScript × Int) : CTxOut :=
  { nValue := payment.2, scriptPubKey := payment.1 }

theorem fillSuperBlockBudget_fst {scriptFor : String → CScript} {p : Params} {nHeight : Nat}
    (vout : List CTxOut) (nBlockSubsidy : Int) :
    (fillSuperBlockBudget scriptFor p vout nHeight nBlockSubsidy).1 =
      vout ++ (computeSuperBlockPayments scriptFor p nHeight nBlockSubsidy).map paymentOut := by
  unfold fillSuperBlockBudget
  cases computeSuperBlockPayments scriptFor p nHeight nBlockSubsidy with
  | nil => simp
  | cons a l => rfl

variable {payments : List (CScript × Int)} {out : CTxOut} {s : Bool × Int}

theorem foldlM_budgetStep_of_notMem (h : out.scriptPubKey ∉ payments.map fst) :
    payments.foldlM (budgetStep out) s = .ok s := by
  induction payments with
  | nil => rfl
  | cons payment payments ih =>
    rw [map_cons, mem_cons, not_or] at h
    rw [foldlM_cons, budgetStep, if_neg h.1]
    exact ih h.2

/-- An output that makes a payment is counted once. -/
theorem foldlM_budgetStep_paymentOut (hnd : (payments.map fst).Nodup)
    {payment : CScript × Int} (hmem : payment ∈ payments)
    (hrange : int64Range (s.2 + payment.2) = true) :
    payments.foldlM (budgetStep (paymentOut payment)) s = .ok (s.1, s.2 + payment.2) := by
  obtain ⟨before, after, rfl⟩ := append_of_mem hmem
  rw [map_append, map_cons, nodup_append', nodup_cons] at hnd
  obtain ⟨-, ⟨hafter, -⟩, hdisj⟩ := hnd
  have hbefore : (paymentOut payment).scriptPubKey ∉ before.map fst :=
    fun hin => hdisj hin mem_cons_self
  have hstep : budgetStep (paymentOut payment) s payment = .ok (s.1, s.2 + payment.2) := by
    simp only [budgetStep, paymentOut, if_true, ne_eq, not_true_eq_false, if_false, checkedAdd,
      hrange, bind, Except.bind]
  rw [foldlM_append, foldlM_budgetStep_of_notMem hbefore]
  show (payment :: after).foldlM (budgetStep (paymentOut payment)) s = _
  rw [foldlM_cons, hstep]
  exact foldlM_budgetStep_of_notMem hafter

/-- Outputs to no budget script pass through the whole loop. -/
theorem budgetLoop_of_notMem {vout : List CTxOut}
    (h : ∀ out ∈ vout, out.scriptPubKey ∉ payments.map fst) :
    budgetLoop payments vout s = .ok s := by
  unfold budgetLoop
  induction vout with
  | nil => rfl
  | cons out vout ih =>
    obtain ⟨hout, hvout⟩ := forall_mem_cons.mp h
    rw [foldlM_cons, foldlM_budgetStep_of_notMem hout]
    exact ih hvout

/-- Partial sums of amounts whose sum is in range do not overflow. -/
theorem int64Range_of_le {a b c : Int} (ha : 0 ≤ a) (hb : 0 ≤ b) (hc : 0 ≤ c)
    (h : a + (b + c) ≤ maxMoney) : int64Range (a + b) = true := by
  have hmax : maxMoney = 200000000000000000 := by decide
  rw [int64Range_iff]
  omega

/-- **The loop over the appended outputs** collects all payments. -/
theorem budgetLoop_paymentOuts (hnd : (payments.map fst).Nodup)
    (hpos : ∀ payment ∈ payments, 0 ≤ payment.2) :
    ∀ (todo : List (CScript × Int)) (s : Bool × Int), (∀ payment ∈ todo, payment ∈ payments) →
      0 ≤ s.2 → s.2 + (todo.map snd).sum ≤ maxMoney →
      budgetLoop payments (todo.map paymentOut) s = .ok (s.1, s.2 + (todo.map snd).sum) := by
  intro todo
  unfold budgetLoop
  induction todo with
  | nil =>
    intro s _ _ _
    simp [pure, Except.pure]
  | cons payment todo ih =>
    intro s hsub hs hsum
    obtain ⟨hpayment, htodo⟩ := forall_mem_cons.mp hsub
    have hrest : 0 ≤ (todo.map snd).sum :=
      sum_nonneg (forall_mem_map.mpr fun q hq => hpos q (htodo q hq))
    have hp := hpos payment hpayment
    rw [map_cons, sum_cons] at hsum
    have hrange := int64Range_of_le hs hp hrest hsum
    rw [map_cons, foldlM_cons, foldlM_budgetStep_paymentOut hnd hpayment hrange]
    have hloop := ih (s.1, s.2 + payment.2) htodo (by simp only; omega) (by simp only; omega)
    rw [map_cons, sum_cons, ← add_assoc]
    exact hloop

theorem sumPayments_eq (hpos : ∀ payment ∈ payments, 0 ≤ payment.2)
    (hsum : (payments.map snd).sum ≤ maxMoney) :
    sumPayments payments = .ok (payments.map snd).sum := by
  have hrun : ∀ (l : List (CScript × Int)) (a : Int), (∀ payment ∈ l, 0 ≤ payment.2) → 0 ≤ a →
      a + (l.map snd).sum ≤ maxMoney →
      l.foldlM (fun refRewards payment => checkedAdd refRewards payment.2) a =
        .ok (a + (l.map snd).sum) := by
    intro l
    induction l with
    | nil =>
      intro a _ _ _
      simp [pure, Except.pure]
    | cons payment l ih =>
      intro a hl ha hsum
      obtain ⟨hp, hl⟩ := forall_mem_cons.mp hl
      have hrest : 0 ≤ (l.map snd).sum := sum_nonneg (forall_mem_map.mpr hl)
      rw [map_cons, sum_cons] at hsum
      rw [foldlM_cons, checkedAdd, if_pos (int64Range_of_le ha hp hrest hsum)]
      have htail := ih (a + payment.2) hl (by omega) (by omega)
      rw [map_cons, sum_cons, ← add_assoc]
      exact htail
  have := hrun payments 0 hpos (le_refl 0) (by omega)
  rwa [zero_add] at this

variable (scriptFor : String → CScript) {p : Params} (nHeight : Nat) {nBlockSubsidy : Int}

/-- The payments of a superblock together are an amount. -/
theorem sum_payments_range (hp : p.IsDeVault) (hs0 : 0 ≤ nBlockSubsidy)
    (hs : nBlockSubsidy ≤ 750 * coin) :
    0 ≤ ((computeSuperBlockPayments scriptFor p nHeight nBlockSubsidy).map snd).sum ∧
      ((computeSuperBlockPayments scriptFor p nHeight nBlockSubsidy).map snd).sum ≤
        30000000 * coin := by
  obtain ⟨hlen, hpay⟩ := computeSuperBlockPayments_bounds scriptFor hp nHeight hs0 hs
  generalize computeSuperBlockPayments scriptFor p nHeight nBlockSubsidy = payments at hlen hpay
  constructor
  · exact sum_nonneg (forall_mem_map.mpr fun q hq => (hpay q hq).1)
  · have hle : (payments.map snd).sum ≤ payments.length • (5000000 * coin) := by
      rw [← length_map snd]
      exact sum_le_card_nsmul _ _ (forall_mem_map.mpr fun q hq => (hpay q hq).2.1)
    refine hle.trans ?_
    rw [nsmul_eq_mul]
    simp only [coin, satoshi]
    omega

/-- **Fill and check agree** on any coinbase without outputs to the budget scripts. -/
theorem checkSuperBlockBudget_fillSuperBlockBudget (hp : p.IsDeVault) (hs0 : 0 ≤ nBlockSubsidy)
    (hs : nBlockSubsidy ≤ 750 * coin)
    (hnd : ((computeSuperBlockPayments scriptFor p nHeight nBlockSubsidy).map fst).Nodup)
    (vout : List CTxOut) (hother : ∀ out ∈ vout, out.scriptPubKey ∉
      (computeSuperBlockPayments scriptFor p nHeight nBlockSubsidy).map fst) :
    checkSuperBlockBudget scriptFor p
        (fillSuperBlockBudget scriptFor p vout nHeight nBlockSubsidy).1 nHeight nBlockSubsidy =
      .ok (((computeSuperBlockPayments scriptFor p nHeight nBlockSubsidy).map snd).sum,
        true) := by
  obtain ⟨-, hpay⟩ := computeSuperBlockPayments_bounds scriptFor hp nHeight hs0 hs
  obtain ⟨hsum0, hsum⟩ := sum_payments_range scriptFor nHeight hp hs0 hs
  have hmax : 30000000 * coin ≤ maxMoney := by decide
  rw [fillSuperBlockBudget_fst, checkSuperBlockBudget]
  generalize computeSuperBlockPayments scriptFor p nHeight nBlockSubsidy = payments at *
  by_cases hne : payments = []
  · subst hne
    rfl
  · have hpos : ∀ payment ∈ payments, 0 ≤ payment.2 := fun q hq => (hpay q hq).1
    have hloop : budgetLoop payments (vout ++ payments.map paymentOut) (true, 0) =
        .ok (true, (payments.map snd).sum) := by
      unfold budgetLoop
      rw [foldlM_append]
      refine bind_ok (budgetLoop_of_notMem hother) ?_
      have hrun := budgetLoop_paymentOuts hnd hpos payments (true, 0) (fun _ hq => hq)
        (le_refl 0) (by simp only; omega)
      rw [zero_add] at hrun
      exact hrun
    simp only [List.isEmpty_iff, hne, if_false, sumPayments_eq hpos (hsum.trans hmax), hloop, bind,
      Except.bind, decide_true, Bool.and_true]

end Budget

/-- A coinbase that pays no more than the block brings. -/
theorem checkCoinbaseAmount_of_le {block : CBlock} {coinbase : CTransaction}
    {rest : List CTransaction} {nFees nBlockSubsidy nColdReward nBudgetReward valueOut : Int}
    (hvtx : block.vtx = coinbase :: rest) (hvalue : coinbase.getValueOut = .ok valueOut)
    (hfees : moneyRange nFees = true) (hsubsidy : moneyRange nBlockSubsidy = true)
    (hcold : moneyRange nColdReward = true) (hbudget : moneyRange nBudgetReward = true)
    (hle : valueOut ≤ nFees + nBlockSubsidy + nColdReward + nBudgetReward) :
    checkCoinbaseAmount block nFees nBlockSubsidy nColdReward nBudgetReward = .ok () := by
  rw [moneyRange_iff] at hfees hsubsidy hcold hbudget
  unfold checkCoinbaseAmount
  refine bind_ok (checkedAdd_of_le (by omega) (by omega) (by omega)) ?_
  refine bind_ok (checkedAdd_of_le (by omega) (by omega) (by omega)) ?_
  refine bind_ok (checkedAdd_of_le (by omega) (by omega) (by omega)) ?_
  refine bind_ok (a := valueOut) ?_ ?_
  · rw [hvtx]
    exact hvalue
  · exact require_ok (decide_eq_true hle)

/-- What `GetValueOut` returns is a whole number of spocks. -/
theorem spockSats_dvd_quantizedValueOut (vout : List CTxOut) :
    spockSats ∣ quantizedValueOut vout := by
  induction vout with
  | nil => exact dvd_zero _
  | cons out vout ih =>
    rw [quantizedValueOut_cons]
    exact dvd_add (Int.dvd_of_tmod_eq_zero (spockAligned_spockQuantize _)) ih

/-- Rounding up does not pass a whole number of spocks. -/
theorem spockQuantize_le_of_dvd {a b : Int} (hab : a ≤ b) (ha : 0 ≤ a) (hb : spockSats ∣ b) :
    spockQuantize a ≤ b := by
  have hlt := spockQuantize_lt ha
  have hdvd := Int.dvd_of_tmod_eq_zero (spockAligned_spockQuantize a)
  simp only [spockSats] at hlt hdvd hb
  omega

/-- One output may be rounded, and all others are what `ConnectBlock` counts as rewards. -/
theorem checkCoinbaseAmount_of_rest {block : CBlock} {coinbase : CTransaction}
    {others : List CTransaction} {miner : CTxOut} {rest : List CTxOut}
    {nFees nBlockSubsidy nColdReward nBudgetReward : Int}
    (hvtx : block.vtx = coinbase :: others) (hvout : coinbase.vout = miner :: rest)
    (hcommon : checkTransactionCommon coinbase = .ok ())
    (hrest : ∀ out ∈ rest, SpockAligned out.nValue)
    (hsum : rawValueOut rest = nColdReward + nBudgetReward)
    (hfees : moneyRange nFees = true) (hsubsidy : moneyRange nBlockSubsidy = true)
    (hcold : moneyRange nColdReward = true) (hbudget : moneyRange nBudgetReward = true)
    (hminer : miner.nValue ≤ nFees + nBlockSubsidy) (hdvd : spockSats ∣ nFees + nBlockSubsidy) :
    checkCoinbaseAmount block nFees nBlockSubsidy nColdReward nBudgetReward = .ok () := by
  have hvalues := moneyRange_of_common hcommon
  have htotal := rawValueOut_le_of_common hcommon
  have hminer0 : 0 ≤ miner.nValue :=
    (moneyRange_iff.mp (hvalues miner (hvout ▸ mem_cons_self))).1
  rw [hvout, rawValueOut_cons] at htotal
  have hwhole := (quantizedValueOut_eq_raw_iff rest).mpr hrest
  have hquant :
      quantizedValueOut coinbase.vout = spockQuantize miner.nValue + rawValueOut rest := by
    rw [hvout, quantizedValueOut_cons, hwhole]
  -- the limit on amounts is a whole number of spocks as well
  have hfits : quantizedValueOut coinbase.vout ≤ maxMoney := by
    have hroom : spockSats ∣ maxMoney - rawValueOut rest := by
      refine dvd_sub (by decide) ?_
      rw [← hwhole]
      exact spockSats_dvd_quantizedValueOut rest
    have := spockQuantize_le_of_dvd (by omega : miner.nValue ≤ maxMoney - rawValueOut rest)
      hminer0 hroom
    omega
  refine checkCoinbaseAmount_of_le hvtx
    ((CTransaction.getValueOut_eq_ok_iff hvalues _).mpr ⟨rfl, hfits⟩) hfees
      hsubsidy hcold hbudget ?_
  have := spockQuantize_le_of_dvd hminer hminer0 hdvd
  omega

theorem Params.IsDeVault.spockSats_dvd_getBlockSubsidy {p : Params}
    (hp : p.IsDeVault) (nHeight : Nat) :
    spockSats ∣ getBlockSubsidy nHeight p := by
  rw [hp.getBlockSubsidy_eq]
  exact Dvd.dvd.mul_left (by decide) _

section ConnectBlock

variable {B : Type} [CCoinsView B] {env : Env} {p : Params} {block : CBlock} {pindex : CBlockIndex}
  {view : CCoinsViewCache B} {g g₁ : Option CColdRewards} {suppress : Bool} {s : ConnectState B}
  {nBudgetReward nColdReward : Int}

/-- **A block whose stages all pass is accepted.** -/
theorem exists_connectBlock (hpre : connectPreamble env block pindex view false = .ok ())
    (hgen : block.hash ≠ p.hashGenesisBlock) (hparent : pindex.ancestors ≠ [])
    (htx : connectTransactions env p block pindex view = .ok s)
    (hbudget : checkSuperBlockBudget env.scriptFor p block.coinbaseOutputs pindex.nHeight
      (getBlockSubsidy pindex.nHeight p) = .ok (nBudgetReward, true))
    (hcold : coldRewardOf p block pindex.nHeight g suppress false = (g₁, nColdReward, true))
    (hamount : checkCoinbaseAmount block s.nFees (getBlockSubsidy pindex.nHeight p) nColdReward
      nBudgetReward = .ok ()) (hscripts : env.scriptChecksPass block pindex = true)
    (hundo : env.writeUndoData pindex = true) :
    ∃ g' out, connectBlock env p block pindex view g suppress false = (g', .ok out) ∧
      out.view = s.view.setBestBlock pindex.hash := by
  unfold connectBlock
  simp only [hpre, hgen, if_false, htx, hbudget, hcold, hamount, hscripts, hundo, Bool.not_true,
    Bool.not_false, Bool.and_false, Bool.false_eq_true, List.isEmpty_iff, hparent]
  exact ⟨_, _, rfl, rfl⟩

end ConnectBlock

end DeVault
