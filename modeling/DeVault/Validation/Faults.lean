import DeVault.Validation.BlockEffect

/-!
# Exceptions and overflow while connecting a block

`ConnectBlock` is meant to end in a verdict. Two of the modelled failures are
none: the exception that `GetValueOut` throws, and a signed overflow in the
additions of amounts. The argument is the same for either, so it is made once for an arbitrary set
`bad` of abnormal failures (`connectBlock_avoids`): nothing but `GetValueOut` can be to blame.
-/

namespace DeVault

open List

open Outcome (Avoids)

/-- The failures that are no verdict on the input. -/
def Fault.abnormal : Fault → Bool
  | .overflow => true
  | .runtimeError _ => true
  | _ => false

variable {B : Type} {tx : CTransaction} {env : Env} {pindex : CBlockIndex} {p : Params}
  {block : CBlock} {payments : List (CScript × Int)} {out : CTxOut} {vout : List CTxOut}

section Avoids

variable {bad : Fault → Prop} (hbad : ∀ e, bad e → e.abnormal = true)

include hbad

theorem avoids_error {α : Type} {e : Fault} (h : e.abnormal = false) :
    Avoids bad (.error e : Except Fault α) :=
  Avoids.error fun hb => absurd ((hbad e hb).symm.trans h) (by decide)

theorem avoids_require {cond : Bool} {e : Fault} (h : e.abnormal = false) :
    Avoids bad (Outcome.require cond e) :=
  Avoids.require fun hb => absurd ((hbad e hb).symm.trans h) (by decide)

theorem avoids_guard {α : Type} {c : Prop} [Decidable c] {e : Fault} {x : Except Fault α}
    (h : e.abnormal = false) (hx : ¬c → Avoids bad x) : Avoids bad (if c then .error e else x) := by
  split
  · exact avoids_error hbad h
  next hc => exact hx hc

/-! ### The context-free checks -/

/-- The sum is checked at each output, so the next addition cannot overflow. -/
theorem checkOutputs_avoids {acc : Int} (hacc : moneyRange acc = true) (vout : List CTxOut) :
    Avoids bad (checkOutputs acc vout) := by
  induction vout generalizing acc with
  | nil => exact .ok bad ()
  | cons o l ih =>
    have ha := moneyRange_iff.mp hacc
    rw [checkOutputs]
    refine avoids_guard hbad rfl fun hneg => ?_
    refine avoids_guard hbad rfl fun hbig => ?_
    rw [checkedAdd_of_le ha.1 (by omega) (by omega)]
    refine (Avoids.ok bad _).bind fun a _ => ?_
    exact avoids_guard hbad rfl fun hr => ih (by simpa using hr)

theorem checkTransactionCommon_avoids (tx : CTransaction) :
    Avoids bad (checkTransactionCommon tx) := by
  unfold checkTransactionCommon
  refine avoids_guard hbad rfl fun _ => ?_
  refine avoids_guard hbad rfl fun _ => ?_
  refine avoids_guard hbad rfl fun _ => ?_
  exact checkOutputs_avoids hbad (by decide) tx.vout

theorem checkPrevoutsPairwise_avoids (os : List COutPoint) :
    Avoids bad (checkPrevoutsPairwise os) := by
  induction os with
  | nil => exact .ok bad ()
  | cons o os ih =>
    rw [checkPrevoutsPairwise]
    refine avoids_guard hbad rfl fun _ => ?_
    exact avoids_guard hbad rfl fun _ => ih

theorem checkRegularTransaction_avoids (tx : CTransaction) :
    Avoids bad (checkRegularTransaction tx) := by
  unfold checkRegularTransaction
  refine avoids_guard hbad rfl fun _ => ?_
  refine (checkTransactionCommon_avoids hbad tx).bind fun _ _ => ?_
  split
  · exact checkPrevoutsPairwise_avoids hbad _
  · unfold checkPrevoutsSorted
    refine avoids_guard hbad rfl fun _ => ?_
    exact avoids_guard hbad rfl fun _ => .ok bad ()

theorem checkCoinbase_avoids (tx : CTransaction) : Avoids bad (checkCoinbase tx) := by
  unfold checkCoinbase
  refine avoids_guard hbad rfl fun _ => ?_
  refine (checkTransactionCommon_avoids hbad tx).bind fun _ _ => ?_
  exact avoids_guard hbad rfl fun _ => .ok bad ()

theorem checkBlockSize_avoids (block : CBlock) (nMaxBlockSize : Nat) :
    Avoids bad (checkBlockSize block nMaxBlockSize) := by
  unfold checkBlockSize
  refine avoids_guard hbad rfl fun _ => ?_
  exact avoids_guard hbad rfl fun _ => .ok bad ()

/-- `CheckBlock` always ends in a verdict. -/
theorem checkBlock_avoids (env : Env) (block : CBlock) (checkPoW checkMerkle : Bool) :
    Avoids bad (checkBlock env block checkPoW checkMerkle) := by
  unfold checkBlock
  refine (avoids_require hbad rfl).bind fun _ _ => ?_
  refine .bind ?_ fun _ _ => ?_
  · unfold checkMerkleRoot
    rcases env.blockMerkleRoot block with ⟨root, mutated⟩
    simp only
    split
    · exact .ok bad ()
    refine avoids_guard hbad rfl fun _ => ?_
    exact avoids_guard hbad rfl fun _ => .ok bad ()
  · split
    · exact avoids_error hbad rfl
    · refine (checkBlockSize_avoids hbad _ _).bind fun _ _ => ?_
      refine (checkCoinbase_avoids hbad _).bind fun _ _ => ?_
      exact .forM fun tx _ => checkRegularTransaction_avoids hbad tx

theorem connectPreamble_avoids [CCoinsView B] (env : Env) (block : CBlock)
    (pindex : CBlockIndex) (view : CCoinsViewCache B) (fJustCheck : Bool) :
    Avoids bad (connectPreamble env block pindex view fJustCheck) := by
  unfold connectPreamble
  refine (avoids_require hbad rfl).bind fun _ _ => ?_
  refine .bind ?_ fun _ _ => ?_
  · intro e he
    unfold checkBlockAgain at he
    split at he
    next e' herr =>
      split at he
      · cases he
        exact fun hb => absurd (hbad _ hb) (by decide)
      · cases he
        exact checkBlock_avoids hbad env block _ _ e herr
    · cases he
  · exact (checkBlockSize_avoids hbad _ _).bind fun _ _ => avoids_require hbad rfl

/-! ### The two loops -/

variable (v : CCoinsViewCache B)

theorem addCoin_avoids (o : COutPoint) (c : Coin)
    (ow : Bool) : Avoids bad (v.addCoin o c ow) := by
  unfold CCoinsViewCache.addCoin
  refine avoids_guard hbad rfl fun _ => ?_
  split
  · exact .ok bad _
  · exact avoids_guard hbad rfl fun _ => .ok bad _

theorem addAllCoins_avoids [CCoinsView B] (block : CBlock)
    (nHeight : Nat) : Avoids bad (addAllCoins v block nHeight) := by
  have hfold : Avoids bad
      (block.vtx.foldlM (fun view tx => addCoins view tx nHeight false) v) := by
    refine .foldlM (P := fun _ => True) trivial fun w tx _ _ => ⟨?_, fun _ _ => trivial⟩
    refine .foldlM (P := fun _ => True) trivial fun w' p _ _ => ⟨?_, fun _ _ => trivial⟩
    exact addCoin_avoids hbad w' _ _ _
  intro e he
  unfold addAllCoins at he
  split at he
  · cases he
    exact fun hb => absurd (hbad _ hb) (by simp [Fault.abnormal])
  · exact hfold e he

theorem checkBIP30_avoids [CCoinsView B] (block : CBlock) : Avoids bad (checkBIP30 v block) := by
  refine .foldlM (P := fun _ => True) trivial fun w o _ _ => ⟨?_, fun _ _ => trivial⟩
  exact avoids_guard hbad rfl fun _ => .ok bad _

theorem spendCoins_avoids [CCoinsView B] (tx : CTransaction) : Avoids bad (spendCoins v tx) := by
  unfold spendCoins
  split
  · exact .ok bad _
  refine .foldlM (P := fun _ => True) trivial fun s i _ _ => ⟨?_, fun _ _ => trivial⟩
  unfold spendCoinsStep
  split
  · exact .ok bad _
  · exact avoids_error hbad rfl

theorem rejectWith_avoids (r : Option String) : Avoids bad (rejectWith r) := by
  cases r with
  | none => exact .ok bad ()
  | some reason => exact avoids_error hbad rfl

/-- `CheckTxInputs` adds up coins in the money range, so only the value out can
go wrong. -/
theorem checkTxInputs_avoids {v : CCoinsViewCache UtxoSet} (hv : v.CoinsWf)
    (hvo : Avoids bad tx.getValueOut) (nSpendHeight : Nat) :
    Avoids bad (checkTxInputs tx v nSpendHeight) := by
  unfold checkTxInputs
  refine avoids_guard hbad rfl fun _ => ?_
  refine .bind ?_ fun s _ => ?_
  · refine .foldlM (P := fun s : CCoinsViewCache UtxoSet × Int =>
      s.1.CoinsWf ∧ moneyRange s.2 = true) ⟨hv, moneyRange_zero⟩ ?_
    rintro ⟨w, acc⟩ i - ⟨hw, hacc⟩
    refine ⟨?_, ?_⟩
    · have ha := moneyRange_iff.mp hacc
      simp only [checkTxInputsStep, CCoinsViewCache.accessCoin_snd]
      refine avoids_guard hbad rfl fun hsp => ?_
      split
      · exact avoids_error hbad rfl
      refine avoids_guard hbad rfl fun _ => ?_
      have hl : w.lookup i.prevout = some (w.peek i.prevout) :=
        CCoinsViewCache.lookup_eq_some_iff.mpr ⟨rfl, by simpa using hsp⟩
      have hc := moneyRange_iff.mp (hw.lookup hl).moneyRange
      rw [checkedAdd_of_le ha.1 hc.1 (by omega)]
      refine (Avoids.ok bad _).bind fun n _ => ?_
      exact avoids_guard hbad rfl fun _ => .ok bad _
    · rintro ⟨w', n⟩ hstep
      obtain ⟨rfl, -, -, hn⟩ := (checkTxInputsStep_ok_iff hacc i).mp hstep
      exact ⟨hw.fetchCoin _, hn⟩
  · refine hvo.bind fun valueOut _ => ?_
    refine avoids_guard hbad rfl fun _ => ?_
    exact avoids_guard hbad rfl fun _ => .ok bad _

theorem connectTx_avoids {s : ConnectState UtxoSet}
    (hs : s.view.CoinsWf) (hfees : moneyRange s.nFees = true)
    (hvo : Avoids bad tx.getValueOut) : Avoids bad (connectTx env pindex s tx) := by
  have hf := moneyRange_iff.mp hfees
  unfold connectTx
  have hin : Avoids bad (inputsAndFee tx s.view pindex.nHeight) := by
    unfold inputsAndFee
    split
    · exact .ok bad _
    · exact checkTxInputs_avoids hbad hs hvo _
  refine hin.bind fun r hr => ?_
  obtain ⟨view, txfee⟩ := r
  have hfee : moneyRange txfee = true := by
    unfold inputsAndFee at hr
    split at hr
    · cases hr
      decide
    · obtain ⟨-, -, -, valueOut, -, -, hrange⟩ := checkTxInputs_ok_iff.mp ⟨view, hr⟩
      exact hrange
  have hfee' := moneyRange_iff.mp hfee
  simp only
  rw [checkedAdd_of_le hf.1 hfee'.1 (by omega)]
  refine (Avoids.ok bad _).bind fun nFees _ => ?_
  refine (avoids_require hbad rfl).bind fun _ _ => ?_
  refine (rejectWith_avoids hbad _).bind fun _ _ => ?_
  refine .bind ?_ fun _ _ => .ok bad _
  unfold checkAndSpend
  split
  · exact .ok bad _
  refine (avoids_require hbad rfl).bind fun _ _ => ?_
  refine (rejectWith_avoids hbad _).bind fun _ _ => ?_
  exact (spendCoins_avoids hbad _ _).bind fun _ _ => .ok bad _

omit hbad in
theorem moneyRange_nFees_connectTx [CCoinsView B]
    {s s' : ConnectState B} (hnd : tx.isCoinBase = false → tx.prevouts.Nodup)
    (hfees : moneyRange s.nFees = true) (h : connectTx env pindex s tx = .ok s') :
    moneyRange s'.nFees = true := by
  cases hcb : tx.isCoinBase with
  | true => rwa [connectTx_coinbase hcb h]
  | false =>
    obtain ⟨-, -, -, -, hrange, -, -⟩ := connectTx_regular hcb (hnd hcb) h
    exact hrange

omit hbad in
theorem moneyRange_nFees_connectTransactions [CCoinsView B]
    {v : CCoinsViewCache B} {s : ConnectState B}
    (hshape : BlockShape block.vtx) (h : connectTransactions env p block pindex v = .ok s) :
    moneyRange s.nFees = true := by
  obtain ⟨v₁, v₂, -, -, -, hloop⟩ := connectTransactions_ok h
  refine Outcome.foldlM_ok_induct (P := fun t : ConnectState B => moneyRange t.nFees = true)
    moneyRange_zero ?_ hloop
  intro t tx t' htx ht hstep
  exact moneyRange_nFees_connectTx (hshape.nodup_prevouts tx htx) ht hstep

theorem connectTransactions_avoids
    {v : CCoinsViewCache UtxoSet} (hshape : BlockShape block.vtx) (hheight : 0 < pindex.nHeight)
    (hv : v.CoinsWf) (hvo : ∀ tx ∈ block.vtx, Avoids bad tx.getValueOut) :
    Avoids bad (connectTransactions env p block pindex v) := by
  unfold connectTransactions
  refine .bind ?_ fun v₁ hv₁ => ?_
  · split
    · exact checkBIP30_avoids hbad v block
    · exact .ok bad _
  have hreads : CCoinsViewCache.Reads v v₁ := by
    split at hv₁
    · exact (noOverwrite_of_checkBIP30 hv₁ pindex.nHeight).1
    · cases hv₁
      exact .refl
  refine (addAllCoins_avoids hbad v₁ block _).bind fun v₂ hv₂ => ?_
  have hw₂ := coinsWf_foldlM_addCoins hshape.moneyRange hheight (hreads.coinsWf hv)
    (addAllCoins_ok hv₂)
  refine .foldlM (P := fun t : ConnectState UtxoSet =>
    t.view.CoinsWf ∧ moneyRange t.nFees = true) ⟨hw₂, moneyRange_zero⟩ ?_
  rintro t tx htx ⟨ht, hfees⟩
  refine ⟨connectTx_avoids hbad ht hfees (hvo tx htx), fun t' hstep => ⟨?_, ?_⟩⟩
  · exact coinsWf_connectTx (hshape.nodup_prevouts tx htx) ht hstep
  · exact moneyRange_nFees_connectTx (hshape.nodup_prevouts tx htx) hfees hstep

/-! ### The block reward -/

omit hbad in
theorem BlockShape.moneyRange_coinbaseOutputs (h : BlockShape block.vtx) :
    ∀ out ∈ block.coinbaseOutputs, DeVault.moneyRange out.nValue = true := by
  unfold CBlock.coinbaseOutputs
  rcases hhead : block.vtx.head? with _ | tx
  · simp
  · exact h.moneyRange tx (mem_of_head? hhead)

omit hbad in
theorem rawValueOut_coinbaseOutputs_le (h : ∀ tx ∈ block.vtx, checkTransactionCommon tx = .ok ()) :
    rawValueOut block.coinbaseOutputs ≤ maxMoney := by
  unfold CBlock.coinbaseOutputs
  rcases hhead : block.vtx.head? with _ | tx
  · decide
  · exact rawValueOut_le_of_common (h tx (mem_of_head? hhead))

omit hbad in
/-- The sum of the payments does not overflow. -/
theorem sumPayments_avoids {bound : Int}
    (h : ∀ payment ∈ payments, 0 ≤ payment.2 ∧ payment.2 ≤ bound)
    (hbound : payments.length * bound ≤ 8 * maxMoney) : Avoids bad (sumPayments payments) := by
  have hrun : ∀ (l : List (CScript × Int)) (a : Int), 0 ≤ a →
      (∀ payment ∈ l, 0 ≤ payment.2 ∧ payment.2 ≤ bound) → a + l.length * bound ≤ 8 * maxMoney →
      Avoids bad (l.foldlM (fun refRewards payment => checkedAdd refRewards payment.2) a) := by
    intro l
    induction l with
    | nil => exact fun a _ _ _ => .ok bad a
    | cons payment l ih =>
      intro a ha hl hle
      obtain ⟨⟨h0, h1⟩, hl⟩ := forall_mem_cons.mp hl
      have hrest : 0 ≤ (l.length : Int) * bound :=
        mul_nonneg (Int.natCast_nonneg _) (h0.trans h1)
      rw [length_cons] at hle
      push_cast at hle
      rw [foldlM_cons, checkedAdd_of_le ha h0 (by linarith)]
      refine (Avoids.ok bad _).bind fun b hb => ?_
      cases hb
      exact ih _ (by omega) hl (by linarith)
  exact hrun payments 0 le_rfl h (by omega)

omit hbad in
theorem foldlM_budgetStep_avoids (hout : 0 ≤ out.nValue) {s : Bool × Int} (h0 : 0 ≤ s.2)
    (hle : s.2 + payments.length * out.nValue ≤ 8 * maxMoney) :
    Avoids bad (payments.foldlM (budgetStep out) s) := by
  induction payments generalizing s with
  | nil => exact .ok bad s
  | cons payment payments ih =>
    have hrest : 0 ≤ (payments.length : Int) * out.nValue :=
      mul_nonneg (Int.natCast_nonneg _) hout
    rw [length_cons] at hle
    push_cast at hle
    rw [foldlM_cons]
    unfold budgetStep
    split
    · split
      · refine (Avoids.ok bad _).bind fun t ht => ?_
        cases ht
        exact ih h0 (by simp only; linarith)
      next hvalue =>
        rw [not_not] at hvalue
        rw [checkedAdd_of_le h0 (by omega) (by linarith)]
        refine .bind (Avoids.ok bad _) fun t ht => ?_
        cases ht
        exact ih (by simp only; omega) (by simp only; linarith)
    · refine (Avoids.ok bad _).bind fun t ht => ?_
      cases ht
      exact ih h0 (by linarith)

omit hbad in
/-- An output counts at most once for each payment. -/
theorem outputContribution_bounds (payments : List (CScript × Int)) (hout : 0 ≤ out.nValue) :
    0 ≤ outputContribution payments out ∧
      outputContribution payments out ≤ payments.length * out.nValue := by
  induction payments with
  | nil => simp [outputContribution]
  | cons payment payments ih =>
    simp only [outputContribution, map_cons, sum_cons, length_cons] at ih ⊢
    push_cast
    split
    next hpays =>
      simp only [paysExactly, decide_eq_true_eq] at hpays
      refine ⟨by omega, ?_⟩
      linarith [hpays.2]
    · refine ⟨by omega, ?_⟩
      linarith

omit hbad in
/-- An output counts for each payment it makes, at most six, so the sum is bounded by the value of
the coinbase. -/
theorem budgetLoop_avoids (hlen : payments.length ≤ 6) (hv : ∀ out ∈ vout, 0 ≤ out.nValue)
    {s : Bool × Int} (h0 : 0 ≤ s.2)
    (hle : s.2 + 6 * rawValueOut vout ≤ 8 * maxMoney) :
    Avoids bad (budgetLoop payments vout s) := by
  unfold budgetLoop
  induction vout generalizing s with
  | nil => exact .ok bad s
  | cons out vout ih =>
    obtain ⟨hout, hv⟩ := forall_mem_cons.mp hv
    have hlen' : (payments.length : Int) * out.nValue ≤ 6 * out.nValue := by
      gcongr
      exact_mod_cast hlen
    have hrest : 0 ≤ rawValueOut vout := sum_nonneg (forall_mem_map.mpr hv)
    rw [rawValueOut_cons] at hle
    rw [foldlM_cons]
    refine (foldlM_budgetStep_avoids hout h0 (by omega)).bind fun t ht => ?_
    have hsum := (foldlM_budgetStep_ok ht).2
    obtain ⟨hc0, hc1⟩ := outputContribution_bounds payments hout
    exact ih hv (by omega) (by omega)

omit hbad in
theorem checkSuperBlockBudget_avoids (scriptFor : String → CScript)
    (hp : p.IsDeVault) (hv : ∀ out ∈ vout, 0 ≤ out.nValue)
    (hsum : rawValueOut vout ≤ maxMoney) (nHeight : Nat) :
    Avoids bad (checkSuperBlockBudget scriptFor p vout nHeight (getBlockSubsidy nHeight p)) := by
  obtain ⟨hs0, hs⟩ := hp.getBlockSubsidy_bounds nHeight
  obtain ⟨hlen, hpay⟩ := computeSuperBlockPayments_bounds scriptFor hp nHeight hs0 hs
  unfold checkSuperBlockBudget
  simp only
  split
  · exact .ok bad _
  refine (sumPayments_avoids (fun q hq => (hpay q hq).imp_right And.left) ?_).bind
    fun refRewards _ => ?_
  · simp only [coin, satoshi, maxMoney]
    omega
  refine (budgetLoop_avoids hlen hv le_rfl ?_).bind fun t _ => .ok bad _
  simp only [coin, satoshi, maxMoney] at hsum ⊢
  omega

omit hbad in
/-- An accepted budget is the sum of the payments, far below the cap. -/
theorem nBudgetReward_bounds {scriptFor : String → CScript} (hp : p.IsDeVault)
    {nHeight : Nat} {nBudgetReward : Int}
    (h : checkSuperBlockBudget scriptFor p vout nHeight (getBlockSubsidy nHeight p) =
      .ok (nBudgetReward, true)) : 0 ≤ nBudgetReward ∧ nBudgetReward ≤ maxMoney := by
  obtain ⟨hs0, hs⟩ := hp.getBlockSubsidy_bounds nHeight
  obtain ⟨hlen, hpay⟩ := computeSuperBlockPayments_bounds scriptFor hp nHeight hs0 hs
  by_cases hnil : computeSuperBlockPayments scriptFor p nHeight (getBlockSubsidy nHeight p) = []
  · simp only [checkSuperBlockBudget, hnil, isEmpty_nil, if_true, Except.ok.injEq,
      Prod.mk.injEq, and_true] at h
    subst h
    decide
  · rw [((checkSuperBlockBudget_spec hnil h).2.mp rfl).2]
    have hle : ((computeSuperBlockPayments scriptFor p nHeight (getBlockSubsidy nHeight p)).map
        (·.2)).sum ≤ (computeSuperBlockPayments scriptFor p nHeight
          (getBlockSubsidy nHeight p)).length • (5000000 * coin) := by
      refine (sum_le_card_nsmul _ _ ?_).trans_eq (by rw [length_map])
      exact forall_mem_map.mpr fun payment hmem => (hpay payment hmem).2.1
    refine ⟨sum_nonneg (forall_mem_map.mpr fun q hq => (hpay q hq).1), hle.trans ?_⟩
    · simp only [coin, satoshi, maxMoney, nsmul_eq_mul]
      omega

omit hbad in
/-- The cold reward is zero or the value of an output of the coinbase. -/
theorem nColdReward_moneyRange {nHeight : Nat}
    {g : Option CColdRewards} {suppress fJustCheck : Bool}
    (hv : ∀ out ∈ block.coinbaseOutputs, moneyRange out.nValue = true) :
    moneyRange (coldRewardOf p block nHeight g suppress fJustCheck).2.1 = true := by
  have hout : moneyRange ((block.coinbaseOutputs[1]?.map (·.nValue)).getD 0) = true := by
    rcases h : block.coinbaseOutputs[1]? with _ | out
    · exact moneyRange_zero
    · exact hv out (mem_of_getElem? h)
  unfold coldRewardOf
  split
  · exact moneyRange_zero
  cases g with
  | none => exact hout
  | some r =>
    simp only [CColdRewards.quickValidate]
    split
    · exact hout
    · split
      next out h => exact hv out (mem_of_getElem? h)
      · exact moneyRange_zero

/-- Amounts in range cannot overflow the limit. -/
theorem checkCoinbaseAmount_avoids {nFees nBlockSubsidy nColdReward
    nBudgetReward : Int} (hfees : moneyRange nFees = true) (hs : moneyRange nBlockSubsidy = true)
    (hcold : moneyRange nColdReward = true) (hbudget : moneyRange nBudgetReward = true)
    (hvo : ∀ tx ∈ block.vtx, Avoids bad tx.getValueOut) :
    Avoids bad (checkCoinbaseAmount block nFees nBlockSubsidy nColdReward nBudgetReward) := by
  rw [moneyRange_iff] at hfees hs hcold hbudget
  unfold checkCoinbaseAmount
  rw [checkedAdd_of_le hfees.1 hs.1 (by omega)]
  refine (Avoids.ok bad _).bind fun a ha => ?_
  cases ha
  rw [checkedAdd_of_le (by omega) hcold.1 (by omega)]
  refine (Avoids.ok bad _).bind fun b hb => ?_
  cases hb
  rw [checkedAdd_of_le (by omega) hbudget.1 (by omega)]
  refine (Avoids.ok bad _).bind fun c _ => ?_
  refine .bind ?_ fun _ _ => avoids_require hbad rfl
  rcases h : block.vtx.head? with _ | tx
  · exact .ok bad _
  · exact hvo tx (mem_of_head? h)

/-- **Only `GetValueOut` is to blame.** On well-formed coins, `ConnectBlock` fails abnormally only
if `GetValueOut` does so on a transaction that has passed `CheckBlock`. -/
theorem connectBlock_avoids (hp : p.IsDeVault) (env : Env)
    (pindex : CBlockIndex) {view : CCoinsViewCache UtxoSet} (hv : view.CoinsWf)
    (g : Option CColdRewards) (suppress fJustCheck : Bool)
    (hvo : ∀ tx ∈ block.vtx, checkTransactionCommon tx = .ok () → Avoids bad tx.getValueOut) :
    Avoids bad (connectBlock env p block pindex view g suppress fJustCheck).2 := by
  intro e he
  -- a verdict is not in `bad`; what is left are the stages that add amounts
  unfold connectBlock at he
  split at he
  next e' hpre =>
    obtain rfl := Except.error.inj he
    exact connectPreamble_avoids hbad env block pindex view fJustCheck _ hpre
  next hpre =>
  have hcheck := checkBlock_of_preamble hpre
  have hshape := blockShape_of_checkBlock hcheck
  have hcommon := common_of_checkBlock hcheck
  replace hvo : ∀ tx ∈ block.vtx, Avoids bad tx.getValueOut :=
    fun tx htx => hvo tx htx (hcommon tx htx)
  split at he
  · cases he
  split at he
  · exact avoids_error hbad rfl e he
  next hparent =>
  have hheight : 0 < pindex.nHeight := by
    rw [← pindex.length_ancestors]
    exact length_pos_iff.mpr (by simpa using hparent)
  split at he
  next e' htx =>
    obtain rfl := Except.error.inj he
    exact connectTransactions_avoids hbad hshape hheight hv hvo _ htx
  next s htx =>
  have hcb := hshape.moneyRange_coinbaseOutputs
  simp only at he
  split at he
  next e' hbudget =>
    obtain rfl := Except.error.inj he
    exact checkSuperBlockBudget_avoids env.scriptFor hp
      (fun out hout => (moneyRange_iff.mp (hcb out hout)).1)
      (rawValueOut_coinbaseOutputs_le hcommon) pindex.nHeight _ hbudget
  next nBudgetReward budgetOk hbudget =>
  cases budgetOk with
  | false => exact avoids_error hbad rfl e he
  | true =>
    simp only [Bool.not_true, Bool.false_eq_true, if_false] at he
    split at he
    · exact avoids_error hbad rfl e he
    split at he
    next e' hamount =>
      obtain rfl := Except.error.inj he
      obtain ⟨hs0, hs⟩ := hp.getBlockSubsidy_bounds pindex.nHeight
      have hsub : moneyRange (getBlockSubsidy pindex.nHeight p) = true :=
        moneyRange_iff.mpr ⟨hs0, hs.trans (by decide)⟩
      have hfees := moneyRange_nFees_connectTransactions hshape htx
      have hreward := moneyRange_iff.mpr (nBudgetReward_bounds hp hbudget)
      exact checkCoinbaseAmount_avoids hbad hfees hsub (nColdReward_moneyRange hcb) hreward hvo _
        hamount
    split at he
    · exact avoids_error hbad rfl e he
    split at he
    · exact avoids_error hbad rfl e he
    · cases he

end Avoids

/-! ### When the value out can be computed -/

theorem sumValueOut_avoids_overflow
    (hv : ∀ o ∈ vout, moneyRange o.nValue = true) {acc : Int} (hacc : moneyRange acc = true) :
    Avoids (· = Fault.overflow) (CTransaction.sumValueOut acc vout) := by
  induction vout generalizing acc with
  | nil => exact .ok _ acc
  | cons o l ih =>
    obtain ⟨ho, hl⟩ := forall_mem_cons.mp hv
    have ho' := moneyRange_iff.mp (moneyRange_spockQuantize ho)
    have ha := moneyRange_iff.mp hacc
    simp only [CTransaction.sumValueOut]
    rw [checkedAdd_of_le ha.1 ho'.1 (by omega)]
    refine (Avoids.ok _ _).bind fun n hn => ?_
    split
    · exact .error (by simp)
    next hr =>
      simp only [Bool.or_eq_true, Bool.not_eq_true', not_or, Bool.not_eq_false] at hr
      exact ih hl hr.2

/-- What an output lacks to a whole number of spocks. -/
def spockShortfall (out : CTxOut) : Int := (-out.nValue) % spockSats

/-- The total of the raw values leaves enough room below `MAX_MONEY` to round
every output up. -/
def RoundingFits (tx : CTransaction) : Prop :=
  rawValueOut tx.vout + (tx.vout.map spockShortfall).sum ≤ maxMoney

theorem spockQuantize_eq_add_shortfall (h : 0 ≤ out.nValue) :
    spockQuantize out.nValue = out.nValue + spockShortfall out := by
  rw [spockQuantize_eq, spockShortfall, spockSats, Int.tmod_eq_emod_of_nonneg h]
  split <;> omega

theorem quantizedValueOut_eq_add_shortfall (h : ∀ o ∈ vout, 0 ≤ o.nValue) :
    quantizedValueOut vout = rawValueOut vout + (vout.map spockShortfall).sum := by
  induction vout with
  | nil => rfl
  | cons o l ih =>
    obtain ⟨ho, hl⟩ := forall_mem_cons.mp h
    rw [quantizedValueOut_cons, rawValueOut_cons, ih hl, spockQuantize_eq_add_shortfall ho,
      map_cons, sum_cons]
    ring

/-- `GetValueOut` throws only because of the rounding. -/
theorem exists_getValueOut_iff (h : checkTransactionCommon tx = .ok ()) :
    (∃ v, tx.getValueOut = .ok v) ↔ RoundingFits tx := by
  have hv := moneyRange_of_common h
  simp only [CTransaction.getValueOut_eq_ok_iff hv, exists_eq_left, RoundingFits]
  rw [quantizedValueOut_eq_add_shortfall fun o ho => (moneyRange_iff.mp (hv o ho)).1]

/-- **When `GetValueOut` returns.** For a transaction accepted by `CheckRegularTransaction` or
`CheckCoinbase`, exactly when the roundings fit; for a block accepted by `CheckBlock`, on all
transactions exactly when they fit in each; and then `ConnectBlock` ends without its exception, on
any view of well-formed coins. -/
theorem getValueOut_returns_iff (tx : CTransaction) (env : Env) (p : Params) (block : CBlock)
    (pindex : CBlockIndex) (view : CCoinsViewCache UtxoSet) (g : Option CColdRewards)
    (checkPoW checkMerkle suppress fJustCheck : Bool) :
    (checkRegularTransaction tx = .ok () ∨ checkCoinbase tx = .ok () →
      ((∃ v, tx.getValueOut = .ok v) ↔ RoundingFits tx)) ∧
    (checkBlock env block checkPoW checkMerkle = .ok () →
      ((∀ tx ∈ block.vtx, ∃ v, tx.getValueOut = .ok v) ↔ ∀ tx ∈ block.vtx, RoundingFits tx)) ∧
    (p.IsDeVault → view.CoinsWf → (∀ tx ∈ block.vtx, RoundingFits tx) →
      ∀ what, (connectBlock env p block pindex view g suppress fJustCheck).2 ≠
        .error (.runtimeError what)) := by
  refine ⟨?_, ?_, ?_⟩
  · rintro (h | h)
    · exact exists_getValueOut_iff (common_of_regular h).2
    · exact exists_getValueOut_iff (common_of_coinbase h).2
  · intro h
    exact forall₂_congr fun tx htx => exists_getValueOut_iff (common_of_checkBlock h tx htx)
  · intro hp hv hfits what h
    have havoids : Avoids (· = Fault.runtimeError what)
        (connectBlock env p block pindex view g suppress fJustCheck).2 := by
      refine connectBlock_avoids ?_ hp env pindex hv g suppress fJustCheck ?_
      · rintro _ rfl
        rfl
      · intro tx htx hcommon e he
        obtain ⟨v, hret⟩ := (exists_getValueOut_iff hcommon).mpr (hfits tx htx)
        cases he.symm.trans hret
    exact havoids _ h rfl

theorem getValueOut_returns_firstBlock :
    (∃ v, (coinbaseTx 1 [{ nValue := 500 * coin, scriptPubKey := [0x51] }]).getValueOut = .ok v) ∧
    (∀ tx ∈ (firstBlock mainParams [{ nValue := 500 * coin, scriptPubKey := [0x51] }]).vtx,
      ∃ v, tx.getValueOut = .ok v) ∧
    (connectBlock Env.permissive mainParams
        (firstBlock mainParams [{ nValue := 500 * coin, scriptPubKey := [0x51] }])
        (firstIndex mainParams 1) (genesisView mainParams) none false false).2 ≠
      .error (.runtimeError "GetValueOut: value out of range") := by
  have hfits : RoundingFits (coinbaseTx 1 [{ nValue := 500 * coin, scriptPubKey := [0x51] }]) := by
    unfold RoundingFits
    decide
  have hall : ∀ tx ∈ (firstBlock mainParams [{ nValue := 500 * coin, scriptPubKey := [0x51] }]).vtx,
      RoundingFits tx := by
    intro tx htx
    obtain rfl := mem_singleton.mp htx
    exact hfits
  obtain ⟨htx, hblock, hconnect⟩ := getValueOut_returns_iff
    (coinbaseTx 1 [{ nValue := 500 * coin, scriptPubKey := [0x51] }]) Env.permissive mainParams
    (firstBlock mainParams [{ nValue := 500 * coin, scriptPubKey := [0x51] }])
    (firstIndex mainParams 1) (genesisView mainParams) none true true false false
  refine ⟨?_, ?_, ?_⟩
  · exact (htx (Or.inr (by decide))).mpr hfits
  · exact (hblock (by decide)).mpr hall
  · exact hconnect (Or.inl rfl) (CCoinsViewCache.CoinsWf.ofBase _ _) hall _

/-- A transaction that spends one coin to outputs of `MAX_MONEY` in all, one
satoshi of them apart from the rest. -/
def capTx : CTransaction :=
  { vin := [{ prevout := ⟨7, 0⟩ }]
    vout := [{ nValue := maxMoney - 1, scriptPubKey := [0x51] },
      { nValue := 1, scriptPubKey := [0x51] }]
    hash := 8 }

/-- The second block of a chain, with that transaction. -/
def capBlock : CBlock :=
  { hash := 2, hashPrevBlock := 1
    vtx := [coinbaseTx 2 [{ nValue := 500 * coin, scriptPubKey := [0x51] }], capTx] }

/-- A database with the coin that the transaction spends. -/
def capCoins : UtxoSet :=
  (UtxoSet.empty 1).add ⟨7, 0⟩
    { out := { nValue := coin, scriptPubKey := [0x51] }, nHeight := 1, fCoinBase := false }
    ⟨by decide, by decide, by decide⟩

/-- How connecting the block on that database fails. -/
def capBlockFault : Option Fault :=
  match (connectBlock Env.permissive mainParams capBlock
    ⟨2, 2, [1, mainParams.hashGenesisBlock], rfl⟩ { base := capCoins, hashBlock := 1 }
    (some (CColdRewards.init mainParams)) false false).2 with
  | .error e => some e
  | .ok _ => none

/-- Two outputs that add up to the cap pass all checks and cannot be summed. -/
theorem capTx_getValueOut_throws :
    checkRegularTransaction capTx = .ok () ∧
    checkBlock Env.permissive capBlock true true = .ok () ∧
    capTx.getValueOut = .error (.runtimeError "GetValueOut: value out of range") ∧
    capBlockFault = some (.runtimeError "GetValueOut: value out of range") := by
  decide +kernel

end DeVault
