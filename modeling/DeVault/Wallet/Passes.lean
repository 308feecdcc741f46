import DeVault.Wallet.Conservation

/-!
# How often `CreateTransaction` tries

The loop of `CreateTransaction` raises the fee, lowers it, or adds dust to it, and may select other
coins every time. Still it ends soon: a pass that keeps the coins is the last one, and a pass that
selects coins starts with a larger fee than the pass before it, which is the minimum fee of a draft.
The exception is the second pass, if it takes over from branch and bound: both start with no fee.
-/

namespace DeVault

open List Retry Set

section Passes

variable {env : CreateEnv} {order : Order} {pick s s' : LoopState}

theorem finite_minimumFees : (minimumFees env order).Finite :=
  (finite_Icc _ _).subset minimumFees_subset

/-- The passes that can follow: one with kept coins, one for each larger fee, and one after
branch and bound. -/
noncomputable def passesLeft (env : CreateEnv) (order : Order) (s : LoopState) : Nat :=
  if s.pickNewInputs then
    (minimumFees env order ∩ Ioi s.nFeeRet).ncard + (if s.useBnb then 1 else 0) + 1
  else 0

/-- Each pass leaves fewer passes. -/
theorem passesLeft_again (hp : order.Prepared env) (hs : StateOk env order s)
    (h : turn env order s = .again s') : passesLeft env order s' < passesLeft env order s := by
  obtain ⟨hpick, ⟨huse, rfl⟩ | hkept | ⟨huse, hlt, hmem⟩⟩ := again_cases hp hs h
  · simp [passesLeft, hpick, huse]
  · simp [passesLeft, hpick, hkept]
  · -- the new fee is one of those above the old fee, but not above itself
    have hcard : (minimumFees env order ∩ Ioi s'.nFeeRet).ncard <
        (minimumFees env order ∩ Ioi s.nFeeRet).ncard := by
      apply ncard_lt_ncard _ (finite_minimumFees.inter_of_left _)
      refine ⟨inter_subset_inter_right _ (Ioi_subset_Ioi hlt.le), fun hsub => ?_⟩
      exact lt_irrefl s'.nFeeRet (hsub ⟨hmem, hlt⟩).2
    rw [passesLeft, passesLeft, if_pos hpick, huse, if_neg Bool.false_ne_true]
    split <;> omega

theorem exists_retry_turn (hp : order.Prepared env) {n : Nat}
    (hn : (minimumFees env order).ncard + 2 < n) :
    ∃ r, retry (turn env order) n { useBnb := order.nSubtractFeeFromAmount = 0 } = some r := by
  refine exists_retry (P := StateOk env order) (passesLeft env order)
    (fun s s' hs hagain => ⟨hs.again hp hagain, passesLeft_again hp hs hagain⟩) stateOk_start ?_
  have hcard := ncard_le_ncard (Set.inter_subset_left (s := minimumFees env order)
    (t := Ioi 0)) finite_minimumFees
  rw [passesLeft, if_pos rfl]
  split <;> simp only <;> omega

/-- **The loop ends**: the fees of new attempts are different, and at most `maxTxFee`. -/
theorem exists_runLoop (hp : order.Prepared env) : ∃ r, runLoop env order = some r := by
  have hcard : (minimumFees env order).ncard ≤ (Icc 0 env.policy.maxTxFee).ncard :=
    ncard_le_ncard minimumFees_subset (finite_Icc _ _)
  rw [← Finset.coe_Icc, ncard_coe_finset, Int.card_Icc] at hcard
  exact exists_retry_turn hp (by omega)

/-- Branch and bound is for the first pass only. -/
theorem Passes.eq_start (hp : order.Prepared env) (h : Passes env order pick s)
    (hpick : s.pickNewInputs = true) (huse : s.useBnb = true) :
    s = { useBnb := order.nSubtractFeeFromAmount = 0 } := by
  cases h with
  | start => rfl
  | again h hagain =>
    obtain ⟨-, ⟨-, rfl⟩ | hkept | ⟨hother, -⟩⟩ := again_cases hp (h.stateOk hp) hagain
    · cases huse
    · cases hkept.symm.trans hpick
    · cases hother.symm.trans huse

/-- **The passes of the loop.** There are at most three more than there are minimum fees of
drafts. A pass that keeps the coins leaves the loop. A pass that selects coins starts with a larger
fee than the pass before, unless that was the first pass and has given up branch and bound. -/
theorem createTransaction_passes {vecSend : List CRecipient} {request : Option Nat}
    {control : CCoinControl} {coinsel : CoinSelectionHint}
    (h : prepare env vecSend request control coinsel = .ok order) :
    (minimumFees env order).Finite ∧
    (∃ r, retry (turn env order) ((minimumFees env order).ncard + 3)
      { useBnb := order.nSubtractFeeFromAmount = 0 } = some r) ∧
    ∀ pick s, Passes env order pick s →
      (s.pickNewInputs = false → ∃ r, turn env order s = .leave r) ∧
      ∀ s', turn env order s = .again s' → s'.pickNewInputs = true →
        s.nFeeRet < s'.nFeeRet ∨
          s = { useBnb := order.nSubtractFeeFromAmount = 0 } ∧ s.useBnb = true ∧
            s'.useBnb = false ∧ s'.nFeeRet = 0 := by
  have hp := (prepare_ok h).1
  refine ⟨finite_minimumFees, exists_retry_turn hp (Nat.lt_succ_self _),
    fun pick s hpasses => ⟨fun hkept => ?_, fun s' hagain hpick => ?_⟩⟩
  · cases hturn : turn env order s with
    | again s' => cases hkept.symm.trans (again_cases hp (hpasses.stateOk hp) hturn).1
    | leave r => exact ⟨r, rfl⟩
  · obtain ⟨hpick₀, ⟨huse, rfl⟩ | hkept | ⟨-, hlt, -⟩⟩ :=
      again_cases hp (hpasses.stateOk hp) hagain
    · obtain rfl := hpasses.eq_start hp hpick₀ huse
      exact .inr ⟨rfl, huse, rfl, rfl⟩
    · cases hkept.symm.trans hpick
    · exact .inl hlt

end Passes

/-! ### A wallet with little change

The wallet has one coin, and what is over is too little to pay the fee from it. Branch and bound
finds nothing; the next pass finds the fee; the third pass pays it. Every fee is `maxTxFee`. -/

namespace LittleChange

/-- The sizes are those of inputs and outputs with the hash of a key, and all fees are the largest
one. -/
def env : CreateEnv :=
  { OneCoin.env (10 * coin) 0 1000000 with
    policy := { OneCoin.policy 1000000 with maxTxFee := 10000, maxTxFee_nonneg := by decide }
    calculateMaximumSignedTxSize := fun tx => 10 + 148 * tx.vin.length + 34 * tx.vout.length }

/-- All but 400000 satoshi of the coin are sent. -/
def order : Order where
  vecSend := [{ scriptPubKey := OneCoin.script, nAmount := 10 * coin - 400000 }]
  control := { nodup := nodup_nil }
  nValue := 10 * coin - 400000
  nSubtractFeeFromAmount := 0
  scriptChange := OneCoin.script
  vAvailableCoins := [OneCoin.output (10 * coin)]
  nChangePosRequest := none

theorem prepare_order :
    prepare env order.vecSend none { nodup := nodup_nil } .default = .ok order := rfl

/-- Any draft, with any coins, has the same fee. -/
theorem minimumFees_order : minimumFees env order ⊆ {10000} := by
  rintro fee ⟨s, outs, chosen, vout, position, nFeeRet, -, -, rfl⟩
  have hsize : 10 ≤ estimatedSize env chosen vout := by
    change 10 ≤ (10 + 148 * ((chosen.setCoins.map _).length : Int) + 34 * (vout.length : Int)).toNat
    omega
  have hten : env.policy.getMinimumFee 10 = 10000 := by decide +kernel
  exact le_antisymm (env.policy.getMinimumFee_le _) (hten ▸ env.policy.getMinimumFee_mono hsize)

end LittleChange

open LittleChange in
theorem createTransaction_passes_littleChange :
    ∃ r, retry (turn env order) ((minimumFees env order).ncard + 3) { useBnb := true } = some r :=
  (createTransaction_passes prepare_order).2.1

open LittleChange in
/-- Three passes, although there is only one fee. -/
theorem createTransaction_threePasses :
    prepare env order.vecSend none { nodup := nodup_nil } .default = .ok order ∧
      (minimumFees env order).ncard ≤ 1 ∧
      (retry (turn env order) 2 { useBnb := true }).isSome = false ∧
      (retry (turn env order) 3 { useBnb := true }).isSome = true := by
  refine ⟨rfl, ?_, by decide +kernel, by decide +kernel⟩
  exact (ncard_le_ncard minimumFees_order).trans (ncard_singleton _).le

end DeVault
