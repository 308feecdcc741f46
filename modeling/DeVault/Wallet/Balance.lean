import DeVault.Wallet.CreateTransaction

/-!
# What the loop of `CreateTransaction` leaves

One turn of the loop is taken apart (`turn_cases`), then the turn in which the loop was left is
found (`LastTurn`), with the closed form of its change and its fee.
-/

namespace DeVault

open List Retry Outcome

/-! ### The outputs of the recipients -/

variable {vecSend : List CRecipient}

/-- The fee that the recipients pay, and that no output is negative. -/
theorem recipientOutputs_sum {policy : FeePolicy} {nFeeRet : Int} {n : Nat}
    {fFirst : Bool} {outs : List CTxOut}
    (h : recipientOutputs policy nFeeRet n fFirst vecSend = .ok outs) :
    rawValueOut outs = (vecSend.map (·.nAmount)).sum -
        vecSend.countP (·.fSubtractFeeFromAmount) * nFeeRet.tdiv n -
        (if fFirst ∧ 0 < vecSend.countP (·.fSubtractFeeFromAmount) then nFeeRet.tmod n else 0) ∧
      ∀ out ∈ outs, 0 ≤ out.nValue := by
  induction vecSend generalizing fFirst outs with
  | nil =>
    cases h
    simp
  | cons recipient rest ih =>
    rw [recipientOutputs] at h
    obtain ⟨-, h⟩ := guard_ok.mp h
    obtain ⟨hdust, h⟩ := guard_ok.mp h
    obtain ⟨tail, htail, h⟩ := bind_ok_iff.mp h
    cases h
    obtain ⟨hsum, hnonneg⟩ := ih htail
    refine ⟨?_, ?_⟩
    · rw [rawValueOut_cons, hsum, map_cons, sum_cons, countP_cons]
      -- one recipient more takes a share; the first one that does takes the remainder
      cases hsub : recipient.fSubtractFeeFromAmount with
      | false => simp [recipientOutput, hsub]; omega
      | true =>
        cases fFirst with
        | false => simp [recipientOutput, hsub, add_mul]; omega
        | true => simp [recipientOutput, hsub, add_mul]; omega
    · exact forall_mem_cons.mpr
        ⟨policy.nValue_nonneg_of_isDust (by simpa using hdust), hnonneg⟩

/-- What `prepare` makes of the arguments. -/
structure Order.Prepared (env : CreateEnv) (order : Order) : Prop where
  nValue_eq : order.nValue = (order.vecSend.map (·.nAmount)).sum
  nSubtract_eq : order.nSubtractFeeFromAmount = order.vecSend.countP (·.fSubtractFeeFromAmount)
  nodup : (outpoints (order.vAvailableCoins.map COutput.getInputCoin)).Nodup

theorem foldlM_sumRecipient {s s' : Int × Nat} (h : vecSend.foldlM sumRecipient s = .ok s') :
    s'.1 = s.1 + (vecSend.map (·.nAmount)).sum ∧
      s'.2 = s.2 + vecSend.countP (·.fSubtractFeeFromAmount) ∧ ∀ r ∈ vecSend, 0 ≤ r.nAmount := by
  induction vecSend generalizing s with
  | nil =>
    cases h
    simp
  | cons recipient rest ih =>
    obtain ⟨s₁, hstep, hrest⟩ := foldlM_cons_ok.mp h
    obtain ⟨hvalue, hcount, hnonneg⟩ := ih hrest
    unfold sumRecipient at hstep
    obtain ⟨hneg, hstep⟩ := guard_ok.mp hstep
    cases (guard_ok.mp hstep).2
    rw [hvalue, hcount, map_cons, sum_cons, countP_cons, forall_mem_cons]
    exact ⟨by omega, by omega, by omega, hnonneg⟩

theorem prepare_ok {env : CreateEnv} {request : Option Nat}
    {control : CCoinControl} {coinsel : CoinSelectionHint} {order : Order}
    (h : prepare env vecSend request control coinsel = .ok order) :
    order.Prepared env ∧ order.vecSend = vecSend ∧ order.control = control ∧
      order.nChangePosRequest = request ∧
      order.vAvailableCoins = env.availableCoins coinsel order.nValue ∧
      ∀ r ∈ vecSend, 0 ≤ r.nAmount := by
  unfold prepare at h
  obtain ⟨⟨nValue, count⟩, hsum, h⟩ := bind_ok_iff.mp h
  replace h := (guard_ok.mp (guard_ok.mp (guard_ok.mp h).2).2).2
  obtain ⟨scriptChange, -, h⟩ := bind_ok_iff.mp h
  cases h
  obtain ⟨hvalue, hcount, hnonneg⟩ := foldlM_sumRecipient hsum
  exact ⟨⟨by simpa using hvalue, by simpa using hcount, env.nodup_availableCoins _ _⟩,
    rfl, rfl, rfl,
    rfl, hnonneg⟩

variable {p : Nat}

section Loop

variable {env : CreateEnv} {order : Order} {s s' : LoopState} {built : Built}
  {outs vout : List CTxOut} {chosen : Chosen} {position : Option Nat} {nFeeRet : Int}

/-- The outputs of the recipients come to the amount, less the fee if they pay it. -/
theorem Order.Prepared.rawValueOut_eq (hp : order.Prepared env)
    (h : recipientOutputs env.policy nFeeRet order.nSubtractFeeFromAmount true order.vecSend =
      .ok outs) :
    rawValueOut outs = order.nValue -
      if order.nSubtractFeeFromAmount = 0 then 0 else nFeeRet := by
  have hsum := (recipientOutputs_sum h).1
  rw [← hp.nValue_eq, ← hp.nSubtract_eq] at hsum
  rw [hsum]
  by_cases hzero : order.nSubtractFeeFromAmount = 0
  · simp [hzero]
  · have hdiv := Int.mul_tdiv_add_tmod nFeeRet order.nSubtractFeeFromAmount
    rw [if_neg hzero, if_pos ⟨rfl, Nat.pos_of_ne_zero hzero⟩]
    linarith

/-! ### A turn -/

/-- What holds when a turn starts: the fee is not negative, and coins that are kept
reach the amount. -/
structure StateOk (env : CreateEnv) (order : Order) (s : LoopState) : Prop where
  nonneg : 0 ≤ s.nFeeRet
  kept : s.pickNewInputs = false → Selected env.wallet order.vAvailableCoins order.control
    (order.nValueToSelect s.nFeeRet) s.setCoins s.nValueIn

/-- A turn up to the comparison of fees. -/
structure Drafted (env : CreateEnv) (order : Order) (s : LoopState) (outs : List CTxOut)
    (chosen : Chosen) (vout : List CTxOut) (position : Option Nat) (nFeeRet : Int) : Prop where
  outs_eq : recipientOutputs env.policy s.nFeeRet order.nSubtractFeeFromAmount true
    order.vecSend = .ok outs
  selected : Selected env.wallet order.vAvailableCoins order.control
    (order.nValueToSelect s.nFeeRet) chosen.setCoins chosen.nValueIn
  placed :
    (position = none ∧ vout = outs ∧
      nFeeRet = s.nFeeRet + (chosen.nValueIn - order.nValueToSelect s.nFeeRet)) ∨
    ∃ p ≤ outs.length, position = some p ∧
      vout = outs.insertIdx p { nValue := chosen.nValueIn - order.nValueToSelect s.nFeeRet
                                scriptPubKey := order.scriptChange } ∧
      nFeeRet = s.nFeeRet ∧ 0 < chosen.nValueIn - order.nValueToSelect s.nFeeRet

/-- **What becomes of the change**: it goes to the fee, or to an output if there is some, it is no
dust and the coins were not chosen to avoid it. -/
theorem placeChange_cases {attempt : Nat} {nChange fee : Int} {bnbUsed : Bool}
    (h : placeChange env order attempt nChange bnbUsed outs fee = .ok (vout, position, nFeeRet)) :
    (position = none ∧ vout = outs ∧ nFeeRet = fee + max 0 nChange ∧ ¬(0 < nChange ∧
      env.policy.isDust { nValue := nChange, scriptPubKey := order.scriptChange } = false ∧
      bnbUsed = false)) ∨
    (∃ p ≤ outs.length, position = some p ∧
      vout = outs.insertIdx p { nValue := nChange, scriptPubKey := order.scriptChange } ∧
      nFeeRet = fee) ∧ 0 < nChange ∧
      env.policy.isDust { nValue := nChange, scriptPubKey := order.scriptChange } = false ∧
      bnbUsed = false := by
  unfold placeChange at h
  simp only at h
  split at h
  next hpos =>
    replace h := (guard_ok.mp h).2
    split at h
    next hgone =>
      cases (guard_ok.mp h).2
      refine .inl ⟨rfl, rfl, by omega, fun hkept => ?_⟩
      rw [hkept.2.1, hkept.2.2] at hgone
      cases hgone
    next hkept =>
    rw [Bool.or_eq_true, not_or, Bool.not_eq_true, Bool.not_eq_true] at hkept
    refine .inr ⟨?_, hpos, hkept⟩
    split at h
    · cases h
      have hlt := env.getRandInt_lt attempt (outs.length + 1) (Nat.succ_pos _)
      exact ⟨_, Nat.le_of_lt_succ hlt, rfl, rfl, rfl⟩
    next p _ =>
      obtain ⟨hle, h⟩ := guard_ok.mp h
      cases h
      exact ⟨p, by omega, rfl, rfl, rfl⟩
  next hpos =>
    cases h
    exact .inl ⟨rfl, rfl, by omega, fun hkept => hpos hkept.1⟩

theorem chooseCoins_none (hp : order.Prepared env) (hs : StateOk env order s)
    (h : chooseCoins env order s = (none, chosen)) :
    Selected env.wallet order.vAvailableCoins order.control (order.nValueToSelect s.nFeeRet)
      chosen.setCoins chosen.nValueIn := by
  unfold chooseCoins selectionOf at h
  split at h
  · obtain ⟨hnone, rfl⟩ := Prod.mk.inj h
    refine selectCoins_selected hp.nodup ?_
    by_contra hfound
    rw [if_neg hfound] at hnone
    cases hnone
  next hkeep =>
    cases h
    exact hs.kept (by simpa using hkeep)

/-- Branch and bound is given up only if it was used on new inputs. -/
theorem chooseCoins_some_true (h : chooseCoins env order s = (some true, chosen)) :
    s.pickNewInputs = true ∧ s.useBnb = true := by
  unfold chooseCoins selectionOf at h
  split at h
  next hpick =>
    obtain ⟨hsome, -⟩ := Prod.mk.inj h
    split at hsome
    · cases hsome
    next hfound =>
    obtain ⟨bnbUsed, hwritten, hasked⟩ := selectCoins_notFound (by simpa using hfound)
    rw [hwritten] at hsome
    exact ⟨hpick, hasked (Option.some.inj hsome)⟩
  · exact absurd (Prod.mk.inj h).1 (by simp)

/-- A turn, step by step: it fails, goes to the other solver, or comes to the
comparison of fees. -/
theorem turn_steps (env : CreateEnv) (order : Order) (s : LoopState) :
    (∃ failure, turn env order s = .leave (.error failure)) ∨
    (∃ chosen, chooseCoins env order s = (some true, chosen) ∧
      turn env order s = .again { s with useBnb := false, attempt := s.attempt + 1 }) ∨
    ∃ outs chosen vout position nFeeRet,
      recipientOutputs env.policy s.nFeeRet order.nSubtractFeeFromAmount true order.vecSend =
        .ok outs ∧
      chooseCoins env order s = (none, chosen) ∧
      placeChange env order s.attempt (chosen.nValueIn - order.nValueToSelect s.nFeeRet)
        chosen.bnbUsed outs s.nFeeRet = .ok (vout, position, nFeeRet) ∧
      turn env order s = settleFee env order s chosen vout position nFeeRet := by
  unfold turn
  split
  · exact .inl ⟨_, rfl⟩
  split
  next failure _ => exact .inl ⟨failure, rfl⟩
  next outs houts =>
  split
  · exact .inl ⟨_, rfl⟩
  split
  next chosen hchoose => exact .inr (.inl ⟨chosen, hchoose, rfl⟩)
  · exact .inl ⟨_, rfl⟩
  next chosen hchoose =>
  split
  next failure _ => exact .inl ⟨failure, rfl⟩
  next vout position nFeeRet hplace =>
    exact .inr (.inr ⟨outs, chosen, vout, position, nFeeRet, houts, hchoose, hplace, rfl⟩)

/-- The draft of a turn whose coins reach the amount. -/
theorem drafted_of_steps (hp : order.Prepared env) (hs : StateOk env order s)
    (houts : recipientOutputs env.policy s.nFeeRet order.nSubtractFeeFromAmount true
      order.vecSend = .ok outs) (hchoose : chooseCoins env order s = (none, chosen))
    (hplace : placeChange env order s.attempt (chosen.nValueIn - order.nValueToSelect s.nFeeRet)
      chosen.bnbUsed outs s.nFeeRet = .ok (vout, position, nFeeRet)) :
    Drafted env order s outs chosen vout position nFeeRet := by
  have hsel := chooseCoins_none hp hs hchoose
  refine ⟨houts, hsel, ?_⟩
  rcases placeChange_cases hplace with ⟨hnone, hvout, hfee, -⟩ |
    ⟨⟨p, hp, hsome, hvout, hfee⟩, hpos, -⟩
  · exact .inl ⟨hnone, hvout, by rw [hfee, max_eq_right (sub_nonneg.mpr hsel.target_le)]⟩
  · exact .inr ⟨p, hp, hsome, hvout, hfee, hpos⟩

/-- **What a turn can do** from a state that is in order. -/
theorem turn_cases (hp : order.Prepared env) (hs : StateOk env order s) :
    (∃ failure, turn env order s = .leave (.error failure)) ∨
    (s.pickNewInputs = true ∧ s.useBnb = true ∧
      turn env order s = .again { s with useBnb := false, attempt := s.attempt + 1 }) ∨
    ∃ outs chosen vout position nFeeRet, Drafted env order s outs chosen vout position nFeeRet ∧
        turn env order s = settleFee env order s chosen vout position nFeeRet := by
  obtain hfail | ⟨chosen, hchoose, hturn⟩ | ⟨outs, chosen, vout, position, nFeeRet, houts, hchoose,
    hplace, hturn⟩ := turn_steps env order s
  · exact .inl hfail
  · obtain ⟨hpick, hbnb⟩ := chooseCoins_some_true hchoose
    exact .inr (.inl ⟨hpick, hbnb, hturn⟩)
  · exact .inr (.inr ⟨outs, chosen, vout, position, nFeeRet,
      drafted_of_steps hp hs houts hchoose hplace, hturn⟩)

theorem Drafted.le_nFeeRet (h : Drafted env order s outs chosen vout position nFeeRet) :
    s.nFeeRet ≤ nFeeRet := by
  have := h.selected.target_le
  obtain ⟨-, -, hfee⟩ | ⟨p, -, -, -, hfee, -⟩ := h.placed <;> omega

/-- The size that a turn estimates. -/
def estimatedSize (env : CreateEnv) (chosen : Chosen) (vout : List CTxOut) : Nat :=
  (env.calculateMaximumSignedTxSize (unsignedTx env chosen.setCoins vout)).toNat

/-- **A new attempt.** Either the inputs are kept and the excess fee becomes change, or the fee was
too small and is now what was needed. -/
theorem settleFee_again (h : settleFee env order s chosen vout position nFeeRet = .again s') :
    s.pickNewInputs = true ∧ s'.setCoins = chosen.setCoins ∧ s'.nValueIn = chosen.nValueIn ∧
      ((position = none ∧ order.nSubtractFeeFromAmount = 0 ∧ s'.pickNewInputs = false ∧
          0 ≤ s'.nFeeRet ∧ s'.nFeeRet ≤ nFeeRet) ∨
        (s'.pickNewInputs = decide (order.nSubtractFeeFromAmount = 0) ∧ s'.useBnb = false ∧
          nFeeRet < s'.nFeeRet ∧
          s'.nFeeRet = env.policy.getMinimumFee (estimatedSize env chosen vout))) := by
  unfold settleFee at h
  simp only at h
  split at h
  · cases h
  split at h
  · cases h
  split at h
  · cases h
  split at h
  · -- enough fee, which may be tried as change
    unfold enoughFee at h
    simp only at h
    split at h
    · cases h
    split at h
    next hc =>
      obtain ⟨hnone, hzero, hpick, hle⟩ := hc
      cases h
      refine ⟨hpick, rfl, rfl, .inl ⟨hnone, hzero, rfl, env.policy.getMinimumFee_nonneg _, ?_⟩⟩
      have hdust := env.policy.getDustThreshold_nonneg
        { nValue := 0, scriptPubKey := order.scriptChange }
      simp only
      omega
    · split at h
      · split at h <;> cases h
      · cases h
  next hmissing =>
    unfold missingFee at h
    split at h
    · cases h
    next hpick =>
    have hpick : s.pickNewInputs = true := by simpa using hpick
    have hgt : nFeeRet < env.policy.getMinimumFee (estimatedSize env chosen vout) := by
      rw [estimatedSize]
      omega
    split at h
    · split at h
      · cases h
      · cases h
        exact ⟨hpick, rfl, rfl, .inr ⟨rfl, rfl, hgt, rfl⟩⟩
    · cases h
      exact ⟨hpick, rfl, rfl, .inr ⟨rfl, rfl, hgt, rfl⟩⟩

/-! ### The loop ends -/

theorem StateOk.again (hp : order.Prepared env) (hs : StateOk env order s)
    (h : turn env order s = .again s') : StateOk env order s' := by
  obtain ⟨failure, hfail⟩ | ⟨hpick, -, hbnb⟩ | ⟨outs, chosen, vout, position, nFeeRet, hdraft,
    hsettle⟩ := turn_cases hp hs
  · cases hfail.symm.trans h
  · cases hbnb.symm.trans h
    exact ⟨hs.nonneg, fun hno => absurd (hpick.symm.trans hno) (by decide)⟩
  obtain ⟨-, hcoins, hvalue, hcase⟩ := settleFee_again (hsettle.symm.trans h)
  have hle := hdraft.le_nFeeRet
  have hsel := hdraft.selected
  have hnonneg := hs.nonneg
  -- kept coins reach the new amount: it is smaller, or does not depend on the fee
  have hkeep : order.nValueToSelect s'.nFeeRet ≤ chosen.nValueIn →
      Selected env.wallet order.vAvailableCoins order.control (order.nValueToSelect s'.nFeeRet)
        s'.setCoins s'.nValueIn := by
    intro htarget
    rw [hcoins, hvalue]
    exact { hsel with target_le := htarget }
  obtain ⟨hnone, hzero, -, hnew, hfee⟩ | ⟨hpick, -, hfee, -⟩ := hcase
  · refine ⟨hnew, fun _ => hkeep ?_⟩
    obtain ⟨-, -, heq⟩ | ⟨p, -, hsome, -⟩ := hdraft.placed
    · rw [Order.nValueToSelect, if_pos hzero] at heq ⊢
      omega
    · cases hnone.symm.trans hsome
  · refine ⟨by omega, fun hno => hkeep ?_⟩
    have hpos : order.nSubtractFeeFromAmount ≠ 0 := by
      intro hzero
      rw [hpick, hzero] at hno
      cases hno
    have htarget := hsel.target_le
    rw [Order.nValueToSelect, if_neg hpos] at htarget ⊢
    exact htarget

/-- The fees that can be needed: `GetMinimumFee` of the size of every draft, with any offered
coins that reach the amount. -/
def minimumFees (env : CreateEnv) (order : Order) : Set Int :=
  {fee | ∃ s outs chosen vout position nFeeRet, StateOk env order s ∧
    Drafted env order s outs chosen vout position nFeeRet ∧
    fee = env.policy.getMinimumFee (estimatedSize env chosen vout)}

theorem minimumFees_subset : minimumFees env order ⊆ Set.Icc 0 env.policy.maxTxFee := by
  rintro fee ⟨s, outs, chosen, vout, position, nFeeRet, -, -, rfl⟩
  exact ⟨env.policy.getMinimumFee_nonneg _, env.policy.getMinimumFee_le _⟩

/-- **What a new turn starts from.** The turn before selected coins; now the other solver is taken,
or the coins are kept, or they are selected for a larger fee of a draft. -/
theorem again_cases (hp : order.Prepared env) (hs : StateOk env order s)
    (h : turn env order s = .again s') :
    s.pickNewInputs = true ∧
      (s.useBnb = true ∧ s' = { s with useBnb := false, attempt := s.attempt + 1 } ∨
        s'.pickNewInputs = false ∨
        s'.useBnb = false ∧ s.nFeeRet < s'.nFeeRet ∧ s'.nFeeRet ∈ minimumFees env order) := by
  obtain ⟨failure, hfail⟩ | ⟨hpick, huse, hbnb⟩ | ⟨outs, chosen, vout, position, nFeeRet, hdraft,
    hsettle⟩ := turn_cases hp hs
  · cases hfail.symm.trans h
  · exact ⟨hpick, .inl ⟨huse, (Turn.again.inj (hbnb.symm.trans h)).symm⟩⟩
  obtain ⟨hpick, -, -, hcase⟩ := settleFee_again (hsettle.symm.trans h)
  refine ⟨hpick, .inr ?_⟩
  obtain ⟨-, -, hkept, -⟩ | ⟨-, huse, hfee, hneeded⟩ := hcase
  · exact .inl hkept
  · exact .inr ⟨huse, hdraft.le_nFeeRet.trans_lt hfee,
      s, outs, chosen, vout, position, nFeeRet, hs, hdraft, hneeded⟩

theorem stateOk_start : StateOk env order { useBnb := order.nSubtractFeeFromAmount = 0 } :=
  ⟨le_refl 0, fun h => absurd h Bool.true_eq_false.mp⟩

/-! ### The last turn -/

/-- **The turn in which the loop was left.** It started from `s`; `value` is the sum of the coins,
`nBytes` the estimated size. With change, the fee is the minimum fee of that size or what the
recipients have paid. -/
structure LastTurn (env : CreateEnv) (order : Order) (s : LoopState) (outs : List CTxOut)
    (value : Int) (nBytes : Nat) (built : Built) : Prop where
  state : StateOk env order s
  outs_eq : recipientOutputs env.policy s.nFeeRet order.nSubtractFeeFromAmount true
    order.vecSend = .ok outs
  selected : Selected env.wallet order.vAvailableCoins order.control
    (order.nValueToSelect s.nFeeRet) built.setCoins value
  estimate : ∃ vout : List CTxOut, vout.map (·.scriptPubKey) = built.vout.map (·.scriptPubKey) ∧
      nBytes = (env.calculateMaximumSignedTxSize (unsignedTx env built.setCoins vout)).toNat
  minimum_le : env.policy.getMinimumFee nBytes ≤ built.nFeeRet
  placed :
    (built.nChangePosInOut = none ∧ built.vout = outs ∧
      built.nFeeRet = s.nFeeRet + (value - order.nValueToSelect s.nFeeRet)) ∨
    ∃ p ≤ outs.length, ∃ change : Int, built.nChangePosInOut = some p ∧
      built.vout = outs.insertIdx p { nValue := change, scriptPubKey := order.scriptChange } ∧
      0 ≤ change ∧
      (if order.nSubtractFeeFromAmount = 0 then
        built.nFeeRet = env.policy.getMinimumFee nBytes ∧
          change = value - order.nValue - env.policy.getMinimumFee nBytes
      else built.nFeeRet = s.nFeeRet ∧ change = value - order.nValue)

theorem addToOutput_insertIdx (hp : p ≤ outs.length) (out : CTxOut) (amount : Int) :
    addToOutput (outs.insertIdx p out) p amount =
      outs.insertIdx p { out with nValue := out.nValue + amount } := by
  induction outs generalizing p with
  | nil =>
    obtain rfl : p = 0 := Nat.le_zero.mp hp
    rfl
  | cons a outs ih =>
    cases p with
    | zero => rfl
    | succ p => exact congrArg (a :: ·) (ih (Nat.le_of_succ_le_succ hp))

theorem getD_insertIdx_self (hp : p ≤ outs.length) (out : CTxOut) :
    (outs.insertIdx p out).getD p default = out := by
  rw [getD_eq_getElem?_getD, getElem?_insertIdx_self, if_pos hp]
  rfl

theorem addToOutput_zero : addToOutput vout p 0 = vout := by
  unfold addToOutput
  simp only [add_zero]
  exact modify_id p vout

/-- How a turn leaves the loop with a transaction: as it is, or with the change taking
up what the fee has too much or lacks. -/
theorem settleFee_leave
    (h : settleFee env order s chosen vout position nFeeRet = .leave (.ok built)) :
    let nFeeNeeded := env.policy.getMinimumFee (estimatedSize env chosen vout)
    built.setCoins = chosen.setCoins ∧ built.nChangePosInOut = position ∧
      ((position = none ∨ order.nSubtractFeeFromAmount ≠ 0) ∧ built.vout = vout ∧
          built.nFeeRet = nFeeRet ∧ nFeeNeeded ≤ nFeeRet ∨
        ∃ p, position = some p ∧ order.nSubtractFeeFromAmount = 0 ∧
          built.vout = addToOutput vout p (nFeeRet - nFeeNeeded) ∧ built.nFeeRet = nFeeNeeded ∧
          (nFeeNeeded ≤ nFeeRet ∨
            minFinalChange + (nFeeNeeded - nFeeRet) ≤ (vout.getD p default).nValue)) := by
  unfold settleFee at h
  simp only at h
  split at h
  · cases h
  split at h
  · cases h
  split at h
  · cases h
  split at h
  next henough =>
    unfold enoughFee at h
    simp only at h
    split at h
    · cases h
    split at h
    · cases h
    cases position with
    | none =>
      cases h
      exact ⟨rfl, rfl, .inl ⟨.inl rfl, rfl, rfl, henough⟩⟩
    | some p =>
      simp only at h
      split at h
      next hexcess =>
        cases h
        exact ⟨rfl, rfl, .inr ⟨p, rfl, hexcess.2, rfl, rfl, .inl henough⟩⟩
      next hexcess =>
        cases h
        refine ⟨rfl, rfl, ?_⟩
        by_cases hzero : order.nSubtractFeeFromAmount = 0
        · -- the fee is just what is needed
          have heq : nFeeRet = env.policy.getMinimumFee (estimatedSize env chosen vout) :=
            le_antisymm (not_lt.mp fun hlt => hexcess ⟨hlt, hzero⟩) henough
          refine .inr ⟨p, rfl, hzero, ?_, heq, .inl henough⟩
          rw [← heq, sub_self, addToOutput_zero]
        · exact .inl ⟨.inr hzero, rfl, rfl, henough⟩
  · unfold missingFee at h
    split at h
    · cases h
    cases position with
    | none => cases h
    | some p =>
      simp only at h
      split at h
      next hpays =>
        cases h
        exact ⟨rfl, rfl, .inr ⟨p, rfl, hpays.1, rfl, rfl, .inr hpays.2⟩⟩
      · cases h

theorem Drafted.lastTurn (hs : StateOk env order s)
    (hd : Drafted env order s outs chosen vout position nFeeRet)
    (h : settleFee env order s chosen vout position nFeeRet = .leave (.ok built)) :
    LastTurn env order s outs chosen.nValueIn (estimatedSize env chosen vout) built := by
  obtain ⟨hcoins, hposition, hcase⟩ := settleFee_leave h
  have hsel := hd.selected
  rw [← hcoins] at hsel
  obtain ⟨hkind, hvout, hfee, hmin⟩ | ⟨p, rfl, hzero, hvout, hfee, hpays⟩ := hcase
  · refine ⟨hs, hd.outs_eq, hsel, ⟨vout, by rw [hvout], by rw [hcoins, estimatedSize]⟩,
      hfee ▸ hmin, ?_⟩
    obtain ⟨rfl, hsame, heq⟩ | ⟨p, hp, rfl, hsame, heq, hchange⟩ := hd.placed
    · exact .inl ⟨hposition, hvout.trans hsame, hfee.trans heq⟩
    · have hpos : order.nSubtractFeeFromAmount ≠ 0 := hkind.resolve_left (by simp)
      refine .inr ⟨p, hp, _, hposition, hvout.trans hsame, hchange.le, ?_⟩
      rw [if_neg hpos, Order.nValueToSelect, if_neg hpos]
      exact ⟨hfee.trans heq, rfl⟩
  · obtain ⟨hnone, -⟩ | ⟨p', hp, hsome, rfl, heq, hchange⟩ := hd.placed
    · cases hnone
    cases hsome
    rw [getD_insertIdx_self hp] at hpays
    rw [addToOutput_insertIdx hp] at hvout
    have hfinal : 0 ≤ minFinalChange := by decide
    refine ⟨hs, hd.outs_eq, hsel, ⟨_, ?_, by rw [hcoins, estimatedSize]⟩, hfee.ge,
      .inr ⟨p, hp, _, hposition, hvout, ?_, ?_⟩⟩
    · rw [hvout, map_insertIdx, map_insertIdx]
    · simp only at hpays ⊢
      omega
    · rw [if_pos hzero]
      refine ⟨hfee, ?_⟩
      simp only [Order.nValueToSelect, if_pos hzero]
      omega

/-- **The last turn of the loop.** -/
theorem runLoop_lastTurn (hp : order.Prepared env) (h : runLoop env order = some (.ok built)) :
    ∃ s outs value nBytes, LastTurn env order s outs value nBytes built := by
  obtain ⟨s, hs, hleave⟩ := retry_eq_some (P := StateOk env order)
    (fun s s' hs hagain => hs.again hp hagain) stateOk_start h
  obtain ⟨failure, hfail⟩ | ⟨-, -, hbnb⟩ | ⟨outs, chosen, vout, position, nFeeRet, hdraft,
    hsettle⟩ := turn_cases hp hs
  · cases hfail.symm.trans hleave
  · cases hbnb.symm.trans hleave
  · exact ⟨s, outs, chosen.nValueIn, _, hdraft.lastTurn hs (hsettle.symm.trans hleave)⟩

/-! ### The balance -/

section Balance

variable {value : Int} {nBytes : Nat}

theorem rawValueOut_insertIdx (hp : p ≤ outs.length) (out : CTxOut) :
    rawValueOut (outs.insertIdx p out) = out.nValue + rawValueOut outs := by
  rw [← rawValueOut_cons]
  exact ((perm_insertIdx out outs hp).map _).sum_eq

/-- **Outputs and fee add up to the coins**, and nothing is negative. -/
theorem LastTurn.balanced (hp : order.Prepared env)
    (h : LastTurn env order s outs value nBytes built) :
    rawValueOut built.vout + built.nFeeRet = value ∧ 0 ≤ built.nFeeRet ∧
      ∀ out ∈ built.vout, 0 ≤ out.nValue := by
  have hraw := hp.rawValueOut_eq h.outs_eq
  have hnonneg := (recipientOutputs_sum h.outs_eq).2
  have hfee : 0 ≤ built.nFeeRet := (env.policy.getMinimumFee_nonneg nBytes).trans h.minimum_le
  obtain ⟨-, hvout, heq⟩ | ⟨p, hle, change, -, hvout, hchange, hcase⟩ := h.placed
  · refine ⟨?_, hfee, hvout ▸ hnonneg⟩
    rw [hvout, hraw, heq, Order.nValueToSelect]
    split <;> omega
  · refine ⟨?_, hfee, ?_⟩
    · rw [hvout, rawValueOut_insertIdx hle, hraw]
      split at hcase
      next hzero =>
        simp only [if_pos hzero]
        omega
      next hpos =>
        simp only [if_neg hpos]
        omega
    · intro out hout
      rw [hvout] at hout
      rcases eq_or_mem_of_mem_insertIdx hout with rfl | hmem
      · exact hchange
      · exact hnonneg out hmem

end Balance

end Loop

end DeVault
