import DeVault.Wallet.Agreement

/-!
# Nothing is lost in `CreateTransaction`

Whenever the wallet creates a transaction, its coins pay for the outputs and the fee,
the fee is the minimum fee of the size at least, and a recipient who does not pay for
the fee gets exactly the amount. None of this depends on what the solvers answer or on
what `bnb_used` holds where it has not been written.

One thing does. In a pass that keeps the coins of an earlier pass, `SelectCoins` is not
called, and `bnb_used`, declared in the body of the loop, holds whatever was there. If
that is true, the change goes to the fee, however large it is.
-/

namespace DeVault

open List Retry

/-! ### The size estimate -/

/-- An input of the wallet with a dummy signature, if the wallet can make one. -/
def dummySigned (w : CWallet) (dummySignInput : CTxOut → Option CScript) (txin : CTxIn) :
    Option CTxIn :=
  (w.presetCoin txin.prevout).bind fun c =>
    (dummySignInput c.txout).map fun scriptSig => { txin with scriptSig := scriptSig }

/-- `CalculateMaximumSignedTxSize`. Its two loops, which look up the outputs and sign, both give up
with -1; the asserted index of an input is checked with the lookup. -/
def calculateMaximumSignedTxSize (w : CWallet) (dummySignInput : CTxOut → Option CScript)
    (tx : CTransaction) : Int :=
  match tx.vin.mapM (dummySigned w dummySignInput) with
  | none => -1
  | some vin => ({ tx with vin := vin } : CTransaction).serializeSize

section Size

variable {w : CWallet} {dummySignInput : CTxOut → Option CScript} {tx tx' : CTransaction}

/-- The size of a signed input that spends an outpoint. -/
def signedInputSize (w : CWallet) (dummySignInput : CTxOut → Option CScript) (o : COutPoint) :
    Option Nat :=
  (w.presetCoin o).bind fun c =>
    (dummySignInput c.txout).map fun scriptSig =>
      36 + compactSizeSize scriptSig.length + scriptSig.length + 4

theorem map_serializeSize_dummySigned (txin : CTxIn) :
    (dummySigned w dummySignInput txin).map CTxIn.serializeSize =
      signedInputSize w dummySignInput txin.prevout := by
  unfold dummySigned signedInputSize
  cases w.presetCoin txin.prevout with
  | none => rfl
  | some c =>
    cases h : dummySignInput c.txout with
    | none => simp [h]
    | some scriptSig => simp [h, CTxIn.serializeSize]

/-- A loop that gives up when one element fails. -/
theorem map_mapM_eq_ite {α β : Type} {f : α → Option β} {g : β → Nat} {l : List α} :
    (l.mapM f).map (fun bs => (bs.length, (bs.map g).sum)) =
      if l.all fun a => (f a).isSome then
        some (l.length, (l.map fun a => ((f a).map g).getD 0).sum)
      else none := by
  induction l with
  | nil => rfl
  | cons a l ih =>
    rw [mapM_cons, all_cons]
    cases hfa : f a with
    | none => rfl
    | some b =>
      rw [Option.isSome_some, Bool.true_and]
      cases hrest : l.mapM f with
      | none =>
        rw [hrest] at ih
        split at ih
        · cases ih
        next hall => rw [if_neg hall]; rfl
      | some bs =>
        rw [hrest] at ih
        split at ih
        next hall =>
          obtain ⟨hlen, hsum⟩ := Prod.mk.inj (Option.some.inj ih)
          rw [if_pos hall]
          simp [hlen, hsum, hfa]
        · cases ih

/-- **The size estimate in closed form.** The values of the outputs do not enter. -/
theorem calculateMaximumSignedTxSize_eq :
    calculateMaximumSignedTxSize w dummySignInput tx =
      if tx.prevouts.all fun o => (signedInputSize w dummySignInput o).isSome then
        ((4 + compactSizeSize tx.prevouts.length +
          (tx.prevouts.map fun o => (signedInputSize w dummySignInput o).getD 0).sum +
          compactSizeSize tx.vout.length + (tx.vout.map CTxOut.serializeSize).sum + 4 : Nat) : Int)
      else -1 := by
  have hsizes := map_mapM_eq_ite (f := dummySigned w dummySignInput) (g := CTxIn.serializeSize)
    (l := tx.vin)
  have hall : (tx.vin.all fun a => (dummySigned w dummySignInput a).isSome) =
      tx.prevouts.all fun o => (signedInputSize w dummySignInput o).isSome := by
    rw [CTransaction.prevouts, all_map]
    refine congrArg tx.vin.all (funext fun txin => ?_)
    rw [Function.comp_apply, ← map_serializeSize_dummySigned, Option.isSome_map]
  have hsum : (tx.vin.map fun a =>
        ((dummySigned w dummySignInput a).map CTxIn.serializeSize).getD 0) =
      tx.prevouts.map fun o => (signedInputSize w dummySignInput o).getD 0 := by
    rw [CTransaction.prevouts, map_map]
    refine map_congr_left fun txin _ => ?_
    rw [Function.comp_apply, map_serializeSize_dummySigned]
  have hlen : tx.vin.length = tx.prevouts.length := by rw [CTransaction.prevouts, length_map]
  rw [hall, hsum, hlen] at hsizes
  rw [calculateMaximumSignedTxSize]
  -- one input that cannot be signed makes it `-1`
  cases hvin : tx.vin.mapM (dummySigned w dummySignInput) with
  | none =>
    rw [hvin] at hsizes
    split at hsizes
    · cases hsizes
    next hno => rw [if_neg hno]
  | some vin =>
    rw [hvin] at hsizes
    split at hsizes
    next hyes =>
      obtain ⟨hlen', hsum'⟩ := Prod.mk.inj (Option.some.inj hsizes)
      rw [if_pos hyes, ← hlen', ← hsum']
      rfl
    · cases hsizes

/-- The estimate is the same for any order of the inputs and outputs, any scripts of the
inputs and any values of the outputs. -/
theorem calculateMaximumSignedTxSize_congr (hin : tx.prevouts.Perm tx'.prevouts)
    (hout : (tx.vout.map CTxOut.serializeSize).Perm (tx'.vout.map CTxOut.serializeSize)) :
    calculateMaximumSignedTxSize w dummySignInput tx =
      calculateMaximumSignedTxSize w dummySignInput tx' := by
  have hlen : tx.vout.length = tx'.vout.length := by simpa using hout.length_eq
  rw [calculateMaximumSignedTxSize_eq, calculateMaximumSignedTxSize_eq, hin.all_eq, hin.length_eq,
    (hin.map _).sum_eq, hout.sum_eq, hlen]

end Size

/-! ### The passes of the loop -/

section Passes

variable {env : CreateEnv} {order : Order} {pick s s' : LoopState} {built : Built}
  {outs vout : List CTxOut} {chosen : Chosen} {position : Option Nat} {nFeeRet : Int}

/-- The loop comes to a pass from `s`, and the coins of that pass are selected in the
pass from `pick`. -/
inductive Passes (env : CreateEnv) (order : Order) : LoopState → LoopState → Prop
  | start : Passes env order { useBnb := order.nSubtractFeeFromAmount = 0 }
      { useBnb := order.nSubtractFeeFromAmount = 0 }
  | again {pick s s' : LoopState} (h : Passes env order pick s)
      (hagain : turn env order s = .again s') :
      Passes env order (if s'.pickNewInputs then s' else pick) s'

/-- In a pass that selects coins, these are its own. -/
theorem Passes.pick_eq (h : Passes env order pick s) (hpick : s.pickNewInputs = true) :
    pick = s := by
  cases h with
  | start => rfl
  | again h _ => exact if_pos hpick

theorem Passes.stateOk (hp : order.Prepared env) (h : Passes env order pick s) :
    StateOk env order s := by
  induction h with
  | start => exact stateOk_start
  | again _ hagain ih => exact ih.again hp hagain

/-- **When a pass makes a change output.** -/
theorem placeChange_isSome_iff {attempt : Nat} {nChange fee : Int} {bnbUsed : Bool}
    (h : placeChange env order attempt nChange bnbUsed outs fee = .ok (vout, position, nFeeRet)) :
    position.isSome = true ↔ 0 < nChange ∧
      env.policy.isDust { nValue := nChange, scriptPubKey := order.scriptChange } = false ∧
      bnbUsed = false := by
  rcases placeChange_cases h with ⟨rfl, -, -, hgone⟩ | ⟨⟨p, -, rfl, -⟩, hkept⟩
  · exact iff_of_false (by decide) hgone
  · exact iff_of_true rfl hkept

/-- Without an answer on branch and bound, nothing was selected. -/
theorem selectCoins_unwritten {w : CWallet} {solver : Solver} {attempt : Nat}
    {vAvailableCoins : List COutput} {target : Int} {control : CCoinControl} {useBnb : Bool}
    (h : (selectCoins w solver attempt vAvailableCoins target control useBnb).bnbUsed = none) :
    (selectCoins w solver attempt vAvailableCoins target control useBnb).nValueRet = 0 := by
  unfold selectCoins at h ⊢
  split at h
  · cases h
  next hall =>
  rw [if_neg hall]
  split at h
  · cases h
  next presets hpresets =>
  simp only at h ⊢
  split at h
  next hle =>
    rw [if_pos hle]
    -- `bnb_used` is written for every preset coin, so there is none
    have hnone : control.setSelected = [] := by
      by_contra hne
      rw [if_pos (by simpa [CCoinControl.hasSelected] using hne)] at h
      cases h
    rw [hnone] at hpresets
    cases hpresets
    rfl
  · split at h <;> cases h

theorem chooseCoins_picked (hpick : s.pickNewInputs = true)
    (h : chooseCoins env order s = (none, chosen)) :
    chosen.setCoins = (selectionOf env order s).setCoinsRet ∧
      chosen.nValueIn = (selectionOf env order s).nValueRet ∧
      chosen.bnbUsed = (selectionOf env order s).bnbUsed.getD (env.uninitialized s.attempt) := by
  unfold chooseCoins at h
  rw [if_pos hpick] at h
  obtain ⟨-, rfl⟩ := Prod.mk.inj h
  exact ⟨rfl, rfl, rfl⟩

theorem chooseCoins_kept (hpick : s.pickNewInputs = false)
    (h : chooseCoins env order s = (none, chosen)) :
    chosen.setCoins = s.setCoins ∧ chosen.nValueIn = s.nValueIn ∧
      chosen.bnbUsed = env.uninitialized s.attempt := by
  unfold chooseCoins at h
  rw [if_neg (by simp [hpick])] at h
  cases h
  exact ⟨rfl, rfl, rfl⟩

theorem Passes.kept (h : Passes env order pick s) (hkept : s.pickNewInputs = false) :
    s.setCoins = (selectionOf env order pick).setCoinsRet := by
  cases h with
  | start => cases hkept
  | @again pick₀ s₀ _ h hagain =>
    obtain ⟨failure, hfail⟩ | ⟨chosen, hchoose, hturn⟩ | ⟨outs, chosen, vout, position, nFeeRet, -,
      hchoose, -, hturn⟩ := turn_steps env order s₀
    · cases hfail.symm.trans hagain
    · cases hturn.symm.trans hagain
      cases (chooseCoins_some_true hchoose).1.symm.trans hkept
    · -- coins are kept right after they were selected
      obtain ⟨hpick, hcoins, -⟩ := settleFee_again (hturn.symm.trans hagain)
      rw [hcoins, (chooseCoins_picked hpick hchoose).1, hkept, if_neg (by decide), h.pick_eq hpick]

theorem Passes.coins (h : Passes env order pick s)
    (hchoose : chooseCoins env order s = (none, chosen)) :
    chosen.setCoins = (selectionOf env order pick).setCoinsRet := by
  cases hpick : s.pickNewInputs with
  | true => rw [(chooseCoins_picked hpick hchoose).1, h.pick_eq hpick]
  | false => rw [(chooseCoins_kept hpick hchoose).1, h.kept hpick]

/-! ### The outputs -/

/-- The output that a recipient asked for. -/
def CRecipient.requested (r : CRecipient) : CTxOut where
  nValue := r.nAmount
  scriptPubKey := r.scriptPubKey
  tokenDataPtr := r.tokenDataPtr

/-- The outputs that were asked for by the recipients who do not pay for the fee. -/
def exactOutputs (vecSend : List CRecipient) : List CTxOut :=
  (vecSend.filter fun r => !r.fSubtractFeeFromAmount).map CRecipient.requested

theorem exactOutputs_sublist {policy : FeePolicy} {n : Nat} {fFirst : Bool}
    {vecSend : List CRecipient} (h : recipientOutputs policy nFeeRet n fFirst vecSend = .ok outs) :
    (exactOutputs vecSend).Sublist outs := by
  induction vecSend generalizing fFirst outs with
  | nil => exact nil_sublist _
  | cons r rest ih =>
    rw [recipientOutputs] at h
    replace h := (Outcome.guard_ok.mp (Outcome.guard_ok.mp h).2).2
    obtain ⟨tail, htail, h⟩ := Outcome.bind_ok_iff.mp h
    cases h
    cases hsub : r.fSubtractFeeFromAmount with
    | false =>
      have hout : recipientOutput nFeeRet n fFirst r = r.requested := by
        simp [recipientOutput, CRecipient.requested, hsub]
      rw [exactOutputs, filter_cons_of_pos (by simp [hsub]), map_cons, hout]
      exact (ih htail).cons_cons _
    | true =>
      rw [exactOutputs, filter_cons_of_neg (by simp [hsub])]
      exact (ih htail).cons _

/-- The size of the outputs does not change with their values. -/
theorem map_serializeSize_addToOutput (p : Nat) (amount : Int) :
    (addToOutput vout p amount).map CTxOut.serializeSize = vout.map CTxOut.serializeSize := by
  refine ext_getElem? fun k => ?_
  rw [getElem?_map, getElem?_map, addToOutput, getElem?_modify]
  cases vout[k]? with
  | none => rfl
  | some out =>
    simp only [Option.map_some]
    split <;> rfl

theorem finish_shape {sign : Bool} {created : Created}
    (h : finish env order sign built = .ok created) :
    created.nFeeRet = built.nFeeRet ∧
      created.nChangePosInOut = (unsignedWith env order sign built).2.2 ∧
      created.tx.vout = (unsignedWith env order sign built).2.1.vout ∧
      created.tx.prevouts = outpoints (unsignedWith env order sign built).1 := by
  unfold finish at h
  obtain ⟨tx, hsign, h⟩ := Outcome.bind_ok_iff.mp h
  simp only at h
  split at h
  · cases h
  cases h
  have hsame : SameUnsigned (unsignedWith env order sign built).2.1 tx := by
    unfold signInputs at hsign
    split at hsign
    · exact (signAll_spec hsign).1
    · exact Except.ok.inj hsign ▸ .refl _
  exact ⟨rfl, rfl, hsame.vout.symm,
    hsame.prevouts_eq.symm.trans (unsignedWith_perm env order sign built).2.2⟩

/-- The change is found again after the outputs are ordered. -/
theorem unsignedWith_change (sign : Bool) {p : Nat} {out : CTxOut}
    (hpos : built.nChangePosInOut = some p) (hout : built.vout[p]? = some out) :
    ∃ q, (unsignedWith env order sign built).2.2 = some q ∧
      (unsignedWith env order sign built).2.1.vout[q]? = some out := by
  simp only [unsignedWith]
  split
  · have hmem : out ∈ built.vout.insertionSort fun a b => (compareOutputs a b).isLE = true :=
      (perm_insertionSort _ _).mem_iff.mpr (mem_of_getElem? hout)
    simp only [sortOutputsBIP69, hpos, Option.bind_some, hout]
    generalize built.vout.insertionSort (fun a b => (compareOutputs a b).isLE = true) = sorted
      at hmem
    have hsome : (sorted.findIdx? fun o => decide (o = out)).isSome = true := by
      rw [findIdx?_isSome, any_eq_true]
      exact ⟨out, hmem, decide_eq_true rfl⟩
    obtain ⟨q, hq⟩ := Option.isSome_iff_exists.mp hsome
    obtain ⟨hlt, heq, -⟩ := findIdx?_eq_some_iff_getElem.mp hq
    exact ⟨q, hq, by rw [getElem?_eq_getElem hlt, of_decide_eq_true heq]⟩
  · exact ⟨p, hpos, hout⟩

theorem unsignedWith_noChange {sign : Bool} (hpos : built.nChangePosInOut = none) :
    (unsignedWith env order sign built).2.2 = none := by
  simp only [unsignedWith]
  split
  · simp [sortOutputsBIP69, hpos]
  · exact hpos

/-! ### The change -/

/-- Change that is there and is not dust. -/
def WorthKeeping (env : CreateEnv) (order : Order) (nChange : Int) : Prop :=
  0 < nChange ∧
    env.policy.isDust { nValue := nChange, scriptPubKey := order.scriptChange } = false

/-- **Change is kept.** If the coins were not selected by branch and bound and the last pass, from
`s`, has change that is not dust, there is an output for it, with what the fee is less or more than
the pass started with. -/
def ChangeKept (env : CreateEnv) (order : Order) (pick s : LoopState) (value : Int)
    (created : Created) : Prop :=
  (selectionOf env order pick).bnbUsed ≠ some true →
  WorthKeeping env order (value - order.nValueToSelect s.nFeeRet) →
  ∃ p out, created.nChangePosInOut = some p ∧ created.tx.vout[p]? = some out ∧
    out.scriptPubKey = order.scriptChange ∧
    out.nValue = value - order.nValueToSelect s.nFeeRet + (s.nFeeRet - created.nFeeRet)

/-- **`bnb_used` is not true by accident.** A pass that keeps coins which branch and bound
did not select, with change that is not dust, finds false in `bnb_used`. -/
def BnbUsedUnset (env : CreateEnv) (order : Order) (pick s : LoopState) : Prop :=
  s.pickNewInputs = false → (selectionOf env order pick).bnbUsed ≠ some true →
  WorthKeeping env order (s.nValueIn - order.nValueToSelect s.nFeeRet) →
  env.uninitialized s.attempt = false

theorem Order.nValueToSelect_nonneg (hvalue : 0 ≤ order.nValue) (hs : StateOk env order s) :
    0 ≤ order.nValueToSelect s.nFeeRet := by
  have hfee := hs.nonneg
  unfold Order.nValueToSelect
  split <;> omega

/-- Whether the last pass finds `bnb_used` false where it matters. -/
theorem bnbUsed_iff (hvalue : 0 ≤ order.nValue) (hs : StateOk env order s)
    (hpasses : Passes env order pick s) (hchoose : chooseCoins env order s = (none, chosen)) :
    ((selectionOf env order pick).bnbUsed ≠ some true →
      WorthKeeping env order (chosen.nValueIn - order.nValueToSelect s.nFeeRet) →
      chosen.bnbUsed = false) ↔ BnbUsedUnset env order pick s := by
  cases hpick : s.pickNewInputs with
  | true =>
    -- coins are selected here; without an answer there is no change
    obtain ⟨-, hin, hused⟩ := chooseCoins_picked hpick hchoose
    refine iff_of_true ?_ fun hkept => absurd (hpick.symm.trans hkept) (by decide)
    intro hbnb hworth
    rw [hpasses.pick_eq hpick] at hbnb
    rw [hused]
    cases hans : (selectionOf env order s).bnbUsed with
    | none =>
      have hzero : chosen.nValueIn = 0 := hin.trans (selectCoins_unwritten hans)
      have htarget := Order.nValueToSelect_nonneg hvalue hs
      have hpos := hworth.1
      omega
    | some b =>
      rw [hans] at hbnb
      simpa using hbnb
  | false =>
    obtain ⟨-, hin, hused⟩ := chooseCoins_kept hpick hchoose
    rw [hin, hused, BnbUsedUnset]
    exact ⟨fun h _ => h, fun h => h hpick⟩

theorem LastTurn.change {value : Int} {nBytes p : Nat}
    (h : LastTurn env order s outs value nBytes built) (hpos : built.nChangePosInOut = some p) :
    ∃ out, built.vout[p]? = some out ∧ out.scriptPubKey = order.scriptChange ∧
      out.nValue = value - order.nValueToSelect s.nFeeRet + (s.nFeeRet - built.nFeeRet) := by
  obtain ⟨hnone, -⟩ | ⟨q, hle, change, hsome, hvout, -, hcase⟩ := h.placed
  · cases hnone.symm.trans hpos
  obtain rfl : q = p := Option.some.inj (hsome.symm.trans hpos)
  refine ⟨{ nValue := change, scriptPubKey := order.scriptChange }, ?_, rfl, ?_⟩
  · rw [hvout, getElem?_insertIdx_self, if_pos hle]
  · show change = _
    rw [Order.nValueToSelect]
    split at hcase
    next hzero =>
      rw [if_pos hzero]
      omega
    next hsub =>
      rw [if_neg hsub]
      omega

/-- **Change is kept exactly if `bnb_used` is not true by accident.** -/
theorem changeKept_iff {sign : Bool} {created : Created} (hp : order.Prepared env)
    (hvalue : 0 ≤ order.nValue) (hpasses : Passes env order pick s)
    (hchoose : chooseCoins env order s = (none, chosen))
    (hplace : placeChange env order s.attempt (chosen.nValueIn - order.nValueToSelect s.nFeeRet)
      chosen.bnbUsed outs s.nFeeRet = .ok (vout, position, nFeeRet))
    (hdraft : Drafted env order s outs chosen vout position nFeeRet)
    (hsettle : settleFee env order s chosen vout position nFeeRet = .leave (.ok built))
    (hfinish : finish env order sign built = .ok created) :
    ChangeKept env order pick s chosen.nValueIn created ↔ BnbUsedUnset env order pick s := by
  have hs := hpasses.stateOk hp
  obtain ⟨hfee, hchange, hvout, -⟩ := finish_shape hfinish
  have hlast := hdraft.lastTurn hs hsettle
  have hposition : built.nChangePosInOut = position := (settleFee_leave hsettle).2.1
  have hsome := placeChange_isSome_iff hplace
  rw [← bnbUsed_iff hvalue hs hpasses hchoose, ChangeKept]
  refine forall_congr' fun hbnb => forall_congr' fun hworth => ?_
  constructor
  · rintro ⟨p, out, hp', -⟩
    cases hpos : built.nChangePosInOut with
    | none =>
      rw [hchange, unsignedWith_noChange hpos] at hp'
      cases hp'
    | some q => exact (hsome.mp (by rw [← hposition, hpos]; rfl)).2.2
  · intro hused
    have hmade := hsome.mpr ⟨hworth.1, hworth.2, hused⟩
    rw [← hposition] at hmade
    obtain ⟨p, hpos⟩ := Option.isSome_iff_exists.mp hmade
    obtain ⟨out, hout, hscript, hamount⟩ := hlast.change hpos
    obtain ⟨q, hq, hget⟩ := unsignedWith_change sign hpos hout
    refine ⟨q, out, hchange.trans hq, ?_, hscript, ?_⟩
    · rw [hvout, hget]
    · rw [hfee, hamount]

end Passes

/-! ### The created transaction -/

section Created

variable {env : CreateEnv} {order : Order} {s : LoopState} {built : Built} {chosen : Chosen}
  {vout : List CTxOut} {position : Option Nat} {nFeeRet : Int}

theorem settleFee_estimate_nonneg
    (h : settleFee env order s chosen vout position nFeeRet = .leave (.ok built)) :
    0 ≤ env.calculateMaximumSignedTxSize (unsignedTx env chosen.setCoins vout) := by
  unfold settleFee at h
  simp only at h
  split at h
  · cases h
  next hbytes => exact not_lt.mp hbytes

/-- The created transaction is estimated to be as large as the draft of the last pass. -/
theorem estimate_created (dummySignInput : CTxOut → Option CScript) {sign : Bool}
    {created : Created}
    (hsettle : settleFee env order s chosen vout position nFeeRet = .leave (.ok built))
    (hfinish : finish env order sign built = .ok created) :
    calculateMaximumSignedTxSize env.wallet dummySignInput created.tx =
      calculateMaximumSignedTxSize env.wallet dummySignInput
        (unsignedTx env chosen.setCoins vout) := by
  obtain ⟨hcoins, -, hcase⟩ := settleFee_leave hsettle
  obtain ⟨-, -, hvout, hvin⟩ := finish_shape hfinish
  obtain ⟨hpermIn, hpermOut, -⟩ := unsignedWith_perm env order sign built
  refine calculateMaximumSignedTxSize_congr ?_ ?_
  · have hdraft : (unsignedTx env chosen.setCoins vout).prevouts = outpoints chosen.setCoins := by
      simp only [unsignedTx, CTransaction.prevouts, outpoints, map_map]
      rfl
    rw [hvin, hdraft, ← hcoins]
    exact hpermIn.map _
  · have hsizes : built.vout.map CTxOut.serializeSize = vout.map CTxOut.serializeSize := by
      obtain ⟨-, hsame, -⟩ | ⟨p, -, -, hadd, -⟩ := hcase
      · rw [hsame]
      · rw [hadd, map_serializeSize_addToOutput]
    show (created.tx.vout.map _).Perm (vout.map _)
    rw [hvout, ← hsizes]
    exact hpermOut.map _

/-- **What `CreateTransaction` guarantees.** Whenever it returns a transaction, the loop was left in
a pass from some `s` with coins that were selected in the pass from `pick`; their values are the
values of the outputs and the fee; the fee is at least the minimum fee for the size with the final
outputs; recipients who do not pay for the fee get what they asked for; and change is kept exactly
if `bnb_used` was not true by accident. -/
theorem createTransaction_conserves (env : CreateEnv) (dummySignInput : CTxOut → Option CScript)
    (hsize : env.calculateMaximumSignedTxSize =
      calculateMaximumSignedTxSize env.wallet dummySignInput)
    {vecSend : List CRecipient} {request : Option Nat} {control : CCoinControl} {sign : Bool}
    {coinsel : CoinSelectionHint} {created : Created}
    (h : createTransaction env vecSend request control sign coinsel = some (.ok created)) :
    ∃ order pick s built coins,
      prepare env vecSend request control coinsel = .ok order ∧ Passes env order pick s ∧
      turn env order s = .leave (.ok built) ∧ finish env order sign built = .ok created ∧
      coins.Perm (selectionOf env order pick).setCoinsRet ∧
      created.tx.prevouts = outpoints coins ∧
      totalValue coins = rawValueOut created.tx.vout + created.nFeeRet ∧
      0 ≤ env.calculateMaximumSignedTxSize created.tx ∧
      env.policy.getMinimumFee (env.calculateMaximumSignedTxSize created.tx).toNat ≤
        created.nFeeRet ∧
      (exactOutputs vecSend).Subperm created.tx.vout ∧
      (ChangeKept env order pick s (totalValue coins) created ↔ BnbUsedUnset env order pick s) := by
  obtain ⟨order, built, hprepare, hloop, hfinish⟩ := createTransaction_ok h
  obtain ⟨hp, hsend, -, -, -, hnonneg⟩ := prepare_ok hprepare
  have hvalue : 0 ≤ order.nValue := by
    rw [hp.nValue_eq, hsend]
    exact sum_nonneg (forall_mem_map.mpr hnonneg)
  -- the last pass, and the steps it took
  obtain ⟨s, ⟨pick, hpasses⟩, hleave⟩ :=
    retry_eq_some (P := fun s => ∃ pick, Passes env order pick s)
      (fun s s' ⟨pick, hs⟩ hagain => ⟨_, hs.again hagain⟩) ⟨_, .start⟩ hloop
  have hs := hpasses.stateOk hp
  obtain ⟨failure, hfail⟩ | ⟨_, -, hturn⟩ | ⟨outs, chosen, vout, position, nFeeRet, houts, hchoose,
    hplace, hturn⟩ := turn_steps env order s
  · cases hfail.symm.trans hleave
  · cases hturn.symm.trans hleave
  have hsettle := hturn.symm.trans hleave
  have hdraft := drafted_of_steps hp hs houts hchoose hplace
  have hlast := hdraft.lastTurn hs hsettle
  obtain ⟨hfee, -, hvout, hvin⟩ := finish_shape hfinish
  obtain ⟨hpermIn, hpermOut, -⟩ := unsignedWith_perm env order sign built
  have hcoins : built.setCoins = chosen.setCoins := (settleFee_leave hsettle).1
  have htotal : chosen.nValueIn = totalValue (unsignedWith env order sign built).1 := by
    rw [totalValue_perm hpermIn]
    exact hlast.selected.value_eq
  have hestimate := estimate_created dummySignInput hsettle hfinish
  refine ⟨order, pick, s, built, (unsignedWith env order sign built).1, hprepare, hpasses, hleave,
    hfinish, ?_, hvin, ?_, ?_, ?_, ?_, ?_⟩
  · rw [← hpasses.coins hchoose, ← hcoins]
    exact hpermIn
  · rw [← htotal, hvout, hfee, ← (hlast.balanced hp).1, rawValueOut, rawValueOut,
      (hpermOut.map _).sum_eq]
  · rw [hsize, hestimate, ← hsize]
    exact settleFee_estimate_nonneg hsettle
  · rw [hsize, hestimate, ← hsize, hfee]
    exact hlast.minimum_le
  · rw [hvout]
    refine Subperm.trans ?_ hpermOut.symm.subperm
    have hsub : outs.Sublist built.vout := by
      obtain ⟨-, heq, -⟩ | ⟨p, hle, change, -, heq, -⟩ := hlast.placed
      · rw [heq]
      · rw [heq]
        exact sublist_insertIdx outs p _
    rw [← hsend]
    exact ((exactOutputs_sublist houts).trans hsub).subperm
  · rw [← htotal]
    exact changeKept_iff hp hvalue hpasses hchoose hplace hdraft hsettle hfinish

end Created

/-! ### A wallet that sends half of its coin

The wallet has one coin of 10 and sends 5 of it; the fee is taken from the recipient. The
first pass selects the coin and finds what the fee is, the second keeps the coin. -/

deriving instance DecidableEq for LoopState

namespace HalfCoin

/-- A wallet with ten coins. -/
def wallet : CWallet where
  mapWallet := (∅ : Std.ExtTreeMap TxId CTransaction).insert 7 (OneCoin.walletTx (10 * coin))
  spendZeroConfChange := true
  keyed := by
    have hempty : ∀ (txid : TxId) (tx : CTransaction),
        (∅ : Std.ExtTreeMap TxId CTransaction)[txid]? = some tx → tx.getId = txid :=
      nofun
    exact Ledger.forall_insert hempty rfl

/-- Signatures of the usual length. -/
def dummySignInput (_ : CTxOut) : Option CScript := some (replicate 106 0)

/-- `bnb_used` is `garbage` where it has not been written. -/
def env (garbage : Bool) : CreateEnv :=
  { OneCoin.env (10 * coin) 0 1000000 with
    wallet := wallet
    calculateMaximumSignedTxSize := calculateMaximumSignedTxSize wallet dummySignInput
    uninitialized := fun _ => garbage
    produceSignature := fun _ _ => some [0x51] }

/-- Five coins are sent, and the recipient pays the fee. -/
def vecSend : List CRecipient :=
  [{ scriptPubKey := OneCoin.script, nAmount := 5 * coin, fSubtractFeeFromAmount := true }]

/-- What `CreateTransaction` returns. -/
def created (garbage : Bool) : Option (Except Failure Created) :=
  createTransaction (env garbage) vecSend none { nodup := nodup_nil } true .default

/-- The order that `prepare` makes of it. -/
def order : Order where
  vecSend := vecSend
  control := { nodup := nodup_nil }
  nValue := 5 * coin
  nSubtractFeeFromAmount := 1
  scriptChange := OneCoin.script
  vAvailableCoins := [OneCoin.output (10 * coin)]
  nChangePosRequest := none

/-- What the second pass starts from. -/
def second : LoopState where
  nFeeRet := 225000
  pickNewInputs := false
  setCoins := [(OneCoin.output (10 * coin)).getInputCoin]
  nValueIn := 10 * coin
  useBnb := false
  attempt := 1

theorem turn_first (garbage : Bool) :
    turn (env garbage) order { useBnb := false } = .again second := by
  have hagain : (match turn (env garbage) order { useBnb := false } with
      | .again s => decide (s = second)
      | .leave _ => false) = true := by
    cases garbage <;> decide +kernel
  split at hagain
  next s hs => rw [hs, of_decide_eq_true hagain]
  · cases hagain

theorem passes (garbage : Bool) : Passes (env garbage) order { useBnb := false } second := by
  have hagain := Passes.start.again (turn_first garbage)
  rwa [if_neg (by decide)] at hagain

end HalfCoin

open HalfCoin in
/-- Where the memory of `bnb_used` happens to be false, the change is kept. -/
theorem createTransaction_conserves_halfCoin :
    ∃ c pick s value, created false = some (.ok c) ∧ Passes (env false) order pick s ∧
      ChangeKept (env false) order pick s value c := by
  have hsome : ((created false).bind Except.toOption).isSome = true := by decide +kernel
  obtain ⟨c, hc⟩ := Option.isSome_iff_exists.mp hsome
  obtain ⟨r, hr, hrc⟩ := Option.bind_eq_some_iff.mp hc
  obtain rfl := Outcome.ok_of_toOption hrc
  obtain ⟨order', pick, s, built, coins, hprepare, hpasses, -, -, -, -, -, -, -, -, hiff⟩ :=
    createTransaction_conserves (env false) dummySignInput rfl hr
  cases hprepare
  exact ⟨c, pick, s, totalValue coins, hr, hpasses, hiff.mpr fun _ _ _ => rfl⟩

open HalfCoin in
/-- Where it happens to be true, the change of 5 coins that the knapsack solver left
becomes fee. -/
theorem createTransaction_losesChange :
    ∃ c, created true = some (.ok c) ∧ Passes (env true) order { useBnb := false } second ∧
      (∃ built, turn (env true) order second = .leave (.ok built)) ∧
      c.nFeeRet = 5 * coin + 225000 ∧ c.nChangePosInOut = none ∧
      ¬ ChangeKept (env true) order { useBnb := false } second (10 * coin) c := by
  have hresult : ((created true).bind Except.toOption).map
      (fun c => (c.nFeeRet, c.nChangePosInOut)) = some (5 * coin + 225000, none) := by
    decide +kernel
  obtain ⟨c, hc, hfee⟩ := Option.map_eq_some_iff.mp hresult
  obtain ⟨r, hr, hrc⟩ := Option.bind_eq_some_iff.mp hc
  obtain rfl := Outcome.ok_of_toOption hrc
  obtain ⟨hfee, hnone⟩ := Prod.mk.inj hfee
  have hleave : (match turn (env true) order second with
      | .leave (.ok _) => true
      | _ => false) = true := by decide +kernel
  have hlast : ∃ built, turn (env true) order second = .leave (.ok built) := by
    split at hleave
    next built hbuilt => exact ⟨built, hbuilt⟩
    · cases hleave
  refine ⟨c, hr, passes true, hlast, hfee, hnone, fun hkept => ?_⟩
  obtain ⟨p, out, hp, -⟩ := hkept (by decide +kernel) ⟨by decide +kernel, by decide +kernel⟩
  cases hnone.symm.trans hp

end DeVault
