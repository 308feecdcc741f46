import DeVault.UtxoSet
import DeVault.Consensus.TxCheck

/-!
# Input checks and the fee (`consensus/tx_verify.cpp`)

`checkTxInputs` looks every input up in a coins view, checks that it is unspent, mature and
spendable, adds the values up and returns the fee: the value in minus the quantised value out.
-/

namespace DeVault

open List Outcome

/-- `COINBASE_MATURITY`. -/
def coinbaseMaturity : Nat := 100

/-- `nSpendHeight - coin.GetHeight()`, which C++ computes in `uint32_t`. -/
def spendDepth (nSpendHeight nHeight : Nat) : Nat :=
  (nSpendHeight + 2 ^ 32 - nHeight % 2 ^ 32) % 2 ^ 32

section CheckTxInputs

variable {B : Type} [CCoinsView B]

/-- The body of the loop of `CheckTxInputs`. -/
def checkTxInputsStep (nSpendHeight : Nat) (s : CCoinsViewCache B × Int) (txin : CTxIn) :
    Except Fault (CCoinsViewCache B × Int) :=
  let (inputs, coin) := s.1.accessCoin txin.prevout
  if coin.isSpent then
    .error (.dos 100 "bad-txns-inputs-missingorspent")
  else if coin.fCoinBase && spendDepth nSpendHeight coin.nHeight < coinbaseMaturity then
    .error (.invalid "bad-txns-premature-spend-of-coinbase")
  else if isUnspendable coin.out.scriptPubKey then
    .error (.dos 100 "bad-txns-input-scriptpubkey-unspendable")
  else do
    let nValueIn ← checkedAdd s.2 coin.out.nValue
    if !moneyRange coin.out.nValue || !moneyRange nValueIn then
      .error (.dos 100 "bad-txns-inputvalues-outofrange")
    else
      .ok (inputs, nValueIn)

/-- `Consensus::CheckTxInputs`: the view after its reads, and the fee. -/
def checkTxInputs (tx : CTransaction) (inputs : CCoinsViewCache B) (nSpendHeight : Nat) :
    Except Fault (CCoinsViewCache B × Int) :=
  if tx.isCoinBase then
    .error (.assertion "!tx.IsCoinBase()")
  else do
    let (inputs, nValueIn) ← tx.vin.foldlM (checkTxInputsStep nSpendHeight) (inputs, 0)
    let valueOut ← tx.getValueOut
    if nValueIn < valueOut then
      .error (.dos 100 "bad-txns-in-belowout")
    else if !moneyRange (nValueIn - valueOut) then
      .error (.dos 100 "bad-txns-fee-outofrange")
    else
      .ok (inputs, nValueIn - valueOut)

/-! ### When the checks pass -/

/-- An outpoint a transaction may spend at a height: the view has an unspent,
mature, spendable coin in the money range there. -/
structure Spendable (v : CCoinsViewCache B) (nSpendHeight : Nat) (o : COutPoint) : Prop where
  unspent : (v.peek o).isSpent = false
  mature : ((v.peek o).fCoinBase &&
    decide (spendDepth nSpendHeight (v.peek o).nHeight < coinbaseMaturity)) = false
  spendable : isUnspendable (v.peek o).out.scriptPubKey = false
  moneyRange : moneyRange (v.peek o).out.nValue = true

/-- The value of the coins a view shows at a list of outpoints. -/
def valueIn (v : CCoinsViewCache B) (os : List COutPoint) : Int :=
  (os.map fun o => (v.peek o).out.nValue).sum

variable {v v' : CCoinsViewCache B} {nSpendHeight : Nat}

@[simp] theorem valueIn_cons (o : COutPoint) (os : List COutPoint) :
    valueIn v (o :: os) = (v.peek o).out.nValue + valueIn v os := by
  simp [valueIn]

theorem Spendable.lookup {o : COutPoint} (h : Spendable v nSpendHeight o) :
    v.lookup o = some (v.peek o) :=
  CCoinsViewCache.lookup_eq_some_iff.mpr ⟨rfl, h.unspent⟩

theorem Spendable.congr {o : COutPoint} (h : v'.peek o = v.peek o) :
    Spendable v' nSpendHeight o ↔ Spendable v nSpendHeight o := by
  refine ⟨fun hs => ?_, fun hs => ?_⟩
  · exact ⟨h ▸ hs.unspent, h ▸ hs.mature, h ▸ hs.spendable, h ▸ hs.moneyRange⟩
  · exact ⟨h.symm ▸ hs.unspent, h.symm ▸ hs.mature, h.symm ▸ hs.spendable, h.symm ▸ hs.moneyRange⟩

theorem valueIn_congr {os : List COutPoint} (h : ∀ o ∈ os, v'.peek o = v.peek o) :
    valueIn v' os = valueIn v os := by
  rw [valueIn, valueIn]
  exact congrArg _ (map_congr_left fun o ho => by rw [h o ho])

/-- One input passes exactly if its coin can be spent and the sum stays in range. -/
theorem checkTxInputsStep_ok_iff {acc n : Int} (hacc : moneyRange acc = true) (i : CTxIn) :
    checkTxInputsStep nSpendHeight (v, acc) i = .ok (v', n) ↔
      v' = (v.fetchCoin i.prevout).1 ∧ Spendable v nSpendHeight i.prevout ∧
        n = acc + (v.peek i.prevout).out.nValue ∧ moneyRange n = true := by
  have ha := moneyRange_iff.mp hacc
  have hread : v.accessCoin i.prevout = ((v.fetchCoin i.prevout).1, v.peek i.prevout) :=
    Prod.ext CCoinsViewCache.accessCoin_fst CCoinsViewCache.accessCoin_snd
  unfold checkTxInputsStep
  rw [hread]
  simp only
  generalize hc : v.peek i.prevout = c
  split
  next hsp =>
    refine iff_of_false (by simp) ?_
    rintro ⟨-, hs, -⟩
    cases hs.unspent.symm.trans (hc ▸ hsp)
  next hsp =>
  split
  next hm =>
    refine iff_of_false (by simp) ?_
    rintro ⟨-, hs, -⟩
    have hm' := hs.mature
    rw [hc, hm] at hm'
    cases hm'
  next hm =>
  split
  next hu =>
    refine iff_of_false (by simp) ?_
    rintro ⟨-, hs, -⟩
    cases hs.spendable.symm.trans (hc ▸ hu)
  next hu =>
  -- the source adds the value before it checks that it is in range
  cases hr : moneyRange c.out.nValue with
  | false =>
    refine iff_of_false ?_ ?_
    · rw [bind_ok_iff]
      rintro ⟨a, -, h⟩
      simp at h
    · rintro ⟨-, hs, -⟩
      cases hs.moneyRange.symm.trans (hc ▸ hr)
  | true =>
    have hcr := moneyRange_iff.mp hr
    rw [checkedAdd_of_le ha.1 hcr.1 (by omega), bind_ok_iff]
    simp only [Except.ok.injEq, exists_eq_left', Bool.not_true, Bool.false_or]
    have hs : Spendable v nSpendHeight i.prevout := by
      refine ⟨?_, ?_, ?_, ?_⟩ <;> rw [hc]
      · simpa using hsp
      · simpa using hm
      · simpa using hu
      · exact hr
    by_cases hn : moneyRange (acc + c.out.nValue) = true
    · simp only [hn, Bool.not_true, Bool.false_eq_true, if_false, Except.ok.injEq, Prod.mk.injEq]
      refine ⟨?_, ?_⟩
      · rintro ⟨rfl, rfl⟩
        exact ⟨rfl, hs, rfl, hn⟩
      · rintro ⟨rfl, -, rfl, -⟩
        exact ⟨rfl, rfl⟩
    · simp only [Bool.not_eq_true] at hn
      simp only [hn, Bool.not_false, if_true, reduceCtorEq, false_iff]
      rintro ⟨-, -, rfl, h⟩
      cases hn.symm.trans h

/-- The whole loop. The running total only grows, so it stays in range exactly
when the final one is. -/
theorem foldlM_checkTxInputsStep_ok_iff {vin : List CTxIn} {acc n : Int}
    (hacc : moneyRange acc = true) :
    (∃ v', vin.foldlM (checkTxInputsStep nSpendHeight) (v, acc) = .ok (v', n)) ↔
      (∀ i ∈ vin, Spendable v nSpendHeight i.prevout) ∧
        n = acc + valueIn v (vin.map (·.prevout)) ∧ n ≤ maxMoney := by
  induction vin generalizing v acc with
  | nil =>
    have ha := (moneyRange_iff.mp hacc).2
    simp only [foldlM_nil, pure, Except.pure, Except.ok.injEq, Prod.mk.injEq, not_mem_nil,
      map_nil, valueIn, sum_nil, add_zero]
    refine ⟨?_, ?_⟩
    · rintro ⟨v', -, rfl⟩
      exact ⟨fun i hi => hi.elim, rfl, ha⟩
    · rintro ⟨-, rfl, -⟩
      exact ⟨v, rfl, rfl⟩
  | cons i vin ih =>
    simp only [foldlM_cons, map_cons, valueIn_cons, forall_mem_cons]
    -- after the first pass the view shows the same coins
    have hsame : ∀ o, (v.fetchCoin i.prevout).1.peek o = v.peek o :=
      fun o => CCoinsViewCache.peek_fetchCoin
    refine ⟨?_, ?_⟩
    · rintro ⟨v', h⟩
      obtain ⟨⟨w, a⟩, hstep, hrun⟩ := bind_ok_iff.mp h
      obtain ⟨rfl, hs, rfl, ha⟩ := (checkTxInputsStep_ok_iff hacc i).mp hstep
      obtain ⟨hrest, hn, hle⟩ := (ih ha).mp ⟨v', hrun⟩
      refine ⟨⟨hs, fun j hj => (Spendable.congr (hsame _)).mp (hrest j hj)⟩, ?_, hle⟩
      rw [hn, valueIn_congr fun o _ => hsame o]
      ring
    · rintro ⟨⟨hs, hrest⟩, hn, hle⟩
      have h0 : 0 ≤ valueIn v (vin.map (·.prevout)) :=
        sum_nonneg (forall_mem_map.mpr (forall_mem_map.mpr fun j hj =>
          (moneyRange_iff.mp (hrest j hj).moneyRange).1))
      have hi := (moneyRange_iff.mp hs.moneyRange).1
      have ha := (moneyRange_iff.mp hacc).1
      have hacc' : moneyRange (acc + (v.peek i.prevout).out.nValue) = true :=
        moneyRange_iff.mpr ⟨by omega, by omega⟩
      have hstep := (checkTxInputsStep_ok_iff hacc i).mpr ⟨rfl, hs, rfl, hacc'⟩
      obtain ⟨v', hrun⟩ := (ih (v := (v.fetchCoin i.prevout).1) hacc').mpr
        ⟨fun j hj => (Spendable.congr (hsame _)).mpr (hrest j hj), by
          rw [hn, valueIn_congr fun o _ => hsame o]
          ring, hle⟩
      exact ⟨v', bind_ok hstep hrun⟩

/-- What `CheckTxInputs` accepts, and with which fee. -/
theorem checkTxInputs_ok_iff {tx : CTransaction} {fee : Int} :
    (∃ v', checkTxInputs tx v nSpendHeight = .ok (v', fee)) ↔
      tx.isCoinBase = false ∧ (∀ i ∈ tx.vin, Spendable v nSpendHeight i.prevout) ∧
        valueIn v tx.prevouts ≤ maxMoney ∧
        ∃ valueOut, tx.getValueOut = .ok valueOut ∧ fee = valueIn v tx.prevouts - valueOut ∧
          moneyRange fee = true := by
  unfold checkTxInputs
  cases hcb : tx.isCoinBase with
  | true => simp
  | false =>
    simp only [Bool.false_eq_true, if_false, true_and]
    have hloop : ∀ n,
        (∃ v', tx.vin.foldlM (checkTxInputsStep nSpendHeight) (v, 0) = .ok (v', n)) ↔ _ :=
      fun n => foldlM_checkTxInputsStep_ok_iff (by decide)
    refine ⟨?_, ?_⟩
    · rintro ⟨v', h⟩
      obtain ⟨⟨w, n⟩, hl, h⟩ := bind_ok_iff.mp h
      obtain ⟨valueOut, hvo, h⟩ := bind_ok_iff.mp h
      obtain ⟨hs, hn, hle⟩ := (hloop n).mp ⟨w, hl⟩
      rw [zero_add] at hn
      replace h := (guard_ok.mp h).2
      obtain ⟨hr, h⟩ := guard_ok.mp h
      simp only [Except.ok.injEq, Prod.mk.injEq] at h
      obtain ⟨rfl, rfl⟩ := h
      subst hn
      exact ⟨hs, hle, valueOut, hvo, rfl, by simpa using hr⟩
    · rintro ⟨hs, hle, valueOut, hvo, rfl, hr⟩
      obtain ⟨w, hl⟩ := (hloop (valueIn v tx.prevouts)).mpr ⟨hs, (zero_add _).symm, hle⟩
      refine ⟨w, bind_ok hl (bind_ok hvo ?_)⟩
      have h0 := (moneyRange_iff.mp hr).1
      simp only [hr, Bool.not_true, Bool.false_eq_true, if_false]
      rw [if_neg (by omega)]

theorem reads_of_checkTxInputs {tx : CTransaction} {fee : Int}
    (h : checkTxInputs tx v nSpendHeight = .ok (v', fee)) : CCoinsViewCache.Reads v v' := by
  unfold checkTxInputs at h
  replace h := (guard_ok.mp h).2
  obtain ⟨⟨w, n⟩, hl, h⟩ := bind_ok_iff.mp h
  obtain ⟨valueOut, -, h⟩ := bind_ok_iff.mp h
  have hw : CCoinsViewCache.Reads v w := by
    refine foldlM_ok_induct
      (P := fun s : CCoinsViewCache B × Int => CCoinsViewCache.Reads v s.1) .refl ?_ hl
    rintro ⟨a, m⟩ i ⟨b, m'⟩ - hr hstep
    simp only [checkTxInputsStep] at hstep
    replace hstep := (guard_ok.mp hstep).2
    replace hstep := (guard_ok.mp hstep).2
    replace hstep := (guard_ok.mp hstep).2
    obtain ⟨k, -, hstep⟩ := bind_ok_iff.mp hstep
    replace hstep := (guard_ok.mp hstep).2
    cases hstep
    exact hr.fetch i.prevout
  replace h := (guard_ok.mp h).2
  replace h := (guard_ok.mp h).2
  cases h
  exact hw

end CheckTxInputs

end DeVault
