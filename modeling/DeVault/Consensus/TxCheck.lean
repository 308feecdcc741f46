import DeVault.Primitives.Transaction

/-!
# Context-free transaction checks (`consensus/tx_check.cpp`)

`checkTransactionCommon`, `checkCoinbase` and `checkRegularTransaction`, with the serialized size
they bound. The first check that fails decides the reject reason.

The source looks for repeated inputs by two algorithms, pairwise comparison below 120 inputs and
sorting from there on; `prevoutsOk_iff` shows that both decide the same predicate.
-/

namespace DeVault

open List Outcome

/-! ### Serialized sizes -/

/-- `GetSizeOfCompactSize`. -/
def compactSizeSize (n : Nat) : Nat :=
  if n < 253 then 1 else if n ≤ 0xffff then 3 else if n ≤ 0xffffffff then 5 else 9

/-- Serialized size of the token payload; bits of the bitfield say whether a commitment (`0x40`) and
an amount (`0x10`) are written. -/
def OutputData.serializeSize (d : OutputData) : Nat :=
  32 + 1
    + (if d.bitfield &&& 0x40 ≠ 0 then compactSizeSize d.commitment.length + d.commitment.length
       else 0)
    + (if d.bitfield &&& 0x10 ≠ 0 then compactSizeSize d.amount.toNat else 0)

/-- Serialized size of an output: the token payload stands before the script, behind a marker byte
and inside the script's length. -/
def CTxOut.serializeSize (o : CTxOut) : Nat :=
  let wrapped := match o.tokenDataPtr with
    | none => o.scriptPubKey.length
    | some d => 1 + d.serializeSize + o.scriptPubKey.length
  8 + compactSizeSize wrapped + wrapped

/-- The size of a serialized input. -/
def CTxIn.serializeSize (i : CTxIn) : Nat :=
  36 + compactSizeSize i.scriptSig.length + i.scriptSig.length + 4

/-- `::GetSerializeSize(tx, PROTOCOL_VERSION)`. -/
def CTransaction.serializeSize (tx : CTransaction) : Nat :=
  4 + compactSizeSize tx.vin.length + (tx.vin.map CTxIn.serializeSize).sum
    + compactSizeSize tx.vout.length + (tx.vout.map CTxOut.serializeSize).sum + 4

/-- `MAX_TX_SIZE`. -/
def maxTxSize : Nat := 1000000

/-! ### The checks -/

/-- The output loop of `CheckTransactionCommon` from the accumulator on. -/
def checkOutputs (nValueOut : Int) : List CTxOut → Except Fault Unit
  | [] => .ok ()
  | txout :: rest =>
    if txout.nValue < 0 then
      .error (.dos 100 "bad-txns-vout-negative")
    else if txout.nValue > maxMoney then
      .error (.dos 100 "bad-txns-vout-toolarge")
    else do
      let nValueOut ← checkedAdd nValueOut txout.nValue
      if !moneyRange nValueOut then
        .error (.dos 100 "bad-txns-txouttotal-toolarge")
      else
        checkOutputs nValueOut rest

/-- `CheckTransactionCommon`. -/
def checkTransactionCommon (tx : CTransaction) : Except Fault Unit :=
  if tx.vin.isEmpty then
    .error (.dos 10 "bad-txns-vin-empty")
  else if tx.vout.isEmpty then
    .error (.dos 10 "bad-txns-vout-empty")
  else if tx.serializeSize > maxTxSize then
    .error (.dos 100 "bad-txns-oversize")
  else
    checkOutputs 0 tx.vout

/-- `MAX_COINBASE_SCRIPTSIG_SIZE`. -/
def maxCoinbaseScriptSigSize : Nat := 100

/-- `CheckCoinbase`. -/
def checkCoinbase (tx : CTransaction) : Except Fault Unit :=
  if !tx.isCoinBase then
    .error (.dos 100 "bad-cb-missing")
  else do
    checkTransactionCommon tx
    let size := (tx.vin.head?.map (·.scriptSig.length)).getD 0
    if size < 2 || size > maxCoinbaseScriptSigSize then
      .error (.dos 100 "bad-cb-length")
    else
      .ok ()

/-- The pairwise duplicate search for short input lists. -/
def checkPrevoutsPairwise : List COutPoint → Except Fault Unit
  | [] => .ok ()
  | o :: rest =>
    if o.isNull then
      .error (.dos 10 "bad-txns-prevout-null")
    else if rest.contains o then
      .error (.dos 100 "bad-txns-inputs-duplicate")
    else
      checkPrevoutsPairwise rest

/-- `std::adjacent_find` with equality. -/
def hasAdjacentEqual : List COutPoint → Bool
  | a :: b :: rest => a == b || hasAdjacentEqual (b :: rest)
  | _ => false

/-- The order `std::sort` is called with, as a total preorder. -/
def prevoutLe (a b : COutPoint) : Bool := compare a b != .gt

/-- The sorting duplicate search for long input lists. -/
def checkPrevoutsSorted (os : List COutPoint) : Except Fault Unit :=
  if os.any (·.isNull) then
    .error (.dos 10 "bad-txns-prevout-null")
  else if hasAdjacentEqual (os.mergeSort prevoutLe) then
    .error (.dos 100 "bad-txns-inputs-duplicate")
  else
    .ok ()

/-- `CheckRegularTransaction`. -/
def checkRegularTransaction (tx : CTransaction) : Except Fault Unit :=
  if tx.isCoinBase then
    .error (.dos 100 "bad-tx-coinbase")
  else do
    checkTransactionCommon tx
    if tx.vin.length < 120 then
      checkPrevoutsPairwise tx.prevouts
    else
      checkPrevoutsSorted tx.prevouts

/-! ### Outputs of an accepted transaction -/

theorem checkOutputs_ok {vout : List CTxOut} {acc : Int} (hacc : moneyRange acc = true)
    (h : checkOutputs acc vout = .ok ()) :
    (∀ o ∈ vout, moneyRange o.nValue = true) ∧ acc + rawValueOut vout ≤ maxMoney := by
  induction vout generalizing acc with
  | nil =>
    have hmax := (moneyRange_iff.mp hacc).2
    simpa using hmax
  | cons o l ih =>
    rw [checkOutputs] at h
    obtain ⟨hneg, h⟩ := guard_ok.mp h
    obtain ⟨hbig, h⟩ := guard_ok.mp h
    obtain ⟨s, hs, h⟩ := bind_ok_iff.mp h
    obtain ⟨-, rfl⟩ := checkedAdd_eq_ok.mp hs
    obtain ⟨hr, h⟩ := guard_ok.mp h
    have hr' : moneyRange (acc + o.nValue) = true := by simpa using hr
    obtain ⟨h1, h2⟩ := ih hr' h
    refine ⟨forall_mem_cons.mpr ⟨moneyRange_iff.mpr ⟨by omega, by omega⟩, h1⟩, ?_⟩
    rw [rawValueOut_cons]
    omega

theorem checkTransactionCommon_ok {tx : CTransaction} (h : checkTransactionCommon tx = .ok ()) :
    tx.vin ≠ [] ∧ tx.vout ≠ [] ∧ tx.serializeSize ≤ maxTxSize ∧
      checkOutputs 0 tx.vout = .ok () := by
  unfold checkTransactionCommon at h
  obtain ⟨h1, h⟩ := guard_ok.mp h
  obtain ⟨h2, h⟩ := guard_ok.mp h
  obtain ⟨h3, h⟩ := guard_ok.mp h
  exact ⟨by simpa using h1, by simpa using h2, by omega, h⟩

section Accepted

variable {tx : CTransaction}

/-- The values of the outputs are amounts of money. -/
theorem moneyRange_of_common (h : checkTransactionCommon tx = .ok ()) :
    ∀ o ∈ tx.vout, moneyRange o.nValue = true :=
  (checkOutputs_ok (by decide) (checkTransactionCommon_ok h).2.2.2).1

/-- So is the sum of the raw values. -/
theorem rawValueOut_le_of_common (h : checkTransactionCommon tx = .ok ()) :
    rawValueOut tx.vout ≤ maxMoney := by
  have h2 := (checkOutputs_ok (by decide) (checkTransactionCommon_ok h).2.2.2).2
  omega

theorem common_of_coinbase (h : checkCoinbase tx = .ok ()) :
    tx.isCoinBase = true ∧ checkTransactionCommon tx = .ok () := by
  unfold checkCoinbase at h
  obtain ⟨hcb, h⟩ := guard_ok.mp h
  obtain ⟨u, hu, -⟩ := bind_ok_iff.mp h
  exact ⟨by simpa using hcb, hu⟩

end Accepted

/-! ### Inputs of an accepted transaction -/

/-- What the input part of `CheckRegularTransaction` is there to ensure. -/
def PrevoutsOk (os : List COutPoint) : Prop := (∀ o ∈ os, o.isNull = false) ∧ os.Nodup

variable (os : List COutPoint)

theorem checkPrevoutsPairwise_iff : checkPrevoutsPairwise os = .ok () ↔ PrevoutsOk os := by
  unfold PrevoutsOk
  induction os with
  | nil => simp [checkPrevoutsPairwise]
  | cons o rest ih =>
    rw [checkPrevoutsPairwise]
    by_cases hnull : o.isNull = true
    · simp [hnull]
    · by_cases hmem : o ∈ rest
      · simp [hnull, hmem]
      · simp only [hnull, Bool.false_eq_true, if_false, contains_eq_mem, hmem, decide_false,
          ih, mem_cons, forall_eq_or_imp, nodup_cons, not_false_eq_true, true_and]

/-- In a list sorted by a total preorder whose ties are equalities, neighbours differ exactly when
all elements do. -/
theorem hasAdjacentEqual_eq_false_iff {os : List COutPoint}
    (h : os.Pairwise fun a b => prevoutLe a b = true) : hasAdjacentEqual os = false ↔ os.Nodup := by
  induction os with
  | nil => simp [hasAdjacentEqual]
  | cons a rest ih =>
    cases rest with
    | nil => simp [hasAdjacentEqual]
    | cons b rest =>
      obtain ⟨ha, hrest⟩ := pairwise_cons.mp h
      rw [hasAdjacentEqual, Bool.or_eq_false_iff, ih hrest, nodup_cons (a := a)]
      refine and_congr_left fun _ => ?_
      constructor
      · -- `a` below `b`, everything behind `b` at least `b`: `a` cannot come again
        intro hab hmem
        have hab' : a ≠ b := by simpa using hab
        rcases mem_cons.mp hmem with rfl | hmem
        · exact hab' rfl
        · have h1 : prevoutLe a b = true := ha b mem_cons_self
          have h2 : prevoutLe b a = true := (pairwise_cons.mp hrest).1 a hmem
          simp only [prevoutLe, bne_iff_ne] at h1 h2
          have hle1 : (compare a b).isLE := Ordering.isLE_iff_ne_gt.mpr h1
          have hle2 : (compare b a).isLE := Ordering.isLE_iff_ne_gt.mpr h2
          exact hab' (COutPoint.isLE_antisymm hle1 hle2)
      · intro hmem
        have hab : a ≠ b := fun e => hmem (e ▸ mem_cons_self)
        simpa using hab

theorem pairwise_mergeSort_prevoutLe :
    (os.mergeSort prevoutLe).Pairwise fun a b => prevoutLe a b = true := by
  refine pairwise_mergeSort ?_ ?_ os
  · intro a b c hab hbc
    simp only [prevoutLe, bne_iff_ne, ← Ordering.isLE_iff_ne_gt] at hab hbc ⊢
    exact Std.TransCmp.isLE_trans hab hbc
  · intro a b
    simp only [prevoutLe, Bool.or_eq_true, bne_iff_ne, ← Ordering.isLE_iff_ne_gt]
    rcases h : compare a b with _ | _ | _
    · exact Or.inl rfl
    · exact Or.inl rfl
    · exact Or.inr (by rw [Std.OrientedOrd.eq_swap, h]; rfl)

theorem checkPrevoutsSorted_iff : checkPrevoutsSorted os = .ok () ↔ PrevoutsOk os := by
  have hadj := hasAdjacentEqual_eq_false_iff (pairwise_mergeSort_prevoutLe os)
  rw [(mergeSort_perm os prevoutLe).nodup_iff] at hadj
  unfold checkPrevoutsSorted PrevoutsOk
  rw [← hadj]
  by_cases hnull : os.any (·.isNull) = true
  · rw [if_pos hnull]
    obtain ⟨o, ho, ho'⟩ := any_eq_true.mp hnull
    refine ⟨nofun, fun h => ?_⟩
    exact absurd (h.1 o ho) (by simp [ho'])
  · have hall : ∀ o ∈ os, o.isNull = false := by
      intro o ho
      by_contra hne
      exact hnull (any_eq_true.mpr ⟨o, ho, by simpa using hne⟩)
    rw [if_neg hnull]
    by_cases hdup : hasAdjacentEqual (os.mergeSort prevoutLe) = true
    · simp [hdup]
    · simp only [Bool.not_eq_true] at hdup
      simp only [hdup, Bool.false_eq_true, if_false, true_iff, and_true]
      exact hall

/-- **The two duplicate searches agree.** For any number of inputs, exactly the lists without null
and without repeated outpoints are accepted. -/
theorem prevoutsOk_iff :
    (if os.length < 120 then checkPrevoutsPairwise os else checkPrevoutsSorted os) = .ok () ↔
      PrevoutsOk os := by
  split
  · exact checkPrevoutsPairwise_iff os
  · exact checkPrevoutsSorted_iff os

theorem checkRegularTransaction_ok {tx : CTransaction} :
    checkRegularTransaction tx = .ok () ↔
      tx.isCoinBase = false ∧ checkTransactionCommon tx = .ok () ∧ PrevoutsOk tx.prevouts := by
  have hlen : tx.prevouts.length = tx.vin.length := length_map ..
  unfold checkRegularTransaction
  rw [guard_ok, bind_ok_iff, Bool.not_eq_true, ← prevoutsOk_iff, hlen]
  exact and_congr_right fun _ => ⟨fun ⟨_, h⟩ => h, fun h => ⟨(), h⟩⟩

theorem common_of_regular {tx : CTransaction} (h : checkRegularTransaction tx = .ok ()) :
    tx.isCoinBase = false ∧ checkTransactionCommon tx = .ok () :=
  ⟨(checkRegularTransaction_ok.mp h).1, (checkRegularTransaction_ok.mp h).2.1⟩

/-- **No double spend within a transaction.** The input part of `CheckRegularTransaction` is passed
by exactly the transactions whose prevouts are non-null and pairwise distinct; each of the two
searches, above and below 120 inputs, decides this for lists of every length. -/
theorem checkRegularTransaction_inputs (tx : CTransaction) :
    (checkRegularTransaction tx = .ok () ↔
      tx.isCoinBase = false ∧ checkTransactionCommon tx = .ok () ∧ PrevoutsOk tx.prevouts) ∧
    ∀ os : List COutPoint, (checkPrevoutsPairwise os = .ok () ↔ PrevoutsOk os) ∧
      (checkPrevoutsSorted os = .ok () ↔ PrevoutsOk os) :=
  ⟨checkRegularTransaction_ok, fun os => ⟨checkPrevoutsPairwise_iff os, checkPrevoutsSorted_iff os⟩⟩

end DeVault
