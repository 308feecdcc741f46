import DeVault.Consensus.Params

/-!
# The superblock budget (`devault/budget.cpp`)

Once per period the coinbase has to pay a hardcoded list of budget addresses.
`computeSuperBlockPayments` gives the list of scripts and amounts, empty off a
superblock; `checkSuperBlockBudget` validates a coinbase against it and
`fillSuperBlockBudget` builds one.

The validator runs over all pairs of an output and a payment. It rejects an output to a budget
script with a different amount, and in the end compares one accumulated sum with the sum of the
payments. The sum does not determine how often each payment is made.
-/

namespace DeVault

open List Outcome

/-- `BudgetStruct`: an address of each network and its share of the budget. -/
structure BudgetStruct where
  mainNetAddress : String
  testNetAddress : String
  percent : Int

/-- `BudgetPayouts`: the payees up to the superblock with a given number. -/
structure BudgetPayouts where
  changeSuperBlock : Int
  budget : List BudgetStruct

/-- `Payouts`, the epochs of the budget. -/
def payouts : List BudgetPayouts :=
  [ { changeSuperBlock := 5
      budget :=
        [ ⟨"devault:pp2ghv9ya7fs98rvz3gzuqmen608dh6g2y5d5dxrtp",
            "dvtest:pr2jg83w445mrwqwkczgdevyeetatckhg5nrmvd67c", 15⟩,
          ⟨"devault:prg2wlmzj7kzy8ps7pfnkf39nze49yh8fsk0yfslw0",
            "dvtest:pr49tdjhuktpp440edg9cej7d9hcvnrluvdu38d59d", 10⟩,
          ⟨"devault:pqws2sgc2y22x2gkcnmw72edpa0u0kscdsqp29e530",
            "dvtest:qzlg7mlrz56hnnwddc8k0a2w397sqjgeggmdsg5np3", 5⟩,
          ⟨"devault:pzgux6zlzpw45hm45fwcj5d7mf5fn7pa2ydjzx5nxw",
            "dvtest:qpzn5j40a3r0kaznf8y6jpaa4z7stmg9luk4t8x8nv", 5⟩,
          ⟨"devault:prutq74qks5aez2a4mhrcm26t0r3pjzpxyapq0kdjk",
            "dvtest:qqltstfypfuftlgrvqdfml4js0y3yxdpgya2krkhk5", 5⟩,
          ⟨"devault:prcljsfamr0hsc2jn4mr5et9xx5u9lm8rvl976n0zm",
            "dvtest:qpw43t63nxmufurn5qn9jyurc27xntvdz5n7ujhdaq", 5⟩ ] },
    { changeSuperBlock := 15
      budget :=
        [ ⟨"devault:pp2ghv9ya7fs98rvz3gzuqmen608dh6g2y5d5dxrtp",
            "dvtest:pr2jg83w445mrwqwkczgdevyeetatckhg5nrmvd67c", 15⟩,
          ⟨"devault:prg2wlmzj7kzy8ps7pfnkf39nze49yh8fsk0yfslw0",
            "dvtest:pr49tdjhuktpp440edg9cej7d9hcvnrluvdu38d59d", 10⟩,
          ⟨"devault:pqws2sgc2y22x2gkcnmw72edpa0u0kscdsqp29e530",
            "dvtest:qzlg7mlrz56hnnwddc8k0a2w397sqjgeggmdsg5np3", 10⟩,
          ⟨"devault:pzgux6zlzpw45hm45fwcj5d7mf5fn7pa2ydjzx5nxw",
            "dvtest:qpzn5j40a3r0kaznf8y6jpaa4z7stmg9luk4t8x8nv", 10⟩ ] },
    { changeSuperBlock := 2147483647
      budget :=
        [ ⟨"devault:pqqqaf843zj992fkqr483zptyp0r8kfg7g5enjt05d",
            "dvtest:pr2jg83w445mrwqwkczgdevyeetatckhg5nrmvd67c", 15⟩,
          ⟨"devault:prg2wlmzj7kzy8ps7pfnkf39nze49yh8fsk0yfslw0",
            "dvtest:pr49tdjhuktpp440edg9cej7d9hcvnrluvdu38d59d", 10⟩,
          ⟨"devault:prgtl5yust3v2m76c3t4vsnuwuufaht0euqm2smja2",
            "dvtest:qzlg7mlrz56hnnwddc8k0a2w397sqjgeggmdsg5np3", 10⟩,
          ⟨"devault:pz3htku32554kntjvzpwp8nuhmksvp73f5wwmxts8h",
            "dvtest:qpzn5j40a3r0kaznf8y6jpaa4z7stmg9luk4t8x8nv", 10⟩ ] } ]

/-- `getPayoutIndexFromHeight`: the first epoch that ends later. -/
def getPayoutIndexFromHeight (superBlockNumber : Int) : Nat :=
  payouts.findIdx fun epoch => decide (epoch.changeSuperBlock > superBlockNumber)

variable (p : Params)

/-- The payees of the epoch a superblock falls in. -/
def budgetAt (nHeight : Nat) : List BudgetStruct :=
  (payouts[getPayoutIndexFromHeight (toInt32 ((nHeight : Int).tdiv p.nBlocksPerPeriod))]?.map
    (·.budget)).getD []

/-- `ScaleFactor`: the budget is a fraction of the miner's portion. -/
def scaleFactor (budget : List BudgetStruct) : Int := 100 - (budget.map (·.percent)).sum

/-- The amount of one payee. -/
def budgetPayment (scale nBlockSubsidy percent : Int) : Int :=
  wrap64 ((wrap64 (wrap64 (percent * p.nBlocksPerPeriod) * nBlockSubsidy.tdiv satoshi)).tdiv
    (scale * coin.tdiv satoshi) * coin)

variable (payments : List (CScript × Int)) (out : CTxOut) (vout : List CTxOut)

section Budget

-- `GetScriptForDestination(DecodeDestination(addr, chainparams))`
variable (scriptFor : String → CScript)

/-- The payments of a superblock, shared by validation and mining. -/
def computeSuperBlockPayments (p : Params) (nHeight : Nat) (nBlockSubsidy : Int) :
    List (CScript × Int) :=
  if !p.isSuperBlock nHeight then
    []
  else
    let fTestNet := p.strNetworkID != "main"
    let budget := budgetAt p nHeight
    budget.map fun b =>
      (scriptFor (if fTestNet then b.testNetAddress else b.mainNetAddress),
        budgetPayment p (scaleFactor budget) nBlockSubsidy b.percent)

/-- The sum of the payments, `refRewards`. -/
def sumPayments : Except Fault Int :=
  payments.foldlM (fun refRewards payment => checkedAdd refRewards payment.2) 0

/-- The innermost body of the validation loop, for one output and one payment.
The state is `fPaymentOK` and `nSumReward`. -/
def budgetStep (s : Bool × Int) (payment : CScript × Int) : Except Fault (Bool × Int) :=
  if out.scriptPubKey = payment.1 then
    if out.nValue ≠ payment.2 then
      .ok (false, s.2)
    else do
      let nSumReward ← checkedAdd s.2 payment.2
      .ok (s.1, nSumReward)
  else
    .ok s

/-- The validation loop over the outputs of the coinbase. -/
def budgetLoop (s : Bool × Int) : Except Fault (Bool × Int) :=
  vout.foldlM (fun s out => payments.foldlM (budgetStep out) s) s

/-- `CheckSuperBlockBudget` on the outputs of the coinbase: `nBudgetReward` and
the verdict. -/
def checkSuperBlockBudget (p : Params) (vout : List CTxOut) (nHeight : Nat)
    (nBlockSubsidy : Int) : Except Fault (Int × Bool) :=
  let payments := computeSuperBlockPayments scriptFor p nHeight nBlockSubsidy
  if payments.isEmpty then
    .ok (0, true)
  else do
    let refRewards ← sumPayments payments
    let (fPaymentOK, nSumReward) ← budgetLoop payments vout (true, 0)
    .ok (nSumReward, fPaymentOK && decide (nSumReward = refRewards))

/-- `FillSuperBlockBudget`: the outputs appended to the coinbase, if any. -/
def fillSuperBlockBudget (p : Params) (vout : List CTxOut) (nHeight : Nat)
    (nBlockSubsidy : Int) : List CTxOut × Bool :=
  let payments := computeSuperBlockPayments scriptFor p nHeight nBlockSubsidy
  if payments.isEmpty then
    (vout, false)
  else
    (vout ++ payments.map fun payment => { nValue := payment.2, scriptPubKey := payment.1 }, true)

end Budget

/-! ### What the validator computes -/

/-- An output makes a payment exactly. -/
def paysExactly (payment : CScript × Int) (out : CTxOut) : Bool :=
  decide (out.scriptPubKey = payment.1 ∧ out.nValue = payment.2)

/-- The number of outputs that make a payment exactly. -/
def paidCount (vout : List CTxOut) (payment : CScript × Int) : Nat :=
  vout.countP (paysExactly payment)

/-- Every output to the script of a payment has its amount. -/
def ExactOutputs (payments : List (CScript × Int)) (vout : List CTxOut) : Prop :=
  ∀ out ∈ vout, ∀ payment ∈ payments, out.scriptPubKey = payment.1 → out.nValue = payment.2

/-- What one output contributes to `nSumReward`. -/
def outputContribution : Int :=
  (payments.map fun payment => if paysExactly payment out then payment.2 else 0).sum

variable {payments : List (CScript × Int)}

/-- The inner loop: the flag records exactness, the sum the exact payments. -/
theorem foldlM_budgetStep_ok {out : CTxOut} {s s' : Bool × Int}
    (h : payments.foldlM (budgetStep out) s = .ok s') :
    (s'.1 = true ↔ s.1 = true ∧
      ∀ payment ∈ payments, out.scriptPubKey = payment.1 → out.nValue = payment.2) ∧
    s'.2 = s.2 + outputContribution payments out := by
  induction payments generalizing s with
  | nil =>
    cases h
    simp [outputContribution]
  | cons payment payments ih =>
    obtain ⟨t, hstep, h⟩ := foldlM_cons_ok.mp h
    obtain ⟨hflag, hsum⟩ := ih h
    -- the step leaves `s`, lowers the flag, or adds the payment
    have ht : (t.1 = true ↔ s.1 = true ∧ (out.scriptPubKey = payment.1 → out.nValue = payment.2)) ∧
        t.2 = s.2 + if paysExactly payment out then payment.2 else 0 := by
      unfold budgetStep at hstep
      split at hstep
      next hscript =>
        split at hstep
        next hvalue =>
          cases hstep
          simp [paysExactly, hscript, hvalue]
        next hvalue =>
          obtain ⟨n, hadd, hstep⟩ := bind_ok_iff.mp hstep
          cases hstep
          rw [not_not] at hvalue
          simp [paysExactly, hscript, hvalue, (checkedAdd_eq_ok.mp hadd).2]
      next hscript =>
        cases hstep
        simp [paysExactly, hscript]
    refine ⟨?_, ?_⟩
    · rw [hflag, ht.1, forall_mem_cons, and_assoc]
    · rw [hsum, ht.2, outputContribution, outputContribution, map_cons, sum_cons]
      ring

variable {vout : List CTxOut}

theorem budgetLoop_ok {s s' : Bool × Int} (h : budgetLoop payments vout s = .ok s') :
    (s'.1 = true ↔ s.1 = true ∧ ExactOutputs payments vout) ∧
    s'.2 = s.2 + (vout.map (outputContribution payments)).sum := by
  unfold budgetLoop at h
  induction vout generalizing s with
  | nil =>
    cases h
    simp [ExactOutputs]
  | cons out vout ih =>
    obtain ⟨t, hinner, h⟩ := foldlM_cons_ok.mp h
    obtain ⟨hflag, hsum⟩ := ih h
    obtain ⟨htflag, htsum⟩ := foldlM_budgetStep_ok hinner
    refine ⟨?_, ?_⟩
    · rw [hflag, htflag, and_assoc, ExactOutputs, ExactOutputs, forall_mem_cons]
    · rw [hsum, htsum, map_cons, sum_cons]
      ring

/-- Exchanging the two sums: the outputs' contributions, counted by payment. -/
theorem sum_outputContribution : (vout.map (outputContribution payments)).sum =
      (payments.map fun payment => (paidCount vout payment : Int) * payment.2).sum := by
  induction vout with
  | nil => simp [paidCount]
  | cons out vout ih =>
    rw [map_cons, sum_cons, ih, outputContribution, ← sum_map_add]
    refine congrArg sum (map_congr_left fun payment _ => ?_)
    rw [paidCount, paidCount, countP_cons]
    split <;> push_cast <;> ring

theorem sumPayments_ok {n : Int}
    (h : sumPayments payments = .ok n) : n = (payments.map (·.2)).sum := by
  have hrun : ∀ (l : List (CScript × Int)) (a : Int),
      l.foldlM (fun refRewards payment => checkedAdd refRewards payment.2) a = .ok n →
        n = a + (l.map (·.2)).sum := by
    intro l
    induction l with
    | nil =>
      intro a h
      cases h
      simp
    | cons payment l ih =>
      intro a h
      obtain ⟨b, hadd, h⟩ := foldlM_cons_ok.mp h
      rw [ih b h, (checkedAdd_eq_ok.mp hadd).2, map_cons, sum_cons, add_assoc]
  rw [hrun payments 0 h, zero_add]

variable {p : Params} {nHeight : Nat} {nBlockSubsidy : Int}

/-- **What the validator decides.** It reports the value of the exact payments, and accepts if
outputs to budget scripts are exact and that value is the sum of all payments. -/
theorem checkSuperBlockBudget_spec {scriptFor : String → CScript}
    {nBudgetReward : Int} {accepted : Bool}
    (hne : computeSuperBlockPayments scriptFor p nHeight nBlockSubsidy ≠ [])
    (h : checkSuperBlockBudget scriptFor p vout nHeight nBlockSubsidy =
      .ok (nBudgetReward, accepted)) :
    nBudgetReward = ((computeSuperBlockPayments scriptFor p nHeight nBlockSubsidy).map
        fun payment => (paidCount vout payment : Int) * payment.2).sum ∧
    (accepted = true ↔
      ExactOutputs (computeSuperBlockPayments scriptFor p nHeight nBlockSubsidy) vout ∧
      nBudgetReward =
        ((computeSuperBlockPayments scriptFor p nHeight nBlockSubsidy).map (·.2)).sum) := by
  unfold checkSuperBlockBudget at h
  generalize computeSuperBlockPayments scriptFor p nHeight nBlockSubsidy = payments at h hne
  simp only [List.isEmpty_iff, hne, if_false] at h
  obtain ⟨refRewards, href, h⟩ := bind_ok_iff.mp h
  obtain ⟨⟨fPaymentOK, nSumReward⟩, hloop, h⟩ := bind_ok_iff.mp h
  cases h
  obtain ⟨hflag, hsum⟩ := budgetLoop_ok hloop
  have hsum' := hsum.trans (zero_add _)
  rw [sum_outputContribution] at hsum'
  refine ⟨hsum', ?_⟩
  rw [Bool.and_eq_true, decide_eq_true_eq, sumPayments_ok href]
  simp only [true_and] at hflag
  rw [hflag]

/-! ### Payments made again and payments left out -/

/-- The value of the payments made beyond the first time. -/
def repeatedValue (payments : List (CScript × Int)) (vout : List CTxOut) : Int :=
  (payments.map fun payment => ((paidCount vout payment - 1 : Nat) : Int) * payment.2).sum

/-- The value of the payments not made at all. -/
def omittedValue (payments : List (CScript × Int)) (vout : List CTxOut) : Int :=
  (payments.map fun payment => if paidCount vout payment = 0 then payment.2 else 0).sum

/-- The coinbase pays every payment once: a single output to the script, with
the amount. -/
def PaysEachOnce (payments : List (CScript × Int)) (vout : List CTxOut) : Prop :=
  ∀ payment ∈ payments, paidCount vout payment = 1 ∧
    vout.countP (fun out => decide (out.scriptPubKey = payment.1)) = 1

/-- The value paid is the value due, plus the repeated, minus the omitted. -/
theorem sum_paidCount :
    (payments.map fun payment => (paidCount vout payment : Int) * payment.2).sum =
      (payments.map (·.2)).sum + repeatedValue payments vout - omittedValue payments vout := by
  induction payments with
  | nil => rfl
  | cons payment payments ih =>
    simp only [repeatedValue, omittedValue, map_cons, sum_cons] at ih ⊢
    rw [ih]
    rcases Nat.eq_zero_or_pos (paidCount vout payment) with h0 | hpos
    · rw [h0, if_pos rfl]
      push_cast
      ring
    · rw [if_neg (by omega)]
      push_cast [Nat.cast_sub hpos]
      ring

/-- With exact outputs, the outputs to a budget script are the exact payments. -/
theorem ExactOutputs.countP_eq
    (h : ExactOutputs payments vout) {payment : CScript × Int} (hp : payment ∈ payments) :
    vout.countP (fun out => decide (out.scriptPubKey = payment.1)) = paidCount vout payment := by
  refine countP_congr fun out hout => ?_
  simp only [paysExactly, decide_eq_true_eq]
  exact ⟨fun hs => ⟨hs, h out hout payment hp hs⟩, And.left⟩

/-! ### The verdict and the payees -/

theorem getPayoutIndexFromHeight_eq (n : Int) :
    getPayoutIndexFromHeight n =
      if n < 5 then 0 else if n < 15 then 1 else if n < 2147483647 then 2 else 3 := by
  simp only [getPayoutIndexFromHeight, payouts, findIdx_cons, findIdx_nil]
  by_cases h5 : n < 5
  · simp [h5]
  · by_cases h15 : n < 15
    · simp [h5, h15]
    · by_cases hmax : n < 2147483647 <;> simp [h5, h15, hmax]

/-- Every superblock has payees: block heights are `int`s, so the last epoch
never ends. -/
theorem budgetAt_ne_nil (hp : p.IsDeVault) (hh : nHeight < 2 ^ 31) : budgetAt p nHeight ≠ [] := by
  have hq : (nHeight : Int).tdiv 21915 < 97993 := by
    rw [Int.tdiv_eq_ediv_of_nonneg (Int.natCast_nonneg _)]
    omega
  have hq0 : 0 ≤ (nHeight : Int).tdiv 21915 :=
    Int.tdiv_nonneg (Int.natCast_nonneg _) (by decide)
  have hcast : toInt32 ((nHeight : Int).tdiv 21915) = (nHeight : Int).tdiv 21915 :=
    Int.bmod_eq_of_le (by norm_num; omega) (by norm_num; omega)
  rw [budgetAt, hp.nBlocksPerPeriod_eq, hcast, getPayoutIndexFromHeight_eq]
  split
  · simp [payouts]
  · split
    · simp [payouts]
    · rw [if_pos (by omega)]
      simp [payouts]

theorem computeSuperBlockPayments_ne_nil (scriptFor : String → CScript)
    (hp : p.IsDeVault) (hh : nHeight < 2 ^ 31)
    (hs : p.isSuperBlock nHeight = true) (nBlockSubsidy : Int) :
    computeSuperBlockPayments scriptFor p nHeight nBlockSubsidy ≠ [] := by
  simp only [computeSuperBlockPayments, hs, Bool.not_true, Bool.false_eq_true, if_false, ne_eq,
    map_eq_nil_iff]
  exact budgetAt_ne_nil hp hh

/-! ### The size of the payments -/

theorem budgetAt_eq_nil_or_mem (p : Params) (nHeight : Nat) :
    budgetAt p nHeight = [] ∨ ∃ epoch ∈ payouts, budgetAt p nHeight = epoch.budget := by
  unfold budgetAt
  rcases h : payouts[getPayoutIndexFromHeight
    (toInt32 ((nHeight : Int).tdiv p.nBlocksPerPeriod))]? with _ | epoch
  · exact Or.inl rfl
  · exact Or.inr ⟨epoch, mem_of_getElem? h, rfl⟩

/-- In every epoch at most six payees share 45 percent. -/
theorem payouts_shares : ∀ epoch ∈ payouts, epoch.budget.length ≤ 6 ∧
    scaleFactor epoch.budget = 55 ∧ ∀ b ∈ epoch.budget, 0 ≤ b.percent ∧ b.percent ≤ 15 := by
  simp [payouts, scaleFactor]

section Share

variable {percent : Int} (hp : p.IsDeVault) (hs0 : 0 ≤ nBlockSubsidy)
  (hs : nBlockSubsidy ≤ 750 * coin) (h0 : 0 ≤ percent) (h15 : percent ≤ 15)

include hs0 hs h0 h15

theorem budgetShare_bounds :
    0 ≤ percent * 21915 * nBlockSubsidy ∧
      percent * 21915 * nBlockSubsidy ≤ 15 * 21915 * 75000000000 := by
  simp only [coin, satoshi] at hs
  refine ⟨by positivity, ?_⟩
  nlinarith

include hp

/-- Nothing in a payment overflows, so it is a whole number of coins. -/
theorem budgetPayment_eq : budgetPayment p 55 nBlockSubsidy percent =
    percent * 21915 * nBlockSubsidy / (55 * 100000000) * coin := by
  have hsat : nBlockSubsidy.tdiv satoshi = nBlockSubsidy := by simp [satoshi]
  have hcoin : (coin.tdiv satoshi : Int) = 100000000 := by decide
  obtain ⟨hprod0, hprod⟩ := budgetShare_bounds hs0 hs h0 h15
  simp only [budgetPayment, hp.nBlocksPerPeriod_eq, hsat, hcoin]
  simp only [coin, satoshi]
  have hw1 : wrap64 (percent * 21915) = percent * 21915 := wrap64_of_range (by omega) (by omega)
  have hw2 : wrap64 (percent * 21915 * nBlockSubsidy) = percent * 21915 * nBlockSubsidy :=
    wrap64_of_range (by omega) (by omega)
  rw [hw1, hw2, Int.tdiv_eq_ediv_of_nonneg hprod0, wrap64_of_range (by omega) (by omega)]

/-- A payment stays below five million coins. -/
theorem budgetPayment_bounds : 0 ≤ budgetPayment p 55 nBlockSubsidy percent ∧
    budgetPayment p 55 nBlockSubsidy percent ≤ 5000000 * coin := by
  obtain ⟨hprod0, hprod⟩ := budgetShare_bounds hs0 hs h0 h15
  rw [budgetPayment_eq hp hs0 hs h0 h15]
  simp only [coin, satoshi]
  omega

end Share

/-- The payments of a height: at most six, none negative, none above five million coins, and all
of whole spocks, as they are whole coins. -/
theorem computeSuperBlockPayments_bounds (scriptFor : String → CScript)
    (hp : p.IsDeVault) (nHeight : Nat) (hs0 : 0 ≤ nBlockSubsidy) (hs : nBlockSubsidy ≤ 750 * coin) :
    (computeSuperBlockPayments scriptFor p nHeight nBlockSubsidy).length ≤ 6 ∧
    ∀ payment ∈ computeSuperBlockPayments scriptFor p nHeight nBlockSubsidy,
      0 ≤ payment.2 ∧ payment.2 ≤ 5000000 * coin ∧ SpockAligned payment.2 := by
  unfold computeSuperBlockPayments
  split
  · simp
  simp only [length_map, mem_map]
  rcases budgetAt_eq_nil_or_mem p nHeight with hnil | ⟨epoch, hmem, hbudget⟩
  · simp [hnil]
  · obtain ⟨hlen, hscale, hpercent⟩ := payouts_shares epoch hmem
    rw [hbudget, hscale]
    refine ⟨hlen, ?_⟩
    rintro _ ⟨b, hb, rfl⟩
    obtain ⟨h0, h15⟩ := hpercent b hb
    obtain ⟨hlo, hhi⟩ := budgetPayment_bounds hp hs0 hs h0 h15
    refine ⟨hlo, hhi, ?_⟩
    have hdvd : spockSats ∣ coin := by decide
    rw [budgetPayment_eq hp hs0 hs h0 h15]
    exact Int.tmod_eq_zero_of_dvd (hdvd.mul_left _)

/-- **Acceptance against the payees.** An accepted superblock coinbase pays every payee of its epoch
exactly once and reports the sum, except in one situation: the outputs to the budget scripts are
exact, and the repeated payments make up for the omitted ones to the satoshi. -/
theorem checkSuperBlockBudget_paysEachOnce_iff (scriptFor : String → CScript) {p : Params}
    (hp : p.IsDeVault) {nHeight : Nat} (hh : nHeight < 2 ^ 31)
    (hs : p.isSuperBlock nHeight = true) {nBlockSubsidy nBudgetReward : Int} {vout : List CTxOut}
    {accepted : Bool} (h : checkSuperBlockBudget scriptFor p vout nHeight nBlockSubsidy =
      .ok (nBudgetReward, accepted)) :
    (accepted = true →
      PaysEachOnce (computeSuperBlockPayments scriptFor p nHeight nBlockSubsidy) vout ∧
      nBudgetReward =
        ((computeSuperBlockPayments scriptFor p nHeight nBlockSubsidy).map (·.2)).sum) ↔
    ¬(ExactOutputs (computeSuperBlockPayments scriptFor p nHeight nBlockSubsidy) vout ∧
      (∃ payment ∈ computeSuperBlockPayments scriptFor p nHeight nBlockSubsidy,
        paidCount vout payment ≠ 1) ∧
      repeatedValue (computeSuperBlockPayments scriptFor p nHeight nBlockSubsidy) vout =
        omittedValue (computeSuperBlockPayments scriptFor p nHeight nBlockSubsidy) vout) := by
  obtain ⟨hsum, hacc⟩ := checkSuperBlockBudget_spec
    (computeSuperBlockPayments_ne_nil scriptFor hp hh hs nBlockSubsidy) h
  generalize computeSuperBlockPayments scriptFor p nHeight nBlockSubsidy = payments at hsum hacc
  rw [sum_paidCount] at hsum
  refine ⟨?_, ?_⟩
  · rintro hsound ⟨hexact, ⟨payment, hmem, hcount⟩, hoffset⟩
    -- the sums agree, so the validator accepts, and cannot have been sound
    have hpass := hsound (hacc.mpr ⟨hexact, by omega⟩)
    exact hcount (hpass.1 payment hmem).1
  · intro hno hyes
    obtain ⟨hexact, htotal⟩ := hacc.mp hyes
    refine ⟨fun payment hmem => ?_, htotal⟩
    have hone : paidCount vout payment = 1 := by
      by_contra hcount
      exact hno ⟨hexact, ⟨payment, hmem, hcount⟩, by omega⟩
    exact ⟨hone, (hexact.countP_eq hmem).trans hone⟩

/-- The script that pays to a script hash: `OP_HASH160`, the hash, `OP_EQUAL`. -/
def scriptHashScript (hash : List UInt8) : CScript := [0xa9, 0x14] ++ hash ++ [0x87]

/-- The scripts of the main network addresses of the second epoch. -/
def secondEpochScript (addr : String) : CScript :=
  if addr = "devault:pp2ghv9ya7fs98rvz3gzuqmen608dh6g2y5d5dxrtp" then
    scriptHashScript [0x54, 0x8b, 0xb0, 0xa4, 0xef, 0x93, 0x02, 0x9c, 0x6c, 0x14,
      0x50, 0x2e, 0x03, 0x79, 0x9e, 0x9e, 0x76, 0xdf, 0x48, 0x51]
  else if addr = "devault:prg2wlmzj7kzy8ps7pfnkf39nze49yh8fsk0yfslw0" then
    scriptHashScript [0xd0, 0xa7, 0x7f, 0x62, 0x97, 0xac, 0x22, 0x1c, 0x30, 0xf0,
      0x53, 0x3b, 0x26, 0x25, 0x98, 0xb3, 0x52, 0x92, 0xe7, 0x4c]
  else if addr = "devault:pqws2sgc2y22x2gkcnmw72edpa0u0kscdsqp29e530" then
    scriptHashScript [0x1d, 0x05, 0x41, 0x18, 0x51, 0x14, 0xa3, 0x29, 0x16, 0xc4,
      0xf6, 0xef, 0x2b, 0x2d, 0x0f, 0x5f, 0xc7, 0xda, 0x18, 0x6c]
  else if addr = "devault:pzgux6zlzpw45hm45fwcj5d7mf5fn7pa2ydjzx5nxw" then
    scriptHashScript [0x91, 0xc3, 0x68, 0x5f, 0x10, 0x5d, 0x5a, 0x5f, 0x75, 0xa2,
      0x5d, 0x89, 0x51, 0xbe, 0xda, 0x68, 0x99, 0xf8, 0x3d, 0x51]
  else []

theorem checkSuperBlockBudget_paysEachOnce_superBlock5 :
    PaysEachOnce
        (computeSuperBlockPayments secondEpochScript mainParams 109575
          (getBlockSubsidy 109575 mainParams))
        (fillSuperBlockBudget secondEpochScript mainParams [] 109575
          (getBlockSubsidy 109575 mainParams)).1 ∧
      (12856135 * coin : Int) =
        ((computeSuperBlockPayments secondEpochScript mainParams 109575
          (getBlockSubsidy 109575 mainParams)).map (·.2)).sum := by
  refine (checkSuperBlockBudget_paysEachOnce_iff secondEpochScript (Or.inl rfl) (by norm_num)
    (by decide) (by decide +kernel)).mpr ?_ rfl
  rintro ⟨-, ⟨payment, hmem, hcount⟩, -⟩
  revert payment
  decide +kernel

/-- A coinbase of superblock 5 that pays the second payee three times, and not the third and fourth,
who are due the same amount. -/
def offsetCoinbase : List CTxOut :=
  (computeSuperBlockPayments secondEpochScript mainParams 109575
    (getBlockSubsidy 109575 mainParams)).zipIdx.flatMap fun q =>
      let out : CTxOut := { nValue := q.1.2, scriptPubKey := q.1.1 }
      if q.2 = 0 then [out] else if q.2 = 1 then [out, out, out] else []

theorem checkSuperBlockBudget_offsetCoinbase :
    (checkSuperBlockBudget secondEpochScript mainParams offsetCoinbase 109575
      (getBlockSubsidy 109575 mainParams)).toOption.map (·.2) = some true ∧
    ((computeSuperBlockPayments secondEpochScript mainParams 109575
      (getBlockSubsidy 109575 mainParams)).map (·.1)).Nodup ∧
    ((computeSuperBlockPayments secondEpochScript mainParams 109575
      (getBlockSubsidy 109575 mainParams)).map (paidCount offsetCoinbase)) = [1, 3, 0, 0] := by
  decide +kernel

end DeVault
