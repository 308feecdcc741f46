import DeVault.Validation.Chain

/-!
# The miner's selection and the validator's

`FindReward` decides which record the next block pays, and `CheckReward` finds
the record behind a payment it sees. Both scan the map for a best element, in
different orders and with different filters.

The validator does not leave out records below the minimum balance, as the miner does from the sixth
superblock on. They agree because there is no such record by then: the validation of the block after
that superblock removes them, and no later block adds one. What the payout then does to the record
depends on its balance, since `UpdateRewardsDB` drops a record below the minimum in force at the
height instead of advancing its clock.
-/

namespace DeVault

variable {val : CRewardValue}

namespace CColdRewards

variable {r : CColdRewards} {p : Params} {height : Nat}

/-- The reward a record is due at a height. -/
def dueReward (p : Params) (height : Nat) (val : CRewardValue) : Int :=
  calculateReward p val.height (height - val.height) val.getValue

/-- A record `FindReward` may pay. -/
structure Eligible (r : CColdRewards) (p : Params) (height : Nat) (val : CRewardValue) : Prop where
  active : val.active = true
  notLow : (height : Int) ≥ clearLowRewardsSuperBlock * p.nBlocksPerPeriod →
    p.getMinRewardBalance height ≤ val.getValue
  old : (height : Int) - val.height > r.nMinBlocks
  due : r.nMinReward ≤ dueReward p height val

/-- The order of selection: the older record first, then the larger reward, then
the smaller outpoint. -/
def Precedes (p : Params) (height : Nat) (a b : COutPoint × CRewardValue) : Prop :=
  a.2.height < b.2.height ∨ a.2.height = b.2.height ∧
    (dueReward p height b.2 < dueReward p height a.2 ∨
      dueReward p height a.2 = dueReward p height b.2 ∧ (compare a.1 b.1).isLE = true)

theorem Precedes.refl (e : COutPoint × CRewardValue) : Precedes p height e e :=
  .inr ⟨rfl, .inr ⟨rfl, by rw [(Std.ReflCmp.compare_self : compare e.1 e.1 = .eq)]; rfl⟩⟩

theorem Precedes.trans {a b c : COutPoint × CRewardValue} (hab : Precedes p height a b)
    (hbc : Precedes p height b c) : Precedes p height a c := by
  refine Scan.lex_trans hab hbc fun hab hbc => ?_
  exact Scan.lex_trans (r := (· > ·)) hab hbc Std.TransCmp.isLE_trans

/-! ### What the miner finds -/

/-- The best entry so far in the local variables of `FindReward`. -/
def Selection.best (s : Selection) : Option (COutPoint × CRewardValue) :=
  if s.found then some (s.minKey, s.selReward) else none

/-- The invariant of the loop of `FindReward`: the variables hold the first of the eligible entries
seen. -/
structure ScanInv (r : CColdRewards) (p : Params) (height : Nat)
    (seen : List (COutPoint × CRewardValue)) (s : Selection) : Prop where
  best : Scan.IsBest (fun e => Eligible r p height e.2) (Precedes p height) seen s.best
  minHeight_eq : s.minHeight = if s.found then (s.selReward.height : Int) else height
  selAmount_eq : s.found = true → s.selAmount = dueReward p height s.selReward

section Step

variable {seen : List (COutPoint × CRewardValue)} {s : Selection} {key : COutPoint}
  {val : CRewardValue}

/-- Taking an eligible entry that comes before the best one so far. -/
theorem ScanInv.take (h : ScanInv r p height seen s) (helig : Eligible r p height val)
    (hbefore : s.found = true → Precedes p height (key, val) (s.minKey, s.selReward)) (n : Int) :
    ScanInv r p height (seen ++ [(key, val)])
      { s with
        selAmount := dueReward p height val, minHeight := val.height, minKey := key
        selReward := val, found := true, count := n } := by
  refine ⟨?_, rfl, fun _ => rfl⟩
  have hbest := h.best
  rcases Bool.eq_false_or_eq_true s.found with hf | hf
  · simp only [Selection.best, hf, if_true] at hbest ⊢
    exact hbest.replace Precedes.trans helig (Precedes.refl _) (hbefore hf)
  · simp only [Selection.best, hf, Bool.false_eq_true, if_false, if_true] at hbest ⊢
    exact hbest.first helig (Precedes.refl _)

/-- Passing by an entry that comes after the best one so far. -/
theorem ScanInv.pass (h : ScanInv r p height seen s) (hf : s.found = true)
    (hafter : Precedes p height (s.minKey, s.selReward) (key, val)) (n : Int) :
    ScanInv r p height (seen ++ [(key, val)]) { s with count := n } := by
  refine ⟨?_, h.minHeight_eq, h.selAmount_eq⟩
  have hbest := h.best
  simp only [Selection.best, hf, if_true] at hbest ⊢
  exact hbest.keep hafter

theorem ScanInv.skip (h : ScanInv r p height seen s) (he : ¬Eligible r p height val) (n : Int) :
    ScanInv r p height (seen ++ [(key, val)]) { s with count := n } :=
  ⟨h.best.skip he, h.minHeight_eq, h.selAmount_eq⟩

theorem ScanInv.step (h0 : 0 ≤ r.nMinBlocks) (h : ScanInv r p height seen s)
    (e : COutPoint × CRewardValue) :
    ScanInv r p height (seen ++ [e])
      (findRewardStep p id r.nMinBlocks r.nMinReward height s e) := by
  obtain ⟨key, val⟩ := e
  have hmin := h.minHeight_eq
  unfold findRewardStep
  simp only [id]
  split
  next hin => exact h.skip (fun he => by simp [he.active] at hin) s.count
  split
  next hlow =>
    simp only [Bool.and_eq_true, decide_eq_true_eq] at hlow
    exact h.skip (fun he => absurd (he.notLow hlow.1) (not_le.mpr hlow.2)) s.count
  next hact hlow =>
  split
  next hold =>
    split
    next hdue =>
      have helig : Eligible r p height val := by
        refine ⟨by simpa using hact, fun hstop => ?_, hold.2, hdue⟩
        by_contra hlt
        exact hlow (by simp [hstop]; omega)
      split
      next hbetter =>
        -- older, or as old with a larger reward, or the same with a smaller outpoint
        refine h.take helig (fun hf => ?_) _
        rw [if_pos hf] at hmin
        rw [h.selAmount_eq hf] at hbetter
        rcases hbetter with holder | hmore | ⟨hsame, hkey⟩
        · exact .inl (by simp only; omega)
        · rcases lt_or_eq_of_le hold.1 with hlt | heq
          · exact .inl (by simp only; omega)
          · exact .inr ⟨by simp only; omega, .inl hmore⟩
        · rcases lt_or_eq_of_le hold.1 with hlt | heq
          · exact .inl (by simp only; omega)
          · refine .inr ⟨by simp only; omega, .inr ⟨hsame, ?_⟩⟩
            simp only [COutPoint.lt, beq_iff_eq] at hkey
            rw [hkey]
            rfl
      next hworse =>
        simp only [not_or, not_and, not_lt] at hworse
        obtain ⟨hheight, hreward, hkey⟩ := hworse
        have hf : s.found = true := by
          rcases Bool.eq_false_or_eq_true s.found with hf | hf
          · exact hf
          · rw [if_neg (by simp [hf])] at hmin
            omega
        rw [if_pos hf] at hmin
        rw [h.selAmount_eq hf] at hreward hkey
        have hafter : Precedes p height (s.minKey, s.selReward) (key, val) := ?_
        · have hpass := h.pass hf hafter (s.count + 1)
          rwa [hf] at hpass
        refine .inr ⟨by simp only; omega, ?_⟩
        rcases lt_or_eq_of_le hreward with hlt | heq
        · exact .inl hlt
        · have hge := hkey heq
          simp only [COutPoint.lt, beq_iff_eq] at hge
          exact .inr ⟨heq.symm, COutPoint.isLE_of_ne_lt hge⟩
    next hdue => exact h.skip (fun he => hdue he.due) _
  next hold =>
    by_cases helig : Eligible r p height val
    · -- old enough and still not considered: younger than the best one
      have hyounger : s.minHeight < val.height := by
        by_contra hle
        exact hold ⟨by omega, helig.old⟩
      rcases Bool.eq_false_or_eq_true s.found with hf | hf
      · rw [if_pos hf] at hmin
        exact h.pass hf (.inl (by simp only; omega)) _
      · rw [if_neg (by simp [hf])] at hmin
        have := helig.old
        omega
    · exact h.skip helig _

end Step

/-- The invariant after the loop, in whatever order the entries come. -/
theorem scanInv_findReward (h0 : 0 ≤ r.nMinBlocks) (p : Params) (height : Nat)
    (entries : List (COutPoint × CRewardValue)) :
    ScanInv r p height entries
      (entries.foldl (findRewardStep p id r.nMinBlocks r.nMinReward height)
        { minHeight := height }) := by
  refine Scan.foldl_prefix_induct (P := ScanInv r p height) ?_ ?_
  · exact ⟨Scan.IsBest.nil, rfl, fun h => absurd h Bool.false_ne_true⟩
  · intro seen e rest s _ h
    exact h.step h0 e

/-- **What the miner finds.** A payment to the eligible record that precedes all others; the records
stay as they are. -/
theorem findReward_spec (h0 : 0 ≤ r.nMinBlocks) {r₁ : CColdRewards} {payment : CTxOut}
    (h : r.findReward p height = (r₁, some payment)) :
    r₁.rewardMap = r.rewardMap ∧
    ∃ val, r.rewardMap[r₁.rewardKey]? = some val ∧ Eligible r p height val ∧
      payment = getPayment val (dueReward p height val) ∧
      ∀ (k : COutPoint) (w : CRewardValue), r.rewardMap[k]? = some w → Eligible r p height w →
        Precedes p height (r₁.rewardKey, val) (k, w) := by
  have hinv := scanInv_findReward h0 p height r.rewardMap.toList
  unfold findReward findRewardIn at h
  simp only at h
  split at h
  next hf =>
    obtain ⟨rfl, hpay⟩ := Prod.mk.inj h
    have hbest := hinv.best
    simp only [Selection.best, hf, if_true] at hbest
    obtain ⟨hmem, helig, hfirst⟩ := hbest
    refine ⟨rfl, _, Std.ExtTreeMap.mem_toList_iff_getElem?_eq_some.mp hmem, helig, ?_, ?_⟩
    · rw [← hinv.selAmount_eq hf]
      exact (Option.some.inj hpay).symm
    · intro k w hw
      exact hfirst (k, w) (Std.ExtTreeMap.mem_toList_iff_getElem?_eq_some.mpr hw)
  · cases congrArg Prod.snd h

/-! ### What the validator finds -/

/-- The order of the validator: the older record first, then the smaller
outpoint. -/
def OlderFirst (a b : COutPoint × CRewardValue) : Prop :=
  a.2.height < b.2.height ∨ a.2.height = b.2.height ∧ (compare a.1 b.1).isLE = true

theorem OlderFirst.refl (e : COutPoint × CRewardValue) : OlderFirst e e :=
  .inr ⟨rfl, by rw [(Std.ReflCmp.compare_self : compare e.1 e.1 = .eq)]; rfl⟩

theorem OlderFirst.trans {a b c : COutPoint × CRewardValue} (hab : OlderFirst a b)
    (hbc : OlderFirst b c) : OlderFirst a c :=
  Scan.lex_trans hab hbc Std.TransCmp.isLE_trans

/-- The invariant of the second loop of `CheckReward`: no matching entry was seen, or the variables
hold the first of them. -/
def CheckInv (height : Nat) (seen : List (COutPoint × CRewardValue)) (s : Int × COutPoint) : Prop :=
  (seen = [] ∧ s.1 = 0) ∨
    ∃ w, Scan.IsBest (fun _ => True) OlderFirst seen (some (s.2, w)) ∧ s.1 = height - w.height

theorem CheckInv.step {seen rest : List (COutPoint × CRewardValue)} {s : Int × COutPoint}
    {e : COutPoint × CRewardValue}
    (hord : (seen ++ e :: rest).Pairwise fun a b => compare a.1 b.1 = .lt)
    (hage : 0 < (height : Int) - e.2.height) (h : CheckInv height seen s) :
    CheckInv height (seen ++ [e]) (checkRewardStep height s e) := by
  refine .inr ?_
  unfold checkRewardStep
  simp only
  rcases h with ⟨rfl, hs⟩ | ⟨w, hbest, hs⟩
  · rw [if_pos (by omega)]
    exact ⟨e.2, Scan.IsBest.nil.first trivial (OlderFirst.refl _), rfl⟩
  · split
    next holder =>
      exact ⟨e.2, hbest.replace OlderFirst.trans trivial (OlderFirst.refl _)
        (.inl (by simp only; omega)), rfl⟩
    next hyounger =>
      refine ⟨w, hbest.keep ?_, hs⟩
      rcases Nat.lt_or_ge w.height e.2.height with hlt | hge
      · exact .inl hlt
      · -- as old: the loop runs in the order of the outpoints
        have hlt := (List.pairwise_append.mp hord).2.2 _ hbest.1 e List.mem_cons_self
        refine .inr ⟨by simp only; omega, ?_⟩
        rw [hlt]
        rfl

/-- **What the validator finds.** Of the records that match the payment, the oldest, and of those
the one with the smallest outpoint. -/
theorem checkReward_spec (h0 : 0 ≤ r.nMinBlocks) {payment : CTxOut} {op : COutPoint}
    (hval : r.rewardMap[op]? = some val)
    (hmatch : matchesPayment p r.nMinBlocks height payment val = true) :
    ∃ r₂, r.checkReward p height payment = (r₂, true) ∧ r₂.rewardMap = r.rewardMap ∧
      ∃ w, r.rewardMap[r₂.rewardKey]? = some w ∧
        matchesPayment p r.nMinBlocks height payment w = true ∧
        ∀ (k : COutPoint) (u : CRewardValue), r.rewardMap[k]? = some u →
          matchesPayment p r.nMinBlocks height payment u = true →
          OlderFirst (r₂.rewardKey, w) (k, u) := by
  have hmem : ∀ (k : COutPoint) (u : CRewardValue), (k, u) ∈ r.rewardMap.toList.filter (fun e =>
          matchesPayment p r.nMinBlocks height payment e.2) ↔
        r.rewardMap[k]? = some u ∧ matchesPayment p r.nMinBlocks height payment u = true := by
    intro k u
    rw [List.mem_filter, Std.ExtTreeMap.mem_toList_iff_getElem?_eq_some]
  have hord := (Std.ExtTreeMap.ordered_keys_toList (t := r.rewardMap)).filter
    (fun e => matchesPayment p r.nMinBlocks height payment e.2)
  unfold checkReward
  generalize r.rewardMap.toList.filter (fun e =>
    matchesPayment p r.nMinBlocks height payment e.2) = vals at hmem hord
  have hne : vals ≠ [] := List.ne_nil_of_mem ((hmem op val).mpr ⟨hval, hmatch⟩)
  have hinv : CheckInv height vals (vals.foldl (checkRewardStep height) (0, r.rewardKey)) := by
    refine Scan.foldl_prefix_induct (P := CheckInv height) (.inl ⟨rfl, rfl⟩) ?_
    intro seen e rest s hl h
    have he := ((hmem e.1 e.2).mp (hl ▸ List.mem_append_right _ List.mem_cons_self)).2
    have hage := (matchesPayment_iff.mp he).2.1
    have hord' : (seen ++ e :: rest).Pairwise fun a b => compare a.1 b.1 = .lt := hl ▸ hord
    exact h.step hord' (by omega)
  simp only [List.isEmpty_iff, hne, if_false]
  refine ⟨_, rfl, rfl, ?_⟩
  obtain ⟨hnil, -⟩ | ⟨w, ⟨hw, -, hfirst⟩, -⟩ := hinv
  · exact absurd hnil hne
  · obtain ⟨hrec, hwm⟩ := (hmem _ w).mp hw
    exact ⟨w, hrec, hwm, fun k u hu hum => hfirst (k, u) ((hmem k u).mpr ⟨hu, hum⟩) trivial⟩

end CColdRewards

/-! ### No record below the minimum after the purge -/

variable {height : Nat} {r : CColdRewards}

namespace ChainState

open CColdRewards

variable {env : Env} {p : Params} {s s' : ChainState} {block : CBlock} {op : COutPoint}

/-- The height of the purge on the main network. -/
def purgeHeight : Nat := 131491

theorem getMinRewardBalance_main (h : 109575 < height) :
    mainParams.getMinRewardBalance height = 25000 * coin := by
  have hlt : (109575 : Int) < height := by omega
  simp [Params.getMinRewardBalance, mainParams, Params.minRewardBalanceFrom, hlt]

/-- Validation at the height of the purge leaves no record below the minimum. -/
theorem le_getValue_of_purge (h : (r.purged mainParams purgeHeight).rewardMap[op]? = some val) :
    25000 * coin ≤ val.getValue := by
  rw [purged, if_pos (by decide), getElem?_clearLowRewards,
    getMinRewardBalance_main (by decide)] at h
  simpa using (Option.filter_eq_some_iff.mp h).2

/-- **After the purge no record is below the minimum**, on the main network with
the genesis block only at its start. -/
theorem noLowRecords_of_reachable
    (h : Reachable env mainParams (fun _ block => block.hash ≠ mainParams.hashGenesisBlock) s)
    (htip : purgeHeight ≤ s.tip.nHeight)
    (hval : s.rewards.rewardMap[op]? = some val) : 25000 * coin ≤ val.getValue := by
  induction h generalizing val with
  | genesis => cases htip
  | @accepted s s' block _ hgen hstep ih =>
    obtain ⟨htip', ⟨hhash, -⟩ | ⟨t, out, hconn, -⟩⟩ := connectTip_accepted hstep
    · exact absurd hhash hgen
    have hheight : s'.tip.nHeight = s.tip.nHeight + 1 := by rw [htip']; rfl
    rw [hheight] at htip
    rw [rewards_of_connected hconn] at hval
    rcases record_commitColdRewards hval with ⟨out, -, -, hmin, rfl⟩ | ⟨old, hold, hcarried⟩
    · have hlarge : 109575 < (s.tip.next block.hash).nHeight := by
        have hpurge : purgeHeight = 131491 := rfl
        have hnext : (s.tip.next block.hash).nHeight = s.tip.nHeight + 1 := rfl
        omega
      rwa [getMinRewardBalance_main hlarge] at hmin
    · rw [CRewardValue.getValue, hcarried.txout_eq, ← CRewardValue.getValue]
      rcases Nat.lt_or_ge s.tip.nHeight purgeHeight with hlt | hge
      · -- this is the block at the height of the purge
        have hnext : (s.tip.next block.hash).nHeight = purgeHeight := by
          show s.tip.nHeight + 1 = purgeHeight
          omega
        rw [hnext, validated, if_neg (by decide), rewardMap_quickValidate] at hold
        exact le_getValue_of_purge hold
      · exact ih hge (getElem?_validated hold)
  | refused _ hstep ih =>
    obtain ⟨-, htip', hsame | hvalid⟩ := connectTip_refused hstep
    · exact ih (htip' ▸ htip) (hsame ▸ hval)
    · rw [hvalid] at hval
      exact ih (htip' ▸ htip) (getElem?_validated hval)

/-! ### Miner and validator agree -/

/-- The records that a payment is checked against are eligible if they are due, unless the height
lies beyond a purge that has not happened. -/
theorem getMinRewardBalance_le_of_purged
    (h : Reachable env mainParams (fun _ block => block.hash ≠ mainParams.hashGenesisBlock) s)
    (hheight : height ≤ purgeHeight ∨ purgeHeight ≤ s.tip.nHeight)
    (hsuper : mainParams.isSuperBlock height = false) (hr : r.rewardMap = s.rewards.rewardMap)
    (hval : (r.purged mainParams height).rewardMap[op]? = some val)
    (hstop : (height : Int) ≥ clearLowRewardsSuperBlock * mainParams.nBlocksPerPeriod) :
    mainParams.getMinRewardBalance height ≤ val.getValue := by
  have hperiod : clearLowRewardsSuperBlock * mainParams.nBlocksPerPeriod = 131490 := by decide
  rw [hperiod] at hstop
  rw [getMinRewardBalance_main (by omega)]
  have hne : height ≠ 131490 := by
    rintro rfl
    cases hsuper
  have hpurge : purgeHeight = 131491 := rfl
  rcases Nat.lt_or_ge purgeHeight height with hlt | hge
  · -- beyond the purge, which then has happened
    rw [purged, if_neg (by rw [hperiod]; omega), hr] at hval
    exact noLowRecords_of_reachable h (by omega) hval
  · obtain rfl : height = purgeHeight := by omega
    exact le_getValue_of_purge hval

/-- The purge keeps a record that the miner may pay. -/
theorem getElem?_purged_of_eligible (hval : r.rewardMap[op]? = some val)
    (hlow : (height : Int) ≥ clearLowRewardsSuperBlock * p.nBlocksPerPeriod →
      p.getMinRewardBalance height ≤ val.getValue) :
    (r.purged p height).rewardMap[op]? = some val := by
  unfold purged
  split
  next hpurge =>
    rw [getElem?_clearLowRewards, hval]
    exact Option.filter_eq_some_iff.mpr ⟨rfl, by simpa using hlow (by omega)⟩
  · exact hval

/-- **Miner and validator agree.** On the main network, let the miner find a payment for a height
that is no superblock and does not lie beyond a purge that has not happened. Any validator with the
same records accepts a block with that payment, and settles on the record the miner chose. The
payout then advances the clock of the record, or drops it if its balance is below the minimum at the
height. -/
theorem findReward_quickValidate
    (h : Reachable env mainParams (fun _ block => block.hash ≠ mainParams.hashGenesisBlock) s)
    {height : Nat} (hheight : height ≤ purgeHeight ∨ purgeHeight ≤ s.tip.nHeight)
    (hsuper : mainParams.isSuperBlock height = false) {r₁ : CColdRewards} {payment : CTxOut}
    (hfind : s.rewards.findReward mainParams height = (r₁, some payment))
    {validator : CColdRewards} (hrecords : validator.rewardMap = s.rewards.rewardMap)
    (hsettings : validator.settings = s.rewards.settings)
    (hvout : block.coinbaseOutputs[1]? = some payment) :
    ∃ val r₂, s.rewards.rewardMap[r₁.rewardKey]? = some val ∧
      payment = getPayment val (dueReward mainParams height val) ∧ 0 < payment.nValue ∧
      validator.quickValidate mainParams block height false = (r₂, payment.nValue, true) ∧
      r₂.rewardKey = r₁.rewardKey ∧
      (r₂.updateRewardsDB mainParams height).rewardMap[r₁.rewardKey]? =
        if mainParams.getMinRewardBalance height ≤ val.getValue then
          some { val with
            oldHeight := val.height, height := height, payCount := val.payCount + 1 }
        else none := by
  obtain ⟨hblocks, hreward⟩ := Prod.mk.inj (settings_of_reachable h)
  have hminBlocks : (0 : Int) ≤ s.rewards.nMinBlocks := by rw [hblocks]; decide
  obtain ⟨-, val, hval, helig, hpay, hfirst⟩ := findReward_spec hminBlocks hfind
  -- the purged records of the validator have the settings of the chain
  have hset : (validator.purged mainParams height).nMinBlocks = s.rewards.nMinBlocks :=
    congrArg Prod.fst ((settings_purged (r := validator) mainParams height).trans hsettings)
  have hkept : (validator.purged mainParams height).rewardMap[r₁.rewardKey]? = some val :=
    getElem?_purged_of_eligible (hrecords ▸ hval) helig.notLow
  have hmatch : matchesPayment mainParams (validator.purged mainParams height).nMinBlocks height
      payment val = true := by
    rw [hset, hpay]
    exact matchesPayment_iff.mpr ⟨helig.active, helig.old, rfl, rfl⟩
  obtain ⟨r₂, hcheck, hmap, w, hw, hwmatch, holdest⟩ :=
    checkReward_spec (hset ▸ hminBlocks) hkept hmatch
  -- the record of the validator was eligible for the miner
  obtain ⟨hwactive, hwold, -, hwdue⟩ := matchesPayment_iff.mp hwmatch
  have hwelig : Eligible s.rewards mainParams height w := by
    refine ⟨hwactive,
      getMinRewardBalance_le_of_purged h hheight hsuper hrecords hw, hset ▸ hwold, ?_⟩
    have hdue : dueReward mainParams height w = dueReward mainParams height val := by
      rw [hpay] at hwdue
      exact hwdue
    rw [hdue]
    exact helig.due
  have hws : s.rewards.rewardMap[r₂.rewardKey]? = some w := hrecords ▸ getElem?_of_purged hw
  -- each of the two comes first, so they are one
  have hkey : r₂.rewardKey = r₁.rewardKey := by
    have hminer := hfirst r₂.rewardKey w hws hwelig
    have hvalidator := holdest r₁.rewardKey val hkept hmatch
    rcases hvalidator with hlt | ⟨heq, hle⟩
    · rcases hminer with hlt' | ⟨heq', -⟩
      · exact absurd hlt (Nat.lt_asymm hlt')
      · exact absurd heq' (ne_of_gt hlt)
    · rcases hminer with hlt' | ⟨-, hmore | ⟨-, hle'⟩⟩
      · exact absurd heq (ne_of_gt hlt')
      · rw [hpay] at hwdue
        exact absurd hwdue (ne_of_lt hmore)
      · exact COutPoint.isLE_antisymm hle hle'
  refine ⟨val, r₂, hval, hpay, ?_, ?_, hkey, ?_⟩
  · have hdue := helig.due
    rw [hreward] at hdue
    rw [hpay]
    exact lt_of_lt_of_le (by decide) hdue
  · rw [quickValidate_eq, hvout]
    simp only [hcheck]
  · rw [getElem?_updateRewardsDB, if_pos hkey, hmap, hkept, Option.bind_some, paidRecord]

theorem thousandCoinState_reachable :
    Reachable Env.permissive mainParams (fun _ block => block.hash ≠ mainParams.hashGenesisBlock)
      (thousandCoinState mainParams [0x51]) := by
  refine Reachable.connectAll
    (fun _ block => decide (block.hash ≠ mainParams.hashGenesisBlock))
    (fun s block h => of_decide_eq_true h) .genesis ?_
  decide +kernel

/-- A block with a payment as the second output of its coinbase. -/
def paymentBlock (height : Nat) (payment : CTxOut) : CBlock :=
  { hash := height, hashPrevBlock := height - 1
    vtx := [coinbaseTx height [{ nValue := 0, scriptPubKey := [opReturn] }, payment]] }

/-- The payment that falls due on that chain at height 100000. -/
def thousandCoinPayment : CTxOut := { nValue := 5697 * coin / 100, scriptPubKey := [0x51] }

theorem findReward_quickValidate_thousandCoin :
    ∃ val r₂, (thousandCoinState mainParams [0x51]).rewards.rewardMap[(⟨1000, 0⟩ : COutPoint)]? =
        some val ∧
      (thousandCoinState mainParams [0x51]).rewards.quickValidate mainParams
        (paymentBlock 100000 thousandCoinPayment) 100000 false =
          (r₂, thousandCoinPayment.nValue, true) ∧
      r₂.rewardKey = ⟨1000, 0⟩ ∧
      (r₂.updateRewardsDB mainParams 100000).rewardMap[(⟨1000, 0⟩ : COutPoint)]? =
        if mainParams.getMinRewardBalance 100000 ≤ val.getValue then
          some { val with
            oldHeight := val.height, height := 100000, payCount := val.payCount + 1 }
        else none := by
  have hkey : ((thousandCoinState mainParams [0x51]).rewards.findReward mainParams
      100000).1.rewardKey = ⟨1000, 0⟩ := by decide +kernel
  have hpay : ((thousandCoinState mainParams [0x51]).rewards.findReward mainParams 100000).2 =
      some thousandCoinPayment := by decide +kernel
  have hfind : (thousandCoinState mainParams [0x51]).rewards.findReward mainParams 100000 =
      (((thousandCoinState mainParams [0x51]).rewards.findReward mainParams 100000).1,
        some thousandCoinPayment) := by
    rw [← hpay]
  have hvout : (paymentBlock 100000 thousandCoinPayment).coinbaseOutputs[1]? =
      some thousandCoinPayment := rfl
  obtain ⟨val, r₂, hval, -, -, hok, hkey₂, hpaid⟩ :=
    findReward_quickValidate thousandCoinState_reachable (.inl (by decide)) (by decide) hfind rfl
      rfl hvout
  rw [hkey] at hval hkey₂ hpaid
  exact ⟨val, r₂, hval, hok, hkey₂, hpaid⟩

/-- What the miner finds on that chain for a height, and what validation and the payout make of the
record. -/
def thousandCoinPayout (height : Nat) : Option (Int × Bool × Option CRewardValue) :=
  let r := (thousandCoinState mainParams [0x51]).rewards
  match r.findReward mainParams height with
  | (r₁, some payment) =>
    let (r₂, _, ok) := r.quickValidate mainParams (paymentBlock height payment) height false
    some (payment.nValue, ok && decide (r₂.rewardKey = r₁.rewardKey),
      (r₂.updateRewardsDB mainParams height).rewardMap[r₁.rewardKey]?)
  | (_, none) => none

/-- A record of a thousand coins that is paid when the minimum is twenty-five
thousand is dropped. -/
theorem thousandCoinPayout_dropped :
    Reachable Env.permissive mainParams (fun _ block => block.hash ≠ mainParams.hashGenesisBlock)
      (thousandCoinState mainParams [0x51]) ∧
    mainParams.isSuperBlock 110001 = false ∧
    thousandCoinPayout 110001 = some (6268 * coin / 100, true, none) :=
  ⟨thousandCoinState_reachable, by decide, by decide +kernel⟩

end ChainState

end DeVault
