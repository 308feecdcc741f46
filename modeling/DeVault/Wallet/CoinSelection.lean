import DeVault.Coins

/-!
# Coin selection (`CWallet::SelectCoins`, `coinselection.h`)

A `CInputCoin` is an output of a transaction of the wallet, as it stands in that
transaction. `SelectCoins` collects such coins in a `std::set` ordered by outpoint
and adds up their values: the coins of the coin control, and what a solver finds
among the others. The two solvers, branch and bound and the knapsack approximation,
and the grouping of the coins are left open: a `Solver` answers with coins of the
wallet that are worth the target.
-/

namespace DeVault

open List

/-- `CInputCoin`. -/
structure CInputCoin where
  outpoint : COutPoint
  txout : CTxOut
  deriving DecidableEq, Repr

/-- The coin is an output of the transaction. -/
def CInputCoin.Of (c : CInputCoin) (tx : CTransaction) : Prop :=
  c.outpoint.txid = tx.getId ∧ tx.vout[c.outpoint.n]? = some c.txout

/-- `COutput`: an output of a transaction of the wallet. -/
structure COutput where
  tx : CTransaction
  i : Nat
  fSpendable : Bool
  inRange : i < tx.vout.length

/-- `GetInputCoin`. -/
def COutput.getInputCoin (out : COutput) : CInputCoin :=
  ⟨out.tx.outPoint out.i, out.tx.vout.get ⟨out.i, out.inRange⟩⟩

theorem COutput.of_getInputCoin (out : COutput) : out.getInputCoin.Of out.tx :=
  ⟨rfl, getElem?_eq_getElem out.inRange⟩

/-- The outpoints of a list of coins. -/
def outpoints (coins : List CInputCoin) : List COutPoint := coins.map (·.outpoint)

/-- The sum of the values of a list of coins. -/
def totalValue (coins : List CInputCoin) : Int := (coins.map (·.txout.nValue)).sum

/-- Adding up the values leaves `int64_t` at no coin. -/
def sumFits (coins : List CInputCoin) : Bool :=
  coins.inits.all fun part => int64Range (totalValue part)

/-! ### `std::set<CInputCoin>` -/

/-- `std::set::insert`: the list is ordered by outpoint, and a coin that is there is
kept. -/
def insertCoin (c : CInputCoin) : List CInputCoin → List CInputCoin
  | [] => [c]
  | d :: coins =>
    match compare c.outpoint d.outpoint with
    | .lt => c :: d :: coins
    | .eq => d :: coins
    | .gt => d :: insertCoin c coins

/-- Inserts coins one after the other. -/
def insertAll (coins set : List CInputCoin) : List CInputCoin :=
  coins.foldl (fun set c => insertCoin c set) set

theorem insertCoin_perm {c : CInputCoin} {coins : List CInputCoin}
    (hnew : c.outpoint ∉ outpoints coins) : (insertCoin c coins).Perm (c :: coins) := by
  induction coins with
  | nil => exact Perm.refl _
  | cons d coins ih =>
    rw [outpoints, map_cons, mem_cons, not_or] at hnew
    unfold insertCoin
    split
    · exact Perm.refl _
    next heq => exact absurd (Std.LawfulEqOrd.eq_of_compare heq) hnew.1
    · exact ((ih hnew.2).cons d).trans (Perm.swap c d coins)

/-- New outpoints only permute the list, so that values add up. -/
theorem insertAll_perm {coins set : List CInputCoin} (hnd : (outpoints (coins ++ set)).Nodup) :
    (insertAll coins set).Perm (coins ++ set) := by
  induction coins generalizing set with
  | nil => exact Perm.refl _
  | cons c coins ih =>
    have hmiddle : (coins ++ c :: set).Perm (c :: coins ++ set) := perm_middle
    have hc : c.outpoint ∉ outpoints set := by
      intro hmem
      rw [outpoints, cons_append, map_cons, nodup_cons] at hnd
      exact hnd.1 (map_append ▸ mem_append_right _ hmem)
    have hstep : (coins ++ insertCoin c set).Perm (coins ++ c :: set) :=
      (insertCoin_perm hc).append_left coins
    have hnd' : (outpoints (coins ++ insertCoin c set)).Nodup :=
      ((hstep.trans hmiddle).map _).nodup_iff.mpr hnd
    exact ((ih hnd').trans hstep).trans hmiddle

theorem insertAll_nil_perm {coins : List CInputCoin} (hnd : (outpoints coins).Nodup) :
    (insertAll coins []).Perm coins := by
  have h : (insertAll coins []).Perm (coins ++ []) := insertAll_perm (by rwa [append_nil])
  rwa [append_nil] at h

theorem totalValue_perm {a b : List CInputCoin} (h : a.Perm b) : totalValue a = totalValue b :=
  (h.map _).sum_eq

/-! ### Selection -/

/-- The transactions of the wallet, by id. -/
structure CWallet where
  mapWallet : Std.ExtTreeMap TxId CTransaction
  spendZeroConfChange : Bool
  keyed : ∀ (txid : TxId) (tx : CTransaction), mapWallet[txid]? = some tx → tx.getId = txid

/-- `CCoinControl`: the inputs that the caller selected, in the order of the set. -/
structure CCoinControl where
  setSelected : List COutPoint := []
  fAllowOtherInputs : Bool := false
  includeUnsafeInputs : Bool := false
  nodup : setSelected.Nodup

/-- `HasSelected`. -/
def CCoinControl.hasSelected (control : CCoinControl) : Bool := !control.setSelected.isEmpty

/-- `SelectCoinsMinConf` as far as the outcome goes: for a target and the two minimum depths it
finds coins, none twice, that are worth the target. `attempt` stands for what else its answer
depends on; its own sums are taken to fit. -/
structure Solver where
  selectCoinsMinConf : (attempt : Nat) → (nTargetValue : Int) → (confMine confTheirs : Nat) →
    List COutput → (useBnb : Bool) → Option (List CInputCoin)
  mem_of_some : ∀ {attempt target mine theirs vCoins useBnb coins},
    selectCoinsMinConf attempt target mine theirs vCoins useBnb = some coins →
      ∀ c ∈ coins, c ∈ vCoins.map COutput.getInputCoin
  nodup_of_some : ∀ {attempt target mine theirs vCoins useBnb coins},
    selectCoinsMinConf attempt target mine theirs vCoins useBnb = some coins →
      (outpoints coins).Nodup
  le_of_some : ∀ {attempt target mine theirs vCoins useBnb coins},
    selectCoinsMinConf attempt target mine theirs vCoins useBnb = some coins →
      target ≤ totalValue coins

/-- What `SelectCoins` returns and writes, and whether its sums stayed in `int64_t`. `bnbUsed` is
`none` if it was not written. -/
structure Selection where
  found : Bool
  fits : Bool
  setCoinsRet : List CInputCoin
  nValueRet : Int
  bnbUsed : Option Bool
  useBnb : Bool

/-- The coin of a preset input, if the wallet has it. -/
def CWallet.presetCoin (w : CWallet) (outpoint : COutPoint) : Option CInputCoin :=
  w.mapWallet[outpoint.txid]?.bind fun tx =>
    tx.vout[outpoint.n]?.map fun out => ⟨outpoint, out⟩

/-- The minimum depths that are tried, one pair after the other. -/
def eligibilityFilters (w : CWallet) (control : CCoinControl) : List (Nat × Nat) :=
  [(1, 6), (1, 1)] ++ (if w.spendZeroConfChange then [(0, 1)] else []) ++
    (if w.spendZeroConfChange && control.includeUnsafeInputs then [(0, 0)] else [])

/-- `CWallet::SelectCoins`. -/
def selectCoins (w : CWallet) (solver : Solver) (attempt : Nat) (vAvailableCoins : List COutput)
    (nTargetValue : Int) (control : CCoinControl) (useBnb : Bool) : Selection :=
  if control.hasSelected && !control.fAllowOtherInputs then
    -- all selected outputs go into the transaction
    let coins := (vAvailableCoins.filter (·.fSpendable)).map COutput.getInputCoin
    { found := nTargetValue ≤ totalValue coins, fits := sumFits coins
      setCoinsRet := insertAll coins []
      nValueRet := totalValue coins, bnbUsed := some false, useBnb := useBnb }
  else
    -- the coins up to the first that the wallet does not have
    let known := ((control.setSelected.map w.presetCoin).takeWhile Option.isSome).reduceOption
    match control.setSelected.mapM w.presetCoin with
    | none =>
      { found := false, fits := sumFits known, setCoinsRet := [], nValueRet := 0
        bnbUsed := some false, useBnb := false }
    | some presets =>
      let nValueFromPresetInputs := totalValue presets
      let vCoins := vAvailableCoins.filter fun out =>
        !(outpoints presets).contains out.getInputCoin.outpoint
      let useBnb := useBnb && !control.hasSelected
      let written := if control.hasSelected then some false else none
      if nTargetValue ≤ nValueFromPresetInputs then
        { found := true, fits := sumFits known, setCoinsRet := insertAll presets []
          nValueRet := nValueFromPresetInputs, bnbUsed := written, useBnb := useBnb }
      else
        match (eligibilityFilters w control).findSome? fun f =>
            solver.selectCoinsMinConf attempt (nTargetValue - nValueFromPresetInputs) f.1 f.2
              vCoins useBnb with
        | some coins =>
          { found := true
            fits := sumFits known && int64Range (nTargetValue - nValueFromPresetInputs) &&
              sumFits coins && int64Range (totalValue coins + nValueFromPresetInputs)
            setCoinsRet := insertAll presets (insertAll coins [])
            nValueRet := totalValue coins + nValueFromPresetInputs
            bnbUsed := some useBnb, useBnb := useBnb }
        | none =>
          { found := false
            fits := sumFits known && int64Range (nTargetValue - nValueFromPresetInputs)
            setCoinsRet := insertAll presets []
            nValueRet := nValueFromPresetInputs, bnbUsed := some useBnb, useBnb := useBnb }

/-! ### What is selected -/

/-- The coins that a call can select: available ones, and preset inputs. -/
def CWallet.Offers (w : CWallet) (vAvailableCoins : List COutput) (control : CCoinControl)
    (c : CInputCoin) : Prop :=
  c ∈ vAvailableCoins.map COutput.getInputCoin ∨
    ∃ o ∈ control.setSelected, w.presetCoin o = some c

/-- A selection that succeeded. -/
structure Selected (w : CWallet) (vAvailableCoins : List COutput) (control : CCoinControl)
    (target : Int) (coins : List CInputCoin) (value : Int) : Prop where
  offered : ∀ c ∈ coins, w.Offers vAvailableCoins control c
  nodup : (outpoints coins).Nodup
  value_eq : value = totalValue coins
  target_le : target ≤ value

variable {w : CWallet} {solver : Solver} {attempt : Nat} {vAvailableCoins : List COutput}
  {target : Int} {control : CCoinControl} {useBnb : Bool} {c : CInputCoin}

theorem CWallet.of_presetCoin {o : COutPoint} (h : w.presetCoin o = some c) :
    c.outpoint = o ∧ ∃ tx, c.Of tx := by
  obtain ⟨tx, htx, h⟩ := Option.bind_eq_some_iff.mp h
  obtain ⟨out, hout, rfl⟩ := Option.map_eq_some_iff.mp h
  exact ⟨rfl, tx, (w.keyed _ tx htx).symm, hout⟩

/-- The preset coins are those of the selected outpoints, in their order. -/
theorem presets_of_mapM {os : List COutPoint} {presets : List CInputCoin}
    (h : os.mapM w.presetCoin = some presets) :
    outpoints presets = os ∧ ∀ c ∈ presets, ∃ o ∈ os, w.presetCoin o = some c := by
  induction os generalizing presets with
  | nil =>
    obtain rfl : presets = [] := by simpa using h.symm
    exact ⟨rfl, nofun⟩
  | cons o os ih =>
    rw [mapM_cons] at h
    obtain ⟨c, hc, h⟩ := Option.bind_eq_some_iff.mp h
    obtain ⟨rest, hrest, h⟩ := Option.bind_eq_some_iff.mp h
    cases h
    obtain ⟨hout, hmem⟩ := ih hrest
    refine ⟨?_, ?_⟩
    · rw [outpoints, map_cons, (CWallet.of_presetCoin hc).1]
      exact congrArg _ hout
    · intro d hd
      rcases mem_cons.mp hd with rfl | hd
      · exact ⟨o, mem_cons_self, hc⟩
      · obtain ⟨o', ho', hd'⟩ := hmem d hd
        exact ⟨o', mem_cons_of_mem _ ho', hd'⟩

/-- Coins that were put into an empty set. -/
theorem Selected.of_perm {set coins : List CInputCoin} {value : Int} (hperm : set.Perm coins)
    (hoffered : ∀ c ∈ coins, w.Offers vAvailableCoins control c) (hnd : (outpoints coins).Nodup)
    (hvalue : value = totalValue coins) (hle : target ≤ value) :
    Selected w vAvailableCoins control target set value where
  offered := fun c hc => hoffered c (hperm.mem_iff.mp hc)
  nodup := (hperm.map _).nodup_iff.mpr hnd
  value_eq := hvalue.trans (totalValue_perm hperm).symm
  target_le := hle

/-- **What `SelectCoins` finds.** -/
theorem selectCoins_selected
    (havail : (outpoints (vAvailableCoins.map COutput.getInputCoin)).Nodup)
    (h : (selectCoins w solver attempt vAvailableCoins target control useBnb).found = true) :
    Selected w vAvailableCoins control target
      (selectCoins w solver attempt vAvailableCoins target control useBnb).setCoinsRet
      (selectCoins w solver attempt vAvailableCoins target control useBnb).nValueRet := by
  have hsub : ∀ (p : COutput → Bool) (c : CInputCoin),
      c ∈ (vAvailableCoins.filter p).map COutput.getInputCoin →
      c ∈ vAvailableCoins.map COutput.getInputCoin :=
    fun p c hc => (filter_sublist.map _).subset hc
  unfold selectCoins at h ⊢
  split at h
  next hall =>
    rw [if_pos hall]
    have hnd : (outpoints ((vAvailableCoins.filter (·.fSpendable)).map
        COutput.getInputCoin)).Nodup :=
      havail.sublist ((filter_sublist.map _).map _)
    exact Selected.of_perm (insertAll_nil_perm hnd) (fun c hc => Or.inl (hsub _ c hc)) hnd rfl
      (of_decide_eq_true h)
  next hall =>
  rw [if_neg hall]
  split at h
  · cases h
  next presets hpresets =>
  obtain ⟨hout, hmem⟩ := presets_of_mapM hpresets
  have hndp : (outpoints presets).Nodup := hout ▸ control.nodup
  have hoffp : ∀ c ∈ presets, w.Offers vAvailableCoins control c := fun c hc => Or.inr (hmem c hc)
  simp only at h ⊢
  split at h
  next hle =>
    rw [if_pos hle]
    exact Selected.of_perm (insertAll_nil_perm hndp) hoffp hndp rfl hle
  next hle =>
  rw [if_neg hle]
  split at h
  next coins hcoins =>
    obtain ⟨f, -, hf⟩ := exists_of_findSome?_eq_some hcoins
    have hnd := solver.nodup_of_some hf
    -- the solver chose among the coins that are not preset
    have hdisj : (outpoints (presets ++ coins)).Nodup := by
      rw [outpoints, map_append, nodup_append']
      refine ⟨hndp, hnd, fun o ho ho' => ?_⟩
      obtain ⟨c, hc, rfl⟩ := mem_map.mp ho'
      obtain ⟨out, hout, rfl⟩ := mem_map.mp (solver.mem_of_some hf c hc)
      have hno := (mem_filter.mp hout).2
      simp only [Bool.not_eq_true', contains_eq_mem, decide_eq_false_iff_not] at hno
      exact hno ho
    have happ : (presets ++ insertAll coins []).Perm (presets ++ coins) :=
      (insertAll_nil_perm hnd).append_left presets
    have hperm : (insertAll presets (insertAll coins [])).Perm (presets ++ coins) :=
      (insertAll_perm ((happ.map _).nodup_iff.mpr hdisj)).trans happ
    have hle' : target ≤ totalValue coins + totalValue presets := by
      have := solver.le_of_some hf
      omega
    refine Selected.of_perm hperm ?_ hdisj ?_ hle'
    · intro c hc
      rcases mem_append.mp hc with hc | hc
      · exact hoffp c hc
      · exact Or.inl (hsub _ c (solver.mem_of_some hf c hc))
    · simp [totalValue, add_comm]
  · cases h

/-- A selection that failed has written `bnb_used`, and true only if branch and bound
was asked for. -/
theorem selectCoins_notFound
    (h : (selectCoins w solver attempt vAvailableCoins target control useBnb).found = false) :
    ∃ bnbUsed, (selectCoins w solver attempt vAvailableCoins target control useBnb).bnbUsed =
      some bnbUsed ∧ (bnbUsed = true → useBnb = true) := by
  unfold selectCoins at h ⊢
  split
  · exact ⟨false, rfl, fun hf => absurd hf (by decide)⟩
  next hall =>
  rw [if_neg hall] at h
  split at h
  · exact ⟨false, rfl, fun hf => absurd hf (by decide)⟩
  simp only at h ⊢
  split at h
  · cases h
  next hle =>
  rw [if_neg hle]
  split at h
  · cases h
  · exact ⟨_, rfl, fun hb => (Bool.and_eq_true_iff.mp hb).1⟩

end DeVault
