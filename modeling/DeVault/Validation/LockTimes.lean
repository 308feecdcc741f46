import DeVault.Lib.OrderStatistic
import DeVault.Mempool.Pool
import DeVault.Script.Flags
import DeVault.Validation.ContextualCheck

/-!
# Lock times along the chain (`chain.h`, `consensus/tx_verify.cpp`, `validation.cpp`)

A transaction can ask to be mined only from some height or time on: absolutely, with
`nLockTime` (`isFinalTx`), and relative to the coins it spends, with the sequence
numbers of its inputs (`calculateSequenceLocks`). Times are compared with the median
time past of the parent, the median of the times of eleven blocks.

The memory pool checks a transaction against the block after the tip, and takes it for
granted that unconfirmed parents are in that block (`checkSequenceLocks`). A block
checks it again, at whatever height it has and with the heights at which the parents
were really mined.

The time of a block is a parameter `nTime`. It is only compared, so a natural number stands for the
`uint32_t`; `cachedMTP` is not modelled.
-/

namespace DeVault

open List Outcome CBlockIndex

/-! ### The median time past -/

section MedianTimePast

variable (nTime : CBlockIndex → Nat)

/-- `CBlockIndex::nMedianTimeSpan`. -/
def nMedianTimeSpan : Nat := 11

variable (pindex : CBlockIndex)

/-- `CalculateMedianTimePast`: the walk down the chain, the sort, and the entry in the
middle. -/
def calculateMedianTimePast : Nat :=
  (OrderStatistic.upperMedian ((pindex.branch.take nMedianTimeSpan).map nTime)).getD 0

/-- `GetMedianTimePast`. -/
def getMedianTimePast : Int := calculateMedianTimePast nTime pindex

/-- Every block of a chain is later than the median time past of its parent, as
`ContextualCheckBlockHeader` demands (`time-too-old`). -/
def TimesAboveMedian : Prop :=
  ∀ b ∈ pindex.branch, ∀ q : CBlockIndex, b.pprev = some q → getMedianTimePast nTime q < nTime b

variable {nTime} {pindex b q : CBlockIndex}

theorem upperMedian_branch (nTime : CBlockIndex → Nat) (pindex : CBlockIndex) :
    OrderStatistic.upperMedian ((pindex.branch.map nTime).take nMedianTimeSpan) =
      some (calculateMedianTimePast nTime pindex) := by
  have hne : (pindex.branch.map nTime).take nMedianTimeSpan ≠ [] := by
    have hlen := pindex.length_branch
    intro hnil
    have := congrArg length hnil
    simp only [length_take, length_map, hlen, nMedianTimeSpan, length_nil] at this
    omega
  rw [calculateMedianTimePast, ← map_take]
  rw [← map_take] at hne
  obtain ⟨m, hm⟩ := Option.ne_none_iff_exists'.mp (OrderStatistic.upperMedian_ne_none hne)
  rw [hm, Option.getD_some]

theorem medianTimePast_le_of_pprev (hb : b.pprev = some q)
    (ht : getMedianTimePast nTime q < nTime b) :
    getMedianTimePast nTime q ≤ getMedianTimePast nTime b := by
  have hq := upperMedian_branch nTime q
  have hwindow := upperMedian_branch nTime b
  rw [branch_of_pprev_some hb, map_cons] at hwindow
  have hle : calculateMedianTimePast nTime q ≤ nTime b := by
    unfold getMedianTimePast at ht
    omega
  exact Int.ofNat_le.mpr (OrderStatistic.upperMedian_le_of_slide hq hle hwindow)

section

variable (h : TimesAboveMedian nTime pindex)
include h

/-- The median time past does not fall along a chain whose blocks are later than the median time
past of their parents. -/
theorem medianTimePast_mono (hq : q ∈ pindex.branch) :
    getMedianTimePast nTime q ≤ getMedianTimePast nTime pindex := by
  induction pindex using pprev_induction with
  | root b hb =>
    rw [branch_of_pprev_none hb, mem_singleton] at hq
    rw [hq]
  | step b p hb ih =>
    rw [branch_of_pprev_some hb, mem_cons] at hq
    rcases hq with rfl | hq
    · exact le_refl _
    have hbelow : TimesAboveMedian nTime p := fun b' hb' =>
      h b' (branch_of_pprev_some hb ▸ mem_cons_of_mem _ hb')
    calc getMedianTimePast nTime q ≤ getMedianTimePast nTime p := ih hbelow hq
      _ ≤ getMedianTimePast nTime b :=
        medianTimePast_le_of_pprev hb (h b b.self_mem_branch p hb)

theorem TimesAboveMedian.below (hq : q ∈ pindex.branch) : TimesAboveMedian nTime q :=
  fun b hb => h b (mem_branch_trans hq hb)

/-- A block above a tip, and the parent of the block. -/
theorem TimesAboveMedian.later {prev tip : CBlockIndex}
    (hprev : pindex.pprev = some prev) (htip : tip ∈ prev.branch) :
    prev ∈ pindex.branch ∧ pindex.nHeight = prev.nHeight + 1 ∧ tip.nHeight ≤ prev.nHeight ∧
      getMedianTimePast nTime tip ≤ getMedianTimePast nTime prev := by
  have hmem : prev ∈ pindex.branch := by
    rw [branch_of_pprev_some hprev]
    exact mem_cons_of_mem _ prev.self_mem_branch
  exact ⟨hmem, nHeight_of_pprev hprev, nHeight_le_of_mem_branch htip,
    medianTimePast_mono (h.below hmem) htip⟩

end

theorem TimesAboveMedian.of_all (h : (pindex.branch.all fun b =>
    b.pprev.all fun q => decide (getMedianTimePast nTime q < nTime b)) = true) :
    TimesAboveMedian nTime pindex := by
  intro b hb q hq
  have hb := all_eq_true.mp h b hb
  rw [hq] at hb
  exact of_decide_eq_true hb

theorem medianTimePast_congr {nTime' : CBlockIndex → Nat}
    (h : ∀ b ∈ pindex.branch, nTime' b = nTime b) :
    getMedianTimePast nTime' pindex = getMedianTimePast nTime pindex := by
  unfold getMedianTimePast calculateMedianTimePast
  rw [map_congr_left fun b hb => h b (mem_of_mem_take hb)]

end MedianTimePast

/-! ### Relative lock times -/

section SequenceLocks

/-- `LOCKTIME_VERIFY_SEQUENCE`. -/
def locktimeVerifySequence : UInt32 := (1 : UInt32) <<< 0

/-- `LOCKTIME_MEDIAN_TIME_PAST`. -/
def locktimeMedianTimePast : UInt32 := (1 : UInt32) <<< 1

/-- `STANDARD_LOCKTIME_VERIFY_FLAGS`. -/
def standardLocktimeVerifyFlags : UInt32 := locktimeVerifySequence ||| locktimeMedianTimePast

/-- `CTxIn::SEQUENCE_LOCKTIME_DISABLE_FLAG`. -/
def sequenceLocktimeDisableFlag : Nat := 1 <<< 31

/-- `CTxIn::SEQUENCE_LOCKTIME_TYPE_FLAG`. -/
def sequenceLocktimeTypeFlag : Nat := 1 <<< 22

/-- `CTxIn::SEQUENCE_LOCKTIME_MASK`. -/
def sequenceLocktimeMask : Nat := 0x0000ffff

/-- `CTxIn::SEQUENCE_LOCKTIME_GRANULARITY`. -/
def sequenceLocktimeGranularity : Nat := 9

namespace CTxIn

variable (txin : CTxIn)

/-- The input has no relative lock time. -/
def locktimeDisabled : Bool := txin.nSequence &&& sequenceLocktimeDisableFlag != 0

/-- The relative lock time is a time and not a number of blocks. -/
def locktimeIsTime : Bool := txin.nSequence &&& sequenceLocktimeTypeFlag != 0

/-- The blocks that the input asks for. -/
def lockBlocks : Nat := txin.nSequence &&& sequenceLocktimeMask

/-- The seconds that the input asks for. -/
def lockSeconds : Nat :=
  (txin.nSequence &&& sequenceLocktimeMask) <<< sequenceLocktimeGranularity

end CTxIn

/-- `fEnforceBIP68`: the version is compared as an unsigned number. -/
def enforceBIP68 (tx : CTransaction) (flags : UInt32) : Bool :=
  decide (tx.nVersion % 2 ^ 32 ≥ 2) && hasFlag flags locktimeVerifySequence

variable (nTime : CBlockIndex → Nat)

/-- One input of the loop of `CalculateSequenceLocks`: the last height and the last time at which
the transaction is still invalid. -/
def sequenceLockStep (block : CBlockIndex) (lock : Int × Int) (input : CTxIn × Int) :
    Except Fault (Int × Int) :=
  let (txin, nCoinHeight) := input
  if txin.locktimeDisabled then
    .ok lock
  else if txin.locktimeIsTime then
    match block.getAncestor (max (nCoinHeight - 1) 0) with
    | some ancestor =>
      let nCoinTime := getMedianTimePast nTime ancestor
      .ok (lock.1, max lock.2 (nCoinTime + txin.lockSeconds - 1))
    | none => .error (.assertion "block.GetAncestor(std::max(nCoinHeight - 1, 0))")
  else
    .ok (max lock.1 (nCoinHeight + txin.lockBlocks - 1), lock.2)

/-- `CalculateSequenceLocks`: the last invalid height and time, and the heights of the coins, `0`
for unlocked inputs. -/
def calculateSequenceLocks (tx : CTransaction) (flags : UInt32) (prevHeights : List Int)
    (block : CBlockIndex) : Except Fault ((Int × Int) × List Int) := do
  Outcome.require (prevHeights.length == tx.vin.length)
    (.assertion "prevHeights->size() == tx.vin.size()")
  if enforceBIP68 tx flags then do
    let lockPair ← (tx.vin.zip prevHeights).foldlM (sequenceLockStep nTime block) (-1, -1)
    .ok (lockPair, zipWith (fun txin h => if txin.locktimeDisabled then 0 else h)
      tx.vin prevHeights)
  else
    .ok ((-1, -1), prevHeights)

/-- `EvaluateSequenceLocks`. -/
def evaluateSequenceLocks (block : CBlockIndex) (lockPair : Int × Int) : Except Fault Bool :=
  match block.pprev with
  | some prev =>
    .ok (!(decide (lockPair.1 ≥ block.nHeight) ||
      decide (lockPair.2 ≥ getMedianTimePast nTime prev)))
  | none => .error (.assertion "block.pprev")

/-- `SequenceLocks`. -/
def sequenceLocks (tx : CTransaction) (flags : UInt32) (prevHeights : List Int)
    (block : CBlockIndex) : Except Fault Bool := do
  let (lockPair, _) ← calculateSequenceLocks nTime tx flags prevHeights block
  evaluateSequenceLocks nTime block lockPair

/-- `nLockTimeFlags` of `ConnectBlock`. -/
def connectLockTimeFlags (CSVHeight : Int) (pindex : CBlockIndex) : UInt32 :=
  if pindex.nHeight ≥ CSVHeight then locktimeVerifySequence else 0

/-- `LockPoints`. -/
structure LockPoints where
  height : Int := 0
  time : Int := 0
  maxInputBlock : Option CBlockIndex := none
  deriving DecidableEq

/-- The height that `CheckSequenceLocks` takes for the coin of an input: the next block,
if the coin is an output of the memory pool. -/
def nextBlockPrevHeight {B : Type} [CCoinsView B] (viewMemPool : B) (tip : CBlockIndex)
    (txin : CTxIn) : Option Int :=
  (CCoinsView.getCoin viewMemPool txin.prevout).map fun coin =>
    if coin.nHeight = mempoolHeight then (tip.nHeight + 1 : Int) else coin.nHeight

/-- The lock points of a calculation: the highest of the confirmed coins that are
locked. -/
def LockPoints.ofCalculation (tip : CBlockIndex) (lockPair : Int × Int) (prevheights : List Int) :
    LockPoints where
  height := lockPair.1
  time := lockPair.2
  maxInputBlock := tip.getAncestor (prevheights.foldl
    (fun (maxInputHeight height : Int) =>
      if height ≠ tip.nHeight + 1 then max maxInputHeight height else maxInputHeight) 0)

/-- `CheckSequenceLocks`: whether the transaction could be in the block after the tip, whose entry
has no hash and the time `0`, and the new lock points if they are asked for. -/
def checkSequenceLocks {B : Type} [CCoinsView B] (viewMemPool : B) (tip : CBlockIndex)
    (tx : CTransaction) (flags : UInt32) (lp : Option LockPoints) (useExistingLockPoints : Bool) :
    Except Fault (Bool × Option LockPoints) :=
  let index := tip.next 0
  let nTime := Function.update nTime index 0
  if useExistingLockPoints then
    match lp with
    | some points => do
      let accepted ← evaluateSequenceLocks nTime index (points.height, points.time)
      .ok (accepted, lp)
    | none => .error (.assertion "lp")
  else
    match tx.vin.mapM (nextBlockPrevHeight viewMemPool tip) with
    | none => .ok (false, lp)
    | some prevheights => do
      let (lockPair, prevheights) ← calculateSequenceLocks nTime tx flags prevheights index
      let accepted ← evaluateSequenceLocks nTime index lockPair
      .ok (accepted, lp.map fun _ => .ofCalculation tip lockPair prevheights)

end SequenceLocks

/-! ### Locks, input by input -/

variable {tx : CTransaction} {flags : UInt32} {txin : CTxIn}

section InputUnlocked

/-- The relative lock of an input, with the height of its coin, is open in `block`, where
`nBlockTime` is the median time past of the parent. -/
def InputUnlocked (nTime : CBlockIndex → Nat) (block : CBlockIndex) (nBlockTime : Int)
    (input : CTxIn × Int) : Prop :=
  input.1.locktimeDisabled = false →
    if input.1.locktimeIsTime then
      ∃ a, block.getAncestor (max (input.2 - 1) 0) = some a ∧
        getMedianTimePast nTime a + input.1.lockSeconds - 1 < nBlockTime
    else
      input.2 + input.1.lockBlocks - 1 < block.nHeight

variable {nTime : CBlockIndex → Nat} {block prev pindex tip : CBlockIndex} {nBlockTime : Int}

/-- What one round of the loop adds to the pair of last invalid height and time. -/
theorem sequenceLockStep_open_iff (lock : Int × Int) (input : CTxIn × Int) :
    (∃ lock', sequenceLockStep nTime block lock input = .ok lock' ∧
        lock'.1 < block.nHeight ∧ lock'.2 < nBlockTime) ↔
      (lock.1 < block.nHeight ∧ lock.2 < nBlockTime) ∧
        InputUnlocked nTime block nBlockTime input := by
  obtain ⟨txin, nCoinHeight⟩ := input
  simp only [sequenceLockStep, InputUnlocked]
  cases hdisabled : txin.locktimeDisabled with
  | true => simp
  | false =>
    cases htime : txin.locktimeIsTime with
    | true =>
      cases hancestor : block.getAncestor (max (nCoinHeight - 1) 0) with
      | none => simp
      | some ancestor => simp [and_assoc]
    | false =>
      simp only [Bool.false_eq_true, if_false, Except.ok.injEq, exists_eq_left', max_lt_iff,
        forall_const]
      exact and_right_comm

theorem foldlM_sequenceLockStep_open_iff (lock : Int × Int) (inputs : List (CTxIn × Int)) :
    (∃ lock', inputs.foldlM (sequenceLockStep nTime block) lock = .ok lock' ∧
        lock'.1 < block.nHeight ∧ lock'.2 < nBlockTime) ↔
      (lock.1 < block.nHeight ∧ lock.2 < nBlockTime) ∧
        ∀ input ∈ inputs, InputUnlocked nTime block nBlockTime input := by
  induction inputs generalizing lock with
  | nil => simp [pure, Except.pure]
  | cons input inputs ih =>
    simp only [foldlM_cons, bind_ok_iff, forall_mem_cons]
    constructor
    · rintro ⟨lock', ⟨mid, hmid, hrest⟩, hopen⟩
      obtain ⟨hmidOpen, hinputs⟩ := (ih mid).mp ⟨lock', hrest, hopen⟩
      obtain ⟨hlock, hinput⟩ := (sequenceLockStep_open_iff lock input).mp ⟨mid, hmid, hmidOpen⟩
      exact ⟨hlock, hinput, hinputs⟩
    · rintro ⟨hlock, hinput, hinputs⟩
      obtain ⟨mid, hmid, hmidOpen⟩ := (sequenceLockStep_open_iff lock input).mpr ⟨hlock, hinput⟩
      obtain ⟨lock', hrest, hopen⟩ := (ih mid).mpr ⟨hmidOpen, hinputs⟩
      exact ⟨lock', ⟨mid, hmid, hrest⟩, hopen⟩

theorem evaluateSequenceLocks_iff (hprev : block.pprev = some prev) (lockPair : Int × Int) :
    evaluateSequenceLocks nTime block lockPair = .ok true ↔
      lockPair.1 < block.nHeight ∧ lockPair.2 < getMedianTimePast nTime prev := by
  simp [evaluateSequenceLocks, hprev]

/-- The locks that the calculation finds are open exactly when the lock of every input
is, or locks are not enforced. -/
theorem calculateSequenceLocks_open_iff
    {prevHeights : List Int} (hlength : prevHeights.length = tx.vin.length)
    (htime : -1 < nBlockTime) :
    (∃ r, calculateSequenceLocks nTime tx flags prevHeights block = .ok r ∧
        r.1.1 < block.nHeight ∧ r.1.2 < nBlockTime) ↔
      (enforceBIP68 tx flags = true → ∀ input ∈ tx.vin.zip prevHeights,
        InputUnlocked nTime block nBlockTime input) := by
  have hassert : require (prevHeights.length == tx.vin.length)
      (Fault.assertion "prevHeights->size() == tx.vin.size()") = .ok () :=
    require_ok (by simpa using hlength)
  -- the pair the loop starts with excludes nothing
  have hstart : (-1 : Int) < block.nHeight ∧ (-1 : Int) < nBlockTime := ⟨by omega, htime⟩
  have hcalc : calculateSequenceLocks nTime tx flags prevHeights block =
      if enforceBIP68 tx flags then
        (tx.vin.zip prevHeights).foldlM (sequenceLockStep nTime block) (-1, -1) >>= fun lockPair =>
          .ok (lockPair, zipWith (fun txin h => if txin.locktimeDisabled then 0 else h)
            tx.vin prevHeights)
      else .ok ((-1, -1), prevHeights) := by
    unfold calculateSequenceLocks
    rw [hassert]
    rfl
  rw [hcalc]
  cases henforce : enforceBIP68 tx flags with
  | false => simpa using hstart
  | true =>
    have hfold : (∃ lock', (tx.vin.zip prevHeights).foldlM (sequenceLockStep nTime block) (-1, -1) =
        .ok lock' ∧ lock'.1 < block.nHeight ∧ lock'.2 < nBlockTime) ↔
        ∀ input ∈ tx.vin.zip prevHeights, InputUnlocked nTime block nBlockTime input :=
      (foldlM_sequenceLockStep_open_iff (-1, -1) _).trans (and_iff_right hstart)
    rw [forall_prop_of_true rfl, ← hfold]
    constructor
    · rintro ⟨r, hr, hopen⟩
      obtain ⟨lock', hlock', hr⟩ := bind_ok_iff.mp hr
      cases hr
      exact ⟨lock', hlock', hopen⟩
    · rintro ⟨lock', hlock', hopen⟩
      exact ⟨_, bind_ok hlock' rfl, hopen⟩

theorem medianTimePast_nonneg (nTime : CBlockIndex → Nat) (pindex : CBlockIndex) :
    0 ≤ getMedianTimePast nTime pindex :=
  Int.natCast_nonneg _

/-- **The sequence locks of a transaction** pass exactly when the lock of every input is
open, or locks are not enforced. -/
theorem sequenceLocks_iff (hprev : block.pprev = some prev)
    {prevHeights : List Int} (hlength : prevHeights.length = tx.vin.length) :
    sequenceLocks nTime tx flags prevHeights block = .ok true ↔
      (enforceBIP68 tx flags = true → ∀ input ∈ tx.vin.zip prevHeights,
        InputUnlocked nTime block (getMedianTimePast nTime prev) input) := by
  have htime : -1 < getMedianTimePast nTime prev := by
    have := medianTimePast_nonneg nTime prev
    omega
  rw [← calculateSequenceLocks_open_iff hlength htime]
  unfold sequenceLocks
  rw [bind_ok_iff]
  refine exists_congr fun r => and_congr_right fun _ => ?_
  exact evaluateSequenceLocks_iff hprev r.1

/-! ### Later blocks -/

/-- The height taken for a coin at the tip, against that in a later block: an output of the memory
pool is taken to be in the next block, and is mined anywhere above the tip. -/
def HeightAgrees (tip pindex : CBlockIndex) (assumed real : Int) : Prop :=
  (assumed = tip.nHeight + 1 ∧ (tip.nHeight : Int) < real ∧ real ≤ pindex.nHeight) ∨
    (real = assumed ∧ assumed ≤ tip.nHeight)

/-- **An open lock stays open.** -/
theorem inputUnlocked_later {assumed real : Int}
    (htimes : TimesAboveMedian nTime pindex) (hprev : pindex.pprev = some prev)
    (htip : tip ∈ prev.branch) (hreal : HeightAgrees tip pindex assumed real)
    (hunlocked : InputUnlocked (Function.update nTime (tip.next 0) 0) (tip.next 0)
      (getMedianTimePast nTime tip) (txin, assumed)) :
    InputUnlocked nTime pindex (getMedianTimePast nTime prev) (txin, real) := by
  intro henabled
  have hopen := hunlocked henabled
  clear hunlocked
  simp only at hopen ⊢
  obtain ⟨hprevBranch, hheight, hle, hmono⟩ := htimes.later hprev htip
  have hnext : (tip.next 0).nHeight = tip.nHeight + 1 := rfl
  cases hkind : txin.locktimeIsTime with
  | false =>
    simp only [hkind, Bool.false_eq_true, if_false, hnext] at hopen ⊢
    rcases hreal with ⟨rfl, _, _⟩ | ⟨rfl, _⟩ <;> omega
  | true =>
    simp only [hkind, if_true] at hopen ⊢
    obtain ⟨a, ha, hopen⟩ := hopen
    -- the ancestor stands at or below the tip, so its median does not see the next block
    have haTip : a ∈ tip.branch := by
      obtain ⟨hmem, hat⟩ := getAncestor_eq_some_iff.mp ha
      rw [branch_next, mem_cons] at hmem
      refine hmem.resolve_left fun heq => ?_
      rw [heq, hnext] at hat
      rcases hreal with ⟨rfl, _, _⟩ | ⟨rfl, _⟩ <;> omega
    have hsame : getMedianTimePast (Function.update nTime (tip.next 0) 0) a =
        getMedianTimePast nTime a := by
      refine medianTimePast_congr fun b hb => Function.update_of_ne ?_ _ _
      rintro rfl
      have hlow := nHeight_le_of_mem_branch (mem_branch_trans haTip hb)
      rw [hnext] at hlow
      omega
    rw [hsame] at hopen
    have hat := (getAncestor_eq_some_iff.mp ha).2
    rcases hreal with ⟨rfl, habove, hbelow⟩ | ⟨rfl, hold⟩
    · -- an unconfirmed coin: the ancestor is the tip itself, so no time is asked for
      have hatip : a = tip := by
        refine eq_of_mem_branch haTip tip.self_mem_branch ?_
        omega
      rw [hatip] at hopen
      obtain ⟨a', ha'⟩ : ∃ a', prev.getAncestor (max (real - 1) 0) = some a' :=
        prev.exists_getAncestor (by omega) (by omega)
      obtain ⟨ha'mem, ha'at⟩ := getAncestor_eq_some_iff.mp ha'
      have hafter : getMedianTimePast nTime a' ≤ getMedianTimePast nTime prev :=
        medianTimePast_mono (htimes.below hprevBranch) ha'mem
      refine ⟨a', getAncestor_eq_some_iff.mpr
        ⟨mem_branch_trans hprevBranch ha'mem, ha'at⟩, ?_⟩
      omega
    · -- a confirmed coin: the same ancestor, and a later median to compare with
      refine ⟨a, getAncestor_eq_some_iff.mpr ⟨?_, hat⟩, by omega⟩
      exact mem_branch_trans hprevBranch (mem_branch_trans htip haTip)

theorem checkSequenceLocks_true {B : Type} [CCoinsView B] {viewMemPool : B}
    {lp lp' : Option LockPoints}
    (h : checkSequenceLocks nTime viewMemPool tip tx flags lp false = .ok (true, lp')) :
    ∃ prevheights,
      Forall₂ (fun txin height => nextBlockPrevHeight viewMemPool tip txin = some height)
        tx.vin prevheights ∧
      (enforceBIP68 tx flags = true → ∀ input ∈ tx.vin.zip prevheights,
        InputUnlocked (Function.update nTime (tip.next 0) 0) (tip.next 0)
          (getMedianTimePast nTime tip) input) := by
  simp only [checkSequenceLocks, Bool.false_eq_true, if_false] at h
  cases hheights : tx.vin.mapM (nextBlockPrevHeight viewMemPool tip) with
  | none =>
    rw [hheights] at h
    cases h
  | some prevheights =>
    rw [hheights] at h
    obtain ⟨r, hr, h⟩ := bind_ok_iff.mp h
    obtain ⟨accepted, haccepted, h⟩ := bind_ok_iff.mp h
    cases h
    have hmedian : getMedianTimePast (Function.update nTime (tip.next 0) 0) tip =
        getMedianTimePast nTime tip := by
      refine medianTimePast_congr fun b hb => Function.update_of_ne ?_ _ _
      rintro rfl
      have hlow : tip.nHeight + 1 ≤ tip.nHeight := nHeight_le_of_mem_branch hb
      omega
    have hlocks := (evaluateSequenceLocks_iff (pprev_next tip 0) r.1).mp haccepted
    rw [hmedian] at hlocks
    have hfound := forall₂_of_mapM_eq_some hheights
    refine ⟨prevheights, hfound, (calculateSequenceLocks_open_iff ?_ ?_).mp ⟨r, hr, hlocks⟩⟩
    · exact hfound.length_eq.symm
    · have := medianTimePast_nonneg nTime tip
      omega

end InputUnlocked

/-! ### Absolute lock times -/

theorem isFinalTx_mono {nHeight nHeight' t t' : Int} (hheight : nHeight ≤ nHeight')
    (ht : t ≤ t') (h : isFinalTx tx nHeight t = true) : isFinalTx tx nHeight' t' = true := by
  unfold isFinalTx at h ⊢
  simp only [Bool.or_eq_true, decide_eq_true_eq] at h ⊢
  rcases h with (h | h) | h
  · exact .inl (.inl h)
  · refine .inl (.inr ?_)
    split at h <;> omega
  · exact .inr h

theorem contextualCheckTransaction_iff {ctx : ContextualEnv} {nHeight nLockTimeCutoff : Int} :
    contextualCheckTransaction ctx tx nHeight nLockTimeCutoff = .ok () ↔
      isFinalTx tx nHeight nLockTimeCutoff = true ∧
        getMinimumTxSize ctx (nHeight - 1) ≤ tx.serializeSize ∧
        (nHeight - 1 ≥ ctx.upgrade9Height → 1 ≤ tx.nVersion ∧ tx.nVersion ≤ 2) := by
  unfold contextualCheckTransaction
  split
  next hfinal => simpa using fun h => absurd h (by simpa using hfinal)
  next hfinal =>
  have hfinal : isFinalTx tx nHeight nLockTimeCutoff = true := by simpa using hfinal
  split
  next hsize => simpa [hfinal] using fun h => absurd hsize (by omega)
  next hsize =>
  split
  next hversion =>
    refine iff_of_false (by simp) fun h => ?_
    have := h.2.2 hversion.1
    omega
  next hversion =>
    refine iff_of_true rfl ⟨hfinal, by omega, fun hup => ?_⟩
    by_contra hbad
    exact hversion ⟨hup, by omega⟩

/-! ### What the memory pool accepted -/

section Later

variable {B D : Type} [CCoinsView B] [CCoinsView D]

/-- The coin of an input at the tip and in a later block: an output of the memory pool is mined
above the tip and not above that block, and a coin of the chain keeps its height. -/
def CoinConfirms (viewMemPool : B) (tip : CBlockIndex) (view : CCoinsViewCache D)
    (pindex : CBlockIndex) (txin : CTxIn) : Prop :=
  ∀ coin, CCoinsView.getCoin viewMemPool txin.prevout = some coin →
    if coin.nHeight = mempoolHeight then
      tip.nHeight < (view.peek txin.prevout).nHeight ∧
        (view.peek txin.prevout).nHeight ≤ pindex.nHeight
    else
      coin.nHeight ≤ tip.nHeight ∧ (view.peek txin.prevout).nHeight = coin.nHeight

/-- `prevheights` of `ConnectBlock`. -/
def prevHeights (view : CCoinsViewCache D) (tx : CTransaction) : List Int :=
  tx.vin.map fun txin => ((view.peek txin.prevout).nHeight : Int)

/-- `nLockTimeCutoff` of `ContextualCheckBlock`. -/
def lockTimeCutoff (nTime : CBlockIndex → Nat) (CSVHeight : Int)
    (pindex prev : CBlockIndex) : Int :=
  if pindex.nHeight ≥ CSVHeight then getMedianTimePast nTime prev else nTime pindex

variable {nTime : CBlockIndex → Nat} {tip prev pindex : CBlockIndex} {viewMemPool : B}
  {view : CCoinsViewCache D} {tx : CTransaction}

theorem heightAgrees_of_coinConfirms {height : Int}
    (h : CoinConfirms viewMemPool tip view pindex txin)
    (hheight : nextBlockPrevHeight viewMemPool tip txin = some height) :
    HeightAgrees tip pindex height (view.peek txin.prevout).nHeight := by
  obtain ⟨coin, hcoin, rfl⟩ := Option.map_eq_some_iff.mp hheight
  have hconfirms := h coin hcoin
  split at hconfirms
  next hpool =>
    rw [if_pos hpool]
    exact .inl ⟨rfl, by omega, by omega⟩
  next hpool =>
    rw [if_neg hpool]
    exact .inr ⟨by omega, by omega⟩

section

variable {CSVHeight : Int} (htimes : TimesAboveMedian nTime pindex)
  (hprev : pindex.pprev = some prev) (htip : tip ∈ prev.branch)

include htimes hprev htip

/-- The sequence locks that the memory pool has accepted pass in a later block. -/
theorem sequenceLocks_later {lp lp' : Option LockPoints}
    (hcheck : checkSequenceLocks nTime viewMemPool tip tx standardLocktimeVerifyFlags lp false =
      .ok (true, lp')) (hcoins : ∀ txin ∈ tx.vin, CoinConfirms viewMemPool tip view pindex txin) :
    sequenceLocks nTime tx (connectLockTimeFlags CSVHeight pindex) (prevHeights view tx) pindex =
      .ok true := by
  obtain ⟨heights, hfound, hopen⟩ := checkSequenceLocks_true hcheck
  have hlength : (prevHeights view tx).length = tx.vin.length := length_map _
  rw [sequenceLocks_iff hprev hlength]
  intro henforce
  -- the memory pool enforces the locks whenever the block does
  have henforceTip : enforceBIP68 tx standardLocktimeVerifyFlags = true := by
    unfold enforceBIP68 at henforce ⊢
    rw [Bool.and_eq_true] at henforce ⊢
    exact ⟨henforce.1, by decide⟩
  rintro ⟨txin, real⟩ hinput
  rw [prevHeights, ← map_prod_left_eq_zip] at hinput
  obtain ⟨txin, hmem, heq⟩ := mem_map.mp hinput
  cases heq
  -- the height that was taken for its coin at the tip
  obtain ⟨height, hzip⟩ : ∃ height, (txin, height) ∈ tx.vin.zip heights := by
    obtain ⟨i, hi, hget⟩ := mem_iff_getElem.mp hmem
    have hi' : i < heights.length := hfound.length_eq ▸ hi
    refine ⟨heights[i], mem_iff_getElem.mpr ⟨i, by simp [hi, hi'], ?_⟩⟩
    rw [getElem_zip, hget]
  have hheight := (forall₂_iff_zip.mp hfound).2 hzip
  exact inputUnlocked_later htimes hprev htip
    (heightAgrees_of_coinConfirms (hcoins txin hmem) hheight) (hopen henforceTip _ hzip)

/-- A transaction that is final after the tip is final in a later block. -/
theorem isFinalTx_later
    (hfinal : isFinalTx tx (tip.nHeight + 1) (getMedianTimePast nTime tip) = true) :
    isFinalTx tx pindex.nHeight (lockTimeCutoff nTime CSVHeight pindex prev) = true := by
  obtain ⟨-, hheight, hle, hmono⟩ := htimes.later hprev htip
  have htime : getMedianTimePast nTime prev < nTime pindex :=
    htimes pindex pindex.self_mem_branch prev hprev
  refine isFinalTx_mono (by omega) ?_ hfinal
  unfold lockTimeCutoff
  split <;> omega

end

end Later

/-- **What the memory pool accepted, later blocks accept.** Along a chain in which the
time of every block is above the median time past of its parent, the median time past
does not fall and script flags stay set. A transaction that is final and unlocked in the
block after a tip is final and unlocked in every block above that tip in which its
parents are mined; there `ContextualCheckTransaction` accepts it exactly when it has the
size and the version that this height asks for. -/
theorem lockTimes_later (nTime : CBlockIndex → Nat) (ctx : ContextualEnv)
    (scriptUpgradeActivationTime : Int) {pindex : CBlockIndex}
    (htimes : TimesAboveMedian nTime pindex) :
    (∀ q ∈ pindex.branch, ∀ b ∈ q.branch, getMedianTimePast nTime b ≤ getMedianTimePast nTime q) ∧
    (∀ q ∈ pindex.branch, ∀ b ∈ q.branch,
      let flags := fun b =>
        getNextBlockScriptFlags scriptUpgradeActivationTime (some (getMedianTimePast nTime b))
      let genesisFlags := getNextBlockScriptFlags scriptUpgradeActivationTime none
      genesisFlags &&& flags b = genesisFlags ∧ flags b &&& flags q = flags b) ∧
    ∀ {B D : Type} [CCoinsView B] [CCoinsView D] (viewMemPool : B) (view : CCoinsViewCache D)
      (tx : CTransaction) (lp lp' : Option LockPoints) (tip prev : CBlockIndex),
      pindex.pprev = some prev → tip ∈ prev.branch →
      isFinalTx tx (tip.nHeight + 1) (getMedianTimePast nTime tip) = true →
      checkSequenceLocks nTime viewMemPool tip tx standardLocktimeVerifyFlags lp false =
        .ok (true, lp') →
      (∀ txin ∈ tx.vin, CoinConfirms viewMemPool tip view pindex txin) →
      isFinalTx tx pindex.nHeight (lockTimeCutoff nTime ctx.CSVHeight pindex prev) = true ∧
        (contextualCheckTransaction ctx tx pindex.nHeight
            (lockTimeCutoff nTime ctx.CSVHeight pindex prev) = .ok () ↔
          getMinimumTxSize ctx prev.nHeight ≤ tx.serializeSize ∧
            (prev.nHeight ≥ ctx.upgrade9Height → 1 ≤ tx.nVersion ∧ tx.nVersion ≤ 2)) ∧
        sequenceLocks nTime tx (connectLockTimeFlags ctx.CSVHeight pindex) (prevHeights view tx)
          pindex = .ok true := by
  have hmono : ∀ q ∈ pindex.branch, ∀ b ∈ q.branch,
      getMedianTimePast nTime b ≤ getMedianTimePast nTime q :=
    fun q hq b hb => medianTimePast_mono (htimes.below hq) hb
  refine ⟨hmono, fun q hq b hb => ⟨getNextBlockScriptFlags_none_le _ _,
    getNextBlockScriptFlags_mono (hmono q hq b hb)⟩, ?_⟩
  intro B D _ _ viewMemPool view tx lp lp' tip prev hprev htip hfinal hcheck hcoins
  have hlater : isFinalTx tx pindex.nHeight (lockTimeCutoff nTime ctx.CSVHeight pindex prev) =
      true := isFinalTx_later htimes hprev htip hfinal
  refine ⟨hlater, ?_, sequenceLocks_later htimes hprev htip hcheck hcoins⟩
  have hparent : (pindex.nHeight : Int) - 1 = prev.nHeight := by
    have := nHeight_of_pprev hprev
    omega
  rw [contextualCheckTransaction_iff, hparent]
  exact and_iff_right hlater

/-! ### A child of an unconfirmed parent

The tip has height 1. A parent waits in the memory pool, and a child spends its output,
and in one case also a coin of the tip that it has to leave alone for a block. Both are
mined later: the parent at height 3, the child at height 4. -/

namespace LockedChild

/-- A chain of blocks, by height, whose times are 100 seconds apart. -/
def line : Nat → CBlockIndex
  | 0 => .ofLine 1 []
  | n + 1 => (line n).next (n + 2)

/-- Block times 100 seconds apart. -/
def nTime (b : CBlockIndex) : Nat := 100 * (b.nHeight + 1)

/-- The checks under these times. -/
def ctx : ContextualEnv := .ofTimes (fun _ => 0) (getMedianTimePast nTime)

/-- A small output. -/
def out : CTxOut := { nValue := 1000, scriptPubKey := [] }

/-- An unconfirmed transaction. -/
def parent : CTransaction := { vin := [{ prevout := ⟨6, 0⟩ }], vout := [out], hash := 8 }

/-- The coins of the tip: one of height 1. -/
def tipCoins : UtxoSet := (UtxoSet.empty 2).add ⟨7, 0⟩ ⟨out, 1, false⟩
  ⟨by decide, by decide, by decide⟩

/-- What the memory pool shows: the output of the parent over the coins of the tip. -/
def viewMemPool : CCoinsViewMemPool UtxoSet where
  base := tipCoins
  mempool := CTxMemPool.empty.addUnchecked ⟨parent, 0, 0, false, 0⟩ (by decide +kernel)

/-- The coins when the block of height 4 comes. -/
def view : CCoinsViewCache UtxoSet :=
  { base := tipCoins.add ⟨8, 0⟩ ⟨out, 3, false⟩ ⟨by decide, by decide, by decide⟩ }

/-- A child whose input of the parent has a lock of no seconds. -/
def child (more : List CTxIn) : CTransaction :=
  { vin := { prevout := ⟨8, 0⟩, nSequence := 1 <<< 22 } :: more, vout := [out], nLockTime := 1
    hash := 9 }

theorem timesAboveMedian : TimesAboveMedian nTime (line 4) :=
  .of_all (by decide +kernel)

theorem coinConfirms_parent (h : txin.prevout = ⟨8, 0⟩) :
    CoinConfirms viewMemPool (line 1) view (line 4) txin := by
  intro coin hcoin
  have hget : CCoinsView.getCoin viewMemPool ⟨8, 0⟩ = some ⟨out, mempoolHeight, false⟩ := by
    decide +kernel
  rw [h, hget] at hcoin
  cases hcoin
  rw [if_pos rfl, h]
  decide +kernel

theorem coinConfirms_tip (h : txin.prevout = ⟨7, 0⟩) :
    CoinConfirms viewMemPool (line 1) view (line 4) txin := by
  intro coin hcoin
  have hget : CCoinsView.getCoin viewMemPool ⟨7, 0⟩ = some ⟨out, 1, false⟩ := by decide +kernel
  rw [h, hget] at hcoin
  cases hcoin
  rw [if_neg (by decide), h]
  decide +kernel

end LockedChild

open LockedChild in
/-- The child with both inputs is accepted at the tip, and again in the later block. -/
theorem lockTimes_later_child :
    contextualCheckTransaction ctx (child [{ prevout := ⟨7, 0⟩, nSequence := 1 }]) 4
        (lockTimeCutoff nTime ctx.CSVHeight (line 4) (line 3)) = .ok () ∧
      sequenceLocks nTime (child [{ prevout := ⟨7, 0⟩, nSequence := 1 }])
        (connectLockTimeFlags ctx.CSVHeight (line 4))
        (prevHeights view (child [{ prevout := ⟨7, 0⟩, nSequence := 1 }])) (line 4) = .ok true := by
  have h := (lockTimes_later nTime ctx 0 timesAboveMedian).2.2 viewMemPool view
    (child [{ prevout := ⟨7, 0⟩, nSequence := 1 }]) none none (line 1) (line 3) (by decide)
    (by decide) (by decide +kernel) (by decide +kernel) (by
      intro txin hmem
      simp only [child, mem_cons, not_mem_nil, or_false] at hmem
      rcases hmem with rfl | rfl
      · exact coinConfirms_parent rfl
      · exact coinConfirms_tip rfl)
  exact ⟨h.2.1.mpr (by decide +kernel), h.2.2⟩

open LockedChild in
/-- The child with one input is final and unlocked as well, but with 60 bytes it is below
the minimum size. -/
theorem lockTimes_later_undersize :
    TimesAboveMedian nTime (line 4) ∧ (line 4).pprev = some (line 3) ∧ line 1 ∈ (line 3).branch ∧
      isFinalTx (child []) ((line 1).nHeight + 1) (getMedianTimePast nTime (line 1)) = true ∧
      checkSequenceLocks nTime viewMemPool (line 1) (child []) standardLocktimeVerifyFlags none
        false = .ok (true, none) ∧
      (∀ txin ∈ (child []).vin, CoinConfirms viewMemPool (line 1) view (line 4) txin) ∧
      contextualCheckTransaction ctx (child []) 4
        (lockTimeCutoff nTime ctx.CSVHeight (line 4) (line 3)) =
          .error (.dos 100 "bad-txns-undersize") := by
  refine ⟨timesAboveMedian, by decide, by decide, by decide +kernel, by decide +kernel, ?_,
    by decide +kernel⟩
  intro txin hmem
  rw [child, mem_singleton] at hmem
  exact coinConfirms_parent (congrArg CTxIn.prevout hmem)

end DeVault
