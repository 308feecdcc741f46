import DeVault.Amount
import DeVault.Lib.Outcome

/-!
# Transactions and blocks (`primitives/transaction.h`, `primitives/block.h`)

The data of the node. Hashes are 256-bit numbers: `base_blob::Compare` goes
from the most significant byte down, so comparing two hashes is comparing two
numbers. A transaction carries the hash its constructor computes
(`CTransaction::hash`), as in the source, and a block the hash of its header.

`COutPoint` is ordered by transaction id and then by index; this is the order
of every `std::map` keyed by outpoints, hence of every iteration over one.
-/

namespace DeVault

/-- `TxId`, a number below 2 ^ 256. -/
abbrev TxId := Nat

/-- `BlockHash`, a number below 2 ^ 256. -/
abbrev BlockHash := Nat

/-- `CScript`: the bytes of a script. -/
abbrev CScript := List UInt8

/-- `COutPoint`: an output of a transaction, named by transaction and index. -/
structure COutPoint where
  txid : TxId
  n : Nat
  deriving DecidableEq, Repr, Inhabited

namespace COutPoint

/-- `COutPoint::NULL_INDEX`. -/
def nullIndex : Nat := 2 ^ 32 - 1

/-- The default-constructed outpoint. -/
def null : COutPoint := ⟨0, nullIndex⟩

/-- `COutPoint::IsNull`. -/
def isNull (o : COutPoint) : Bool := o.txid == 0 && o.n == nullIndex

/-- The order of `operator<`: transaction id first, then index. -/
instance : Ord COutPoint := ⟨compareLex (compareOn txid) (compareOn n)⟩

instance : Std.TransOrd COutPoint :=
  inferInstanceAs (Std.TransCmp (compareLex (compareOn txid) (compareOn n)))

instance : Std.LawfulEqOrd COutPoint where
  eq_of_compare {a b} h := by
    change (compare a.txid b.txid).then (compare a.n b.n) = .eq at h
    rw [Ordering.then_eq_eq, compare_eq_iff_eq, compare_eq_iff_eq] at h
    cases a
    cases b
    simp_all

/-- `operator<`. -/
def lt (a b : COutPoint) : Bool := compare a b == .lt

theorem isLE_of_ne_lt {a b : COutPoint} (h : compare a b ≠ .lt) : (compare b a).isLE = true := by
  rw [Std.OrientedOrd.eq_swap (a := b)]
  revert h
  cases compare a b <;> decide

theorem isLE_antisymm {a b : COutPoint} (hab : (compare a b).isLE = true)
    (hba : (compare b a).isLE = true) : a = b :=
  Std.LawfulEqOrd.eq_of_compare (Std.OrientedCmp.isLE_antisymm hab hba)

end COutPoint

/-- `token::OutputData`: the token payload of an output. -/
structure OutputData where
  id : Nat
  bitfield : UInt8
  amount : Int
  commitment : List UInt8
  deriving DecidableEq, Repr, Inhabited

/-- `CTxOut`: an output of a transaction. -/
structure CTxOut where
  nValue : Int
  scriptPubKey : CScript
  tokenDataPtr : Option OutputData := none
  deriving DecidableEq, Repr, Inhabited

variable (o : CTxOut)

namespace CTxOut

/-- The state `CTxOut::SetNull` leaves: value `-SATOSHI`, no script, no tokens. -/
def null : CTxOut := ⟨-satoshi, [], none⟩

/-- `CTxOut::IsNull`. -/
def isNull : Bool := o.nValue == -satoshi

end CTxOut

/-- `CTxIn`: an input of a transaction. -/
structure CTxIn where
  prevout : COutPoint
  scriptSig : CScript := []
  nSequence : Nat := 0xffffffff
  deriving DecidableEq, Repr, Inhabited

/-- `CTransaction`. `hash` is the memory-only field the constructor fills. -/
structure CTransaction where
  vin : List CTxIn
  vout : List CTxOut
  nVersion : Int := 2
  nLockTime : Nat := 0
  hash : TxId
  deriving DecidableEq, Repr, Inhabited

/-- `CBlock` with the header fields the modelled functions read. `hash` is
`GetHash()` of the header. -/
structure CBlock where
  hash : BlockHash
  hashPrevBlock : BlockHash
  hashMerkleRoot : Nat := 0
  nBits : Nat := 0
  vtx : List CTransaction
  deriving DecidableEq, Repr, Inhabited

/-- `OP_RETURN`. -/
def opReturn : UInt8 := 0x6a

/-- `MAX_SCRIPT_SIZE`. -/
def maxScriptSize : Nat := 10000

/-- `CScript::IsUnspendable`. -/
def isUnspendable (script : CScript) : Bool :=
  script.head? == some opReturn || decide (maxScriptSize < script.length)

variable (tx : CTransaction)

namespace CTransaction

/-- `GetId`. -/
def getId : TxId := tx.hash

/-- `IsCoinBase`. -/
def isCoinBase : Bool :=
  match tx.vin with
  | [txin] => txin.prevout.isNull
  | _ => false

/-- The outpoint of output `i`. -/
def outPoint (i : Nat) : COutPoint := ⟨tx.getId, i⟩

/-- The loop of `GetValueOut` from the accumulator `nValueOut` on. -/
def sumValueOut (nValueOut : Int) : List CTxOut → Except Fault Int
  | [] => .ok nValueOut
  | txOut :: rest => do
    let value := spockQuantize txOut.nValue
    let nValueOut ← checkedAdd nValueOut value
    if !moneyRange value || !moneyRange nValueOut then
      .error (.runtimeError "GetValueOut: value out of range")
    else
      sumValueOut nValueOut rest

/-- `CTransaction::GetValueOut`: the sum of the outputs, each quantised. -/
def getValueOut : Except Fault Int := sumValueOut 0 tx.vout

/-- The inputs' outpoints. -/
def prevouts : List COutPoint := tx.vin.map (·.prevout)

end CTransaction

/-! ### The quantised total -/

variable (vout : List CTxOut)

/-- The sum of the output values as they stand in the transaction. -/
def rawValueOut : Int := (vout.map (·.nValue)).sum

/-- The sum of the output values, each rounded up to a spock. -/
def quantizedValueOut : Int :=
  (vout.map fun o => spockQuantize o.nValue).sum

@[simp] theorem rawValueOut_nil : rawValueOut [] = 0 := rfl

@[simp] theorem rawValueOut_cons (l : List CTxOut) :
    rawValueOut (o :: l) = o.nValue + rawValueOut l := by
  simp [rawValueOut]

@[simp] theorem quantizedValueOut_nil : quantizedValueOut [] = 0 := rfl

@[simp] theorem quantizedValueOut_cons (l : List CTxOut) :
    quantizedValueOut (o :: l) = spockQuantize o.nValue + quantizedValueOut l := by
  simp [quantizedValueOut]

theorem rawValueOut_le_quantizedValueOut : rawValueOut vout ≤ quantizedValueOut vout := by
  induction vout with
  | nil => simp
  | cons o l ih =>
    have h := le_spockQuantize o.nValue
    simp only [rawValueOut_cons, quantizedValueOut_cons]
    omega

/-- The two totals agree exactly when every output is aligned: rounding only
ever adds, so no two roundings can cancel. -/
theorem quantizedValueOut_eq_raw_iff :
    quantizedValueOut vout = rawValueOut vout ↔ ∀ o ∈ vout, SpockAligned o.nValue := by
  induction vout with
  | nil => simp
  | cons o l ih =>
    have h1 := le_spockQuantize o.nValue
    have h2 := rawValueOut_le_quantizedValueOut l
    simp only [rawValueOut_cons, quantizedValueOut_cons, List.mem_cons, forall_eq_or_imp]
    rw [← ih, ← spockQuantize_eq_self_iff]
    constructor
    · intro h
      constructor <;> omega
    · rintro ⟨h3, h4⟩
      omega

namespace CTransaction

/-- What a run of the summation loop over non-negative outputs returns. -/
theorem sumValueOut_eq_ok_iff {vout : List CTxOut} (hv : ∀ o ∈ vout, moneyRange o.nValue = true)
    {acc : Int} (hacc : moneyRange acc = true) (v : Int) :
    sumValueOut acc vout = .ok v ↔
      v = acc + quantizedValueOut vout ∧ acc + quantizedValueOut vout ≤ maxMoney := by
  induction vout generalizing acc with
  | nil =>
    have h := (moneyRange_iff.mp hacc).2
    simp [sumValueOut, h, eq_comm]
  | cons o l ih =>
    have ho := moneyRange_iff.mp (moneyRange_spockQuantize (hv o List.mem_cons_self))
    have ha := moneyRange_iff.mp hacc
    have hl : ∀ o ∈ l, moneyRange o.nValue = true := fun o h => hv o (List.mem_cons_of_mem _ h)
    have hpos : 0 ≤ quantizedValueOut l :=
      List.sum_nonneg (List.forall_mem_map.mpr fun o h =>
        spockQuantize_nonneg (moneyRange_iff.mp (hl o h)).1)
    have hadd : checkedAdd acc (spockQuantize o.nValue) = .ok (acc + spockQuantize o.nValue) :=
      checkedAdd_of_le ha.1 ho.1 (by omega)
    simp only [sumValueOut, hadd, quantizedValueOut_cons]
    by_cases hr : moneyRange (acc + spockQuantize o.nValue) = true
    · have hstep := ih hl hr
      simp only [moneyRange_iff.mpr ho, hr, Bool.not_true, Bool.or_self, Bool.false_eq_true,
        if_false, bind, Except.bind]
      rw [hstep, ← add_assoc]
    · -- the running total has left the range and the rest cannot bring it back
      have hbig : maxMoney < acc + spockQuantize o.nValue := by
        rw [moneyRange_iff] at hr
        omega
      simp only [hr, Bool.not_false, Bool.or_true, if_true, bind, Except.bind]
      constructor
      · intro h
        cases h
      · rintro ⟨-, h⟩
        omega

/-- **When `GetValueOut` returns.** On outputs in the money range, exactly if the quantised total,
which it returns, is in range too. -/
theorem getValueOut_eq_ok_iff {tx : CTransaction} (hv : ∀ o ∈ tx.vout, moneyRange o.nValue = true)
    (v : Int) :
    tx.getValueOut = .ok v ↔
      v = quantizedValueOut tx.vout ∧ quantizedValueOut tx.vout ≤ maxMoney := by
  rw [getValueOut, sumValueOut_eq_ok_iff hv (by decide), zero_add]

end CTransaction

end DeVault
