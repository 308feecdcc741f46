import DeVault.Primitives.Serialize
import DeVault.Rewards.Engine

/-!
# The stored form of a reward record (`devault/coinreward.h`)

`CRewardValue.serialize` and `CRewardValue.unserialize`. The output in a record has the format it
has on the wire. The format is wider than the values: a flag is read from any byte. `Representable`
is what a value must satisfy to survive.
-/

namespace DeVault

open Bytes

namespace CRewardValue

/-- `CRewardValue` as `SerializationOp` writes it. -/
def serialize (val : CRewardValue) : Option (List UInt8) :=
  val.txout.serialize.map fun txout =>
    val.version :: (txout ++ (leBytes 4 val.creationHeight ++ (leBytes 4 val.oldHeight ++
      (leBytes 4 val.height ++ ((if val.active then 1 else 0) ::
        (leBytes 4 val.payCount.toNat ++ leBytes 4 val.inactiveHeight))))))

/-- One byte. -/
def readByte : Reader UInt8
  | [] => none
  | b :: bs => some (b, bs)

theorem readUInt32 {n : Nat} (h : n < 2 ^ 32) (rest : List UInt8) :
    readLe 4 (leBytes 4 n ++ rest) = some (n, rest) :=
  readLe_leBytes (by omega) rest

/-- `CRewardValue` as `SerializationOp` reads it. -/
def unserialize : Reader CRewardValue := fun bs => do
  let (version, bs) ← readByte bs
  let (txout, bs) ← CTxOut.unserialize bs
  let (creationHeight, bs) ← readLe 4 bs
  let (oldHeight, bs) ← readLe 4 bs
  let (height, bs) ← readLe 4 bs
  let (active, bs) ← readByte bs
  let (payCount, bs) ← readLe 4 bs
  let (inactiveHeight, bs) ← readLe 4 bs
  some (⟨txout, creationHeight, oldHeight, height, UInt32.ofNat payCount, active != 0,
    inactiveHeight, version⟩, bs)

/-- **A record that can be stored**: the output is one, and the heights fit. -/
structure Representable (val : CRewardValue) : Prop where
  txout : val.txout.Representable
  creationHeight : val.creationHeight < 2 ^ 32
  oldHeight : val.oldHeight < 2 ^ 32
  height : val.height < 2 ^ 32
  inactiveHeight : val.inactiveHeight < 2 ^ 32

/-- A representable record is read back. -/
theorem unserialize_serialize {val : CRewardValue} (h : val.Representable) :
    ∃ w, val.serialize = some w ∧ ∀ rest, unserialize (w ++ rest) = some (val, rest) := by
  obtain ⟨w, hw, hread⟩ := CTxOut.unserialize_serialize h.txout
  refine ⟨_, by rw [serialize, hw, Option.map_some], fun rest => ?_⟩
  have hactive : ((if val.active then 1 else 0 : UInt8) != 0) = val.active := by
    cases val.active <;> rfl
  simp only [unserialize, readByte, List.cons_append, List.append_assoc, hread,
    readUInt32 h.creationHeight, readUInt32 h.oldHeight, readUInt32 h.height,
    readUInt32 h.inactiveHeight, readUInt32 val.payCount.toNat_lt, Option.bind_eq_bind,
    Option.bind_some, hactive, UInt32.ofNat_toNat]

/-- Whatever is read is representable, so it can be stored again. -/
theorem representable_of_unserialize {val : CRewardValue} {bs rest : List UInt8}
    (h : unserialize bs = some (val, rest)) : val.Representable := by
  simp only [unserialize, Option.bind_eq_bind, Option.bind_eq_some_iff, Prod.exists] at h
  obtain ⟨version, bs₁, -, txout, bs₂, htxout, creationHeight, bs₃, hcreation, oldHeight, bs₄, hold,
    height, bs₅, hheight, active, bs₆, -, payCount, bs₇, -, inactiveHeight, bs₈, hinactive, hr⟩ := h
  cases hr
  exact ⟨CTxOut.representable_of_unserialize htxout, (readLe_sound hcreation).1,
    (readLe_sound hold).1, (readLe_sound hheight).1, (readLe_sound hinactive).1⟩

end CRewardValue

end DeVault
