import DeVault.Consensus.Merkle
import DeVault.Primitives.Serialize

/-!
# Transactions on the wire (`primitives/transaction.h`)

A transaction is read field by field, and its constructor hashes what the fields are
written as. Nodes compare what they have parsed by these hashes, so it matters that
nothing is lost between reading and writing. The hash function is a parameter.
-/

namespace DeVault

open Bytes CTransaction List Option

namespace COutPoint

/-- `COutPoint`'s `SERIALIZE_METHODS`. -/
def serialize (o : COutPoint) : List UInt8 := leBytes 32 o.txid ++ leBytes 4 o.n

/-- `COutPoint`: the transaction and the index. -/
def unserialize : Reader COutPoint := fun bs =>
  (readLe 32 bs).bind fun txid => (readLe 4 txid.2).map fun n => (⟨txid.1, n.1⟩, n.2)

theorem unserialize_sound {bs rest : List UInt8} {o : COutPoint}
    (h : unserialize bs = some (o, rest)) : bs = o.serialize ++ rest := by
  obtain ⟨⟨txid, bs₁⟩, htxid, h⟩ := bind_eq_some_iff.mp h
  obtain ⟨⟨n, bs₂⟩, hn, hr⟩ := map_eq_some_iff.mp h
  cases hr
  obtain ⟨-, rfl⟩ := readLe_sound htxid
  obtain ⟨-, rfl⟩ := readLe_sound hn
  rw [serialize, append_assoc]

/-- The ranges of the types. -/
def Sized (o : COutPoint) : Prop := o.txid < 2 ^ 256 ∧ o.n < 2 ^ 32

theorem unserialize_serialize {o : COutPoint} (h : o.Sized) (rest : List UInt8) :
    unserialize (o.serialize ++ rest) = some (o, rest) := by
  have htxid : readLe 32 (leBytes 32 o.txid ++ (leBytes 4 o.n ++ rest)) = some (o.txid, _) :=
    readLe_leBytes (lt_of_lt_of_eq h.1 (by norm_num)) _
  have hn : readLe 4 (leBytes 4 o.n ++ rest) = some (o.n, rest) :=
    readLe_leBytes (lt_of_lt_of_eq h.2 (by norm_num)) rest
  simp only [unserialize, serialize, append_assoc, htxid, hn, bind_some, map_some]

end COutPoint

namespace CTxIn

/-- `CTxIn`'s `SERIALIZE_METHODS`. -/
def serialize (txin : CTxIn) : List UInt8 :=
  txin.prevout.serialize ++ (writeVector txin.scriptSig ++ leBytes 4 txin.nSequence)

/-- `CTxIn`: the outpoint, the script and the sequence number. -/
def unserialize : Reader CTxIn := fun bs =>
  (COutPoint.unserialize bs).bind fun prevout =>
    (readVector maxSize prevout.2).bind fun scriptSig =>
      (readLe 4 scriptSig.2).map fun nSequence =>
        (⟨prevout.1, scriptSig.1, nSequence.1⟩, nSequence.2)

/-- The fields are read only from the bytes they are written as, whatever is in the
output scripts. -/
theorem canonical : Canonical unserialize fun txin => some txin.serialize := by
  intro bs txin rest h
  obtain ⟨⟨prevout, bs₁⟩, hprevout, h⟩ := bind_eq_some_iff.mp h
  obtain ⟨⟨scriptSig, bs₂⟩, hscript, h⟩ := bind_eq_some_iff.mp h
  obtain ⟨⟨nSequence, bs₃⟩, hsequence, hr⟩ := map_eq_some_iff.mp h
  cases hr
  obtain rfl := COutPoint.unserialize_sound hprevout
  obtain ⟨-, rfl⟩ := readVector_sound hscript
  obtain ⟨-, rfl⟩ := readLe_sound hsequence
  exact ⟨_, rfl, by simp [serialize]⟩

end CTxIn

/-- `CMutableTransaction`: the fields of a transaction. -/
structure CMutableTransaction where
  vin : List CTxIn
  vout : List CTxOut
  nVersion : Int
  nLockTime : Nat
  deriving DecidableEq, Repr

namespace CMutableTransaction

/-- `SerializeTransaction`. It throws if the token data of an output cannot be written. -/
def serialize (tx : CMutableTransaction) : Option (List UInt8) :=
  (writeVectorOf (fun txin => some txin.serialize) tx.vin).bind fun vin =>
    (writeVectorOf CTxOut.serialize tx.vout).map fun vout =>
      leBytes 4 (ofSigned 4 tx.nVersion) ++ (vin ++ (vout ++ leBytes 4 tx.nLockTime))

/-- `UnserializeTransaction`. -/
def unserialize : Reader CMutableTransaction := fun bs =>
  (readLe 4 bs).bind fun nVersion =>
    (readVectorOf maxSize CTxIn.unserialize nVersion.2).bind fun vin =>
      (readVectorOf maxSize CTxOut.unserialize vin.2).bind fun vout =>
        (readLe 4 vout.2).map fun nLockTime =>
          (⟨vin.1, vout.1, toSigned 4 nVersion.1, nLockTime.1⟩, nLockTime.2)

/-- **The fields of a transaction are read only from the bytes they are written as.** -/
theorem canonical : Canonical unserialize serialize := by
  intro bs tx rest h
  obtain ⟨⟨nVersion, bs₁⟩, hversion, h⟩ := bind_eq_some_iff.mp h
  obtain ⟨⟨vin, bs₂⟩, hvin, h⟩ := bind_eq_some_iff.mp h
  obtain ⟨⟨vout, bs₃⟩, hvout, h⟩ := bind_eq_some_iff.mp h
  obtain ⟨⟨nLockTime, bs₄⟩, hlock, hr⟩ := map_eq_some_iff.mp h
  cases hr
  obtain ⟨hlt, rfl⟩ := readLe_sound hversion
  obtain ⟨win, hwin, rfl⟩ := CTxIn.canonical.vector maxSize hvin
  obtain ⟨wout, hwout, rfl⟩ := CTxOut.canonical.vector maxSize hvout
  obtain ⟨-, rfl⟩ := readLe_sound hlock
  refine ⟨leBytes 4 nVersion ++ (win ++ (wout ++ leBytes 4 nLockTime)), ?_, by simp⟩
  rw [serialize, hwin, bind_some, hwout, map_some, ofSigned_toSigned hlt]

end CMutableTransaction

namespace CTransaction

/-- The fields of a transaction. -/
def toMutable (tx : CTransaction) : CMutableTransaction :=
  ⟨tx.vin, tx.vout, tx.nVersion, tx.nLockTime⟩

/-- `CTransaction::Serialize`. -/
def serialize (tx : CTransaction) : Option (List UInt8) := tx.toMutable.serialize

variable (hash256 : List UInt8 → TxId)

/-- The constructor from a `CMutableTransaction`, which calls `ComputeHash`. -/
def ofMutable (tx : CMutableTransaction) : Option CTransaction :=
  tx.serialize.map fun w => ⟨tx.vin, tx.vout, tx.nVersion, tx.nLockTime, hash256 w⟩

/-- The deserializing constructor. -/
def unserialize : Reader CTransaction := fun bs =>
  (CMutableTransaction.unserialize bs).bind fun r =>
    (ofMutable hash256 r.1).map fun tx => (tx, r.2)

variable {hash256}

/-- **The id of a parsed transaction is the hash of its bytes.** -/
theorem unserialize_id {bs rest : List UInt8} {tx : CTransaction}
    (h : unserialize hash256 bs = some (tx, rest)) :
    ∃ w, tx.serialize = some w ∧ tx.getId = hash256 w ∧ bs = w ++ rest := by
  obtain ⟨⟨mtx, bs₁⟩, hread, h⟩ := bind_eq_some_iff.mp h
  obtain ⟨tx', hmake, hr⟩ := map_eq_some_iff.mp h
  cases hr
  obtain ⟨w, hw, rfl⟩ := CMutableTransaction.canonical hread
  obtain ⟨w', hw', rfl⟩ := map_eq_some_iff.mp hmake
  obtain rfl : w' = w := some.inj (hw'.symm.trans hw)
  exact ⟨w', hw, rfl, rfl⟩

end CTransaction

section Block

variable {hash256 : List UInt8 → TxId}

/-- A parsed transaction and its bytes. -/
def WireOf (hash256 : List UInt8 → TxId) (w : List UInt8) (tx : CTransaction) : Prop :=
  tx.serialize = some w ∧ tx.getId = hash256 w

/-- The same for the transactions of a block, one behind the other. -/
theorem unserialize_vtx {n : Nat} {bs rest : List UInt8} {vtx : List CTransaction}
    (h : readList (unserialize hash256) n bs = some (vtx, rest)) :
    ∃ wires, wires.length = n ∧ bs = wires.flatten ++ rest ∧
      Forall₂ (WireOf hash256) wires vtx := by
  induction n generalizing bs vtx with
  | zero =>
    cases h
    exact ⟨[], rfl, rfl, .nil⟩
  | succ n ih =>
    obtain ⟨⟨tx, bs₁⟩, htx, h⟩ := bind_eq_some_iff.mp h
    obtain ⟨⟨txs, bs₂⟩, htxs, hr⟩ := map_eq_some_iff.mp h
    cases hr
    obtain ⟨w, hw, hid, rfl⟩ := unserialize_id htx
    obtain ⟨wires, hlen, rfl, hall⟩ := ih htxs
    refine ⟨w :: wires, by rw [length_cons, hlen], ?_, .cons ⟨hw, hid⟩ hall⟩
    rw [flatten_cons, append_assoc]

theorem map_getId_of_wires {wires : List (List UInt8)} {vtx : List CTransaction}
    (h : Forall₂ (WireOf hash256) wires vtx) : vtx.map getId = wires.map hash256 := by
  induction h with
  | nil => rfl
  | cons hw _ ih => rw [map_cons, map_cons, hw.2, ih]

/-- **Parsing loses nothing.** A parsed transaction is written as the bytes it was parsed from, and
its id is their hash. The merkle root of transactions that were parsed one behind the other is that
over the hashes of the parts of the wire. Different bytes are parsed as different fields, and, for
an injective hash, as different transactions in the sense of `operator==`. -/
theorem transaction_wire_canonical (hash256 : List UInt8 → TxId) (hash : TxId → TxId → TxId) :
    (∀ bs tx, unserialize hash256 bs = some (tx, []) →
      tx.serialize = some bs ∧ tx.getId = hash256 bs) ∧
    (∀ bs rest (block : CBlock),
      readVectorOf maxSize (unserialize hash256) bs = some (block.vtx, rest) →
      ∃ wires : List (List UInt8), bs = writeCompactSize wires.length ++ wires.flatten ++ rest ∧
        Forall₂ (fun w tx => serialize tx = some w) wires block.vtx ∧
        blockMerkleRoot hash block = computeMerkleRoot hash (wires.map hash256)) ∧
    ∀ bs bs' tx tx', bs ≠ bs' → unserialize hash256 bs = some (tx, []) →
      unserialize hash256 bs' = some (tx', []) →
      tx.toMutable ≠ tx'.toMutable ∧ (Function.Injective hash256 → tx.hash ≠ tx'.hash) := by
  have hwhole : ∀ bs tx, unserialize hash256 bs = some (tx, []) →
      tx.serialize = some bs ∧ tx.getId = hash256 bs := by
    intro bs tx h
    obtain ⟨w, hw, hid, rfl⟩ := unserialize_id h
    rw [append_nil]
    exact ⟨hw, hid⟩
  refine ⟨hwhole, ?_, ?_⟩
  · intro bs rest block h
    obtain ⟨⟨n, bs₁⟩, hsize, hlist⟩ := bind_eq_some_iff.mp h
    obtain ⟨-, -, rfl⟩ := readCompactSize_sound hsize
    obtain ⟨wires, rfl, rfl, hall⟩ := unserialize_vtx hlist
    refine ⟨wires, by rw [append_assoc], hall.imp fun _ _ hw => hw.1, ?_⟩
    rw [blockMerkleRoot, map_getId_of_wires hall]
  · intro bs bs' tx tx' hne h h'
    obtain ⟨hw, hid⟩ := hwhole bs tx h
    obtain ⟨hw', hid'⟩ := hwhole bs' tx' h'
    constructor
    · intro heq
      rw [serialize, heq] at hw
      exact hne (some.inj (hw.symm.trans hw'))
    · intro hinj heq
      exact hne (hinj (hid.symm.trans (heq.trans hid')))

end Block

/-- A transaction with an output without tokens, one with ten tokens, and one whose script
only begins like a payload. -/
theorem transaction_wire_canonical_prefixes : let tx : CTransaction :=
      ⟨[⟨⟨1, 0⟩, [0x51], 0xffffffff⟩],
        [⟨100, [0x51], none⟩, ⟨100, [0x51], some ⟨7, 0x10, 10, []⟩⟩, ⟨100, [0xef, 0x51], none⟩],
        2, 0, 118⟩
    let bs := leBytes 4 2 ++ [1] ++ leBytes 32 1 ++ leBytes 4 0 ++ [1, 0x51, 255, 255, 255, 255] ++
      [3] ++ leBytes 8 100 ++ [1, 0x51] ++ leBytes 8 100 ++ [36, 0xef] ++ leBytes 32 7 ++
      [0x10, 10, 0x51] ++ leBytes 8 100 ++ [2, 0xef, 0x51] ++ leBytes 4 0
    unserialize length bs = some (tx, []) ∧
      tx.serialize = some bs ∧ tx.getId = bs.length := by
  intro tx bs
  have hread : unserialize length bs = some (tx, []) := by decide +kernel
  exact ⟨hread, (transaction_wire_canonical length pairNumber).1 bs tx hread⟩

end DeVault
