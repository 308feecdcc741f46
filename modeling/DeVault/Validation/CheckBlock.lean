import DeVault.Consensus.TxVerify
import DeVault.Consensus.Params

/-!
# Context-free block checks (`CheckBlock`, `validation.cpp`)

`checkBlock` with the size limit, and the part of the node that this
development does not model: `Env` collects the functions that `CheckBlock` and
`ConnectBlock` call for proof of work, Merkle roots, script evaluation, token
rules, sequence locks and disk writes. All results hold for every `Env`.
-/

namespace DeVault

open Outcome

/-- `CBlockIndex`: the position of a block in the tree, with the hashes of its
ancestors from the parent down to the genesis block. -/
structure CBlockIndex where
  nHeight : Nat
  hash : BlockHash
  ancestors : List BlockHash
  length_ancestors : ancestors.length = nHeight

namespace CBlockIndex

/-- `pprev->GetBlockHash()`, null without a parent. -/
def prevHash (pindex : CBlockIndex) : BlockHash := pindex.ancestors.headD 0

/-- The hash of `pprev->GetAncestor(height)`, if there is such a block. -/
def prevAncestor (pindex : CBlockIndex) (height : Nat) : Option BlockHash :=
  if height < pindex.nHeight then pindex.ancestors[pindex.nHeight - 1 - height]? else none

end CBlockIndex

/-- What the modelled code calls and this development leaves open. A reject
reason is `none` when the check passes. -/
structure Env where
  /-- `-maxreorgdepth`. -/
  maxreorgdepth : Int
  /-- `GetScriptForDestination(DecodeDestination(addr, chainparams))`. -/
  scriptFor : String → CScript
  checkProofOfWork : BlockHash → Nat → Bool
  /-- `BlockMerkleRoot`: the root, and whether the tree was mutated. -/
  blockMerkleRoot : CBlock → Nat × Bool
  /-- `GetNextBlockSizeLimit(config, pindex->pprev)`. -/
  nextBlockSizeLimit : CBlockIndex → Nat
  /-- `CheckTxTokens`, on the coins that the inputs spend. -/
  checkTxTokens : CTransaction → List Coin → CBlockIndex → Option String
  /-- `SequenceLocks`, on the heights of the coins that the inputs spend. -/
  sequenceLocks : CTransaction → List Nat → CBlockIndex → Bool
  /-- `CheckInputs`, on the coins that the inputs spend. -/
  checkInputs : CTransaction → List Coin → CBlockIndex → Option String
  /-- `control.Wait()`: the queued script checks. -/
  scriptChecksPass : CBlock → CBlockIndex → Bool
  /-- `WriteUndoDataForBlock`. -/
  writeUndoData : CBlockIndex → Bool

/-- An environment in which every outside check passes. -/
def Env.permissive : Env where
  maxreorgdepth := 10
  scriptFor := fun _ => []
  checkProofOfWork := fun _ _ => true
  blockMerkleRoot := fun block => (block.hashMerkleRoot, false)
  nextBlockSizeLimit := fun _ => 32000000
  checkTxTokens := fun _ _ _ => none
  sequenceLocks := fun _ _ _ => true
  checkInputs := fun _ _ _ => none
  scriptChecksPass := fun _ _ => true
  writeUndoData := fun _ => true

/-- Serialized size of a block. -/
def CBlock.serializeSize (block : CBlock) : Nat :=
  80 + compactSizeSize block.vtx.length + (block.vtx.map CTransaction.serializeSize).sum

/-- `MIN_TRANSACTION_SIZE`. -/
def minTransactionSize : Nat := 10

/-- `MAX_CONSENSUS_BLOCK_SIZE`. -/
def maxConsensusBlockSize : Nat := 2000 * 1000000

/-- `CheckBlockSize`. -/
def checkBlockSize (block : CBlock) (nMaxBlockSize : Nat) : Except Fault Unit :=
  if block.vtx.length * minTransactionSize > nMaxBlockSize then
    .error (.dos 100 "bad-blk-length")
  else if block.serializeSize > nMaxBlockSize then
    .error (.dos 100 "bad-blk-length")
  else
    .ok ()

/-- The Merkle root check of `CheckBlock`. -/
def checkMerkleRoot (env : Env) (block : CBlock) (shouldValidate : Bool) : Except Fault Unit :=
  let (hashMerkleRoot2, mutated) := env.blockMerkleRoot block
  if !shouldValidate then
    .ok ()
  else if block.hashMerkleRoot ≠ hashMerkleRoot2 then
    .error (.dos 100 "bad-txnmrklroot")
  else if mutated then
    .error (.dos 100 "bad-txns-duplicate")
  else
    .ok ()

/-- `CheckBlock`, with the two options it reads. The memo flag `fChecked` only
saves repeating the same checks. -/
def checkBlock (env : Env) (block : CBlock) (checkPoW checkMerkle : Bool) : Except Fault Unit := do
  Outcome.require (!checkPoW || env.checkProofOfWork block.hash block.nBits)
    (.dos 50 "high-hash")
  checkMerkleRoot env block checkMerkle
  match block.vtx with
  | [] => .error (.dos 100 "bad-cb-missing")
  | coinbase :: rest => do
    checkBlockSize block maxConsensusBlockSize
    checkCoinbase coinbase
    rest.forM checkRegularTransaction

/-- The failures of `CheckBlock` that may come from corrupted data. -/
def corruptionPossible : Fault → Bool
  | .dos _ reason => reason == "bad-txnmrklroot" || reason == "bad-txns-duplicate"
  | _ => false

variable {env : Env} {block : CBlock} {checkPoW checkMerkle : Bool}

/-- **An accepted block** is a valid coinbase followed by valid regular
transactions. -/
theorem checkBlock_ok (h : checkBlock env block checkPoW checkMerkle = .ok ()) :
    ∃ coinbase rest, block.vtx = coinbase :: rest ∧ checkCoinbase coinbase = .ok () ∧
      ∀ tx ∈ rest, checkRegularTransaction tx = .ok () := by
  unfold checkBlock at h
  obtain ⟨-, -, h⟩ := bind_ok_iff.mp h
  obtain ⟨-, -, h⟩ := bind_ok_iff.mp h
  split at h
  · cases h
  next coinbase rest hvtx =>
    obtain ⟨-, -, h⟩ := bind_ok_iff.mp h
    obtain ⟨_, hcb, h⟩ := bind_ok_iff.mp h
    exact ⟨coinbase, rest, hvtx, hcb, forM_ok_iff.mp h⟩

/-- The shape of an accepted block, as the later stages use it. -/
structure BlockShape (vtx : List CTransaction) : Prop where
  ne_nil : vtx ≠ []
  head_coinbase : ∀ tx ∈ vtx.head?, tx.isCoinBase = true
  tail_regular : ∀ tx ∈ vtx.tail, tx.isCoinBase = false
  nodup_prevouts : ∀ tx ∈ vtx, tx.isCoinBase = false → tx.prevouts.Nodup
  moneyRange : ∀ tx ∈ vtx, ∀ out ∈ tx.vout, moneyRange out.nValue = true

theorem BlockShape.exists_cons {vtx : List CTransaction} (h : BlockShape vtx) :
    ∃ coinbase rest, vtx = coinbase :: rest ∧ coinbase.isCoinBase = true ∧
      ∀ tx ∈ rest, tx.isCoinBase = false := by
  obtain ⟨coinbase, rest, rfl⟩ := List.exists_cons_of_ne_nil h.ne_nil
  exact ⟨coinbase, rest, rfl, h.head_coinbase coinbase rfl, h.tail_regular⟩

/-- Every transaction of an accepted block has passed the common checks. -/
theorem common_of_checkBlock (h : checkBlock env block checkPoW checkMerkle = .ok ()) :
    ∀ tx ∈ block.vtx, checkTransactionCommon tx = .ok () := by
  obtain ⟨coinbase, rest, hvtx, hcb, hrest⟩ := checkBlock_ok h
  rw [hvtx]
  exact List.forall_mem_cons.mpr
    ⟨(common_of_coinbase hcb).2, fun tx htx => (common_of_regular (hrest tx htx)).2⟩

theorem blockShape_of_checkBlock
    (h : checkBlock env block checkPoW checkMerkle = .ok ()) : BlockShape block.vtx := by
  have hcommon := common_of_checkBlock h
  obtain ⟨coinbase, rest, hvtx, hcb, hrest⟩ := checkBlock_ok h
  have hcoinbase := (common_of_coinbase hcb).1
  refine ⟨by simp [hvtx], ?_, ?_, ?_, fun tx htx => moneyRange_of_common (hcommon tx htx)⟩
  · simpa [hvtx] using hcoinbase
  · rw [hvtx, List.tail_cons]
    exact fun tx htx => (common_of_regular (hrest tx htx)).1
  · intro tx htx hreg
    rw [hvtx] at htx
    rcases List.mem_cons.mp htx with rfl | htx
    · cases hcoinbase.symm.trans hreg
    · exact (checkRegularTransaction_ok.mp (hrest tx htx)).2.2.2

end DeVault
