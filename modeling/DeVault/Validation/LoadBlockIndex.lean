import DeVault.BaseUint
import DeVault.Validation.Finalize
import Mathlib.Data.List.Sort

/-!
# Loading the block index (`CChainState::LoadBlockIndex`, `BlockStatus`, `GetBlockProof`)

At the start of the node, the entries of all known blocks are read from disk and what is not stored
is computed in one pass over the blocks, by height: the work and the number of transactions of each
chain, which blocks descend from a failed one, and which are candidates for the tip.

A block is marked if its *parent has failed*, that is if the parent carries the flag of a block that
is invalid itself. A parent that was only marked does not count. So the mark reaches the children of
a failed block and no further.

A tree of blocks is a list of entries that has the parents of its entries. The fields that the
source keeps in the objects are functions on the entries. `BlockStatus` is the record of its flags.
-/

namespace DeVault

open ArithUint256 CBlockIndex List Nat

/-- `BlockStatus`, by its flags. -/
structure BlockStatus where
  validity : Nat := 0
  hasData : Bool := false
  hasUndo : Bool := false
  hasFailed : Bool := false
  hasFailedParent : Bool := false
  isParked : Bool := false
  hasParkedParent : Bool := false
  deriving DecidableEq, Repr

/-- `BlockValidity::TREE`. -/
def validityTree : Nat := 2

/-- `BlockValidity::TRANSACTIONS`. -/
def validityTransactions : Nat := 3

namespace BlockStatus

variable (s : BlockStatus)

/-- `BlockStatus::isInvalid`. -/
def isInvalid : Bool := s.hasFailed || s.hasFailedParent

/-- `BlockStatus::isOnParkedChain`. -/
def isOnParkedChain : Bool := s.isParked || s.hasParkedParent

/-- `BlockStatus::withFailedParent`. -/
def withFailedParent (hasFailedParent : Bool) : BlockStatus :=
  { s with hasFailedParent }

/-- `BlockStatus::isValid`. -/
def isValid (nUpTo : Nat) : Bool := if s.isInvalid then false else s.validity ≥ nUpTo

end BlockStatus

/-- What the database holds: the entries of a tree of blocks, in the order of `mapBlockIndex`, and
the stored fields, with the width of the source's types. -/
structure StoredTree where
  blocks : List CBlockIndex
  nBits : CBlockIndex → Nat
  nTime : CBlockIndex → Nat
  nTx : CBlockIndex → Nat
  nStatus : CBlockIndex → BlockStatus
  /-- Whether the entry was only created as the parent of another one. -/
  hashMerkleRootIsNull : CBlockIndex → Bool
  nodup : blocks.Nodup
  pprev_mem : ∀ b ∈ blocks, ∀ q, b.pprev = some q → q ∈ blocks
  nTx_lt : ∀ b, nTx b < 2 ^ 32
  nHeight_lt : ∀ b ∈ blocks, b.nHeight < 2 ^ 31

/-! ### The source -/

/-- `GetBlockProof`. The division does not throw: its divisor is not zero (`setCompact_succ_lt`). -/
def getBlockProof (nBits : Nat) : Nat :=
  let (bnTarget, fNegative, fOverflow) := BaseUint.setCompact nBits
  if fNegative || fOverflow || bnTarget.equalTo 0 then 0
  else
    match bnTarget.not.divide (bnTarget.add (.ofUInt64 1)) with
    | none => 0
    | some quotient => (quotient.add (.ofUInt64 1)).value

/-- The fields that the pass computes for a block. -/
structure BlockFields where
  nChainWork : Nat := 0
  nTimeMax : Nat := 0
  nChainTx : Nat := 0
  nStatus : BlockStatus := {}
  deriving DecidableEq, Repr

/-- `HaveTxsDownloaded`. -/
def BlockFields.haveTxsDownloaded (f : BlockFields) : Bool := f.nChainTx ≠ 0

/-- What the pass changes. -/
structure LoadState where
  fields : CBlockIndex → BlockFields := fun _ => {}
  mapBlocksUnlinked : List (CBlockIndex × CBlockIndex) := []
  setDirtyBlockIndex : List CBlockIndex := []
  setBlockIndexCandidates : List CBlockIndex := []
  pindexBestInvalid : Option CBlockIndex := none
  pindexBestParked : Option CBlockIndex := none
  pindexBestHeader : Option CBlockIndex := none

section Source

variable (tree : StoredTree) (address : CBlockIndex → Nat)

variable (s : LoadState)

/-- `CBlockIndexWorkComparator` on blocks from disk, whose sequence numbers are all the same. -/
def workLess (pa pb : CBlockIndex) : Bool :=
  if (s.fields pa).nChainWork > (s.fields pb).nChainWork then false
  else if (s.fields pa).nChainWork < (s.fields pb).nChainWork then true
  else address pa > address pb

variable (pindex : CBlockIndex)

/-- Whether the loop marks a block: its parent has failed. -/
def marks (prev : Option BlockFields) : Bool :=
  !(tree.nStatus pindex).hasFailed && prev.any (·.nStatus.hasFailed)

/-- The assignments of the loop, from the fields of the parent. -/
def loadFields (prev : Option BlockFields) : BlockFields where
  nChainWork :=
    ((prev.map BlockFields.nChainWork).getD 0 + getBlockProof (tree.nBits pindex)) % 2 ^ 256
  nTimeMax := max ((prev.map BlockFields.nTimeMax).getD 0) (tree.nTime pindex)
  nChainTx :=
    if tree.nTx pindex > 0 then
      match prev with
      | some q => if q.haveTxsDownloaded then (q.nChainTx + tree.nTx pindex) % 2 ^ 64 else 0
      | none => tree.nTx pindex
    else 0
  nStatus :=
    if marks tree pindex prev then (tree.nStatus pindex).withFailedParent true
    else tree.nStatus pindex

/-- The better of two blocks, by work; the first one if it is not worse. -/
def bestOf (best : Option CBlockIndex) (pindex : CBlockIndex) : Option CBlockIndex :=
  match best with
  | none => some pindex
  | some b => if (s.fields pindex).nChainWork > (s.fields b).nChainWork then some pindex else some b

/-- The condition for a candidate. -/
def isCandidate (f : BlockFields) : Bool :=
  f.nStatus.isValid validityTransactions && (f.haveTxsDownloaded || pindex.pprev.isNone)

/-- One turn of the loop. -/
def loadTurn : LoadState :=
  let f := loadFields tree pindex (pindex.pprev.map s.fields)
  let fields := Function.update s.fields pindex f
  let s' := { s with fields }
  { s' with
    mapBlocksUnlinked :=
      match pindex.pprev with
      | some q =>
        if tree.nTx pindex > 0 && !(s.fields q).haveTxsDownloaded then
          (q, pindex) :: s.mapBlocksUnlinked
        else s.mapBlocksUnlinked
      | none => s.mapBlocksUnlinked
    setDirtyBlockIndex :=
      if marks tree pindex (pindex.pprev.map s.fields) then pindex :: s.setDirtyBlockIndex
      else s.setDirtyBlockIndex
    setBlockIndexCandidates :=
      if isCandidate pindex f then pindex :: s.setBlockIndexCandidates
      else s.setBlockIndexCandidates
    pindexBestInvalid :=
      if f.nStatus.isInvalid then bestOf s' s.pindexBestInvalid pindex else s.pindexBestInvalid
    pindexBestParked :=
      if f.nStatus.isOnParkedChain then bestOf s' s.pindexBestParked pindex else s.pindexBestParked
    pindexBestHeader :=
      if f.nStatus.isValid validityTree &&
          s.pindexBestHeader.all (fun b => workLess address s' b pindex) then some pindex
      else s.pindexBestHeader }

/-- The order of pairs of a height and a pointer. -/
def HeightLe (a b : CBlockIndex) : Prop :=
  a.nHeight < b.nHeight ∨ (a.nHeight = b.nHeight ∧ address a ≤ address b)

instance : DecidableRel (HeightLe address) := fun a b =>
  inferInstanceAs (Decidable
    (a.nHeight < b.nHeight ∨ (a.nHeight = b.nHeight ∧ address a ≤ address b)))

/-- `vSortedByHeight`. -/
def sortedByHeight : List CBlockIndex := tree.blocks.insertionSort (HeightLe address)

/-- `LoadBlockIndex`; `none` if an entry is missing. -/
def loadBlockIndex : Option LoadState :=
  if tree.blocks.any fun b => b.nHeight == 0 && tree.hashMerkleRootIsNull b then none
  else some ((sortedByHeight tree address).foldl (loadTurn tree address) {})

end Source

/-! ### The pass -/

variable {b : CBlockIndex}

section Pass

variable {tree : StoredTree} {address : CBlockIndex → Nat}

/-- What holds when the blocks of a list have been processed: their fields follow from their
parents', and the candidates among them are known. -/
structure Loaded (tree : StoredTree) (done : List CBlockIndex) (s : LoadState) : Prop where
  pprev_mem : ∀ b ∈ done, ∀ q, b.pprev = some q → q ∈ done
  fields : ∀ b ∈ done, s.fields b = loadFields tree b (b.pprev.map s.fields)
  candidates : ∀ b, b ∈ s.setBlockIndexCandidates ↔ b ∈ done ∧ isCandidate b (s.fields b) = true

/-- **A turn** adds a block, if its parent has been processed. -/
theorem Loaded.turn {done : List CBlockIndex} {s : LoadState} (h : Loaded tree done s)
    {pindex : CBlockIndex} (hnew : pindex ∉ done) (hprev : ∀ q, pindex.pprev = some q → q ∈ done) :
    Loaded tree (done ++ [pindex]) (loadTurn tree address s pindex) := by
  -- the turn writes the fields of one block, and reads those of its parent
  have hold : ∀ b ∈ done, (loadTurn tree address s pindex).fields b = s.fields b := by
    intro b hb
    have hne : b ≠ pindex := fun heq => hnew (heq ▸ hb)
    exact Function.update_of_ne hne _ _
  have hparent : ∀ b : CBlockIndex, (∀ q, b.pprev = some q → q ∈ done) →
      b.pprev.map (loadTurn tree address s pindex).fields = b.pprev.map s.fields := by
    intro b hb
    cases hq : b.pprev with
    | none => rfl
    | some q => exact congrArg some (hold q (hb q hq))
  have hfields : (loadTurn tree address s pindex).fields pindex =
      loadFields tree pindex (pindex.pprev.map s.fields) := Function.update_self _ _ _
  refine ⟨fun b hb q hq => ?_, fun b hb => ?_, fun b => ?_⟩
  · rw [mem_append, mem_singleton] at hb ⊢
    rcases hb with hb | rfl
    · exact .inl (h.pprev_mem b hb q hq)
    · exact .inl (hprev q hq)
  · rw [mem_append, mem_singleton] at hb
    rcases hb with hb | rfl
    · rw [hold b hb, hparent b (h.pprev_mem b hb), h.fields b hb]
    · rw [hfields, hparent b hprev]
  · have hset : (loadTurn tree address s pindex).setBlockIndexCandidates =
        if isCandidate pindex ((loadTurn tree address s pindex).fields pindex) then
          pindex :: s.setBlockIndexCandidates else s.setBlockIndexCandidates := by
      rw [hfields]
      rfl
    rw [hset, mem_append, mem_singleton]
    by_cases hb : b = pindex
    · subst hb
      have hnot : b ∉ s.setBlockIndexCandidates := fun hmem => hnew ((h.candidates b).mp hmem).1
      split
      next hcand => exact iff_of_true mem_cons_self ⟨.inr rfl, hcand⟩
      next hcand => exact iff_of_false hnot fun h => hcand h.2
    · have hmem : b ∈ (if isCandidate pindex ((loadTurn tree address s pindex).fields pindex) then
          pindex :: s.setBlockIndexCandidates else s.setBlockIndexCandidates) ↔
          b ∈ s.setBlockIndexCandidates := by
        split
        · rw [mem_cons, or_iff_right hb]
        · exact Iff.rfl
      rw [hmem, h.candidates, or_iff_left hb]
      exact and_congr_right fun hdone => by rw [hold b hdone]

instance : Std.Total (HeightLe address) := ⟨fun a b => by unfold HeightLe; omega⟩

instance : IsTrans CBlockIndex (HeightLe address) := ⟨fun a b c => by unfold HeightLe; omega⟩

theorem mem_sortedByHeight : b ∈ sortedByHeight tree address ↔ b ∈ tree.blocks :=
  mem_insertionSort _

/-- The order of the pass: parents come first. -/
theorem pprev_mem_of_sorted {done rest : List CBlockIndex} {pindex q : CBlockIndex}
    (hsorted : sortedByHeight tree address = done ++ pindex :: rest) (hq : pindex.pprev = some q) :
    q ∈ done := by
  have hpindex : pindex ∈ sortedByHeight tree address := by simp [hsorted]
  have hmem : q ∈ sortedByHeight tree address :=
    mem_sortedByHeight.mpr (tree.pprev_mem pindex (mem_sortedByHeight.mp hpindex) q hq)
  have hheight := nHeight_of_pprev hq
  have hpairs := pairwise_insertionSort (HeightLe address) tree.blocks
  rw [show insertionSort _ _ = sortedByHeight tree address from rfl, hsorted] at hpairs
  rw [hsorted, mem_append, mem_cons] at hmem
  rcases hmem with hdone | rfl | hrest
  · exact hdone
  · omega
  · have := rel_of_pairwise_cons (pairwise_append.mp hpairs).2.1 hrest
    unfold HeightLe at this
    omega

theorem loaded_of_loadBlockIndex {s : LoadState} (h : loadBlockIndex tree address = some s) :
    Loaded tree (sortedByHeight tree address) s := by
  unfold loadBlockIndex at h
  split at h
  · cases h
  · cases h
    have hnodup : (sortedByHeight tree address).Nodup :=
      (perm_insertionSort _ _).nodup_iff.mpr tree.nodup
    refine Scan.foldl_prefix_induct (P := Loaded tree) ⟨?_, ?_, ?_⟩ ?_
    · simp
    · simp
    · simp
    · intro done pindex rest s hsorted hloaded
      refine hloaded.turn ?_ fun q hq => pprev_mem_of_sorted hsorted hq
      rw [hsorted] at hnodup
      exact fun hmem => disjoint_of_nodup_append hnodup hmem mem_cons_self

/-! ### Whole chains -/

theorem sum_nTx_ne_zero (hall : ∀ a ∈ b.branch, 0 < tree.nTx a) :
    (b.branch.map tree.nTx).sum ≠ 0 := by
  have hle : tree.nTx b ≤ (b.branch.map tree.nTx).sum :=
    single_le_sum (by simp) _ (mem_map_of_mem b.self_mem_branch)
  have hpos := hall b b.self_mem_branch
  omega

variable {s : LoadState} (h : loadBlockIndex tree address = some s)

include h

section

variable (hb : b ∈ tree.blocks)
include hb

theorem fields_eq : s.fields b = loadFields tree b (b.pprev.map s.fields) :=
  (loaded_of_loadBlockIndex h).fields b (mem_sortedByHeight.mpr hb)

/-- **The work of a chain** is the sum of the proofs of its blocks. -/
theorem nChainWork_eq : (s.fields b).nChainWork =
      (b.branch.map fun a => getBlockProof (tree.nBits a)).sum % 2 ^ 256 := by
  induction b using pprev_induction with
  | root b hroot =>
    rw [fields_eq h hb, hroot, branch_of_pprev_none hroot]
    simp [loadFields]
  | step b q hq ih =>
    have hwork := ih (tree.pprev_mem b hb q hq)
    rw [fields_eq h hb, hq, branch_of_pprev_some hq, map_cons, sum_cons]
    simp only [loadFields, Option.map_some, Option.getD_some, hwork, mod_add_mod]
    rw [Nat.add_comm]

/-- **The number of transactions of a chain**, if all its blocks have some. -/
theorem nChainTx_eq :
    (s.fields b).nChainTx = if ∀ a ∈ b.branch, 0 < tree.nTx a then (b.branch.map tree.nTx).sum
      else 0 := by
  induction b using pprev_induction with
  | root b hroot =>
    rw [fields_eq h hb, hroot, branch_of_pprev_none hroot]
    simp [loadFields]
  | step b q hq ih =>
    have hqmem := tree.pprev_mem b hb q hq
    have hchain := ih hqmem
    rw [fields_eq h hb, hq, branch_of_pprev_some hq, map_cons, sum_cons]
    simp only [loadFields, Option.map_some, BlockFields.haveTxsDownloaded, forall_mem_cons,
      decide_eq_true_eq, hchain]
    by_cases hown : 0 < tree.nTx b
    · by_cases hbelow : ∀ a ∈ q.branch, 0 < tree.nTx a
      · -- the sum is far below the width of the counter
        have hbound : (q.branch.map tree.nTx).sum ≤ (q.branch.map tree.nTx).length • 2 ^ 32 :=
          sum_le_card_nsmul _ _ fun n hn => by
            obtain ⟨a, -, rfl⟩ := mem_map.mp hn
            exact (tree.nTx_lt a).le
        rw [length_map, length_branch, smul_eq_mul] at hbound
        have hheight := tree.nHeight_lt q hqmem
        have hlt := tree.nTx_lt b
        rw [if_pos hown, if_pos hbelow, if_pos (sum_nTx_ne_zero hbelow), if_pos ⟨hown, hbelow⟩,
          mod_eq_of_lt (by omega), Nat.add_comm]
      · rw [if_pos hown, if_neg hbelow, if_neg (fun hall : 0 < tree.nTx b ∧ _ => hbelow hall.2)]
        simp
    · rw [if_neg hown, if_neg (fun hall : 0 < tree.nTx b ∧ _ => hown hall.1)]

theorem nChainTx_ne_zero_iff : (s.fields b).nChainTx ≠ 0 ↔ ∀ a ∈ b.branch, 0 < tree.nTx a := by
  rw [nChainTx_eq h hb]
  split
  next hall => exact iff_of_true (sum_nTx_ne_zero hall) hall
  next hall => exact iff_of_false (by simp) hall

/-! ### Failed blocks -/

/-- The pass marks blocks but does not let them fail. -/
theorem hasFailed_eq : (s.fields b).nStatus.hasFailed = (tree.nStatus b).hasFailed := by
  rw [fields_eq h hb]
  simp only [loadFields]
  split <;> rfl

/-- **Which blocks are marked:** those that were, and the children of failed blocks. -/
theorem isInvalid_iff : (s.fields b).nStatus.isInvalid = true ↔ (tree.nStatus b).isInvalid = true ∨
      ∃ q, b.pprev = some q ∧ (tree.nStatus q).hasFailed = true := by
  rw [fields_eq h hb]
  simp only [loadFields, marks, BlockStatus.isInvalid]
  cases hq : b.pprev with
  | none => simp
  | some q =>
    have hfailed := hasFailed_eq h (tree.pprev_mem b hb q hq)
    simp only [Option.map_some, Option.any_some, hfailed, Option.some.injEq, exists_eq_left']
    cases hown : (tree.nStatus b).hasFailed <;> cases (tree.nStatus q).hasFailed <;>
      simp [BlockStatus.withFailedParent, hown]

end

theorem notMem_candidates (hinvalid : (s.fields b).nStatus.isInvalid = true) :
    b ∉ s.setBlockIndexCandidates := by
  intro hmem
  have hcand := (((loaded_of_loadBlockIndex h).candidates b).mp hmem).2
  simp [isCandidate, BlockStatus.isValid, hinvalid] at hcand

/-- **When the marks are complete.** After the pass, every block with a failed ancestor is marked
and no candidate, if and only if every block whose failed ancestor is further away than its parent
has a failed parent too or was marked on disk. Work and numbers of transactions are right in any
case. -/
theorem loadBlockIndex_marks_iff :
    ((∀ b ∈ tree.blocks, (∃ a ∈ b.branch, a ≠ b ∧ (s.fields a).nStatus.hasFailed = true) →
        (s.fields b).nStatus.isInvalid = true ∧ b ∉ s.setBlockIndexCandidates) ↔
      ∀ b ∈ tree.blocks, ∀ q, b.pprev = some q →
        (∃ a ∈ q.branch, a ≠ q ∧ (tree.nStatus a).hasFailed = true) →
          (tree.nStatus q).hasFailed = true ∨ (tree.nStatus b).isInvalid = true) ∧
    (∀ b ∈ tree.blocks, (s.fields b).nChainWork =
      (b.branch.map fun a => getBlockProof (tree.nBits a)).sum % 2 ^ 256) ∧
    (∀ b ∈ tree.blocks, (s.fields b).nChainTx ≠ 0 ↔ ∀ a ∈ b.branch, 0 < tree.nTx a) := by
  refine ⟨?_, fun b hb => nChainWork_eq h hb, fun b hb => nChainTx_ne_zero_iff h hb⟩
  have hbranch : ∀ b ∈ tree.blocks, ∀ a ∈ b.branch, a ∈ tree.blocks := by
    intro b hb a ha
    induction b using pprev_induction with
    | root b hroot =>
      rw [branch_of_pprev_none hroot, mem_singleton] at ha
      exact ha ▸ hb
    | step b q hq ih =>
      rw [branch_of_pprev_some hq, mem_cons] at ha
      rcases ha with rfl | ha
      · exact hb
      · exact ih (tree.pprev_mem b hb q hq) ha
  constructor
  · rintro hmarks b hb q hq ⟨a, ha, -, hfailed⟩
    have hab : a ∈ b.branch := by
      rw [branch_of_pprev_some hq]
      exact mem_cons_of_mem _ ha
    have hne : a ≠ b := by
      rintro rfl
      have := nHeight_le_of_mem_branch ha
      have := nHeight_of_pprev hq
      omega
    obtain ⟨hinvalid, -⟩ := hmarks b hb
      ⟨a, hab, hne, by rw [hasFailed_eq h (hbranch b hb a hab), hfailed]⟩
    -- the pass looks no further than at the parent
    rcases (isInvalid_iff h hb).mp hinvalid with hstored | ⟨q', hq', hparent⟩
    · exact .inr hstored
    · cases hq.symm.trans hq'
      exact .inl hparent
  · rintro hdisk b hb ⟨a, ha, hne, hfailed⟩
    rw [hasFailed_eq h (hbranch b hb a ha)] at hfailed
    suffices hinvalid : (s.fields b).nStatus.isInvalid = true from
      ⟨hinvalid, notMem_candidates h hinvalid⟩
    rw [isInvalid_iff h hb]
    cases hq : b.pprev with
    | none =>
      rw [branch_of_pprev_none hq, mem_singleton] at ha
      exact absurd ha hne
    | some q =>
      rw [branch_of_pprev_some hq, mem_cons, or_iff_right hne] at ha
      by_cases haq : a = q
      · exact .inr ⟨q, rfl, haq ▸ hfailed⟩
      · rcases hdisk b hb q hq ⟨a, ha, haq, hfailed⟩ with hparent | hstored
        · exact .inr ⟨q, rfl, hparent⟩
        · exact .inl hstored

end Pass

namespace FailedLine

/-- A chain of four blocks, of which the second one has failed. Of the others nothing is known, or
the last one is marked. -/
def tree (marked : Bool) : StoredTree where
  blocks := [.ofLine 4 [3, 2, 1], .ofLine 2 [1], .ofLine 3 [2, 1], .ofLine 1 []]
  nBits _ := 0x1d00ffff
  nTime _ := 0
  nTx _ := 1
  nStatus b :=
    { validity := 3, hasData := true, hasFailed := b.nHeight == 1
      hasFailedParent := marked && b.nHeight == 3 }
  hashMerkleRootIsNull _ := false
  nodup := by decide
  pprev_mem := by decide
  nTx_lt _ := by norm_num
  nHeight_lt := by decide

end FailedLine

open FailedLine in
/-- The grandchild of the failed block is not marked, and becomes a candidate. -/
theorem loadBlockIndex_missesGrandchild :
    ofLine 2 [1] ∈ (ofLine 4 [3, 2, 1]).branch ∧
      ((tree false).nStatus (.ofLine 2 [1])).hasFailed = true ∧
      ∃ s, loadBlockIndex (tree false) hash = some s ∧
        (s.fields (.ofLine 3 [2, 1])).nStatus.isInvalid = true ∧
        (s.fields (.ofLine 4 [3, 2, 1])).nStatus.isInvalid = false ∧
        ofLine 4 [3, 2, 1] ∈ s.setBlockIndexCandidates :=
  ⟨by decide, by decide, _, rfl, by decide +kernel, by decide +kernel, by decide +kernel⟩

open FailedLine in
/-- If the last block was marked on disk, all marks are complete. -/
theorem loadBlockIndex_marks_failedLine :
    let last := ofLine 4 [3, 2, 1]
    ∃ s, loadBlockIndex (tree true) hash = some s ∧
      (s.fields last).nStatus.isInvalid = true ∧ last ∉ s.setBlockIndexCandidates ∧
      (s.fields last).nChainWork = 4 * getBlockProof 0x1d00ffff % 2 ^ 256 ∧
      (s.fields last).nChainTx ≠ 0 := by
  intro last
  obtain ⟨s, hload⟩ : ∃ s, loadBlockIndex (tree true) hash = some s := ⟨_, rfl⟩
  obtain ⟨hmarks, hwork, htx⟩ := loadBlockIndex_marks_iff hload
  have hfailed : (s.fields (ofLine 2 [1])).nStatus.hasFailed = true := by
    rw [hasFailed_eq hload (by decide)]
    rfl
  obtain ⟨hinvalid, hnot⟩ := hmarks.mpr (by
    intro b hb q hq _
    fin_cases hb <;> cases hq
    · exact .inr (by decide)
    · exact .inr (by decide)
    · exact .inl (by decide)) last (by decide) ⟨ofLine 2 [1], by decide, by decide, hfailed⟩
  refine ⟨s, hload, hinvalid, hnot, ?_, (htx last (by decide)).mpr fun _ _ => Nat.one_pos⟩
  rw [hwork last (by decide)]
  change ([_, _, _, _].map fun _ => getBlockProof 0x1d00ffff).sum % 2 ^ 256 = _
  generalize getBlockProof 0x1d00ffff = work
  simp only [map_cons, map_nil, sum_cons, sum_nil]
  omega

/-! ### The work of a block -/

end DeVault
