import DeVault.Validation.Chain

/-!
# Finalization (`FindBlockToFinalize`, `FinalizeBlockInternal`, `validation.cpp`)

A node marks a block of its chain as finalized once it is `-maxreorgdepth` deep
and its header has been known for `-finalizationdelay` seconds. Forks below the
finalized block are refused from then on.

A `CBlockIndex` is a block together with the line of its ancestors, so the
pointers of the source (`pprev`, `GetAncestor`) are computed from it, and two
entries are the same block exactly when they are equal. `CBlockIndex.branch` is
the walk along `pprev`; the loops of the source are recursions over it.
-/

namespace DeVault

open List

deriving instance DecidableEq for CBlockIndex

variable (hash : BlockHash) (pindex : CBlockIndex)

namespace CBlockIndex

/-- The index entry of a block with given ancestors. -/
def ofLine (ancestors : List BlockHash) : CBlockIndex :=
  ⟨ancestors.length, hash, ancestors, rfl⟩

theorem ofLine_self : ofLine pindex.hash pindex.ancestors = pindex := by
  obtain ⟨nHeight, hash, ancestors, rfl⟩ := pindex
  rfl

/-- `pprev`: the parent, computed from the line of ancestors. -/
def pprev : Option CBlockIndex :=
  match pindex.ancestors with
  | [] => none
  | hash :: ancestors => some (ofLine hash ancestors)

/-- The entries of a line of blocks, from the top down. -/
def lineOf : BlockHash → List BlockHash → List CBlockIndex
  | hash, [] => [ofLine hash []]
  | hash, parent :: ancestors => ofLine hash (parent :: ancestors) :: lineOf parent ancestors

/-- The block and its ancestors, from the block down to the genesis block. -/
def branch : List CBlockIndex := lineOf pindex.hash pindex.ancestors

/-- `GetAncestor`. -/
def getAncestor (height : Int) : Option CBlockIndex :=
  if (pindex.nHeight : Int) < height ∨ height < 0 then none
  else pindex.branch[pindex.nHeight - height.toNat]?

/-- `AreOnTheSameFork`. -/
def areOnTheSameFork (pa pb : CBlockIndex) : Bool :=
  if pb.nHeight < pa.nHeight then pa.getAncestor pb.nHeight == some pb
  else if pa.nHeight < pb.nHeight then some pa == pb.getAncestor pa.nHeight
  else pa == pb

end CBlockIndex

/-! ### The walk down a branch -/

namespace CBlockIndex

variable {pindex q : CBlockIndex}

theorem branch_of_pprev_none (h : pindex.pprev = none) : pindex.branch = [pindex] := by
  obtain ⟨nHeight, hash, ancestors, rfl⟩ := pindex
  cases ancestors with
  | nil => rfl
  | cons a as => exact absurd h (by simp [pprev])

theorem branch_of_pprev_some (h : pindex.pprev = some q) : pindex.branch = pindex :: q.branch := by
  obtain ⟨nHeight, hash, ancestors, rfl⟩ := pindex
  cases ancestors with
  | nil => exact absurd h (by simp [pprev])
  | cons a as =>
    cases h
    rfl

@[simp] theorem pprev_next (tip : CBlockIndex) (hash : BlockHash) :
    (tip.next hash).pprev = some tip :=
  congrArg some tip.ofLine_self

theorem branch_next (tip : CBlockIndex) (hash : BlockHash) :
    (tip.next hash).branch = tip.next hash :: tip.branch :=
  branch_of_pprev_some (tip.pprev_next hash)

theorem nHeight_of_pprev (h : pindex.pprev = some q) : pindex.nHeight = q.nHeight + 1 := by
  obtain ⟨nHeight, hash, ancestors, rfl⟩ := pindex
  cases ancestors with
  | nil => exact absurd h (by simp [pprev])
  | cons a as =>
    cases h
    rfl

theorem nHeight_of_pprev_none (h : pindex.pprev = none) : pindex.nHeight = 0 := by
  obtain ⟨nHeight, hash, ancestors, rfl⟩ := pindex
  cases ancestors with
  | nil => rfl
  | cons a as => exact absurd h (by simp [pprev])

theorem pprev_induction {motive : CBlockIndex → Prop} (pindex : CBlockIndex)
    (root : ∀ b : CBlockIndex, b.pprev = none → motive b)
    (step : ∀ b q : CBlockIndex, b.pprev = some q → motive q → motive b) : motive pindex := by
  obtain ⟨nHeight, hash, ancestors, rfl⟩ := pindex
  induction ancestors generalizing hash with
  | nil => exact root _ rfl
  | cons a as ih => exact step _ (ofLine a as) rfl (ih a)

theorem self_mem_branch (pindex : CBlockIndex) : pindex ∈ pindex.branch := by
  cases h : pindex.pprev with
  | none => simp [branch_of_pprev_none h]
  | some q => simp [branch_of_pprev_some h]

theorem length_branch (pindex : CBlockIndex) : pindex.branch.length = pindex.nHeight + 1 := by
  induction pindex using pprev_induction with
  | root b h => simp [branch_of_pprev_none h, nHeight_of_pprev_none h]
  | step b q h ih => simp [branch_of_pprev_some h, nHeight_of_pprev h, ih]

/-- The entry `i` steps down the branch stands `i` lower. -/
theorem nHeight_of_getElem?_branch {i : Nat} (h : pindex.branch[i]? = some q) :
    q.nHeight + i = pindex.nHeight := by
  induction pindex using pprev_induction generalizing i with
  | root b hb =>
    rw [branch_of_pprev_none hb] at h
    cases i with
    | zero => cases h; rfl
    | succ i => cases h
  | step b q' hb ih =>
    rw [branch_of_pprev_some hb] at h
    cases i with
    | zero => cases h; rfl
    | succ i =>
      have hlower : q.nHeight + i = q'.nHeight := ih h
      rw [nHeight_of_pprev hb, ← hlower]
      omega

section

variable (h : q ∈ pindex.branch)
include h

theorem nHeight_le_of_mem_branch : q.nHeight ≤ pindex.nHeight := by
  obtain ⟨i, hi⟩ := mem_iff_getElem?.mp h
  have := nHeight_of_getElem?_branch hi
  omega

/-- Heights identify the entries of a branch. -/
theorem eq_of_mem_branch {q' : CBlockIndex} (h' : q' ∈ pindex.branch)
    (hheight : q.nHeight = q'.nHeight) : q = q' := by
  obtain ⟨i, hi⟩ := mem_iff_getElem?.mp h
  obtain ⟨j, hj⟩ := mem_iff_getElem?.mp h'
  have hij : i = j := by
    have := nHeight_of_getElem?_branch hi
    have := nHeight_of_getElem?_branch hj
    omega
  subst hij
  exact Option.some.inj (hi.symm.trans hj)

theorem mem_branch_trans {r : CBlockIndex} (h' : r ∈ q.branch) : r ∈ pindex.branch := by
  induction pindex using pprev_induction with
  | root b hb =>
    rw [branch_of_pprev_none hb, mem_singleton] at h
    exact h ▸ h'
  | step b q' hb ih =>
    rw [branch_of_pprev_some hb, mem_cons] at h ⊢
    rcases h with rfl | h
    · rw [branch_of_pprev_some hb] at h'
      exact mem_cons.mp h'
    · exact .inr (ih h)

/-- Of two blocks on one branch the lower is on the branch of the higher. -/
theorem mem_branch_of_le {r : CBlockIndex} (h' : r ∈ pindex.branch)
    (hle : r.nHeight ≤ q.nHeight) : r ∈ q.branch := by
  induction pindex using pprev_induction with
  | root b hb =>
    rw [branch_of_pprev_none hb, mem_singleton] at h h'
    rw [h, h']
    exact b.self_mem_branch
  | step b q' hb ih =>
    have hb' := h
    rw [branch_of_pprev_some hb, mem_cons] at h
    rcases h with rfl | h
    · exact h'
    have hlt : r.nHeight < b.nHeight := by
      have := nHeight_le_of_mem_branch h
      have := nHeight_of_pprev hb
      omega
    rw [branch_of_pprev_some hb, mem_cons] at h'
    rcases h' with rfl | h'
    · exact absurd hlt (Nat.lt_irrefl _)
    · exact ih h h'

end

/-- A block is the ancestor of another at a height exactly when it is on its
branch and has that height. -/
theorem getAncestor_eq_some_iff {height : Int} :
    pindex.getAncestor height = some q ↔ q ∈ pindex.branch ∧ (q.nHeight : Int) = height := by
  unfold getAncestor
  constructor
  · intro h
    split at h
    · cases h
    · refine ⟨mem_of_getElem? h, ?_⟩
      have := nHeight_of_getElem?_branch h
      omega
  · rintro ⟨hmem, rfl⟩
    have hle := nHeight_le_of_mem_branch hmem
    rw [if_neg (by omega)]
    obtain ⟨i, hi⟩ := mem_iff_getElem?.mp hmem
    have hsum := nHeight_of_getElem?_branch hi
    rwa [Int.toNat_natCast, ← hsum, Nat.add_sub_cancel_left]

theorem getAncestor_self_iff : pindex.getAncestor q.nHeight = some q ↔ q ∈ pindex.branch := by
  rw [getAncestor_eq_some_iff]
  exact and_iff_left rfl

/-- The chain has an ancestor at every height up to its own. -/
theorem exists_getAncestor (pindex : CBlockIndex) {height : Int} (h0 : 0 ≤ height)
    (hle : height ≤ pindex.nHeight) : ∃ a, pindex.getAncestor height = some a := by
  have hlength := pindex.length_branch
  unfold getAncestor
  rw [if_neg (by omega)]
  exact ⟨_, getElem?_eq_getElem (by omega)⟩

/-- Two blocks are on the same fork exactly when one is on the branch of the other. -/
theorem areOnTheSameFork_iff :
    areOnTheSameFork pindex q = true ↔ pindex ∈ q.branch ∨ q ∈ pindex.branch := by
  unfold areOnTheSameFork
  split
  next hlt =>
    rw [beq_iff_eq, getAncestor_self_iff]
    refine ⟨.inr, fun h => h.resolve_left fun hmem => ?_⟩
    exact absurd (nHeight_le_of_mem_branch hmem) (Nat.not_le.mpr hlt)
  · split
    next hlt =>
      rw [beq_iff_eq, eq_comm, getAncestor_self_iff]
      refine ⟨.inl, fun h => h.resolve_right fun hmem => ?_⟩
      exact absurd (nHeight_le_of_mem_branch hmem) (Nat.not_le.mpr hlt)
    · have heq : pindex.nHeight = q.nHeight := by omega
      rw [beq_iff_eq]
      constructor
      · rintro rfl
        exact .inl pindex.self_mem_branch
      · rintro (h | h)
        · exact eq_of_mem_branch h q.self_mem_branch heq
        · exact eq_of_mem_branch pindex.self_mem_branch h heq

end CBlockIndex

/-! ### Finalization -/

/-- What finalization reads besides the chain: the clock, the options and the
block index. A header loaded from disk has the received time 0. -/
structure FinalizationEnv where
  /-- `-finalizationdelay`. -/
  finalizationdelay : Int
  /-- `GetStartupTime()`. -/
  startupTime : Int
  /-- `GetTime()`. -/
  now : Int
  /-- `GetHeaderReceivedTime()`. -/
  headerReceivedTime : BlockHash → Int
  /-- `nStatus.isInvalid()`. -/
  isInvalid : BlockHash → Bool

variable (pindexFinalized : Option CBlockIndex)

/-- `IsBlockFinalized`. -/
def isBlockFinalized (pindex : CBlockIndex) : Bool :=
  match pindexFinalized with
  | none => false
  | some finalized => finalized.getAncestor pindex.nHeight == some pindex

/-- The loop of `FindBlockToFinalize` over a candidate and its ancestors. -/
def finalizeLoop (fin : FinalizationEnv) (pindexFinalized : Option CBlockIndex) :
    List CBlockIndex → Option CBlockIndex
  | [] => none
  | pindex :: rest =>
    if some pindex = pindexFinalized then none
    else if fin.now ≥ fin.headerReceivedTime pindex.hash + fin.finalizationdelay then some pindex
    else finalizeLoop fin pindexFinalized rest

/-- `FindBlockToFinalize`. The option is read as an `int32_t` here. -/
def findBlockToFinalize (maxreorgdepth : Int) (fin : FinalizationEnv)
    (pindexFinalized : Option CBlockIndex) (pindexNew : CBlockIndex) : Option CBlockIndex :=
  let pindex := pindexNew.getAncestor (pindexNew.nHeight - toInt32 maxreorgdepth)
  if fin.now < fin.startupTime + fin.finalizationdelay then none
  else
    match pindex with
    | none => none
    | some candidate => finalizeLoop fin pindexFinalized candidate.branch

variable (fin : FinalizationEnv)

/-- `FinalizeBlockInternal`: the finalized block afterwards, or the refusal. -/
def finalizeBlockInternal (pindexFinalized : Option CBlockIndex)
    (pindex : CBlockIndex) : Except Fault (Option CBlockIndex) :=
  if fin.isInvalid pindex.hash then
    .error (.dos 100 "finalize-invalid-block")
  else
    match pindexFinalized with
    | some finalized =>
      if !pindex.areOnTheSameFork finalized then
        .error (.dos 20 "bad-fork-prior-finalized")
      else if isBlockFinalized pindexFinalized pindex then .ok pindexFinalized
      else .ok (some pindex)
    | none => .ok (some pindex)

/-- The part of `ConnectTip` that updates the finalized block. -/
def updateFinalized (maxreorgdepth : Int) (fin : FinalizationEnv)
    (pindexFinalized : Option CBlockIndex) (pindexNew : CBlockIndex) :
    Except Fault (Option CBlockIndex) :=
  match findBlockToFinalize maxreorgdepth fin pindexFinalized pindexNew with
  | none => .ok pindexFinalized
  | some pindexToFinalize => finalizeBlockInternal fin pindexFinalized pindexToFinalize

section Finalize

variable {maxreorgdepth : Int} {fin : FinalizationEnv} {finalized finalized' : Option CBlockIndex}
  {pindex pindexNew : CBlockIndex}

/-- **When `ConnectTip` fails to finalize**: the block it picks is marked invalid, or on another
fork than the finalized block. -/
theorem updateFinalized_error_iff :
    (∃ e, updateFinalized maxreorgdepth fin finalized pindexNew = .error e) ↔
      ∃ pindex, findBlockToFinalize maxreorgdepth fin finalized pindexNew = some pindex ∧
        (fin.isInvalid pindex.hash = true ∨
          ∃ f, finalized = some f ∧ pindex.areOnTheSameFork f = false) := by
  unfold updateFinalized
  cases hfind : findBlockToFinalize maxreorgdepth fin finalized pindexNew with
  | none => simp
  | some pindex =>
    simp only [Option.some.injEq, exists_eq_left']
    unfold finalizeBlockInternal
    cases hinv : fin.isInvalid pindex.hash with
    | true => simp
    | false =>
      cases finalized with
      | none => simp
      | some f =>
        cases hfork : pindex.areOnTheSameFork f with
        | false => simp [hfork]
        | true =>
          simp only [Bool.false_eq_true, if_false, Bool.not_true,
            Option.some.injEq, exists_eq_left',
            hfork, reduceCtorEq, false_or, iff_false]
          rintro ⟨e, he⟩
          split at he <;> cases he

end Finalize

end DeVault
