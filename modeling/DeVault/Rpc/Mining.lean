import DeVault.Consensus.Merkle

/-!
# The merkle branch of `getblocktemplatelight` (`rpc/mining.cpp`)

A light template has the hashes between the coinbase and the merkle root instead of the
transactions. `MakeMerkleBranch` computes them before the coinbase is known: its list is a
level of the tree without the first node, so it is padded where a level is not.
-/

namespace DeVault

open List MerkleTree

section Branch

variable {H : Type} [DecidableEq H] [Inhabited H] (hash : H → H → H)

variable (hashes : List H)

/-- One turn of the inner loop: the hash of the pair at `i * 2 + 1` is written to place `i`. -/
def mergeStep (i : Nat) : List H :=
  hashes.set i (hash (hashes.getD (i * 2 + 1) default) (hashes.getD (i * 2 + 2) default))

/-- The inner loop, and the `resize` to what it has written. -/
def mergePairs : List H :=
  let reducedSize := (hashes.length - 1) / 2
  ((range reducedSize).foldl (mergeStep hash) hashes).take reducedSize

/-- A list of even length gets its last hash once more. -/
def padEven : List H :=
  if hashes.length % 2 = 0 then hashes ++ hashes.getLast?.toList else hashes

omit [DecidableEq H] in
theorem length_mergePairs_padEven {hashes : List H} (hlen : 1 < hashes.length) :
    (mergePairs hash (padEven hashes)).length < hashes.length := by
  have hpad : (padEven hashes).length ≤ hashes.length + 1 := by
    rw [padEven]
    cases hashes.getLast? <;> split <;> simp
  refine lt_of_le_of_lt (length_take_le _ _) ?_
  omega

/-- The loop of `MakeMerkleBranch`. It fails where the assertion after it does. -/
def merkleBranchLoop (hashes steps : List H) : Option (List H) :=
  if 1 < hashes.length then
    merkleBranchLoop (mergePairs hash (padEven hashes)) (steps ++ hashes.head?.toList)
  else
    match hashes with
    | [h] => some (steps ++ [h])
    | _ => none
termination_by hashes.length
decreasing_by exact length_mergePairs_padEven hash ‹_›

/-- `gbtl::MakeMerkleBranch`. -/
def makeMerkleBranch : Option (List H) :=
  if hashes.isEmpty then some [] else merkleBranchLoop hash hashes []

variable {hash}

omit [DecidableEq H] [Inhabited H] in
theorem padEven_cons (h : H) {t : List H} (ht : t ≠ []) : padEven (h :: t) = h :: padOdd t := by
  rw [padEven, padOdd, length_cons, getLast?_cons_of_ne_nil ht]
  by_cases hodd : t.length % 2 = 1
  · rw [if_pos hodd, if_pos (by omega), cons_append]
  · rw [if_neg hodd, if_neg (by omega)]

omit [DecidableEq H] [Inhabited H] in
theorem length_padOdd (l : List H) : (padOdd l).length % 2 = 0 := by
  rw [padOdd]
  split
  next hodd =>
    have hne : l ≠ [] := by
      rintro rfl
      cases hodd
    rw [getLast?_eq_some_getLast hne, Option.toList_some, length_append, length_singleton]
    omega
  · omega

omit [DecidableEq H] in
/-- After `k` turns the first `k` places hold nodes of the next level, and the pairs still to
be read are behind them. -/
theorem getElem?_foldl_mergeStep (h : H) (p : List H) {k : Nat} (hk : 2 * k ≤ p.length) (j : Nat) :
    ((range k).foldl (mergeStep hash) (h :: p))[j]? =
      if j < k then (level hash p)[j]? else (h :: p)[j]? := by
  induction k generalizing j with
  | zero => simp
  | succ k ih =>
    have hread : ∀ i, k ≤ i →
        ((range k).foldl (mergeStep hash) (h :: p)).getD (i + 1) default =
          p.getD i default := by
      intro i hi
      rw [getD_eq_getElem?_getD, ih (by omega), if_neg (by omega), getElem?_cons_succ,
        getD_eq_getElem?_getD]
    rw [range_succ, foldl_append, foldl_cons, foldl_nil, mergeStep,
      hread (k * 2) (by omega), hread (k * 2 + 1) (by omega), getElem?_set', ih (by omega)]
    rcases lt_trichotomy j k with hlt | rfl | hgt
    · rw [if_neg hlt.ne', if_pos hlt, if_pos (by omega)]
    · have h₀ : j < (h :: p).length := by simp; omega
      have h₁ : 2 * j < p.length := by omega
      have h₂ : 2 * j + 1 < p.length := by omega
      rw [if_pos rfl, if_neg (lt_irrefl j), if_pos (Nat.lt_succ_self j), getElem?_level,
        getElem?_eq_getElem h₀, getElem?_eq_getElem h₁, getElem?_eq_getElem h₂,
        mul_comm j 2, getD_eq_getElem _ _ h₁, getD_eq_getElem _ _ h₂]
      rfl
    · rw [if_neg hgt.ne, if_neg (by omega), if_neg (by omega)]

omit [DecidableEq H] in
/-- **The inner loop** joins the pairs behind the first hash. -/
theorem mergePairs_cons (h : H) {p : List H} (hp : p.length % 2 = 0) :
    mergePairs hash (h :: p) = hashPairs hash p := by
  have hpairs : hashPairs hash p = level hash p := by
    rw [← hashPairs_padOdd, padOdd, if_neg (by omega)]
  have hsize : ((h :: p).length - 1) / 2 = (level hash p).length := by
    rw [length_level, length_cons]
    omega
  refine ext_getElem? fun j => ?_
  rw [hpairs, mergePairs, hsize, getElem?_take]
  split
  next hj => rw [getElem?_foldl_mergeStep h p (by rw [length_level]; omega), if_pos hj]
  next hj => rw [getElem?_eq_none (not_lt.mp hj)]

/-- **The loop.** The hashes that it appends lead from the missing node of this level to the
root, whichever node that is. -/
theorem merkleBranchLoop_spec {hashes : List H} (hne : hashes ≠ []) (steps : List H) :
    ∃ rest, merkleBranchLoop hash hashes steps = some (steps ++ rest) ∧
      ∀ c m, rest.foldl hash c = (merkleLoop hash (c :: hashes) m).1 := by
  fun_induction merkleBranchLoop hash hashes steps with
  | case1 hashes steps hlen ih =>
    obtain ⟨h, t, rfl⟩ := exists_cons_of_ne_nil hne
    have ht : t ≠ [] := by
      rintro rfl
      exact absurd hlen (by simp)
    have hnext : mergePairs hash (padEven (h :: t)) = level hash t := by
      rw [padEven_cons h ht, mergePairs_cons h (length_padOdd t), hashPairs_padOdd]
    rw [hnext] at ih ⊢
    obtain ⟨rest, hrest, hroot⟩ := ih (fun h => ht (level_eq_nil_iff.mp h))
    refine ⟨h :: rest, by simpa using hrest, fun c m => ?_⟩
    rw [merkleLoop, if_pos (by simp), hashPairs_padOdd, level, foldl_cons]
    exact hroot _ _
  | case2 steps h hlen =>
    refine ⟨[h], rfl, fun c m => ?_⟩
    rw [merkleLoop, if_pos (by simp), hashPairs_padOdd, merkleLoop, if_neg (by simp [level])]
    rfl
  | case3 hashes steps hlen hone =>
    obtain ⟨h, t, rfl⟩ := exists_cons_of_ne_nil hne
    cases t with
    | nil => exact absurd rfl (hone h)
    | cons a t => exact absurd hlen (by simp)

end Branch

/-- **The branch leads to the merkle root.** It is made without the coinbase, and folding it from
any coinbase id gives the root of the whole list, and so the one that `CheckBlock` wants. -/
theorem makeMerkleBranch_root (hash : TxId → TxId → TxId) :
    (∀ hashes, ∃ steps, makeMerkleBranch hash hashes = some steps ∧
      ∀ c, steps.foldl hash c = (computeMerkleRoot hash (c :: hashes)).1) ∧
    ∀ (block : CBlock) (vtx : List CTransaction),
      ∃ steps, makeMerkleBranch hash (vtx.map CTransaction.getId) = some steps ∧
        ∀ coinbase : CTransaction, steps.foldl hash coinbase.getId =
          (blockMerkleRoot hash { block with vtx := coinbase :: vtx }).1 := by
  have hbranch : ∀ hashes, ∃ steps, makeMerkleBranch hash hashes = some steps ∧
      ∀ c, steps.foldl hash c = (computeMerkleRoot hash (c :: hashes)).1 := by
    intro hashes
    rw [makeMerkleBranch]
    cases hashes with
    | nil => exact ⟨[], rfl, fun c => by simp [computeMerkleRoot, merkleLoop]⟩
    | cons h t =>
      obtain ⟨rest, hrest, hroot⟩ :=
        merkleBranchLoop_spec (cons_ne_nil h t) []
      exact ⟨rest, hrest, fun c => hroot c false⟩
  refine ⟨hbranch, fun block vtx => ?_⟩
  obtain ⟨steps, hsteps, hroot⟩ := hbranch (vtx.map CTransaction.getId)
  exact ⟨steps, hsteps, fun coinbase => hroot coinbase.getId⟩

end DeVault
