import DeVault.Lib.MerkleTree
import DeVault.Validation.CheckBlock

/-!
# The merkle root of a block (`consensus/merkle.cpp`)

`ComputeMerkleRoot` replaces a list of hashes by the hashes of its pairs until one is
left. A list of odd length is padded with its last hash, so lists that differ in such
copies have the same root. While it goes, it looks for pairs of equal hashes and
reports them as a mutation.

The pair hash is a parameter. It is assumed to be injective and, where it matters, to
have no value that is a transaction id.
-/

namespace DeVault

open List MerkleTree

section Root

variable {H : Type} [DecidableEq H] [Inhabited H] (hash : H → H → H)

/-- `SHA256D64` over neighbouring pairs. -/
def hashPairs : List H → List H
  | a :: b :: l => hash a b :: hashPairs l
  | _ => []

/-- A list of odd length gets its last hash once more. -/
def padOdd (hashes : List H) : List H :=
  if hashes.length % 2 = 1 then hashes ++ hashes.getLast?.toList else hashes

variable {hash}

omit [DecidableEq H] [Inhabited H] in
theorem padOdd_cons_cons (a b : H) (l : List H) : padOdd (a :: b :: l) = a :: b :: padOdd l := by
  have hlen : (a :: b :: l).length % 2 = l.length % 2 := by
    simp only [length_cons]
    omega
  unfold padOdd
  rw [hlen]
  split
  next hodd =>
    -- an odd rest is not empty, so it has the last hash
    have hne : l ≠ [] := by
      rintro rfl
      cases hodd
    rw [getLast?_cons_cons, getLast?_cons_of_ne_nil hne]
    rfl
  · rfl

omit [DecidableEq H] [Inhabited H] in
/-- One turn of the loop makes one level. -/
theorem hashPairs_padOdd (l : List H) : hashPairs hash (padOdd l) = level hash l := by
  fun_induction level hash l with
  | case1 => rfl
  | case2 a => rfl
  | case3 a b l ih => rw [padOdd_cons_cons, hashPairs, ih]

variable (hash)

/-- The loop of `ComputeMerkleRoot`. The hashes, and whether a mutation was found. -/
def merkleLoop (hashes : List H) (mutation : Bool) : H × Bool :=
  if 1 < hashes.length then
    merkleLoop (hashPairs hash (padOdd hashes)) (mutation || equalPair hashes)
  else (hashes.headD default, mutation)
termination_by hashes.length
decreasing_by
  rw [hashPairs_padOdd, length_level]
  omega

/-- `ComputeMerkleRoot`, with `mutated` given. -/
def computeMerkleRoot (hashes : List H) : H × Bool := merkleLoop hash hashes false

/-- The loop ends at the first level with one node, and reports no mutation exactly if no level had
a pair of equal nodes. -/
theorem merkleLoop_spec {l : List H} (hne : l ≠ []) (m : Bool) :
    ∃ n, (level hash)^[n] l = [(merkleLoop hash l m).1] ∧
      (∀ k < n, 1 < ((level hash)^[k] l).length) ∧
      ((merkleLoop hash l m).2 = false →
        m = false ∧ ∀ k < n, equalPair ((level hash)^[k] l) = false) := by
  fun_induction merkleLoop hash l m with
  | case1 l m hlen ih =>
    rw [hashPairs_padOdd] at ih ⊢
    obtain ⟨n, hroot, hlong, hclean⟩ := ih (fun h => hne (level_eq_nil_iff.mp h))
    refine ⟨n + 1, hroot, fun k hk => ?_, fun h => ?_⟩
    · cases k with
      | zero => exact hlen
      | succ k => exact hlong k (Nat.lt_of_succ_lt_succ hk)
    obtain ⟨hm, hlevels⟩ := hclean h
    rw [Bool.or_eq_false_iff] at hm
    refine ⟨hm.1, fun k hk => ?_⟩
    cases k with
    | zero => exact hm.2
    | succ k => exact hlevels k (Nat.lt_of_succ_lt_succ hk)
  | case2 l m hlen =>
    obtain ⟨a, rfl⟩ : ∃ a, l = [a] := by
      rw [← length_eq_one_iff]
      have := length_pos_iff.mpr hne
      omega
    exact ⟨0, rfl, fun k hk => absurd hk (Nat.not_lt_zero k),
      fun h => ⟨h, fun k hk => absurd hk (Nat.not_lt_zero k)⟩⟩

variable {hash}

omit [Inhabited H] in
/-- Two lists without a mutation and with one root are equal, if the first has no more
levels than the second. -/
theorem eq_of_iterate_level_eq (hinj : PairInjective hash) {l l' : List H} {n n' : Nat}
    (hle : n ≤ n') (hne : l ≠ []) (hleaf : ∀ x ∈ l, ∀ a b, hash a b ≠ x)
    (heq : (level hash)^[n] l = (level hash)^[n'] l')
    (hl : ∀ k < n, equalPair ((level hash)^[k] l) = false)
    (hl' : ∀ k < n', equalPair ((level hash)^[k] l') = false) : l = l' := by
  obtain ⟨d, rfl⟩ := Nat.exists_eq_add_of_le hle
  rw [Function.iterate_add_apply] at heq
  have hsame : l = (level hash)^[d] l' := by
    refine iterate_level_injective hinj heq hl fun k hk => ?_
    rw [← Function.iterate_add_apply]
    exact hl' (k + d) (by omega)
  cases d with
  | zero => exact hsame
  | succ d =>
    -- the leaves of the first list would be nodes of the second
    obtain ⟨x, hx⟩ := exists_mem_of_ne_nil l hne
    have hx' := hx
    rw [hsame, Function.iterate_succ_apply'] at hx'
    obtain ⟨a, b, rfl⟩ := exists_of_mem_level hx'
    exact absurd rfl (hleaf _ hx a b)

theorem eq_of_unmutated (hinj : PairInjective hash) {l l' : List H} (hne : l ≠ [])
    (hne' : l' ≠ []) (hleaf : ∀ x ∈ l ++ l', ∀ a b, hash a b ≠ x)
    (hroot : (computeMerkleRoot hash l).1 = (computeMerkleRoot hash l').1)
    (hl : (computeMerkleRoot hash l).2 = false) (hl' : (computeMerkleRoot hash l').2 = false) :
    l = l' := by
  obtain ⟨n, hn, -, hclean⟩ := merkleLoop_spec hash hne false
  obtain ⟨n', hn', -, hclean'⟩ := merkleLoop_spec hash hne' false
  have heq : (level hash)^[n] l = (level hash)^[n'] l' := by
    rw [hn, hn']
    exact congrArg (fun x => [x]) hroot
  rcases Nat.le_total n n' with hle | hle
  · exact eq_of_iterate_level_eq hinj hle hne
      (fun x hx => hleaf x (mem_append_left _ hx)) heq (hclean hl).2 (hclean' hl').2
  · exact (eq_of_iterate_level_eq hinj hle hne'
      (fun x hx => hleaf x (mem_append_right _ hx)) heq.symm (hclean' hl').2 (hclean hl).2).symm

end Root

/-- `BlockMerkleRoot`, with the flag for repeated transactions. -/
def blockMerkleRoot (hash : TxId → TxId → TxId) (block : CBlock) : TxId × Bool :=
  computeMerkleRoot hash (block.vtx.map CTransaction.getId)

/-- **No ambiguous merkle root goes unnoticed.** Of two lists of ids with the same root, one is
reported as mutated; so two blocks with one root that pass `CheckBlock` have the same ids. -/
theorem computeMerkleRoot_unambiguous (hash : TxId → TxId → TxId) (hinj : PairInjective hash) :
    (∀ l l' : List TxId, l ≠ [] → l' ≠ [] → (∀ x ∈ l ++ l', ∀ a b, hash a b ≠ x) → l ≠ l' →
      (computeMerkleRoot hash l).1 = (computeMerkleRoot hash l').1 →
      (computeMerkleRoot hash l).2 = true ∨ (computeMerkleRoot hash l').2 = true) ∧
    ∀ (env : Env) (block block' : CBlock) (checkPoW : Bool),
      env.blockMerkleRoot = blockMerkleRoot hash →
      (∀ tx ∈ block.vtx ++ block'.vtx, ∀ a b, hash a b ≠ tx.getId) →
      block.hashMerkleRoot = block'.hashMerkleRoot →
      checkBlock env block checkPoW true = .ok () → checkBlock env block' checkPoW true = .ok () →
      block.vtx.map CTransaction.getId = block'.vtx.map CTransaction.getId := by
  constructor
  · intro l l' hne hne' hleaf hdiff hroot
    by_contra hclean
    rw [not_or, Bool.not_eq_true, Bool.not_eq_true] at hclean
    exact hdiff (eq_of_unmutated hinj hne hne' hleaf hroot hclean.1 hclean.2)
  · intro env block block' checkPoW henv hleaf hsame hcheck hcheck'
    -- `CheckBlock` compares the root and refuses mutated lists
    have hmerkle : ∀ b : CBlock, checkBlock env b checkPoW true = .ok () →
        b.hashMerkleRoot = (blockMerkleRoot hash b).1 ∧ (blockMerkleRoot hash b).2 = false ∧
          b.vtx ≠ [] := by
      intro b hb
      have hshape := blockShape_of_checkBlock hb
      unfold checkBlock at hb
      obtain ⟨_, -, hb⟩ := Outcome.bind_ok_iff.mp hb
      obtain ⟨_, hroot, -⟩ := Outcome.bind_ok_iff.mp hb
      unfold checkMerkleRoot at hroot
      rw [henv] at hroot
      simp only [Bool.not_true, Bool.false_eq_true, if_false] at hroot
      split at hroot
      · cases hroot
      next hne =>
      split at hroot
      · cases hroot
      next hmut => exact ⟨not_not.mp hne, by simpa using hmut, hshape.ne_nil⟩
    obtain ⟨hroot, hclean, hne⟩ := hmerkle block hcheck
    obtain ⟨hroot', hclean', hne'⟩ := hmerkle block' hcheck'
    refine eq_of_unmutated hinj (by simpa using hne) (by simpa using hne') ?_
      (hroot.symm.trans (hsame.trans hroot')) hclean hclean'
    rw [← map_append]
    exact forall_mem_map.mpr hleaf

/-- A pair hash on numbers, whose values are at least 10. -/
def pairNumber (a b : TxId) : TxId := Nat.pair a b + 10

theorem pairInjective_pairNumber : PairInjective pairNumber := by
  intro a b c d h
  exact Nat.pair_eq_pair.mp (Nat.add_right_cancel h)

/-- The lists `[1, 2, 3]` and `[1, 2, 3, 3]` have one root. -/
theorem computeMerkleRoot_unambiguous_copy :
    (computeMerkleRoot pairNumber [1, 2, 3]).2 = true ∨
      (computeMerkleRoot pairNumber [1, 2, 3, 3]).2 = true := by
  refine (computeMerkleRoot_unambiguous pairNumber pairInjective_pairNumber).1
    [1, 2, 3] [1, 2, 3, 3]
    (by decide) (by decide) ?_ (by decide) ?_
  · intro x hx a b
    have hsmall : x < 10 := by
      revert x
      decide
    rintro rfl
    exact absurd hsmall (Nat.not_lt.mpr (Nat.le_add_left 10 _))
  · simp [computeMerkleRoot, merkleLoop, hashPairs, padOdd]

end DeVault
