import DeVault.Consensus.Merkle

/-!
# Partial merkle trees (`merkleblock.cpp`)

A `CPartialMerkleTree` proves to a light client that some transactions are in a block. It
is a walk through the merkle tree of the block in depth-first order: one bit for each node
visited, which says whether a matched transaction is below it, and one hash for each node
at which the walk stops.
-/

namespace DeVault

open Function List MerkleTree

/-- `CPartialMerkleTree`. -/
structure CPartialMerkleTree (H : Type) where
  nTransactions : Nat
  vBits : List Bool
  vHash : List H
  fBad : Bool
  deriving DecidableEq, Repr

/-- `CalcTreeWidth`. The sum is an `uint32_t`. -/
def calcTreeWidth (nTransactions height : Nat) : Nat :=
  (nTransactions + 2 ^ height - 1) % 2 ^ 32 / 2 ^ height

theorem exists_calcTreeWidth (nTransactions : Nat) :
    ∃ height, ¬ 1 < calcTreeWidth nTransactions height := by
  refine ⟨32, ?_⟩
  have hlt := Nat.mod_lt (nTransactions + 2 ^ 32 - 1) (Nat.two_pow_pos 32)
  rw [calcTreeWidth, Nat.div_eq_of_lt hlt]
  exact Nat.not_lt_zero 1

/-- The loop that counts `nHeight` up while the width is more than 1. -/
def treeHeight (nTransactions : Nat) : Nat := Nat.find (exists_calcTreeWidth nTransactions)

section Tree

variable {H : Type} [DecidableEq H] [Inhabited H] (hash : H → H → H)

/-- `CalcHash`. -/
def calcHash (nTransactions : Nat) (vTxid : List H) : Nat → Nat → H
  | 0, pos => vTxid.getD pos default
  | height + 1, pos =>
    let left := calcHash nTransactions vTxid height (pos * 2)
    let right :=
      if pos * 2 + 1 < calcTreeWidth nTransactions height then
        calcHash nTransactions vTxid height (pos * 2 + 1)
      else left
    hash left right

/-- The loop at the start of `TraverseAndBuild`: a matched transaction is below the node. -/
def parentOfMatch (nTransactions : Nat) (vMatch : List Bool) (height pos : Nat) : Bool :=
  (range' (pos * 2 ^ height) (2 ^ height)).any fun p =>
    decide (p < nTransactions) && vMatch.getD p false

/-- `TraverseAndBuild`: what it appends to `vBits` and to `vHash`. -/
def traverseAndBuild (nTransactions : Nat) (vTxid : List H) (vMatch : List Bool) :
    Nat → Nat → List Bool × List H
  | 0, pos =>
    ([parentOfMatch nTransactions vMatch 0 pos], [calcHash hash nTransactions vTxid 0 pos])
  | height + 1, pos =>
    if parentOfMatch nTransactions vMatch (height + 1) pos then
      let left := traverseAndBuild nTransactions vTxid vMatch height (pos * 2)
      let right :=
        if pos * 2 + 1 < calcTreeWidth nTransactions height then
          traverseAndBuild nTransactions vTxid vMatch height (pos * 2 + 1)
        else ([], [])
      (true :: (left.1 ++ right.1), left.2 ++ right.2)
    else ([false], [calcHash hash nTransactions vTxid (height + 1) pos])

/-- The constructor of `CPartialMerkleTree` from ids and matches. The number of ids goes
into an `uint32_t`. -/
def CPartialMerkleTree.build (vTxid : List H) (vMatch : List Bool) : CPartialMerkleTree H :=
  let nTransactions := vTxid.length % 2 ^ 32
  let built := traverseAndBuild hash nTransactions vTxid vMatch (treeHeight nTransactions) 0
  { nTransactions := nTransactions, vBits := built.1, vHash := built.2, fBad := false }

/-- What `TraverseAndExtract` changes: the two cursors, the matches with their positions and
the flag for invalid data. -/
structure ExtractState (H : Type) where
  nBitsUsed : Nat
  nHashUsed : Nat
  vMatch : List H
  vnIndex : List Nat
  fBad : Bool
  deriving DecidableEq, Repr

/-- The branch of `TraverseAndExtract` that does not descend. -/
def takeHash (tree : CPartialMerkleTree H) (pos : Nat) (matched : Bool) (s : ExtractState H) :
    H × ExtractState H :=
  match tree.vHash[s.nHashUsed]? with
  | none => (default, { s with fBad := true })
  | some x =>
    let s := { s with nHashUsed := s.nHashUsed + 1 }
    if matched then
      (x, { s with vMatch := s.vMatch ++ [x], vnIndex := s.vnIndex ++ [pos] })
    else (x, s)

/-- `TraverseAndExtract`. -/
def traverseAndExtract (tree : CPartialMerkleTree H) :
    Nat → Nat → ExtractState H → H × ExtractState H
  | 0, pos, s =>
    match tree.vBits[s.nBitsUsed]? with
    | none => (default, { s with fBad := true })
    | some fParentOfMatch =>
      takeHash tree pos fParentOfMatch { s with nBitsUsed := s.nBitsUsed + 1 }
  | height + 1, pos, s =>
    match tree.vBits[s.nBitsUsed]? with
    | none => (default, { s with fBad := true })
    | some false => takeHash tree pos false { s with nBitsUsed := s.nBitsUsed + 1 }
    | some true =>
      let left := traverseAndExtract tree height (pos * 2) { s with nBitsUsed := s.nBitsUsed + 1 }
      if pos * 2 + 1 < calcTreeWidth tree.nTransactions height then
        let right := traverseAndExtract tree height (pos * 2 + 1) left.2
        -- identical branches would cover the same transactions
        (hash left.1 right.1, { right.2 with fBad := right.2.fBad || right.1 == left.1 })
      else (hash left.1 left.1, left.2)

/-- `ExtractMatches`: the root, or the null hash in case of failure, and the matches with
their positions. -/
def extractMatches (tree : CPartialMerkleTree H) : H × List H × List Nat :=
  if tree.nTransactions = 0 then (default, [], [])
  else if tree.nTransactions < tree.vHash.length then (default, [], [])
  else if tree.vBits.length < tree.vHash.length then (default, [], [])
  else
    let walk := traverseAndExtract hash tree (treeHeight tree.nTransactions) 0
      ⟨0, 0, [], [], tree.fBad⟩
    let s := walk.2
    if s.fBad then (default, s.vMatch, s.vnIndex)
    else if (s.nBitsUsed + 7) / 8 ≠ (tree.vBits.length + 7) / 8 then (default, s.vMatch, s.vnIndex)
    else if s.nHashUsed ≠ tree.vHash.length then (default, s.vMatch, s.vnIndex)
    else (walk.1, s.vMatch, s.vnIndex)

/-! ### The tree over a list of ids

Up to `2 ^ 31` ids the sum in `CalcTreeWidth` does not overflow, and the widths, heights
and hashes are those of the levels of the tree. -/

section Levels

variable {hash} {l : List H}

omit [DecidableEq H] [Inhabited H] in
theorem calcTreeWidth_eq (hlen : l.length ≤ 2 ^ 31) {h : Nat} (hh : h ≤ 31) :
    calcTreeWidth l.length h = ((level hash)^[h] l).length := by
  have hpow : 2 ^ h ≤ 2 ^ 31 := Nat.pow_le_pow_right (by omega) hh
  rw [calcTreeWidth, length_iterate_level, Nat.mod_eq_of_lt (by omega)]

/-- A position is on a level exactly if its first leaf is in the list. -/
theorem lt_calcTreeWidth_iff {n : Nat} (hn : n ≤ 2 ^ 31) {h pos : Nat} (hh : h ≤ 31) :
    pos < calcTreeWidth n h ↔ pos * 2 ^ h < n := by
  have hpow : 2 ^ h ≤ 2 ^ 31 := Nat.pow_le_pow_right (by omega) hh
  have hpos : 0 < 2 ^ h := Nat.two_pow_pos h
  rw [calcTreeWidth, Nat.mod_eq_of_lt (by omega), ← Nat.succ_le_iff, Nat.le_div_iff_mul_le hpos,
    Nat.succ_mul]
  omega

/-- Every node above the leaves has a left child. -/
theorem left_lt_calcTreeWidth {n : Nat} (hn : n ≤ 2 ^ 31) {h pos : Nat} (hh : h + 1 ≤ 31)
    (hpos : pos < calcTreeWidth n (h + 1)) : pos * 2 < calcTreeWidth n h := by
  rw [lt_calcTreeWidth_iff hn hh, pow_succ'] at hpos
  rw [lt_calcTreeWidth_iff hn (by omega)]
  linarith

theorem treeHeight_le {n : Nat} (hn : n ≤ 2 ^ 31) : treeHeight n ≤ 31 := by
  refine Nat.find_min' _ fun h => ?_
  rw [lt_calcTreeWidth_iff hn le_rfl] at h
  omega

omit [DecidableEq H] in
/-- **`CalcHash` computes the nodes of the tree.** -/
theorem getElem?_iterate_level (hlen : l.length ≤ 2 ^ 31) {h pos : Nat} (hh : h ≤ 31)
    (hpos : pos < calcTreeWidth l.length h) :
    ((level hash)^[h] l)[pos]? = some (calcHash hash l.length l h pos) := by
  induction h generalizing pos with
  | zero =>
    rw [lt_calcTreeWidth_iff hlen hh, pow_zero, mul_one] at hpos
    simp [calcHash, getD_eq_getElem?_getD, getElem?_eq_getElem hpos]
  | succ h ih =>
    have hleft := left_lt_calcTreeWidth hlen hh hpos
    rw [iterate_succ_apply', getElem?_level, calcHash, mul_comm 2 pos, ih (by omega) hleft]
    split
    next hright => rw [ih (by omega) hright]; rfl
    next hright =>
      rw [calcTreeWidth_eq hlen (by omega)] at hright
      rw [getElem?_eq_none (Nat.not_lt.mp hright)]
      rfl

/-- The node at the top is the merkle root. -/
theorem calcHash_treeHeight (hlen : l.length ≤ 2 ^ 31) (hne : l ≠ []) :
    calcHash hash l.length l (treeHeight l.length) 0 = (computeMerkleRoot hash l).1 := by
  obtain ⟨n, hroot, hlong, -⟩ := merkleLoop_spec hash hne false
  have hle := treeHeight_le hlen
  have htop : ¬ 1 < calcTreeWidth l.length (treeHeight l.length) :=
    Nat.find_spec (exists_calcTreeWidth l.length)
  have hheight : treeHeight l.length = n := by
    rcases Nat.lt_trichotomy (treeHeight l.length) n with hlt | heq | hgt
    · -- the loop over the hashes would not have stopped later
      rw [calcTreeWidth_eq hlen hle] at htop
      exact absurd (hlong _ hlt) htop
    · exact heq
    · have hwide := Nat.find_min (exists_calcTreeWidth l.length) hgt
      rw [not_not, calcTreeWidth_eq hlen (by omega), hroot] at hwide
      exact absurd hwide (Nat.lt_irrefl 1)
  have hpos : 0 < calcTreeWidth l.length (treeHeight l.length) := by
    rw [lt_calcTreeWidth_iff hlen hle, Nat.zero_mul]
    exact length_pos_iff.mpr hne
  have hnode : ((level hash)^[treeHeight l.length] l)[0]? = some _ :=
    getElem?_iterate_level hlen hle hpos
  rw [hheight, hroot] at hnode
  rw [hheight]
  exact (Option.some.inj hnode).symm

end Levels

/-! ### What was built is extracted -/

section RoundTrip

/-- The positions of the matched transactions below a node. -/
def matchedBelow (n : Nat) (vMatch : List Bool) (h pos : Nat) : List Nat :=
  (range' (pos * 2 ^ h) (2 ^ h)).filter fun p => decide (p < n) && vMatch.getD p false

variable {n h pos : Nat} {vMatch : List Bool}

theorem parentOfMatch_eq_false_iff :
    parentOfMatch n vMatch h pos = false ↔ matchedBelow n vMatch h pos = [] := by
  simp only [parentOfMatch, matchedBelow, any_eq_false, filter_eq_nil_iff]

/-- The matches below a node are those below its children. -/
theorem matchedBelow_succ : matchedBelow n vMatch (h + 1) pos =
    matchedBelow n vMatch h (pos * 2) ++ matchedBelow n vMatch h (pos * 2 + 1) := by
  have hstart : pos * 2 ^ (h + 1) = pos * 2 * 2 ^ h := by rw [pow_succ']; ring
  have hmid : (pos * 2 + 1) * 2 ^ h = pos * 2 * 2 ^ h + 1 * 2 ^ h := by ring
  have hsize : 2 ^ (h + 1) = 2 ^ h + 2 ^ h := by rw [pow_succ']; ring
  rw [matchedBelow, matchedBelow, matchedBelow, ← filter_append, hstart, hmid, hsize, one_mul]
  congr 1
  rw [← range'_append_1]

theorem matchedBelow_eq_nil (hn : n ≤ 2 ^ 31) (hh : h ≤ 31) (hpos : ¬ pos < calcTreeWidth n h) :
    matchedBelow n vMatch h pos = [] := by
  rw [lt_calcTreeWidth_iff hn hh] at hpos
  rw [matchedBelow, filter_eq_nil_iff]
  intro p hp
  rw [mem_range'_1] at hp
  have hout : ¬ p < n := by omega
  simp [hout]

variable {hash} {l : List H}

omit [DecidableEq H] in
/-- The sizes of what is built: at least as many bits as hashes, and at most as many hashes as
leaves. -/
theorem length_traverseAndBuild (hn : n ≤ 2 ^ 31) (hh : h ≤ 31) (hpos : pos < calcTreeWidth n h) :
    let built := traverseAndBuild hash n l vMatch h pos
    built.2.length ≤ built.1.length ∧ built.2.length ≤ min (2 ^ h) (n - pos * 2 ^ h) := by
  have hfirst := (lt_calcTreeWidth_iff hn hh).mp hpos
  induction h generalizing pos with
  | zero =>
    simp only [traverseAndBuild, length_singleton]
    omega
  | succ h ih =>
    have hsize : 2 ^ (h + 1) = 2 * 2 ^ h := pow_succ' 2 h
    have hstart : pos * 2 ^ (h + 1) = pos * 2 * 2 ^ h := by rw [hsize]; ring
    have hmid : (pos * 2 + 1) * 2 ^ h = pos * 2 * 2 ^ h + 2 ^ h := by ring
    rw [traverseAndBuild]
    split
    · have hleft := left_lt_calcTreeWidth hn hh hpos
      obtain ⟨hl₁, hl₂⟩ := ih (by omega) hleft (by rwa [hstart] at hfirst)
      simp only [length_cons, length_append]
      rw [hstart, hsize]
      split
      next hright =>
        obtain ⟨hr₁, hr₂⟩ := ih (by omega) hright ((lt_calcTreeWidth_iff hn (by omega)).mp hright)
        rw [hmid] at hr₂
        omega
      next hright =>
        simp only [length_nil]
        omega
    · simp only [length_singleton]
      have := Nat.two_pow_pos (h + 1)
      omega

/-- The state after a walk over what was built for a node: the cursors are behind it, and its
matches are added. -/
def ExtractState.after (s : ExtractState H) (l : List H) (built : List Bool × List H)
    (positions : List Nat) : ExtractState H where
  nBitsUsed := s.nBitsUsed + built.1.length
  nHashUsed := s.nHashUsed + built.2.length
  vMatch := s.vMatch ++ positions.map fun p => l.getD p default
  vnIndex := s.vnIndex ++ positions
  fBad := s.fBad

omit [DecidableEq H] [Inhabited H] in
theorem getElem?_of_drop {α : Type} {l rest : List α} {k : Nat} {x : α} (h : l.drop k = x :: rest) :
    l[k]? = some x ∧ l.drop (k + 1) = rest := by
  constructor
  · rw [← head?_drop, h]
    rfl
  · rw [← tail_drop, h]
    rfl

omit [DecidableEq H] in
/-- The walk stops at a node without matches, and at every leaf. -/
theorem takeHash_of_drop {tree : CPartialMerkleTree H} (s : ExtractState H) {x : H} {rest : List H}
    (hhash : tree.vHash.drop s.nHashUsed = x :: rest) (matched : Bool) :
    takeHash tree pos matched s =
      (x, { s with
        nHashUsed := s.nHashUsed + 1
        vMatch := s.vMatch ++ if matched then [x] else []
        vnIndex := s.vnIndex ++ if matched then [pos] else [] }) := by
  rw [takeHash, (getElem?_of_drop hhash).1]
  cases matched <;> simp

omit [DecidableEq H] in
/-- The two children of a node are different, as all leaves are. -/
theorem calcHash_ne_sibling (hinj : PairInjective hash) (hnd : l.Nodup)
    (hlen : l.length ≤ 2 ^ 31) (hh : h ≤ 31) (hleft : pos * 2 < calcTreeWidth l.length h)
    (hright : pos * 2 + 1 < calcTreeWidth l.length h) :
    calcHash hash l.length l h (pos * 2 + 1) ≠ calcHash hash l.length l h (pos * 2) := by
  intro heq
  have hsame : ((level hash)^[h] l)[pos * 2 + 1]? = ((level hash)^[h] l)[pos * 2]? := by
    rw [getElem?_iterate_level hlen hh hleft, getElem?_iterate_level hlen hh hright, heq]
  have hin : pos * 2 + 1 < ((level hash)^[h] l).length := by rwa [← calcTreeWidth_eq hlen hh]
  exact absurd ((getElem?_inj hin (nodup_iterate_level hinj hnd h)).mp hsame) (by omega)

/-- **Extraction undoes the building of a node.** If what was built for the node stands at the
cursors, the walk finds the hash of the node and its matches, leaves the cursors behind it, and
finds nothing bad. -/
theorem traverseAndExtract_build (hinj : PairInjective hash) (hnd : l.Nodup)
    (hlen : l.length ≤ 2 ^ 31) {tree : CPartialMerkleTree H}
    (htree : tree.nTransactions = l.length) (hh : h ≤ 31) (hpos : pos < calcTreeWidth l.length h)
    {s : ExtractState H} {bits : List Bool} {hashes : List H} (hbits : tree.vBits.drop s.nBitsUsed =
      (traverseAndBuild hash l.length l vMatch h pos).1 ++ bits)
    (hhashes : tree.vHash.drop s.nHashUsed =
      (traverseAndBuild hash l.length l vMatch h pos).2 ++ hashes) :
    traverseAndExtract hash tree h pos s =
      (calcHash hash l.length l h pos, s.after l (traverseAndBuild hash l.length l vMatch h pos)
          (matchedBelow l.length vMatch h pos)) := by
  induction h generalizing pos s bits hashes with
  | zero =>
    rw [lt_calcTreeWidth_iff hlen hh, pow_zero, mul_one] at hpos
    have hmatched : matchedBelow l.length vMatch 0 pos =
        if parentOfMatch l.length vMatch 0 pos then [pos] else [] := by
      simp [matchedBelow, parentOfMatch, filter_cons]
    rw [traverseAndExtract, (getElem?_of_drop hbits).1]
    simp only
    rw [takeHash_of_drop { s with nBitsUsed := s.nBitsUsed + 1 } hhashes, hmatched]
    cases parentOfMatch l.length vMatch 0 pos <;>
      simp [ExtractState.after, traverseAndBuild, calcHash]
  | succ h ih =>
    rw [traverseAndBuild] at hbits hhashes ⊢
    cases hparent : parentOfMatch l.length vMatch (h + 1) pos with
    | false =>
      rw [hparent] at hbits hhashes
      simp only [Bool.false_eq_true, if_false] at hbits hhashes ⊢
      rw [traverseAndExtract, (getElem?_of_drop hbits).1]
      simp only
      rw [takeHash_of_drop { s with nBitsUsed := s.nBitsUsed + 1 } hhashes,
        parentOfMatch_eq_false_iff.mp hparent]
      simp [ExtractState.after]
    | true =>
      rw [hparent] at hbits hhashes
      simp only [if_true] at hbits hhashes ⊢
      rw [cons_append, append_assoc] at hbits
      rw [append_assoc] at hhashes
      obtain ⟨hbit, hbits⟩ := getElem?_of_drop hbits
      have hleft := left_lt_calcTreeWidth hlen hh hpos
      have hwalk := ih (by omega) hleft (s := { s with nBitsUsed := s.nBitsUsed + 1 }) hbits hhashes
      rw [traverseAndExtract, hbit]
      simp only
      rw [hwalk, htree, calcHash, matchedBelow_succ]
      split
      next hright =>
        -- the second walk starts where the first one stopped
        rw [if_pos hright] at hbits hhashes
        have hbits' := congrArg (List.drop
          (traverseAndBuild hash l.length l vMatch h (pos * 2)).1.length) hbits
        have hhashes' := congrArg (List.drop
          (traverseAndBuild hash l.length l vMatch h (pos * 2)).2.length) hhashes
        rw [drop_drop, drop_left] at hbits' hhashes'
        have hwalk' := ih (by omega) hright
          (s := ExtractState.after { s with nBitsUsed := s.nBitsUsed + 1 } l
            (traverseAndBuild hash l.length l vMatch h (pos * 2))
            (matchedBelow l.length vMatch h (pos * 2))) hbits' hhashes'
        have hne := calcHash_ne_sibling hinj hnd hlen (by omega) hleft hright
        rw [hwalk']
        simp [ExtractState.after, hne, Nat.add_assoc, Nat.add_comm 1]
      next hright =>
        rw [matchedBelow_eq_nil hlen (by omega) hright]
        simp [ExtractState.after, Nat.add_assoc, Nat.add_comm 1]

end RoundTrip

/-! ### What is extracted is in the list -/

section Sound

variable {hash} {l : List H} {tree : CPartialMerkleTree H}

/-- From `s` to `s'` nothing bad was found, and the matches that were added are in `l`. -/
def FoundIn (l : List H) (s s' : ExtractState H) : Prop :=
  ∃ found : List (H × Nat), s'.vMatch = s.vMatch ++ found.map Prod.fst ∧
    s'.vnIndex = s.vnIndex ++ found.map Prod.snd ∧ ∀ p ∈ found, l[p.2]? = some p.1

omit [DecidableEq H] [Inhabited H] in
theorem FoundIn.trans {s₁ s₂ s₃ : ExtractState H} (h₁ : FoundIn l s₁ s₂) (h₂ : FoundIn l s₂ s₃) :
    FoundIn l s₁ s₃ := by
  obtain ⟨found₁, hmatch₁, hindex₁, hin₁⟩ := h₁
  obtain ⟨found₂, hmatch₂, hindex₂, hin₂⟩ := h₂
  refine ⟨found₁ ++ found₂, ?_, ?_, ?_⟩
  · rw [hmatch₂, hmatch₁, map_append, append_assoc]
  · rw [hindex₂, hindex₁, map_append, append_assoc]
  · intro p hp
    rcases mem_append.mp hp with hp | hp
    · exact hin₁ p hp
    · exact hin₂ p hp

omit [DecidableEq H] in
/-- A hash is added as a match only at a matched leaf. -/
theorem takeHash_found {pos : Nat} {matched : Bool} {s : ExtractState H}
    (hbad : (takeHash tree pos matched s).2.fBad = false)
    (hleaf : matched = true → l[pos]? = some (takeHash tree pos matched s).1) :
    s.fBad = false ∧ FoundIn l s (takeHash tree pos matched s).2 := by
  unfold takeHash at hbad hleaf ⊢
  cases hx : tree.vHash[s.nHashUsed]? with
  | none =>
    rw [hx] at hbad
    cases hbad
  | some x =>
    rw [hx] at hbad hleaf
    cases matched with
    | false => exact ⟨hbad, [], by simp, by simp, by simp⟩
    | true => exact ⟨hbad, [(x, pos)], by simp, by simp, by simpa using hleaf rfl⟩

/-- **Extraction is sound at each node.** Nothing is assumed of the bits and hashes. If no bad data
was found and the hash is that of the node in the tree over `l`, the matches are in `l`: the pair
hash determines the hashes of both children. -/
theorem traverseAndExtract_sound (hinj : PairInjective hash) (hlen : l.length ≤ 2 ^ 31)
    (htree : tree.nTransactions = l.length) {h pos : Nat} (hh : h ≤ 31)
    (hpos : pos < calcTreeWidth l.length h) {s : ExtractState H}
    (hbad : (traverseAndExtract hash tree h pos s).2.fBad = false)
    (hnode : (traverseAndExtract hash tree h pos s).1 = calcHash hash l.length l h pos) :
    s.fBad = false ∧ FoundIn l s (traverseAndExtract hash tree h pos s).2 := by
  induction h generalizing pos s with
  | zero =>
    have hin : ((level hash)^[0] l)[pos]? = some _ := getElem?_iterate_level hlen hh hpos
    rw [← hnode] at hin
    rw [traverseAndExtract] at hbad hin ⊢
    cases hbit : tree.vBits[s.nBitsUsed]? with
    | none =>
      rw [hbit] at hbad
      cases hbad
    | some fParentOfMatch =>
      rw [hbit] at hbad hin
      exact takeHash_found hbad fun _ => hin
  | succ h ih =>
    rw [calcHash] at hnode
    rw [traverseAndExtract] at hbad hnode ⊢
    cases hbit : tree.vBits[s.nBitsUsed]? with
    | none =>
      rw [hbit] at hbad
      cases hbad
    | some fParentOfMatch =>
      rw [hbit] at hbad hnode
      cases fParentOfMatch with
      | false => exact takeHash_found hbad fun h => absurd h Bool.false_ne_true
      | true =>
        have hleft := left_lt_calcTreeWidth hlen hh hpos
        simp only [htree] at hbad hnode ⊢
        by_cases hright : pos * 2 + 1 < calcTreeWidth l.length h
        · simp only [if_pos hright, Bool.or_eq_false_iff] at hbad hnode ⊢
          -- the right child is walked last, so its state is known first
          obtain ⟨hl, hr⟩ := hinj _ _ _ _ hnode
          obtain ⟨hmid, hfound⟩ := ih (by omega) hright hbad.1 hr
          obtain ⟨hstart, hfound'⟩ := ih (by omega) hleft hmid hl
          exact ⟨hstart, hfound'.trans hfound⟩
        · simp only [if_neg hright] at hbad hnode ⊢
          exact ih (by omega) hleft hbad (hinj _ _ _ _ hnode).1

end Sound

/-! ### Both directions -/

section Extract

variable {hash} {l : List H}

/-- If extraction does not fail, it gives what the walk found, and nothing was bad. -/
theorem extractMatches_of_ne {tree : CPartialMerkleTree H}
    (hne : (extractMatches hash tree).1 ≠ default) :
    let walk := traverseAndExtract hash tree (treeHeight tree.nTransactions) 0
      ⟨0, 0, [], [], tree.fBad⟩
    tree.nTransactions ≠ 0 ∧ walk.2.fBad = false ∧
      extractMatches hash tree = (walk.1, walk.2.vMatch, walk.2.vnIndex) := by
  unfold extractMatches at hne ⊢
  split at hne
  · exact absurd rfl hne
  next hzero =>
  split at hne
  · exact absurd rfl hne
  next hhashes =>
  split at hne
  · exact absurd rfl hne
  next hbits =>
  simp only at hne ⊢
  split at hne
  · exact absurd rfl hne
  next hbad =>
  split at hne
  · exact absurd rfl hne
  next hused =>
  split at hne
  · exact absurd rfl hne
  next hused' =>
  refine ⟨hzero, Bool.eq_false_iff.mpr hbad, ?_⟩
  rw [if_neg hzero, if_neg hhashes, if_neg hbits, if_neg hbad, if_neg hused, if_neg hused']

/-- All positions are below the node at the top. -/
theorem matchedBelow_treeHeight {n : Nat} (hn : n ≤ 2 ^ 31) :
    matchedBelow n vMatch (treeHeight n) 0 = (range n).filter fun p => vMatch.getD p false := by
  have htop : ¬ 1 < calcTreeWidth n (treeHeight n) := Nat.find_spec (exists_calcTreeWidth n)
  rw [lt_calcTreeWidth_iff hn (treeHeight_le hn), one_mul, Nat.not_lt] at htop
  obtain ⟨d, hd⟩ := Nat.exists_eq_add_of_le htop
  have hbeyond : (range' n d).filter (fun p => decide (p < n) && vMatch.getD p false) = [] := by
    rw [filter_eq_nil_iff]
    intro p hp
    have hout : ¬ p < n := Nat.not_lt.mpr (mem_range'_1.mp hp).1
    simp [hout]
  have hsplit : range' 0 (n + d) = range' 0 n ++ range' n d := by
    rw [← range'_append_1, Nat.zero_add]
  rw [matchedBelow, Nat.zero_mul, hd, hsplit, filter_append, hbeyond, append_nil, ← range_eq_range']
  refine filter_congr fun p hp => ?_
  simp [mem_range.mp hp]

omit [DecidableEq H] in
theorem filter_zipIdx_eq (vMatch : List Bool) :
    l.zipIdx.filter (fun p => vMatch.getD p.2 false) =
      ((range l.length).filter fun p => vMatch.getD p false).map
        fun p => (l.getD p default, p) := by
  have hzip : l.zipIdx = (range l.length).map fun p => (l.getD p default, p) := by
    refine ext_getElem (by simp) fun i hi hi' => ?_
    rw [length_zipIdx] at hi
    simp [getD_eq_getElem?_getD, getElem?_eq_getElem hi]
  rw [hzip, filter_map]
  rfl

/-- **What was built is extracted**: the root, and the matched ids with their positions. -/
theorem extractMatches_build (hinj : PairInjective hash) (hne : l ≠ []) (hnd : l.Nodup)
    (hlen : l.length ≤ 2 ^ 31) :
    extractMatches hash (CPartialMerkleTree.build hash l vMatch) =
      ((computeMerkleRoot hash l).1, (l.zipIdx.filter fun p => vMatch.getD p.2 false).map Prod.fst,
        (l.zipIdx.filter fun p => vMatch.getD p.2 false).map Prod.snd) := by
  have hheight := treeHeight_le hlen
  have hlpos : 0 < l.length := length_pos_iff.mpr hne
  have hpos : 0 < calcTreeWidth l.length (treeHeight l.length) := by
    rwa [lt_calcTreeWidth_iff hlen hheight, Nat.zero_mul]
  let built := traverseAndBuild hash l.length l vMatch (treeHeight l.length) 0
  let tree : CPartialMerkleTree H := ⟨l.length, built.1, built.2, false⟩
  have htree : CPartialMerkleTree.build hash l vMatch = tree := by
    have hmod : l.length % 2 ^ 32 = l.length := Nat.mod_eq_of_lt (by omega)
    rw [CPartialMerkleTree.build, hmod]
  have hsize : built.2.length ≤ built.1.length ∧
      built.2.length ≤ min (2 ^ treeHeight l.length) (l.length - 0 * 2 ^ treeHeight l.length) :=
    length_traverseAndBuild hlen hheight hpos
  -- the whole of the bits and hashes is what was built for the node at the top
  have hwalk : traverseAndExtract hash tree (treeHeight tree.nTransactions) 0
      ⟨0, 0, [], [], tree.fBad⟩ =
      (calcHash hash l.length l (treeHeight l.length) 0,
        ExtractState.after ⟨0, 0, [], [], false⟩ l built
          (matchedBelow l.length vMatch (treeHeight l.length) 0)) :=
    traverseAndExtract_build hinj hnd hlen rfl hheight hpos
      (append_nil built.1).symm (append_nil built.2).symm
  rw [calcHash_treeHeight hlen hne, matchedBelow_treeHeight hlen] at hwalk
  rw [htree, filter_zipIdx_eq, map_map, map_map, extractMatches,
    if_neg (Nat.pos_iff_ne_zero.mp hlpos), if_neg (by show ¬ l.length < built.2.length; omega),
    if_neg (Nat.not_lt.mpr hsize.1)]
  simp only [hwalk]
  simp [ExtractState.after, tree, comp_def]

end Extract

/-- **Merkle proofs are complete and sound** for up to `2 ^ 31` transactions. Extraction from a tree
built over different ids gives their merkle root and exactly the matched ids with their positions,
in order. And from any tree for as many transactions, if the root it gives is the merkle root of the
list and not the null hash of a failure, all ids are in the list, at the positions given. -/
theorem extractMatches_correct {hash : H → H → H} (hinj : PairInjective hash) {l : List H}
    (hlen : l.length ≤ 2 ^ 31) :
    (l ≠ [] → l.Nodup → ∀ vMatch : List Bool,
      extractMatches hash (CPartialMerkleTree.build hash l vMatch) =
        ((computeMerkleRoot hash l).1,
          (l.zipIdx.filter fun p => vMatch.getD p.2 false).map Prod.fst,
          (l.zipIdx.filter fun p => vMatch.getD p.2 false).map Prod.snd)) ∧
    ∀ tree : CPartialMerkleTree H, tree.nTransactions = l.length →
      (extractMatches hash tree).1 = (computeMerkleRoot hash l).1 →
      (computeMerkleRoot hash l).1 ≠ default →
      (extractMatches hash tree).2.1.length = (extractMatches hash tree).2.2.length ∧
        ∀ p ∈ (extractMatches hash tree).2.1.zip (extractMatches hash tree).2.2,
          l[p.2]? = some p.1 := by
  refine ⟨fun hne hnd vMatch => extractMatches_build hinj hne hnd hlen, ?_⟩
  intro tree htree hroot hnull
  obtain ⟨hzero, hbad, hwalk⟩ := extractMatches_of_ne (hroot ▸ hnull)
  have hheight := treeHeight_le hlen
  have hpos : 0 < calcTreeWidth l.length (treeHeight l.length) := by
    rw [lt_calcTreeWidth_iff hlen hheight, Nat.zero_mul, ← htree]
    exact Nat.pos_of_ne_zero hzero
  have hne : l ≠ [] := by
    rintro rfl
    exact hzero htree
  rw [hwalk, htree, ← calcHash_treeHeight hlen hne] at hroot
  rw [htree] at hbad
  obtain ⟨-, found, hmatch, hindex, hin⟩ :=
    traverseAndExtract_sound hinj hlen htree hheight hpos hbad hroot
  rw [hwalk, htree, hmatch, hindex, nil_append, nil_append]
  refine ⟨by simp, fun p hp => ?_⟩
  rw [zip_map', map_id'] at hp
  exact hin p hp

end Tree

/-- The third of three transactions, in a tree that a peer has sent. -/
theorem extractMatches_correct_third : let tree : CPartialMerkleTree TxId :=
      ⟨3, [true, false, true, true], [pairNumber 1 2, 3], false⟩
    (extractMatches pairNumber tree).2 = ([3], [2]) ∧
      ∀ p ∈ (extractMatches pairNumber tree).2.1.zip (extractMatches pairNumber tree).2.2,
        [1, 2, 3][p.2]? = some p.1 := by
  refine ⟨by decide +kernel, ?_⟩
  have hroot : (computeMerkleRoot pairNumber [1, 2, 3]).1 =
      pairNumber (pairNumber 1 2) (pairNumber 3 3) := by
    simp [computeMerkleRoot, merkleLoop, hashPairs, padOdd]
  have hlen : [1, 2, 3].length ≤ 2 ^ 31 := by decide
  refine ((extractMatches_correct pairInjective_pairNumber hlen).2
    ⟨3, [true, false, true, true], [pairNumber 1 2, 3], false⟩ rfl ?_ ?_).2
  · rw [hroot]
    decide +kernel
  · rw [hroot]
    decide +kernel

/-! ### Too many transactions -/

/-- With `2 ^ 32 - 1` transactions the width above the leaves wraps around to 0. -/
theorem treeHeight_wrapped : treeHeight (2 ^ 32 - 1) = 1 := by
  rw [treeHeight, Nat.find_eq_iff]
  refine ⟨by decide +kernel, fun h hh => ?_⟩
  obtain rfl : h = 0 := by omega
  decide +kernel

/-- The last two nodes of a long list, the root over them, and a leaf that is neither. -/
theorem exists_top_nodes {l : List TxId} (hnd : l.Nodup) (hlen : 2 < l.length) :
    ∃ a b, a ≠ b ∧ (computeMerkleRoot pairNumber l).1 = pairNumber a b ∧ 10 ≤ a := by
  have hne : l ≠ [] := by
    rintro rfl
    exact absurd hlen (by decide)
  obtain ⟨n, hroot, hlong, -⟩ := merkleLoop_spec pairNumber hne false
  cases n with
  | zero =>
    have := congrArg length hroot
    rw [iterate_zero_apply, length_singleton] at this
    omega
  | succ n =>
    rw [iterate_succ_apply'] at hroot
    have hone := congrArg length hroot
    rw [length_level, length_singleton] at hone
    have hmore := hlong n (Nat.lt_succ_self n)
    obtain ⟨a, b, htop⟩ := length_eq_two.mp (by omega : ((level pairNumber)^[n] l).length = 2)
    have hab : a ≠ b := by
      have := nodup_iterate_level pairInjective_pairNumber hnd n
      rw [htop] at this
      simpa using this
    rw [htop] at hroot
    refine ⟨a, b, hab, (cons.inj hroot).1.symm, ?_⟩
    cases n with
    | zero =>
      rw [iterate_zero_apply] at htop
      rw [htop] at hlen
      exact absurd hlen (by simp)
    | succ n =>
      rw [iterate_succ_apply'] at htop
      obtain ⟨c, d, rfl⟩ := exists_of_mem_level (htop ▸ mem_cons_self)
      exact Nat.le_add_left 10 _

/-- **An inner node passes as a transaction.** For the list of the first `2 ^ 32 - 1` numbers there
is a tree with three bits and two hashes from which extraction gives the merkle root, and the left
node below it as the transaction at position 0. -/
theorem extractMatches_beyond :
    ∃ (l : List TxId) (tree : CPartialMerkleTree TxId), l.Nodup ∧ l.length = 2 ^ 32 - 1 ∧
      tree.nTransactions = l.length ∧ tree.fBad = false ∧ PairInjective pairNumber ∧
      (extractMatches pairNumber tree).1 = (computeMerkleRoot pairNumber l).1 ∧
      (computeMerkleRoot pairNumber l).1 ≠ default ∧
      ∃ node, (extractMatches pairNumber tree).2 = ([node], [0]) ∧ l[0]? ≠ some node := by
  obtain ⟨l, hl⟩ : ∃ l, l = range (2 ^ 32 - 1) := ⟨_, rfl⟩
  have hlen : l.length = 2 ^ 32 - 1 := by rw [hl, length_range]
  have hnd : l.Nodup := hl ▸ nodup_range
  have hfirst : l[0]? = some 0 := by rw [hl, getElem?_range (by omega)]
  obtain ⟨a, b, hab, hroot, ha⟩ := exists_top_nodes hnd (by omega)
  have hextract : extractMatches pairNumber ⟨2 ^ 32 - 1, [true, true, false], [a, b], false⟩ =
      (pairNumber a b, [a], [0]) := by
    have hwide : 1 < calcTreeWidth 4294967295 0 := by decide +kernel
    have hne : (b == a) = false := by simpa using Ne.symm hab
    rw [extractMatches, treeHeight_wrapped]
    simp [traverseAndExtract, takeHash, hwide, hne]
  refine ⟨l, ⟨2 ^ 32 - 1, [true, true, false], [a, b], false⟩, hnd, hlen, hlen.symm, rfl,
    pairInjective_pairNumber, ?_, ?_, a, ?_, ?_⟩
  · rw [hextract, hroot]
  · rw [hroot]
    exact Nat.succ_ne_zero _
  · rw [hextract]
  · rw [hfirst]
    intro h
    cases h
    cases ha

end DeVault
