import DeVault.Validation.Finalize

/-!
# The skip list of the block tree (`chain.cpp`)

Besides `pprev`, an entry of the block tree can have a pointer `pskip` to an ancestor far below it.
`BuildSkip` sets the pointer with `GetAncestor`, which already follows the pointers that are set.
-/

namespace DeVault

open CBlockIndex List Outcome

/-- `InvertLowestOne`. -/
def invertLowestOne (n : Nat) : Nat := n &&& (n - 1)

/-- `GetSkipHeight`. -/
def getSkipHeight (height : Nat) : Nat :=
  if height < 2 then 0
  else if height &&& 1 ≠ 0 then invertLowestOne (invertLowestOne (height - 1)) + 1
  else invertLowestOne height

theorem getSkipHeight_lt {height : Nat} (h : 0 < height) : getSkipHeight height < height := by
  have hlast : ∀ n, invertLowestOne n ≤ n - 1 := fun n => Nat.and_le_right
  unfold getSkipHeight
  split
  · exact h
  split
  · have := hlast (invertLowestOne (height - 1))
    have := hlast (height - 1)
    omega
  · have := hlast height
    omega

/-- The `pskip` pointers of the block tree. -/
structure SkipIndex where
  pskip : CBlockIndex → Option CBlockIndex
  /-- A pointer leads down, to the ancestor at the height to skip to. -/
  leads : ∀ b q, pskip b = some q →
    q ∈ b.branch ∧ q.nHeight = getSkipHeight b.nHeight ∧ q.nHeight < b.nHeight

/-- A block of a set that is highest in it; none if the set is empty. -/
def IsHighest (blocks : Set CBlockIndex) : Option CBlockIndex → Prop
  | none => blocks = ∅
  | some q => q ∈ blocks ∧ ∀ r ∈ blocks, r.nHeight ≤ q.nHeight

/-- The common ancestors of two blocks. -/
def commonAncestors (pa pb : CBlockIndex) : Set CBlockIndex := {q | q ∈ pa.branch ∧ q ∈ pb.branch}

namespace SkipIndex

variable (idx : SkipIndex) {b q pa pb : CBlockIndex}

theorem pprev_mem_branch (h : b.pprev = some q) : q ∈ b.branch := by
  rw [branch_of_pprev_some h]
  exact mem_cons_of_mem _ q.self_mem_branch

/-- No pointer is set. -/
def empty : SkipIndex where
  pskip := fun _ => none
  leads := nofun

/-! ### Ancestors -/

/-- The loop of `GetAncestor`. -/
def ancestorLoop (height : Nat) (pindexWalk : CBlockIndex) (heightWalk : Nat) :
    Except Fault CBlockIndex :=
  if height < heightWalk then
    let heightSkip := getSkipHeight heightWalk
    let heightSkipPrev := getSkipHeight (heightWalk - 1)
    -- only follow `pskip` if `pprev->pskip` isn't better than `pskip->pprev`
    let skip := heightSkip = height ∨
      height < heightSkip ∧ ¬(heightSkipPrev + 2 < heightSkip ∧ height ≤ heightSkipPrev)
    match if skip then idx.pskip pindexWalk else none with
    | some q => ancestorLoop height q heightSkip
    | none =>
      match pindexWalk.pprev with
      | some q => ancestorLoop height q (heightWalk - 1)
      | none => .error (.assertion "pindexWalk->pprev")
  else .ok pindexWalk
termination_by heightWalk
decreasing_by
  · exact getSkipHeight_lt (by omega)
  · omega

/-- `GetAncestor`, along `pskip` and `pprev`. -/
def getAncestor (pindex : CBlockIndex) (height : Int) : Except Fault (Option CBlockIndex) :=
  if (pindex.nHeight : Int) < height ∨ height < 0 then .ok none
  else some <$> idx.ancestorLoop height.toNat pindex pindex.nHeight

/-- The walk comes to the ancestor: neither pointer leads below the height. -/
theorem ancestorLoop_spec {height : Nat} (hle : height ≤ b.nHeight) :
    ∃ q, idx.ancestorLoop height b b.nHeight = .ok q ∧ q ∈ b.branch ∧ q.nHeight = height := by
  induction hn : b.nHeight using Nat.strong_induction_on generalizing b with
  | h n ih =>
  subst hn
  rw [ancestorLoop]
  split
  next hlt =>
    dsimp only
    split
    next q hskip =>
      obtain ⟨huse, hq⟩ := Option.ite_none_right_eq_some.mp hskip
      obtain ⟨hmem, hheight, hdown⟩ := idx.leads b q hq
      obtain ⟨r, hr, hmem', hr'⟩ := ih q.nHeight hdown (by omega) rfl
      exact ⟨r, hheight ▸ hr, mem_branch_trans hmem hmem', hr'⟩
    · split
      next q hq =>
        have hheight := nHeight_of_pprev hq
        obtain ⟨r, hr, hmem, hr'⟩ := ih q.nHeight (by omega) (by omega) rfl
        refine ⟨r, ?_, mem_branch_trans (pprev_mem_branch hq) hmem, hr'⟩
        rw [hheight, Nat.add_sub_cancel]
        exact hr
      next hroot =>
        have := nHeight_of_pprev_none hroot
        omega
  · exact ⟨b, rfl, b.self_mem_branch, by omega⟩

/-- **`GetAncestor`** finds the ancestor that steps along `pprev` lead to. -/
theorem getAncestor_eq (b : CBlockIndex) (height : Int) :
    idx.getAncestor b height = .ok (b.getAncestor height) := by
  unfold getAncestor
  split
  next hout => rw [CBlockIndex.getAncestor, if_pos hout]
  next hin =>
    have hle : height.toNat ≤ b.nHeight := by omega
    obtain ⟨q, hq, hmem, hheight⟩ := idx.ancestorLoop_spec hle
    rw [hq, getAncestor_eq_some_iff.mpr ⟨hmem, by omega⟩]
    rfl

theorem leads_update (hprev : b.pprev = some q)
    {pskip : Option CBlockIndex} (h : idx.getAncestor q (getSkipHeight b.nHeight) = .ok pskip)
    (b' q' : CBlockIndex) (h' : Function.update idx.pskip b pskip b' = some q') :
    q' ∈ b'.branch ∧ q'.nHeight = getSkipHeight b'.nHeight ∧ q'.nHeight < b'.nHeight := by
  rw [Function.update_apply] at h'
  split at h'
  next heq =>
    rw [heq]
    rw [getAncestor_eq, h'] at h
    obtain ⟨hmem, hheight⟩ := getAncestor_eq_some_iff.mp (Except.ok.inj h)
    have hlt : getSkipHeight b.nHeight < b.nHeight :=
      getSkipHeight_lt (by have := nHeight_of_pprev hprev; omega)
    exact ⟨mem_branch_trans (pprev_mem_branch hprev) hmem, by omega, by omega⟩
  · exact idx.leads b' q' h'

/-- `BuildSkip`. -/
def buildSkip (pindex : CBlockIndex) : Except Fault SkipIndex :=
  match hprev : pindex.pprev with
  | none => .ok idx
  | some q =>
    match h : idx.getAncestor q (getSkipHeight pindex.nHeight) with
    | .error fault => .error fault
    | .ok pskip => .ok ⟨Function.update idx.pskip pindex pskip, idx.leads_update hprev h⟩

theorem exists_buildSkip (b : CBlockIndex) : ∃ idx', idx.buildSkip b = .ok idx' := by
  unfold buildSkip
  split
  · exact ⟨idx, rfl⟩
  · split
    next h => cases (idx.getAncestor_eq _ _).symm.trans h
    · exact ⟨_, rfl⟩

/-! ### Common ancestors -/

/-- How `LastCommonAncestor` and `AreOnTheSameFork` start: from blocks of one height. -/
def level (pa pb : CBlockIndex) : Except Fault (Option CBlockIndex × Option CBlockIndex) :=
  if pb.nHeight < pa.nHeight then (·, some pb) <$> idx.getAncestor pa pb.nHeight
  else if pa.nHeight < pb.nHeight then (some pa, ·) <$> idx.getAncestor pb pa.nHeight
  else .ok (some pa, some pb)

/-- The two `pskip`, if both are set and differ. -/
def skipBoth (pa pb : CBlockIndex) : Option (CBlockIndex × CBlockIndex) :=
  match idx.pskip pa, idx.pskip pb with
  | some sa, some sb => if sa = sb then none else some (sa, sb)
  | _, _ => none

theorem skipBoth_eq_some {sa sb : CBlockIndex} (h : idx.skipBoth pa pb = some (sa, sb)) :
    idx.pskip pa = some sa ∧ idx.pskip pb = some sb ∧ sa ≠ sb := by
  unfold skipBoth at h
  split at h
  next ha hb =>
    obtain ⟨hne, heq⟩ := Option.ite_none_left_eq_some.mp h
    cases heq
    exact ⟨ha, hb, hne⟩
  · cases h

/-- The loop of `LastCommonAncestor`. -/
def commonLoop (pa pb : CBlockIndex) : Except Fault (Option CBlockIndex) :=
  if pa = pb then .ok (some pa)
  else
    match _ : idx.skipBoth pa pb with
    | some (sa, sb) =>
      if sa.nHeight = sb.nHeight then commonLoop sa sb
      else .error (.assertion "pa->nHeight == pb->nHeight")
    | none =>
      match _ : pa.pprev, pb.pprev with
      | some qa, some qb => commonLoop qa qb
      | none, none => .ok none
      | _, _ => .error (.assertion "pa == pb")
termination_by pa.nHeight
decreasing_by
  · exact (idx.leads _ _ (idx.skipBoth_eq_some ‹_›).1).2.2
  · have := nHeight_of_pprev ‹pa.pprev = some qa›
    omega

/-- `LastCommonAncestor`. -/
def lastCommonAncestor (pa pb : CBlockIndex) : Except Fault (Option CBlockIndex) := do
  match ← idx.level pa pb with
  | (some pa, some pb) => idx.commonLoop pa pb
  | _ => .error (.assertion "pa == pb")

/-- `AreOnTheSameFork`. -/
def areOnTheSameFork (pa pb : CBlockIndex) : Except Fault Bool := do
  let (pa, pb) ← idx.level pa pb
  return pa == pb

theorem level_spec (pa pb : CBlockIndex) :
    ∃ a b, idx.level pa pb = .ok (some a, some b) ∧ a.nHeight = b.nHeight ∧
      commonAncestors a b = commonAncestors pa pb := by
  -- a common ancestor is no higher than the lower block
  have hdown : ∀ {p a b : CBlockIndex}, a ∈ p.branch → a.nHeight = b.nHeight →
      ∀ q, q ∈ a.branch ∧ q ∈ b.branch ↔ q ∈ p.branch ∧ q ∈ b.branch := by
    intro p a b ha hheight q
    refine and_congr_left fun hqb => ⟨mem_branch_trans ha, fun hqp => mem_branch_of_le ha hqp ?_⟩
    exact (nHeight_le_of_mem_branch hqb).trans hheight.ge
  unfold level
  split
  next hlt =>
    obtain ⟨a, ha⟩ := pa.exists_getAncestor (Int.natCast_nonneg pb.nHeight) (by omega)
    obtain ⟨hmem, hheight⟩ := getAncestor_eq_some_iff.mp ha
    rw [getAncestor_eq, ha]
    exact ⟨a, pb, rfl, by omega, Set.ext (hdown hmem (by omega))⟩
  · split
    next hlt =>
      obtain ⟨b, hb⟩ := pb.exists_getAncestor (Int.natCast_nonneg pa.nHeight) (by omega)
      obtain ⟨hmem, hheight⟩ := getAncestor_eq_some_iff.mp hb
      rw [getAncestor_eq, hb]
      refine ⟨pa, b, rfl, by omega, Set.ext fun q => ?_⟩
      exact and_comm.trans ((hdown hmem (by omega) q).trans and_comm)
    · exact ⟨pa, pb, rfl, by omega, rfl⟩

/-- Going down from different blocks of one height to different blocks of one height, or to the
parents, loses no common ancestor. -/
theorem commonAncestors_down {sa sb : CBlockIndex} (ha : sa ∈ pa.branch) (hb : sb ∈ pb.branch)
    (hs : sa.nHeight = sb.nHeight)
    (hbetween : ∀ q ∈ commonAncestors pa pb, q.nHeight ≤ sa.nHeight) :
    commonAncestors sa sb = commonAncestors pa pb := by
  ext q
  constructor
  · rintro ⟨hqa, hqb⟩
    exact ⟨mem_branch_trans ha hqa, mem_branch_trans hb hqb⟩
  · intro hq
    have hle := hbetween q hq
    exact ⟨mem_branch_of_le ha hq.1 hle, mem_branch_of_le hb hq.2 (hle.trans hs.le)⟩

/-- **The loop of `LastCommonAncestor`** ends at the highest common ancestor. -/
theorem commonLoop_spec (hheight : pa.nHeight = pb.nHeight) :
    ∃ r, idx.commonLoop pa pb = .ok r ∧ IsHighest (commonAncestors pa pb) r := by
  fun_induction idx.commonLoop pa pb with
  | case1 pa =>
    refine ⟨some pa, rfl, ⟨pa.self_mem_branch, pa.self_mem_branch⟩, fun q hq => ?_⟩
    exact nHeight_le_of_mem_branch hq.1
  | case2 pa pb hne sa sb hskip hs ih =>
    obtain ⟨hsa, hsb, hdiff⟩ := idx.skipBoth_eq_some hskip
    have ha := (idx.leads pa sa hsa).1
    have hb := (idx.leads pb sb hsb).1
    -- an ancestor of both above `sa` and `sb` would have both as ancestors
    rw [← commonAncestors_down ha hb hs fun q hq => not_lt.mp fun hlt => hdiff <|
      eq_of_mem_branch (mem_branch_of_le hq.1 ha hlt.le)
        (mem_branch_of_le hq.2 hb (hs ▸ hlt.le)) hs]
    exact ih hs
  | case3 pa pb hne sa sb hskip hs =>
    obtain ⟨hsa, hsb, -⟩ := idx.skipBoth_eq_some hskip
    have ha := (idx.leads pa sa hsa).2.1
    have hb := (idx.leads pb sb hsb).2.1
    exact absurd (by rw [ha, hb, hheight]) hs
  | case4 pa pb hne hskip qa qb ha hb ih =>
    have hqa := nHeight_of_pprev ha
    have hqb := nHeight_of_pprev hb
    have hs : qa.nHeight = qb.nHeight := by omega
    -- a common ancestor of the height of the blocks would be both of them
    rw [← commonAncestors_down (pprev_mem_branch ha) (pprev_mem_branch hb) hs fun q hq => ?_]
    · exact ih hs
    · by_contra hlt
      have hle := nHeight_le_of_mem_branch hq.1
      exact hne ((eq_of_mem_branch pa.self_mem_branch hq.1 (by omega)).trans
        (eq_of_mem_branch hq.2 pb.self_mem_branch (by omega)))
  | case5 pa pb hne hskip ha hb =>
    refine ⟨none, rfl, Set.eq_empty_of_forall_notMem fun q hq => hne ?_⟩
    obtain ⟨hqa, hqb⟩ := hq
    rw [branch_of_pprev_none ha, mem_singleton] at hqa
    rw [branch_of_pprev_none hb, mem_singleton] at hqb
    exact hqa.symm.trans hqb
  | case6 pa pb hne hskip hsome hnone =>
    -- of two blocks of one height, both have a parent or none has
    exfalso
    cases ha : pa.pprev with
    | none =>
      cases hb : pb.pprev with
      | none => exact hnone ha hb
      | some qb =>
        have := nHeight_of_pprev_none ha
        have := nHeight_of_pprev hb
        omega
    | some qa =>
      cases hb : pb.pprev with
      | none =>
        have := nHeight_of_pprev_none hb
        have := nHeight_of_pprev ha
        omega
      | some qb => exact hsome qa qb ha hb

/-- **`AreOnTheSameFork`** answers as with steps along `pprev`. -/
theorem areOnTheSameFork_eq (pa pb : CBlockIndex) :
    idx.areOnTheSameFork pa pb = .ok (pa.areOnTheSameFork pb) := by
  unfold areOnTheSameFork level CBlockIndex.areOnTheSameFork
  rw [getAncestor_eq, getAncestor_eq]
  split
  · rfl
  split
  · rfl
  · exact congrArg Except.ok Option.some_beq_some

end SkipIndex

/-! ### The active chain -/

/-- `CChain`, which `SetTip` fills with the ancestors of a tip. -/
structure CChain where
  tip : Option CBlockIndex

namespace CChain

variable (chain : CChain) (idx : SkipIndex)

/-- `vChain`: the blocks by height. -/
def vChain : List CBlockIndex := (chain.tip.elim [] branch).reverse

/-- `CChain::Height`. -/
def height : Int := chain.vChain.length - 1

/-- `CChain::Contains`. -/
def contains (pindex : CBlockIndex) : Bool := chain.vChain[pindex.nHeight]? == some pindex

/-- `FindFork`. The loop walks down until it comes to a block of the chain. -/
def findFork : Option CBlockIndex → Except Fault (Option CBlockIndex)
  | none => .ok none
  | some pindex => do
    let start ←
      if chain.height < pindex.nHeight then idx.getAncestor pindex chain.height
      else pure (some pindex)
    return start.bind fun q => q.branch.find? chain.contains

/-- The ancestors of a block that are in the chain. -/
def ancestorsIn (b : CBlockIndex) : Set CBlockIndex := {q | q ∈ b.branch ∧ q ∈ chain.vChain}

theorem mem_vChain_iff {b : CBlockIndex} :
    b ∈ chain.vChain ↔ ∃ tip, chain.tip = some tip ∧ b ∈ tip.branch := by
  unfold vChain
  cases chain.tip <;> simp

theorem contains_iff {b : CBlockIndex} : chain.contains b = true ↔ b ∈ chain.vChain := by
  rw [contains, beq_iff_eq]
  refine ⟨mem_of_getElem?, fun hmem => ?_⟩
  obtain ⟨tip, htip, hmem⟩ := chain.mem_vChain_iff.mp hmem
  have hlen := tip.length_branch
  obtain ⟨i, hi⟩ := mem_iff_getElem?.mp hmem
  have hsum := nHeight_of_getElem?_branch hi
  rw [vChain, htip, Option.elim_some, getElem?_reverse (by omega), hlen, ← hi]
  congr 1
  omega

theorem isHighest_self {b : CBlockIndex} (h : chain.contains b = true) :
    IsHighest (chain.ancestorsIn b) (some b) :=
  ⟨⟨b.self_mem_branch, chain.contains_iff.mp h⟩, fun _ hr => nHeight_le_of_mem_branch hr.1⟩

/-- The first block on the way down is the highest. -/
theorem find?_branch_spec (b : CBlockIndex) :
    IsHighest (chain.ancestorsIn b) (b.branch.find? chain.contains) := by
  induction b using pprev_induction with
  | root b hb =>
    rw [branch_of_pprev_none hb, find?_singleton]
    split
    next hc => exact chain.isHighest_self hc
    next hc =>
      refine Set.eq_empty_of_forall_notMem fun q ⟨hq, hmem⟩ => hc ?_
      rw [branch_of_pprev_none hb, mem_singleton] at hq
      exact chain.contains_iff.mpr (hq ▸ hmem)
  | step b q hb ih =>
    rw [branch_of_pprev_some hb, find?_cons]
    split
    next hc => exact chain.isHighest_self hc
    next hc =>
      have hsame : chain.ancestorsIn b = chain.ancestorsIn q := by
        refine Set.ext fun r => and_congr_left fun hmem => ?_
        rw [branch_of_pprev_some hb, mem_cons, or_iff_right]
        rintro rfl
        exact Bool.false_ne_true (hc.symm.trans (chain.contains_iff.mpr hmem))
      rw [hsame]
      exact ih

theorem le_height {q : CBlockIndex} (h : q ∈ chain.vChain) : (q.nHeight : Int) ≤ chain.height := by
  obtain ⟨tip, htip, hmem⟩ := chain.mem_vChain_iff.mp h
  have hle := nHeight_le_of_mem_branch hmem
  rw [height, vChain, htip, Option.elim_some, length_reverse, length_branch]
  omega

/-- **`FindFork`** finds the highest ancestor in the chain. -/
theorem findFork_spec (b : CBlockIndex) :
    ∃ r, chain.findFork idx (some b) = .ok r ∧ IsHighest (chain.ancestorsIn b) r := by
  unfold findFork
  dsimp only
  split
  next hlt =>
    rw [idx.getAncestor_eq]
    refine ⟨_, rfl, ?_⟩
    cases ha : b.getAncestor chain.height with
    | none =>
      -- only an empty chain has no height to go down to
      refine Set.eq_empty_of_forall_notMem fun q ⟨_, hmem⟩ => ?_
      have hle := chain.le_height hmem
      obtain ⟨a, ha'⟩ := b.exists_getAncestor (by omega) hlt.le
      cases ha.symm.trans ha'
    | some a =>
      obtain ⟨hmem, hheight⟩ := getAncestor_eq_some_iff.mp ha
      have hsame : chain.ancestorsIn b = chain.ancestorsIn a := by
        refine Set.ext fun q => and_congr_left fun hq => ⟨fun hqb => ?_, mem_branch_trans hmem⟩
        have hle := chain.le_height hq
        exact mem_branch_of_le hmem hqb (by omega)
      rw [hsame]
      exact chain.find?_branch_spec a
  · exact ⟨_, rfl, chain.find?_branch_spec b⟩

end CChain

/-- The branch as steps along `pprev`. -/
theorem CBlockIndex.getElem?_branch (i : Nat) :
    b.branch[i]? = (Option.bind · pprev)^[i] (some b) := by
  induction i generalizing b with
  | zero => cases h : b.pprev <;> simp [branch_of_pprev_none, branch_of_pprev_some, h]
  | succ i ih =>
    rw [Function.iterate_succ_apply, Option.bind_some]
    cases h : b.pprev with
    | none =>
      rw [branch_of_pprev_none h, Function.iterate_fixed rfl]
      rfl
    | some q => rw [branch_of_pprev_some h, getElem?_cons_succ, ih]

/-- **The skip list.** However `BuildSkip` has been called, `GetAncestor` returns what steps along
`pprev` lead to; `LastCommonAncestor` the highest common ancestor; `AreOnTheSameFork` whether one
block is an ancestor of the other; and `FindFork` the highest ancestor in the chain. -/
theorem skipList_spec (calls : List CBlockIndex) :
    ∃ idx, calls.foldlM SkipIndex.buildSkip SkipIndex.empty = .ok idx ∧
      (∀ (b : CBlockIndex) (height : Nat), height ≤ b.nHeight →
        idx.getAncestor b height = .ok ((Option.bind · pprev)^[b.nHeight - height] (some b))) ∧
      (∀ a b, ∃ r, idx.lastCommonAncestor a b = .ok r ∧ IsHighest (commonAncestors a b) r) ∧
      (∀ a b, ∃ same, idx.areOnTheSameFork a b = .ok same ∧
        (same = true ↔ a ∈ b.branch ∨ b ∈ a.branch)) ∧
      ∀ (chain : CChain) b, ∃ r, chain.findFork idx (some b) = .ok r ∧
        IsHighest (chain.ancestorsIn b) r := by
  obtain ⟨idx, hidx⟩ : ∃ idx, calls.foldlM SkipIndex.buildSkip SkipIndex.empty = .ok idx := by
    generalize SkipIndex.empty = idx
    induction calls generalizing idx with
    | nil => exact ⟨idx, rfl⟩
    | cons b calls ih =>
      obtain ⟨idx₁, h₁⟩ := idx.exists_buildSkip b
      obtain ⟨idx₂, h₂⟩ := ih idx₁
      exact ⟨idx₂, bind_ok h₁ h₂⟩
  refine ⟨idx, hidx, fun b height hle => ?_, fun a b => ?_, fun a b => ?_, fun chain b => ?_⟩
  · rw [idx.getAncestor_eq, CBlockIndex.getAncestor, if_neg (by omega), Int.toNat_natCast,
      getElem?_branch]
  · obtain ⟨a', b', hlevel, hheight, hsame⟩ := idx.level_spec a b
    rw [← hsame, SkipIndex.lastCommonAncestor, hlevel]
    exact idx.commonLoop_spec hheight
  · exact ⟨_, idx.areOnTheSameFork_eq a b, areOnTheSameFork_iff⟩
  · exact chain.findFork_spec idx b

end DeVault
