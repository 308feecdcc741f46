import DeVault.Rewards.Records

/-!
# The index of the inactive records

`inactiveByHeight` lets the prune of `UpdateWithBlock` find old inactive records
without a scan. Entries are never taken out when a record becomes active again
or goes, so the index may hold stale entries; what matters is that it misses
none. `Indexed` says so: the entries are in order, and every inactive record has
its entry. With it the prune is a function of the records alone.
-/

namespace DeVault

open List

variable (op : COutPoint) (p : Params) (nHeight : Nat)

namespace CColdRewards

variable {r : CColdRewards} {k : COutPoint}

/-- **The index is complete**: its entries are in order of height, and each
inactive record has one. -/
structure Indexed (r : CColdRewards) : Prop where
  sorted : r.inactiveByHeight.Pairwise fun a b => a.1 ≤ b.1
  complete : ∀ (op : COutPoint) (val : CRewardValue), r.rewardMap[op]? = some val →
    val.active = false → (val.inactiveHeight, op) ∈ r.inactiveByHeight

/-! ### Entries -/

theorem mem_emplaceByHeight {h : Nat} {op : COutPoint} {index : List (Nat × COutPoint)}
    {e : Nat × COutPoint} : e ∈ emplaceByHeight h op index ↔ e = (h, op) ∨ e ∈ index := by
  induction index with
  | nil => simp [emplaceByHeight]
  | cons a index ih =>
    rw [emplaceByHeight]
    split
    · rw [mem_cons, ih, mem_cons]
      tauto
    · rw [mem_cons]

/-- An entry goes behind those of at most its height, so the order stays. -/
theorem sorted_emplaceByHeight {h : Nat} {op : COutPoint} {index : List (Nat × COutPoint)}
    (hs : index.Pairwise fun a b => a.1 ≤ b.1) :
    (emplaceByHeight h op index).Pairwise fun a b => a.1 ≤ b.1 := by
  induction index with
  | nil => exact pairwise_singleton ..
  | cons a index ih =>
    obtain ⟨hhead, htail⟩ := pairwise_cons.mp hs
    rw [emplaceByHeight]
    split
    next hle =>
      refine pairwise_cons.mpr ⟨fun e he => ?_, ih htail⟩
      rcases mem_emplaceByHeight.mp he with rfl | he
      · exact hle
      · exact hhead e he
    next hgt =>
      refine pairwise_cons.mpr ⟨fun e he => ?_, hs⟩
      rcases mem_cons.mp he with rfl | he
      · exact (not_le.mp hgt).le
      · exact (not_le.mp hgt).le.trans (hhead e he)

/-! ### Writing records -/

namespace Indexed

section

variable (h : r.Indexed)
include h

theorem of_eq {r' : CColdRewards} (hmap : r'.rewardMap = r.rewardMap)
    (hindex : r'.inactiveByHeight = r.inactiveByHeight) : r'.Indexed where
  sorted := by
    rw [hindex]
    exact h.sorted
  complete := by
    rw [hmap, hindex]
    exact h.complete

/-- A record may be written that is active or has its entry. -/
theorem putInMap {val : CRewardValue}
    (hval : val.active = false → (val.inactiveHeight, op) ∈ r.inactiveByHeight) :
    (r.putInMap op val).Indexed where
  sorted := h.sorted
  complete := Ledger.forall_insert h.complete hval

theorem eraseFromMap : (r.eraseFromMap op).Indexed where
  sorted := h.sorted
  complete := Ledger.forall_erase h.complete op

end

theorem closed (n : Nat) : Closed n Indexed where
  frame _ _ h := h.of_eq rfl rfl
  erase op h := h.eraseFromMap op
  update h hval hup := h.putInMap _ fun hin =>
    hup.inactiveHeight ▸ h.complete _ _ hval (hup.active hin)

end Indexed

/-! ### The prune -/

/-- A record that the prune at a threshold leaves. -/
def Kept (threshold : Int) (val : CRewardValue) : Prop :=
  val.active = true ∨ threshold ≤ val.inactiveHeight

instance (threshold : Int) (val : CRewardValue) : Decidable (Kept threshold val) :=
  inferInstanceAs (Decidable (_ ∨ _))

theorem filter_eq_self {o : Option CRewardValue} {q : CRewardValue → Bool}
    (h : ∀ val, q val = true) : o.filter q = o := by
  cases o with
  | none => rfl
  | some val => simp [Option.filter, h val]

theorem getElem?_pruneRecord_eq (h : Nat) (op : COutPoint) :
    (r.pruneRecord h op).rewardMap[k]? = r.rewardMap[k]?.filter fun val =>
      !decide (op = k ∧ val.active = false ∧ val.inactiveHeight = h) := by
  unfold pruneRecord
  by_cases hop : op = k
  · subst hop
    cases hval : r.rewardMap[op]? with
    | none => simp [hval]
    | some val =>
      by_cases hmatch : val.active = false ∧ val.inactiveHeight = h
      · simp [hmatch.1, hmatch.2, getElem?_eraseFromMap, Option.filter]
      · have hkeep : (!val.active && decide (val.inactiveHeight = h)) = false := by
          simpa [Bool.and_eq_false_iff] using hmatch
        simp only [hkeep, Bool.false_eq_true, if_false, hval]
        simp [Option.filter, hmatch]
  · rw [filter_eq_self fun val => by simp [hop]]
    split
    · split
      · rw [getElem?_eraseFromMap, if_neg hop]
      · rfl
    · rfl

/-- Over an ordered index the prune takes the records whose entry is below the
threshold. -/
theorem getElem?_pruneLoop_eq {threshold : Int} {l : List (Nat × COutPoint)}
    (hs : l.Pairwise fun a b => a.1 ≤ b.1) :
    (pruneLoop threshold l r).rewardMap[k]? = r.rewardMap[k]?.filter fun val =>
      !decide (val.active = false ∧ (val.inactiveHeight : Int) < threshold ∧
        (val.inactiveHeight, k) ∈ l) := by
  induction l generalizing r with
  | nil =>
    rw [filter_eq_self fun val => by simp]
    rfl
  | cons e l ih =>
    obtain ⟨h, op⟩ := e
    obtain ⟨hhead, htail⟩ := pairwise_cons.mp hs
    rw [pruneLoop]
    split
    next hlt =>
      rw [ih htail, getElem?_pruneRecord_eq, Option.filter_filter]
      refine congrArg (Option.filter · _) (funext fun val => ?_)
      rw [← Bool.not_or, ← Bool.decide_or]
      refine congrArg _ (decide_eq_decide.mpr ?_)
      rw [mem_cons, Prod.mk.injEq]
      constructor
      · rintro (⟨rfl, hin, rfl⟩ | ⟨hin, hold, hmem⟩)
        · exact ⟨hin, hlt, .inl ⟨rfl, rfl⟩⟩
        · exact ⟨hin, hold, .inr hmem⟩
      · rintro ⟨hin, hold, ⟨rfl, rfl⟩ | hmem⟩
        · exact .inl ⟨rfl, hin, rfl⟩
        · exact .inr ⟨hin, hold, hmem⟩
    next hge =>
      -- the first entry is at the threshold already, and so are all others
      have hnone : ∀ val : CRewardValue, ¬(val.active = false ∧
          (val.inactiveHeight : Int) < threshold ∧ (val.inactiveHeight, k) ∈ (h, op) :: l) := by
        rintro val ⟨-, hold, hmem⟩
        rcases mem_cons.mp hmem with heq | hmem
        · cases heq
          exact hge hold
        · have hle := hhead _ hmem
          omega
      rw [filter_eq_self fun val => by rw [decide_eq_false (hnone val)]; rfl]

theorem inactiveByHeight_pruneLoop (threshold : Int) (l : List (Nat × COutPoint)) :
    (pruneLoop threshold l r).inactiveByHeight =
      l.dropWhile fun e => decide ((e.1 : Int) < threshold) := by
  induction l generalizing r with
  | nil => rfl
  | cons e l ih =>
    rw [pruneLoop, dropWhile_cons]
    by_cases hlt : (e.1 : Int) < threshold
    · simp [hlt, ih]
    · simp [hlt]

namespace Indexed

/-- **The prune of a complete index** leaves the active records and the young
inactive ones. -/
theorem getElem?_pruneLoop (h : r.Indexed) (threshold : Int) :
    (pruneLoop threshold r.inactiveByHeight r).rewardMap[k]? =
      r.rewardMap[k]?.filter fun val => decide (Kept threshold val) := by
  rw [getElem?_pruneLoop_eq h.sorted]
  cases hval : r.rewardMap[k]? with
  | none => rfl
  | some val =>
    have hiff : ¬(val.active = false ∧ (val.inactiveHeight : Int) < threshold ∧
        (val.inactiveHeight, k) ∈ r.inactiveByHeight) ↔ Kept threshold val := by
      unfold Kept
      constructor
      · intro hno
        by_contra hkept
        obtain ⟨hact, hold⟩ := not_or.mp hkept
        have hin : val.active = false := by simpa using hact
        exact hno ⟨hin, by omega, h.complete k val hval hin⟩
      · rintro (hact | hyoung) ⟨hin, hold, -⟩
        · cases hact.symm.trans hin
        · omega
    simp only [Option.filter, ← decide_not, decide_eq_decide.mpr hiff]

theorem pruneLoop (h : r.Indexed) (threshold : Int) :
    (pruneLoop threshold r.inactiveByHeight r).Indexed where
  sorted := by
    rw [inactiveByHeight_pruneLoop]
    exact h.sorted.sublist (dropWhile_sublist _)
  complete := by
    intro op val hval hin
    rw [h.getElem?_pruneLoop] at hval
    obtain ⟨hval, hkept⟩ := Option.filter_eq_some_iff.mp hval
    have hmem := h.complete op val hval hin
    have hyoung : threshold ≤ val.inactiveHeight := by
      rcases of_decide_eq_true hkept with hact | hyoung
      · cases hact.symm.trans hin
      · exact hyoung
    rw [inactiveByHeight_pruneLoop]
    rw [← takeWhile_append_dropWhile (p := fun e : Nat × COutPoint =>
      decide ((e.1 : Int) < threshold)) (l := r.inactiveByHeight)] at hmem
    refine (mem_append.mp hmem).resolve_left fun htake => ?_
    have hold := mem_takeWhile_imp (p := fun e : Nat × COutPoint =>
      decide ((e.1 : Int) < threshold)) htake
    simp only [decide_eq_true_eq] at hold
    omega

/-- The two passes of `UpdateWithBlock`: a candidate comes in active, and a spent one with
its entry. -/
theorem passes (h : r.Indexed) (p : Params) (block : CBlock) (nHeight : Nat) :
    (block.spentOutpoints.foldl (CColdRewards.spendCandidate nHeight)
      (block.createdOutputs.foldl
        (CColdRewards.addCandidate (p.getMinRewardBalance nHeight) nHeight) r)).Indexed := by
  refine (closed nHeight).passes h p (fun o _ hr => hr.putInMap o.1 nofun) fun hr hval =>
    ⟨sorted_emplaceByHeight hr.sorted, ?_⟩
  refine Ledger.forall_insert (fun op' val' hval' hin => ?_) fun _ => ?_
  · exact mem_emplaceByHeight.mpr (.inr (hr.complete op' val' hval' hin))
  · exact mem_emplaceByHeight.mpr (.inl rfl)

theorem updateWithBlock (h : r.Indexed) (p : Params) (maxreorgdepth : Int) (block : CBlock)
    (nHeight : Nat) : (r.updateWithBlock p maxreorgdepth block nHeight).Indexed :=
  (h.passes p block nHeight).pruneLoop _

/-- **Connecting a block, at one outpoint**: what the two passes leave there,
unless it is inactive since below the threshold. -/
theorem getElem?_updateWithBlock (h : r.Indexed) (p : Params) (maxreorgdepth : Int)
    (block : CBlock) (nHeight : Nat) :
    (r.updateWithBlock p maxreorgdepth block nHeight).rewardMap[k]? =
      (connectedRecord p block nHeight k r.rewardMap[k]?).filter
        fun val => decide (Kept (nHeight - maxreorgdepth) val) := by
  rw [CColdRewards.updateWithBlock, (h.passes p block nHeight).getElem?_pruneLoop,
    getElem?_foldl_spendCandidate, getElem?_foldl_addCandidate]
  rfl

end Indexed

end CColdRewards

end DeVault
