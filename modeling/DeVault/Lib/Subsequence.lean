import Mathlib

/-!
# Matching a list with a subsequence of another

A list is matched with a subsequence of another if its elements are related to elements of the other
one, in the same order (`List.SublistForall₂`). `select` is the subsequence that the bits of a
number choose.
-/

namespace Subsequence

open List

variable {α β : Type*} {R : α → β → Prop}

/-! ### Greedy matching -/

variable {xs : List α} {ys : List β}

theorem sublistForall₂_tail {x : α}
    (h : SublistForall₂ R (x :: xs) ys) : SublistForall₂ R xs ys := by
  obtain ⟨zs, hforall, hsub⟩ := sublistForall₂_iff.mp h
  obtain ⟨z, zs', -, hforall', rfl⟩ := forall₂_cons_left_iff.mp hforall
  exact sublistForall₂_iff.mpr ⟨zs', hforall', (sublist_cons_self z zs').trans hsub⟩

/-- **The exchange.** -/
theorem sublistForall₂_cons_cons_iff {x : α} {y : β} :
    SublistForall₂ R (x :: xs) (y :: ys) ↔
      (R x y ∧ SublistForall₂ R xs ys) ∨ (¬ R x y ∧ SublistForall₂ R (x :: xs) ys) := by
  constructor
  · intro h
    by_cases hxy : R x y
    · refine .inl ⟨hxy, ?_⟩
      cases h with
      | cons _ htail => exact htail
      -- the first element is matched later: take the earlier one instead
      | cons_right hlater => exact sublistForall₂_tail hlater
    · refine .inr ⟨hxy, ?_⟩
      cases h with
      | cons hhead _ => exact absurd hhead hxy
      | cons_right hlater => exact hlater
  · rintro (⟨hxy, htail⟩ | ⟨-, hlater⟩)
    · exact .cons hxy htail
    · exact .cons_right hlater

theorem length_le_of_sublistForall₂ (h : SublistForall₂ R xs ys) : xs.length ≤ ys.length := by
  obtain ⟨zs, hforall, hsub⟩ := sublistForall₂_iff.mp h
  exact hforall.length_eq ▸ hsub.length_le

theorem sublistForall₂_reverse_iff :
    SublistForall₂ R xs.reverse ys.reverse ↔ SublistForall₂ R xs ys := by
  have hrev : ∀ {xs : List α} {ys : List β}, SublistForall₂ R xs ys →
      SublistForall₂ R xs.reverse ys.reverse := by
    intro xs ys h
    obtain ⟨zs, hforall, hsub⟩ := sublistForall₂_iff.mp h
    exact sublistForall₂_iff.mpr ⟨zs.reverse, rel_reverse hforall, hsub.reverse⟩
  refine ⟨fun h => ?_, hrev⟩
  have h := hrev h
  rwa [reverse_reverse, reverse_reverse] at h

/-- **A matching is a strictly increasing map of positions.** -/
theorem sublistForall₂_iff_strictMono :
    SublistForall₂ R xs ys ↔
      ∃ f : Fin xs.length → Fin ys.length, StrictMono f ∧ ∀ i, R (xs.get i) (ys.get (f i)) := by
  rw [sublistForall₂_iff]
  constructor
  · rintro ⟨zs, hforall, hsub⟩
    obtain ⟨g, hg⟩ := sublist_iff_exists_fin_orderEmbedding_get_eq.mp hsub
    obtain ⟨hlen, hrel⟩ := forall₂_iff_get.mp hforall
    refine ⟨fun i => g (Fin.cast hlen i), fun i j hij => ?_, fun i => ?_⟩
    · exact g.strictMono hij
    · have hi := hrel i.1 i.2 (hlen ▸ i.2)
      rw [← hg (Fin.cast hlen i)]
      exact hi
  · rintro ⟨f, hmono, hrel⟩
    refine ⟨ofFn fun i => ys.get (f i), ?_, ?_⟩
    · refine forall₂_iff_get.mpr ⟨by simp, fun i hi _ => ?_⟩
      simpa using hrel ⟨i, hi⟩
    · rw [sublist_iff_exists_fin_orderEmbedding_get_eq]
      have hcast : (ofFn fun i => ys.get (f i)).length = xs.length := length_ofFn
      refine ⟨(Fin.castOrderIso hcast).toOrderEmbedding.trans (OrderEmbedding.ofStrictMono f hmono),
        fun i => ?_⟩
      rw [get_ofFn]
      rfl

/-! ### Selection by bits -/

/-- The elements at the positions of the bits that are set. -/
def select : Nat → List β → List β
  | _, [] => []
  | bits, y :: ys => if bits % 2 = 1 then y :: select (bits / 2) ys else select (bits / 2) ys

theorem select_zero : select 0 ys = [] := by
  induction ys with
  | nil => rfl
  | cons y ys ih => simp [select, ih]

theorem eq_zero_of_select_eq_nil {bits : Nat} (hbits : bits < 2 ^ ys.length)
    (h : select bits ys = []) : bits = 0 := by
  induction ys generalizing bits with
  | nil => simpa using hbits
  | cons y ys ih =>
    rw [select] at h
    split at h
    · cases h
    · have hhalf := ih (by rw [length_cons, Nat.pow_succ] at hbits; omega) h
      omega

theorem length_select {bits w : Nat} (hbits : bits < 2 ^ ys.length)
    (hw : ys.length ≤ w) : (select bits ys).length = (range w).countP bits.testBit := by
  induction ys generalizing bits w with
  | nil =>
    obtain rfl : bits = 0 := by simpa using hbits
    symm
    simp [select]
  | cons y ys ih =>
    obtain ⟨w, rfl⟩ : ∃ w', w = w' + 1 := ⟨w - 1, by rw [length_cons] at hw; omega⟩
    rw [length_cons] at hw hbits
    have hhalf : bits / 2 < 2 ^ ys.length := by
      rw [Nat.div_lt_iff_lt_mul (by decide), ← Nat.pow_succ]
      exact hbits
    have hcount : (range (w + 1)).countP bits.testBit =
        (if bits % 2 = 1 then 1 else 0) + (range w).countP (bits / 2).testBit := by
      rw [range_succ_eq_map, countP_cons, countP_map, Nat.add_comm]
      congr 1
      · simp [Nat.testBit_zero]
      · refine congrArg (fun p => (range w).countP p) ?_
        funext i
        exact Nat.testBit_succ bits i
    rw [hcount, ← ih hhalf (by omega), select]
    split
    · rw [length_cons, Nat.add_comm]
    · rw [Nat.zero_add]

/-- The selected elements are those with a bit, in order. -/
theorem select_eq_filter (bits : Nat) :
    select bits ys = (ys.zipIdx.filter fun p => bits.testBit p.2).map Prod.fst := by
  suffices h : ∀ k, select (bits >>> k) ys =
      ((ys.zipIdx k).filter fun p => bits.testBit p.2).map Prod.fst by
    simpa using h 0
  induction ys with
  | nil => intro k; rfl
  | cons y ys ih =>
    intro k
    have hbit : bits.testBit k = decide ((bits >>> k) % 2 = 1) := by
      rw [← Nat.testBit_zero, Nat.testBit_shiftRight, Nat.add_zero]
    rw [select, zipIdx_cons, filter_cons, ← Nat.shiftRight_succ, ih (k + 1), hbit]
    split
    next h => rw [if_pos (decide_eq_true h), map_cons]
    next h => rw [if_neg (by rw [decide_eq_false h]; decide)]

end Subsequence
