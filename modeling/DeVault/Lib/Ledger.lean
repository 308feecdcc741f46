import Mathlib

/-!
# Finite ordered maps with weighted entries

The ordered map of the standard library, `Std.ExtTreeMap`, is extensional: two maps with the same
lookups are equal. This file adds what an accounting proof needs on top of it: maps of counters, and
the sum of a function over the entries.
-/

namespace Ledger

open Std List

variable {K V : Type} [Ord K] [TransOrd K] [LawfulEqOrd K]

/-! ### Lookups at equal and at distinct keys -/

variable (m : ExtTreeMap K V)

theorem getElem?_insert [DecidableEq K] (k : K) (v : V) (a : K) :
    (m.insert k v)[a]? = if k = a then some v else m[a]? := by
  rw [ExtTreeMap.getElem?_insert]
  exact if_congr LawfulEqCmp.compare_eq_iff_eq rfl rfl

theorem getElem?_erase [DecidableEq K] (k a : K) :
    (m.erase k)[a]? = if k = a then none else m[a]? := by
  rw [ExtTreeMap.getElem?_erase]
  exact if_congr LawfulEqCmp.compare_eq_iff_eq rfl rfl

theorem getElem?_insertIfNew [DecidableEq K] (k : K) (v : V) (a : K) :
    (m.insertIfNew k v)[a]? = if k = a ∧ m[a]? = none then some v else m[a]? := by
  rw [ExtTreeMap.getElem?_insertIfNew]
  by_cases hk : k = a
  · subst hk
    cases hm : m[k]? with
    | none => simp [ExtTreeMap.mem_iff_isSome_getElem?, hm]
    | some w => simp [ExtTreeMap.mem_iff_isSome_getElem?, hm]
  · simp [hk, LawfulEqCmp.compare_eq_iff_eq]

theorem insert_insert (k : K) (v w : V) : (m.insert k v).insert k w = m.insert k w := by
  classical
  refine ExtTreeMap.ext_getElem? fun a => ?_
  rw [getElem?_insert, getElem?_insert, getElem?_insert]
  split <;> rfl

theorem erase_insert (k : K) (v : V) : (m.insert k v).erase k = m.erase k := by
  classical
  refine ExtTreeMap.ext_getElem? fun a => ?_
  rw [getElem?_erase, getElem?_erase, getElem?_insert]
  split <;> rfl

variable {m : ExtTreeMap K V} {k : K} {v : V}

/-- A property of all entries survives writing an entry that has it. -/
theorem forall_insert {P : K → V → Prop} (h : ∀ (a : K) b, m[a]? = some b → P a b) (hk : P k v) :
    ∀ (a : K) b, (m.insert k v)[a]? = some b → P a b := by
  classical
  intro a b hab
  rw [getElem?_insert] at hab
  split at hab
  next hka =>
    cases hab
    exact hka ▸ hk
  · exact h a b hab

theorem forall_erase {P : K → V → Prop} (h : ∀ (a : K) b, m[a]? = some b → P a b) (k : K) :
    ∀ (a : K) b, (m.erase k)[a]? = some b → P a b := by
  classical
  intro a b hab
  rw [getElem?_erase] at hab
  split at hab
  · cases hab
  · exact h a b hab

/-! ### Counters -/

/-- A map of counters read at a key; an absent key counts zero. -/
def count (m : ExtTreeMap K Nat) (k : K) : Nat := m[k]?.getD 0

/-- `++m[k]`. -/
def increment (m : ExtTreeMap K Nat) (k : K) : ExtTreeMap K Nat :=
  m.insert k (count m k + 1)

omit [LawfulEqOrd K] in
theorem getElem?_of_count_pos {m : ExtTreeMap K Nat} {k : K} (h : 0 < count m k) :
    m[k]? = some (count m k) := by
  unfold count at h ⊢
  cases hk : m[k]? with
  | none => simp [hk] at h
  | some n => rfl

theorem count_insert [DecidableEq K] (m : ExtTreeMap K Nat) (k : K) (n : Nat) (a : K) :
    count (m.insert k n) a = if k = a then n else count m a := by
  rw [count, getElem?_insert]
  split <;> rfl

theorem count_increment [DecidableEq K] (m : ExtTreeMap K Nat) (k a : K) :
    count (increment m k) a = count m a + if k = a then 1 else 0 := by
  rw [increment, count_insert]
  split
  next h => rw [h]
  · rfl

/-! ### Weights -/

/-- The total of `f` over all entries of a finite map. -/
def weight (f : K → V → Int) (m : ExtTreeMap K V) : Int :=
  (m.toList.map fun p => f p.1 p.2).sum

/-- What the entry at `k`, if there is one, contributes to the total. -/
def weightAt (f : K → V → Int) (m : ExtTreeMap K V) (k : K) : Int :=
  (m[k]?.map (f k)).getD 0

variable (f : K → V → Int)

omit [LawfulEqOrd K] in
@[simp] theorem weight_empty : weight f (∅ : ExtTreeMap K V) = 0 := by
  have h : (∅ : ExtTreeMap K V).toList = [] := ExtTreeMap.toList_eq_nil_iff.mpr rfl
  rw [weight, h, map_nil, sum_nil]

variable {f : K → V → Int}

omit [LawfulEqOrd K] in
theorem weightAt_of_none (h : m[k]? = none) : weightAt f m k = 0 := by
  simp [weightAt, h]

omit [LawfulEqOrd K] in
theorem weightAt_of_some (h : m[k]? = some v) : weightAt f m k = f k v := by
  simp [weightAt, h]

/-- The entries of a map carry pairwise distinct keys, hence no repetition. -/
theorem nodup_keys (m : ExtTreeMap K V) : (m.toList.map (·.1)).Nodup := by
  refine pairwise_map.mpr (ExtTreeMap.distinct_keys_toList.imp ?_)
  exact fun hne heq => hne (LawfulEqCmp.compare_eq_iff_eq.mpr heq)

theorem nodup_toList : m.toList.Nodup := (nodup_keys m).of_map

/-- Up to order, writing `k ↦ v` puts one entry in front of the other keys. -/
theorem toList_insert_perm : (m.insert k v).toList.Perm ((k, v) :: (m.erase k).toList) := by
  refine (perm_ext_iff_of_nodup nodup_toList ?_).mpr ?_
  · refine nodup_cons.mpr ⟨?_, nodup_toList⟩
    intro h
    rw [ExtTreeMap.mem_toList_iff_getElem?_eq_some] at h
    simp at h
  · rintro ⟨a, b⟩
    rw [mem_cons, ExtTreeMap.mem_toList_iff_getElem?_eq_some,
      ExtTreeMap.mem_toList_iff_getElem?_eq_some, ExtTreeMap.getElem?_insert,
      ExtTreeMap.getElem?_erase]
    by_cases hka : k = a
    · subst hka
      simp [eq_comm]
    · have hcmp : compare k a ≠ .eq := fun hc => hka (LawfulEqCmp.eq_of_compare hc)
      simp only [if_neg hcmp, Prod.mk.injEq]
      exact ⟨Or.inr, fun h => h.resolve_left fun hh => hka hh.1.symm⟩

theorem erase_of_none (h : m[k]? = none) : m.erase k = m := by
  refine ExtTreeMap.ext_getElem? fun a => ?_
  rw [ExtTreeMap.getElem?_erase]
  split
  next hc => rw [← LawfulEqCmp.eq_of_compare hc, h]
  · rfl

theorem insert_of_some (h : m[k]? = some v) : m.insert k v = m := by
  refine ExtTreeMap.ext_getElem? fun a => ?_
  rw [ExtTreeMap.getElem?_insert]
  split
  next hc => rw [← LawfulEqCmp.eq_of_compare hc, h]
  · rfl

theorem weight_insert_erase : weight f (m.insert k v) = f k v + weight f (m.erase k) := by
  unfold weight
  rw [(toList_insert_perm.map _).sum_eq, map_cons, sum_cons]

/-- Erasing a key takes exactly its contribution out of the total. -/
theorem weight_erase : weight f (m.erase k) = weight f m - weightAt f m k := by
  cases h : m[k]? with
  | none => rw [erase_of_none h, weightAt_of_none h, sub_zero]
  | some v =>
    have hins := weight_insert_erase (f := f) (m := m) (k := k) (v := v)
    rw [insert_of_some h] at hins
    rw [weightAt_of_some h, hins]
    ring

/-- Writing `k ↦ v` replaces the contribution of `k` by `f k v`. -/
theorem weight_insert : weight f (m.insert k v) = weight f m - weightAt f m k + f k v := by
  rw [weight_insert_erase, weight_erase]
  ring

theorem weight_nonneg (hf : ∀ (k : K) v, m[k]? = some v → 0 ≤ f k v) : 0 ≤ weight f m := by
  refine sum_nonneg (forall_mem_map.mpr fun p hmem => ?_)
  exact hf p.1 p.2 (ExtTreeMap.mem_toList_iff_getElem?_eq_some.mp hmem)

/-! ### Overlays -/

/-- A map under a list of pending operations: `some v` writes, `none` erases. -/
def overlay (m : ExtTreeMap K V) (l : List (K × Option V)) : ExtTreeMap K V :=
  l.foldl (fun m p => match p.2 with
    | some v => m.insert p.1 v
    | none => m.erase p.1) m

omit [LawfulEqOrd K] in
theorem overlay_cons (p : K × Option V) (l : List (K × Option V)) : overlay m (p :: l) =
      overlay (match p.2 with
        | some v => m.insert p.1 v
        | none => m.erase p.1) l := rfl

omit [LawfulEqOrd K] in
/-- One pending operation decides the lookup at its own key only. -/
theorem getElem?_overlay_single (p : K × Option V) : (match p.2 with
      | some v => m.insert p.1 v
      | none => m.erase p.1)[k]? = if compare p.1 k = .eq then p.2 else m[k]? := by
  obtain ⟨a, o⟩ := p
  cases o with
  | none => exact ExtTreeMap.getElem?_erase
  | some v => exact ExtTreeMap.getElem?_insert

variable {l : List (K × Option V)}

theorem getElem?_overlay_of_notMem (h : ∀ p ∈ l, p.1 ≠ k) : (overlay m l)[k]? = m[k]? := by
  induction l generalizing m with
  | nil => rfl
  | cons p l ih =>
    rw [overlay_cons, ih fun q hq => h q (mem_cons_of_mem _ hq), getElem?_overlay_single,
      if_neg fun hc => h p mem_cons_self (LawfulEqCmp.eq_of_compare hc)]

/-- With one operation per key, the operation on `k` is what a lookup finds. -/
theorem getElem?_overlay_of_mem (hl : (l.map Prod.fst).Nodup) {o : Option V} (h : (k, o) ∈ l) :
    (overlay m l)[k]? = o := by
  induction l generalizing m with
  | nil => cases h
  | cons p l ih =>
    rw [map_cons, nodup_cons] at hl
    rw [overlay_cons]
    rcases mem_cons.mp h with rfl | h
    · rw [getElem?_overlay_of_notMem, getElem?_overlay_single, if_pos Std.ReflCmp.compare_self]
      intro q hq hqk
      exact hl.1 (mem_map.mpr ⟨q, hq, hqk⟩)
    · exact ih hl.2 h

/-- One pending operation replaces the contribution of its key. -/
theorem weight_overlay_single (p : K × Option V) : weight f (match p.2 with
      | some v => m.insert p.1 v
      | none => m.erase p.1) = weight f m + ((p.2.map (f p.1)).getD 0 - weightAt f m p.1) := by
  obtain ⟨k, o⟩ := p
  cases o with
  | none =>
    change weight f (m.erase k) = weight f m + (0 - weightAt f m k)
    rw [weight_erase]
    ring
  | some v =>
    change weight f (m.insert k v) = weight f m + (f k v - weightAt f m k)
    rw [weight_insert]
    ring

/-- The total under pending operations, one per key: each replaces the
contribution its key had in the map below. -/
theorem weight_overlay (f : K → V → Int) (hl : (l.map Prod.fst).Nodup) :
    weight f (overlay m l) =
      weight f m + (l.map fun p => (p.2.map (f p.1)).getD 0 - weightAt f m p.1).sum := by
  induction l generalizing m with
  | nil => exact (add_zero _).symm
  | cons p l ih =>
    rw [map_cons, nodup_cons] at hl
    -- the operations still to come act on other keys, so they see the old map
    have hsame : ∀ q ∈ l, weightAt f (match p.2 with
        | some v => m.insert p.1 v
        | none => m.erase p.1) q.1 = weightAt f m q.1 := by
      intro q hq
      rw [weightAt, getElem?_overlay_single, if_neg, weightAt]
      intro hc
      refine hl.1 (mem_map.mpr ⟨q, hq, ?_⟩)
      exact (LawfulEqCmp.eq_of_compare hc).symm
    have hmap := map_congr_left fun q hq =>
      congrArg (fun x => (q.2.map (f q.1)).getD 0 - x) (hsame q hq)
    rw [overlay_cons, ih hl.2, hmap, weight_overlay_single, map_cons, sum_cons]
    ring

end Ledger
