import Mathlib.Data.List.Sort
import Mathlib.Order.Lattice

/-!
# The upper median of a list

The upper median is the entry at index `length / 2` of the sorted list. What is needed of it is that
it can be compared by counting (`le_upperMedian_iff`). From that the median of a sliding window:
when an entry that is not below the median is put in front, the median does not fall.
-/

namespace OrderStatistic

open List

variable {α : Type*} [LinearOrder α] {l : List α} {x m : α}

/-- In a sorted list `x` is at most the entry at `k` exactly when at most `k` entries
lie below `x`. -/
theorem le_getElem_iff_countP_le {s : List α} (hs : s.Pairwise (· ≤ ·)) {k : Nat}
    (hk : s[k]? = some m) : x ≤ m ↔ s.countP (· < x) ≤ k := by
  induction s generalizing k with
  | nil => cases hk
  | cons a t ih =>
    obtain ⟨hle, ht⟩ := pairwise_cons.mp hs
    -- once `x ≤ a`, nothing in the list is below `x`
    have hnone : x ≤ a → (a :: t).countP (· < x) = 0 := by
      intro hxa
      refine countP_eq_zero.mpr fun b hb => ?_
      have hab : a ≤ b := by
        rcases mem_cons.mp hb with rfl | hb
        · exact le_refl _
        · exact hle b hb
      simpa using hxa.trans hab
    cases k with
    | zero =>
      obtain rfl : a = m := Option.some.inj hk
      refine ⟨fun hxa => (hnone hxa).le, fun hcount => ?_⟩
      have hzero := countP_eq_zero.mp (Nat.le_zero.mp hcount) a mem_cons_self
      simpa using hzero
    | succ k =>
      have hk' : t[k]? = some m := by simpa using hk
      rcases lt_or_ge a x with hlt | hge
      · have hcons : (a :: t).countP (· < x) = t.countP (· < x) + 1 :=
          countP_cons_of_pos (by simpa using hlt)
        rw [hcons, Nat.add_le_add_iff_right]
        exact ih ht hk'
      · have ham : a ≤ m := hle m (mem_of_getElem? hk')
        rw [hnone hge]
        exact ⟨fun _ => Nat.zero_le _, fun _ => hge.trans ham⟩

/-- The entry at index `length / 2` of the sorted list. -/
def upperMedian (l : List α) : Option α :=
  let sorted := l.insertionSort (· ≤ ·)
  sorted[sorted.length / 2]?

theorem upperMedian_ne_none (h : l ≠ []) : upperMedian l ≠ none := by
  have hpos : 0 < l.length := length_pos_iff.mpr h
  simp only [upperMedian, length_insertionSort, ne_eq, List.getElem?_eq_none_iff]
  omega

/-- **The median by counting.** -/
theorem le_upperMedian_iff (hm : upperMedian l = some m) :
    x ≤ m ↔ l.countP (· < x) ≤ l.length / 2 := by
  have hcount : (l.insertionSort (· ≤ ·)).countP (· < x) = l.countP (· < x) :=
    (perm_insertionSort (· ≤ ·) l).countP_eq _
  have hsorted : (l.insertionSort (· ≤ ·)).Pairwise (· ≤ ·) := pairwise_insertionSort (· ≤ ·) l
  rw [le_getElem_iff_countP_le hsorted hm, hcount, length_insertionSort]

/-- **A sliding window.** An entry that is not below the median of the newest `n`
entries does not lower it. -/
theorem upperMedian_le_of_slide {n : Nat} {m' : α} (hm : upperMedian (l.take n) = some m)
    (hx : m ≤ x) (hm' : upperMedian ((x :: l).take n) = some m') : m ≤ m' := by
  cases n with
  | zero => exact absurd hm (by simp [upperMedian])
  | succ n =>
    rw [take_succ_cons] at hm'
    rw [le_upperMedian_iff hm', countP_cons_of_neg (by simpa using hx)]
    have hold : (l.take (n + 1)).countP (· < m) ≤ (l.take (n + 1)).length / 2 :=
      (le_upperMedian_iff hm).mp le_rfl
    -- the entry that leaves the window can only lower the count
    have hdrop : (l.take n).countP (· < m) ≤ (l.take (n + 1)).countP (· < m) :=
      (take_sublist_take_left (Nat.le_succ n)).countP_le
    have hlength : (l.take (n + 1)).length ≤ (x :: l.take n).length := by
      simp only [length_take, length_cons]
      omega
    calc (l.take n).countP (· < m) ≤ (l.take (n + 1)).countP (· < m) := hdrop
      _ ≤ (l.take (n + 1)).length / 2 := hold
      _ ≤ (x :: l.take n).length / 2 := Nat.div_le_div_right hlength

end OrderStatistic
