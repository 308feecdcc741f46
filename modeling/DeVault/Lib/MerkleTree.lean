import Mathlib.Data.Nat.Log
import Mathlib.Logic.Function.Iterate
import Mathlib.Tactic

/-!
# Levels of a hash tree

`level node` makes the next level of a tree from a list of nodes: neighbours are joined, and a last
node without a neighbour is joined with itself. The leaves of a list are lost in this where the
padding is not told from content: `[a, b, c]` and `[a, b, c, c]` have the same next level.
`equalPair` finds such a pair of equal neighbours.
-/

namespace MerkleTree

open List

variable {H : Type} (node : H → H → H)

/-- The next level. -/
def level : List H → List H
  | [] => []
  | [a] => [node a a]
  | a :: b :: l => node a b :: level l

/-- Two neighbours that are joined are equal. -/
def equalPair [DecidableEq H] : List H → Bool
  | a :: b :: l => a == b || equalPair l
  | _ => false

/-- The pair hash determines its arguments. -/
def PairInjective : Prop := ∀ a b c d, node a b = node c d → a = c ∧ b = d

variable {node} {l l' : List H}

theorem length_level : (level node l).length = (l.length + 1) / 2 := by
  fun_induction level node l with
  | case1 => simp
  | case2 a => simp
  | case3 a b l ih =>
    simp only [length_cons, ih]
    omega

theorem level_eq_nil_iff : level node l = [] ↔ l = [] := by
  rw [← length_eq_zero_iff, length_level, ← length_eq_zero_iff]
  omega

/-- A node of the next level joins two neighbours, or the last node with itself. -/
theorem getElem?_level (i : Nat) :
    (level node l)[i]? = l[2 * i]?.map fun a => node a (l[2 * i + 1]?.getD a) := by
  fun_induction level node l generalizing i with
  | case1 => simp
  | case2 a =>
    cases i with
    | zero => simp
    | succ i =>
      have h : 2 * (i + 1) = (2 * i + 1) + 1 := by omega
      simp [h]
  | case3 a b l ih =>
    cases i with
    | zero => simp
    | succ i =>
      have h : 2 * (i + 1) = (2 * i) + 1 + 1 := by omega
      rw [getElem?_cons_succ, ih i, h, getElem?_cons_succ, getElem?_cons_succ,
        getElem?_cons_succ, getElem?_cons_succ]

/-- The nodes of a next level are made by `node`. -/
theorem exists_of_mem_level {x : H} (hx : x ∈ level node l) : ∃ a b, x = node a b := by
  obtain ⟨i, hi⟩ := mem_iff_getElem?.mp hx
  rw [getElem?_level] at hi
  obtain ⟨a, -, ha⟩ := Option.map_eq_some_iff.mp hi
  exact ⟨a, _, ha.symm⟩

section

variable (hinj : PairInjective node)
include hinj

/-- **One level is injective** on lists without equal neighbours. -/
theorem level_injective [DecidableEq H]
    (heq : level node l = level node l') (hl : equalPair l = false)
    (hl' : equalPair l' = false) : l = l' := by
  fun_induction level node l generalizing l' with
  | case1 => exact (level_eq_nil_iff.mp heq.symm).symm
  | case2 a =>
    match l' with
    | [] => exact absurd heq (by simp [level])
    | [b] =>
      have hab := (hinj _ _ _ _ (cons.inj heq).1).1
      rw [hab]
    | b :: c :: l' =>
      -- the single node is joined with itself, so the other list has equal neighbours
      obtain ⟨hb, hc⟩ := hinj _ _ _ _ (cons.inj heq).1
      rw [equalPair, ← hb, ← hc] at hl'
      exact absurd hl' (by simp)
  | case3 a b l ih =>
    match l' with
    | [] => exact absurd heq (by simp [level])
    | [c] =>
      obtain ⟨ha, hb⟩ := hinj _ _ _ _ (cons.inj heq).1
      rw [equalPair, ha, hb] at hl
      exact absurd hl (by simp)
    | c :: d :: l' =>
      obtain ⟨hhead, htail⟩ := cons.inj heq
      obtain ⟨rfl, rfl⟩ := hinj _ _ _ _ hhead
      rw [equalPair, Bool.or_eq_false_iff] at hl hl'
      rw [ih htail hl.2 hl'.2]

/-- **Several levels are injective** if none of them has equal neighbours. -/
theorem iterate_level_injective [DecidableEq H] {n : Nat}
    (heq : (level node)^[n] l = (level node)^[n] l')
    (hl : ∀ k < n, equalPair ((level node)^[k] l) = false)
    (hl' : ∀ k < n, equalPair ((level node)^[k] l') = false) : l = l' := by
  induction n generalizing l l' with
  | zero => exact heq
  | succ n ih =>
    have hnext : level node l = level node l' := by
      refine ih heq ?_ ?_
      · intro k hk
        exact hl (k + 1) (Nat.succ_lt_succ hk)
      · intro k hk
        exact hl' (k + 1) (Nat.succ_lt_succ hk)
    exact level_injective hinj hnext (hl 0 n.succ_pos) (hl' 0 n.succ_pos)

/-- A level over different nodes has different nodes: each has a left child of its own. -/
theorem nodup_level (hl : l.Nodup) : (level node l).Nodup := by
  rw [nodup_iff_injective_getElem]
  rintro ⟨i, hi⟩ ⟨j, hj⟩ hij
  have hnode : (level node l)[i]? = (level node l)[j]? := by
    rw [getElem?_eq_getElem hi, getElem?_eq_getElem hj]
    exact congrArg some hij
  rw [length_level] at hi hj
  have hi' : 2 * i < l.length := by omega
  have hj' : 2 * j < l.length := by omega
  rw [getElem?_level, getElem?_level, getElem?_eq_getElem hi',
    getElem?_eq_getElem hj'] at hnode
  have hleft := (hinj _ _ _ _ (Option.some.inj hnode)).1
  have hsame : 2 * i = 2 * j := (List.Nodup.getElem_inj_iff hl).mp hleft
  exact Fin.ext (by show i = j; omega)

/-- Levels over different leaves have different nodes. -/
theorem nodup_iterate_level (hl : l.Nodup) (n : Nat) : ((level node)^[n] l).Nodup := by
  induction n with
  | zero => exact hl
  | succ n ih =>
    rw [Function.iterate_succ_apply']
    exact nodup_level hinj ih

end

/-! ### How many nodes a level has -/

/-- The number of nodes after some levels: the quotient by `2 ^ n`, rounded up. -/
theorem length_iterate_level (n : Nat) :
    ((level node)^[n] l).length = (l.length + 2 ^ n - 1) / 2 ^ n := by
  induction n generalizing l with
  | zero => simp
  | succ n ih =>
    have hpos : 0 < 2 ^ n := Nat.two_pow_pos n
    rw [Function.iterate_succ_apply, ih, length_level, pow_succ', ← Nat.div_div_eq_div_mul]
    have hsplit : l.length + 2 * 2 ^ n - 1 = (l.length + 1) + 2 * (2 ^ n - 1) := by omega
    rw [hsplit, Nat.add_mul_div_left _ _ (by omega : 0 < 2)]
    congr 1
    omega

end MerkleTree
