import Mathlib

/-!
# Numbers in a base, highest digit first

`ofBE b l` is the number with the digits `l` in base `b`. It is `Nat.ofDigits` with
the digits in the order in which a stream carries them.
-/

namespace Radix

open List

/-- The number with the given digits, highest first. -/
def ofBE (b : Nat) (l : List Nat) : Nat := l.foldl (fun n d => b * n + d) 0

variable {b : Nat} {l l' : List Nat} {d : Nat}

@[simp] theorem ofBE_nil : ofBE b [] = 0 := rfl

/-- Reading one more digit. -/
@[simp] theorem ofBE_concat : ofBE b (l ++ [d]) = b * ofBE b l + d := by
  simp [ofBE]

theorem ofBE_eq_ofDigits : ofBE b l = Nat.ofDigits b l.reverse := by
  induction l using reverseRecOn with
  | nil => rfl
  | append_singleton l d ih =>
    rw [ofBE_concat, reverse_concat, Nat.ofDigits_cons, ih]
    exact Nat.add_comm _ _

/-- Reading on multiplies what was read by a power of the base. -/
theorem ofBE_append : ofBE b (l ++ l') = ofBE b l * b ^ l'.length + ofBE b l' := by
  induction l' using reverseRecOn with
  | nil => simp
  | append_singleton l' d ih =>
    rw [← append_assoc, ofBE_concat, ofBE_concat, ih, length_append, length_singleton, pow_succ]
    ring

theorem ofBE_cons : ofBE b (d :: l) = d * b ^ l.length + ofBE b l := by
  have hsingle : ofBE b [d] = d := by simp [ofBE]
  rw [← singleton_append, ofBE_append, hsingle]

/-- The digits of a number make the number. -/
theorem ofBE_digits (b m n : Nat) :
    ofBE b ((range n).map fun i => m / b ^ (n - 1 - i) % b) = m % b ^ n := by
  induction n generalizing m with
  | zero => simp [Nat.mod_one]
  | succ n ih =>
    -- all but the last are the digits of the quotient
    have hhead : ((range n).map fun i => m / b ^ (n + 1 - 1 - i) % b) =
        (range n).map fun i => m / b / b ^ (n - 1 - i) % b := by
      refine map_congr_left fun i hi => ?_
      have hlt := mem_range.mp hi
      rw [Nat.div_div_eq_div_mul, ← pow_succ']
      congr 3
      omega
    rw [range_succ, map_append, map_singleton, ofBE_concat, hhead, ih]
    have hlast : n + 1 - 1 - n = 0 := by omega
    rw [hlast, pow_zero, Nat.div_one, pow_succ', Nat.mod_mul, Nat.add_comm]

/-- `n` digits make a number below `b ^ n`. -/
theorem ofBE_lt (hl : ∀ d ∈ l, d < b) : ofBE b l < b ^ l.length := by
  induction l using reverseRecOn with
  | nil => simp
  | append_singleton l d ih =>
    have hd : d < b := hl d (mem_append_right _ mem_cons_self)
    have hrest := ih fun e he => hl e (mem_append_left _ he)
    rw [ofBE_concat, length_append, length_singleton, pow_succ]
    calc b * ofBE b l + d
        < b * ofBE b l + b := Nat.add_lt_add_left hd _
      _ = (ofBE b l + 1) * b := by ring
      _ ≤ b ^ l.length * b := Nat.mul_le_mul_right b hrest

/-- A number has one list of digits of a given length. -/
theorem ofBE_injective (hb : 1 < b) (hlen : l.length = l'.length) (hl : ∀ d ∈ l, d < b)
    (hl' : ∀ d ∈ l', d < b) (h : ofBE b l = ofBE b l') : l = l' := by
  rw [ofBE_eq_ofDigits, ofBE_eq_ofDigits] at h
  have hrev := Nat.ofDigits_inj_of_len_eq hb (by simpa using hlen)
    (fun d hd => hl d (mem_reverse.mp hd)) (fun d hd => hl' d (mem_reverse.mp hd)) h
  exact reverse_injective hrev

end Radix
