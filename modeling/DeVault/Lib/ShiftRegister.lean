import Mathlib

/-!
# Shift registers with linear feedback

A checksum register takes one value after the other: `feed shift c d` shifts the register and adds
the value, where adding is exclusive or. If the shift is linear, the difference of two runs is the
run of the differences. So a change inside a window is lost only if the register does not tell the
values of the window apart, or if shifting can clear it.
-/

namespace ShiftRegister

open List

variable {w : Nat}

variable (shift : BitVec w → BitVec w)

/-- One value into the register. -/
def feed (c d : BitVec w) : BitVec w := shift c ^^^ d

/-- A list of values into the register. -/
def run (c : BitVec w) (v : List (BitVec w)) : BitVec w :=
  v.foldl (feed shift) c

/-- The shift is linear. -/
def Linear : Prop :=
  ∀ a b, shift (a ^^^ b) = shift a ^^^ shift b

variable {shift : BitVec w → BitVec w} {a b c d : BitVec w} {v u x y tail : List (BitVec w)}

@[simp] theorem run_nil : run shift c [] = c := rfl

@[simp] theorem run_cons : run shift c (d :: v) = run shift (shift c ^^^ d) v := rfl

theorem run_append : run shift c (v ++ u) = run shift (run shift c v) u :=
  foldl_append

/-- **Superposition.** -/
theorem run_xor (h : Linear shift) (hlen : v.length = u.length) :
    run shift (a ^^^ b) (zipWith (· ^^^ ·) v u) = run shift a v ^^^ run shift b u := by
  induction v generalizing a b u with
  | nil =>
    obtain rfl : u = [] := eq_nil_of_length_eq_zero hlen.symm
    rfl
  | cons d v ih =>
    cases u with
    | nil => cases hlen
    | cons e u =>
      have hstep : shift (a ^^^ b) ^^^ (d ^^^ e) = (shift a ^^^ d) ^^^ (shift b ^^^ e) := by
        rw [h a b]
        ac_rfl
      rw [zipWith_cons_cons, run_cons, run_cons, run_cons, hstep]
      exact ih (by simpa using hlen)

theorem zipWith_xor_self : zipWith (· ^^^ ·) v v = replicate v.length 0#w := by
  induction v with
  | nil => rfl
  | cons d v ih => rw [zipWith_cons_cons, ih, BitVec.xor_self]; rfl

theorem zipWith_replicate_zero : zipWith (· ^^^ ·) (replicate v.length 0#w) v = v := by
  induction v with
  | nil => rfl
  | cons d v ih =>
    rw [length_cons, replicate_succ, zipWith_cons_cons, ih, BitVec.zero_xor]

/-- What the values do to the register does not depend on what was in it. -/
theorem run_eq_xor (h : Linear shift) (c : BitVec w) (v : List (BitVec w)) :
    run shift c v = run shift c (replicate v.length 0#w) ^^^ run shift 0#w v := by
  rw [← run_xor h (by simp), BitVec.xor_zero, zipWith_replicate_zero]

/-- The register keeps its invariant while zeros are shifted in, and is not cleared by
them. -/
theorem run_replicate_eq_zero {P : BitVec w → Prop} (hP : ∀ c, P c → P (shift c))
    (hker : ∀ c, P c → shift c = 0#w → c = 0#w) {n : Nat} (hc : P c)
    (h : run shift c (replicate n 0#w) = 0#w) : c = 0#w := by
  induction n generalizing c with
  | zero => exact h
  | succ n ih =>
    rw [replicate_succ, run_cons, BitVec.xor_zero] at h
    exact hker c hc (ih (hP c hc) h)

/-- **A change inside a window is seen.** `P` holds of the registers that occur, and
`hwindow` says that an empty register tells the values of the window apart. -/
theorem eq_of_run_window {P : BitVec w → Prop} (hlin : Linear shift)
    (hP : ∀ c, P c → P (shift c)) (hker : ∀ c, P c → shift c = 0#w → c = 0#w)
    (hlen : x.length = y.length) (hx : P (run shift 0#w x ^^^ run shift 0#w y))
    (hwindow : run shift 0#w x = run shift 0#w y → x = y)
    (h : run shift c (v ++ (x ++ tail)) = run shift c (v ++ (y ++ tail))) : x = y := by
  rw [run_append, run_append, run_append, run_append] at h
  -- the difference after the window does not depend on what came before it
  have hdiff : run shift (run shift c v) x ^^^ run shift (run shift c v) y =
      run shift 0#w x ^^^ run shift 0#w y := by
    rw [run_eq_xor hlin _ x, run_eq_xor hlin _ y, hlen]
    calc _ = (run shift (run shift c v) (replicate y.length 0#w) ^^^
              run shift (run shift c v) (replicate y.length 0#w)) ^^^
            (run shift 0#w x ^^^ run shift 0#w y) := by ac_rfl
      _ = _ := by rw [BitVec.xor_self, BitVec.zero_xor]
  -- shifted through the rest it becomes zero, so it was zero
  have hrest := run_xor hlin (a := run shift (run shift c v) x) (b := run shift (run shift c v) y)
    (rfl : tail.length = tail.length)
  rw [h, BitVec.xor_self, zipWith_xor_self, hdiff] at hrest
  exact hwindow (BitVec.xor_eq_zero_iff.mp (run_replicate_eq_zero hP hker hx hrest))

end ShiftRegister
