import Mathlib.Logic.Basic
import Mathlib.Tactic.Common

/-!
# States between two states

A function is overwritten point by point, from `a` to `b`, and the work is cut off. What is
left is *between* `a` and `b`: at every point it has the value of one of the two
(`Between`). Such a state need not be any state that the system was ever in.

The work can be repaired by steps that *redo* the steps of a known history (`Redoes`): a
step writes its points without looking at what is there, and where it writes, the history
has the value written.
-/

variable {κ α : Type*} {a a' b x x' : κ → α}

/-- At every point, `x` has the value of `a` or that of `b`. -/
def Between (a b x : κ → α) : Prop := ∀ k, x k = a k ∨ x k = b k

/-- The step from `x` to `x'` does what the step from `a` to `a'` did: a point gets the value of
`a'`, or is left alone by both. -/
def Redoes (a a' x x' : κ → α) : Prop := ∀ k, x' k = a' k ∨ (x' k = x k ∧ a' k = a k)

namespace Between

theorem left (a b : κ → α) : Between a b a := fun _ => .inl rfl

/-- **Redoing a step.** -/
theorem redo (h : Between a b x) (hstep : Redoes a a' x x') : Between a' b x' := by
  intro k
  rcases hstep k with hset | ⟨hx, ha⟩
  · exact .inl hset
  · rw [hx, ha]
    exact h k

/-- Once the history has arrived at `b`, the state is `b`. -/
theorem eq (h : Between b b x) (k : κ) : x k = b k := (h k).elim id id

/-- **Cutting off again.** -/
theorem cut (h : Between a b x) (hcut : Between x b x') : Between a b x' := by
  intro k
  rcases hcut k with hold | hnew
  · rw [hold]
    exact h k
  · exact .inr hnew

theorem congr (h : Between a b x) (hx : ∀ k, x' k = x k) : Between a b x' :=
  h.cut fun k => .inl (hx k)

end Between
