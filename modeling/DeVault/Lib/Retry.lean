import Mathlib.Order.Basic
import Mathlib.Tactic.Common

/-!
# Loops that try again

A `while (true)` loop either tries again from a new state or leaves with a result.
`retry` runs such a loop with a bound on the number of turns.
-/

namespace Retry

variable {S R : Type}

/-- One turn of a loop. -/
inductive Turn (S R : Type) where
  | again (s : S)
  | leave (r : R)

/-- The loop, for a number of turns. -/
def retry (turn : S → Turn S R) : Nat → S → Option R
  | 0, _ => none
  | n + 1, s =>
    match turn s with
    | .again s' => retry turn n s'
    | .leave r => some r

variable {turn : S → Turn S R} {n : Nat} {s : S} {r : R}

/-- **The last turn.** The loop left from a state of which the invariant holds. -/
theorem retry_eq_some {P : S → Prop} (hturn : ∀ s s', P s → turn s = .again s' → P s')
    (hs : P s) (h : retry turn n s = some r) : ∃ s', P s' ∧ turn s' = .leave r := by
  induction n generalizing s with
  | zero => exact absurd h (by simp [retry])
  | succ n ih =>
    rw [retry] at h
    split at h
    next s' hagain => exact ih (hturn s s' hs hagain) h
    next r' hleave => exact ⟨s, hs, hleave.trans (congrArg Turn.leave (Option.some.inj h))⟩

/-- **The loop ends.** A measure that falls with every turn bounds the turns. -/
theorem exists_retry {P : S → Prop} (measure : S → Nat)
    (hturn : ∀ s s', P s → turn s = .again s' → P s' ∧ measure s' < measure s)
    (hs : P s) (hn : measure s < n) : ∃ r, retry turn n s = some r := by
  induction n generalizing s with
  | zero => exact absurd hn (Nat.not_lt_zero _)
  | succ n ih =>
    rw [retry]
    split
    next s' hagain =>
      obtain ⟨hs', hlt⟩ := hturn s s' hs hagain
      exact ih hs' (by omega)
    next r' _ => exact ⟨r', rfl⟩

end Retry
