import Mathlib

/-!
# Scanning a list for its best element

A loop that runs over a list and remembers the best eligible element so far.
Nothing here names the program.
-/

namespace Scan

open List

universe u v

variable {α : Type u} {σ : Type v}

/-- **Invariant rule of a loop over a list.** -/
theorem foldl_prefix_induct {f : σ → α → σ} {P : List α → σ → Prop} {l : List α} {s : σ}
    (h0 : P [] s)
    (hstep : ∀ seen e rest s, l = seen ++ e :: rest → P seen s → P (seen ++ [e]) (f s e)) :
    P l (l.foldl f s) := by
  have hrun : ∀ (rest seen : List α) (s : σ), l = seen ++ rest → P seen s →
      P l (rest.foldl f s) := by
    intro rest
    induction rest with
    | nil =>
      intro seen s hl h
      rw [append_nil] at hl
      exact hl ▸ h
    | cons e rest ih =>
      intro seen s hl h
      refine ih (seen ++ [e]) (f s e) ?_ (hstep seen e rest s hl h)
      rw [hl, append_assoc, singleton_append]
  exact hrun l [] s rfl h0

section IsBest

variable (elig : α → Prop) (le : α → α → Prop)

/-- `best` is the first eligible element of `seen` in the order `le`. -/
def IsBest (seen : List α) : Option α → Prop
  | none => ∀ e ∈ seen, ¬elig e
  | some b => b ∈ seen ∧ elig b ∧ ∀ e ∈ seen, elig e → le b e

variable {elig le} {seen : List α} {b e : α}

theorem IsBest.nil : IsBest elig le [] none := nofun

theorem IsBest.skip {best : Option α} (h : IsBest elig le seen best) (he : ¬elig e) :
    IsBest elig le (seen ++ [e]) best := by
  cases best with
  | none =>
    intro x hx
    rcases mem_append.mp hx with hx | hx
    · exact h x hx
    · rwa [mem_singleton.mp hx]
  | some b =>
    obtain ⟨hb, helig, hle⟩ := h
    refine ⟨mem_append_left _ hb, helig, fun x hx hxe => ?_⟩
    rcases mem_append.mp hx with hx | hx
    · exact hle x hx hxe
    · exact absurd (mem_singleton.mp hx ▸ hxe) he

theorem IsBest.first (h : IsBest elig le seen none) (he : elig e) (hrefl : le e e) :
    IsBest elig le (seen ++ [e]) (some e) := by
  refine ⟨mem_append_right _ (mem_singleton.mpr rfl), he, fun x hx hxe => ?_⟩
  rcases mem_append.mp hx with hx | hx
  · exact absurd hxe (h x hx)
  · rwa [mem_singleton.mp hx]

/-- An eligible element that comes before the best one replaces it. -/
theorem IsBest.replace (htrans : ∀ {x y z}, le x y → le y z → le x z)
    (h : IsBest elig le seen (some b)) (he : elig e) (hrefl : le e e) (heb : le e b) :
    IsBest elig le (seen ++ [e]) (some e) := by
  refine ⟨mem_append_right _ (mem_singleton.mpr rfl), he, fun x hx hxe => ?_⟩
  rcases mem_append.mp hx with hx | hx
  · exact htrans heb (h.2.2 x hx hxe)
  · rwa [mem_singleton.mp hx]

theorem IsBest.keep (h : IsBest elig le seen (some b)) (hbe : le b e) :
    IsBest elig le (seen ++ [e]) (some b) := by
  obtain ⟨hb, helig, hle⟩ := h
  refine ⟨mem_append_left _ hb, helig, fun x hx hxe => ?_⟩
  rcases mem_append.mp hx with hx | hx
  · exact hle x hx hxe
  · rwa [mem_singleton.mp hx]

/-- **The best element does not depend on the order of the scan**, if no two elements come
before each other. -/
theorem IsBest.unique {seen' : List α} {best best' : Option α}
    (hanti : ∀ x ∈ seen, ∀ y ∈ seen, le x y → le y x → x = y)
    (hsame : ∀ x, x ∈ seen' ↔ x ∈ seen) (h : IsBest elig le seen best)
    (h' : IsBest elig le seen' best') : best' = best := by
  cases best with
  | none =>
    cases best' with
    | none => rfl
    | some b' => exact absurd h'.2.1 (h b' ((hsame b').mp h'.1))
  | some b =>
    cases best' with
    | none => exact absurd h.2.1 (h' b ((hsame b).mpr h.1))
    | some b' =>
      have hmem := (hsame b').mp h'.1
      have hle : le b' b := h'.2.2 b ((hsame b).mpr h.1) h.2.1
      exact congrArg some (hanti b' hmem b h.1 hle (h.2.2 b' hmem h'.2.1))

end IsBest

/-- A comparison by one criterion first and by another one between equals is transitive. -/
theorem lex_trans {r : α → α → Prop} [IsTrans α r] {a b c : α} {P Q R : Prop}
    (hab : r a b ∨ a = b ∧ P) (hbc : r b c ∨ b = c ∧ Q) (h : P → Q → R) : r a c ∨ a = c ∧ R := by
  rcases hab with hab | ⟨rfl, hp⟩
  · rcases hbc with hbc | ⟨rfl, -⟩
    · exact Or.inl (Trans.trans hab hbc)
    · exact Or.inl hab
  · exact hbc.imp id (And.imp_right (h hp))

end Scan
