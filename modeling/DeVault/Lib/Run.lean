import Mathlib

/-!
# Properties along a run

A machine takes inputs one after the other: `next s i` is the state after input
`i`, or `none` if the machine has stopped. `Along next P s is` says that along the
run on `is` from `s`, every input and the state it meets satisfy `P`.
-/

namespace Run

variable {σ ι : Type*}

/-- Every step of the run satisfies `P`. -/
def Along (next : σ → ι → Option σ) (P : σ → ι → Prop) : σ → List ι → Prop
  | _, [] => True
  | s, i :: is => P s i ∧ ∀ s', next s i = some s' → Along next P s' is

variable {next : σ → ι → Option σ} {s : σ} {is : List ι}

instance instDecidableAlong (P : σ → ι → Prop) [∀ s i, Decidable (P s i)] :
    ∀ s is, Decidable (Along next P s is)
  | _, [] => isTrue trivial
  | s, i :: is =>
    match h : next s i with
    | none => decidable_of_iff (P s i) ⟨fun hp => ⟨hp, fun s' hs' => by simp [h] at hs'⟩, And.left⟩
    | some s' =>
      have := instDecidableAlong P s' is
      decidable_of_iff (P s i ∧ Along next P s' is) (and_congr_right fun _ =>
        ⟨fun hrest t ht => Option.some.inj (h.symm.trans ht) ▸ hrest, fun hrest => hrest s' h⟩)

/-- **The invariant rule for an equivalence.** Along runs that satisfy `C`, a property that keeps
the invariant may be replaced by one that means the same wherever the invariant holds. -/
theorem along_iff (Inv : σ → Prop) {C A B : σ → ι → Prop}
    (hiff : ∀ s i, Inv s → C s i → (A s i ↔ B s i))
    (hstep : ∀ s i s', Inv s → C s i → B s i → next s i = some s' → Inv s')
    (hs : Inv s) (hC : Along next C s is) : Along next A s is ↔ Along next B s is := by
  induction is generalizing s with
  | nil => exact Iff.rfl
  | cons i is ih =>
    obtain ⟨hc, hrest⟩ := hC
    have hhead := hiff s i hs hc
    constructor
    · rintro ⟨ha, hlater⟩
      have hb := hhead.mp ha
      exact ⟨hb, fun s' hs' => (ih (hstep s i s' hs hc hb hs') (hrest s' hs')).mp (hlater s' hs')⟩
    · rintro ⟨hb, hlater⟩
      exact ⟨hhead.mpr hb,
        fun s' hs' => (ih (hstep s i s' hs hc hb hs') (hrest s' hs')).mpr (hlater s' hs')⟩

end Run
