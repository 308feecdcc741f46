import Mathlib

/-!
# Computations that may fail

General facts about `Except ε`, the monad in which the fallible procedures of this development are
written. `ε` is any type of failures.
-/

namespace Outcome

open List

universe u v w

variable {ε : Type u} {α : Type v} {β : Type v}

variable {x : Except ε α} {f : α → Except ε β}

/-- A successful bind is a successful first half followed by a successful
second half. -/
theorem bind_ok_iff {b : β} : (x >>= f) = .ok b ↔ ∃ a, x = .ok a ∧ f a = .ok b := by
  cases x with
  | error e => simp [bind, Except.bind]
  | ok a => simp [bind, Except.bind]

theorem bind_ok {a : α} {b : β} (hx : x = .ok a) (hf : f a = .ok b) : (x >>= f) = .ok b :=
  bind_ok_iff.mpr ⟨a, hx, hf⟩

theorem map_ok_iff {f : α → β} {b : β} : f <$> x = .ok b ↔ ∃ a, x = .ok a ∧ f a = b := by
  cases x <;> simp [Functor.map, Except.map]

/-- A computation behind a check succeeds exactly when the check does not fire and the computation
succeeds. -/
theorem guard_ok {c : Prop} [Decidable c] {e : ε} {a : α} {x : Except ε α} :
    (if c then .error e else x) = .ok a ↔ ¬c ∧ x = .ok a := by
  split <;> simp [*]

theorem exists_of_isOk (h : x.isOk = true) : ∃ a, x = .ok a := by
  cases x with
  | error e => cases h
  | ok a => exact ⟨a, rfl⟩

theorem ok_of_toOption {a : α} (h : x.toOption = some a) : x = .ok a := by
  cases x with
  | error e => cases h
  | ok b => exact congrArg _ (Option.some.inj h)

variable {e : ε}

/-- A failing bind fails in its first half or, after that succeeded, in its
second. -/
theorem bind_error_iff : (x >>= f) = .error e ↔ x = .error e ∨ ∃ a, x = .ok a ∧ f a = .error e := by
  cases x with
  | error e' => simp [bind, Except.bind]
  | ok a => simp [bind, Except.bind]

variable {γ : Type w}

theorem foldlM_cons_ok {f : β → γ → Except ε β} {a : γ} {l : List γ} {b c : β} :
    (a :: l).foldlM f b = .ok c ↔ ∃ b', f b a = .ok b' ∧ l.foldlM f b' = .ok c := by
  rw [foldlM_cons, bind_ok_iff]

/-- **Invariant rule of a fallible loop.** If `P` holds before the loop and every successful pass
over an element keeps it, it holds after a successful loop. -/
theorem foldlM_ok_induct {f : β → γ → Except ε β} {P : β → Prop} {l : List γ} :
    ∀ {b b' : β}, P b → (∀ b a b', a ∈ l → P b → f b a = .ok b' → P b') →
      l.foldlM f b = .ok b' → P b' := by
  induction l with
  | nil =>
    intro b b' hb _ h
    cases h
    exact hb
  | cons x l ih =>
    intro b b' hb hstep h
    obtain ⟨c, hc, h⟩ := foldlM_cons_ok.mp h
    refine ih (hstep b x c mem_cons_self hb hc) ?_ h
    intro b a b' ha
    exact hstep b a b' (mem_cons_of_mem _ ha)

theorem forM_ok_iff {f : γ → Except ε Unit} {l : List γ} :
    l.forM f = .ok () ↔ ∀ a ∈ l, f a = .ok () := by
  induction l with
  | nil => simp [pure, Except.pure]
  | cons a l ih =>
    have hcons : (a :: l).forM f = f a >>= fun _ => l.forM f := rfl
    rw [hcons, bind_ok_iff, forall_mem_cons, ← ih]
    exact ⟨fun ⟨_, h1, h2⟩ => ⟨h1, h2⟩, fun ⟨h1, h2⟩ => ⟨_, h1, h2⟩⟩

/-- A check: go on if the condition holds, fail otherwise. -/
def require (cond : Bool) (e : ε) : Except ε Unit :=
  if cond then .ok () else .error e

variable {cond : Bool}

theorem require_ok_iff {u : Unit} : require cond e = .ok u ↔ cond = true := by
  cases cond <;> simp [require]

theorem require_ok (h : cond = true) : require cond e = .ok () := require_ok_iff.mpr h

theorem require_error_iff {e' : ε} : require cond e = .error e' ↔ cond = false ∧ e = e' := by
  cases cond <;> simp [require]

/-! ### Failures that cannot happen -/

/-- If the computation fails, it is not with one of the bad failures. -/
def Avoids (bad : ε → Prop) (x : Except ε α) : Prop := ∀ e, x = .error e → ¬bad e

theorem Avoids.ok (bad : ε → Prop) (a : α) : Avoids bad (.ok a : Except ε α) :=
  nofun

variable {bad : ε → Prop}

theorem Avoids.error (h : ¬bad e) : Avoids bad (.error e : Except ε α) := by
  intro e' he
  cases he
  exact h

/-- A sequence avoids what both halves avoid; the second half may rely on the
success of the first. -/
theorem Avoids.bind (hx : Avoids bad x)
    (hf : ∀ a, x = .ok a → Avoids bad (f a)) : Avoids bad (x >>= f) := by
  intro e he
  rcases bind_error_iff.mp he with he | ⟨a, ha, he⟩
  · exact hx e he
  · exact hf a ha e he

theorem Avoids.require (h : ¬bad e) : Avoids bad (Outcome.require cond e) := by
  intro e' he
  rw [(require_error_iff.mp he).2.symm]
  exact h

/-- A loop avoids what every pass avoids, given an invariant of the accumulator. -/
theorem Avoids.foldlM {f : β → γ → Except ε β} {P : β → Prop} {l : List γ} :
    ∀ {b : β}, P b → (∀ b a, a ∈ l → P b → Avoids bad (f b a) ∧ ∀ b', f b a = .ok b' → P b') →
      Avoids bad (l.foldlM f b) := by
  induction l with
  | nil => exact fun {b} _ _ => Avoids.ok bad b
  | cons x l ih =>
    intro b hb hstep
    rw [foldlM_cons]
    obtain ⟨hx, hnext⟩ := hstep b x mem_cons_self hb
    refine hx.bind fun b' hb' => ih (hnext b' hb') ?_
    exact fun b a ha => hstep b a (mem_cons_of_mem _ ha)

theorem Avoids.forM {f : γ → Except ε Unit} {l : List γ}
    (h : ∀ a ∈ l, Avoids bad (f a)) : Avoids bad (l.forM f) := by
  induction l with
  | nil => exact Avoids.ok bad ()
  | cons a l ih =>
    have hcons : (a :: l).forM f = f a >>= fun _ => l.forM f := rfl
    rw [hcons]
    exact (h a mem_cons_self).bind fun _ _ => ih fun b hb => h b (mem_cons_of_mem _ hb)

/-- A map over a list succeeds when it does at every element. -/
theorem mapM_eq_some_map {α β : Type} {f : α → Option β} {g : α → β} {l : List α}
    (h : ∀ a ∈ l, f a = some (g a)) : l.mapM f = some (l.map g) := by
  induction l with
  | nil => rfl
  | cons a l ih =>
    obtain ⟨ha, hl⟩ := forall_mem_cons.mp h
    rw [mapM_cons, ha, ih hl]
    rfl

/-- What a map over a list that succeeds has found, element by element. -/
theorem forall₂_of_mapM_eq_some {α β : Type} {f : α → Option β} {l : List α} {bs : List β}
    (h : l.mapM f = some bs) : Forall₂ (fun a b => f a = some b) l bs := by
  induction l generalizing bs with
  | nil =>
    cases h
    exact Forall₂.nil
  | cons a l ih =>
    rw [mapM_cons] at h
    obtain ⟨b, hb, h⟩ := Option.bind_eq_some_iff.mp h
    obtain ⟨bs', hbs', h⟩ := Option.bind_eq_some_iff.mp h
    cases h
    exact Forall₂.cons hb (ih hbs')

end Outcome
