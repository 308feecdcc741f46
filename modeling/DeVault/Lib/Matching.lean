import Mathlib

/-!
# Assigning demands to supplies

A list of demands is to be served from a list of supplies, each supply at most once. Which supply
can serve which demand is a relation `adm`. `Assignable` is the statement a reader wants, an
injective assignment of positions; `Serves` says the same through lists, for which there are
inductions.
-/

namespace Matching

open List

universe u v

variable {O : Type u} {I : Type v} {adm : O → I → Prop}

/-- Every demand has a supply that is admissible for it, different demands different ones. -/
def Assignable (adm : O → I → Prop) (os : List O) (is : List I) : Prop :=
  ∃ f : Fin os.length → Fin is.length, Function.Injective f ∧ ∀ k, adm (os.get k) (is.get (f k))

/-- The demands are served, one by one, by supplies taken out of `is`. -/
def Serves (adm : O → I → Prop) (os : List O) (is : List I) : Prop :=
  ∃ used, List.Forall₂ adm os used ∧ used.Subperm is

/-! ### Assignments of positions -/

variable {is : List I}

/-- Supplies taken out of a list stand at pairwise distinct positions of it. -/
theorem exists_positions_of_subperm {used : List I} (h : used.Subperm is) :
    ∃ pos : List (Fin is.length), pos.Nodup ∧ List.Forall₂ (fun i p => i = is.get p) used pos := by
  obtain ⟨sub, hperm, hsub⟩ := h
  rw [← map_get_finRange is, sublist_map_iff] at hsub
  obtain ⟨sorted, hsorted, rfl⟩ := hsub
  -- the positions of the sublist come in order; the permutation puts them in the order of `used`
  have hpos : List.Forall₂ (fun i p => i = is.get p) (sorted.map is.get) sorted := by
    rw [forall₂_map_left_iff]
    exact forall₂_same.mpr fun _ _ => rfl
  obtain ⟨pos, hused, hposperm⟩ := perm_comp_forall₂ hperm.symm hpos
  refine ⟨pos, ?_, hused⟩
  rw [hposperm.nodup_iff]
  exact hsorted.nodup (nodup_finRange _)

variable {os : List O}

/-- The supplies used are a sub-permutation of the supplies there are. -/
theorem assignable_iff_serves : Assignable adm os is ↔ Serves adm os is := by
  constructor
  · rintro ⟨f, hinj, hadm⟩
    refine ⟨(List.ofFn f).map is.get, ?_, ?_⟩
    · rw [forall₂_iff_get]
      refine ⟨by simp, ?_⟩
      intro k hk hk'
      simpa using hadm ⟨k, hk⟩
    · have hsub : (List.ofFn f).Subperm (List.finRange is.length) :=
        subperm_of_subset (nodup_ofFn.mpr hinj) fun p _ => mem_finRange p
      obtain ⟨sorted, hperm, hsorted⟩ := hsub
      refine ⟨sorted.map is.get, hperm.map is.get, ?_⟩
      simpa only [map_get_finRange] using hsorted.map is.get
  · rintro ⟨used, hadm, hsub⟩
    obtain ⟨pos, hnodup, hpos⟩ := exists_positions_of_subperm hsub
    have hlen : os.length = pos.length := hadm.length_eq.trans hpos.length_eq
    refine ⟨fun k => pos.get (k.cast hlen), ?_, ?_⟩
    · intro a b hab
      exact Fin.cast_injective hlen (nodup_iff_injective_get.mp hnodup hab)
    · intro k
      have hk : k.val < used.length := hadm.length_eq ▸ k.isLt
      have huse := (forall₂_iff_get.mp hadm).2 k.val k.isLt hk
      have heq := (forall₂_iff_get.mp hpos).2 k.val hk (hlen ▸ k.isLt)
      rw [heq] at huse
      exact huse

/-! ### The greedy step -/

theorem serves_nil (is : List I) : Serves adm [] is :=
  ⟨[], List.Forall₂.nil, nil_subperm⟩

theorem not_serves_cons {o : O} (h : ∀ i ∈ is, ¬adm o i) : ¬Serves adm (o :: os) is := by
  rintro ⟨used, hadm, hsub⟩
  cases hadm with
  | cons ho _ => exact h _ (hsub.subset mem_cons_self) ho

/-- Putting `j` in the place of a used `i` keeps an assignment, if `j` can do what `i` can. -/
theorem forall₂_exchange {i j : I} (hdom : ∀ o, adm o i → adm o j) :
    ∀ {used : List I}, List.Forall₂ adm os used → i ∈ used →
      ∃ used', List.Forall₂ adm os used' ∧ (i :: used').Perm (j :: used) := by
  intro used hadm
  induction hadm with
  | nil =>
    intro hi
    cases hi
  | @cons o a os used ho hadm ih =>
    intro hi
    by_cases hia : i = a
    · subst hia
      exact ⟨j :: used, .cons (hdom o ho) hadm, List.Perm.swap j i used⟩
    · obtain ⟨used', hadm', hperm⟩ := ih ((mem_cons.mp hi).resolve_left hia)
      refine ⟨a :: used', .cons ho hadm', ?_⟩
      calc (i :: a :: used').Perm (a :: i :: used') := List.Perm.swap a i used'
        _ |>.Perm (a :: j :: used) := hperm.cons a
        _ |>.Perm (j :: a :: used) := List.Perm.swap j a used

/-- **A greedy step is safe.** -/
theorem serves_cons_iff [DecidableEq I] {o : O} {i : I} (hi : i ∈ is)
    (ho : adm o i) (hdom : ∀ j ∈ is, adm o j → ∀ o', adm o' i → adm o' j) :
    Serves adm (o :: os) is ↔ Serves adm os (is.erase i) := by
  constructor
  · rintro ⟨used, hadm, hsub⟩
    cases hadm with
    | @cons _ j _ used hj hadm =>
      have hjis : j ∈ is := hsub.subset mem_cons_self
      by_cases hused : i ∈ used
      · -- somebody else has `i`: that demand takes `j` instead
        obtain ⟨used', hadm', hperm⟩ := forall₂_exchange (hdom j hjis hj) hadm hused
        refine ⟨used', hadm', ?_⟩
        have hsub' : (i :: used').Subperm is := (hperm.subperm).trans hsub
        simpa using hsub'.erase i
      · -- nobody else has `i`
        refine ⟨used, hadm, ?_⟩
        have htail : used.Subperm is := (sublist_cons_self j used).subperm.trans hsub
        simpa [erase_of_not_mem hused] using htail.erase i
  · rintro ⟨used, hadm, hsub⟩
    refine ⟨i :: used, .cons ho hadm, ?_⟩
    exact ((subperm_cons i).mpr hsub).trans (perm_cons_erase hi).symm.subperm

/-! ### Order -/

theorem Serves.of_perm {os' : List O} {is' : List I} (hos : os.Perm os') (his : is.Perm is')
    (h : Serves adm os is) : Serves adm os' is' := by
  obtain ⟨used, hadm, hsub⟩ := h
  obtain ⟨used', hadm', hperm⟩ := perm_comp_forall₂ hos.symm hadm
  exact ⟨used', hadm', (hperm.subperm.trans hsub).trans his.subperm⟩

end Matching
