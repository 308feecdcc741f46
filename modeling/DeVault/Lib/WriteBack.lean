import DeVault.Lib.Ledger

/-!
# A map in memory over a store on disk

A program keeps a map in memory and writes it to a store now and then. Between
two writes it remembers which keys it wrote (`dirty`) and which it removed
(`erased`), and one batch brings the store up to date: first the dirty entries
are written, then the erased keys are removed.

`Staged` is the invariant that makes this work, for any encoding of the values.
The dirty keys are in the map and the erased ones are not, and at every other
key the store holds an encoding of what the map holds.
-/

namespace WriteBack

open Std List

variable {K V W : Type} [Ord K] [TransOrd K] [LawfulEqOrd K]
  {dec : W → Option V} {store : ExtTreeMap K W} {m : ExtTreeMap K V}
  {dirty erased : ExtTreeSet K}

/-! ### Sets of keys -/

theorem mem_insert {s : ExtTreeSet K} {k a : K} : a ∈ s.insert k ↔ k = a ∨ a ∈ s := by
  rw [ExtTreeSet.mem_insert, LawfulEqCmp.compare_eq_iff_eq]

theorem mem_erase {s : ExtTreeSet K} {k a : K} : a ∈ s.erase k ↔ k ≠ a ∧ a ∈ s := by
  rw [ExtTreeSet.mem_erase, ne_eq, LawfulEqCmp.compare_eq_iff_eq]

theorem mem_foldl_insert {s : ExtTreeSet K} {ks : List K} {a : K} :
    a ∈ ks.foldl (fun s k => s.insert k) s ↔ a ∈ ks ∨ a ∈ s := by
  induction ks generalizing s with
  | nil => simp
  | cons k ks ih =>
    rw [foldl_cons, ih, mem_insert, mem_cons, eq_comm (a := k)]
    tauto

/-! ### The invariant -/

/-- The value of an entry of the store, where reading it may fail. -/
def stored (dec : W → Option V) (store : ExtTreeMap K W) (k : K) : Option (Option V) :=
  store[k]?.map dec

/-- **The store and the marks determine the map.** -/
structure Staged (dec : W → Option V) (store : ExtTreeMap K W) (m : ExtTreeMap K V)
    (dirty erased : ExtTreeSet K) : Prop where
  dirty_mem : ∀ k ∈ dirty, k ∈ m
  erased_notMem : ∀ k ∈ erased, k ∉ m
  agree : ∀ k, k ∉ dirty → k ∉ erased → stored dec store k = m[k]?.map some

namespace Staged

section

variable (h : Staged dec store m dirty erased)
include h

theorem insert [DecidableEq K] (k : K) (v : V) :
    Staged dec store (m.insert k v) (dirty.insert k) (erased.erase k) where
  dirty_mem := by
    intro a ha
    rw [ExtTreeMap.mem_insert, LawfulEqCmp.compare_eq_iff_eq]
    rcases mem_insert.mp ha with rfl | ha
    · exact .inl rfl
    · exact .inr (h.dirty_mem a ha)
  erased_notMem := by
    intro a ha
    obtain ⟨hne, ha⟩ := mem_erase.mp ha
    rw [ExtTreeMap.mem_insert, LawfulEqCmp.compare_eq_iff_eq]
    exact not_or.mpr ⟨hne, h.erased_notMem a ha⟩
  agree := by
    intro a hd he
    rw [mem_insert, not_or] at hd
    have he' : a ∉ erased := fun ha => he (mem_erase.mpr ⟨hd.1, ha⟩)
    rw [Ledger.getElem?_insert, if_neg hd.1]
    exact h.agree a hd.2 he'

theorem erase [DecidableEq K] (k : K) :
    Staged dec store (m.erase k) (dirty.erase k) (erased.insert k) where
  dirty_mem := by
    intro a ha
    obtain ⟨hne, ha⟩ := mem_erase.mp ha
    rw [ExtTreeMap.mem_erase, ne_eq, LawfulEqCmp.compare_eq_iff_eq]
    exact ⟨hne, h.dirty_mem a ha⟩
  erased_notMem := by
    intro a ha
    rw [ExtTreeMap.mem_erase, ne_eq, LawfulEqCmp.compare_eq_iff_eq, not_and_or, not_not]
    rcases mem_insert.mp ha with hka | ha
    · exact .inl hka
    · exact .inr (h.erased_notMem a ha)
  agree := by
    intro a hd he
    rw [mem_insert, not_or] at he
    have hd' : a ∉ dirty := fun ha => hd (mem_erase.mpr ⟨he.1, ha⟩)
    rw [Ledger.getElem?_erase, if_neg he.1]
    exact h.agree a hd' he.2

/-- Dropping the whole map marks its keys as erased; dirty keys are among them. -/
theorem clear : Staged dec store ∅ ∅ (m.keys.foldl (fun s k => s.insert k) erased) where
  dirty_mem := fun a ha => absurd ha ExtTreeSet.not_mem_empty
  erased_notMem := fun a _ => ExtTreeMap.not_mem_empty
  agree := by
    intro a _ he
    rw [mem_foldl_insert, ExtTreeMap.mem_keys, not_or] at he
    have hd : a ∉ dirty := fun ha => he.1 (h.dirty_mem a ha)
    rw [h.agree a hd he.2, ExtTreeMap.getElem?_eq_none he.1]
    exact (congrArg (Option.map some) ExtTreeMap.getElem?_empty).symm

/-- **The batch.** Written entries hold encodings of the dirty entries; since no key is both dirty
and erased, the order of the two halves does not matter. -/
theorem getElem?_batch {writes : List (K × W)}
    (hkeys : ∀ k, k ∈ writes.map (·.1) ↔ k ∈ dirty) (hnd : (writes.map (·.1)).Nodup)
    (hdec : ∀ e ∈ writes, some (dec e.2) = m[e.1]?.map some) (k : K) :
    stored dec (Ledger.overlay store (writes.map (fun e => (e.1, some e.2)) ++
      erased.toList.map fun k => (k, none))) k = m[k]?.map some := by
  -- one operation per key
  have hops : ((writes.map (fun e => (e.1, some e.2)) ++
      erased.toList.map fun k => (k, (none : Option W))).map Prod.fst).Nodup := by
    rw [map_append, map_map, map_map]
    show (writes.map (·.1) ++ erased.toList.map id).Nodup
    rw [map_id, nodup_append]
    refine ⟨hnd, ExtTreeSet.distinct_toList.imp
      fun hne heq => hne (LawfulEqCmp.compare_eq_iff_eq.mpr heq), ?_⟩
    rintro a ha b hb rfl
    exact h.erased_notMem a (ExtTreeSet.mem_toList.mp hb) (h.dirty_mem a ((hkeys a).mp ha))
  unfold stored
  by_cases he : k ∈ erased
  · have hmem : (k, (none : Option W)) ∈ writes.map (fun e => (e.1, some e.2)) ++
        erased.toList.map fun k => (k, none) :=
      mem_append_right _ (mem_map.mpr ⟨k, ExtTreeSet.mem_toList.mpr he, rfl⟩)
    rw [Ledger.getElem?_overlay_of_mem hops hmem, ExtTreeMap.getElem?_eq_none
      (h.erased_notMem k he)]
    rfl
  by_cases hd : k ∈ dirty
  · obtain ⟨e, hmem, rfl⟩ := mem_map.mp ((hkeys k).mpr hd)
    have hop : (e.1, some e.2) ∈ writes.map (fun e => (e.1, some e.2)) ++
        erased.toList.map fun k => (k, none) :=
      mem_append_left _ (mem_map.mpr ⟨e, hmem, rfl⟩)
    rw [Ledger.getElem?_overlay_of_mem hops hop, Option.map_some, hdec e hmem]
  · rw [Ledger.getElem?_overlay_of_notMem]
    · exact h.agree k hd he
    · intro op hop heq
      rcases mem_append.mp hop with hop | hop
      · obtain ⟨e, hmem, rfl⟩ := mem_map.mp hop
        exact hd (heq ▸ (hkeys e.1).mp (mem_map.mpr ⟨e, hmem, rfl⟩))
      · obtain ⟨a, ha, rfl⟩ := mem_map.mp hop
        exact he (heq ▸ ExtTreeSet.mem_toList.mp ha)

end

end Staged

omit [LawfulEqOrd K] in
/-- A store that holds the map has nothing to be marked. -/
theorem staged_of_stored (h : ∀ k, stored dec store k = m[k]?.map some) :
    Staged dec store m ∅ ∅ where
  dirty_mem := fun _ hk => absurd hk ExtTreeSet.not_mem_empty
  erased_notMem := fun _ hk => absurd hk ExtTreeSet.not_mem_empty
  agree := fun k _ _ => h k

end WriteBack
