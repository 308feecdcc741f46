import Mathlib
import DeVault.Lib.Retry
import DeVault.Lib.WriteBack

/-!
# Closing a set under successors

A worklist algorithm: `visited` holds what has been taken up, `stage` what waits. A turn
takes the least element of the stage, puts it among the visited and stages those of its
successors that are not visited yet. The loop ends with an empty stage.
-/

namespace Worklist

open Retry WriteBack

variable {K ε : Type} [Ord K] [Std.TransOrd K] [Std.LawfulEqOrd K]

/-- Stage those successors that are not visited. -/
def enqueue (visited stage : Std.ExtTreeSet K) (successors : List K) : Std.ExtTreeSet K :=
  successors.foldl (fun stage b => if visited.contains b then stage else stage.insert b) stage

theorem mem_enqueue {visited stage : Std.ExtTreeSet K} {successors : List K} {a : K} :
    a ∈ enqueue visited stage successors ↔ a ∈ stage ∨ (a ∈ successors ∧ a ∉ visited) := by
  induction successors generalizing stage with
  | nil => simp [enqueue]
  | cons b bs ih =>
    change a ∈ enqueue visited (if visited.contains b then stage else stage.insert b) bs ↔ _
    rw [ih, List.mem_cons]
    by_cases hb : visited.contains b
    · have hmem : b ∈ visited := hb
      rw [if_pos hb]
      constructor
      · rintro (h | ⟨h, hn⟩)
        · exact .inl h
        · exact .inr ⟨.inr h, hn⟩
      · rintro (h | ⟨rfl | h, hn⟩)
        · exact .inl h
        · exact absurd hmem hn
        · exact .inr ⟨h, hn⟩
    · have hmem : b ∉ visited := hb
      rw [if_neg hb, mem_insert]
      constructor
      · rintro ((rfl | h) | ⟨h, hn⟩)
        · exact .inr ⟨.inl rfl, hmem⟩
        · exact .inl h
        · exact .inr ⟨.inr h, hn⟩
      · rintro (h | ⟨rfl | h, hn⟩)
        · exact .inl (.inr h)
        · exact .inl (.inl rfl)
        · exact .inr ⟨h, hn⟩

/-- One turn, on the visited set and the stage. -/
def turn (next : K → Except ε (Std.ExtTreeSet K)) (s : Std.ExtTreeSet K × Std.ExtTreeSet K) :
    Turn (Std.ExtTreeSet K × Std.ExtTreeSet K) (Except ε (Std.ExtTreeSet K)) :=
  match s.2.min? with
  | none => .leave (.ok s.1)
  | some it =>
    let visited := s.1.insert it
    match next it with
    | .ok successors => .again (visited, enqueue visited (s.2.erase it) successors.toList)
    | .error e => .leave (.error e)

/-- A set is closed under successors. -/
def Closed (next : K → Except ε (Std.ExtTreeSet K)) (s : Std.ExtTreeSet K) : Prop :=
  ∀ a ∈ s, ∀ successors, next a = .ok successors → ∀ b ∈ successors, b ∈ s

/-- What holds between the turns. -/
structure Inv (next : K → Except ε (Std.ExtTreeSet K)) (U : Finset K)
    (s : Std.ExtTreeSet K × Std.ExtTreeSet K) : Prop where
  visited_sub : ∀ a ∈ s.1, a ∈ U
  stage_sub : ∀ a ∈ s.2, a ∈ U
  disjoint : ∀ a ∈ s.2, a ∉ s.1
  /-- The successors of a visited element are not forgotten. -/
  pending : ∀ a ∈ s.1, ∀ successors, next a = .ok successors →
    ∀ b ∈ successors, b ∈ s.1 ∨ b ∈ s.2

variable {next : K → Except ε (Std.ExtTreeSet K)} {U : Finset K}
  {s s' : Std.ExtTreeSet K × Std.ExtTreeSet K}
  (hU : ∀ a ∈ U, ∃ successors, next a = .ok successors ∧ ∀ b ∈ successors, b ∈ U)
  (h : Inv next U s)

include hU h

/-- **A turn**: the invariant stays, what is visited or staged stays so, and one more
element of `U` is visited. -/
theorem Inv.again (hturn : turn next s = .again s') :
    Inv next U s' ∧ (∀ a, a ∈ s.1 ∨ a ∈ s.2 → a ∈ s'.1 ∨ a ∈ s'.2) ∧
      ∃ it ∈ U, it ∉ s.1 ∧ s'.1 = s.1.insert it := by
  unfold turn at hturn
  split at hturn
  · cases hturn
  next it hit =>
  have hitStage : it ∈ s.2 := Std.ExtTreeSet.min?_mem hit
  have hitU := h.stage_sub it hitStage
  obtain ⟨successors, hnext, hsucc⟩ := hU it hitU
  rw [hnext] at hturn
  cases hturn
  refine ⟨⟨?_, ?_, ?_, ?_⟩, ?_, it, hitU, h.disjoint it hitStage, rfl⟩
  · intro a ha
    rcases mem_insert.mp ha with rfl | ha
    · exact hitU
    · exact h.visited_sub a ha
  · intro a ha
    rcases mem_enqueue.mp ha with ha | ⟨ha, -⟩
    · exact h.stage_sub a (mem_erase.mp ha).2
    · exact hsucc a (Std.ExtTreeSet.mem_toList.mp ha)
  · intro a ha hvisited
    rcases mem_enqueue.mp ha with ha | ⟨-, hnot⟩
    · obtain ⟨hne, ha⟩ := mem_erase.mp ha
      rcases mem_insert.mp hvisited with heq | hold
      · exact hne heq
      · exact h.disjoint a ha hold
    · exact hnot hvisited
  · intro a ha succ hsucc' b hb
    -- whether `b` is visited by now or not
    by_cases hbv : b ∈ s.1.insert it
    · exact .inl hbv
    refine .inr (mem_enqueue.mpr ?_)
    rcases mem_insert.mp ha with rfl | ha
    · cases hnext.symm.trans hsucc'
      exact .inr ⟨Std.ExtTreeSet.mem_toList.mpr hb, hbv⟩
    · rcases h.pending a ha succ hsucc' b hb with hold | hstaged
      · exact absurd (mem_insert.mpr (.inr hold)) hbv
      · exact .inl (mem_erase.mpr
          ⟨fun heq => hbv (mem_insert.mpr (.inl heq)), hstaged⟩)
  · rintro a (ha | ha)
    · exact .inl (mem_insert.mpr (.inr ha))
    · by_cases heq : it = a
      · exact .inl (mem_insert.mpr (.inl heq))
      · exact .inr (mem_enqueue.mpr (.inl (mem_erase.mpr ⟨heq, ha⟩)))

/-- **The loop closes the set.** -/
theorem exists_close {n : Nat} (hn : U.card < n) :
    ∃ closed, retry (turn next) n s = some (.ok closed) ∧ (∀ a ∈ closed, a ∈ U) ∧
      (∀ a, a ∈ s.1 ∨ a ∈ s.2 → a ∈ closed) ∧ Closed next closed := by
  classical
  -- the elements of `U` that are not visited yet bound the turns
  suffices hmain : ∀ s, Inv next U s → (U.filter (· ∉ s.1)).card < n →
      ∃ closed, retry (turn next) n s = some (.ok closed) ∧ (∀ a ∈ closed, a ∈ U) ∧
        (∀ a, a ∈ s.1 ∨ a ∈ s.2 → a ∈ closed) ∧ Closed next closed from
    hmain s h (lt_of_le_of_lt (Finset.card_filter_le _ _) hn)
  clear h hn
  induction n with
  | zero => exact fun s _ hlt => absurd hlt (Nat.not_lt_zero _)
  | succ n ih =>
    intro s h hlt
    rw [retry]
    cases hturn : turn next s with
    | again s' =>
      obtain ⟨h', hkeep, it, hitU, hitNew, hvisited⟩ := h.again hU hturn
      have hfewer : (U.filter (· ∉ s'.1)).card < (U.filter (· ∉ s.1)).card := by
        refine Finset.card_lt_card (Finset.ssubset_iff_of_subset ?_ |>.mpr ⟨it, ?_, ?_⟩)
        · intro a ha
          rw [Finset.mem_filter, hvisited, mem_insert] at ha
          exact Finset.mem_filter.mpr ⟨ha.1, fun hold => ha.2 (.inr hold)⟩
        · exact Finset.mem_filter.mpr ⟨hitU, hitNew⟩
        · rw [Finset.mem_filter, hvisited, mem_insert]
          exact fun hbad => hbad.2 (.inl rfl)
      obtain ⟨closed, hrun, hsub, hall, hclosed⟩ := ih s' h' (by omega)
      exact ⟨closed, hrun, hsub, fun a ha => hall a (hkeep a ha), hclosed⟩
    | leave r =>
      -- the loop leaves only when the stage is empty
      unfold turn at hturn
      split at hturn
      next hnone =>
        cases hturn
        have hempty : s.2 = ∅ := Std.ExtTreeSet.min?_eq_none_iff.mp hnone
        have hnotMem : ∀ a, a ∉ s.2 := fun a ha => by simp [hempty] at ha
        refine ⟨s.1, rfl, h.visited_sub, fun a ha => ha.resolve_right (hnotMem a), ?_⟩
        exact fun a ha succ hsucc b hb => (h.pending a ha succ hsucc b hb).resolve_right (hnotMem b)
      next it hit =>
        obtain ⟨successors, hnext, -⟩ := hU it (h.stage_sub it (Std.ExtTreeSet.min?_mem hit))
        rw [hnext] at hturn
        cases hturn

end Worklist
