import DeVault.Rewards.Selection

/-!
# The record that `FindReward` picks (`devault/rewards.cpp`)

A record keeps its height as `uint32_t`, and `FindReward` works with `int`. `findReward32` is the
function with these conversions, over the entries of the map in any order. A record whose height is
below `2 ^ 31`, as every height of a chain is, is read as it is; a record of a larger height is read
as a negative one, so that it looks older than all others.
-/

namespace DeVault

namespace CColdRewards

/-- `FindReward`, with its conversions to `int`. -/
def findReward32 (r : CColdRewards) (p : Params) (height : Nat)
    (entries : List (COutPoint × CRewardValue)) : CColdRewards × Option CTxOut :=
  r.findRewardIn toInt32 p height entries

/-! ### Heights that fit -/

variable {r : CColdRewards} {p : Params} {height : Nat} {entries : List (COutPoint × CRewardValue)}

theorem toInt32_of_lt {x : Int} (h0 : -2 ^ 31 ≤ x) (h : x < 2 ^ 31) : toInt32 x = x :=
  Int.bmod_eq_of_le (by norm_num; omega) (by norm_num; omega)

theorem findRewardStep_toInt32 (hheight : height < 2 ^ 31) {s : Selection}
    {e : COutPoint × CRewardValue} (he : e.2.height < 2 ^ 31) (nMinBlocks nMinReward : Int) :
    findRewardStep p toInt32 nMinBlocks nMinReward height s e =
      findRewardStep p id nMinBlocks nMinReward height s e := by
  have hbound : (2 : Int) ^ 31 = 2147483648 := by norm_num
  have hread : toInt32 (e.2.height : Int) = e.2.height := by
    refine toInt32_of_lt ?_ ?_ <;> rw [hbound] <;> omega
  have hdiff : toInt32 ((height : Int) - (e.2.height : Int)) = height - e.2.height := by
    refine toInt32_of_lt ?_ ?_ <;> rw [hbound] <;> omega
  unfold findRewardStep
  simp only [hread, hdiff, id]

theorem foldl_findRewardStep_toInt32 (hheight : height < 2 ^ 31)
    (hentries : ∀ e ∈ entries, e.2.height < 2 ^ 31) (nMinBlocks nMinReward : Int) (s : Selection) :
    entries.foldl (findRewardStep p toInt32 nMinBlocks nMinReward height) s =
      entries.foldl (findRewardStep p id nMinBlocks nMinReward height) s := by
  induction entries generalizing s with
  | nil => rw [List.foldl_nil, List.foldl_nil]
  | cons e entries ih =>
    rw [List.forall_mem_cons] at hentries
    rw [List.foldl_cons, List.foldl_cons, findRewardStep_toInt32 hheight hentries.1, ih hentries.2]

/-! ### The pick -/

/-- The order of selection: the older record, then the one with the larger reward, then the one with
the smaller outpoint. -/
def Before (p : Params) (height : Nat) (a b : COutPoint × CRewardValue) : Prop :=
  a.2.height < b.2.height ∨ a.2.height = b.2.height ∧
    (dueReward p height b.2 < dueReward p height a.2 ∨
      dueReward p height a.2 = dueReward p height b.2 ∧ compare a.1 b.1 = .lt)

theorem Precedes.before {a b : COutPoint × CRewardValue} (h : Precedes p height a b)
    (hne : a.1 ≠ b.1) : Before p height a b := by
  refine h.imp_right fun ⟨heq, hrest⟩ => ⟨heq, hrest.imp_right fun ⟨hdue, hkey⟩ => ⟨hdue, ?_⟩⟩
  cases hc : compare a.1 b.1 with
  | lt => rfl
  | eq => exact absurd (Std.LawfulEqCmp.compare_eq_iff_eq.mp hc) hne
  | gt =>
    rw [hc] at hkey
    cases hkey

theorem Precedes.antisymm {a b : COutPoint × CRewardValue} (h : Precedes p height a b)
    (h' : Precedes p height b a) : a.1 = b.1 := by
  by_contra hne
  rcases h.before hne with hlt | ⟨heq, hlt | ⟨hdue, hkey⟩⟩
  · rcases h' with hlt' | ⟨heq', -⟩ <;> omega
  · rcases h' with hlt' | ⟨-, hlt' | ⟨hdue', -⟩⟩ <;> omega
  · rcases h' with hlt' | ⟨-, hlt' | ⟨-, hkey'⟩⟩
    · omega
    · omega
    · have hswap : compare b.1 a.1 = (compare a.1 b.1).swap := Std.OrientedCmp.eq_swap
      rw [hswap, hkey] at hkey'
      cases hkey'

/-- The pick of the loop: the eligible entry that precedes all others. -/
theorem isBest_findReward32 (h0 : 0 ≤ r.nMinBlocks) (hheight : height < 2 ^ 31)
    (hentries : ∀ e ∈ entries, e.2.height < 2 ^ 31) :
    ∃ best, Scan.IsBest (fun e => Eligible r p height e.2) (Precedes p height) entries best ∧
      (r.findReward32 p height entries).2 =
        best.map (fun e => getPayment e.2 (dueReward p height e.2)) ∧
      (r.findReward32 p height entries).1.rewardKey = (best.map Prod.fst).getD r.rewardKey := by
  have hinv := scanInv_findReward h0 p height entries
  rw [← foldl_findRewardStep_toInt32 hheight hentries] at hinv
  unfold findReward32 findRewardIn
  refine ⟨_, hinv.best, ?_, ?_⟩ <;> unfold Selection.best <;> simp only <;> split
  next hf => rw [Option.map_some, hinv.selAmount_eq hf]
  · rfl
  · rfl
  · rfl

/-- **What `FindReward` finds.** For any order of the entries it succeeds exactly if there is an
eligible record, pays the one that comes before all others, and has the same outcome for every
order. -/
theorem findReward32_picks (hset : r.settings = (p.nMinRewardBlocks, p.nMinReward))
    (h0 : 0 ≤ p.nMinRewardBlocks) (hheight : height < 2 ^ 31)
    (hheights : ∀ (k : COutPoint) v, r.rewardMap[k]? = some v → v.height < 2 ^ 31)
    (hperm : entries.Perm r.rewardMap.toList) :
    ((r.findReward32 p height entries).2 ≠ none ↔
      ∃ (k : COutPoint) (v : CRewardValue), r.rewardMap[k]? = some v ∧ Eligible r p height v) ∧
    (∀ payment, (r.findReward32 p height entries).2 = some payment →
      ∃ v, r.rewardMap[(r.findReward32 p height entries).1.rewardKey]? = some v ∧
        Eligible r p height v ∧ payment = getPayment v (dueReward p height v) ∧
        ∀ (k : COutPoint) (w : CRewardValue), r.rewardMap[k]? = some w → Eligible r p height w →
          k ≠ (r.findReward32 p height entries).1.rewardKey →
          Before p height ((r.findReward32 p height entries).1.rewardKey, v) (k, w)) ∧
    ∀ entries' : List (COutPoint × CRewardValue), entries'.Perm r.rewardMap.toList →
      (r.findReward32 p height entries').2 = (r.findReward32 p height entries).2 ∧
      (r.findReward32 p height entries').1.rewardKey =
        (r.findReward32 p height entries).1.rewardKey := by
  have hblocks : r.nMinBlocks = p.nMinRewardBlocks := congrArg Prod.fst hset
  have hmem : ∀ {l : List (COutPoint × CRewardValue)}, l.Perm r.rewardMap.toList → ∀ k v,
      (k, v) ∈ l ↔ r.rewardMap[k]? = some v :=
    fun hl k v => hl.mem_iff.trans Std.ExtTreeMap.mem_toList_iff_getElem?_eq_some
  have hfits : ∀ {l : List (COutPoint × CRewardValue)}, l.Perm r.rewardMap.toList →
      ∀ e ∈ l, e.2.height < 2 ^ 31 := fun hl e he => hheights e.1 e.2 ((hmem hl e.1 e.2).mp he)
  obtain ⟨best, hbest, hpay, hkey⟩ :=
    isBest_findReward32 (p := p) (hblocks ▸ h0) hheight (hfits hperm)
  refine ⟨?_, ?_, fun entries' hperm' => ?_⟩
  · rw [hpay]
    cases best with
    | none =>
      refine iff_of_false (by simp) ?_
      rintro ⟨k, v, hk, helig⟩
      exact hbest (k, v) ((hmem hperm k v).mpr hk) helig
    | some e => exact iff_of_true (by simp) ⟨e.1, e.2, (hmem hperm _ _).mp hbest.1, hbest.2.1⟩
  · intro payment hsome
    rw [hpay] at hsome
    cases best with
    | none => cases hsome
    | some e =>
      obtain ⟨hin, helig, hfirst⟩ := hbest
      have hkey' : (r.findReward32 p height entries).1.rewardKey = e.1 := hkey
      rw [hkey']
      refine ⟨e.2, (hmem hperm _ _).mp hin, helig, (Option.some.inj hsome).symm, ?_⟩
      intro k w hk hw hne
      exact (hfirst (k, w) ((hmem hperm k w).mpr hk) hw).before (Ne.symm hne)
  · obtain ⟨best', hbest', hpay', hkey'⟩ :=
      isBest_findReward32 (p := p) (hblocks ▸ h0) hheight (hfits hperm')
    have hsame : best' = best := by
      refine hbest.unique ?_ (fun x => (hperm'.trans hperm.symm).mem_iff) hbest'
      intro x hx y hy hxy hyx
      -- one outpoint has one record
      have hk := hxy.antisymm hyx
      have hxv := (hmem hperm x.1 x.2).mp hx
      rw [hk, (hmem hperm y.1 y.2).mp hy] at hxv
      exact Prod.ext hk (Option.some.inj hxv).symm
    rw [hpay, hpay', hkey, hkey', hsame]
    exact ⟨rfl, rfl⟩

/-- A record of 25000 coins. -/
def candidate (height : Nat) : CRewardValue :=
  .new { nValue := 25000 * coin, scriptPubKey := [0x51] } height height height

/-- An engine of the main network with this record only. -/
def oneCandidate (height : Nat) : CColdRewards :=
  (init mainParams).putInMap ⟨7, 0⟩ (candidate height)

theorem eq_candidate {h : Nat} {k : COutPoint} {v : CRewardValue}
    (hk : (oneCandidate h).rewardMap[k]? = some v) : v = candidate h := by
  simp only [oneCandidate, putInMap, init, Ledger.getElem?_insert] at hk
  split at hk
  · exact (Option.some.inj hk).symm
  · cases hk

/-- A younger record with a smaller outpoint as well. -/
def twoCandidates : CColdRewards := (oneCandidate 100).putInMap ⟨3, 0⟩ (candidate 200)

/-- The older of the two records is paid, also if it is met last. -/
theorem findReward32_picks_twoCandidates :
    (twoCandidates.findReward32 mainParams 30000 twoCandidates.rewardMap.toList.reverse).2 ≠ none ∧
      (twoCandidates.findReward32 mainParams 30000
        twoCandidates.rewardMap.toList.reverse).1.rewardKey = ⟨7, 0⟩ := by
  have hheights : ∀ (k : COutPoint) v, twoCandidates.rewardMap[k]? = some v →
      v.height < 2 ^ 31 := by
    intro k v h
    simp only [twoCandidates, putInMap, Ledger.getElem?_insert] at h
    split at h
    · cases h
      decide
    · rw [eq_candidate h]
      decide
  have hfound : twoCandidates.rewardMap[(⟨7, 0⟩ : COutPoint)]? = some (candidate 100) := by
    decide +kernel
  have helig : Eligible twoCandidates mainParams 30000 (candidate 100) :=
    ⟨rfl, fun _ => by decide, by decide, by decide⟩
  obtain ⟨hpays, -, hsame⟩ := findReward32_picks (r := twoCandidates) rfl (by decide)
    (show 30000 < 2 ^ 31 by decide) hheights (List.reverse_perm _)
  exact ⟨hpays.mpr ⟨_, _, hfound, helig⟩,
    (hsame _ (List.Perm.refl _)).2.symm.trans (by decide +kernel)⟩

/-- A record of height `2 ^ 32 - 1` is read as one of height `-1` and paid at height 30000, although
no record is old enough. -/
theorem findReward32_negative :
    ((oneCandidate 4294967295).findReward32 mainParams 30000
      (oneCandidate 4294967295).rewardMap.toList).2 ≠ none ∧
    ∀ (k : COutPoint) v, (oneCandidate 4294967295).rewardMap[k]? = some v →
      ¬(30000 : Int) - v.height > mainParams.nMinRewardBlocks := by
  refine ⟨by decide +kernel, fun k v h => ?_⟩
  rw [eq_candidate h]
  decide

end CColdRewards

end DeVault
