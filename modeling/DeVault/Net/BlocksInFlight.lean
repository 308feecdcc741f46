import DeVault.Lib.Run
import DeVault.Validation.CheckBlock

/-!
# Blocks in flight

The node keeps track of the blocks it has requested in four places: the list `vBlocksInFlight` of
every peer, the peer's counter `nBlocksInFlightValidHeaders`, the multimap `mapBlocksInFlight` from
block hashes to positions in these lists, and the counter `nPeersWithValidatedDownloads`. Four
functions write them: `InitializeNode`, `MarkBlockAsReceived`, `MarkBlockAsInFlight` and
`FinalizeNode`.

A position in a list is a `std::list` iterator. Here every list element carries the
identity `it` of its node, which no later element gets again, and an iterator is
such an identity; an iterator that is followed after its element is gone is a
failure of the model, as is a null pointer that is followed.

The multimap also orders the requests for one block. `MarkBlockAsInFlight` gives the last
of them as the hint, and the new request goes before it, so that a second request becomes
the first in the range.
-/

namespace DeVault

open List hiding getElem?_insert next
open Ledger Outcome

/-- `NodeId`, an `int64_t`. -/
abbrev NodeId := Int

/-- `QueuedBlock` without `partialBlock`, with the identity of its list node. -/
structure QueuedBlock where
  it : Nat
  hash : BlockHash
  pindex : Option CBlockIndex
  fValidatedHeaders : Bool

/-- `CNodeState`, the fields about blocks in flight. -/
structure CNodeState where
  nStallingSince : Int := 0
  vBlocksInFlight : List QueuedBlock := []
  nDownloadingSince : Int := 0
  nBlocksInFlightValidHeaders : Int := 0

/-- An entry of `mapBlocksInFlight`: the hash it is filed under, the peer and the
iterator into that peer's list. -/
structure BlockInFlight where
  hash : BlockHash
  node_id : NodeId
  list_it : Nat
  deriving DecidableEq

/-- The globals of block download. `nextIt` is the identity the next list node
gets. -/
structure DownloadState where
  mapNodeState : Std.ExtTreeMap NodeId CNodeState := ∅
  mapBlocksInFlight : List BlockInFlight := []
  nPeersWithValidatedDownloads : Int := 0
  nextIt : Nat := 0

variable {q : QueuedBlock} {hash : BlockHash}

variable (s : DownloadState) (e : BlockInFlight) (nodeid : NodeId) (now : NodeId → Int)

namespace DownloadState

/-! ### The four functions -/

/-- `State(nodeid)` with the assertion that follows it everywhere. -/
def state (s : DownloadState) (nodeid : NodeId) : Except Fault CNodeState :=
  match s.mapNodeState[nodeid]? with
  | some state => .ok state
  | none => .error (.assertion "state != nullptr")

/-- `mapBlocksInFlight.equal_range(hash)`. -/
def equalRange (hash : BlockHash) : List BlockInFlight :=
  s.mapBlocksInFlight.filter (·.hash = hash)

/-- `mapBlocksInFlight.emplace_hint(hint, …)`, where `hint` is the last entry of the range, before
which the new one is put, or the end of the map. Different hashes are in no particular order. -/
def emplaceHint : List BlockInFlight :=
  let range := s.equalRange e.hash
  s.mapBlocksInFlight.filter (·.hash ≠ e.hash) ++ (range.dropLast ++ e :: range.getLast?.toList)

/-- The emplacement of `InitializeNode`, which does nothing for a known peer. -/
def initializeNode : DownloadState :=
  { s with mapNodeState := s.mapNodeState.insertIfNew nodeid {} }

/-- The body of the loop of `MarkBlockAsReceived` for an entry it does not skip;
`now` is what `GetTimeMicros` reads then. -/
def receive (e : BlockInFlight) :
    Except Fault DownloadState := do
  let state ← s.state e.node_id
  match state.vBlocksInFlight.find? (·.it = e.list_it) with
  | none => .error (.logicError "list_it is dangling")
  | some entry =>
    let nValid := state.nBlocksInFlightValidHeaders - if entry.fValidatedHeaders then 1 else 0
    .ok { s with
      mapNodeState := s.mapNodeState.insert e.node_id { state with
        nStallingSince := 0
        nBlocksInFlightValidHeaders := nValid
        nDownloadingSince :=
          if (state.vBlocksInFlight.head?.map (·.it)) = some e.list_it then
            max state.nDownloadingSince (now e.node_id)
          else state.nDownloadingSince
        vBlocksInFlight := state.vBlocksInFlight.eraseP (·.it = e.list_it) }
      nPeersWithValidatedDownloads :=
        if nValid = 0 ∧ entry.fValidatedHeaders then s.nPeersWithValidatedDownloads - 1
        else s.nPeersWithValidatedDownloads
      mapBlocksInFlight := s.mapBlocksInFlight.erase e }

/-- `MarkBlockAsReceived`, with or without a peer. -/
def markBlockAsReceived (hash : BlockHash) (fromPeer : Option NodeId)
    (now : NodeId → Int) : Except Fault (DownloadState × Bool) :=
  (s.equalRange hash).foldlM (fun acc e =>
    if fromPeer.any (· ≠ e.node_id) then .ok acc
    else acc.1.receive now e >>= fun s => .ok (s, true)) (s, false)

/-- `MarkBlockAsInFlight`, without the pointer it sets for its caller. -/
def markBlockAsInFlight (hash : BlockHash)
    (pindex : Option CBlockIndex) (now : NodeId → Int) : Except Fault (DownloadState × Bool) := do
  let _ ← s.state nodeid
  -- Short-circuit most stuff in case it is from the same node.
  if (s.equalRange hash).any (·.node_id = nodeid) then return (s, false)
  let (s, _) ← s.markBlockAsReceived hash (some nodeid) now
  let state ← s.state nodeid
  let entry : QueuedBlock :=
    { it := s.nextIt, hash := hash, pindex := pindex, fValidatedHeaders := pindex.isSome }
  let vBlocksInFlight := state.vBlocksInFlight ++ [entry]
  let nValid := state.nBlocksInFlightValidHeaders + if entry.fValidatedHeaders then 1 else 0
  return ({ s with
    mapNodeState := s.mapNodeState.insert nodeid { state with
      vBlocksInFlight := vBlocksInFlight
      nBlocksInFlightValidHeaders := nValid
      nDownloadingSince :=
        if vBlocksInFlight.length = 1 then now nodeid else state.nDownloadingSince }
    nPeersWithValidatedDownloads :=
      if nValid = 1 ∧ pindex.isSome then s.nPeersWithValidatedDownloads + 1
      else s.nPeersWithValidatedDownloads
    mapBlocksInFlight := s.emplaceHint ⟨hash, nodeid, s.nextIt⟩
    nextIt := s.nextIt + 1 }, true)

/-- The body of the loop of `FinalizeNode` over the peer's list. -/
def dropEntry (mapBlocksInFlight : List BlockInFlight) (entry : QueuedBlock) :
    Except Fault (List BlockInFlight) :=
  match entry.pindex with
  | none => .error (.logicError "entry.pindex is null")
  | some pindex =>
    .ok (mapBlocksInFlight.filter fun e => ¬(e.hash = pindex.hash ∧ e.node_id = nodeid))

/-- `FinalizeNode`, as far as it concerns blocks in flight. -/
def finalizeNode : Except Fault DownloadState := do
  let state ← s.state nodeid
  let mapBlocksInFlight ← state.vBlocksInFlight.foldlM (dropEntry nodeid) s.mapBlocksInFlight
  let nPeers := s.nPeersWithValidatedDownloads -
    if state.nBlocksInFlightValidHeaders ≠ 0 then 1 else 0
  require (0 ≤ nPeers) (.assertion "nPeersWithValidatedDownloads >= 0")
  let mapNodeState := s.mapNodeState.erase nodeid
  if mapNodeState.isEmpty then
    -- Do a consistency check after the last peer is removed.
    require mapBlocksInFlight.isEmpty (.assertion "mapBlocksInFlight.empty()")
    require (nPeers = 0) (.assertion "nPeersWithValidatedDownloads == 0")
  return { s with
    mapNodeState := mapNodeState
    mapBlocksInFlight := mapBlocksInFlight
    nPeersWithValidatedDownloads := nPeers }

/-! ### Consistency -/

/-- The list and the counter of one peer: no block twice, every entry with the index of its block,
and the counter is the length. -/
structure QueueOk (nextIt : Nat) (state : CNodeState) : Prop where
  nodup_it : (state.vBlocksInFlight.map (·.it)).Nodup
  nodup_hash : (state.vBlocksInFlight.map (·.hash)).Nodup
  indexed : ∀ q ∈ state.vBlocksInFlight,
    q.pindex.map (·.hash) = some q.hash ∧ q.fValidatedHeaders = true
  counter : state.nBlocksInFlightValidHeaders = state.vBlocksInFlight.length
  fresh : ∀ q ∈ state.vBlocksInFlight, q.it < nextIt

/-- The peer `n` has the entry `q` in its list. -/
def Queued (n : NodeId) (q : QueuedBlock) : Prop :=
  ∃ state, s.mapNodeState[n]? = some state ∧ q ∈ state.vBlocksInFlight

/-- One for a peer with a non-empty list. -/
def downloading (_ : NodeId) (state : CNodeState) : Int :=
  if state.vBlocksInFlight = [] then 0 else 1

/-- The number of peers with a non-empty list. -/
def peersDownloading : Int := Ledger.weight downloading s.mapNodeState

/-- **The four places agree.** The map has every list entry of every peer exactly
once, under the entry's hash, and nothing else. -/
structure Consistent (s : DownloadState) : Prop where
  nodup : s.mapBlocksInFlight.Nodup
  mem_iff : ∀ e, e ∈ s.mapBlocksInFlight ↔
    ∃ q, s.Queued e.node_id q ∧ q.hash = e.hash ∧ q.it = e.list_it
  queues : ∀ (n : NodeId) state, s.mapNodeState[n]? = some state → QueueOk s.nextIt state
  downloads : s.nPeersWithValidatedDownloads = s.peersDownloading

variable {s : DownloadState} {now : NodeId → Int} {e : BlockInFlight} {n : NodeId}
  {state : CNodeState}

theorem state_eq_ok (h : s.mapNodeState[n]? = some state) : s.state n = .ok state := by
  rw [DownloadState.state, h]

theorem consistent_init : Consistent {} where
  nodup := nodup_nil
  mem_iff e := by
    constructor
    · intro h
      cases h
    · rintro ⟨q, ⟨state, hstate, -⟩, -⟩
      simp at hstate
  queues n state h := by simp at h
  downloads := (weight_empty downloading).symm

/-! ### Taking an entry out of a list -/

theorem mem_eraseP_it {l : List QueuedBlock} (hl : (l.map (·.it)).Nodup) {it : Nat} :
    q ∈ l.eraseP (·.it = it) ↔ q ∈ l ∧ q.it ≠ it := by
  induction l with
  | nil => simp
  | cons a l ih =>
    rw [map_cons, nodup_cons] at hl
    by_cases ha : a.it = it
    · -- the element that goes is the head, and no other one has its identity
      rw [eraseP_cons_of_pos (by simpa using ha)]
      constructor
      · intro hq
        refine ⟨mem_cons_of_mem _ hq, fun hit => hl.1 ?_⟩
        exact mem_map.mpr ⟨q, hq, hit.trans ha.symm⟩
      · rintro ⟨hq, hit⟩
        exact (mem_cons.mp hq).resolve_left fun h => hit (h ▸ ha)
    · rw [eraseP_cons_of_neg (by simpa using ha), mem_cons, ih hl.2, mem_cons, or_and_right,
        and_iff_left_of_imp fun h : q = a => h ▸ ha]

/-- An iterator that is in the list finds its element. -/
theorem find?_it {l : List QueuedBlock} (hl : (l.map (·.it)).Nodup)
    (hq : q ∈ l) : l.find? (·.it = q.it) = some q := by
  cases h : l.find? (·.it = q.it) with
  | none => simpa using find?_eq_none.mp h q hq
  | some q' =>
    have hit : q'.it = q.it := by simpa using find?_some h
    rw [inj_on_of_nodup_map hl (mem_of_find?_eq_some h) hq hit]

theorem QueueOk.eraseP {nextIt : Nat} (h : QueueOk nextIt state)
    (hq : q ∈ state.vBlocksInFlight) (stalling since : Int) :
    QueueOk nextIt { state with
      nStallingSince := stalling
      nDownloadingSince := since
      nBlocksInFlightValidHeaders := state.nBlocksInFlightValidHeaders - 1
      vBlocksInFlight := state.vBlocksInFlight.eraseP (·.it = q.it) } := by
  have hsub := eraseP_sublist (p := fun b : QueuedBlock => decide (b.it = q.it))
    (l := state.vBlocksInFlight)
  refine ⟨h.nodup_it.sublist (hsub.map _), h.nodup_hash.sublist (hsub.map _),
    fun b hb => h.indexed b (hsub.subset hb), ?_, fun b hb => h.fresh b (hsub.subset hb)⟩
  have hlen := length_eraseP_of_mem (p := fun b : QueuedBlock => decide (b.it = q.it)) hq
    (by simp)
  have hpos := length_pos_of_mem hq
  show state.nBlocksInFlightValidHeaders - 1 = ((state.vBlocksInFlight.eraseP _).length : Int)
  rw [hlen, h.counter]
  omega

/-! ### A block is received -/

theorem queued_iff_of_insert {s s' : DownloadState} {st : CNodeState}
    (h : s'.mapNodeState = s.mapNodeState.insert n st) {m : NodeId} :
    s'.Queued m q ↔ if n = m then q ∈ st.vBlocksInFlight else s.Queued m q := by
  unfold Queued
  rw [h, getElem?_insert]
  split
  · exact ⟨fun ⟨st', heq, hq⟩ => Option.some.inj heq ▸ hq, fun hq => ⟨st, rfl, hq⟩⟩
  · exact Iff.rfl

/-- The counter of peers moves by what the written peer gains or loses. -/
theorem peersDownloading_insert {s s' : DownloadState} {st : CNodeState}
    (hs : s.mapNodeState[n]? = some state) (h : s'.mapNodeState = s.mapNodeState.insert n st) :
    s'.peersDownloading = s.peersDownloading - downloading n state + downloading n st := by
  rw [peersDownloading, h, weight_insert, weightAt_of_some hs, peersDownloading]

/-- What `receive` does for an entry the lists have: the entry goes, and the peer is
no longer counted if it was its last one. -/
theorem receive_eq (hstate : s.mapNodeState[e.node_id]? = some state)
    (hok : QueueOk s.nextIt state) (hq : q ∈ state.vBlocksInFlight) (hit : q.it = e.list_it) :
    ∃ s' st, s.receive now e = .ok s' ∧ QueueOk s.nextIt st ∧
      st.vBlocksInFlight = state.vBlocksInFlight.eraseP (·.it = e.list_it) ∧
      s'.mapNodeState = s.mapNodeState.insert e.node_id st ∧
      s'.mapBlocksInFlight = s.mapBlocksInFlight.erase e ∧ s'.nextIt = s.nextIt ∧
      s'.nPeersWithValidatedDownloads =
        s.nPeersWithValidatedDownloads - 1 + downloading e.node_id st := by
  have hvalid : q.fValidatedHeaders = true := (hok.indexed q hq).2
  have hfind := find?_it hok.nodup_it hq
  have hqueue := hok.eraseP hq 0
    (if (state.vBlocksInFlight.head?.map (·.it)) = some e.list_it then
      max state.nDownloadingSince (now e.node_id) else state.nDownloadingSince)
  rw [hit] at hfind hqueue
  -- the counter is the length of the list, so it is zero exactly when the list is empty
  have hzero : state.nBlocksInFlightValidHeaders - 1 = 0 ↔
      state.vBlocksInFlight.eraseP (·.it = e.list_it) = [] := by
    have hcounter : state.nBlocksInFlightValidHeaders - 1 =
        ((state.vBlocksInFlight.eraseP (·.it = e.list_it)).length : Int) := hqueue.counter
    rw [hcounter, Int.natCast_eq_zero, length_eq_zero_iff]
  cases hrun : s.receive now e with
  | error fault => simp [receive, state_eq_ok hstate, hfind, bind, Except.bind] at hrun
  | ok s' =>
    simp only [receive, state_eq_ok hstate, hfind, hvalid, if_true, and_true, bind, Except.bind,
      Except.ok.injEq] at hrun
    subst hrun
    refine ⟨_, _, rfl, hqueue, rfl, rfl, rfl, rfl, ?_⟩
    simp only [downloading, hzero]
    split
    · exact (add_zero _).symm
    · exact (sub_add_cancel _ _).symm

/-- **One pass of the loop of `MarkBlockAsReceived`.** -/
theorem receive_spec (h : Consistent s) (he : e ∈ s.mapBlocksInFlight) :
    ∃ s', s.receive now e = .ok s' ∧ Consistent s' ∧
      s'.mapBlocksInFlight = s.mapBlocksInFlight.erase e := by
  obtain ⟨q, ⟨state, hstate, hq⟩, hhash, hit⟩ := (h.mem_iff e).mp he
  have hok := h.queues _ _ hstate
  obtain ⟨s', st, hs', hst, hlist, hmap, herase, hnext, hpeers⟩ :=
    receive_eq hstate hok hq hit
  refine ⟨s', hs', ⟨herase ▸ h.nodup.erase e, ?_, ?_, ?_⟩, herase⟩
  · intro e'
    rw [herase, h.nodup.mem_erase_iff, h.mem_iff]
    simp only [queued_iff_of_insert hmap, hlist]
    constructor
    · rintro ⟨hne, q', hq', hhash', hit'⟩
      refine ⟨q', ?_, hhash', hit'⟩
      split
      next hn =>
        obtain ⟨state', hstate', hmem⟩ := hq'
        rw [← hn, hstate] at hstate'
        cases hstate'
        refine (mem_eraseP_it hok.nodup_it).mpr ⟨hmem, fun hsame => hne ?_⟩
        -- the iterators agree, so it is the same list entry and the same map entry
        have hqq : q' = q :=
          inj_on_of_nodup_map hok.nodup_it hmem hq (hsame.trans hit.symm)
        subst hqq
        cases e
        cases e'
        simp_all
      · exact hq'
    · rintro ⟨q', hq', hhash', hit'⟩
      split at hq'
      next hn =>
        obtain ⟨hmem, hdiff⟩ := (mem_eraseP_it hok.nodup_it).mp hq'
        refine ⟨fun heq => hdiff (heq ▸ hit'), q', ⟨state, hn ▸ hstate, hmem⟩, hhash', hit'⟩
      next hn => exact ⟨fun heq => hn (heq ▸ rfl), q', hq', hhash', hit'⟩
  · rw [hmap, hnext]
    exact forall_insert h.queues hst
  · have hone : downloading e.node_id state = 1 := if_neg (ne_nil_of_mem hq)
    rw [hpeers, peersDownloading_insert hstate hmap, hone, h.downloads]

/-- **The loop of `MarkBlockAsReceived`.** The entries still to come stay in the map
while the earlier ones are taken out. -/
theorem receiveLoop_spec {fromPeer : Option NodeId} {l : List BlockInFlight} (hl : l.Nodup) :
    ∀ {s : DownloadState} {ret : Bool}, Consistent s → (∀ e ∈ l, e ∈ s.mapBlocksInFlight) →
      ∃ s' ret', l.foldlM (fun acc e =>
          if fromPeer.any (· ≠ e.node_id) then .ok acc
          else acc.1.receive now e >>= fun s => .ok (s, true)) (s, ret)
        = (.ok (s', ret') : Except Fault (DownloadState × Bool)) ∧ Consistent s' := by
  induction l with
  | nil =>
    intro s ret h _
    exact ⟨s, ret, rfl, h⟩
  | cons e l ih =>
    intro s ret h hmem
    obtain ⟨he, hl⟩ := nodup_cons.mp hl
    obtain ⟨hehead, htail⟩ := forall_mem_cons.mp hmem
    rw [foldlM_cons]
    by_cases hskip : fromPeer.any (· ≠ e.node_id)
    · rw [if_pos hskip]
      exact ih hl h htail
    · obtain ⟨s₁, hrun, h₁, hmap⟩ := receive_spec h hehead
      rw [if_neg hskip, hrun]
      refine ih hl h₁ fun e' he' => ?_
      rw [hmap]
      exact (mem_erase_of_ne (ne_of_mem_of_not_mem he' he)).mpr (htail e' he')

/-- The function returns and keeps the four places consistent. -/
theorem markBlockAsReceived_spec (h : Consistent s) (fromPeer : Option NodeId) :
    ∃ s' ret, s.markBlockAsReceived hash fromPeer now = .ok (s', ret) ∧ Consistent s' :=
  receiveLoop_spec (h.nodup.filter _) h fun _ he => mem_of_mem_filter he

/-- The call inside `MarkBlockAsInFlight` finds nothing to do: the entries of the
peer were looked for just before. -/
theorem markBlockAsReceived_of_none (hnone : (s.equalRange hash).any (·.node_id = n) = false) :
    s.markBlockAsReceived hash (some n) now = .ok (s, false) := by
  rw [markBlockAsReceived]
  generalize s.equalRange hash = l at hnone
  induction l with
  | nil => rfl
  | cons e l ih =>
    rw [any_cons, Bool.or_eq_false_iff] at hnone
    have hne : n ≠ e.node_id := fun heq => by simp [heq] at hnone
    rw [foldlM_cons, if_pos (by simpa using hne)]
    exact ih hnone.2

/-! ### A block is requested -/

theorem dropLast_append_toList {α : Type} (l : List α) : l.dropLast ++ l.getLast?.toList = l := by
  cases h : l.getLast? with
  | none => rw [getLast?_eq_none_iff.mp h]; rfl
  | some a => exact dropLast_append_getLast? a h

theorem hint_perm {α : Type} (e : α) (l : List α) :
    (l.dropLast ++ e :: l.getLast?.toList).Perm (e :: l) := by
  refine perm_middle.trans ?_
  rw [dropLast_append_toList]

theorem emplaceHint_perm (s : DownloadState) (e : BlockInFlight) :
    (s.emplaceHint e).Perm (e :: s.mapBlocksInFlight) := by
  have hsplit : (s.mapBlocksInFlight.filter (·.hash ≠ e.hash) ++ s.equalRange e.hash).Perm
      s.mapBlocksInFlight := by
    have h := filter_append_perm (fun b : BlockInFlight => decide (b.hash ≠ e.hash))
      s.mapBlocksInFlight
    simpa [equalRange] using h
  exact ((hint_perm e _).append_left _).trans (perm_middle.trans (hsplit.cons e))

theorem QueueOk.append {nextIt : Nat} (h : QueueOk nextIt state) {pindex : CBlockIndex}
    (hnew : ∀ q ∈ state.vBlocksInFlight, q.hash ≠ pindex.hash) (since : Int) :
    QueueOk (nextIt + 1) { state with
      vBlocksInFlight := state.vBlocksInFlight ++ [⟨nextIt, pindex.hash, some pindex, true⟩]
      nBlocksInFlightValidHeaders := state.nBlocksInFlightValidHeaders + 1
      nDownloadingSince := since } where
  nodup_it := by
    rw [map_append, map_singleton, nodup_append_comm]
    refine nodup_cons.mpr ⟨fun hmem => ?_, h.nodup_it⟩
    obtain ⟨q, hq, hit⟩ := mem_map.mp hmem
    exact (h.fresh q hq).ne hit
  nodup_hash := by
    rw [map_append, map_singleton, nodup_append_comm]
    refine nodup_cons.mpr ⟨fun hmem => ?_, h.nodup_hash⟩
    obtain ⟨q, hq, hhash⟩ := mem_map.mp hmem
    exact hnew q hq hhash
  indexed := forall_mem_append.mpr ⟨h.indexed, forall_mem_singleton.mpr ⟨rfl, rfl⟩⟩
  counter := by
    show state.nBlocksInFlightValidHeaders + 1 = ((state.vBlocksInFlight ++ [_]).length : Int)
    rw [h.counter, length_append, length_singleton, Nat.cast_add, Nat.cast_one]
  fresh := forall_mem_append.mpr
    ⟨fun q hq => (h.fresh q hq).trans (Nat.lt_succ_self _),
      forall_mem_singleton.mpr (Nat.lt_succ_self _)⟩

theorem QueueOk.mono {a b : Nat} (h : QueueOk a state) (hab : a ≤ b) : QueueOk b state :=
  { h with fresh := fun q hq => (h.fresh q hq).trans_le hab }

/-- What `MarkBlockAsInFlight` does when the peer does not have the block yet. -/
theorem markBlockAsInFlight_eq (hstate : s.mapNodeState[n]? = some state)
    (hok : QueueOk s.nextIt state) {pindex : CBlockIndex}
    (hnew : ∀ q ∈ state.vBlocksInFlight, q.hash ≠ pindex.hash)
    (hnone : (s.equalRange pindex.hash).any (·.node_id = n) = false) :
    ∃ s' st, s.markBlockAsInFlight n pindex.hash (some pindex) now = .ok (s', true) ∧
      QueueOk (s.nextIt + 1) st ∧
      st.vBlocksInFlight = state.vBlocksInFlight ++ [⟨s.nextIt, pindex.hash, some pindex, true⟩] ∧
      s'.mapNodeState = s.mapNodeState.insert n st ∧
      s'.mapBlocksInFlight = s.emplaceHint ⟨pindex.hash, n, s.nextIt⟩ ∧
      s'.nextIt = s.nextIt + 1 ∧
      s'.nPeersWithValidatedDownloads =
        s.nPeersWithValidatedDownloads + 1 - downloading n state := by
  have hone : state.nBlocksInFlightValidHeaders + 1 = 1 ↔ state.vBlocksInFlight = [] := by
    rw [hok.counter, add_eq_right, Int.natCast_eq_zero, length_eq_zero_iff]
  cases hrun : s.markBlockAsInFlight n pindex.hash (some pindex) now with
  | error fault =>
    simp [markBlockAsInFlight, state_eq_ok hstate, hnone, markBlockAsReceived_of_none hnone, bind,
      Except.bind, pure, Except.pure] at hrun
  | ok r =>
    simp only [markBlockAsInFlight, state_eq_ok hstate, hnone, markBlockAsReceived_of_none hnone,
      bind, Except.bind, pure, Except.pure, Option.isSome_some, if_true, and_true,
      Except.ok.injEq, Bool.false_eq_true, if_false] at hrun
    subst hrun
    refine ⟨_, _, rfl, hok.append hnew _, rfl, rfl, rfl, rfl, ?_⟩
    simp only [downloading, hone]
    split
    · exact (sub_zero _).symm
    · exact (add_sub_cancel_right _ _).symm

/-- **A block is requested from a connected peer.** -/
theorem markBlockAsInFlight_spec (h : Consistent s) (hn : s.mapNodeState[n]? = some state)
    (pindex : CBlockIndex) :
    ∃ s' ret, s.markBlockAsInFlight n pindex.hash (some pindex) now = .ok (s', ret) ∧
      Consistent s' := by
  cases hany : (s.equalRange pindex.hash).any (·.node_id = n) with
  | true =>
    refine ⟨s, false, ?_, h⟩
    simp [markBlockAsInFlight, state_eq_ok hn, hany, bind, Except.bind, pure, Except.pure]
  | false =>
    -- no map entry for this peer and block, hence no list entry either
    have hnew : ∀ q ∈ state.vBlocksInFlight, q.hash ≠ pindex.hash := by
      intro q hq hhash
      have hmem : ⟨q.hash, n, q.it⟩ ∈ s.mapBlocksInFlight :=
        (h.mem_iff _).mpr ⟨q, ⟨state, hn, hq⟩, rfl, rfl⟩
      have hrange := any_eq_false.mp hany _ (mem_filter.mpr ⟨hmem, by simpa using hhash⟩)
      simp at hrange
    have hok := h.queues n state hn
    obtain ⟨s', st, hrun, hst, hlist, hmap, hemplace, hnext, hpeers⟩ :=
      markBlockAsInFlight_eq hn hok hnew hany
    have hperm := s.emplaceHint_perm ⟨pindex.hash, n, s.nextIt⟩
    have hfresh : ∀ hash, (⟨hash, n, s.nextIt⟩ : BlockInFlight) ∉ s.mapBlocksInFlight := by
      intro hash hmem
      obtain ⟨q, ⟨state', hstate', hq⟩, -, hit⟩ := (h.mem_iff _).mp hmem
      exact ((h.queues n state' hstate').fresh q hq).ne hit
    refine ⟨s', true, hrun, ?_, ?_, ?_, ?_⟩
    · rw [hemplace]
      exact hperm.nodup_iff.mpr (nodup_cons.mpr ⟨hfresh _, h.nodup⟩)
    · intro e
      rw [hemplace, hperm.mem_iff, mem_cons, h.mem_iff]
      simp only [queued_iff_of_insert hmap, hlist]
      constructor
      · rintro (rfl | ⟨q, hq, hhash, hit⟩)
        · refine ⟨⟨s.nextIt, pindex.hash, some pindex, true⟩, ?_, rfl, rfl⟩
          rw [if_pos rfl]
          exact mem_append_right _ mem_cons_self
        · refine ⟨q, ?_, hhash, hit⟩
          split
          next heq =>
            obtain ⟨state', hstate', hmem⟩ := hq
            rw [← heq, hn] at hstate'
            cases hstate'
            exact mem_append_left _ hmem
          · exact hq
      · rintro ⟨q, hq, hhash, hit⟩
        split at hq
        next heq =>
          rcases mem_append.mp hq with hq | hq
          · exact .inr ⟨q, ⟨state, heq ▸ hn, hq⟩, hhash, hit⟩
          · rw [mem_singleton.mp hq] at hhash hit
            left
            cases e
            simp_all
        · exact .inr ⟨q, hq, hhash, hit⟩
    · rw [hmap, hnext]
      exact forall_insert (fun m st' hm => (h.queues m st' hm).mono (Nat.le_succ _)) hst
    · have hsome : downloading n st = 1 := if_neg (by rw [hlist]; simp)
      rw [hpeers, peersDownloading_insert hn hmap, hsome, h.downloads]
      ring

/-! ### Peers come and go -/

theorem initializeNode_spec (h : Consistent s) : Consistent (s.initializeNode n) := by
  cases hnone : s.mapNodeState[n]? with
  | some state =>
    -- a known peer keeps its state
    have hsame : s.mapNodeState.insertIfNew n {} = s.mapNodeState := by
      refine Std.ExtTreeMap.ext_getElem? fun m => ?_
      rw [getElem?_insertIfNew, if_neg]
      rintro ⟨rfl, habsent⟩
      exact Option.some_ne_none _ (hnone.symm.trans habsent)
    rwa [initializeNode, hsame]
  | none =>
    have hmap : (s.initializeNode n).mapNodeState = s.mapNodeState.insert n {} := by
      refine Std.ExtTreeMap.ext_getElem? fun m => ?_
      show (s.mapNodeState.insertIfNew n {})[m]? = _
      rw [getElem?_insertIfNew, getElem?_insert]
      by_cases hnm : n = m
      · rw [if_pos hnm, if_pos ⟨hnm, hnm ▸ hnone⟩]
      · rw [if_neg hnm, if_neg fun h => hnm h.1]
    refine ⟨h.nodup, ?_, ?_, ?_⟩
    · intro e
      show e ∈ s.mapBlocksInFlight ↔ _
      rw [h.mem_iff]
      refine exists_congr fun q => and_congr_left' ?_
      rw [queued_iff_of_insert hmap]
      split
      next heq =>
        subst heq
        simp [Queued, hnone]
      · exact Iff.rfl
    · rw [hmap]
      exact forall_insert h.queues ⟨nodup_nil, nodup_nil, nofun, rfl, nofun⟩
    · have hzero : downloading n {} = 0 := rfl
      show s.nPeersWithValidatedDownloads = _
      rw [peersDownloading, hmap, weight_insert, weightAt_of_none hnone, hzero,
        h.downloads, peersDownloading]
      ring

/-- The loop of `FinalizeNode` takes out the entries of this peer for the blocks of
its list. -/
theorem dropEntries_eq {queue : List QueuedBlock}
    (hq : ∀ q ∈ queue, q.pindex.map (·.hash) = some q.hash) (map : List BlockInFlight) :
    queue.foldlM (dropEntry n) map =
      .ok (map.filter fun e => ¬(e.node_id = n ∧ ∃ q ∈ queue, q.hash = e.hash)) := by
  induction queue generalizing map with
  | nil => simp [pure, Except.pure]
  | cons q queue ih =>
    obtain ⟨hhead, htail⟩ := forall_mem_cons.mp hq
    obtain ⟨pindex, hpindex, hhash⟩ := Option.map_eq_some_iff.mp hhead
    have hstep : dropEntry n map q =
        .ok (map.filter fun e => ¬(e.hash = q.hash ∧ e.node_id = n)) := by
      rw [dropEntry, hpindex, ← hhash]
    rw [foldlM_cons, hstep]
    refine (ih htail _).trans ?_
    rw [filter_filter]
    congr 1
    refine filter_congr fun e _ => ?_
    simp only [exists_mem_cons_iff]
    grind

/-- Without a peer, its list and its map entries the rest is as consistent as
before. -/
theorem Consistent.dropPeer (h : Consistent s) (hn : s.mapNodeState[n]? = some state) :
    Consistent { s with
      mapNodeState := s.mapNodeState.erase n
      mapBlocksInFlight := s.mapBlocksInFlight.filter (·.node_id ≠ n)
      nPeersWithValidatedDownloads := s.nPeersWithValidatedDownloads - downloading n state } where
  nodup := h.nodup.filter _
  mem_iff e := by
    rw [mem_filter, h.mem_iff]
    unfold Queued
    simp only [getElem?_erase, decide_eq_true_eq]
    by_cases hne : n = e.node_id
    · simp [hne]
    · simp [hne, Ne.symm hne]
  queues := forall_erase h.queues n
  downloads := by
    show s.nPeersWithValidatedDownloads - downloading n state =
      weight downloading (s.mapNodeState.erase n)
    rw [weight_erase, weightAt_of_some hn, h.downloads, peersDownloading]

/-- What the assertions of `FinalizeNode` say holds in every consistent state. -/
theorem Consistent.nPeers_nonneg (h : Consistent s) : 0 ≤ s.nPeersWithValidatedDownloads := by
  rw [h.downloads]
  refine weight_nonneg fun n state _ => ?_
  unfold downloading
  split <;> decide

theorem Consistent.empty (h : Consistent s) (hempty : s.mapNodeState = ∅) :
    s.mapBlocksInFlight = [] ∧ s.nPeersWithValidatedDownloads = 0 := by
  constructor
  · refine eq_nil_iff_forall_not_mem.mpr fun e he => ?_
    obtain ⟨q, ⟨state, hstate, -⟩, -⟩ := (h.mem_iff e).mp he
    rw [hempty] at hstate
    simp at hstate
  · rw [h.downloads, peersDownloading, hempty]
    exact weight_empty downloading

/-- **A connected peer disconnects.** -/
theorem finalizeNode_spec (h : Consistent s) (hn : s.mapNodeState[n]? = some state) :
    ∃ s', s.finalizeNode n = .ok s' ∧ Consistent s' := by
  have hok := h.queues n state hn
  have hdrop := h.dropPeer hn
  refine ⟨_, ?_, hdrop⟩
  -- the loop takes out everything the map has of this peer
  have hmap : (s.mapBlocksInFlight.filter
        fun e => ¬(e.node_id = n ∧ ∃ q ∈ state.vBlocksInFlight, q.hash = e.hash)) =
      s.mapBlocksInFlight.filter (·.node_id ≠ n) := by
    refine filter_congr fun e he => ?_
    obtain ⟨q, ⟨state', hstate', hq⟩, hhash, -⟩ := (h.mem_iff e).mp he
    by_cases hne : e.node_id = n
    · rw [hne, hn] at hstate'
      cases hstate'
      simp only [hne, true_and, not_true_eq_false, decide_false, decide_eq_false_iff_not, not_not,
        ne_eq]
      exact ⟨q, hq, hhash⟩
    · simp [hne]
  have hcount : (if state.nBlocksInFlightValidHeaders ≠ 0 then 1 else 0 : Int) =
      downloading n state := by
    rw [hok.counter]
    cases hl : state.vBlocksInFlight with
    | nil => simp [downloading, hl]
    | cons q l => rw [if_pos (by simp; omega), downloading, hl, if_neg (by simp)]
  have hnonneg := hdrop.nPeers_nonneg
  have hloop := dropEntries_eq (n := n) (fun q hq => (hok.indexed q hq).1) s.mapBlocksInFlight
  rw [hmap] at hloop
  simp only [finalizeNode, state_eq_ok hn, hloop, hcount, bind, Except.bind, require]
  rw [if_pos (decide_eq_true hnonneg)]
  by_cases hempty : (s.mapNodeState.erase n).isEmpty
  · obtain ⟨hnil, hzero⟩ := hdrop.empty (Std.ExtTreeMap.isEmpty_iff.mp hempty)
    dsimp only at hnil hzero
    simp only [hempty, if_true, hnil, hzero, isEmpty_nil, decide_true]
    rfl
  · simp only [hempty, if_false, Bool.false_eq_true]
    rfl

/-! ### Sequences of calls -/

/-- A call of one of the four functions. A block is requested with its index, from
which the caller takes the hash. -/
inductive Call where
  | initializeNode (nodeid : NodeId)
  | markBlockAsReceived (hash : BlockHash) (fromPeer : Option NodeId) (now : NodeId → Int)
  | markBlockAsInFlight (nodeid : NodeId) (pindex : CBlockIndex) (now : NodeId → Int)
  | finalizeNode (nodeid : NodeId)

/-- The state after a call. -/
def call (s : DownloadState) : Call → Except Fault DownloadState
  | .initializeNode nodeid => .ok (s.initializeNode nodeid)
  | .markBlockAsReceived hash fromPeer now => (·.1) <$> s.markBlockAsReceived hash fromPeer now
  | .markBlockAsInFlight nodeid pindex now =>
    (·.1) <$> s.markBlockAsInFlight nodeid pindex.hash (some pindex) now
  | .finalizeNode nodeid => s.finalizeNode nodeid

/-- Blocks are requested from connected peers only. -/
def Allowed (s : DownloadState) : Call → Prop
  | .markBlockAsInFlight nodeid _ _ => s.mapNodeState[nodeid]?.isSome
  | _ => True

instance (s : DownloadState) : ∀ c, Decidable (s.Allowed c)
  | .initializeNode _ => isTrue trivial
  | .markBlockAsReceived _ _ _ => isTrue trivial
  | .markBlockAsInFlight nodeid _ _ =>
    inferInstanceAs (Decidable (s.mapNodeState[nodeid]?.isSome = true))
  | .finalizeNode _ => isTrue trivial

/-- **One call.** It returns and keeps the four places consistent, unless it is the
disconnection of a peer that is not there. -/
theorem call_spec (h : Consistent s) {c : Call} (hc : s.Allowed c) :
    (∃ s', s.call c = .ok s' ∧ Consistent s') ∨
      ∃ nodeid, c = .finalizeNode nodeid ∧ s.mapNodeState[nodeid]? = none ∧
        s.call c = .error (.assertion "state != nullptr") := by
  cases c with
  | initializeNode nodeid => exact .inl ⟨_, rfl, initializeNode_spec h⟩
  | markBlockAsReceived hash fromPeer now =>
    obtain ⟨s', ret, hrun, hs'⟩ := markBlockAsReceived_spec h fromPeer
    refine .inl ⟨s', ?_, hs'⟩
    rw [call, hrun]
    rfl
  | markBlockAsInFlight nodeid pindex now =>
    obtain ⟨state, hstate⟩ := Option.isSome_iff_exists.mp hc
    obtain ⟨s', ret, hrun, hs'⟩ := markBlockAsInFlight_spec h hstate pindex
    refine .inl ⟨s', ?_, hs'⟩
    rw [call, hrun]
    rfl
  | finalizeNode nodeid =>
    cases hstate : s.mapNodeState[nodeid]? with
    | none =>
      refine .inr ⟨nodeid, rfl, hstate, ?_⟩
      simp only [call, finalizeNode, DownloadState.state, hstate]
      rfl
    | some state => exact .inl (finalizeNode_spec h hstate)

/-- The state after a call that returns. -/
def next (s : DownloadState) (c : Call) : Option DownloadState := (s.call c).toOption

theorem consistent_of_call (h : Consistent s) (hc : s.Allowed c) (hs' : s.call c = .ok s') :
    Consistent s' := by
  obtain ⟨s₁, hs₁, h₁⟩ | ⟨_, _, _, herr⟩ := call_spec h hc
  · cases hs'.symm.trans hs₁
    exact h₁
  · cases hs'.symm.trans herr

theorem consistent_of_run {calls : List Call} :
    ∀ {s s' : DownloadState}, Consistent s → Run.Along next Allowed s calls →
      calls.foldlM call s = .ok s' → Consistent s' := by
  induction calls with
  | nil =>
    intro s s' h _ hrun
    cases hrun
    exact h
  | cons c calls ih =>
    intro s s' h hallowed hrun
    obtain ⟨hc, hrest⟩ := hallowed
    obtain ⟨s₁, hs₁, hrun⟩ := foldlM_cons_ok.mp hrun
    exact ih (consistent_of_call h hc hs₁) (hrest s₁ (by rw [next, hs₁]; rfl)) hrun

end DownloadState

open DownloadState

/-- **Blocks in flight stay consistent.** After every sequence of calls, the map and the lists of
the peers hold the same requests and the counters count them; and whatever is called next returns,
with all its assertions, unless it is `FinalizeNode` for a peer that is not there. -/
theorem blocksInFlight_consistent {calls : List Call} {s : DownloadState}
    (hallowed : Run.Along next Allowed {} calls) (hrun : calls.foldlM call {} = .ok s) :
    s.Consistent ∧ ∀ c, s.Allowed c →
      (∃ s', s.call c = .ok s') ∨
        ∃ nodeid, c = .finalizeNode nodeid ∧ s.mapNodeState[nodeid]? = none := by
  have h := consistent_of_run consistent_init hallowed hrun
  refine ⟨h, fun c hc => ?_⟩
  rcases call_spec h hc with ⟨s', hs', -⟩ | ⟨nodeid, hcall, hnone, -⟩
  · exact .inl ⟨s', hs'⟩
  · exact .inr ⟨nodeid, hcall, hnone⟩

/-- Two peers serve the same block, and the first one disconnects. -/
def twoServers : List Call :=
  [.initializeNode 1, .initializeNode 2, .markBlockAsInFlight 1 ⟨1, 7, [0], rfl⟩ fun _ => 10,
    .markBlockAsInFlight 2 ⟨1, 7, [0], rfl⟩ fun _ => 20, .finalizeNode 1]

theorem blocksInFlight_consistent_twoServers :
    ∃ s, twoServers.foldlM call {} = .ok s ∧ s.mapBlocksInFlight = [⟨7, 2, 1⟩] ∧ s.Consistent := by
  have hmap : (twoServers.foldlM call {}).toOption.map (·.mapBlocksInFlight) =
      some [⟨7, 2, 1⟩] := by decide +kernel
  cases hrun : twoServers.foldlM call {} with
  | error fault => rw [hrun] at hmap; cases hmap
  | ok s =>
    rw [hrun] at hmap
    exact ⟨s, rfl, Option.some.inj hmap, (blocksInFlight_consistent (by decide +kernel) hrun).1⟩

/-! ### Who was asked first -/

/-- `NodeBlockRequestStatus`, with the iterator for the pointer to its element. -/
structure NodeBlockRequestStatus where
  already_in_flight : Nat
  first_in_flight : Bool
  requested_block_from_this_peer : Option Nat
  deriving DecidableEq

namespace DownloadState

variable {s s' : DownloadState} {c : Call} {now : NodeId → Int} {e : BlockInFlight} {n : NodeId}

/-- `GetNodeBlockRequestStatus`. -/
def getNodeBlockRequestStatus (s : DownloadState) (id : NodeId) (hash : BlockHash) :
    NodeBlockRequestStatus :=
  let range := s.equalRange hash
  { already_in_flight := range.length
    first_in_flight := range.length = 0 || range.head?.any (·.node_id = id)
    requested_block_from_this_peer := (range.find? (·.node_id = id)).map (·.list_it) }

/-- The oldest outstanding request for a block. List nodes get their identities in the
order of the requests. -/
def Oldest (s : DownloadState) (hash : BlockHash) (e : BlockInFlight) : Prop :=
  e ∈ s.equalRange hash ∧ ∀ e' ∈ s.equalRange hash, e.list_it ≤ e'.list_it

/-- What `first_in_flight` is for: nobody was asked for the block, or this peer was asked
before all others. -/
def FirstIsOldest (s : DownloadState) : Prop :=
  ∀ id hash, (s.getNodeBlockRequestStatus id hash).first_in_flight = true ↔
    s.equalRange hash = [] ∨ ∃ e, s.Oldest hash e ∧ e.node_id = id

/-- The call does not ask a second peer for a block that one other peer was asked for. -/
def NoSecond (s : DownloadState) : Call → Prop
  | .markBlockAsInFlight nodeid pindex _ =>
    (s.equalRange pindex.hash).length = 1 → (s.equalRange pindex.hash).any (·.node_id = nodeid)
  | _ => True

instance (s : DownloadState) : ∀ c, Decidable (s.NoSecond c)
  | .initializeNode _ => isTrue trivial
  | .markBlockAsReceived _ _ _ => isTrue trivial
  | .markBlockAsInFlight nodeid pindex _ =>
    inferInstanceAs (Decidable ((s.equalRange pindex.hash).length = 1 →
      (s.equalRange pindex.hash).any (·.node_id = nodeid) = true))
  | .finalizeNode _ => isTrue trivial

theorem equalRange_sublist (h : s'.mapBlocksInFlight.Sublist s.mapBlocksInFlight)
    (hash : BlockHash) : (s'.equalRange hash).Sublist (s.equalRange hash) :=
  h.filter _

/-- The new entry stands before the last one of its block, and other blocks keep their
order. -/
theorem equalRange_emplaceHint (h : s'.mapBlocksInFlight = s.emplaceHint e) (hash : BlockHash) :
    s'.equalRange hash =
      if hash = e.hash then
        (s.equalRange hash).dropLast ++ e :: (s.equalRange hash).getLast?.toList
      else s.equalRange hash := by
  have hnew : ∀ b ∈ (s.equalRange e.hash).dropLast ++ e :: (s.equalRange e.hash).getLast?.toList,
      b.hash = e.hash := by
    intro b hb
    rcases mem_cons.mp ((hint_perm e _).mem_iff.mp hb) with rfl | hb
    · rfl
    · simpa using (mem_filter.mp hb).2
  rw [equalRange, h, emplaceHint, filter_append, filter_filter]
  split
  next heq =>
    subst heq
    rw [filter_eq_self.mpr fun b hb => decide_eq_true (hnew b hb)]
    simp
  next hne =>
    have hnil : ((s.equalRange e.hash).dropLast ++
        e :: (s.equalRange e.hash).getLast?.toList).filter
        (·.hash = hash) = [] :=
      filter_eq_nil_iff.mpr fun b hb => by simpa [hnew b hb] using Ne.symm hne
    rw [hnil, append_nil, equalRange]
    refine filter_congr fun b _ => ?_
    by_cases hb : b.hash = hash
    · simp [hb, hne]
    · simp [hb]

theorem receive_sublist (h : s.receive now e = .ok s') :
    s'.mapBlocksInFlight.Sublist s.mapBlocksInFlight := by
  obtain ⟨state, -, h⟩ := bind_ok_iff.mp h
  split at h
  · cases h
  · cases h
    exact erase_sublist

theorem markBlockAsReceived_sublist {fromPeer : Option NodeId} {ret : Bool}
    (h : s.markBlockAsReceived hash fromPeer now = .ok (s', ret)) :
    s'.mapBlocksInFlight.Sublist s.mapBlocksInFlight := by
  refine foldlM_ok_induct
    (P := fun acc : DownloadState × Bool => acc.1.mapBlocksInFlight.Sublist s.mapBlocksInFlight)
    (Sublist.refl _) (fun acc e acc' _ hacc hstep => ?_) h
  split at hstep
  · cases hstep
    exact hacc
  · obtain ⟨s₁, hs₁, hstep⟩ := bind_ok_iff.mp hstep
    cases hstep
    exact (receive_sublist hs₁).trans hacc

theorem finalizeNode_sublist (h : s.finalizeNode n = .ok s') :
    s'.mapBlocksInFlight.Sublist s.mapBlocksInFlight := by
  obtain ⟨state, -, h⟩ := bind_ok_iff.mp h
  obtain ⟨map, hmap, h⟩ := bind_ok_iff.mp h
  have hsub : map.Sublist s.mapBlocksInFlight := by
    refine foldlM_ok_induct (P := fun map => map.Sublist s.mapBlocksInFlight)
      (Sublist.refl _) (fun map q map' _ hacc hstep => ?_) hmap
    unfold dropEntry at hstep
    split at hstep
    · cases hstep
    · cases hstep
      exact filter_sublist.trans hacc
  obtain ⟨-, -, h⟩ := bind_ok_iff.mp h
  dsimp only at h
  generalize s.nPeersWithValidatedDownloads - _ = nPeers at h
  split at h
  · obtain ⟨-, -, h⟩ := bind_ok_iff.mp h
    obtain ⟨-, -, h⟩ := bind_ok_iff.mp h
    cases h
    exact hsub
  · cases h
    exact hsub

theorem markBlockAsInFlight_order {pindex : Option CBlockIndex} {ret : Bool}
    (hany : (s.equalRange hash).any (·.node_id = n) = false)
    (h : s.markBlockAsInFlight n hash pindex now = .ok (s', ret)) :
    s'.mapBlocksInFlight = s.emplaceHint ⟨hash, n, s.nextIt⟩ := by
  obtain ⟨-, -, h⟩ := bind_ok_iff.mp h
  rw [if_neg (Bool.eq_false_iff.mp hany), markBlockAsReceived_of_none hany] at h
  obtain ⟨_, heq, h⟩ := bind_ok_iff.mp h
  cases heq
  obtain ⟨_, -, h⟩ := bind_ok_iff.mp h
  cases h
  rfl

/-- **What a call does to the order.** It takes requests away, or `MarkBlockAsInFlight`
puts one before the last request for its block. -/
theorem call_order (h : s.call c = .ok s') :
    (∀ hash, (s'.equalRange hash).Sublist (s.equalRange hash)) ∨
      ∃ nodeid pindex now, c = .markBlockAsInFlight nodeid pindex now ∧
        (s.equalRange pindex.hash).any (·.node_id = nodeid) = false ∧
        s'.mapBlocksInFlight = s.emplaceHint ⟨pindex.hash, nodeid, s.nextIt⟩ := by
  cases c with
  | initializeNode nodeid =>
    cases h
    exact .inl fun hash => Sublist.refl _
  | markBlockAsReceived hash fromPeer now =>
    obtain ⟨⟨s₁, ret⟩, hs₁, rfl⟩ := map_ok_iff.mp h
    exact .inl (equalRange_sublist (markBlockAsReceived_sublist hs₁))
  | finalizeNode nodeid => exact .inl (equalRange_sublist (finalizeNode_sublist h))
  | markBlockAsInFlight nodeid pindex now =>
    obtain ⟨⟨s₁, ret⟩, hs₁, rfl⟩ := map_ok_iff.mp h
    cases hany : (s.equalRange pindex.hash).any (·.node_id = nodeid) with
    | true =>
      obtain ⟨-, -, hs₁⟩ := bind_ok_iff.mp hs₁
      rw [if_pos hany] at hs₁
      cases hs₁
      exact .inl fun hash => Sublist.refl _
    | false => exact .inr ⟨nodeid, pindex, now, rfl, hany, markBlockAsInFlight_order hany hs₁⟩

/-- No block is requested twice. -/
def Single (s : DownloadState) : Prop := ∀ hash, (s.equalRange hash).length ≤ 1

theorem call_of_next (h : next s c = some s') : s.call c = .ok s' := by
  cases hcall : s.call c with
  | error fault => simp [next, hcall, Except.toOption] at h
  | ok s₁ => simpa [next, hcall, Except.toOption] using h

theorem firstIsOldest_of_single (h : s.Single) : s.FirstIsOldest := by
  intro id hash
  have hle := h hash
  simp only [getNodeBlockRequestStatus, Oldest]
  match hrange : s.equalRange hash, hle with
  | [], _ => simp
  | [e], _ => simp

/-- Two requests in the wrong order. -/
theorem not_firstIsOldest {e a : BlockInFlight}
    (hrange : s.equalRange hash = [e, a]) (hage : a.list_it < e.list_it)
    (hne : a.node_id ≠ e.node_id) : ¬s.FirstIsOldest := by
  intro h
  have hfirst := (h e.node_id hash).mp (by simp [getNodeBlockRequestStatus, hrange])
  rw [hrange] at hfirst
  rcases hfirst with hnil | ⟨b, ⟨hb, hold⟩, hnode⟩
  · cases hnil
  · rw [hrange] at hb hold
    -- the request to this peer is not the oldest one
    rcases mem_pair.mp hb with rfl | rfl
    · exact absurd (hold a (by simp)) (not_le.mpr hage)
    · exact hne hnode

/-- Where no block is requested twice, a call that asks no second peer keeps it so. -/
theorem single_of_call (hs : s.Single) (hc : s.NoSecond c) (h : s.call c = .ok s') : s'.Single := by
  intro hash
  obtain hsub | ⟨nodeid, pindex, now, rfl, hnone, hmap⟩ := call_order h
  · exact (hsub hash).length_le.trans (hs hash)
  · rw [equalRange_emplaceHint hmap]
    split
    next heq =>
      -- the peer is not in the range, so the range was not one entry, hence empty
      obtain rfl : hash = pindex.hash := heq
      have hlen : (s.equalRange pindex.hash).length ≠ 1 := fun hone => by
        rw [hc hone] at hnone
        cases hnone
      have hnil : s.equalRange pindex.hash = [] :=
        length_eq_zero_iff.mp (by have := hs pindex.hash; omega)
      rw [hnil]
      exact le_refl 1
    · exact hs hash

/-- The second request for a block goes before the first one. -/
theorem not_firstIsOldest_of_call (hcons : Consistent s) (hc : ¬s.NoSecond c)
    (h : s.call c = .ok s') : ¬s'.FirstIsOldest := by
  cases c with
  | initializeNode | markBlockAsReceived | finalizeNode => exact absurd trivial hc
  | markBlockAsInFlight nodeid pindex now =>
    obtain ⟨hone, hother⟩ := Classical.not_imp.mp hc
    obtain ⟨a, hrange⟩ := length_eq_one_iff.mp hone
    have ha : a ∈ s.equalRange pindex.hash := hrange ▸ mem_singleton_self a
    have hnode : a.node_id ≠ nodeid := fun heq => hother (any_eq_true.mpr ⟨a, ha, by simpa⟩)
    -- its list node was made before
    have hage : a.list_it < s.nextIt := by
      obtain ⟨q, ⟨state, hstate, hq⟩, -, hit⟩ := (hcons.mem_iff a).mp (mem_of_mem_filter ha)
      exact hit ▸ (hcons.queues _ _ hstate).fresh q hq
    obtain ⟨⟨s₁, ret⟩, hs₁, rfl⟩ := map_ok_iff.mp h
    have hafter := equalRange_emplaceHint
      (markBlockAsInFlight_order (Bool.eq_false_iff.mpr hother) hs₁) pindex.hash
    rw [if_pos rfl, hrange] at hafter
    exact not_firstIsOldest hafter hage hnode

end DownloadState

open DownloadState

/-- **When the first peer in the multimap is the one that was asked first.** Along a run,
`first_in_flight` always says what it is for if and only if no call asks a second peer for a block
while the only request for it is to another peer. -/
theorem firstInFlight_iff {calls : List Call} (hallowed : Run.Along next Allowed {} calls) :
    Run.Along next (fun s c => ∀ s', next s c = some s' → s'.FirstIsOldest) {} calls ↔
      Run.Along next NoSecond {} calls := by
  refine Run.along_iff (fun s => Consistent s ∧ s.Single) ?_ ?_ ?_ hallowed
  · rintro s c ⟨hcons, hs⟩ hc
    constructor
    · -- the call does not fail: a block is requested from a connected peer
      intro hafter
      by_contra hsecond
      rcases call_spec hcons hc with ⟨s', hs', -⟩ | ⟨nodeid, rfl, -, -⟩
      · exact not_firstIsOldest_of_call hcons hsecond hs' (hafter s' (by rw [next, hs']; rfl))
      · exact hsecond trivial
    · intro hone s' hs'
      exact firstIsOldest_of_single (single_of_call hs hone (call_of_next hs'))
  · rintro s c s' ⟨hcons, hs⟩ hc hone hs'
    have hcall := call_of_next hs'
    exact ⟨consistent_of_call hcons hc hcall, single_of_call hs hone hcall⟩
  · exact ⟨consistent_init, fun hash => Nat.zero_le 1⟩

/-- A block is asked of one peer, and after it came of another one. -/
theorem firstInFlight_inTurn :
    Run.Along next (fun s c => ∀ s', next s c = some s' → s'.FirstIsOldest) {}
      [.initializeNode 1, .initializeNode 2, .markBlockAsInFlight 1 ⟨1, 7, [0], rfl⟩ fun _ => 10,
        .markBlockAsReceived 7 (some 1) fun _ => 15,
        .markBlockAsInFlight 2 ⟨1, 7, [0], rfl⟩ fun _ => 20] :=
  (firstInFlight_iff (by decide +kernel)).mpr (by decide +kernel)

/-- The first peer was asked before the second, and only the second counts as first. -/
theorem firstInFlight_twoServers :
    ((twoServers.take 4).foldlM call {}).toOption.map (fun s =>
      (s.equalRange 7, (s.getNodeBlockRequestStatus 1 7).first_in_flight,
        (s.getNodeBlockRequestStatus 2 7).first_in_flight)) =
      some ([⟨7, 2, 1⟩, ⟨7, 1, 0⟩], false, true) := by
  decide +kernel

end DeVault
