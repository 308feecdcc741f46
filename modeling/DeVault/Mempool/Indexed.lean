import DeVault.Lib.Worklist
import DeVault.Mempool.Pool
import DeVault.Wallet.Fees

/-!
# The memory pool with its indexes (`txmempool.cpp`)

`MemPool` is `CTxMemPool` with the structures it keeps beside the transactions: who
spends an outpoint (`mapNextTx`), the links between parents and children (`mapLinks`),
the total size, and the ids that number the entries. The operations update each of them
by its own loop, as the source does. `MemPool.Inv` says how they hang together.

An iterator into `mapTx` is modelled by the id of its transaction, and the sets of iterators are
ordered by it; the source orders them by `entryId`. The size and the entry ids have no bound. Memory
accounting, signals and double-spend proofs are left out.
-/

namespace DeVault

open Std Outcome Ledger
open List (foldlM_cons foldl_cons forall_mem_cons mem_cons mem_toFinset)
open ExtTreeMap (getElem?_eq_none length_keys mem_iff_isSome_getElem? mem_insert mem_keys
  mem_toList_iff_getElem?_eq_some)
open ExtTreeSet (mem_toList)

/-- An entry of the pool: what was accepted, its number, and the fee delta. -/
structure MempoolEntry extends CTxMemPoolEntry where
  entryId : Nat
  feeDelta : Int
  deriving DecidableEq, Repr

variable (e : MempoolEntry)

/-- `GetTxSize`. -/
def MempoolEntry.getTxSize : Nat := e.tx.serializeSize

/-- `setEntries`; an entry is named by its transaction. -/
abbrev SetEntries := ExtTreeSet TxId

/-- `TxLinks`: the parents and children of an entry in the pool. -/
structure TxLinks where
  parents : SetEntries := ∅
  children : SetEntries := ∅

/-- `txlinksMap`. -/
abbrev TxLinksMap := ExtTreeMap TxId TxLinks

/-- `CTxMemPool`, with its indexes. -/
structure MemPool where
  mapTx : ExtTreeMap TxId MempoolEntry := ∅
  mapNextTx : ExtTreeMap COutPoint CTransaction := ∅
  mapLinks : TxLinksMap := ∅
  mapDeltas : ExtTreeMap TxId Int := ∅
  totalTxSize : Int := 0
  nextEntryId : Nat := 1

/-- The two directions of a link. -/
inductive LinkSide where
  | parents
  | children
  deriving DecidableEq

/-- How a link is seen from its other end. -/
def LinkSide.opposite : LinkSide → LinkSide
  | .parents => .children
  | .children => .parents

variable (l : TxLinks) (which : LinkSide)

namespace TxLinks

/-- The links of one direction. -/
def side : LinkSide → SetEntries
  | .parents => l.parents
  | .children => l.children

/-- Other links of one direction. -/
def setSide (s : SetEntries) : TxLinks :=
  match which with
  | .parents => { l with parents := s }
  | .children => { l with children := s }

end TxLinks

variable (links : TxLinksMap) (add : Bool)

namespace TxLinksMap

/-- The body of `UpdateChild` and `UpdateParent`. `mapLinks[entry]` makes an entry if there
is none. -/
def updateLink (entry other : TxId) (add : Bool) : TxLinksMap :=
  let l : TxLinks := links[entry]?.getD {}
  links.insert entry
    (l.setSide which (if add then (l.side which).insert other else (l.side which).erase other))

/-- `UpdateParent`. -/
def updateParent : TxLinksMap → TxId → TxId → Bool → TxLinksMap := updateLink .parents

/-- The body of `GetMemPoolParents` and `GetMemPoolChildren`. -/
def getLinks (entry : TxId) : Except Fault SetEntries :=
  match links[entry]? with
  | some l => .ok (l.side which)
  | none => .error (.assertion "it != mapLinks.end()")

/-- `GetMemPoolChildren`. -/
def getMemPoolChildren : TxLinksMap → TxId → Except Fault SetEntries := getLinks .children

/-- Update what linked entries know of an entry: the body of `UpdateParentsOf` and of
`UpdateChildrenForRemoval`. -/
def updateOpposite (links : TxLinksMap) (it : TxId) :
    Except Fault TxLinksMap := do
  let linked ← getLinks which links it
  .ok (linked.toList.foldl (fun links x => updateLink which.opposite links x it add) links)

/-- `UpdateParentsOf`: the entry as a child of its parents. -/
def updateParentsOf : Bool → TxLinksMap → TxId → Except Fault TxLinksMap := updateOpposite .parents

/-- `UpdateChildrenForRemoval`: the entry as a parent of its children. -/
def updateChildrenForRemoval : TxLinksMap → TxId → Except Fault TxLinksMap :=
  updateOpposite .children false

/-- `UpdateForRemoveFromMempool`: first the links of the parents, then those of the
children. -/
def updateForRemoveFromMempool (entriesToRemove : List TxId) :
    Except Fault TxLinksMap := do
  let links ← entriesToRemove.foldlM (updateParentsOf false) links
  entriesToRemove.foldlM updateChildrenForRemoval links

end TxLinksMap

open TxLinksMap

variable (pool : MemPool) (entry : CTxMemPoolEntry) (txid : TxId) (tx : CTransaction)

namespace MemPool

/-- `GetIterSet`: the entries of the pool with these ids. -/
def getIterSet (mapTx : ExtTreeMap TxId MempoolEntry) (txids : List TxId) : List TxId :=
  txids.filter mapTx.contains

/-- The entry that `addUnchecked` stores. -/
def newEntry : MempoolEntry :=
  ⟨entry, pool.nextEntryId, pool.mapDeltas[entry.tx.getId]?.getD 0⟩

/-- The entries of the pool that a new entry spends. -/
def parentIters : List TxId :=
  getIterSet (pool.mapTx.insert entry.tx.getId (pool.newEntry entry))
    (entry.tx.prevouts.map (·.txid))

/-- The pool with a new entry, whose links are given. -/
def withEntry (mapLinks : TxLinksMap) : MemPool :=
  { pool with
    mapTx := pool.mapTx.insert entry.tx.getId (pool.newEntry entry)
    mapNextTx := entry.tx.prevouts.foldl (fun m o => m.insertIfNew o entry.tx) pool.mapNextTx
    mapLinks := mapLinks
    totalTxSize := pool.totalTxSize + (pool.newEntry entry).getTxSize
    nextEntryId := pool.nextEntryId + 1 }

/-- `addUnchecked`: the new pool, and the number of the entry. -/
def addUnchecked : Except Fault (MemPool × Nat) := do
  let txid := entry.tx.getId
  Outcome.require (!pool.mapTx.contains txid) (.assertion "inserted")
  -- the entry comes last in the `entry_id` index
  Outcome.require (pool.mapTx.toList.all fun e => decide (e.2.entryId < pool.nextEntryId))
    (.assertion "&*mapTx.get<entry_id>().rbegin() == &*newit")
  let mapLinks := (pool.parentIters entry).foldl
    (fun links pit => updateParent links txid pit true)
    (pool.mapLinks.insertIfNew txid {})
  let mapLinks ← updateParentsOf true mapLinks txid
  .ok (pool.withEntry entry mapLinks, pool.nextEntryId)

/-- The pool without an entry, in all its indexes. -/
def eraseEntry (it : TxId) (e : MempoolEntry) : MemPool :=
  { pool with
    mapNextTx := e.tx.prevouts.foldl (fun m o => m.erase o) pool.mapNextTx
    totalTxSize := pool.totalTxSize - e.getTxSize
    mapLinks := pool.mapLinks.erase it
    mapTx := pool.mapTx.erase it }

/-- `removeUnchecked`. -/
def removeUnchecked (it : TxId) : Except Fault MemPool :=
  match pool.mapTx[it]? with
  | some e => .ok (pool.eraseEntry it e)
  | none => .error (.assertion "it != mapTx.end()")

/-- `RemoveStaged`: first the links, then the entries. -/
def removeStaged (pool : MemPool) (stage : SetEntries) : Except Fault MemPool := do
  let mapLinks ← updateForRemoveFromMempool pool.mapLinks stage.toList
  stage.toList.foldlM removeUnchecked { pool with mapLinks := mapLinks }

/-- `CalculateDescendants`. The loop takes up a new entry with every turn. -/
def calculateDescendants (setDescendants : SetEntries) (entryit : TxId) : Except Fault SetEntries :=
  let stage : SetEntries := if setDescendants.contains entryit then ∅ else {entryit}
  match Retry.retry (Worklist.turn (getMemPoolChildren pool.mapLinks))
      (pool.mapTx.size + 1) (setDescendants, stage) with
  | some r => r
  | none => .error (.runtimeError "CalculateDescendants: no end")

/-- The entries that spend an output of a transaction, by the range of `mapNextTx` that
starts at its first outpoint. -/
def spendersOf : List TxId :=
  (pool.mapNextTx.toList.filter fun e => e.1.txid == txid).map fun e => e.2.getId

/-- `txToRemove` of `removeRecursive`: the transaction, or the entries that spend its outputs if it
is not in the pool. -/
def txToRemove : Except Fault (List TxId) :=
  if pool.mapTx.contains txid then .ok [txid]
  else if (pool.spendersOf txid).all pool.mapTx.contains then .ok (pool.spendersOf txid)
  else .error (.assertion "nextit != mapTx.end()")

/-- `removeRecursive`: the transaction, if it is in the pool, and all that
descend from it. Of a transaction that is not in the pool its children are removed. -/
def removeRecursive (pool : MemPool) (origTx : CTransaction) : Except Fault MemPool := do
  let txToRemove ← pool.txToRemove origTx.getId
  let setAllRemoves ← txToRemove.foldlM pool.calculateDescendants ∅
  pool.removeStaged setAllRemoves

/-- `ClearPrioritisation`. -/
def clearPrioritisation : MemPool :=
  { pool with mapDeltas := pool.mapDeltas.erase txid }

/-- One input of the loop of `removeConflicts`. -/
def removeConflict (pool : MemPool) (prevout : COutPoint) : Except Fault MemPool :=
  match pool.mapNextTx[prevout]? with
  | some txConflict =>
    if txConflict.getId ≠ tx.getId then
      (pool.clearPrioritisation txConflict.getId).removeRecursive txConflict
    else .ok pool
  | none => .ok pool

/-- `removeConflicts`, over the inputs of the transaction. -/
def removeConflicts : Except Fault MemPool :=
  tx.prevouts.foldlM (removeConflict tx) pool

/-- One transaction of the loop of `removeForBlock`. -/
def removeBlockTx : Except Fault MemPool :=
  if pool.mapTx.contains tx.getId then pool.removeStaged {tx.getId} else pool.removeConflicts tx

/-- `removeForBlock`, on the transactions of the block in the order in which
`DisconnectedBlockTransactions` sorts them. -/
def removeForBlock (queuedTx : List CTransaction) : Except Fault MemPool :=
  if pool.mapTx.isEmpty && pool.mapDeltas.isEmpty then .ok pool
  else do
    let pool ← queuedTx.foldlM removeBlockTx pool
    .ok { pool with mapDeltas := queuedTx.foldl (fun m tx => m.erase tx.getId) pool.mapDeltas }

/-- The entries in the order of their numbers. -/
def byEntryId (pool : MemPool) : List (TxId × MempoolEntry) :=
  pool.mapTx.toList.insertionSort fun a b => a.2.entryId ≤ b.2.entryId

/-- The loop of `Expire`: what is too old, with its descendants. -/
def expireLoop (pool : MemPool) (time : Int) (fast : Bool) :
    List (TxId × MempoolEntry) → SetEntries → Except Fault SetEntries
  | [], stage => .ok stage
  | (it, e) :: rest, stage =>
    if e.nTime < time then do
      let stage ← pool.calculateDescendants stage it
      pool.expireLoop time fast rest stage
    else if fast then .ok stage
    else pool.expireLoop time fast rest stage

/-- `Expire`: the new pool, and how many entries were removed. -/
def expire (pool : MemPool) (time : Int) (fast : Bool) : Except Fault (MemPool × Nat) := do
  let stage ← pool.expireLoop time fast pool.byEntryId ∅
  let pool ← pool.removeStaged stage
  .ok (pool, stage.size)

end MemPool

/-- What `TrimToSize` reads besides the pool. -/
structure TrimEnv where
  /-- `DynamicMemoryUsage`. -/
  dynamicMemoryUsage : MemPool → Nat
  /-- `nBytesPerSigCheck`. -/
  bytesPerSigCheck : Nat

variable (env : TrimEnv)

/-- `GetModifiedFeeRate`: a rate for 1000 bytes of virtual size. -/
def MempoolEntry.getModifiedFeeRate (e : MempoolEntry) : CFeeRate :=
  let nSize := max e.getTxSize (e.sigChecks * env.bytesPerSigCheck)
  ⟨if nSize > 0 then Int.tdiv (1000 * (e.nFee + e.feeDelta)) nSize else 0⟩

/-- `CompareTxMemPoolEntryByModifiedFeeRate`. -/
def compareByModifiedFeeRate (a b : MempoolEntry) : Bool :=
  let frA := a.getModifiedFeeRate env
  let frB := b.getModifiedFeeRate env
  if frA.nSatoshisPerK = frB.nSatoshisPerK then decide (a.entryId < b.entryId)
  else decide (frA.nSatoshisPerK > frB.nSatoshisPerK)

namespace MemPool

/-- The one of two entries that comes later in the `modified_feerate` index. -/
def laterByFeeRate (last : Option (TxId × MempoolEntry)) (e : TxId × MempoolEntry) :
    Option (TxId × MempoolEntry) :=
  match last with
  | none => some e
  | some l => if compareByModifiedFeeRate env l.2 e.2 then some e else some l

/-- The last entry of the `modified_feerate` index. -/
def lastByFeeRate (env : TrimEnv) (pool : MemPool) : Option (TxId × MempoolEntry) :=
  pool.mapTx.toList.foldl (laterByFeeRate env) none

/-- The outpoints of removed entries whose transactions are not in the pool. -/
def noSpendsRemaining (pool : MemPool) (stage : SetEntries) : List COutPoint :=
  stage.toList.flatMap fun it =>
    ((pool.mapTx[it]?.map fun e => e.tx.prevouts).getD []).filter fun o =>
      !pool.mapTx.contains o.txid

/-- One turn of the loop of `TrimToSize`, on the pool and `pvNoSpendsRemaining`. -/
def trimTurn (env : TrimEnv) (sizelimit : Nat) (s : MemPool × List COutPoint) :
    Retry.Turn (MemPool × List COutPoint) (Except Fault (MemPool × List COutPoint)) :=
  let (pool, removed) := s
  match pool.lastByFeeRate env with
  | none => .leave (.ok s)
  | some (it, _) =>
    if env.dynamicMemoryUsage pool > sizelimit then
      match pool.calculateDescendants ∅ it with
      | .error e => .leave (.error e)
      | .ok stage =>
        match pool.removeStaged stage with
        | .error e => .leave (.error e)
        | .ok pool' => .again (pool', removed ++ pool.noSpendsRemaining stage)
    else .leave (.ok s)

/-- `TrimToSize`. Every turn of the loop removes an entry. -/
def trimToSize (pool : MemPool) (sizelimit : Nat) : Except Fault (MemPool × List COutPoint) :=
  match Retry.retry (trimTurn env sizelimit) (pool.mapTx.size + 1) (pool, []) with
  | some r => r
  | none => .error (.runtimeError "TrimToSize: no end")

end MemPool

/-! ### Links -/

theorem LinkSide.opposite_ne : which.opposite ≠ which := by
  cases which <;> decide

theorem TxLinks.side_setSide (which which' : LinkSide) (s : SetEntries) :
    (l.setSide which s).side which' = if which = which' then s else l.side which' := by
  cases which <;> cases which' <;> rfl

variable {ys removed : List TxId}

namespace TxLinksMap

/-- The links of an entry, none if it is not in the map. -/
def linkSet (x : TxId) : SetEntries :=
  (links[x]?.getD {}).side which

variable {which which' : LinkSide} {links links' : TxLinksMap} {x y it entry other : TxId}
  {add : Bool} {xs : List TxId}

theorem getLinks_eq (h : x ∈ links) : getLinks which links x = .ok (linkSet which links x) := by
  obtain ⟨l, hl⟩ := mem_iff_isSome_getElem?.mp h |> Option.isSome_iff_exists.mp
  rw [getLinks, linkSet, hl, Option.getD_some]

theorem linkSet_updateLink : linkSet which' (updateLink which links entry other add) x =
      if which = which' ∧ entry = x then
        if add then (linkSet which' links x).insert other else (linkSet which' links x).erase other
      else linkSet which' links x := by
  unfold updateLink linkSet
  rw [getElem?_insert]
  by_cases hx : entry = x
  · subst hx
    simp only [if_true, Option.getD_some, TxLinks.side_setSide, and_true]
    by_cases hside : which = which'
    · subst hside
      simp
    · simp [hside]
  · simp [hx]

theorem mem_updateLink : x ∈ updateLink which links entry other add ↔ entry = x ∨ x ∈ links := by
  unfold updateLink
  rw [mem_insert, LawfulEqCmp.compare_eq_iff_eq]

theorem mem_linkSet_updateLink :
    y ∈ linkSet which' (updateLink which links entry other add) x ↔
      if add then y ∈ linkSet which' links x ∨ (which = which' ∧ entry = x ∧ other = y)
      else y ∈ linkSet which' links x ∧ ¬(which = which' ∧ entry = x ∧ other = y) := by
  rw [linkSet_updateLink]
  by_cases h : which = which' ∧ entry = x
  · cases add <;> simp [h, and_comm, or_comm]
  · cases add <;> simp [h, ← and_assoc]

/-- Links of one direction are added or removed, one after the other. -/
theorem mem_linkSet_foldl {ps : List (TxId × TxId)} :
    y ∈ linkSet which' (ps.foldl (fun l p => updateLink which l p.1 p.2 add) links) x ↔
      if add then y ∈ linkSet which' links x ∨ (which = which' ∧ (x, y) ∈ ps)
      else y ∈ linkSet which' links x ∧ ¬(which = which' ∧ (x, y) ∈ ps) := by
  induction ps generalizing links with
  | nil => simp
  | cons p ps ih =>
    have hp : (x, y) = p ↔ p.1 = x ∧ p.2 = y := by rw [eq_comm, Prod.ext_iff]
    rw [foldl_cons, ih, mem_linkSet_updateLink, mem_cons, hp]
    cases add
    · simp only [Bool.false_eq_true, if_false, and_or_left, not_or, and_assoc]
    · simp only [if_true, and_or_left, or_assoc]

theorem mem_foldl_updateLink {ps : List (TxId × TxId)} :
    x ∈ ps.foldl (fun l p => updateLink which l p.1 p.2 add) links ↔
      x ∈ links ∨ x ∈ ps.map Prod.fst := by
  induction ps generalizing links with
  | nil => simp
  | cons p ps ih =>
    rw [foldl_cons, ih, mem_updateLink, List.map_cons, mem_cons, eq_comm (a := p.1),
      or_comm (a := x = p.1), or_assoc]

theorem foldl_updateLink_entries : xs.foldl (fun l x => updateLink which l x it add) links =
      (xs.map (·, it)).foldl (fun l p => updateLink which l p.1 p.2 add) links := by
  rw [List.foldl_map]

theorem foldl_updateLink_others : ys.foldl (fun l y => updateLink which l it y add) links =
      (ys.map (it, ·)).foldl (fun l p => updateLink which l p.1 p.2 add) links := by
  rw [List.foldl_map]

theorem updateOpposite_spec (which : LinkSide) (hit : it ∈ links) :
    ∃ links', updateOpposite which false links it = .ok links' ∧
      (∀ x, linkSet which links' x = linkSet which links x) ∧
      (∀ x y, y ∈ linkSet which.opposite links' x ↔
        y ∈ linkSet which.opposite links x ∧ ¬(y = it ∧ x ∈ linkSet which links it)) ∧
      (∀ x, x ∈ links' ↔ x ∈ links ∨ x ∈ linkSet which links it) := by
  refine ⟨_, bind_ok (getLinks_eq hit) rfl, ?_⟩
  rw [foldl_updateLink_entries]
  refine ⟨fun x => ?_, fun x y => ?_, fun x => ?_⟩
  · ext y
    rw [mem_linkSet_foldl]
    exact and_iff_left fun h => which.opposite_ne h.1
  · rw [mem_linkSet_foldl]
    simp [mem_toList, and_comm, eq_comm]
  · rw [mem_foldl_updateLink]
    simp [mem_toList]

/-- **The loop over all removed entries**: the links of one direction stay, and those of the other
that lead to a removed entry go. -/
theorem foldlM_updateOpposite_spec (which : LinkSide) (h : ∀ it ∈ removed, it ∈ links) :
    ∃ links', removed.foldlM (updateOpposite which false) links = .ok links' ∧
      (∀ x, linkSet which links' x = linkSet which links x) ∧
      (∀ x y, y ∈ linkSet which.opposite links' x ↔
        y ∈ linkSet which.opposite links x ∧ ¬(y ∈ removed ∧ x ∈ linkSet which links y)) ∧
      (∀ x, x ∈ links' ↔ x ∈ links ∨ ∃ it ∈ removed, x ∈ linkSet which links it) := by
  induction removed generalizing links with
  | nil => exact ⟨links, rfl, fun _ => rfl, by simp, by simp⟩
  | cons it removed ih =>
    obtain ⟨hit, hrest⟩ := forall_mem_cons.mp h
    obtain ⟨links₁, h₁, hsame₁, hother₁, hkeys₁⟩ := updateOpposite_spec which hit
    obtain ⟨links', h', hsame', hother', hkeys'⟩ :=
      ih fun it' hit' => (hkeys₁ it').mpr (.inl (hrest it' hit'))
    refine ⟨links', ?_, fun x => (hsame' x).trans (hsame₁ x), fun x y => ?_, fun x => ?_⟩
    · rw [foldlM_cons, h₁]
      exact h'
    · rw [hother', hother₁, hsame₁, and_assoc, mem_cons]
      refine and_congr_right fun _ => ?_
      constructor
      · rintro ⟨hne, hnot⟩ ⟨rfl | hmem, hx⟩
        · exact hne ⟨rfl, hx⟩
        · exact hnot ⟨hmem, hx⟩
      · intro hnot
        exact ⟨fun hbad => hnot ⟨.inl hbad.1, hbad.1 ▸ hbad.2⟩,
          fun hbad => hnot ⟨.inr hbad.1, hbad.2⟩⟩
    · rw [hkeys', hkeys₁, or_assoc]
      simp only [hsame₁, List.exists_mem_cons_iff]

/-- What `UpdateForRemoveFromMempool` leaves: between entries that stay, the links are as before. -/
theorem updateForRemoveFromMempool_spec (h : ∀ it ∈ removed, it ∈ links)
    (hinverse : ∀ a b, a ∈ linkSet .parents links b ↔ b ∈ linkSet .children links a)
    (hkeys : ∀ a b, a ∈ linkSet .parents links b → a ∈ links ∧ b ∈ links) :
    ∃ links', updateForRemoveFromMempool links removed = .ok links' ∧
      (∀ x, x ∈ links' ↔ x ∈ links) ∧
      ∀ x, x ∉ removed → ∀ which y,
        y ∈ linkSet which links' x ↔ y ∈ linkSet which links x ∧ y ∉ removed := by
  obtain ⟨links₁, h₁, hparents₁, hchildren₁, hkeys₁⟩ := foldlM_updateOpposite_spec .parents h
  have hsub₁ : ∀ x, x ∈ links₁ ↔ x ∈ links := by
    intro x
    rw [hkeys₁]
    exact or_iff_left_of_imp fun ⟨it, _, hx⟩ => (hkeys x it hx).1
  obtain ⟨links₂, h₂, hchildren₂, hparents₂, hkeys₂⟩ :=
    foldlM_updateOpposite_spec .children fun it hit => (hsub₁ it).mpr (h it hit)
  refine ⟨links₂, bind_ok h₁ h₂, fun x => ?_, fun x hx which y => ?_⟩
  · rw [hkeys₂, hsub₁]
    refine or_iff_left_of_imp fun ⟨it, _, hmem⟩ => ?_
    have hchild : x ∈ linkSet .children links it := ((hchildren₁ it x).mp hmem).1
    exact (hkeys it x ((hinverse it x).mpr hchild)).2
  · cases which with
    | parents =>
      have hstep := hparents₂ x y
      rw [LinkSide.opposite] at hstep
      rw [hstep, hparents₁]
      refine and_congr_right fun hy =>
        ⟨fun hnot hmem => hnot ⟨hmem, ?_⟩, fun hnot hbad => hnot hbad.1⟩
      -- `x` stays, so it is still among the children of `y` when the second loop comes
      exact (hchildren₁ y x).mpr ⟨(hinverse y x).mp hy, fun hbad => hx hbad.1⟩
    | children =>
      rw [hchildren₂]
      refine (hchildren₁ x y).trans (and_congr_right fun hy => ?_)
      exact ⟨fun hnot hmem => hnot ⟨hmem, (hinverse x y).mpr hy⟩, fun hnot hbad => hnot hbad.1⟩

end TxLinksMap

/-! ### How the indexes hang together -/

variable {stage : SetEntries} {env : TrimEnv}

namespace MemPool

/-- **The spending relation of the pool**: both are in the pool, and `child` has an input
that is an output of `parent`. -/
def Spends (child parent : TxId) : Prop :=
  parent ∈ pool.mapTx ∧ ∃ e, pool.mapTx[child]? = some e ∧ ∃ o ∈ e.tx.prevouts, o.txid = parent

/-- The contribution of an entry to `totalTxSize`. -/
def sizeOf (_ : TxId) (e : MempoolEntry) : Int := e.getTxSize

/-- **The invariant of the pool.** -/
structure Inv (pool : MemPool) : Prop where
  keyed : ∀ (txid : TxId) e, pool.mapTx[txid]? = some e → e.tx.getId = txid
  /-- `mapNextTx` is the map from the inputs of the pool to their spenders. -/
  next : ∀ (o : COutPoint) tx, pool.mapNextTx[o]? = some tx ↔
    (∃ e, pool.mapTx[tx.getId]? = some e ∧ e.tx = tx) ∧ o ∈ tx.prevouts
  linked : ∀ txid : TxId, txid ∈ pool.mapLinks ↔ txid ∈ pool.mapTx
  /-- The links are the spending relation, from both ends. -/
  parents : ∀ a b, a ∈ linkSet .parents pool.mapLinks b ↔ pool.Spends b a
  children : ∀ a b, b ∈ linkSet .children pool.mapLinks a ↔ pool.Spends b a
  total : pool.totalTxSize = Ledger.weight sizeOf pool.mapTx
  /-- A parent has a smaller number than its child. -/
  order : ∀ (a b : TxId) e e', pool.mapTx[a]? = some e → pool.mapTx[b]? = some e' →
    pool.Spends b a → e.entryId < e'.entryId
  entryId_lt : ∀ (txid : TxId) e, pool.mapTx[txid]? = some e → e.entryId < pool.nextEntryId
  entryId_inj : ∀ (a b : TxId) e e', pool.mapTx[a]? = some e → pool.mapTx[b]? = some e' →
    e.entryId = e'.entryId → a = b

theorem inv_empty : Inv {} where
  keyed := fun txid e h => absurd h (by simp)
  next := fun o tx => iff_of_false (by simp) (by simp)
  linked := fun txid => iff_of_false (by simp) (by simp)
  parents := fun a b => iff_of_false (by simp [linkSet, TxLinks.side]) fun h => by
    simp [Spends] at h
  children := fun a b => iff_of_false (by simp [linkSet, TxLinks.side]) fun h => by
    simp [Spends] at h
  total := rfl
  order := fun a b e e' h => absurd h (by simp)
  entryId_lt := fun txid e h => absurd h (by simp)
  entryId_inj := fun a b e e' h => absurd h (by simp)

variable {pool pool' : MemPool} {a b it txid : TxId} {e : MempoolEntry} {tx : CTransaction}
  {o : COutPoint}

theorem mem_mapTx_iff : txid ∈ pool.mapTx ↔ ∃ e, pool.mapTx[txid]? = some e := by
  rw [mem_iff_isSome_getElem?, Option.isSome_iff_exists]

/-- The spender of an input of an entry is that entry. -/
theorem Inv.next_of_mem (h : pool.Inv) (he : pool.mapTx[txid]? = some e) (ho : o ∈ e.tx.prevouts) :
    pool.mapNextTx[o]? = some e.tx := by
  refine (h.next o e.tx).mpr ⟨⟨e, ?_, rfl⟩, ho⟩
  rw [h.keyed txid e he]
  exact he

/-! ### Removal -/

/-- The structures that `removeUnchecked` keeps in step one entry at a time: all but the
links. -/
structure Indexed (pool : MemPool) : Prop where
  keyed : ∀ (txid : TxId) e, pool.mapTx[txid]? = some e → e.tx.getId = txid
  next : ∀ (o : COutPoint) tx, pool.mapNextTx[o]? = some tx ↔
    (∃ e, pool.mapTx[tx.getId]? = some e ∧ e.tx = tx) ∧ o ∈ tx.prevouts
  total : pool.totalTxSize = Ledger.weight sizeOf pool.mapTx

theorem getElem?_foldl_erase (m : ExtTreeMap COutPoint CTransaction) (os : List COutPoint) :
    (os.foldl (fun m o => m.erase o) m)[o]? = if o ∈ os then none else m[o]? := by
  induction os generalizing m with
  | nil => simp
  | cons a os ih =>
    rw [foldl_cons, ih, getElem?_erase]
    by_cases hmem : o ∈ os
    · simp [hmem]
    · by_cases ha : a = o
      · simp [ha]
      · simp [hmem, ha, Ne.symm ha]

theorem removeUnchecked_spec (h : pool.Indexed) (hit : it ∈ pool.mapTx) :
    ∃ pool', pool.removeUnchecked it = .ok pool' ∧ pool'.Indexed ∧
      (∀ txid : TxId, pool'.mapTx[txid]? = if it = txid then none else pool.mapTx[txid]?) ∧
      (∀ txid : TxId, pool'.mapLinks[txid]? = if it = txid then none else pool.mapLinks[txid]?) ∧
      pool'.nextEntryId = pool.nextEntryId ∧ pool'.mapDeltas = pool.mapDeltas := by
  obtain ⟨e, he⟩ := mem_mapTx_iff.mp hit
  refine ⟨pool.eraseEntry it e, by rw [removeUnchecked, he], ?_, fun txid => getElem?_erase _ _ _,
    fun txid => getElem?_erase _ _ _, rfl, rfl⟩
  have heid := h.keyed it e he
  refine ⟨forall_erase h.keyed it, fun o tx => ?_, ?_⟩
  · show (e.tx.prevouts.foldl (fun m o => m.erase o) pool.mapNextTx)[o]? = some tx ↔
      (∃ e', (pool.mapTx.erase it)[tx.getId]? = some e' ∧ e'.tx = tx) ∧ o ∈ tx.prevouts
    rw [getElem?_foldl_erase, getElem?_erase]
    by_cases hid : it = tx.getId
    · -- the removed transaction: its inputs are erased
      rw [if_pos hid]
      refine iff_of_false (fun hbad => ?_) (by simp)
      split at hbad
      · cases hbad
      next hnot =>
      obtain ⟨⟨e', he', rfl⟩, ho⟩ := (h.next o tx).mp hbad
      rw [← hid, he] at he'
      cases he'
      exact hnot ho
    · rw [if_neg hid, ← h.next]
      split
      next ho =>
        -- an input of the removed transaction has no other spender
        refine iff_of_false (by simp) fun hbad => ?_
        have hspender := (h.next o e.tx).mpr ⟨⟨e, by rw [heid]; exact he, rfl⟩, ho⟩
        rw [hspender] at hbad
        cases hbad
        exact hid heid.symm
      · exact .rfl
  · show pool.totalTxSize - e.getTxSize = weight sizeOf (pool.mapTx.erase it)
    rw [weight_erase, weightAt_of_some he, h.total]
    rfl

theorem foldlM_removeUnchecked_spec (hnodup : removed.Nodup)
    (h : pool.Indexed) (hmem : ∀ it ∈ removed, it ∈ pool.mapTx) :
    ∃ pool', removed.foldlM removeUnchecked pool = .ok pool' ∧ pool'.Indexed ∧
      (∀ txid : TxId, pool'.mapTx[txid]? = if txid ∈ removed then none else pool.mapTx[txid]?) ∧
      (∀ txid : TxId,
        pool'.mapLinks[txid]? = if txid ∈ removed then none else pool.mapLinks[txid]?) ∧
      pool'.nextEntryId = pool.nextEntryId ∧ pool'.mapDeltas = pool.mapDeltas := by
  induction removed generalizing pool with
  | nil => exact ⟨pool, rfl, h, by simp, by simp, rfl, rfl⟩
  | cons it removed ih =>
    obtain ⟨hnew, hnodup⟩ := List.nodup_cons.mp hnodup
    obtain ⟨hit, hrest⟩ := forall_mem_cons.mp hmem
    obtain ⟨pool₁, h₁, hindexed₁, htx₁, hlinks₁, hnext₁, hdeltas₁⟩ := removeUnchecked_spec h hit
    have hrest₁ : ∀ it' ∈ removed, it' ∈ pool₁.mapTx := by
      intro it' hit'
      rw [mem_mapTx_iff, htx₁, if_neg fun heq : it = it' => hnew (heq ▸ hit')]
      exact mem_mapTx_iff.mp (hrest it' hit')
    obtain ⟨pool', h', hindexed', htx', hlinks', hnext', hdeltas'⟩ := ih hnodup hindexed₁ hrest₁
    -- the same calculation for both maps
    have hboth : ∀ {V : Type} (txid : TxId) (v : Option V),
        (if txid ∈ removed then none else if it = txid then none else v) =
          if txid ∈ it :: removed then none else v := by
      intro V txid v
      by_cases hr : txid ∈ removed
      · simp [hr]
      · by_cases hi : it = txid
        · simp [hi]
        · simp [hr, hi, Ne.symm hi]
    refine ⟨pool', ?_, hindexed', fun txid => ?_, fun txid => ?_, hnext'.trans hnext₁,
      hdeltas'.trans hdeltas₁⟩
    · rw [foldlM_cons, h₁]
      exact h'
    · rw [htx', htx₁, hboth]
    · rw [hlinks', hlinks₁, hboth]

/-- The entries of `stage`, and only these, are gone. -/
def Without (pool : MemPool) (stage : SetEntries) (pool' : MemPool) : Prop :=
  ∀ txid : TxId, pool'.mapTx[txid]? = if txid ∈ stage then none else pool.mapTx[txid]?

namespace Without

variable {stage : SetEntries} (h : pool.Without stage pool')

include h

theorem getElem?_eq_some_iff :
    pool'.mapTx[txid]? = some e ↔ txid ∉ stage ∧ pool.mapTx[txid]? = some e := by
  rw [h txid]
  split
  next hmem => exact iff_of_false (by simp) fun hbad => hbad.1 hmem
  next hmem => exact ⟨fun hget => ⟨hmem, hget⟩, fun hget => hget.2⟩

theorem mem_iff : txid ∈ pool'.mapTx ↔ txid ∉ stage ∧ txid ∈ pool.mapTx := by
  simp only [mem_mapTx_iff, h.getElem?_eq_some_iff, exists_and_left]

theorem spends_iff : pool'.Spends b a ↔ b ∉ stage ∧ a ∉ stage ∧ pool.Spends b a := by
  simp only [Spends, h.mem_iff, h.getElem?_eq_some_iff]
  constructor
  · rintro ⟨⟨ha, hamem⟩, e, ⟨hb, he⟩, hin⟩
    exact ⟨hb, ha, hamem, e, he, hin⟩
  · rintro ⟨hb, ha, hamem, e, he, hin⟩
    exact ⟨⟨ha, hamem⟩, e, ⟨hb, he⟩, hin⟩

end Without

theorem mem_of_spends (h : pool.Spends b a) : a ∈ pool.mapTx ∧ b ∈ pool.mapTx := by
  obtain ⟨ha, e, he, -⟩ := h
  exact ⟨ha, mem_mapTx_iff.mpr ⟨e, he⟩⟩

/-- The links of the pool that is left, read from those that the two loops leave. -/
theorem mem_linkSet_of_removed {links : TxLinksMap} {which : LinkSide}
    (hlinks : ∀ txid : TxId, pool'.mapLinks[txid]? = if txid ∈ stage then none else links[txid]?)
    (hkept : ∀ x, x ∉ stage → ∀ which y, y ∈ linkSet which links x ↔
      y ∈ linkSet which pool.mapLinks x ∧ y ∉ stage) :
    b ∈ linkSet which pool'.mapLinks a ↔
      a ∉ stage ∧ b ∉ stage ∧ b ∈ linkSet which pool.mapLinks a := by
  by_cases ha : a ∈ stage
  · rw [linkSet, hlinks, if_pos ha]
    exact iff_of_false (by cases which <;> simp [TxLinks.side]) fun hbad => hbad.1 ha
  · have hsame : linkSet which pool'.mapLinks a = linkSet which links a := by
      rw [linkSet, hlinks, if_neg ha, linkSet]
    rw [hsame, hkept a ha]
    exact ⟨fun hb => ⟨ha, hb.2, hb.1⟩, fun hb => ⟨hb.2.2, hb.2.1⟩⟩

/-- **Removal.** Any entries can be removed; exactly they are gone, and the indexes are in order. -/
theorem removeStaged_spec (h : pool.Inv) (hstage : ∀ it ∈ stage, it ∈ pool.mapTx) :
    ∃ pool', pool.removeStaged stage = .ok pool' ∧ pool'.Inv ∧ pool.Without stage pool' ∧
      pool'.mapDeltas = pool.mapDeltas := by
  have hlist : ∀ it ∈ stage.toList, it ∈ pool.mapTx := fun it hit =>
    hstage it (mem_toList.mp hit)
  have hnodup : stage.toList.Nodup :=
    ExtTreeSet.distinct_toList.imp fun hne heq => hne (LawfulEqCmp.compare_eq_iff_eq.mpr heq)
  -- the links are cut first, and then the entries go one by one
  obtain ⟨links, hlinks, hkeys, hkept⟩ := updateForRemoveFromMempool_spec
    (fun it (hit : it ∈ stage.toList) => (h.linked it).mpr (hlist it hit))
    (fun x y => (h.parents x y).trans (h.children x y).symm)
    (fun x y hxy => by
      obtain ⟨hx, hy⟩ := mem_of_spends ((h.parents x y).mp hxy)
      exact ⟨(h.linked x).mpr hx, (h.linked y).mpr hy⟩)
  have hstart : Indexed { pool with mapLinks := links } := ⟨h.keyed, h.next, h.total⟩
  obtain ⟨pool', hpool', hindexed, htx, hlinks', hnext, hdeltas⟩ :=
    foldlM_removeUnchecked_spec hnodup hstart hlist
  simp only [mem_toList] at htx hlinks' hkept
  have hwithout : pool.Without stage pool' := htx
  refine ⟨pool', bind_ok hlinks hpool', ?_, hwithout, hdeltas⟩
  refine ⟨hindexed.keyed, hindexed.next, fun txid => ?_, fun x y => ?_, fun x y => ?_,
    hindexed.total, fun x y e e' he he' hxy => ?_, fun txid e he => ?_, fun x y e e' he he' => ?_⟩
  · rw [hwithout.mem_iff, mem_iff_isSome_getElem?, hlinks']
    split
    next hin => exact iff_of_false (by simp) fun hbad => hbad.1 hin
    next hin =>
      rw [← mem_iff_isSome_getElem?]
      exact (hkeys txid).trans ((h.linked txid).trans (and_iff_right hin).symm)
  · rw [mem_linkSet_of_removed hlinks' hkept, hwithout.spends_iff, h.parents]
  · rw [mem_linkSet_of_removed hlinks' hkept, hwithout.spends_iff, h.children]
    exact and_left_comm
  · exact h.order x y e e' (hwithout.getElem?_eq_some_iff.mp he).2
      (hwithout.getElem?_eq_some_iff.mp he').2 (hwithout.spends_iff.mp hxy).2.2
  · rw [hnext]
    exact h.entryId_lt txid e (hwithout.getElem?_eq_some_iff.mp he).2
  · exact h.entryId_inj x y e e' (hwithout.getElem?_eq_some_iff.mp he).2
      (hwithout.getElem?_eq_some_iff.mp he').2

/-! ### A new entry -/

theorem getElem?_foldl_insertIfNew (m : ExtTreeMap COutPoint CTransaction) (os : List COutPoint) :
    (os.foldl (fun m o => m.insertIfNew o tx) m)[o]? =
      if o ∈ os ∧ m[o]? = none then some tx else m[o]? := by
  induction os generalizing m with
  | nil => simp
  | cons a os ih =>
    rw [foldl_cons, ih, getElem?_insertIfNew]
    by_cases ha : a = o
    · subst ha
      cases hm : m[a]? with
      | none => simp
      | some t => simp
    · simp [ha, Ne.symm ha]

/-- The links of a new entry: its parents among the entries, and it among their children. -/
theorem exists_links_of_add {links : TxLinksMap} (hnew : it ∉ links) (hys : ∀ y ∈ ys, y ∈ links) :
    ∃ links', updateParentsOf true
        (ys.foldl (fun l pit => updateParent l it pit true) (links.insertIfNew it {})) it =
          .ok links' ∧
      (∀ x, x ∈ links' ↔ it = x ∨ x ∈ links) ∧
      (∀ x y, y ∈ linkSet .parents links' x ↔
        y ∈ linkSet .parents links x ∨ (x = it ∧ y ∈ ys)) ∧
      (∀ x y, y ∈ linkSet .children links' x ↔
        y ∈ linkSet .children links x ∨ (x ∈ ys ∧ y = it)) := by
  have hkeys₀ : ∀ x, x ∈ links.insertIfNew it {} ↔ it = x ∨ x ∈ links := fun x => by
    rw [ExtTreeMap.mem_insertIfNew, LawfulEqCmp.compare_eq_iff_eq]
  -- an empty entry shows the same links as no entry
  have hlinks₀ : ∀ which x, linkSet which (links.insertIfNew it {}) x =
      linkSet which links x := by
    intro which x
    rw [linkSet, getElem?_insertIfNew, linkSet]
    split
    next h =>
      rw [h.2]
      rfl
    · rfl
  have hit₀ : it ∈ links.insertIfNew it {} := (hkeys₀ it).mpr (.inl rfl)
  generalize links.insertIfNew it {} = links₀ at hkeys₀ hlinks₀ hit₀ ⊢
  have hempty : ∀ y, y ∉ linkSet .parents links it := by
    intro y
    rw [linkSet, getElem?_eq_none hnew]
    simp [TxLinks.side]
  unfold updateParent
  rw [foldl_updateLink_others]
  have hit₁ : it ∈ (ys.map (it, ·)).foldl
      (fun l p => updateLink .parents l p.1 p.2 true) links₀ := mem_foldl_updateLink.mpr (.inl hit₀)
  refine ⟨_, bind_ok (getLinks_eq hit₁) rfl, ?_⟩
  have hparents : ∀ x, x ∈ linkSet .parents ((ys.map (it, ·)).foldl
      (fun l p => updateLink .parents l p.1 p.2 true) links₀) it ↔ x ∈ ys := by
    intro x
    rw [mem_linkSet_foldl, hlinks₀]
    simp [hempty]
  rw [foldl_updateLink_entries]
  refine ⟨fun x => ?_, fun x y => ?_, fun x y => ?_⟩
  · rw [mem_foldl_updateLink, mem_foldl_updateLink, hkeys₀, or_assoc]
    refine or_iff_left_of_imp ?_
    rintro (hx | hx)
    · obtain ⟨p, hp, rfl⟩ := List.mem_map.mp hx
      obtain ⟨y, -, rfl⟩ := List.mem_map.mp hp
      exact .inl rfl
    · refine .inr (hys x ?_)
      simpa [hparents] using hx
  · rw [mem_linkSet_foldl, mem_linkSet_foldl, hlinks₀]
    simp [LinkSide.opposite, and_comm, eq_comm]
  · rw [mem_linkSet_foldl, mem_linkSet_foldl, hlinks₀]
    simp [LinkSide.opposite, hparents, eq_comm]

/-- A transaction that can be added: it is not in the pool, no other entry spends its inputs, and
nothing spends an output of it. -/
structure Addable (pool : MemPool) (tx : CTransaction) : Prop where
  absent : tx.getId ∉ pool.mapTx
  unspent : ∀ o ∈ tx.prevouts, pool.mapNextTx[o]? = none
  childless : ∀ (txid : TxId) e, pool.mapTx[txid]? = some e → ∀ o ∈ e.tx.prevouts, o.txid ≠ tx.getId
  not_own : ∀ o ∈ tx.prevouts, o.txid ≠ tx.getId

theorem mem_parentIters_iff {entry : CTxMemPoolEntry} (hadd : pool.Addable entry.tx) :
    a ∈ pool.parentIters entry ↔ a ∈ pool.mapTx ∧ ∃ o ∈ entry.tx.prevouts, o.txid = a := by
  rw [parentIters, getIterSet, List.mem_filter, List.mem_map, ← ExtTreeMap.mem_iff_contains,
    mem_insert, LawfulEqCmp.compare_eq_iff_eq, and_comm]
  refine and_congr_left fun ⟨o, ho, hoa⟩ => or_iff_right fun heq => ?_
  exact hadd.not_own o ho (hoa.trans heq.symm)

section WithEntry

variable {entry : CTxMemPoolEntry} {links : TxLinksMap}

theorem getElem?_withEntry : (pool.withEntry entry links).mapTx[txid]? =
    if entry.tx.getId = txid then some (pool.newEntry entry) else pool.mapTx[txid]? :=
  getElem?_insert _ _ _ _

theorem mem_withEntry : txid ∈ (pool.withEntry entry links).mapTx ↔
    entry.tx.getId = txid ∨ txid ∈ pool.mapTx := by
  show txid ∈ pool.mapTx.insert _ _ ↔ _
  rw [mem_insert, LawfulEqCmp.compare_eq_iff_eq]

/-- The spending relation with a new entry: it is no parent, and its parents are old
entries. -/
theorem spends_withEntry (hadd : pool.Addable entry.tx) :
    (pool.withEntry entry links).Spends b a ↔
      pool.Spends b a ∨ (b = entry.tx.getId ∧ a ∈ pool.parentIters entry) := by
  simp only [Spends, mem_withEntry, getElem?_withEntry, mem_parentIters_iff hadd]
  by_cases hb : entry.tx.getId = b
  · subst hb
    have hold : pool.mapTx[entry.tx.getId]? = none := getElem?_eq_none hadd.absent
    simp only [if_true, Option.some.injEq, exists_eq_left', hold, true_and]
    constructor
    · rintro ⟨rfl | ha, o, ho, hoa⟩
      · exact absurd hoa (hadd.not_own o ho)
      · exact .inr ⟨ha, o, ho, hoa⟩
    · rintro (⟨-, e, he, -⟩ | ⟨ha, hin⟩)
      · cases he
      · exact ⟨.inr ha, hin⟩
  · simp only [hb, if_false, Ne.symm hb, false_and, or_false]
    refine and_congr_left fun ⟨e, he, o, ho, hoa⟩ => or_iff_right fun heq => ?_
    exact hadd.childless b e he o ho (hoa.trans heq.symm)

theorem next_withEntry (h : pool.Inv) (hadd : pool.Addable entry.tx) (o : COutPoint)
    (tx : CTransaction) : (pool.withEntry entry links).mapNextTx[o]? = some tx ↔
      (∃ e, (pool.withEntry entry links).mapTx[tx.getId]? = some e ∧ e.tx = tx) ∧
        o ∈ tx.prevouts := by
  have hget : (pool.withEntry entry links).mapNextTx[o]? =
      if o ∈ entry.tx.prevouts ∧ pool.mapNextTx[o]? = none then some entry.tx
      else pool.mapNextTx[o]? := getElem?_foldl_insertIfNew _ _
  rw [hget, getElem?_withEntry]
  by_cases ho : o ∈ entry.tx.prevouts
  · -- an input of the new entry has no older spender
    have hfree := hadd.unspent o ho
    rw [if_pos ⟨ho, hfree⟩, Option.some.injEq]
    constructor
    · rintro rfl
      rw [if_pos rfl]
      exact ⟨⟨_, rfl, rfl⟩, ho⟩
    · rintro ⟨⟨e, he, rfl⟩, hin⟩
      split at he
      · exact congrArg (fun e => e.tx) (Option.some.inj he)
      · cases hfree.symm.trans (h.next_of_mem he hin)
  · rw [if_neg fun hbad => ho hbad.1, h.next]
    refine and_congr_left fun hin => exists_congr fun e => ?_
    split
    next hid =>
      rw [← hid, getElem?_eq_none hadd.absent]
      refine iff_of_false (by simp) ?_
      rintro ⟨he, rfl⟩
      cases he
      exact ho hin
    · exact .rfl

end WithEntry

/-- **A new entry.** All assertions hold, and the indexes stay in order. -/
theorem addUnchecked_spec (h : pool.Inv) {entry : CTxMemPoolEntry} (hadd : pool.Addable entry.tx) :
    ∃ links, pool.addUnchecked entry = .ok (pool.withEntry entry links, pool.nextEntryId) ∧
      (pool.withEntry entry links).Inv := by
  have hnewLinks : entry.tx.getId ∉ pool.mapLinks := fun hmem => hadd.absent ((h.linked _).mp hmem)
  obtain ⟨links, hlinks, hkeys, hparents, hchildren⟩ := exists_links_of_add hnewLinks
    fun y hy => (h.linked y).mpr ((mem_parentIters_iff hadd).mp hy).1
  have hinserted : (!pool.mapTx.contains entry.tx.getId) = true := by
    rw [Bool.not_eq_true', ← Bool.not_eq_true, ← ExtTreeMap.mem_iff_contains]
    exact hadd.absent
  have hlast : (pool.mapTx.toList.all fun e => decide (e.2.entryId < pool.nextEntryId)) = true := by
    rw [List.all_eq_true]
    rintro ⟨txid, e⟩ he
    exact decide_eq_true (h.entryId_lt txid e (mem_toList_iff_getElem?_eq_some.mp he))
  refine ⟨links, ?_, ?_⟩
  · exact bind_ok (require_ok hinserted)
      (bind_ok (require_ok hlast) (bind_ok hlinks rfl))
  -- an entry is the new one or an old one
  have hcases : ∀ {txid : TxId} {e : MempoolEntry},
      (pool.withEntry entry links).mapTx[txid]? = some e →
        (entry.tx.getId = txid ∧ pool.newEntry entry = e) ∨
          (entry.tx.getId ≠ txid ∧ pool.mapTx[txid]? = some e) := by
    intro txid e he
    rw [getElem?_withEntry] at he
    split at he
    next hid => exact .inl ⟨hid, Option.some.inj he⟩
    next hid => exact .inr ⟨hid, he⟩
  refine ⟨fun txid e he => ?_, next_withEntry h hadd, fun txid => ?_, fun x y => ?_, fun x y => ?_,
    ?_, fun x y e e' he he' hxy => ?_, fun txid e he => ?_, fun x y e e' he he' heq => ?_⟩
  · rcases hcases he with ⟨rfl, rfl⟩ | ⟨-, he⟩
    · rfl
    · exact h.keyed txid e he
  · rw [mem_withEntry, ← h.linked]
    exact hkeys txid
  · rw [spends_withEntry hadd, ← h.parents]
    exact hparents y x
  · rw [spends_withEntry hadd, ← h.children]
    exact (hchildren x y).trans (or_congr_right and_comm)
  · show pool.totalTxSize + (pool.newEntry entry).getTxSize =
      weight sizeOf (pool.mapTx.insert entry.tx.getId (pool.newEntry entry))
    rw [weight_insert, weightAt_of_none (getElem?_eq_none hadd.absent), h.total, Int.sub_zero]
    rfl
  · -- the new entry has the highest number and is no parent
    rcases (spends_withEntry hadd).mp hxy with hold | ⟨rfl, hpar⟩
    · obtain ⟨hx, hy⟩ := mem_of_spends hold
      rcases hcases he with ⟨rfl, -⟩ | ⟨-, he⟩
      · exact absurd hx hadd.absent
      rcases hcases he' with ⟨rfl, -⟩ | ⟨-, he'⟩
      · exact absurd hy hadd.absent
      exact h.order x y e e' he he' hold
    · rcases hcases he with ⟨rfl, -⟩ | ⟨-, he⟩
      · exact absurd ((mem_parentIters_iff hadd).mp hpar).1 hadd.absent
      rcases hcases he' with ⟨-, rfl⟩ | ⟨hne, -⟩
      · exact h.entryId_lt x e he
      · exact absurd rfl hne
  · show e.entryId < pool.nextEntryId + 1
    rcases hcases he with ⟨-, rfl⟩ | ⟨-, he⟩
    · exact Nat.lt_succ_self _
    · exact Nat.lt_succ_of_lt (h.entryId_lt txid e he)
  · rcases hcases he with ⟨rfl, rfl⟩ | ⟨-, he⟩ <;> rcases hcases he' with ⟨rfl, rfl⟩ | ⟨-, he'⟩
    · rfl
    · exact absurd (h.entryId_lt y e' he') (heq ▸ Nat.lt_irrefl _)
    · exact absurd (h.entryId_lt x e he) (heq ▸ Nat.lt_irrefl _)
    · exact h.entryId_inj x y e e' he he' heq

/-! ### Descendants -/

/-- Entries of the pool, with all that spend them. -/
structure ClosedStage (pool : MemPool) (stage : SetEntries) : Prop where
  mem : ∀ it ∈ stage, it ∈ pool.mapTx
  closed : ∀ a ∈ stage, ∀ b, pool.Spends b a → b ∈ stage

theorem closedStage_empty : pool.ClosedStage ∅ :=
  ⟨fun it h => absurd h (by simp), fun a h => absurd h (by simp)⟩

/-- The children that the links show are the spenders. -/
theorem Inv.getMemPoolChildren (h : pool.Inv) (ha : a ∈ pool.mapTx) :
    ∃ children, getMemPoolChildren pool.mapLinks a = .ok children ∧
      ∀ b, b ∈ children ↔ pool.Spends b a :=
  ⟨_, getLinks_eq ((h.linked a).mpr ha), h.children a⟩

/-- **The walk over the children** ends, and adds to a closed set the entry and all its
descendants. -/
theorem calculateDescendants_spec (h : pool.Inv) (hstage : pool.ClosedStage stage)
    (hit : it ∈ pool.mapTx) :
    ∃ stage', pool.calculateDescendants stage it = .ok stage' ∧ pool.ClosedStage stage' ∧
      it ∈ stage' ∧ ∀ x ∈ stage, x ∈ stage' := by
  -- the walk stays among the entries of the pool, so it takes no more turns than there are
  let U : Finset TxId := pool.mapTx.keys.toFinset
  have hmemU : ∀ x, x ∈ U ↔ x ∈ pool.mapTx := fun x => by
    rw [mem_toFinset, mem_keys]
  have hcard : U.card < pool.mapTx.size + 1 := by
    refine Nat.lt_succ_of_le ((List.toFinset_card_le _).trans ?_)
    rw [length_keys]
  have hnext : ∀ a ∈ U, ∃ successors, getMemPoolChildren pool.mapLinks a =
      .ok successors ∧ ∀ b ∈ successors, b ∈ U := by
    intro a ha
    obtain ⟨children, hchildren, hspends⟩ := h.getMemPoolChildren ((hmemU a).mp ha)
    exact ⟨children, hchildren, fun b hb => (hmemU b).mpr (mem_of_spends ((hspends b).mp hb)).2⟩
  have hstart : Worklist.Inv (getMemPoolChildren pool.mapLinks) U
      (stage, if stage.contains it then ∅ else {it}) := by
    have hstaged :
        ∀ x ∈ (if stage.contains it then ∅ else {it} : SetEntries), x = it ∧ x ∉ stage := by
      intro x hx
      split at hx
      · cases hx
      next hnot =>
        obtain rfl : it = x := by simpa using hx
        exact ⟨rfl, hnot⟩
    refine ⟨fun x hx => (hmemU x).mpr (hstage.mem x hx), fun x hx => ?_,
      fun x hx => (hstaged x hx).2, fun x hx successors hsucc b hb => ?_⟩
    · rw [(hstaged x hx).1]
      exact (hmemU it).mpr hit
    · obtain ⟨children, hchildren, hspends⟩ := h.getMemPoolChildren (hstage.mem x hx)
      cases hchildren.symm.trans hsucc
      exact .inl (hstage.closed x hx b ((hspends b).mp hb))
  obtain ⟨stage', hrun, hsub, hall, hclosed⟩ := Worklist.exists_close hnext hstart hcard
  refine ⟨stage', ?_, ⟨fun x hx => (hmemU x).mp (hsub x hx), fun a ha b hb => ?_⟩, ?_,
    fun x hx => hall x (.inl hx)⟩
  · unfold calculateDescendants
    simp only [hrun]
  · obtain ⟨children, hchildren, hspends⟩ := h.getMemPoolChildren ((hmemU a).mp (hsub a ha))
    exact hclosed a ha children hchildren b ((hspends b).mpr hb)
  · refine hall it ?_
    by_cases hin : stage.contains it
    · exact .inl hin
    · refine .inr ?_
      show it ∈ (if stage.contains it then ∅ else {it} : SetEntries)
      rw [if_neg hin]
      simp

theorem foldlM_calculateDescendants_spec (h : pool.Inv) {its : List TxId}
    (hstage : pool.ClosedStage stage) (hits : ∀ it ∈ its, it ∈ pool.mapTx) :
    ∃ stage', its.foldlM pool.calculateDescendants stage = .ok stage' ∧ pool.ClosedStage stage' ∧
      (∀ it ∈ its, it ∈ stage') ∧ ∀ x ∈ stage, x ∈ stage' := by
  induction its generalizing stage with
  | nil => exact ⟨stage, rfl, hstage, by simp, fun x hx => hx⟩
  | cons it its ih =>
    obtain ⟨hit, hrest⟩ := forall_mem_cons.mp hits
    obtain ⟨stage₁, h₁, hclosed₁, hit₁, hkeep₁⟩ := calculateDescendants_spec h hstage hit
    obtain ⟨stage', h', hclosed', hits', hkeep'⟩ := ih hclosed₁ hrest
    refine ⟨stage', ?_, hclosed', forall_mem_cons.mpr ⟨hkeep' it hit₁, hits'⟩,
      fun x hx => hkeep' x (hkeep₁ x hx)⟩
    rw [foldlM_cons, h₁]
    exact h'

/-! ### Removal with descendants -/

/-- **What a removal does**: entries go, none changes, and with an entry go all that spend it,
unless a block confirmed the entry. -/
structure Removes (confirmed : List TxId) (pool pool' : MemPool) : Prop where
  sub : ∀ (txid : TxId) e, pool'.mapTx[txid]? = some e → pool.mapTx[txid]? = some e
  closed : ∀ a b, pool.Spends b a → a ∉ pool'.mapTx → a ∉ confirmed → b ∉ pool'.mapTx

namespace Removes

variable {confirmed confirmed' : List TxId}

theorem refl (pool : MemPool) : Removes [] pool pool :=
  ⟨fun _ _ he => he, fun _ _ hab ha => absurd hab.1 ha⟩

section

variable (h : Removes confirmed pool pool')
include h

theorem mem (hmem : txid ∈ pool'.mapTx) : txid ∈ pool.mapTx := by
  obtain ⟨e, he⟩ := mem_mapTx_iff.mp hmem
  exact mem_mapTx_iff.mpr ⟨e, h.sub txid e he⟩

theorem trans {pool'' : MemPool}
    (h' : Removes confirmed' pool' pool'') : Removes (confirmed ++ confirmed') pool pool'' := by
  refine ⟨fun txid e he => h.sub txid e (h'.sub txid e he), fun a b hab ha hnot hb => ?_⟩
  rw [List.mem_append, not_or] at hnot
  have hb' := h'.mem hb
  by_cases ha' : a ∈ pool'.mapTx
  · -- both are still there after the first removal, and so is the spending
    obtain ⟨-, e, he, hin⟩ := hab
    obtain ⟨e', he'⟩ := mem_mapTx_iff.mp hb'
    cases he.symm.trans (h.sub b e' he')
    exact h'.closed a b ⟨ha', e, he', hin⟩ ha hnot.2 hb
  · exact h.closed a b hab ha' hnot.1 hb'

theorem mapNextTx_none (hinv : pool.Inv) (hinv' : pool'.Inv)
    (hnone : pool.mapNextTx[o]? = none) : pool'.mapNextTx[o]? = none := by
  cases hsome : pool'.mapNextTx[o]? with
  | none => rfl
  | some tx =>
    obtain ⟨⟨e, he, rfl⟩, ho⟩ := (hinv'.next o tx).mp hsome
    cases hnone.symm.trans (hinv.next_of_mem (h.sub _ e he) ho)

end

end Removes

theorem ClosedStage.removes (hstage : pool.ClosedStage stage)
    (h : pool.Without stage pool') : Removes [] pool pool' := by
  refine ⟨fun txid e he => (h.getElem?_eq_some_iff.mp he).2, fun a b hab ha _ hb => ?_⟩
  obtain ⟨hbs, -⟩ := h.mem_iff.mp hb
  by_cases has : a ∈ stage
  · exact hbs (hstage.closed a has b hab)
  · exact ha (h.mem_iff.mpr ⟨has, hab.1⟩)

section

variable (h : pool.Inv)
include h

theorem removeStaged_closed (hstage : pool.ClosedStage stage) :
    ∃ pool', pool.removeStaged stage = .ok pool' ∧ pool'.Inv ∧ Removes [] pool pool' ∧
      pool.Without stage pool' := by
  obtain ⟨pool', hrun, hinv, hwithout, -⟩ := removeStaged_spec h hstage.mem
  exact ⟨pool', hrun, hinv, hstage.removes hwithout, hwithout⟩

theorem Inv.mem_spendersOf_iff : b ∈ pool.spendersOf txid ↔
    ∃ e, pool.mapTx[b]? = some e ∧ ∃ o ∈ e.tx.prevouts, o.txid = txid := by
  constructor
  · intro hb
    obtain ⟨⟨o, tx⟩, hmem, rfl⟩ := List.mem_map.mp hb
    obtain ⟨hin, hid⟩ := List.mem_filter.mp hmem
    obtain ⟨⟨e, he, rfl⟩, ho⟩ := (h.next o tx).mp (mem_toList_iff_getElem?_eq_some.mp hin)
    exact ⟨e, he, o, ho, beq_iff_eq.mp hid⟩
  · rintro ⟨e, he, o, ho, rfl⟩
    have hin := mem_toList_iff_getElem?_eq_some.mpr (h.next_of_mem he ho)
    refine List.mem_map.mpr ⟨(o, e.tx), List.mem_filter.mpr ⟨hin, ?_⟩, h.keyed b e he⟩
    exact beq_self_eq_true o.txid

theorem txToRemove_spec (txid : TxId) :
    ∃ its, pool.txToRemove txid = .ok its ∧ (∀ it ∈ its, it ∈ pool.mapTx) ∧
      (txid ∈ pool.mapTx → txid ∈ its) ∧ (txid ∉ pool.mapTx → its = pool.spendersOf txid) := by
  have hmem : ∀ it ∈ pool.spendersOf txid, it ∈ pool.mapTx := fun it hit => by
    obtain ⟨e, he, -⟩ := h.mem_spendersOf_iff.mp hit
    exact mem_mapTx_iff.mpr ⟨e, he⟩
  unfold txToRemove
  by_cases hin : pool.mapTx.contains txid
  · rw [if_pos hin]
    exact ⟨[txid], rfl, List.forall_mem_singleton.mpr hin, fun _ => by simp,
      fun hnot => absurd hin hnot⟩
  · rw [if_neg hin, if_pos (List.all_eq_true.mpr hmem)]
    exact ⟨_, rfl, hmem, fun hin' => absurd hin' hin, fun _ => rfl⟩

/-- `removeRecursive` leaves neither the transaction nor a child of it, even of one that was not in
the pool. -/
theorem removeRecursive_spec (origTx : CTransaction) :
    ∃ pool', pool.removeRecursive origTx = .ok pool' ∧ pool'.Inv ∧ Removes [] pool pool' ∧
      origTx.getId ∉ pool'.mapTx ∧ ∀ (txid : TxId) e, pool'.mapTx[txid]? = some e →
        ∀ o ∈ e.tx.prevouts, o.txid ≠ origTx.getId := by
  obtain ⟨its, hits, hmem, horig, hspenders⟩ := txToRemove_spec h origTx.getId
  obtain ⟨stage, hstage, hclosed, hall, -⟩ :=
    foldlM_calculateDescendants_spec h closedStage_empty hmem
  obtain ⟨pool', hrun, hinv, hremoves, hwithout⟩ := removeStaged_closed h hclosed
  have hgone : origTx.getId ∉ pool'.mapTx := fun hbad => by
    obtain ⟨hnot, hin⟩ := hwithout.mem_iff.mp hbad
    exact hnot (hall _ (horig hin))
  refine ⟨pool', bind_ok hits (bind_ok hstage hrun), hinv, hremoves, hgone, ?_⟩
  intro txid e he o ho hid
  have hold := hremoves.sub txid e he
  have hleft : txid ∈ pool'.mapTx := mem_mapTx_iff.mpr ⟨e, he⟩
  by_cases hin : origTx.getId ∈ pool.mapTx
  · exact hremoves.closed _ txid ⟨hin, e, hold, o, ho, hid⟩ hgone (by simp) hleft
  · have hstaged := hall txid (hspenders hin ▸ h.mem_spendersOf_iff.mpr ⟨e, hold, o, ho, hid⟩)
    exact (hwithout.mem_iff.mp hleft).1 hstaged

theorem expireLoop_spec {time : Int} {fast : Bool} {es : List (TxId × MempoolEntry)}
    (hstage : pool.ClosedStage stage) (hes : ∀ e ∈ es, e.1 ∈ pool.mapTx) :
    ∃ stage', pool.expireLoop time fast es stage = .ok stage' ∧ pool.ClosedStage stage' := by
  induction es generalizing stage with
  | nil => exact ⟨stage, rfl, hstage⟩
  | cons e es ih =>
    obtain ⟨hit, hrest⟩ := forall_mem_cons.mp hes
    obtain ⟨it, e⟩ := e
    rw [expireLoop]
    split
    · obtain ⟨stage₁, h₁, hclosed₁, -⟩ := calculateDescendants_spec h hstage hit
      obtain ⟨stage', h', hclosed'⟩ := ih hclosed₁ hrest
      exact ⟨stage', bind_ok h₁ h', hclosed'⟩
    · split
      · exact ⟨stage, rfl, hstage⟩
      · exact ih hstage hrest

theorem expire_spec (time : Int) (fast : Bool) :
    ∃ pool' n, pool.expire time fast = .ok (pool', n) ∧ pool'.Inv ∧ Removes [] pool pool' := by
  have hes : ∀ e ∈ pool.byEntryId, e.1 ∈ pool.mapTx := by
    rintro ⟨it, e⟩ he
    have hmem := (List.mem_insertionSort _).mp he
    exact mem_mapTx_iff.mpr ⟨e, mem_toList_iff_getElem?_eq_some.mp hmem⟩
  obtain ⟨stage, hstage, hclosed⟩ := expireLoop_spec h closedStage_empty hes
  obtain ⟨pool', hrun, hinv, hremoves, -⟩ := removeStaged_closed h hclosed
  exact ⟨pool', _, bind_ok hstage (bind_ok hrun rfl), hinv, hremoves⟩

end

theorem eq_of_laterByFeeRate {last : Option (TxId × MempoolEntry)}
    {e l : TxId × MempoolEntry} (h : laterByFeeRate env last e = some l) :
    e = l ∨ last = some l := by
  unfold laterByFeeRate at h
  split at h
  · exact .inl (Option.some.inj h)
  · split at h
    · exact .inl (Option.some.inj h)
    · exact .inr h

theorem mem_of_lastByFeeRate (hlast : pool.lastByFeeRate env = some (it, e)) : it ∈ pool.mapTx := by
  have hfold : ∀ (es : List (TxId × MempoolEntry)) last l,
      es.foldl (laterByFeeRate env) last = some l → l ∈ es ∨ last = some l := by
    intro es
    induction es with
    | nil => exact fun last l hl => .inr hl
    | cons e es ih =>
      intro last l hl
      rcases ih _ l hl with hmem | hnow
      · exact .inl (List.mem_cons_of_mem _ hmem)
      · rcases eq_of_laterByFeeRate hnow with rfl | hbefore
        · exact .inl List.mem_cons_self
        · exact .inr hbefore
  rcases hfold _ none _ hlast with hmem | hnone
  · exact mem_mapTx_iff.mpr ⟨e, mem_toList_iff_getElem?_eq_some.mp hmem⟩
  · cases hnone

/-- A removal of something makes the pool smaller. -/
theorem size_lt_of_removes (h : Removes [] pool pool') (hit : it ∈ pool.mapTx)
    (hgone : it ∉ pool'.mapTx) : pool'.mapTx.size < pool.mapTx.size := by
  have hnodup : ∀ m : ExtTreeMap TxId MempoolEntry, m.keys.Nodup := fun m =>
    ExtTreeMap.distinct_keys.imp fun hne heq => hne (LawfulEqCmp.compare_eq_iff_eq.mpr heq)
  have hcard : ∀ m : ExtTreeMap TxId MempoolEntry, m.keys.toFinset.card = m.size := fun m => by
    rw [List.toFinset_card_of_nodup (hnodup m), length_keys]
  rw [← hcard, ← hcard]
  refine Finset.card_lt_card (Finset.ssubset_iff_of_subset ?_ |>.mpr ⟨it, ?_, ?_⟩)
  · intro x hx
    rw [mem_toFinset, mem_keys] at hx ⊢
    exact h.mem hx
  · rwa [mem_toFinset, mem_keys]
  · rwa [mem_toFinset, mem_keys]

/-- One turn of the loop either removes an entry with its descendants or leaves. -/
theorem trimTurn_spec {sizelimit : Nat} {s : MemPool × List COutPoint} (h : s.1.Inv) :
    (∃ s', trimTurn env sizelimit s = .again s' ∧ s'.1.Inv ∧ Removes [] s.1 s'.1 ∧
        s'.1.mapTx.size < s.1.mapTx.size) ∨
      trimTurn env sizelimit s = .leave (.ok s) := by
  obtain ⟨pool, removed⟩ := s
  replace h : pool.Inv := h
  unfold trimTurn
  cases hlast : pool.lastByFeeRate env with
  | none => exact .inr (by simp [hlast])
  | some last =>
    obtain ⟨it, e⟩ := last
    simp only [hlast]
    split
    · have hit := mem_of_lastByFeeRate hlast
      obtain ⟨stage, hstage, hclosed, hin, -⟩ :=
        calculateDescendants_spec h closedStage_empty hit
      obtain ⟨pool', hrun, hinv, hremoves, hwithout⟩ := removeStaged_closed h hclosed
      refine .inl ⟨(pool', removed ++ pool.noSpendsRemaining stage),
        by simp only [hstage, hrun], hinv, hremoves, ?_⟩
      exact size_lt_of_removes hremoves hit fun hbad => (hwithout.mem_iff.mp hbad).1 hin
    · exact .inr rfl

theorem trimToSize_spec (h : pool.Inv) (env : TrimEnv) (sizelimit : Nat) :
    ∃ pool' removed, pool.trimToSize env sizelimit = .ok (pool', removed) ∧ pool'.Inv ∧
      Removes [] pool pool' := by
  let P : MemPool × List COutPoint → Prop := fun s => s.1.Inv ∧ Removes [] pool s.1
  have hturn : ∀ s s', P s → trimTurn env sizelimit s = .again s' →
      P s' ∧ s'.1.mapTx.size < s.1.mapTx.size := by
    intro s s' hs hagain
    rcases trimTurn_spec hs.1 with ⟨s₁, h₁, hinv, hremoves, hlt⟩ | hleave
    · obtain rfl := Retry.Turn.again.inj (h₁.symm.trans hagain)
      exact ⟨⟨hinv, hs.2.trans hremoves⟩, hlt⟩
    · cases hleave.symm.trans hagain
  have hstart : P (pool, []) := ⟨h, Removes.refl pool⟩
  obtain ⟨r, hr⟩ := Retry.exists_retry (fun s => s.1.mapTx.size) hturn hstart (Nat.lt_succ_self _)
  obtain ⟨s, hs, hleave⟩ :=
    Retry.retry_eq_some (fun s s' hs hagain => (hturn s s' hs hagain).1) hstart hr
  rcases trimTurn_spec hs.1 with ⟨s₁, h₁, -⟩ | hok
  · cases h₁.symm.trans hleave
  · obtain rfl := Retry.Turn.leave.inj (hok.symm.trans hleave)
    refine ⟨s.1, s.2, ?_, hs.1, hs.2⟩
    unfold trimToSize
    rw [hr]

/-! ### A block -/

theorem Inv.setDeltas (h : pool.Inv) (mapDeltas : ExtTreeMap TxId Int) :
    Inv { pool with mapDeltas := mapDeltas } :=
  ⟨h.keyed, h.next, h.linked, h.parents, h.children, h.total, h.order, h.entryId_lt, h.entryId_inj⟩

/-- One input of a transaction that is not in the pool: its spender goes. -/
theorem removeConflict_spec (h : pool.Inv) (habsent : tx.getId ∉ pool.mapTx) :
    ∃ pool', removeConflict tx pool o = .ok pool' ∧ pool'.Inv ∧ Removes [] pool pool' ∧
      pool'.mapNextTx[o]? = none := by
  unfold removeConflict
  cases hnext : pool.mapNextTx[o]? with
  | none => exact ⟨pool, rfl, h, Removes.refl pool, hnext⟩
  | some txConflict =>
    obtain ⟨⟨e, he, hetx⟩, ho⟩ := (h.next o txConflict).mp hnext
    have hne : txConflict.getId ≠ tx.getId := fun heq =>
      habsent (heq ▸ mem_mapTx_iff.mpr ⟨e, he⟩)
    obtain ⟨pool', hrun, hinv', hremoves, hgone, -⟩ :=
      removeRecursive_spec (h.setDeltas (pool.mapDeltas.erase txConflict.getId)) txConflict
    replace hremoves : Removes [] pool pool' := ⟨hremoves.sub, hremoves.closed⟩
    refine ⟨pool', (if_pos hne).trans hrun, hinv', hremoves, ?_⟩
    -- a spender that is left would be the one that was removed
    cases hsome : pool'.mapNextTx[o]? with
    | none => rfl
    | some t =>
      obtain ⟨⟨e', he', rfl⟩, ho'⟩ := (hinv'.next o t).mp hsome
      have hold := h.next_of_mem (hremoves.sub _ e' he') ho'
      cases hnext.symm.trans hold
      exact absurd (mem_mapTx_iff.mpr ⟨e', he'⟩) hgone

theorem foldlM_removeConflict_spec (h : pool.Inv) (habsent : tx.getId ∉ pool.mapTx)
    (os : List COutPoint) :
    ∃ pool', os.foldlM (removeConflict tx) pool = .ok pool' ∧ pool'.Inv ∧ Removes [] pool pool' ∧
      ∀ o ∈ os, pool'.mapNextTx[o]? = none := by
  induction os generalizing pool with
  | nil => exact ⟨pool, rfl, h, Removes.refl pool, by simp⟩
  | cons o os ih =>
    obtain ⟨pool₁, h₁, hinv₁, hremoves₁, hnone₁⟩ := removeConflict_spec h habsent
    obtain ⟨pool', h', hinv', hremoves', hnone'⟩ := ih hinv₁ fun hbad =>
      habsent (hremoves₁.mem hbad)
    refine ⟨pool', ?_, hinv', hremoves₁.trans hremoves', forall_mem_cons.mpr
      ⟨hremoves'.mapNextTx_none hinv₁ hinv' hnone₁, hnone'⟩⟩
    rw [foldlM_cons, h₁]
    exact h'

/-- One transaction of a block: afterwards it is not in the pool, and nothing spends its inputs. -/
theorem removeBlockTx_spec (h : pool.Inv)
    (hsame : ∀ e, pool.mapTx[tx.getId]? = some e → e.tx = tx) :
    ∃ pool', pool.removeBlockTx tx = .ok pool' ∧ pool'.Inv ∧ Removes [tx.getId] pool pool' ∧
      tx.getId ∉ pool'.mapTx ∧ ∀ o ∈ tx.prevouts, pool'.mapNextTx[o]? = none := by
  unfold removeBlockTx
  by_cases hin : pool.mapTx.contains tx.getId
  · have hmem : tx.getId ∈ pool.mapTx := hin
    obtain ⟨e, he⟩ := mem_mapTx_iff.mp hmem
    have honly : ∀ it ∈ ({tx.getId} : SetEntries), tx.getId = it := fun it hit => by simpa using hit
    obtain ⟨pool', hrun, hinv', hwithout, -⟩ :=
      removeStaged_spec h fun it hit => honly it hit ▸ hmem
    have hgone : tx.getId ∉ pool'.mapTx := fun hbad => (hwithout.mem_iff.mp hbad).1 (by simp)
    rw [if_pos hin]
    refine ⟨pool', hrun, hinv', ⟨fun txid e he => (hwithout.getElem?_eq_some_iff.mp he).2,
      fun a b hab ha hnot => ?_⟩, hgone, fun o ho => ?_⟩
    · -- only the transaction itself is gone
      refine absurd (hwithout.mem_iff.mpr ⟨fun hin => hnot ?_, hab.1⟩) ha
      exact List.mem_singleton.mpr (honly a hin).symm
    · cases hsome : pool'.mapNextTx[o]? with
      | none => rfl
      | some t =>
        obtain ⟨⟨e', he', rfl⟩, ho'⟩ := (hinv'.next o t).mp hsome
        have hold := h.next_of_mem (hwithout.getElem?_eq_some_iff.mp he').2 ho'
        have hown : pool.mapNextTx[o]? = some e.tx := h.next_of_mem he (hsame e he ▸ ho)
        have heq : e'.tx = tx := (Option.some.inj (hold.symm.trans hown)).trans (hsame e he)
        exact absurd (mem_mapTx_iff.mpr ⟨e', he'⟩) (heq ▸ hgone)
  · obtain ⟨pool', hrun, hinv', hremoves, hnone⟩ := foldlM_removeConflict_spec h hin tx.prevouts
    rw [if_neg hin]
    refine ⟨pool', hrun, hinv', ⟨hremoves.sub, fun a b hab ha _ => ?_⟩,
      fun hbad => hin (hremoves.mem hbad), hnone⟩
    exact hremoves.closed a b hab ha (by simp)

/-- What is left of a pool when all transactions of a block have been taken care of. -/
structure AfterBlock (vtx : List CTransaction) (pool pool' : MemPool) : Prop where
  inv : pool'.Inv
  removes : Removes (vtx.map CTransaction.getId) pool pool'
  gone : ∀ tx ∈ vtx, tx.getId ∉ pool'.mapTx
  unspent : ∀ tx ∈ vtx, ∀ o ∈ tx.prevouts, pool'.mapNextTx[o]? = none

theorem foldlM_removeBlockTx_spec {vtx : List CTransaction} (h : pool.Inv)
    (hsame : ∀ tx ∈ vtx, ∀ e, pool.mapTx[tx.getId]? = some e → e.tx = tx) :
    ∃ pool', vtx.foldlM removeBlockTx pool = .ok pool' ∧ AfterBlock vtx pool pool' := by
  induction vtx generalizing pool with
  | nil => exact ⟨pool, rfl, h, Removes.refl pool, by simp, by simp⟩
  | cons tx vtx ih =>
    obtain ⟨hhead, hrest⟩ := forall_mem_cons.mp hsame
    obtain ⟨pool₁, h₁, hinv₁, hremoves₁, hgone₁, hnone₁⟩ := removeBlockTx_spec h hhead
    obtain ⟨pool', h', hafter⟩ :=
      ih hinv₁ fun tx' htx' e he => hrest tx' htx' e (hremoves₁.sub _ e he)
    refine ⟨pool', ?_, hafter.inv, hremoves₁.trans hafter.removes, ?_, ?_⟩
    · rw [foldlM_cons, h₁]
      exact h'
    · exact forall_mem_cons.mpr ⟨fun hbad => hgone₁ (hafter.removes.mem hbad), hafter.gone⟩
    · refine forall_mem_cons.mpr ⟨fun o ho => ?_, hafter.unspent⟩
      exact hafter.removes.mapNextTx_none hinv₁ hafter.inv (hnone₁ o ho)

/-- **A block is connected.** `removeForBlock` returns. Nothing in the pool is of the block or
spends what the block has spent, and what else went, went with all its descendants. -/
theorem removeForBlock_spec {queuedTx : List CTransaction} (h : pool.Inv)
    (hsame : ∀ tx ∈ queuedTx, ∀ e, pool.mapTx[tx.getId]? = some e → e.tx = tx) :
    ∃ pool', pool.removeForBlock queuedTx = .ok pool' ∧ AfterBlock queuedTx pool pool' := by
  unfold removeForBlock
  split
  next hempty =>
    -- the fast path: there is nothing to remove
    rw [Bool.and_eq_true] at hempty
    have hnone : ∀ txid : TxId, pool.mapTx[txid]? = none := fun txid => by
      rw [ExtTreeMap.isEmpty_iff.mp hempty.1]
      simp
    have habsent : ∀ txid : TxId, txid ∉ pool.mapTx := fun txid hmem => by
      obtain ⟨e, he⟩ := mem_mapTx_iff.mp hmem
      cases (hnone txid).symm.trans he
    refine ⟨pool, rfl, h, ⟨fun _ _ he => he, fun a b hab => absurd hab.1 (habsent a)⟩,
      fun tx _ => habsent _, fun tx _ o _ => ?_⟩
    rw [Option.eq_none_iff_forall_not_mem]
    intro t ht
    obtain ⟨⟨e, he, -⟩, -⟩ := (h.next o t).mp ht
    cases (hnone _).symm.trans he
  · obtain ⟨pool', hrun, hafter⟩ := foldlM_removeBlockTx_spec h hsame
    refine ⟨_, bind_ok hrun rfl, hafter.inv.setDeltas _, ?_, hafter.gone,
      hafter.unspent⟩
    exact ⟨hafter.removes.sub, hafter.removes.closed⟩

end MemPool

end DeVault
