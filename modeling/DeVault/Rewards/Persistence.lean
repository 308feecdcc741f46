import DeVault.Lib.WriteBack
import DeVault.Rewards.Index
import DeVault.Rewards.Serialize

/-!
# The reward database (`devault/rewardsview.cpp`, `devault/rewards.cpp`)

The records of the engine are written to a key-value store of their own. The
store has one entry per record, under `('R', outpoint)`, and one for the block
that the records belong to, under `'b'`; the second key comes after all of the
first kind, so a scan of the records ends there. The store applies a batch as a
whole or not at all.

The engine keeps its map in memory and marks what it changes (`setDirty`, `setErased`). `Staged` is
the invariant of these marks. Only `putInMap` and `eraseFromMap` write to the map, and only
`clearForRebuild`, `load` and `flush` move the marks by themselves.

Two things break what the marks are for. `Load` stops at a record that it cannot read, and the node
goes on with what was read until then; the store then holds a record that nothing marks. And a batch
does not write a null block hash, so a flush that is tagged with the null hash, as after
`ClearForRebuild`, leaves the block of an earlier flush in place.
-/

namespace DeVault

open Std List WriteBack CColdRewards

/-! ### The store -/

/-- `CRewardsViewDB`: the keys of the database and their bytes. -/
structure CRewardsViewDB where
  records : ExtTreeMap COutPoint (List UInt8) := ∅
  bestBlock : Option BlockHash := none

/-- The value that is read from an entry; bytes behind it are ignored. -/
def readRecord (bs : List UInt8) : Option CRewardValue :=
  (CRewardValue.unserialize bs).map (·.1)

variable (op : COutPoint) (db : CRewardsViewDB)

namespace CRewardsViewDB

/-- `GetBestBlock`: null if it was never written. -/
def getBestBlock (db : CRewardsViewDB) : BlockHash := db.bestBlock.getD 0

/-- The serialized outpoint, which orders the records. -/
def recordKey : List UInt8 := Bytes.leBytes 32 op.txid ++ Bytes.leBytes 4 op.n

/-- The records in the order of the cursor. -/
def cursor : List (COutPoint × List UInt8) :=
  db.records.toList.mergeSort fun a b => decide (recordKey a.1 ≤ recordKey b.1)

/-- The loop of `LoadAll`: what was read, and whether all of it could be. -/
def loadLoop : List (COutPoint × List UInt8) → ExtTreeMap COutPoint CRewardValue →
    ExtTreeMap COutPoint CRewardValue × Bool
  | [], out => (out, true)
  | (key, bs) :: rest, out =>
    match readRecord bs with
    | some val => loadLoop rest (out.insertIfNew key val)
    | none => (out, false)

/-- `LoadAll`, along the cursor. -/
def loadAll : ExtTreeMap COutPoint CRewardValue × Bool :=
  loadLoop db.cursor ∅

/-- `BatchWrite`: writes, then erasures, then the block unless it is null. -/
def batchWrite (writes : List (COutPoint × List UInt8))
    (erases : List COutPoint) (bestBlock : BlockHash) : CRewardsViewDB where
  records := Ledger.overlay db.records
    (writes.map (fun e => (e.1, some e.2)) ++ erases.map fun op => (op, none))
  bestBlock := if bestBlock = 0 then db.bestBlock else some bestBlock

/-- Every record can be read. -/
def Readable (db : CRewardsViewDB) : Prop :=
  ∀ (op : COutPoint) (bs : List UInt8), db.records[op]? = some bs → (readRecord bs).isSome = true

end CRewardsViewDB

/-! ### Loading, flushing, starting over -/

variable (r : CColdRewards)

namespace CColdRewards

/-- The index entries of the inactive records among some. -/
def indexInactive (l : List (COutPoint × CRewardValue)) : List (Nat × COutPoint) :=
  l.foldl (fun index e =>
    if e.2.active then index else emplaceByHeight e.2.inactiveHeight e.1 index) []

/-- `CColdRewards::Load`. -/
def load (r : CColdRewards) (db : CRewardsViewDB) : CColdRewards × Bool :=
  let (rewardMap, ok) := db.loadAll
  let r := { r with
    rewardMap := rewardMap, inactiveByHeight := [], setDirty := ∅, setErased := ∅ }
  if ok then
    ({ r with
        inactiveByHeight := indexInactive rewardMap.toList,
        hashBestBlock := db.getBestBlock }, true)
  else (r, false)

/-- The entries that `Flush` writes; serializing one may throw. -/
def pendingWrites : Option (List (COutPoint × List UInt8)) :=
  (r.setDirty.toList.filterMap fun op => r.rewardMap[op]?.map fun val => (op, val)).mapM
    fun e => e.2.serialize.map fun bs => (e.1, bs)

/-- `Flush`, where `writeOk` says whether the store takes the batch. -/
def flush (r : CColdRewards) (db : CRewardsViewDB) (bestBlock : BlockHash) (writeOk : Bool) :
    (CColdRewards × CRewardsViewDB) × Bool :=
  match r.pendingWrites, writeOk with
  | some writes, true =>
    (({ r with setDirty := ∅, setErased := ∅, hashBestBlock := bestBlock },
      db.batchWrite writes r.setErased.toList bestBlock), true)
  | _, _ => ((r, db), false)

/-- `ClearForRebuild`: everything is marked as erased. -/
def clearForRebuild (r : CColdRewards) : CColdRewards :=
  { r with
    setErased := r.rewardMap.keys.foldl (fun s k => s.insert k) r.setErased
    setDirty := ∅
    rewardMap := ∅
    inactiveByHeight := []
    hashBestBlock := 0 }

/-- `FullValidate`: the state, the reward, and whether the block passes. -/
def fullValidate (p : Params) (block : CBlock) (nHeight : Nat)
    (fJustCheck : Bool) : CColdRewards × Int × Bool :=
  let vout := block.coinbaseOutputs
  if fJustCheck then
    (r, (vout[1]?.map (·.nValue)).getD 0, true)
  else
    match r.findReward p nHeight with
    | (r, some out) =>
      match vout[1]? with
      | some coinbaseReward => (r, out.nValue, decide (out = coinbaseReward))
      | none =>
        -- two blocks of the main network went without a reward that was due
        if (nHeight = 110068 ∨ nHeight = 110070) ∧ p.strNetworkID = "main" then
          (r.eraseFromMap r.rewardKey, 0, true)
        else (r, out.nValue, false)
    | (r, none) => (r, 0, decide (vout.length = 1))

end CColdRewards

/-! ### The engine and its store as one system -/

/-- The engine with the store it owns. -/
structure RewardStore where
  engine : CColdRewards
  db : CRewardsViewDB

/-- The calls that change the engine or its store. -/
inductive RewardCall where
  | load
  | updateWithBlock (block : CBlock) (nHeight : Nat)
  | updateRewardsDB (nNewHeight : Nat)
  | undoBlock (block : CBlock) (nHeight : Nat) (undoReward : Bool)
  | quickValidate (block : CBlock) (nHeight : Nat) (fJustCheck : Bool)
  | fullValidate (block : CBlock) (nHeight : Nat) (fJustCheck : Bool)
  | clearForRebuild
  | setBestBlock (hash : BlockHash)
  | flush (bestBlock : BlockHash) (writeOk : Bool)

namespace RewardStore

variable (p : Params) (maxreorgdepth : Int)

/-- One call. -/
def step (s : RewardStore) : RewardCall → RewardStore
  | .load => { s with engine := (s.engine.load s.db).1 }
  | .updateWithBlock block nHeight =>
    { s with engine := s.engine.updateWithBlock p maxreorgdepth block nHeight }
  | .updateRewardsDB nNewHeight => { s with engine := s.engine.updateRewardsDB p nNewHeight }
  | .undoBlock block nHeight undoReward =>
    { s with engine := s.engine.undoBlock p block nHeight undoReward }
  | .quickValidate block nHeight fJustCheck =>
    { s with engine := (s.engine.quickValidate p block nHeight fJustCheck).1 }
  | .fullValidate block nHeight fJustCheck =>
    { s with engine := (s.engine.fullValidate p block nHeight fJustCheck).1 }
  | .clearForRebuild => { s with engine := s.engine.clearForRebuild }
  | .setBestBlock hash => { s with engine := s.engine.setBestBlock hash }
  | .flush bestBlock writeOk =>
    { engine := (s.engine.flush s.db bestBlock writeOk).1.1
      db := (s.engine.flush s.db bestBlock writeOk).1.2 }

/-- A run of calls. -/
def run (s : RewardStore) (calls : List RewardCall) : RewardStore :=
  calls.foldl (step p maxreorgdepth) s

/-- A new engine on a store, after its first `Load`. -/
def start (db : CRewardsViewDB) : RewardStore :=
  step p maxreorgdepth { engine := init p, db := db } .load

end RewardStore

/-! ### The marks of the engine -/

variable {nHeight : Nat}

variable (block : CBlock) (height : Nat)

namespace CColdRewards

variable {r r' : CColdRewards} {db : CRewardsViewDB} {p : Params}

/-- **The marks are right**: dirty keys have a record, erased ones have none, and at other keys the
store agrees with the map. -/
def StagedOn (r : CColdRewards) (db : CRewardsViewDB) : Prop :=
  Staged readRecord db.records r.rewardMap r.setDirty r.setErased

/-- Every record can be stored. -/
def Storable (r : CColdRewards) : Prop :=
  ∀ (op : COutPoint) (val : CRewardValue), r.rewardMap[op]? = some val → val.Representable

/-- What the operations preserve. -/
structure Sound (r : CColdRewards) (db : CRewardsViewDB) : Prop where
  staged : r.StagedOn db
  storable : r.Storable
  readable : db.Readable

namespace Sound

section

variable (h : r.Sound db)
include h

theorem putInMap {val : CRewardValue}
    (hval : val.Representable) : (r.putInMap op val).Sound db where
  staged := h.staged.insert op val
  storable := Ledger.forall_insert h.storable hval
  readable := h.readable

theorem eraseFromMap : (r.eraseFromMap op).Sound db where
  staged := h.staged.erase op
  storable := Ledger.forall_erase h.storable op
  readable := h.readable

theorem of_eq (hmap : r'.rewardMap = r.rewardMap)
    (hdirty : r'.setDirty = r.setDirty) (herased : r'.setErased = r.setErased) : r'.Sound db where
  staged := by
    unfold StagedOn
    rw [hmap, hdirty, herased]
    exact h.staged
  storable := by
    unfold Storable
    rw [hmap]
    exact h.storable
  readable := h.readable

end

theorem closed {n : Nat} (hn : n < 2 ^ 32) : Closed n (Sound · db) where
  frame _ _ h := h.of_eq rfl rfl rfl
  erase op h := h.eraseFromMap op
  update h hval hup := by
    have hrep := h.storable _ _ hval
    refine h.putInMap _ ⟨?_, ?_, ?_, ?_, ?_⟩
    · exact hup.txout ▸ hrep.txout
    · exact hup.creationHeight ▸ hrep.creationHeight
    · obtain heq | heq := hup.oldHeight
      · exact heq ▸ hrep.oldHeight
      · exact heq ▸ hrep.height
    · obtain heq | heq | heq := hup.height
      · exact heq ▸ hrep.oldHeight
      · exact heq ▸ hrep.height
      · exact heq ▸ hn
    · exact hup.inactiveHeight ▸ hrep.inactiveHeight

section

variable (h : r.Sound db)
include h

theorem fullValidate (nHeight : Nat) (fJustCheck : Bool) :
    (r.fullValidate p block nHeight fJustCheck).1.Sound db := by
  have hfound : (r.findReward p nHeight).1.Sound db := by
    unfold findReward findRewardIn
    simp only
    split <;> exact h.of_eq rfl rfl rfl
  unfold CColdRewards.fullValidate
  simp only
  split
  · exact h
  split
  next found _ heq =>
    rw [heq] at hfound
    split
    · exact hfound
    · split
      · exact hfound.eraseFromMap _
      · exact hfound
  next found heq =>
    rw [heq] at hfound
    exact hfound

theorem updateWithBlock (maxreorgdepth : Int) {block : CBlock} (hheight : nHeight < 2 ^ 32)
    (hout : ∀ o ∈ block.createdOutputs, o.2.quantized.Representable) :
    (r.updateWithBlock p maxreorgdepth block nHeight).Sound db := by
  refine (closed hheight).pruneLoop ?_ (fun _ hr => hr.of_eq rfl rfl rfl) _ _
  refine (closed hheight).passes h p (fun o ho hr => ?_) fun {r op val} hr hval => ?_
  · exact hr.putInMap o.1
      ⟨hout o ho, hheight, hheight, hheight, by norm_num [CRewardValue.new]⟩
  · have hrep := hr.storable _ _ hval
    have hspent : { val with active := false, inactiveHeight := nHeight }.Representable :=
      ⟨hrep.txout, hrep.creationHeight, hrep.oldHeight, hrep.height, hheight⟩
    exact (hr.putInMap op hspent).of_eq rfl rfl rfl

theorem clearForRebuild : r.clearForRebuild.Sound db where
  staged := h.staged.clear
  storable := fun _ _ hval => absurd hval (by simp [CColdRewards.clearForRebuild])
  readable := h.readable

end

end Sound

end CColdRewards

/-! ### Reading the store -/

variable {l : List (COutPoint × List UInt8)} {out : ExtTreeMap COutPoint CRewardValue}

namespace CRewardsViewDB

variable {db : CRewardsViewDB}

theorem mem_cursor {op : COutPoint} {bs : List UInt8} :
    (op, bs) ∈ db.cursor ↔ db.records[op]? = some bs := by
  rw [cursor, (mergeSort_perm ..).mem_iff, ExtTreeMap.mem_toList_iff_getElem?_eq_some]

theorem nodup_cursor : (db.cursor.map (·.1)).Nodup := by
  have hperm := (mergeSort_perm db.records.toList
    fun a b => decide (recordKey a.1 ≤ recordKey b.1)).map (·.1)
  exact hperm.nodup_iff.mpr (Ledger.nodup_keys db.records)

theorem loadLoop_ok_iff : (loadLoop l out).2 = true ↔ ∀ e ∈ l, (readRecord e.2).isSome = true := by
  induction l generalizing out with
  | nil => simp [loadLoop]
  | cons e l ih =>
    rw [loadLoop, forall_mem_cons]
    cases hread : readRecord e.2 with
    | none => simp
    | some val => simpa using ih

theorem getElem?_loadLoop_of_notMem {k : COutPoint} (hk : k ∉ l.map (·.1)) :
    (loadLoop l out).1[k]? = out[k]? := by
  induction l generalizing out with
  | nil => rfl
  | cons e l ih =>
    rw [map_cons, mem_cons, not_or] at hk
    rw [loadLoop]
    cases readRecord e.2 with
    | none => rfl
    | some val =>
      simp only
      rw [ih hk.2, ExtTreeMap.getElem?_insertIfNew,
        if_neg fun h => hk.1 (LawfulEqCmp.eq_of_compare h.1).symm]

/-- With distinct keys, an entry that can be read is found under its key. -/
theorem getElem?_loadLoop_of_mem (hnd : (l.map (·.1)).Nodup)
    (hread : ∀ e ∈ l, (readRecord e.2).isSome = true) (hnew : ∀ e ∈ l, e.1 ∉ out)
    {k : COutPoint} {bs : List UInt8} (hk : (k, bs) ∈ l) :
    (loadLoop l out).1[k]? = readRecord bs := by
  induction l generalizing out with
  | nil => cases hk
  | cons e l ih =>
    rw [map_cons, nodup_cons] at hnd
    obtain ⟨hread0, hread⟩ := forall_mem_cons.mp hread
    obtain ⟨hnew0, hnew⟩ := forall_mem_cons.mp hnew
    obtain ⟨val, hval⟩ := Option.isSome_iff_exists.mp hread0
    rw [loadLoop, hval]
    simp only
    rcases mem_cons.mp hk with rfl | hk
    · rw [getElem?_loadLoop_of_notMem hnd.1, ExtTreeMap.getElem?_insertIfNew,
        if_pos ⟨Std.ReflCmp.compare_self, hnew0⟩, hval]
    · apply ih hnd.2 hread ?_ hk
      intro a ha
      rw [ExtTreeMap.mem_insertIfNew, LawfulEqCmp.compare_eq_iff_eq, not_or]
      refine ⟨fun heq => hnd.1 ?_, hnew a ha⟩
      exact heq ▸ mem_map.mpr ⟨a, ha, rfl⟩

theorem loadAll_ok_iff : db.loadAll.2 = true ↔ db.Readable := by
  rw [loadAll, loadLoop_ok_iff]
  exact ⟨fun h op bs hbs => h (op, bs) (mem_cursor.mpr hbs),
    fun h e he => h e.1 e.2 (mem_cursor.mp he)⟩

/-- A store that can be read is what it is read as. -/
theorem Readable.stored_loadAll (h : db.Readable) (k : COutPoint) :
    stored readRecord db.records k = db.loadAll.1[k]?.map some := by
  unfold stored
  cases hbs : db.records[k]? with
  | none =>
    have hk : k ∉ db.cursor.map (·.1) := by
      intro hmem
      obtain ⟨e, he, rfl⟩ := mem_map.mp hmem
      rw [mem_cursor.mp he] at hbs
      cases hbs
    rw [loadAll, getElem?_loadLoop_of_notMem hk]
    exact (congrArg (Option.map some) ExtTreeMap.getElem?_empty).symm
  | some bs =>
    obtain ⟨val, hval⟩ := Option.isSome_iff_exists.mp (h k bs hbs)
    have hread : ∀ e ∈ db.cursor, (readRecord e.2).isSome = true :=
      fun e he => h e.1 e.2 (mem_cursor.mp he)
    rw [loadAll, getElem?_loadLoop_of_mem nodup_cursor hread
      (fun _ _ => ExtTreeMap.not_mem_empty) (mem_cursor.mpr hbs)]
    simp [hval]

/-- A store that holds the records of an engine can be read. -/
theorem readable_of_stored {m : ExtTreeMap COutPoint CRewardValue}
    (h : ∀ k, stored readRecord db.records k = m[k]?.map some) : db.Readable := by
  intro op bs hbs
  have hop := h op
  rw [stored, hbs, Option.map_some] at hop
  obtain ⟨val, -, hval⟩ := Option.map_eq_some_iff.mp hop.symm
  rw [← hval]
  rfl

theorem getBestBlock_batchWrite (writes : List (COutPoint × List UInt8)) (erases : List COutPoint)
    (bestBlock : BlockHash) :
    (db.batchWrite writes erases bestBlock).getBestBlock =
      if bestBlock = 0 then db.getBestBlock else bestBlock := by
  unfold getBestBlock batchWrite
  simp only
  split <;> rfl

end CRewardsViewDB

/-! ### Loading and flushing -/

namespace CColdRewards

variable {r : CColdRewards} {db : CRewardsViewDB} {p : Params}

/-- The index has the inactive records, each at its height. -/
theorem mem_indexInactive {l : List (COutPoint × CRewardValue)} {h : Nat} {op : COutPoint} :
    (h, op) ∈ indexInactive l ↔
      ∃ val, (op, val) ∈ l ∧ val.active = false ∧ val.inactiveHeight = h := by
  -- the index grows along the list, so the accumulator stays general
  have hloop : ∀ index : List (Nat × COutPoint), (h, op) ∈ l.foldl (fun index e =>
        if e.2.active then index else emplaceByHeight e.2.inactiveHeight e.1 index) index ↔
      (h, op) ∈ index ∨ ∃ val, (op, val) ∈ l ∧ val.active = false ∧ val.inactiveHeight = h := by
    induction l with
    | nil => simp
    | cons e l ih =>
      intro index
      rw [foldl_cons, ih]
      cases hactive : e.2.active with
      | true =>
        have hne : ∀ val : CRewardValue, val.active = false → (op, val) ≠ e := by
          rintro val hval rfl
          cases hactive.symm.trans hval
        simp only [if_true, mem_cons]
        constructor
        · rintro (hmem | ⟨val, hmem, hrest⟩)
          · exact .inl hmem
          · exact .inr ⟨val, .inr hmem, hrest⟩
        · rintro (hmem | ⟨val, heq | hmem, hrest⟩)
          · exact .inl hmem
          · exact absurd heq (hne val hrest.1)
          · exact .inr ⟨val, hmem, hrest⟩
      | false =>
        simp only [Bool.false_eq_true, if_false, mem_emplaceByHeight, mem_cons, Prod.mk.injEq]
        constructor
        · rintro ((⟨rfl, rfl⟩ | hmem) | ⟨val, hmem, hrest⟩)
          · exact .inr ⟨e.2, .inl rfl, hactive, rfl⟩
          · exact .inl hmem
          · exact .inr ⟨val, .inr hmem, hrest⟩
        · rintro (hmem | ⟨val, heq | hmem, hrest⟩)
          · exact .inl (.inr hmem)
          · rw [← heq]
            exact .inl (.inl ⟨hrest.2.symm, rfl⟩)
          · exact .inr ⟨val, hmem, hrest⟩
  rw [indexInactive, hloop]
  simp

theorem sorted_indexInactive (l : List (COutPoint × CRewardValue)) :
    (indexInactive l).Pairwise fun a b => a.1 ≤ b.1 := by
  refine foldlRecOn (motive := fun index : List (Nat × COutPoint) =>
    index.Pairwise fun a b => a.1 ≤ b.1) l _ List.Pairwise.nil ?_
  intro index hs e _
  split
  · exact hs
  · exact sorted_emplaceByHeight hs

theorem load_of_readable (r : CColdRewards) (h : db.Readable) :
    r.load db = ({ r with
      rewardMap := db.loadAll.1, inactiveByHeight := indexInactive db.loadAll.1.toList
      setDirty := ∅, setErased := ∅, hashBestBlock := db.getBestBlock }, true) := by
  have hok := CRewardsViewDB.loadAll_ok_iff.mpr h
  unfold load
  simp only [hok, if_true]

theorem sound_load (h : db.Readable) : (r.load db).1.Sound db := by
  rw [load_of_readable r h]
  refine ⟨staged_of_stored h.stored_loadAll, fun op val hval => ?_, h⟩
  have hstored := h.stored_loadAll op
  rw [show db.loadAll.1[op]? = some val from hval, Option.map_some] at hstored
  obtain ⟨bs, -, hread⟩ := Option.map_eq_some_iff.mp hstored
  obtain ⟨⟨_, rest⟩, hun, rfl⟩ := Option.map_eq_some_iff.mp hread
  exact CRewardValue.representable_of_unserialize hun

theorem indexed_load (r : CColdRewards) (h : db.Readable) : (r.load db).1.Indexed := by
  rw [load_of_readable r h]
  refine ⟨sorted_indexInactive _, fun op val hval hin => ?_⟩
  exact mem_indexInactive.mpr
    ⟨val, ExtTreeMap.mem_toList_iff_getElem?_eq_some.mpr hval, hin, rfl⟩

/-- After a load that failed the marks are wrong: a record that cannot be read is
not in the map. -/
theorem readable_of_stagedOn_load (h : (r.load db).1.StagedOn db) : db.Readable := by
  have hmarks : (r.load db).1.setDirty = ∅ ∧ (r.load db).1.setErased = ∅ := by
    unfold load
    simp only
    split <;> exact ⟨rfl, rfl⟩
  refine CRewardsViewDB.readable_of_stored fun k => h.agree k ?_ ?_
  · rw [hmarks.1]
    exact ExtTreeSet.not_mem_empty
  · rw [hmarks.2]
    exact ExtTreeSet.not_mem_empty

/-- **A flush can be read back**: a new engine on the store has the records, reports the block, and
indexes the inactive records. -/
structure Reloads (r : CColdRewards) (db : CRewardsViewDB) (bestBlock : BlockHash)
    (fresh : CColdRewards) : Prop where
  loads : (fresh.load db).2 = true
  rewardMap : (fresh.load db).1.rewardMap = r.rewardMap
  bestBlock : (fresh.load db).1.hashBestBlock = bestBlock
  index : ∀ (op : COutPoint) (val : CRewardValue), (fresh.load db).1.rewardMap[op]? = some val →
    val.active = false → (val.inactiveHeight, op) ∈ (fresh.load db).1.inactiveByHeight

theorem reloads_iff {bestBlock : BlockHash} (fresh : CColdRewards)
    (h : ∀ k, stored readRecord db.records k = r.rewardMap[k]?.map some) :
    r.Reloads db bestBlock fresh ↔ db.getBestBlock = bestBlock := by
  have hread := CRewardsViewDB.readable_of_stored h
  have hload := load_of_readable fresh hread
  constructor
  · intro hr
    have hbest := hr.bestBlock
    rwa [hload] at hbest
  · intro hbest
    refine ⟨by rw [hload], ?_, by rw [hload]; exact hbest, ?_⟩
    · rw [hload]
      refine ExtTreeMap.ext_getElem? fun k => ?_
      exact Option.map_injective (Option.some_injective _)
        ((hread.stored_loadAll k).symm.trans (h k))
    · exact (indexed_load fresh hread).complete

/-- The entries to be written are encodings of the dirty records. -/
theorem Sound.pendingWrites (h : r.Sound db) :
    ∃ writes, r.pendingWrites = some writes ∧ (writes.map (·.1)).Nodup ∧
      (∀ k, k ∈ writes.map (·.1) ↔ k ∈ r.setDirty) ∧
      ∀ e ∈ writes, some (readRecord e.2) = r.rewardMap[e.1]?.map some := by
  -- a dirty key has a record, so none is skipped
  let val : COutPoint → CRewardValue := fun op => r.rewardMap[op]?.getD CRewardValue.empty
  have hval : ∀ op ∈ r.setDirty.toList, r.rewardMap[op]? = some (val op) := by
    intro op hop
    have hmem := h.staged.dirty_mem op (ExtTreeSet.mem_toList.mp hop)
    obtain ⟨v, hv⟩ := Option.isSome_iff_exists.mp (ExtTreeMap.mem_iff_isSome_getElem?.mp hmem)
    simp [val, hv]
  have hdirty : (r.setDirty.toList.filterMap fun op => r.rewardMap[op]?.map fun val => (op, val)) =
      r.setDirty.toList.map fun op => (op, val op) := by
    rw [← filterMap_eq_map]
    refine filterMap_congr fun op hop => ?_
    rw [hval op hop]
    rfl
  -- and every record can be serialized
  let bytes : COutPoint → List UInt8 := fun op => (val op).serialize.getD []
  have hbytes : ∀ op ∈ r.setDirty.toList, (val op).serialize = some (bytes op) ∧
      readRecord (bytes op) = some (val op) := by
    intro op hop
    obtain ⟨w, hw, hread⟩ := CRewardValue.unserialize_serialize (h.storable op _ (hval op hop))
    have hnil := hread []
    rw [append_nil] at hnil
    have hb : bytes op = w := by simp [bytes, hw]
    rw [hb, readRecord, hnil]
    exact ⟨hw, rfl⟩
  have hwrites : r.pendingWrites = some (r.setDirty.toList.map fun op => (op, bytes op)) := by
    rw [CColdRewards.pendingWrites, hdirty, mapM_map]
    refine Outcome.mapM_eq_some_map fun op hop => ?_
    simp [(hbytes op hop).1]
  have hfst : (r.setDirty.toList.map fun op => (op, bytes op)).map (·.1) = r.setDirty.toList := by
    rw [map_map]
    exact map_id _
  refine ⟨_, hwrites, ?_, ?_, ?_⟩
  · rw [hfst]
    exact ExtTreeSet.distinct_toList.imp
      fun hne heq => hne (LawfulEqCmp.compare_eq_iff_eq.mpr heq)
  · intro k
    rw [hfst]
    exact ExtTreeSet.mem_toList
  · refine forall_mem_map.mpr fun op hop => ?_
    rw [(hbytes op hop).2, hval op hop]
    rfl

/-- **A flush that the store takes**: the store holds the records afterwards. -/
theorem Sound.flush_ok (h : r.Sound db) (bestBlock : BlockHash) :
    ∃ db', r.flush db bestBlock true =
        (({ r with setDirty := ∅, setErased := ∅, hashBestBlock := bestBlock }, db'), true) ∧
      db'.getBestBlock = (if bestBlock = 0 then db.getBestBlock else bestBlock) ∧
      ∀ k, stored readRecord db'.records k = r.rewardMap[k]?.map some := by
  obtain ⟨writes, hwrites, hnd, hkeys, hdec⟩ := h.pendingWrites
  refine ⟨db.batchWrite writes r.setErased.toList bestBlock, ?_,
    CRewardsViewDB.getBestBlock_batchWrite .., h.staged.getElem?_batch hkeys hnd hdec⟩
  simp only [flush, hwrites]

end CColdRewards

/-! ### Runs -/

/-- The arguments fit the types of the source: heights have 32 bits, and outputs are as they are
read off the wire. -/
def RewardCall.Typed : RewardCall → Prop
  | .updateWithBlock block nHeight =>
    nHeight < 2 ^ 32 ∧ ∀ o ∈ block.createdOutputs, o.2.quantized.Representable
  | .updateRewardsDB nNewHeight => nNewHeight < 2 ^ 32
  | _ => True

namespace RewardStore

variable {p : Params} {maxreorgdepth : Int} {s : RewardStore} {calls : List RewardCall}

theorem sound_step {call : RewardCall} (h : s.engine.Sound s.db) (htyped : call.Typed) :
    (s.step p maxreorgdepth call).engine.Sound (s.step p maxreorgdepth call).db := by
  cases call with
  | load => exact sound_load h.readable
  | updateWithBlock block nHeight => exact h.updateWithBlock maxreorgdepth htyped.1 htyped.2
  | updateRewardsDB nNewHeight => exact (Sound.closed htyped).updateRewardsDB h p
  | undoBlock block nHeight undoReward => exact (Sound.closed (Nat.two_pow_pos 32)).undoBlock h ..
  | quickValidate block nHeight fJustCheck =>
    exact (Sound.closed (Nat.two_pow_pos 32)).quickValidate h ..
  | fullValidate block nHeight fJustCheck => exact h.fullValidate block nHeight fJustCheck
  | clearForRebuild => exact h.clearForRebuild
  | setBestBlock hash => exact h.of_eq rfl rfl rfl
  | flush bestBlock writeOk =>
    cases writeOk with
    | false =>
      have hkeep : s.engine.flush s.db bestBlock false = ((s.engine, s.db), false) := by
        simp [flush]
      rw [step, hkeep]
      exact h
    | true =>
      obtain ⟨db', hflush, -, hstored⟩ := h.flush_ok bestBlock
      rw [step, hflush]
      exact ⟨staged_of_stored hstored, h.storable, CRewardsViewDB.readable_of_stored hstored⟩

theorem sound_run (h : s.engine.Sound s.db) (htyped : ∀ call ∈ calls, call.Typed) :
    (s.run p maxreorgdepth calls).engine.Sound (s.run p maxreorgdepth calls).db :=
  foldlRecOn (motive := fun s : RewardStore => s.engine.Sound s.db) calls _ h
    fun _ hs call hcall => sound_step hs (htyped call hcall)

/-- **The store keeps what the engine has**: along the run the marks are right, and every flush can
be read back by a new engine. -/
structure Persistent (p : Params) (maxreorgdepth : Int) (s : RewardStore)
    (calls : List RewardCall) : Prop where
  staged : ∀ done, done <+: calls →
    (s.run p maxreorgdepth done).engine.StagedOn (s.run p maxreorgdepth done).db
  reloads : ∀ done bestBlock writeOk fresh, done ++ [.flush bestBlock writeOk] <+: calls →
    ((s.run p maxreorgdepth done).engine.flush (s.run p maxreorgdepth done).db bestBlock
      writeOk).2 = true →
    (s.run p maxreorgdepth (done ++ [.flush bestBlock writeOk])).engine.Reloads
      (s.run p maxreorgdepth (done ++ [.flush bestBlock writeOk])).db bestBlock fresh

/-- **No flush forgets its block**: the store takes the null hash only while it
names no block. -/
def FlushesNameBlock (p : Params) (maxreorgdepth : Int) (s : RewardStore)
    (calls : List RewardCall) : Prop :=
  ∀ done bestBlock, done ++ [.flush bestBlock true] <+: calls →
    bestBlock ≠ 0 ∨ (s.run p maxreorgdepth done).db.getBestBlock = 0

theorem run_append (done : List RewardCall) (call : RewardCall) :
    s.run p maxreorgdepth (done ++ [call]) =
      (s.run p maxreorgdepth done).step p maxreorgdepth call := by
  rw [run, foldl_append]
  rfl

/-- One flush of a sound engine: it can be read back exactly if the block it
names is the one in the store. -/
theorem reloads_flush_iff (h : s.engine.Sound s.db) (bestBlock : BlockHash) (fresh : CColdRewards) :
    (s.step p maxreorgdepth (.flush bestBlock true)).engine.Reloads
        (s.step p maxreorgdepth (.flush bestBlock true)).db bestBlock fresh ↔
      bestBlock ≠ 0 ∨ s.db.getBestBlock = 0 := by
  obtain ⟨db', hflush, hbest, hstored⟩ := h.flush_ok bestBlock
  rw [step, hflush]
  refine (reloads_iff
    (r := { s.engine with setDirty := ∅, setErased := ∅, hashBestBlock := bestBlock })
    fresh hstored).trans ?_
  rw [hbest]
  split
  next hnull => simp [hnull]
  next hne => simp [hne]

/-- **When the store keeps what the engine has.** For every store and every run after the first
`Load`: the marks are right throughout and each flush can be read back, exactly if every record
could be read at the start and no flush with the null hash meets a store that names a block. -/
theorem persistent_iff (p : Params) (maxreorgdepth : Int) (db : CRewardsViewDB)
    (calls : List RewardCall) (htyped : ∀ call ∈ calls, call.Typed) :
    Persistent p maxreorgdepth (start p maxreorgdepth db) calls ↔
      db.Readable ∧ FlushesNameBlock p maxreorgdepth (start p maxreorgdepth db) calls := by
  -- a run of a readable store is sound at every point
  have hsound : db.Readable → ∀ done, done <+: calls →
      ((start p maxreorgdepth db).run p maxreorgdepth done).engine.Sound
        ((start p maxreorgdepth db).run p maxreorgdepth done).db := by
    intro hread done hdone
    exact sound_run (sound_load hread)
      fun call hcall => htyped call (hdone.subset hcall)
  constructor
  · intro h
    have hread : db.Readable :=
      readable_of_stagedOn_load (h.staged [] nil_prefix)
    refine ⟨hread, fun done bestBlock hflush => ?_⟩
    have hs := hsound hread done ((prefix_append ..).trans hflush)
    obtain ⟨db', hok, -, -⟩ := hs.flush_ok bestBlock
    have hreloads := h.reloads done bestBlock true (init p) hflush (by rw [hok])
    rw [run_append] at hreloads
    exact (reloads_flush_iff hs bestBlock _).mp hreloads
  · rintro ⟨hread, hnames⟩
    refine ⟨fun done hdone => (hsound hread done hdone).staged, ?_⟩
    intro done bestBlock writeOk fresh hflush hok
    have hs := hsound hread done ((prefix_append ..).trans hflush)
    cases writeOk with
    | false => exact absurd hok (by simp [flush])
    | true =>
      rw [run_append]
      exact (reloads_flush_iff hs bestBlock fresh).mpr (hnames done bestBlock hflush)

/-- A block with one transaction, which creates a candidate of 2000 coins. -/
def candidateBlock : CBlock where
  hash := 9
  hashPrevBlock := 8
  vtx := [{ vin := [{ prevout := ⟨3, 0⟩ }]
            vout := [{ nValue := 2000 * coin, scriptPubKey := [0x51] }], hash := 4 }]

theorem typed_candidateBlock :
    ∀ call ∈ [RewardCall.updateWithBlock candidateBlock 1, .flush 9 true, .load], call.Typed := by
  have hout : ∀ o ∈ candidateBlock.createdOutputs, o.2.quantized.Representable := by
    intro o ho
    have hall : candidateBlock.createdOutputs =
        [(⟨4, 0⟩, { nValue := 2000 * coin, scriptPubKey := [0x51] })] := by decide
    rw [hall, mem_singleton] at ho
    rw [ho]
    exact ⟨⟨by decide, by decide⟩, [0x51], by decide, by decide⟩
  intro call hcall
  simp only [mem_cons, not_mem_nil, or_false] at hcall
  rcases hcall with rfl | rfl | rfl
  · exact ⟨by norm_num, hout⟩
  · trivial
  · trivial

/-- A block, a flush that names it, and a load. -/
theorem persistent_candidateBlock :
    Persistent regTestParams 10 (start regTestParams 10 {})
      [.updateWithBlock candidateBlock 1, .flush 9 true, .load] := by
  refine (persistent_iff regTestParams 10 {} _ typed_candidateBlock).mpr ⟨?_, ?_⟩
  · intro op bs hbs
    cases hbs
  · intro done bestBlock hflush
    have hmem := hflush.subset (mem_append_right done (mem_singleton_self _))
    have h9 : bestBlock = 9 := by simpa using hmem
    exact .inl (by rw [h9]; decide)

/-- A store with one record, without any bytes. -/
def unreadableStore : CRewardsViewDB where
  records := (∅ : ExtTreeMap COutPoint (List UInt8)).insert ⟨4, 0⟩ []

/-- **Neither condition can be dropped.** A rebuild that gets nowhere and the flush at shutdown
leave an empty store that still names a block. And a store with a record that cannot be read is
wrong from the first `Load` on. -/
theorem not_persistent_clearForRebuild :
    ¬Persistent regTestParams 10 (start regTestParams 10 {})
        [.updateWithBlock candidateBlock 1, .flush 9 true, .clearForRebuild, .flush 0 true] ∧
      ¬Persistent regTestParams 10 (start regTestParams 10 unreadableStore) [] := by
  constructor
  · intro h
    have hr := h.reloads [.updateWithBlock candidateBlock 1, .flush 9 true, .clearForRebuild] 0 true
      (init regTestParams) prefix_rfl (by decide +kernel)
    exact absurd hr.bestBlock (by decide +kernel)
  · intro h
    have hread := readable_of_stagedOn_load (h.staged [] nil_prefix) ⟨4, 0⟩ []
      (by decide +kernel)
    cases hread

end RewardStore

end DeVault
