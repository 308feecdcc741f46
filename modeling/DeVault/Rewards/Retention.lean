import DeVault.Rewards.Index
import DeVault.Rewards.UndoBlock
import DeVault.Validation.TipSync

/-!
# Pruning against reorganisations

A block that spends a candidate leaves its record inactive, so that `UndoBlock`
can bring it back. `UpdateWithBlock` prunes the inactive records that are more
than `-maxreorgdepth` blocks old. Whether a record is still there when its block
is disconnected is a question about a whole run, so the calls of a run are traced:
for each block of the chain, a `Mark` remembers which records it made inactive and
the highest block that was connected since.

A record is there exactly as long as no block was connected more than `maxreorgdepth` above it
(`Tracked`). Nothing in this refers to the finalized block: with a negative depth the record is
pruned by the block that made it inactive, and while finalization is delayed a deeper reorganisation
is permitted than was kept.
-/

namespace DeVault

open Option List CColdRewards ChainState TipState

namespace CColdRewards

variable {r : CColdRewards} {p : Params} {block : CBlock} {nHeight : Nat} {op : COutPoint}

/-- Whether the record of an outpoint is active, and its inactive height. -/
def status (r : CColdRewards) (op : COutPoint) : Option (Bool × Nat) :=
  r.rewardMap[op]?.map fun val => (val.active, val.inactiveHeight)

theorem status_of_rewardMap_eq {r' : CColdRewards} (h : r'.rewardMap[op]? = r.rewardMap[op]?) :
    r'.status op = r.status op := by
  rw [status, status, h]

theorem status_eq_none_iff : r.status op = none ↔ r.rewardMap[op]? = none := by
  rw [status, map_eq_none_iff]

/-- Validation at this height would drop the record of the outpoint. -/
def PurgesRecord (r : CColdRewards) (p : Params) (nHeight : Nat) (op : COutPoint) : Prop :=
  p.isSuperBlock nHeight = false ∧
  (nHeight : Int) = clearLowRewardsSuperBlock * p.nBlocksPerPeriod + 1 ∧
  ∃ val ∈ r.rewardMap[op]?, val.getValue < p.getMinRewardBalance nHeight

theorem getElem?_validated_of_not_purges (h : ¬r.PurgesRecord p nHeight op) :
    (r.validated p block nHeight).rewardMap[op]? = r.rewardMap[op]? := by
  unfold validated
  split
  · rfl
  next hsuper =>
  rw [rewardMap_quickValidate]
  unfold purged
  split
  next hheight =>
    rw [getElem?_clearLowRewards]
    cases hval : r.rewardMap[op]? with
    | none => rfl
    | some val =>
      have hge : p.getMinRewardBalance nHeight ≤ val.getValue := by
        by_contra hlt
        exact h ⟨by simpa using hsuper, hheight, val, hval, Int.not_le.mp hlt⟩
      simp [Option.filter, hge]
  · rfl

/-- Undoing a block keeps the status of an outpoint it does not mention. -/
theorem status_undoBlock (hshape : BlockShape block.vtx) (hnd : block.spentOutpoints.Nodup)
    (hspent : op ∉ block.spentOutpoints) (hnew : op ∉ block.createdOutputs.map Prod.fst)
    (undoReward : Bool) : (r.undoBlock p block nHeight undoReward).status op = r.status op := by
  obtain ⟨coinbase, rest, hvtx, hcb, hreg⟩ := hshape.exists_cons
  have hrestored : (r.restored block nHeight).status op = r.status op :=
    status_of_rewardMap_eq ((getElem?_restored hnd).trans (if_neg hspent))
  calc (r.undoBlock p block nHeight undoReward).status op
      = (r.undoSpends p block nHeight undoReward).status op := by
        refine status_of_rewardMap_eq ?_
        rw [getElem?_undoBlock p hvtx hcb hreg, if_neg hnew]
    _ = (r.restored block nHeight).status op := by
        unfold undoSpends
        simp only
        split
        · -- the record whose clock is rewound keeps its status
          rw [status, getElem?_restoreRewardAtHeight]
          split
          · rw [Option.map_map]
            rfl
          · rfl
        · rfl
    _ = r.status op := hrestored

theorem status_updateRewardsDB (hkey : ∀ val, r.rewardMap[r.rewardKey]? = some val →
    val.active = true) (hop : ∀ val, r.rewardMap[op]? = some val → val.active = false) :
    (r.updateRewardsDB p nHeight).status op = r.status op := by
  refine status_of_rewardMap_eq ?_
  rw [getElem?_updateRewardsDB]
  split
  next heq =>
    subst heq
    -- a record that is both active and inactive is none
    cases hval : r.rewardMap[r.rewardKey]? with
    | none => rfl
    | some val => cases (hkey val hval).symm.trans (hop val hval)
  · rfl

/-- The records that pruning at a threshold leaves, by their status. -/
def keptStatus (threshold : Int) (x : Bool × Nat) : Bool := x.1 || decide (threshold ≤ x.2)

theorem decide_kept (threshold : Int) (val : CRewardValue) :
    decide (Kept threshold val) = keptStatus threshold (val.active, val.inactiveHeight) := by
  rw [Bool.eq_iff_iff, decide_eq_true_iff, keptStatus, Bool.or_eq_true, decide_eq_true_iff]
  exact .rfl

/-- Connecting a block keeps the status of an outpoint it does not mention, up to
the pruning. -/
theorem status_updateWithBlock (h : r.Indexed) (maxreorgdepth : Int)
    (hspent : op ∉ block.spentOutpoints) (hnew : op ∉ block.createdOutputs.map Prod.fst) :
    (r.updateWithBlock p maxreorgdepth block nHeight).status op =
      (r.status op).filter (keptStatus (nHeight - maxreorgdepth)) := by
  rw [status, status, h.getElem?_updateWithBlock, connectedRecord, if_neg hspent,
    newCandidate_eq_none_of_notMem hnew, none_or]
  cases r.rewardMap[op]? with
  | none => rfl
  | some val =>
    simp only [map_some, filter_some, decide_kept]
    split <;> rfl

/-- The record a block makes inactive is dated with its height, and pruned at
once if the threshold is above. -/
theorem status_updateWithBlock_spent (h : r.Indexed) (maxreorgdepth : Int)
    (hspent : op ∈ block.spentOutpoints)
    (hrec : (connectedRecord p block nHeight op r.rewardMap[op]?).isSome = true) :
    (r.updateWithBlock p maxreorgdepth block nHeight).status op =
      (some (false, nHeight)).filter (keptStatus (nHeight - maxreorgdepth)) := by
  obtain ⟨val, hval⟩ := isSome_iff_exists.mp hrec
  have hstatus : (val.active, val.inactiveHeight) = (false, nHeight) := by
    rw [connectedRecord, if_pos hspent] at hval
    obtain ⟨cur, -, hcur⟩ := bind_eq_some_iff.mp hval
    unfold spentRecord at hcur
    split at hcur
    · cases hcur
    · cases hcur
      rfl
  obtain ⟨hactive, hheight⟩ := Prod.mk.inj hstatus
  rw [status, h.getElem?_updateWithBlock, hval]
  simp only [filter_some, decide_kept, hactive, hheight]
  split
  · rw [map_some, hactive, hheight]
  · rfl

end CColdRewards

/-! ### Traced runs -/

/-- What a run remembers of a connected block: its height, the records it made inactive, and the
greatest height connected since. -/
structure Mark where
  nHeight : Nat
  inactivated : List COutPoint
  highest : Nat

namespace Mark

/-- A block was connected. -/
def raise (nHeight : Nat) (m : Mark) : Mark := { m with highest := max m.highest nHeight }

/-- The status of the records that the block made inactive. -/
def expected (maxreorgdepth : Int) (m : Mark) : Option (Bool × Nat) :=
  (some (false, m.nHeight)).filter (keptStatus (m.highest - maxreorgdepth))

variable {m : Mark} {maxreorgdepth : Int}

theorem expected_eq : m.expected maxreorgdepth =
    if (m.highest : Int) - maxreorgdepth ≤ m.nHeight then some (false, m.nHeight) else none := by
  simp [expected, keptStatus, filter_some]

theorem expected_raise (nHeight : Nat) :
    (m.raise nHeight).expected maxreorgdepth =
      (m.expected maxreorgdepth).filter (keptStatus (nHeight - maxreorgdepth)) := by
  have hmax : ((m.raise nHeight).highest : Int) - maxreorgdepth ≤ m.nHeight ↔
      (m.highest : Int) - maxreorgdepth ≤ m.nHeight ∧
        (nHeight : Int) - maxreorgdepth ≤ m.nHeight := by
    simp only [raise]
    omega
  rw [expected_eq, expected_eq, show (m.raise nHeight).nHeight = m.nHeight from rfl]
  simp only [hmax]
  by_cases hold : (m.highest : Int) - maxreorgdepth ≤ m.nHeight
  · simp [hold, filter_some, keptStatus]
  · simp [hold]

end Mark

/-- The records that a block makes inactive: those its inputs find after the payout, unless the
block created them. -/
def ChainState.inactivatedBy (p : Params) (s : ChainState) (block : CBlock) : List COutPoint :=
  let nHeight := s.tip.nHeight + 1
  let nColdReward := (coldRewardOf p block nHeight (some s.rewards) false false).2.1
  let r := s.rewards.validated p block nHeight
  let r := if nColdReward > 0 then r.updateRewardsDB p nHeight else r
  block.spentOutpoints.filter fun op =>
    (connectedRecord p block nHeight op r.rewardMap[op]?).isSome

/-- The tip with one mark for each connected block. -/
structure TracedTip where
  tip : TipState
  marks : List Mark := []

variable (env : Env)

namespace TracedTip

/-- The marks after a call that returned `true`. -/
def marksAfter (p : Params) (s : TracedTip) : TipCall → List Mark
  | .connect block _ _ =>
    let nHeight := s.tip.chain.tip.nHeight + 1
    ⟨nHeight, s.tip.chain.inactivatedBy p block, nHeight⟩ :: s.marks.map (Mark.raise nHeight)
  | .disconnect _ => s.marks.tail

/-- The state after a call that returns. -/
def next (p : Params) (s : TracedTip) (call : TipCall) : Option TracedTip :=
  match s.tip.step env p call with
  | .error _ => none
  | .ok (tip, ok) => some ⟨tip, if ok then s.marksAfter p call else s.marks⟩

end TracedTip

/-- All outpoints of the outputs of a block. -/
def CBlock.Creates (block : CBlock) (op : COutPoint) : Prop :=
  ∃ tx ∈ block.vtx, ∃ o ∈ tx.vout.zipIdx, tx.outPoint o.2 = op

variable (s : TracedTip) (call : TipCall)

namespace TipCall

/-- **The calls for which records are kept.** Blocks are new and connected in step, none recreates
an outpoint that the chain spent, and validation does not purge a record that the chain made
inactive. -/
def Orderly (p : Params) (s : TracedTip) (call : TipCall) : Prop :=
  call.OffersNew p s.tip ∧ call.InStep env p s.tip ∧
    match call with
    | .connect block _ _ =>
      (∀ e ∈ s.tip.connected, ∀ op ∈ e.block.spentOutpoints, ¬block.Creates op) ∧
      ∀ m ∈ s.marks, ∀ op ∈ m.inactivated,
        ¬s.tip.chain.rewards.PurgesRecord p (s.tip.chain.tip.nHeight + 1) op
    | .disconnect _ => True

/-- The call disconnects the tip: the block and its undo data are read, and the
coins are at the tip. -/
def Undoes : TipCall → Prop
  | .connect _ _ _ => False
  | .disconnect io => io.readBlock = true ∧ io.readUndo = true ∧
      s.tip.chain.utxo.hashBestBlock = s.tip.chain.tip.hash

/-- `UndoBlock` finds every record that the connection of the block made inactive. -/
def FindsRecords : Prop :=
  call.Undoes s → ∀ m ∈ s.marks.head?, ∀ op ∈ m.inactivated, op ∈ s.tip.chain.rewards.rewardMap

/-- Finalization permits the call: the tip is above the finalized block. -/
def Permitted : TipCall → Prop
  | .connect _ _ _ => True
  | .disconnect _ => ∀ f ∈ s.tip.finalized, f.nHeight < s.tip.chain.tip.nHeight

/-- A block that made a record inactive is only disconnected if no block since stands more than
`maxreorgdepth` above it. -/
def WithinDepth (s : TracedTip) (call : TipCall) : Prop :=
  call.Undoes s → ∀ m ∈ s.marks.head?, m.inactivated ≠ [] →
    (m.highest : Int) - env.maxreorgdepth ≤ m.nHeight

instance (s : TracedTip) : (call : TipCall) → Decidable (call.Undoes s)
  | .connect _ _ _ => inferInstanceAs (Decidable False)
  | .disconnect _ => inferInstanceAs (Decidable (_ ∧ _))

instance (s : TracedTip) (call : TipCall) : Decidable (call.FindsRecords s) :=
  inferInstanceAs (Decidable (_ → ∀ m ∈ s.marks.head?, ∀ op ∈ m.inactivated,
    op ∈ s.tip.chain.rewards.rewardMap))

instance (s : TracedTip) : (call : TipCall) → Decidable (call.Permitted s)
  | .connect _ _ _ => inferInstanceAs (Decidable True)
  | .disconnect _ => inferInstanceAs (Decidable (∀ f ∈ s.tip.finalized, _))

instance (env : Env) (s : TracedTip) (call : TipCall) : Decidable (call.WithinDepth env s) :=
  inferInstanceAs (Decidable (_ → ∀ m ∈ s.marks.head?, m.inactivated ≠ [] → _))

end TipCall

/-! ### What a block does not mention -/

section Creates

variable {block : CBlock} {op : COutPoint}

theorem createdBy_eq_none (h : ¬block.Creates op) : createdBy block.vtx nHeight op = none := by
  by_contra hne
  obtain ⟨tx, htx, hsome⟩ := createdBy_isSome_iff.mp (isSome_iff_ne_none.mpr hne)
  obtain ⟨c, hc⟩ := isSome_iff_exists.mp hsome
  obtain ⟨out, hmem, hop, -⟩ := CTransaction.createdCoin_eq_some_iff.mp hc
  exact h ⟨tx, htx, (out, op.n), hmem, hop.symm⟩

theorem notMem_createdOutputs (h : ¬block.Creates op) : op ∉ block.createdOutputs.map Prod.fst := by
  intro hmem
  obtain ⟨⟨op', out⟩, hout, rfl⟩ := mem_map.mp hmem
  obtain ⟨tx, htx, -, hzip, hop⟩ := CBlock.mem_createdOutputs_iff.mp hout
  exact h ⟨tx, htx, (out, op'.n), hzip, hop.symm⟩

end Creates

/-! ### The invariant -/

/-- **The invariant of a traced run.** The blocks of the chain spend different outpoints, which are
gone from the coins, and the records they made inactive are as the marks say. -/
structure TracedTip.Tracked (env : Env) (p : Params) (s : TracedTip) : Prop where
  hist : History env p s.tip.chain.utxo s.tip.chain.tip s.tip.connected
  indexed : s.tip.chain.rewards.Indexed
  minBlocks : 0 ≤ s.tip.chain.rewards.nMinBlocks
  marked : Forall₂ (fun e m => ∀ op ∈ m.inactivated, op ∈ e.block.spentOutpoints)
    s.tip.connected s.marks
  gone : ∀ e ∈ s.tip.connected, ∀ op ∈ e.block.spentOutpoints, s.tip.chain.utxo.coins[op]? = none
  apart : s.tip.connected.Pairwise fun upper lower => ∀ op ∈ lower.block.spentOutpoints,
    op ∉ upper.block.spentOutpoints ∧ ¬upper.block.Creates op
  status : ∀ m ∈ s.marks, ∀ op ∈ m.inactivated,
    s.tip.chain.rewards.status op = m.expected env.maxreorgdepth

theorem mem_of_forall₂ {α β : Type} {R : α → β → Prop} {l : List α} {l' : List β}
    (h : Forall₂ R l l') {b : β} (hb : b ∈ l') : ∃ a ∈ l, R a b := by
  induction h with
  | nil => cases hb
  | cons hr _ ih =>
    rcases mem_cons.mp hb with rfl | hb
    · exact ⟨_, mem_cons_self, hr⟩
    · obtain ⟨a, ha, hab⟩ := ih hb
      exact ⟨a, mem_cons_of_mem _ ha, hab⟩

namespace TracedTip

variable {env : Env} {p : Params} {s : TracedTip} {block : CBlock} {fin : FinalizationEnv}
  {io : TipIO}

/-- The records the marks name were spent by a block of the chain. -/
theorem Tracked.spent (h : s.Tracked env p) {m : Mark} (hm : m ∈ s.marks) {op : COutPoint}
    (hop : op ∈ m.inactivated) : ∃ e ∈ s.tip.connected, op ∈ e.block.spentOutpoints := by
  obtain ⟨e, he, hsub⟩ := mem_of_forall₂ h.marked hm
  exact ⟨e, he, hsub op hop⟩

theorem tracked_refused (h : s.Tracked env p) {chain : ChainState} {e : Fault}
    (hpurge : ∀ m ∈ s.marks, ∀ op ∈ m.inactivated,
      ¬s.tip.chain.rewards.PurgesRecord p (s.tip.chain.tip.nHeight + 1) op)
    (hchain : s.tip.chain.connectTip env p block = (chain, some e))
    (finalized : Option CBlockIndex) :
    Tracked env p ⟨{ s.tip with chain := chain, finalized := finalized }, s.marks⟩ := by
  obtain ⟨hutxo, htip, hrewards⟩ := connectTip_refused hchain
  refine ⟨?_, ?_, ?_, h.marked, ?_, h.apart, fun m hm op hop => ?_⟩
  · simpa only [hutxo, htip] using h.hist
  · rcases hrewards with hsame | hval
    · simpa only [hsame] using h.indexed
    · simpa only [hval] using (CColdRewards.Indexed.closed 0).validated h.indexed ..
  · rcases hrewards with hsame | hval
    · simpa only [hsame] using h.minBlocks
    · have hset : (s.tip.chain.rewards.validated p block
          (s.tip.chain.tip.next block.hash).nHeight).nMinBlocks = s.tip.chain.rewards.nMinBlocks :=
        congrArg Prod.fst (settings_validated ..)
      simpa only [hval, hset] using h.minBlocks
  · simpa only [hutxo] using h.gone
  · rw [← h.status m hm op hop]
    rcases hrewards with hsame | hval
    · simp only [hsame]
    · simp only [hval]
      exact status_of_rewardMap_eq
        (getElem?_validated_of_not_purges (hpurge m hm op hop))

theorem Tracked.inactive (h : s.Tracked env p) {m : Mark} (hm : m ∈ s.marks) {op : COutPoint}
    (hop : op ∈ m.inactivated) {val : CRewardValue}
    (hval : s.tip.chain.rewards.rewardMap[op]? = some val) : val.active = false := by
  have hstatus := h.status m hm op hop
  rw [CColdRewards.status, hval, Mark.expected_eq] at hstatus
  split at hstatus
  · exact (Prod.mk.inj (some.inj hstatus)).1
  · cases hstatus

/-- The engine as `UpdateWithBlock` finds it. -/
def paidEngine (p : Params) (s : ChainState) (block : CBlock) (nColdReward : Int) : CColdRewards :=
  if nColdReward > 0 then
    (s.rewards.validated p block (s.tip.nHeight + 1)).updateRewardsDB p (s.tip.nHeight + 1)
  else s.rewards.validated p block (s.tip.nHeight + 1)

theorem indexed_paidEngine {c : ChainState} (h : c.rewards.Indexed) (nColdReward : Int) :
    (paidEngine p c block nColdReward).Indexed := by
  unfold paidEngine
  split
  · exact (CColdRewards.Indexed.closed _).updateRewardsDB
      ((CColdRewards.Indexed.closed 0).validated h ..) p
  · exact (CColdRewards.Indexed.closed 0).validated h ..

/-- Validation and payout keep the status of a record that is not active. -/
theorem status_paidEngine {c : ChainState} {t : ConnectState UtxoSet} {g₁ g' : Option CColdRewards}
    {out : ConnectOutput UtxoSet} (hmin : 0 ≤ c.rewards.nMinBlocks)
    (hconn : Connected env p block (c.tip.next block.hash) c.view (some c.rewards) false false t
      g₁ g' out) {op : COutPoint} (hpurge : ¬c.rewards.PurgesRecord p (c.tip.nHeight + 1) op)
    (hin : ∀ val, c.rewards.rewardMap[op]? = some val → val.active = false) :
    (paidEngine p c block out.nColdReward).status op = c.rewards.status op := by
  have hval : (c.rewards.validated p block (c.tip.nHeight + 1)).rewardMap[op]? =
      c.rewards.rewardMap[op]? := getElem?_validated_of_not_purges hpurge
  have hstatus := status_of_rewardMap_eq hval
  unfold paidEngine
  split
  next hpaid =>
    obtain ⟨w, hpays⟩ := pays_of_connected hmin hconn hpaid
    rw [status_updateRewardsDB, hstatus]
    · intro val hkey
      cases hpays.record.symm.trans hkey
      exact hpays.active
    · intro val hop
      exact hin val (hval.symm.trans hop)
  · exact hstatus

theorem tracked_connected (h : s.Tracked env p) {chain : ChainState} {rewards : CColdRewards}
    (hnew : (TipCall.connect block fin io).OffersNew p s.tip)
    (hcreates : ∀ e ∈ s.tip.connected, ∀ op ∈ e.block.spentOutpoints, ¬block.Creates op)
    (hpurge : ∀ m ∈ s.marks, ∀ op ∈ m.inactivated,
      ¬s.tip.chain.rewards.PurgesRecord p (s.tip.chain.tip.nHeight + 1) op)
    (hchain : s.tip.chain.connectTip env p block = (chain, none))
    (hflush : flushStateToDisk chain.rewards chain.utxo.hashBestBlock io.flush = (rewards, true))
    (finalized : Option CBlockIndex) :
    Tracked env p ⟨{ chain := ⟨chain.utxo, rewards, chain.tip⟩
                     connected := ⟨block, s.tip.chain.undoOf env p block⟩ :: s.tip.connected
                     finalized := finalized },
      s.marksAfter p (.connect block fin io)⟩ := by
  obtain ⟨hhash, hprev, hno⟩ := hnew
  obtain ⟨t, out, hconn, hlookup, -, -⟩ := connected_of_accepted hhash.hash_ne_genesis hchain
  obtain ⟨hmap, hindex, hset, -, -⟩ := flushStateToDisk_cases hflush
  obtain ⟨hnodup, hcoin⟩ := coin_of_spent hno hconn
  have hcoins : ∀ op, chain.utxo.coins[op]? = if op ∈ block.spentOutpoints then none
      else (createdBy block.vtx (s.tip.chain.tip.nHeight + 1) op).or s.tip.chain.utxo.coins[op]? :=
    fun op => (hlookup op).trans ((hconn.lookup_view op).symm.trans
      (coins_of_connected hno hconn op))
  -- what the blocks below have spent, this one can neither spend nor create
  have hunspent : ∀ e ∈ s.tip.connected, ∀ op ∈ e.block.spentOutpoints,
      op ∉ block.spentOutpoints := by
    intro e he op hop hspent
    apply hcoin op hspent
    rw [createdBy_eq_none (hcreates e he op hop), h.gone e he op hop]
    rfl
  have hengine : chain.rewards = ((paidEngine p s.tip.chain block out.nColdReward).updateWithBlock p
      env.maxreorgdepth block (s.tip.chain.tip.nHeight + 1)).setBestBlock block.hash :=
    rewards_of_connected hconn
  have hpaid : (paidEngine p s.tip.chain block out.nColdReward).Indexed :=
    indexed_paidEngine h.indexed out.nColdReward
  have hstatus : ∀ op, rewards.status op = ((paidEngine p s.tip.chain block
      out.nColdReward).updateWithBlock p env.maxreorgdepth block
        (s.tip.chain.tip.nHeight + 1)).status op := by
    intro op
    refine status_of_rewardMap_eq ?_
    rw [hmap, hengine]
    rfl
  have hist := History.connect h.hist hhash hprev hno hchain
  refine ⟨hist, ?_, ?_, ?_, ?_, ?_, ?_⟩
  · refine CColdRewards.Indexed.of_eq (r := chain.rewards) ?_ hmap hindex
    rw [hengine]
    exact (hpaid.updateWithBlock p env.maxreorgdepth block _).of_eq rfl rfl
  · have hsettings : chain.rewards.settings = s.tip.chain.rewards.settings := by
      rw [rewards_of_connected hconn, settings_commitColdRewards, settings_validated]
    have hmin : rewards.nMinBlocks = s.tip.chain.rewards.nMinBlocks :=
      congrArg Prod.fst (hset.trans hsettings)
    simpa only [hmin] using h.minBlocks
  · refine .cons (fun op hop => (mem_filter.mp hop).1) ?_
    exact forall₂_map_right_iff.mpr h.marked
  · intro e he op hop
    refine (hcoins op).trans ?_
    rcases mem_cons.mp he with rfl | he
    · exact if_pos hop
    · rw [if_neg (hunspent e he op hop), createdBy_eq_none (hcreates e he op hop),
        h.gone e he op hop]
      rfl
  · refine pairwise_cons.mpr ⟨fun e he op hop => ?_, h.apart⟩
    exact ⟨hunspent e he op hop, hcreates e he op hop⟩
  · intro m hm op hop
    refine (hstatus op).trans ?_
    rcases mem_cons.mp hm with rfl | hm
    · -- the records this block makes inactive
      obtain ⟨hspent, hrec⟩ := mem_filter.mp hop
      have hcold : (coldRewardOf p block (s.tip.chain.tip.nHeight + 1) (some s.tip.chain.rewards)
          false false).2.1 = out.nColdReward := congrArg (fun x => x.2.1) hconn.cold
      simp only [hcold] at hrec
      exact status_updateWithBlock_spent hpaid env.maxreorgdepth hspent hrec
    · obtain ⟨m', hm', rfl⟩ := mem_map.mp hm
      have hop : op ∈ m'.inactivated := hop
      obtain ⟨e, he, hspent⟩ := h.spent hm' hop
      rw [status_updateWithBlock hpaid env.maxreorgdepth (hunspent e he op hspent)
          (notMem_createdOutputs (hcreates e he op hspent)),
        status_paidEngine h.minBlocks hconn (hpurge m' hm' op hop) (fun _ => h.inactive hm' hop),
        h.status m' hm' op hop, Mark.expected_raise]

theorem tracked_disconnected (h : s.Tracked env p) {top : ConnectedTip} {rest : List ConnectedTip}
    {t t' : ChainState} {rewards : CColdRewards} (htop : s.tip.connected = top :: rest)
    (hist : History env p t.utxo t.tip rest)
    (hnew : NoOverwrite t.view top.block.vtx (t.tip.nHeight + 1))
    (hgen : top.block.hash ≠ p.hashGenesisBlock)
    (hacc : t.connectTip env p top.block = (t', none)) (hutxo : s.tip.chain.utxo = t'.utxo)
    (hflush : flushStateToDisk (undoColdRewards p top.block s.tip.chain.tip.nHeight
      s.tip.chain.rewards) t.utxo.hashBestBlock io.flush = (rewards, true))
    (finalized : Option CBlockIndex) :
    Tracked env p ⟨{ chain := ⟨t.utxo, rewards, t.tip⟩, connected := rest, finalized := finalized },
      s.marksAfter p (.disconnect io)⟩ := by
  obtain ⟨u, out, hconn, hlookup, -, -⟩ := connected_of_accepted hgen hacc
  obtain ⟨hmap, hindex, hset, -, -⟩ := flushStateToDisk_cases hflush
  have hcoins : ∀ op, s.tip.chain.utxo.coins[op]? = if op ∈ top.block.spentOutpoints then none
      else (createdBy top.block.vtx (t.tip.nHeight + 1) op).or t.utxo.coins[op]? := by
    intro op
    rw [hutxo]
    exact (hlookup op).trans ((hconn.lookup_view op).symm.trans
      (coins_of_connected hnew hconn op))
  have hmarked := h.marked
  have hapart := h.apart
  rw [htop] at hmarked hapart
  obtain ⟨m₀, marks, hsub, hrest, hmarks⟩ := forall₂_cons_left_iff.mp hmarked
  obtain ⟨hbelow, hapart⟩ := pairwise_cons.mp hapart
  have htail : s.marksAfter p (.disconnect io) = marks := by
    rw [marksAfter, hmarks, tail_cons]
  rw [htail]
  refine ⟨hist, ?_, ?_, hrest, fun e he op hop => ?_, hapart, fun m hm op hop => ?_⟩
  · refine CColdRewards.Indexed.of_eq ?_ hmap hindex
    have hundo := (CColdRewards.Indexed.closed 0).undoBlock h.indexed p top.block
      s.tip.chain.tip.nHeight true
    exact hundo.of_eq rfl rfl
  · have hmin : rewards.nMinBlocks = s.tip.chain.rewards.nMinBlocks :=
      congrArg Prod.fst (hset.trans ((closed_settings 0 _).undoBlock rfl p top.block _ true))
    simpa only [hmin] using h.minBlocks
  · -- the block above did not spend it, so it was gone before
    have hnone := h.gone e (by rw [htop]; exact mem_cons_of_mem top he) op hop
    rw [hcoins, if_neg (hbelow e he op hop).1, or_eq_none_iff] at hnone
    exact hnone.2
  · have hm' : m ∈ s.marks := by rw [hmarks]; exact mem_cons_of_mem m₀ hm
    obtain ⟨e, he, hsub⟩ := mem_of_forall₂ hrest hm
    obtain ⟨hunspent, hcreates⟩ := hbelow e he op (hsub op hop)
    have hstatus : rewards.status op = (s.tip.chain.rewards.undoBlock p top.block
        s.tip.chain.tip.nHeight true).status op := by
      refine status_of_rewardMap_eq ?_
      rw [hmap]
      rfl
    refine hstatus.trans ?_
    rw [status_undoBlock (blockShape_of_checkBlock hconn.checkBlock_ok)
      (coin_of_spent hnew hconn).1 hunspent (notMem_createdOutputs hcreates)]
    exact h.status m hm' op hop

variable {s' : TracedTip} {call : TipCall}

/-- The invariant, until a failed write leaves the tip behind the coins. -/
def Followed (env : Env) (p : Params) (s : TracedTip) : Prop :=
  s.Tracked env p ∨ s.tip.chain.utxo.hashBestBlock ≠ s.tip.chain.tip.hash

theorem followed_connect (h : s.Followed env p)
    (hord : (TipCall.connect block fin io).Orderly env p s)
    {tip : TipState} {ok : Bool} (hout : ConnectOutcome env p fin io s.tip block tip ok) :
    Followed env p ⟨tip, if ok then s.marksAfter p (.connect block fin io) else s.marks⟩ := by
  obtain ⟨hnew, hin, hcreates, hpurge⟩ := hord
  cases hout with
  | unread _ => exact h
  | refused _ hchain =>
    rcases h with htracked | hstuck
    · exact .inl (tracked_refused htracked hpurge hchain _)
    · obtain ⟨hutxo, htip, -⟩ := connectTip_refused hchain
      refine .inr ?_
      simpa only [hutxo, htip] using hstuck
  | notFinalized hread hchain hfin =>
    exact absurd (updateFinalized_error_iff.mp ⟨_, hfin⟩) (hin hread (congrArg Prod.snd hchain))
  | notFlushed hread hchain hfin =>
    refine .inr ?_
    change _ ≠ s.tip.chain.tip.hash
    rw [(hashBestBlock_of_connected hnew.1 hchain).1, ← hnew.2.1]
    exact hnew.1.hash_ne_prev
  | connected _ hchain hfin hflush =>
    have hbest := hashBestBlock_of_accepted hnew.1.hash_ne_genesis hchain
    have htracked := h.resolve_right (not_not.mpr hbest)
    exact .inl (tracked_connected htracked hnew hcreates hpurge hchain hflush _)

theorem followed_disconnect (h : s.Tracked env p) (hin : (TipCall.disconnect io).InStep env p s.tip)
    {tip : TipState} {ok : Bool} (hout : DisconnectOutcome env p io s.tip tip ok) :
    Followed env p ⟨tip, if ok then s.marksAfter p (.disconnect io) else s.marks⟩ := by
  cases hout with
  | unread _ => exact .inl h
  | unclean hread hundo htop hbad _ =>
    exact absurd (hin hread hundo h.hist.hashBestBlock_eq _ (by rw [htop]; rfl)) hbad
  | notFlushed _ _ _ hmoved => exact .inr hmoved
  | disconnected htop _ hist hhash _ hnew hacc hutxo _ hflush =>
    exact .inl (tracked_disconnected h htop hist hnew hhash.hash_ne_genesis hacc hutxo hflush _)

theorem followed_step (h : s.Followed env p) (hord : call.Orderly env p s)
    (hnext : s.next env p call = some s') : s'.Followed env p := by
  unfold next at hnext
  split at hnext
  · cases hnext
  next tip ok hstep =>
  cases hnext
  cases call with
  | connect block fin io =>
    obtain ⟨tip', ok', hrun, hout⟩ := connectTip_cases env p fin io hord.1.2.1
    cases hstep.symm.trans hrun
    exact followed_connect h hord hout
  | disconnect io =>
    rcases h with htracked | hstuck
    · obtain ⟨tip', ok', hrun, hout⟩ := disconnectTip_cases io htracked.hist
      cases hstep.symm.trans hrun
      exact followed_disconnect htracked hord.2.1 hout
    · obtain rfl := disconnectTip_stuck hstuck hstep
      exact .inr hstuck

/-- At a disconnection the records are there exactly if the depth was respected. -/
theorem findsRecords_iff (h : s.Followed env p) : call.FindsRecords s ↔ call.WithinDepth env s := by
  refine forall_congr' fun hundoes => ?_
  have htracked : s.Tracked env p := by
    refine h.resolve_right (not_not.mpr ?_)
    cases call with
    | connect block fin io => exact hundoes.elim
    | disconnect io => exact hundoes.2.2
  refine forall₂_congr fun m hm => ?_
  have hpresent : ∀ op ∈ m.inactivated, op ∈ s.tip.chain.rewards.rewardMap ↔
      (m.highest : Int) - env.maxreorgdepth ≤ m.nHeight := by
    intro op hop
    have hstatus := htracked.status m (mem_of_mem_head? hm) op hop
    rw [← Std.ExtTreeMap.isSome_getElem?_iff_mem, isSome_iff_ne_none, ne_eq,
      ← status_eq_none_iff, hstatus, Mark.expected_eq]
    split <;> simp [*]
  constructor
  · intro hall hne
    obtain ⟨op, hop⟩ := exists_mem_of_ne_nil _ hne
    exact (hpresent op hop).mp (hall op hop)
  · intro hdepth op hop
    exact (hpresent op hop).mpr (hdepth (ne_nil_of_mem hop))

/-- **Pruning and reorganisations.** Along any orderly run, `UndoBlock` always finds the records
that the block made inactive, exactly when no block that made a record inactive is disconnected
after the chain was more than `maxreorgdepth` above it. -/
theorem undo_findsRecords_iff {tip : TipState} (hstart : tip.Started)
    (hindexed : tip.chain.rewards.Indexed) (hmin : 0 ≤ tip.chain.rewards.nMinBlocks)
    {calls : List TipCall}
    (hord : Run.Along (next env p) (fun s call => call.Orderly env p s) ⟨tip, []⟩ calls) :
    Run.Along (next env p) (fun s call => call.FindsRecords s) ⟨tip, []⟩ calls ↔
      Run.Along (next env p) (fun s call => call.WithinDepth env s) ⟨tip, []⟩ calls := by
  refine Run.along_iff (Followed env p) ?_ ?_ ?_ hord
  · exact fun s call hs _ => findsRecords_iff hs
  · exact fun s call s' hs hord _ hnext => followed_step hs hord hnext
  · have hconn := hstart.connected_eq
    refine .inl ⟨?_, hindexed, hmin, ?_, ?_, ?_, by simp⟩
    · simpa only [hconn] using History.base hstart.coins_eq
    · simpa only [hconn] using Forall₂.nil
    · simp [hconn]
    · simp [hconn]

/-! ### A spent candidate -/

/-- A block that spends the candidate at outpoint 0 of transaction 1000. -/
def spendingBlock (nHeight : Nat) : CBlock :=
  chainBlock regTestParams nHeight 0 [opReturn]
    [{ vin := [{ prevout := ⟨1000, 0⟩ }]
       vout := [{ nValue := 1000 * coin, scriptPubKey := [0x51] }]
       hash := 1001 }]

/-- A chain of one block with that candidate. -/
def candidateTip : TipState :=
  { chain :=
      { utxo := (UtxoSet.empty 1).add ⟨1000, 0⟩
          ⟨{ nValue := 1000 * coin, scriptPubKey := [0x51] }, 1, false⟩
          ⟨by decide, by decide, by decide⟩
        rewards := ((init regTestParams).putInMap ⟨1000, 0⟩
          (.new { nValue := 1000 * coin, scriptPubKey := [0x51] } 1 1 1)).setBestBlock 1
        tip := ⟨1, 1, [regTestParams.hashGenesisBlock], rfl⟩ } }

theorem indexed_candidateTip : candidateTip.chain.rewards.Indexed := by
  have hinit : (init regTestParams).Indexed :=
    ⟨List.Pairwise.nil, fun op val hval => absurd hval (by simp [init])⟩
  exact (hinit.putInMap ⟨1000, 0⟩ (fun h => absurd h (by decide))).of_eq rfl rfl

/-- Connecting a block puts only that block on the chain. -/
theorem block_of_connect (hprev : block.hashPrevBlock = s.tip.chain.tip.hash)
    (hconn : s.tip.connected = []) (hnext : s.next env p (.connect block fin io) = some s') :
    ∀ e ∈ s'.tip.connected, e.block = block := by
  unfold next at hnext
  split at hnext
  · cases hnext
  next tip ok hstep =>
  cases hnext
  obtain ⟨tip', ok', hrun, hout⟩ := connectTip_cases env p fin io hprev
  cases hstep.symm.trans hrun
  cases hout <;> simp [hconn]

/-- With a depth of ten, the record is there when the block is taken back. -/
theorem undo_findsRecords_candidate :
    Run.Along (next Env.permissive regTestParams) (fun s call => call.FindsRecords s)
      ⟨candidateTip, []⟩ [.connect (spendingBlock 2) justStarted {}, .disconnect {}] := by
  have hnew : candidateTip.chain.NewOutpoints (spendingBlock 2) := by decide +kernel
  have haligned : ∀ tx ∈ (spendingBlock 2).vtx, ∀ txout ∈ tx.vout,
      isUnspendable txout.scriptPubKey = false → SpockAligned txout.nValue := by decide
  have hord : Run.Along (next Env.permissive regTestParams)
      (fun s call => call.Orderly Env.permissive regTestParams s) ⟨candidateTip, []⟩
      [.connect (spendingBlock 2) justStarted {}, .disconnect {}] := by
    refine ⟨⟨?_, ?_, ?_, ?_⟩, fun s' hs' => ⟨⟨trivial, ?_, trivial⟩, fun _ _ => trivial⟩⟩
    · exact ⟨⟨by decide, by decide, by decide, by decide⟩, rfl, hnew.noOverwrite _⟩
    · rintro - - ⟨pindex, hfind, -⟩
      exact absurd hfind (by simp [findBlockToFinalize, justStarted])
    · exact forall_mem_nil _
    · exact forall_mem_nil _
    · intro _ _ _ top htop
      rw [block_of_connect rfl rfl hs' top (mem_of_mem_head? htop)]
      exact haligned
  exact (undo_findsRecords_iff ⟨rfl, rfl, rfl⟩ indexed_candidateTip (by decide) hord).mpr
    (by decide +kernel)

/-- **Two permitted reorganisations that miss a record.** With a negative depth nothing is ever
finalized, and the spending block prunes the record at once. With depth zero and a node that has
just started, the next block prunes it while finalization still waits. -/
theorem not_findsRecords_candidate :
    (¬Run.Along (next { Env.permissive with maxreorgdepth := -1 } regTestParams)
        (fun s call => call.FindsRecords s)
        ⟨{ chain := thousandCoinState regTestParams [0x51] }, []⟩
        [.connect (spendingBlock 103) justStarted {}, .disconnect {}] ∧
      Run.Along (next { Env.permissive with maxreorgdepth := -1 } regTestParams)
        (fun s call => call.Permitted s)
        ⟨{ chain := thousandCoinState regTestParams [0x51] }, []⟩
        [.connect (spendingBlock 103) justStarted {}, .disconnect {}]) ∧
    (¬Run.Along (next { Env.permissive with maxreorgdepth := 0 } regTestParams)
        (fun s call => call.FindsRecords s)
        ⟨{ chain := thousandCoinState regTestParams [0x51] }, []⟩
        [.connect (spendingBlock 103) justStarted {},
          .connect (chainBlock regTestParams 104 0 [opReturn] []) justStarted {},
          .disconnect {}, .disconnect {}] ∧
      Run.Along (next { Env.permissive with maxreorgdepth := 0 } regTestParams)
        (fun s call => call.Permitted s)
        ⟨{ chain := thousandCoinState regTestParams [0x51] }, []⟩
        [.connect (spendingBlock 103) justStarted {},
          .connect (chainBlock regTestParams 104 0 [opReturn] []) justStarted {},
          .disconnect {}, .disconnect {}]) := by
  refine ⟨⟨?_, ?_⟩, ?_, ?_⟩ <;> decide +kernel

end TracedTip

end DeVault
