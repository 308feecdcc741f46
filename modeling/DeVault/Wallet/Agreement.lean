import DeVault.Consensus.TxVerify
import DeVault.Wallet.Balance

/-!
# The wallet's transaction and the node's checks

The wallet selects, signs and pays with the values that its transactions have. The
node checks with the coins that `AddCoins` stored for them, whose values are rounded
up to a spock, and it rounds the outputs up as well.
-/

namespace DeVault

open List ScriptExecutionContext CTransaction

/-! ### Signing -/

/-- The transactions differ in scriptSigs and hash only. -/
structure SameUnsigned (tx tx' : CTransaction) : Prop where
  vin : tx.vin.map (fun i => (i.prevout, i.nSequence)) =
    tx'.vin.map (fun i => (i.prevout, i.nSequence))
  vout : tx.vout = tx'.vout
  nVersion : tx.nVersion = tx'.nVersion
  nLockTime : tx.nLockTime = tx'.nLockTime

namespace SameUnsigned

variable {tx tx' tx'' : CTransaction}

theorem refl (tx : CTransaction) : SameUnsigned tx tx := ⟨rfl, rfl, rfl, rfl⟩

section

variable (h : SameUnsigned tx tx')
include h

theorem trans (h' : SameUnsigned tx' tx'') : SameUnsigned tx tx'' :=
  ⟨h.vin.trans h'.vin, h.vout.trans h'.vout, h.nVersion.trans h'.nVersion,
    h.nLockTime.trans h'.nLockTime⟩

theorem symm : SameUnsigned tx' tx :=
  ⟨h.vin.symm, h.vout.symm, h.nVersion.symm, h.nLockTime.symm⟩

theorem prevouts_eq : tx.prevouts = tx'.prevouts := by
  have hfst := congrArg (map Prod.fst) h.vin
  rwa [map_map, map_map] at hfst

theorem nSequence_eq : tx.vin.map (·.nSequence) = tx'.vin.map (·.nSequence) := by
  have hsnd := congrArg (map Prod.snd) h.vin
  rwa [map_map, map_map] at hsnd

theorem get_eq {n : Nat} (hn : n < tx.vin.length) (hn' : n < tx'.vin.length) :
    (tx.vin.get ⟨n, hn⟩).prevout = (tx'.vin.get ⟨n, hn'⟩).prevout ∧
      (tx.vin.get ⟨n, hn⟩).nSequence = (tx'.vin.get ⟨n, hn'⟩).nSequence := by
  have hget := congrArg (fun l => l[n]?) h.vin
  simp only [getElem?_map, getElem?_eq_getElem hn, getElem?_eq_getElem hn',
    Option.map_some, Option.some.injEq, Prod.mk.injEq] at hget
  exact hget

end

/-- Filling in a scriptSig. -/
theorem modify (tx : CTransaction) (n : Nat) (scriptSig : CScript) :
    SameUnsigned tx
      { tx with vin := tx.vin.modify n fun txin => { txin with scriptSig := scriptSig } } := by
  refine ⟨?_, rfl, rfl, rfl⟩
  refine ext_getElem? fun k => ?_
  rw [getElem?_map, getElem?_map, getElem?_modify]
  cases tx.vin[k]? with
  | none => rfl
  | some txin => simp only [Option.map_some]; split <;> rfl

end SameUnsigned

/-- The hash type of the wallet: `SigHashType().withFork()`. -/
def walletSigHashType : SigHashType := SigHashType.withFork ⟨1⟩

/-- Two digests of one input of the wallet's transaction are equal exactly if the
values of the coins are. -/
theorem forkIdPreimage_wallet_iff (flags : UInt32) {ctx ctx' : ScriptExecutionContext}
    (htx : SameUnsigned ctx.tx ctx'.tx) (hnIn : ctx.nIn = ctx'.nIn)
    (htoken : ctx.coin.out.tokenDataPtr = ctx'.coin.out.tokenDataPtr) :
    (∀ scriptCode, forkIdPreimage scriptCode ctx walletSigHashType flags =
        forkIdPreimage scriptCode ctx' walletSigHashType flags) ↔
      ctx.coin.out.nValue = ctx'.coin.out.nValue := by
  have hutxos : walletSigHashType.hasUtxos = false := by decide
  constructor
  · intro h
    have heq := h []
    simp only [forkIdPreimage, hutxos, Bool.false_and, Bool.false_eq_true, if_false,
      Except.ok.injEq, ForkIdPreimage.mk.injEq] at heq
    exact heq.2.2.2.2.2.2.2.1
  · intro hvalue scriptCode
    have htxin : ctx.txin.prevout = ctx'.txin.prevout ∧
        ctx.txin.nSequence = ctx'.txin.nSequence := by
      obtain ⟨hprev, hseq⟩ := htx.get_eq ctx.nIn_lt (hnIn ▸ ctx'.nIn_lt)
      simp only [txin]
      refine ⟨hprev.trans ?_, hseq.trans ?_⟩
      · congr 3
      · congr 3
    have houtputs : hashedOutputs ctx.tx ctx.nIn walletSigHashType =
        hashedOutputs ctx'.tx ctx'.nIn walletSigHashType := by
      simp only [hashedOutputs, htx.vout, hnIn]
    simp only [forkIdPreimage, hutxos, Bool.false_and, Bool.false_eq_true, if_false,
      Except.ok.injEq, ForkIdPreimage.mk.injEq]
    exact ⟨htx.nVersion, by rw [htx.prevouts_eq], trivial, by rw [htx.nSequence_eq], htxin.1,
      by rw [htoken], trivial, hvalue, htxin.2, houtputs, htx.nLockTime, trivial⟩

variable {coins : List CInputCoin}

section Sign

variable {env : CreateEnv} {tx tx' : CTransaction}

theorem signInput_ok {p : CInputCoin × Nat} (h : signInput env tx p = .ok tx') :
    ∃ (hlt : p.2 < tx.vin.length) (scriptSig : CScript),
      env.produceSignature (.ofOutput p.2 p.1.txout tx hlt) p.1.txout.scriptPubKey =
        some scriptSig ∧
      tx' =
        { tx with vin := tx.vin.modify p.2 fun txin => { txin with scriptSig := scriptSig } } := by
  unfold signInput at h
  split at h
  next hlt =>
    split at h
    · cases h
    next scriptSig hsig => exact ⟨hlt, scriptSig, hsig, (Except.ok.inj h).symm⟩
  · cases h

/-- An input was signed with the output of its coin, when the scriptSigs were not yet
all there. -/
def SignedWith (env : CreateEnv) (tx : CTransaction) (nIn : Nat) (c : CInputCoin) : Prop :=
  ∃ (tx₀ : CTransaction) (hlt : nIn < tx₀.vin.length) (txin : CTxIn), SameUnsigned tx₀ tx ∧
    tx.vin[nIn]? = some txin ∧
    env.produceSignature (.ofOutput nIn c.txout tx₀ hlt) c.txout.scriptPubKey = some txin.scriptSig

/-- **The signing loop** from an index on: only the scriptSigs from there on change, each to a
signature with the output of its coin. -/
theorem signAll_spec {k : Nat} (h : (coins.zipIdx k).foldlM (signInput env) tx = .ok tx') :
    SameUnsigned tx tx' ∧ (∀ i < k, tx'.vin[i]? = tx.vin[i]?) ∧
      ∀ j c, coins[j]? = some c → SignedWith env tx' (k + j) c := by
  induction coins generalizing k tx with
  | nil =>
    obtain rfl : tx = tx' := by simpa [pure, Except.pure] using h
    exact ⟨.refl tx, fun _ _ => rfl, fun j c hc => absurd hc (by simp)⟩
  | cons c coins ih =>
    rw [zipIdx_cons, foldlM_cons] at h
    obtain ⟨tx₁, hstep, hrest⟩ := Outcome.bind_ok_iff.mp h
    obtain ⟨hlt, scriptSig, hsig, rfl⟩ := signInput_ok hstep
    obtain ⟨hsame, hkeep, hsigned⟩ := ih hrest
    have hstepSame := SameUnsigned.modify tx k scriptSig
    refine ⟨hstepSame.trans hsame, ?_, ?_⟩
    · intro i hi
      rw [hkeep i (by omega)]
      show (tx.vin.modify k _)[i]? = _
      rw [getElem?_modify]
      simp [Nat.ne_of_gt hi]
    · intro j d hd
      cases j with
      | zero =>
        -- the rest of the loop leaves this input as it is now
        cases hd
        refine ⟨tx, hlt, { tx.vin.get ⟨k, hlt⟩ with scriptSig := scriptSig },
          hstepSame.trans hsame, ?_, hsig⟩
        rw [Nat.add_zero, hkeep k (Nat.lt_succ_self k), getElem?_modify_eq,
          getElem?_eq_getElem hlt]
        rfl
      | succ j =>
        have hrest := hsigned j d (by simpa using hd)
        rwa [show k + 1 + j = k + (j + 1) by omega] at hrest

end Sign

/-! ### The node's side -/

/-- A coin of the wallet is unspent in the coins of the node: it is as `AddCoins`
stored it, and may be spent at the height. -/
structure UnspentIn {B : Type} [CCoinsView B] (view : CCoinsViewCache B) (nSpendHeight : Nat)
    (c : CInputCoin) : Prop where
  stored : ∃ tx nHeight, c.Of tx ∧ view.lookup c.outpoint = tx.createdCoin nHeight c.outpoint
  spendable : Spendable view nSpendHeight c.outpoint
  not_null : c.outpoint.isNull = false

/-- **What is assumed of the signatures.** What `ProduceSignature` returns for a script verifies,
for an input that spends it, exactly on the data that was signed. -/
def CorrectScheme (env : CreateEnv) (verify : CScript → ScriptExecutionContext → Bool)
    (flags : UInt32) : Prop :=
  ∀ ctx scriptPubKey scriptSig, env.produceSignature ctx scriptPubKey = some scriptSig →
    ∀ ctx' : ScriptExecutionContext, ctx'.coin.out.scriptPubKey = scriptPubKey →
      (verify scriptSig ctx' = true ↔
        ∀ scriptCode, forkIdPreimage scriptCode ctx' walletSigHashType flags =
          forkIdPreimage scriptCode ctx walletSigHashType flags)

/-- The node agrees with what the wallet made: every scriptSig verifies against the
coin, and the fee is the one that the wallet returned. -/
def Agreed {B : Type} [CCoinsView B] (verify : CScript → ScriptExecutionContext → Bool)
    (view : CCoinsViewCache B) (nSpendHeight : Nat) (created : Created) : Prop :=
  (∀ nIn (h : nIn < created.tx.vin.length),
    verify (created.tx.vin.get ⟨nIn, h⟩).scriptSig (.ofView created.tx view nIn h) = true) ∧
  ∃ w, checkTxInputs created.tx view nSpendHeight = .ok (w, created.nFeeRet)

/-- **The condition on the last turn.** The coins are whole spocks, and so are the amounts of the
recipients less their share of the fee that the turn started with, and, with change, the minimum fee
or, where the recipients pay the fee, the sum of the amounts. -/
structure WholeSpocks (env : CreateEnv) (order : Order) (outs : List CTxOut) (nBytes : Nat)
    (built : Built) : Prop where
  coins : ∀ c ∈ built.setCoins, SpockAligned c.txout.nValue
  recipients : ∀ out ∈ outs, SpockAligned out.nValue
  change : built.nChangePosInOut ≠ none →
    SpockAligned (if order.nSubtractFeeFromAmount = 0 then env.policy.getMinimumFee nBytes
      else order.nValue)

variable {tx : CTransaction}

section Node

variable {B : Type} [CCoinsView B] {view : CCoinsViewCache B} {nSpendHeight : Nat}
  {c : CInputCoin}

/-- The node's coin is the wallet's, rounded. -/
theorem UnspentIn.out_eq (h : UnspentIn view nSpendHeight c) :
    (view.peek c.outpoint).out = c.txout.quantized := by
  obtain ⟨tx, nHeight, ⟨-, hout⟩, hstored⟩ := h.stored
  have hlook := h.spendable.lookup
  rw [hstored] at hlook
  obtain ⟨out, hmem, -, -, hcoin⟩ := createdCoin_eq_some_iff.mp hlook
  have heq : out = c.txout :=
    Option.some.inj ((mem_zipIdx_iff_getElem?.mp hmem).symm.trans hout)
  rw [hcoin, heq]

theorem valueIn_eq (h : ∀ c ∈ coins, UnspentIn view nSpendHeight c)
    (haligned : ∀ c ∈ coins, SpockAligned c.txout.nValue) :
    valueIn view (outpoints coins) = totalValue coins := by
  rw [valueIn, outpoints, map_map, totalValue]
  refine congrArg sum (map_congr_left fun c hc => ?_)
  rw [Function.comp_apply, (h c hc).out_eq]
  exact (haligned c hc).spockQuantize_eq

theorem not_isCoinBase (h : ∀ o ∈ tx.prevouts, o.isNull = false) : tx.isCoinBase = false := by
  rcases tx with ⟨vin, vout, nVersion, nLockTime, hash⟩
  cases hvin : vin with
  | nil => rfl
  | cons i rest =>
    cases rest with
    | nil =>
      have hi := h i.prevout (by simp [prevouts, hvin])
      simp [isCoinBase, hi]
    | cons j rest => simp [isCoinBase]

/-- With aligned coins that balance, the node's fee is the wallet's exactly if the sum
is an amount and the outputs are whole spocks. -/
theorem checkTxInputs_iff_aligned {nFeeRet : Int} (hprev : tx.prevouts = outpoints coins)
    (hunspent : ∀ c ∈ coins, UnspentIn view nSpendHeight c)
    (haligned : ∀ c ∈ coins, SpockAligned c.txout.nValue)
    (hbalance : rawValueOut tx.vout + nFeeRet = totalValue coins) (hfee : 0 ≤ nFeeRet)
    (hnonneg : ∀ out ∈ tx.vout, 0 ≤ out.nValue) :
    (∃ w, checkTxInputs tx view nSpendHeight = .ok (w, nFeeRet)) ↔
      totalValue coins ≤ maxMoney ∧ ∀ out ∈ tx.vout, SpockAligned out.nValue := by
  have hvalue : valueIn view tx.prevouts = totalValue coins := by
    rw [hprev, valueIn_eq hunspent haligned]
  have hraw : 0 ≤ rawValueOut tx.vout := sum_nonneg (forall_mem_map.mpr hnonneg)
  have hrange : totalValue coins ≤ maxMoney → ∀ out ∈ tx.vout, moneyRange out.nValue = true := by
    intro hmax out hout
    have hle : out.nValue ≤ rawValueOut tx.vout :=
      single_le_sum (forall_mem_map.mpr hnonneg) _ (mem_map_of_mem hout)
    exact moneyRange_iff.mpr ⟨hnonneg out hout, by omega⟩
  rw [checkTxInputs_ok_iff, hvalue]
  constructor
  · rintro ⟨-, -, hmax, valueOut, hout, heq, -⟩
    obtain ⟨rfl, -⟩ := (getValueOut_eq_ok_iff (hrange hmax) valueOut).mp hout
    exact ⟨hmax, (quantizedValueOut_eq_raw_iff _).mp (by omega)⟩
  · rintro ⟨hmax, hout⟩
    have hquant := (quantizedValueOut_eq_raw_iff tx.vout).mpr hout
    refine ⟨not_isCoinBase ?_, ?_, hmax, quantizedValueOut tx.vout,
      (getValueOut_eq_ok_iff (hrange hmax) _).mpr ⟨rfl, by omega⟩, by omega,
      moneyRange_iff.mpr ⟨hfee, by omega⟩⟩
    · rw [hprev]
      exact forall_mem_map.mpr fun c hc => (hunspent c hc).not_null
    · intro i hi
      have ho : i.prevout ∈ outpoints coins := hprev ▸ mem_map_of_mem hi
      obtain ⟨c, hc, heq⟩ := mem_map.mp ho
      exact heq ▸ (hunspent c hc).spendable

/-- A signature of the wallet verifies exactly if its coin is a whole number of spocks. -/
theorem verify_iff_aligned {env : CreateEnv} {verify : CScript → ScriptExecutionContext → Bool}
    {flags : UInt32} (hscheme : CorrectScheme env verify flags) {nIn : Nat}
    (hlt : nIn < tx.vin.length) (hsigned : SignedWith env tx nIn c)
    (hprev : (tx.vin.get ⟨nIn, hlt⟩).prevout = c.outpoint)
    (hunspent : UnspentIn view nSpendHeight c) :
    verify (tx.vin.get ⟨nIn, hlt⟩).scriptSig (.ofView tx view nIn hlt) = true ↔
      SpockAligned c.txout.nValue := by
  obtain ⟨tx₀, hlt₀, txin, hsame, htxin, hsig⟩ := hsigned
  have hget : tx.vin.get ⟨nIn, hlt⟩ = txin := by
    rw [getElem?_eq_getElem hlt] at htxin
    exact Option.some.inj htxin
  have hcoin : (ofView tx view nIn hlt).coin.out = c.txout.quantized := by
    rw [coin_ofView, ← hunspent.out_eq, ← hprev]
    rfl
  have htoken : (ofView tx view nIn hlt).coin.out.tokenDataPtr =
      (ofOutput nIn c.txout tx₀ hlt₀).coin.out.tokenDataPtr := by
    rw [hcoin, coin_ofOutput]
    rfl
  have hpre := forkIdPreimage_wallet_iff flags hsame.symm (by rfl) htoken
  rw [hget, hscheme _ _ _ hsig _ (by rw [hcoin]; rfl), hpre, hcoin, coin_ofOutput]
  exact spockQuantize_eq_self_iff _

end Node

/-! ### What was created -/

section Created

variable {env : CreateEnv} {order : Order} {built : Built} {created : Created}
  {vecSend : List CRecipient} {request : Option Nat} {control : CCoinControl}
  {coinsel : CoinSelectionHint}

theorem unsignedWith_perm (env : CreateEnv) (order : Order) (sign : Bool) (built : Built) :
    (unsignedWith env order sign built).1.Perm built.setCoins ∧
      (unsignedWith env order sign built).2.1.vout.Perm built.vout ∧
      (unsignedWith env order sign built).2.1.prevouts =
        outpoints (unsignedWith env order sign built).1 := by
  refine ⟨?_, ?_, ?_⟩
  · simp only [unsignedWith]
    split
    · exact Perm.refl _
    · exact env.shuffle_perm _
  · simp only [unsignedWith]
    split
    · exact perm_insertionSort _ _
    · exact Perm.refl _
  · simp only [unsignedWith, prevouts, outpoints, map_map]
    rfl

/-- The transaction after the loop: the coins in some order, signed one after the
other, and the outputs in some order. -/
theorem finish_ok (h : finish env order true built = .ok created) :
    created.nFeeRet = built.nFeeRet ∧ created.tx.vout.Perm built.vout ∧
      ∃ coins : List CInputCoin, coins.Perm built.setCoins ∧
        created.tx.prevouts = outpoints coins ∧
        ∀ j c, coins[j]? = some c → SignedWith env created.tx j c := by
  obtain ⟨hcoins, hvout, hvin⟩ := unsignedWith_perm env order true built
  unfold finish at h
  obtain ⟨tx, hsign, h⟩ := Outcome.bind_ok_iff.mp h
  simp only at h
  split at h
  · cases h
  cases h
  rw [signInputs, if_pos rfl] at hsign
  obtain ⟨hsame, -, hsigned⟩ := signAll_spec hsign
  refine ⟨rfl, ?_, _, hcoins, ?_, ?_⟩
  · exact hsame.vout ▸ hvout
  · exact hsame.prevouts_eq.symm.trans hvin
  · intro j c hc
    obtain ⟨tx₀, hlt, txin, hsame₀, htxin, hsig⟩ := hsigned j c hc
    rw [Nat.zero_add] at htxin
    simp only [Nat.zero_add] at hsig
    exact ⟨tx₀, _, txin, ⟨hsame₀.vin, hsame₀.vout, hsame₀.nVersion, hsame₀.nLockTime⟩, htxin, hsig⟩

theorem createTransaction_ok {sign : Bool}
    (h : createTransaction env vecSend request control sign coinsel = some (.ok created)) :
    ∃ order built, prepare env vecSend request control coinsel = .ok order ∧
      runLoop env order = some (.ok built) ∧ finish env order sign built = .ok created := by
  unfold createTransaction at h
  split at h
  · cases h
  next order hprepare =>
  obtain ⟨result, hloop, h⟩ := Option.map_eq_some_iff.mp h
  obtain ⟨built, rfl, hfinish⟩ := Outcome.bind_ok_iff.mp h
  exact ⟨order, built, hprepare, hloop, hfinish⟩

theorem SpockAligned.dvd {a : Int} (h : SpockAligned a) : spockSats ∣ a :=
  Int.dvd_of_tmod_eq_zero h

theorem SpockAligned.of_dvd {a : Int} (h : spockSats ∣ a) : SpockAligned a :=
  Int.tmod_eq_zero_of_dvd h

theorem dvd_sum_of_aligned {l : List Int} (h : ∀ a ∈ l, SpockAligned a) : spockSats ∣ l.sum :=
  dvd_sum fun a ha => (h a ha).dvd

/-- With whole coins, the outputs are whole spocks exactly under the condition. -/
theorem LastTurn.aligned_iff {s : LoopState} {outs : List CTxOut} {value : Int} {nBytes : Nat}
    (hp : order.Prepared env) (h : LastTurn env order s outs value nBytes built)
    (hcoins : ∀ c ∈ built.setCoins, SpockAligned c.txout.nValue) :
    (∀ out ∈ built.vout, SpockAligned out.nValue) ↔ WholeSpocks env order outs nBytes built := by
  have hvalue : spockSats ∣ value := by
    rw [h.selected.value_eq]
    exact dvd_sum_of_aligned (forall_mem_map.mpr hcoins)
  obtain ⟨hnone, hvout, -⟩ | ⟨p, hle, change, hsome, hvout, -, hcase⟩ := h.placed
  · rw [hvout]
    exact ⟨fun hout => ⟨hcoins, hout, fun hc => absurd hnone hc⟩, fun hw => hw.recipients⟩
  · have hmem : ∀ out, out ∈ built.vout ↔
        out = { nValue := change, scriptPubKey := order.scriptChange } ∨ out ∈ outs := by
      intro out
      rw [hvout, (perm_insertIdx _ outs hle).mem_iff, mem_cons]
    -- whole recipients: the change is whole if and only if what it lacks is
    have hchange : (∀ out ∈ outs, SpockAligned out.nValue) →
        (SpockAligned change ↔ SpockAligned (if order.nSubtractFeeFromAmount = 0 then
          env.policy.getMinimumFee nBytes else order.nValue)) := by
      intro houts
      have hraw : spockSats ∣ rawValueOut outs := dvd_sum_of_aligned (forall_mem_map.mpr houts)
      have heq := hp.rawValueOut_eq h.outs_eq
      split at hcase
      next hzero =>
        rw [if_pos hzero, sub_zero] at heq
        rw [if_pos hzero, hcase.2, ← heq]
        constructor
        · intro ha
          exact .of_dvd ((dvd_sub_right (dvd_sub hvalue hraw)).mp ha.dvd)
        · intro ha
          exact .of_dvd (dvd_sub (dvd_sub hvalue hraw) ha.dvd)
      next hpos =>
        rw [if_neg hpos, hcase.2]
        constructor
        · intro ha
          exact .of_dvd ((dvd_sub_right hvalue).mp ha.dvd)
        · intro ha
          exact .of_dvd (dvd_sub hvalue ha.dvd)
    constructor
    · intro hall
      have houts : ∀ out ∈ outs, SpockAligned out.nValue :=
        fun out hout => hall out ((hmem out).mpr (Or.inr hout))
      exact ⟨hcoins, houts, fun _ => (hchange houts).mp (hall _ ((hmem _).mpr (Or.inl rfl)))⟩
    · intro hw out hout
      rcases (hmem out).mp hout with rfl | hout
      · exact (hchange hw.recipients).mpr (hw.change (by rw [hsome]; simp))
      · exact hw.recipients out hout

/-- **When the wallet and the node agree.** Whatever coins are selected: the scriptSigs verify
against the stored coins and `CheckTxInputs` computes the fee that was returned, exactly if in the
last turn the coins, the recipients' amounts and, with change, the fee are whole spocks, and the
coins are worth an amount. The fee is never below the minimum fee for the size. -/
theorem createTransaction_agrees_iff {B : Type} [CCoinsView B] (env : CreateEnv)
    (vecSend : List CRecipient) (request : Option Nat) (control : CCoinControl)
    (coinsel : CoinSelectionHint) (created : Created)
    (verify : CScript → ScriptExecutionContext → Bool) (flags : UInt32)
    (view : CCoinsViewCache B) (nSpendHeight : Nat) (hscheme : CorrectScheme env verify flags)
    (hunspent : ∀ c, env.wallet.Offers
      (env.availableCoins coinsel (vecSend.map (·.nAmount)).sum) control c →
        UnspentIn view nSpendHeight c)
    (h : createTransaction env vecSend request control true coinsel = some (.ok created)) :
    ∃ order s outs value nBytes built, prepare env vecSend request control coinsel = .ok order ∧
        LastTurn env order s outs value nBytes built ∧
        created.tx.prevouts.Perm (outpoints built.setCoins) ∧
        created.tx.vout.Perm built.vout ∧
        (Agreed verify view nSpendHeight created ↔
          WholeSpocks env order outs nBytes built ∧ value ≤ maxMoney) ∧
        ∀ n ≤ nBytes, env.policy.getMinimumFee n ≤ created.nFeeRet := by
  obtain ⟨order, built, hprepare, hloop, hfinish⟩ := createTransaction_ok h
  obtain ⟨hp, hsend, hcontrol, -, havail, -⟩ := prepare_ok hprepare
  obtain ⟨s, outs, value, nBytes, hlast⟩ := runLoop_lastTurn hp hloop
  obtain ⟨hfee, hvout, coins, hcoins, hprev, hsigned⟩ := finish_ok hfinish
  obtain ⟨hbalance, hnonneg, houtputs⟩ := hlast.balanced hp
  have hcoinsUnspent : ∀ c ∈ coins, UnspentIn view nSpendHeight c := by
    intro c hc
    have hoffer := hlast.selected.offered c (hcoins.mem_iff.mp hc)
    rw [havail, hcontrol, hp.nValue_eq, hsend] at hoffer
    exact hunspent c hoffer
  refine ⟨order, s, outs, value, nBytes, built, hprepare, hlast, ?_, hvout, ?_, ?_⟩
  · rw [hprev]
    exact hcoins.map _
  · -- the signatures say that the coins are whole, then the fee that the outputs are
    have hverify : (∀ nIn (hlt : nIn < created.tx.vin.length),
        verify (created.tx.vin.get ⟨nIn, hlt⟩).scriptSig (.ofView created.tx view nIn hlt) = true) ↔
        ∀ c ∈ built.setCoins, SpockAligned c.txout.nValue := by
      have hlen : created.tx.vin.length = coins.length := by
        have := congrArg length hprev
        simpa [prevouts, outpoints] using this
      have hinput : ∀ nIn (hlt : nIn < created.tx.vin.length) (hlt' : nIn < coins.length),
          verify (created.tx.vin.get ⟨nIn, hlt⟩).scriptSig
            (.ofView created.tx view nIn hlt) = true ↔
          SpockAligned (coins.get ⟨nIn, hlt'⟩).txout.nValue := by
        intro nIn hlt hlt'
        refine verify_iff_aligned hscheme hlt
          (hsigned nIn _ (getElem?_eq_getElem hlt')) ?_ (hcoinsUnspent _ (get_mem _ _))
        have hget := congrArg (fun l => l[nIn]?) hprev
        simp only [prevouts, outpoints, getElem?_map,
          getElem?_eq_getElem hlt, getElem?_eq_getElem hlt', Option.map_some,
          Option.some.injEq] at hget
        exact hget
      constructor
      · intro hall c hc
        obtain ⟨⟨nIn, hlt⟩, rfl⟩ := get_of_mem (hcoins.mem_iff.mpr hc)
        exact (hinput nIn (hlen ▸ hlt) hlt).mp (hall nIn _)
      · intro hall nIn hlt
        exact (hinput nIn hlt (hlen ▸ hlt)).mpr
          (hall _ (hcoins.mem_iff.mp (get_mem coins ⟨nIn, hlen ▸ hlt⟩)))
    have hnode : (∀ c ∈ built.setCoins, SpockAligned c.txout.nValue) →
        ((∃ w, checkTxInputs created.tx view nSpendHeight = .ok (w, created.nFeeRet)) ↔
          value ≤ maxMoney ∧ WholeSpocks env order outs nBytes built) := by
      intro haligned
      have htotal : totalValue coins = value := by
        rw [hlast.selected.value_eq, totalValue_perm hcoins]
      have hraw : rawValueOut created.tx.vout = rawValueOut built.vout := (hvout.map _).sum_eq
      rw [checkTxInputs_iff_aligned hprev hcoinsUnspent
        (fun c hc => haligned c (hcoins.mem_iff.mp hc)) (by rw [hraw, htotal, hfee, hbalance])
        (hfee ▸ hnonneg) (fun out hout => houtputs out (hvout.mem_iff.mp hout)), htotal,
        ← hlast.aligned_iff hp haligned]
      exact and_congr_right fun _ => forall_congr' fun out => by rw [hvout.mem_iff]
    unfold Agreed
    rw [hverify]
    constructor
    · rintro ⟨haligned, hinputs⟩
      exact ((hnode haligned).mp hinputs).symm
    · rintro ⟨hwhole, hmax⟩
      exact ⟨hwhole.coins, (hnode hwhole.coins).mpr ⟨hmax, hwhole⟩⟩
  · intro n hn
    rw [hfee]
    exact (env.policy.getMinimumFee_mono hn).trans hlast.minimum_le

end Created

/-! ### A wallet with one coin

The wallet has one coin of `value`, and sends 9 coins of it. The fee rate is `rate`,
and every transaction is taken to have 200 bytes. -/

variable (rate : Nat) (value change : Int)

namespace OneCoin

/-- A script of the usual length. -/
def script : CScript := replicate 25 0x51

/-- The transaction that pays the wallet. -/
def walletTx (value : Int) : CTransaction :=
  { vin := [], vout := [{ nValue := value, scriptPubKey := script }], hash := 7 }

/-- Its output. -/
def output (value : Int) : COutput :=
  { tx := walletTx value, i := 0, fSpendable := true, inRange := Nat.zero_lt_one }

/-- A solver that gives up branch and bound, and otherwise takes all coins. -/
def solver : Solver where
  selectCoinsMinConf := fun _ target _ _ vCoins useBnb =>
    let coins := vCoins.map COutput.getInputCoin
    if useBnb = false ∧ target ≤ totalValue coins ∧ (outpoints coins).Nodup then some coins
    else none
  mem_of_some := by
    intro _ _ _ _ _ _ coins h c hc
    simp only [Option.ite_none_right_eq_some] at h
    exact Option.some.inj h.2 ▸ hc
  nodup_of_some := by
    intro _ _ _ _ _ _ coins h
    simp only [Option.ite_none_right_eq_some] at h
    exact Option.some.inj h.2 ▸ h.1.2.2
  le_of_some := by
    intro _ _ _ _ _ _ coins h
    simp only [Option.ite_none_right_eq_some] at h
    exact Option.some.inj h.2 ▸ h.1.2.1

/-- Fixed fee rates. -/
def policy : FeePolicy where
  overrideFeeRate := none
  payTxFee := ⟨rate⟩
  estimateFee := ⟨0⟩
  fallbackFee := ⟨0⟩
  minFee := ⟨1000⟩
  minRelayTxFee := ⟨1000⟩
  dustRelayFee := ⟨1000⟩
  maxTxFee := coin
  minRelayTxFee_nonneg := by decide
  dustRelayFee_nonneg := by decide
  maxTxFee_nonneg := by decide

/-- What the input signs. -/
def signedData : ForkIdPreimage where
  nVersion := 2
  hashPrevouts := some [⟨7, 0⟩]
  hashUtxos := none
  hashSequence := some [0xfffffffe]
  prevout := ⟨7, 0⟩
  tokenData := none
  scriptCode := []
  nValue := value
  nSequence := 0xfffffffe
  hashOutputs := some [{ nValue := change, scriptPubKey := script },
    { nValue := 9 * coin, scriptPubKey := script }]
  nLockTime := 0
  sigHashType := walletSigHashType

/-- Whether a context is the one that is signed. -/
def verify (_ : CScript) (ctx : ScriptExecutionContext) : Bool :=
  (forkIdPreimage [] ctx walletSigHashType 0).toOption = some (signedData value change)

/-- The wallet. `change` is what it is expected to keep. -/
def env (rate : Nat) : CreateEnv where
  wallet := { mapWallet := ∅, spendZeroConfChange := true, keyed := nofun }
  solver := solver
  policy := policy rate
  availableCoins := fun _ _ => [output value]
  scriptChange := .ok script
  calculateMaximumSignedTxSize := fun _ => 200
  getRandInt := fun _ _ => 0
  uninitialized := fun _ => false
  shuffle := id
  usebip69 := true
  nLockTime := 0
  produceSignature := fun ctx _ => if verify value change [] ctx then some [0x51] else none
  computeHash := fun _ => 99
  nodup_availableCoins := fun _ _ => nodup_singleton _
  getRandInt_lt := fun _ _ h => h
  shuffle_perm := fun _ => Perm.refl _

/-- Nine coins are sent. -/
def vecSend : List CRecipient := [{ scriptPubKey := script, nAmount := 9 * coin }]

/-- What `CreateTransaction` returns. -/
def created (rate : Nat) : Option Created :=
  (createTransaction (env value change rate) vecSend none { nodup := nodup_nil } true
    .default).bind Except.toOption

/-- The coins of the node: the one coin, as `AddCoins` stores it. -/
def view (value : Int) : CCoinsViewCache UtxoSet :=
  (addCoins { base := UtxoSet.empty 1 } (walletTx value) 1 false).toOption.getD
    { base := UtxoSet.empty 1 }

/-- The fee that the node computes. -/
def nodeFee (rate : Nat) : Option Int :=
  (created value change rate).bind fun c =>
    (checkTxInputs c.tx (view value) 10).toOption.map (·.2)

/-- Whether the node takes the signature. -/
def nodeVerifies (rate : Nat) : Option Bool :=
  (created value change rate).map fun c =>
    if h : 0 < c.tx.vin.length then
      verify value change (c.tx.vin.get ⟨0, h⟩).scriptSig (.ofView c.tx (view value) 0 h)
    else false

theorem correctScheme (rate : Nat) :
    CorrectScheme (env value change rate) (verify value change) 0 := by
  intro ctx scriptPubKey scriptSig hsig ctx' _
  have hctx : (forkIdPreimage [] ctx walletSigHashType 0).toOption =
      some (signedData value change) := by
    have hif : (if verify value change [] ctx then some [0x51] else none) = some scriptSig := hsig
    rw [Option.ite_none_right_eq_some] at hif
    exact of_decide_eq_true hif.1
  -- the script code is the only part that the two sides do not fix
  have hcode : ∀ (ctx : ScriptExecutionContext) (scriptCode : CScript),
      forkIdPreimage scriptCode ctx walletSigHashType 0 =
        (forkIdPreimage [] ctx walletSigHashType 0).map
          fun pre => { pre with scriptCode := scriptCode } := by
    intro ctx scriptCode
    have hutxos : walletSigHashType.hasUtxos = false := by decide
    simp only [forkIdPreimage, hutxos, Bool.false_and, Bool.false_eq_true, if_false]
    rfl
  have hok : ∀ ctx : ScriptExecutionContext,
      (forkIdPreimage [] ctx walletSigHashType 0).toOption = some (signedData value change) →
      forkIdPreimage [] ctx walletSigHashType 0 = .ok (signedData value change) := by
    intro ctx h
    cases hpre : forkIdPreimage [] ctx walletSigHashType 0 with
    | error e => exact absurd h (by rw [hpre]; simp [Except.toOption])
    | ok pre => rw [hpre] at h; exact congrArg _ (Option.some.inj h)
  rw [verify, decide_eq_true_eq]
  constructor
  · intro hctx' scriptCode
    rw [hcode, hcode ctx, hok ctx hctx, hok ctx' hctx']
  · intro hsame
    rw [hsame [], hctx]

theorem unspent (value : Int) (hlook : (view value).lookup ⟨7, 0⟩ =
      (walletTx value).createdCoin 1 ⟨7, 0⟩) (hpeek : (view value).peek ⟨7, 0⟩ =
      ⟨{ nValue := spockQuantize value, scriptPubKey := script }, 1, false⟩)
    (hrange : moneyRange (spockQuantize value) = true) (change : Int) (rate : Nat) (c : CInputCoin)
    (hc : (env value change rate).wallet.Offers [output value] { nodup := nodup_nil } c) :
    c = (output value).getInputCoin ∧ UnspentIn (view value) 10 c := by
  obtain hmem | ⟨o, ho, -⟩ := hc
  · obtain rfl : c = (output value).getInputCoin := by simpa using hmem
    refine ⟨rfl, ⟨walletTx value, 1, (output value).of_getInputCoin, hlook⟩, ?_, by rfl⟩
    change Spendable (view value) 10 ⟨7, 0⟩
    refine ⟨?_, ?_, ?_, ?_⟩
    · rw [hpeek]
      exact Coin.isSpent_of_moneyRange hrange
    · rw [hpeek]
      rfl
    · rw [hpeek]
      show isUnspendable script = false
      decide
    · rw [hpeek]
      exact hrange
  · cases ho

end OneCoin

open OneCoin in
/-- A whole coin, and a fee of two spocks: the node agrees. -/
theorem createTransaction_agrees_tenCoins :
    ∃ c, createTransaction (env (10 * coin) (coin - 200000) 1000000) vecSend none
        { nodup := nodup_nil } true .default = some (.ok c) ∧
      Agreed (verify (10 * coin) (coin - 200000)) (view (10 * coin)) 10 c := by
  have hsome : (created (10 * coin) (coin - 200000) 1000000).isSome = true := by decide +kernel
  obtain ⟨c, hc⟩ := Option.isSome_iff_exists.mp hsome
  obtain ⟨r, hr, hrc⟩ := Option.bind_eq_some_iff.mp hc
  obtain rfl := Outcome.ok_of_toOption hrc
  refine ⟨c, hr, ?_⟩
  have hunspent := unspent (10 * coin) (by decide +kernel) (by decide +kernel)
    (by decide +kernel) (coin - 200000) 1000000
  obtain ⟨order, s, outs, value, nBytes, built, hprepare, hlast, -, -, hiff, -⟩ :=
    createTransaction_agrees_iff _ vecSend none { nodup := nodup_nil } .default c _ 0
      (view (10 * coin)) 10 (correctScheme _ _ _) (fun c hc => (hunspent c hc).2) hr
  obtain ⟨-, hsend, hcontrol, -, havail, -⟩ := prepare_ok hprepare
  have hcoins : ∀ c ∈ built.setCoins, c = (output (10 * coin)).getInputCoin := by
    intro c hc
    have hoffer := hlast.selected.offered c hc
    rw [havail, hcontrol] at hoffer
    exact (hunspent c hoffer).1
  have hzero : order.nSubtractFeeFromAmount = 0 := by
    rw [(prepare_ok hprepare).1.nSubtract_eq, hsend]
    rfl
  obtain ⟨vout, -, hbytes⟩ := hlast.estimate
  refine hiff.mpr ⟨⟨?_, ?_, ?_⟩, ?_⟩
  · intro c hc
    rw [hcoins c hc]
    show SpockAligned (10 * coin)
    decide
  · intro out hout
    have houts := hlast.outs_eq
    rw [hsend, hzero, vecSend, recipientOutputs, recipientOutputs] at houts
    cases (Outcome.guard_ok.mp (Outcome.guard_ok.mp houts).2).2
    rw [mem_singleton.mp hout]
    show SpockAligned (9 * coin)
    decide
  · intro _
    rw [if_pos hzero, hbytes]
    show SpockAligned ((policy 1000000).getMinimumFee 200)
    decide +kernel
  · rw [hlast.selected.value_eq]
    -- one outpoint, so at most the one coin
    have hnd := hlast.selected.nodup
    rcases hset : built.setCoins with _ | ⟨a, _ | ⟨b, rest⟩⟩
    · decide
    · rw [hcoins a (by rw [hset]; exact mem_cons_self)]
      decide +kernel
    · rw [hset, outpoints, map_cons, nodup_cons] at hnd
      refine absurd ?_ hnd.1
      rw [hcoins a (by rw [hset]; exact mem_cons_self),
        hcoins b (by rw [hset]; exact mem_cons_of_mem _ mem_cons_self)]
      exact mem_cons_self

open OneCoin in
/-- One satoshi over a whole number of spocks, and the node does not take the signature. With a
whole coin and a fee of 200 satoshi, the change is rounded up and leaves no fee. -/
theorem createTransaction_disagrees :
    ((created (10 * coin + 1) (coin - 199999) 1000000).map (·.nFeeRet) = some 200000 ∧
      nodeVerifies (10 * coin + 1) (coin - 199999) 1000000 = some false) ∧
    (created (10 * coin) (coin - 200) 1000).map (·.nFeeRet) = some 200 ∧
      nodeFee (10 * coin) (coin - 200) 1000 = some 0 := by
  decide +kernel

end DeVault
