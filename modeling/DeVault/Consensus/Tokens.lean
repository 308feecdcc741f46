import DeVault.Lib.Matching
import DeVault.Primitives.Serialize
import DeVault.Script.Flags
import DeVault.UtxoSet

/-!
# Token rules of a transaction (`consensus/tokens.cpp`)

`CheckTxTokens` reads the inputs of a transaction once and its outputs once. From the inputs
it collects tallies: the amount of every token category spent, the ids that may become new
categories, and the non-fungible tokens, as counters of the immutable and mutable ones and as
the set of categories that may be minted. The outputs are then debited one after the other,
each non-fungible output taking the weakest token that can become it.

What the function decides is a statement about the transaction as a whole
(`TokenConservation`): sums of amounts per category, and for every category without a minting
token an injective assignment of its non-fungible outputs to its inputs. In between stands
`Category`, what is left of one category in the middle of the check.
-/

namespace DeVault

open List hiding count count_insert getElem?_insert
open Function Option Matching Outcome Ledger OutputData
open Outcome (require)

/-! ### Token payloads -/

namespace OutputData

variable (d : OutputData)

/-- `GetCapability`: the low nibble, `0` for none, `1` for mutable and `2` for minting. -/
def getCapability : UInt8 := d.bitfield &&& 0x0f

/-- `HasNFT`: the bit `0x20`. -/
def hasNFT : Bool := bitHasNFT d.bitfield

/-- `HasAmount`: the bit `0x10`. -/
def hasAmount : Bool := bitHasAmount d.bitfield

/-- `HasCommitmentLength`: the bit `0x40`. -/
def hasCommitmentLength : Bool := bitHasCommitmentLength d.bitfield

/-- `IsMintingNFT`. -/
def isMintingNFT : Bool := d.hasNFT && d.getCapability == 2

/-- `IsMutableNFT`. -/
def isMutableNFT : Bool := d.hasNFT && d.getCapability == 1

/-- `IsImmutableNFT`. -/
def isImmutableNFT : Bool := d.hasNFT && d.getCapability == 0

/-- `IsFungibleOnly`: no non-fungible token. -/
def isFungibleOnly : Bool := !d.hasNFT

end OutputData

/-- `HasUnparseableTokenData`: the prefix byte of a token, but no payload was read. -/
def CTxOut.hasUnparseableTokenData (o : CTxOut) : Bool :=
  o.tokenDataPtr.isNone && o.scriptPubKey.head? == some tokenPrefixByte

/-- `HasOutputsWithUnparseableTokenData`. -/
def CTransaction.hasOutputsWithUnparseableTokenData (tx : CTransaction) : Bool :=
  tx.vout.any fun out => out.hasUnparseableTokenData

/-- `HasTokenOutputs`. -/
def CTransaction.hasTokenOutputs (tx : CTransaction) : Bool :=
  tx.vout.any fun out => out.tokenDataPtr.isSome

namespace SafeAmount

/-- `validRange` of a sum or difference that did not overflow: the least `int64_t` is excluded. -/
def derivedIfInRange (x : Int) : Option Int :=
  if -2 ^ 63 < x ∧ x < 2 ^ 63 then some x else none

/-- `SafeAmount::safeAdd`. -/
def safeAdd (value x : Int) : Option Int := derivedIfInRange (value + x)

/-- `SafeAmount::safeSub`. -/
def safeSub (value x : Int) : Option Int := derivedIfInRange (value - x)

end SafeAmount

open SafeAmount

/-- `MAX_CONSENSUS_COMMITMENT_LENGTH_UPGRADE12` or `…_UPGRADE9`. -/
def maxCommitmentLength (scriptFlags : UInt32) : Nat :=
  if hasFlag scriptFlags scriptEnableMay2026 then 128 else 40

/-- `CheckTokenData`: the payload of one output, if there is one. -/
def checkTokenData (scriptFlags : UInt32) : Option OutputData → Except Fault Unit
  | none => .ok ()
  | some pdata => do
    require (isValidBitfield pdata.bitfield)
      (.dos 100 "bad-txns-token-bad-bitfield")
    require (!decide (pdata.amount < 0)) (.dos 100 "bad-txns-token-amount-negative")
    require (!(pdata.amount == 0 && pdata.isFungibleOnly))
      (.dos 100 "bad-txns-token-non-nft-amount-zero")
    require ((pdata.amount != 0) == pdata.hasAmount)
      (.dos 100 "bad-txns-token-amount-bitfield-mismatch")
    require (pdata.hasCommitmentLength == !pdata.commitment.isEmpty)
      (.dos 100 "bad-txns-token-commitment-bitfield-mismatch")
    if pdata.isFungibleOnly then
      require pdata.commitment.isEmpty (.dos 100 "bad-txns-token-fungible-with-commitment")
    else
      require (!decide (maxCommitmentLength scriptFlags < pdata.commitment.length))
        (.dos 100 "bad-txns-token-commitment-oversized")

/-! ### The tallies -/

/-- The local variables of `CheckTxTokens`. -/
structure TokenTally where
  potentialGenesisIds : Std.ExtTreeSet TxId := ∅
  inputAmountsByCategory : Std.ExtTreeMap TxId Int := ∅
  genesisAmountsByCategory : Std.ExtTreeMap TxId Int := ∅
  inputMintingIds : Std.ExtTreeSet TxId := ∅
  inputMutables : Std.ExtTreeMap TxId Nat := ∅
  inputImmutables : Std.ExtTreeMap TxId (Std.ExtTreeMap (List UInt8) Nat) := ∅

/-- A tally after `.value()`, which throws where the sum left the range; the function catches
the exception and rejects. -/
def valueOrOverflow (sum : Option Int) : Except Fault Int :=
  match sum with
  | some x => .ok x
  | none => .error (.dos 100 "bad-txns-token-amount-overflow")

namespace TokenTally

variable (s : TokenTally)

/-- An input with index 0 makes its transaction id a candidate for a new category. -/
def markGenesis (prevout : COutPoint) : Except Fault TokenTally :=
  if prevout.n = 0 then do
    require (!s.potentialGenesisIds.contains prevout.txid)
      (.dos 100 "bad-txns-inputs-duplicate")
    pure { s with potentialGenesisIds := s.potentialGenesisIds.insert prevout.txid }
  else pure s

/-- The counters of the immutable tokens of one category; `operator[]` makes an empty map. -/
def immutablesOf (id : TxId) : Std.ExtTreeMap (List UInt8) Nat :=
  (s.inputImmutables[id]?).getD ∅

variable (pdata : OutputData)

/-- Remember a non-fungible token that an input carries. -/
def rememberNFT : Except Fault TokenTally :=
  if pdata.hasNFT then
    if pdata.isImmutableNFT then
      let map := Ledger.increment (s.immutablesOf pdata.id) pdata.commitment
      .ok { s with inputImmutables := s.inputImmutables.insert pdata.id map }
    else if pdata.isMutableNFT then
      .ok { s with inputMutables := Ledger.increment s.inputMutables pdata.id }
    else if pdata.isMintingNFT then
      .ok { s with inputMintingIds := s.inputMintingIds.insert pdata.id }
    else .error (.assertion "false")
  else .ok s

/-- Tally the token an input carries. -/
def creditInput : Except Fault TokenTally := do
  let catAmount := (s.inputAmountsByCategory[pdata.id]?).getD 0
  let catAmount ← valueOrOverflow (safeAdd catAmount pdata.amount)
  { s with inputAmountsByCategory :=
      s.inputAmountsByCategory.insert pdata.id catAmount }.rememberNFT pdata

/-- The amount of an output is debited from its category, or credited to a new category. The
flag says which (`isGenesis`). -/
def debitOutput : Except Fault (TokenTally × Bool) :=
  match s.inputAmountsByCategory[pdata.id]?, s.potentialGenesisIds.contains pdata.id with
  | some _, true => .error (.dos 100 "bad-txns-token-dupe-genesis")
  | some tally, false => do
    let tally ← valueOrOverflow (safeSub tally pdata.amount)
    require (!decide (tally < 0)) (.dos 100 "bad-txns-token-in-belowout")
    pure ({ s with inputAmountsByCategory := s.inputAmountsByCategory.insert pdata.id tally },
      false)
  | none, true => do
    let tally := (s.genesisAmountsByCategory[pdata.id]?).getD 0
    let tally ← valueOrOverflow (safeAdd tally pdata.amount)
    require (!decide (tally < 0)) (.dos 100 "bad-txns-token-in-belowout")
    pure ({ s with genesisAmountsByCategory :=
              s.genesisAmountsByCategory.insert pdata.id tally }, true)
  | none, false => .error (.dos 100 "bad-txns-token-invalid-category")

/-- An immutable output takes an immutable input with the same commitment. -/
def spendImmutable : Option TokenTally :=
  if pdata.isImmutableNFT then
    match s.inputImmutables[pdata.id]? with
    | none => none
    | some map =>
      match map[pdata.commitment]? with
      | none => none
      | some count =>
        if 0 < count then
          let map := map.insert pdata.commitment (count - 1)
          some { s with inputImmutables := s.inputImmutables.insert pdata.id map }
        else none
  else none

/-- Any output below minting takes a mutable input. -/
def spendMutable : Option TokenTally :=
  if pdata.isMintingNFT then none
  else
    match s.inputMutables[pdata.id]? with
    | none => none
    | some count =>
      if 0 < count then
        some { s with inputMutables := s.inputMutables.insert pdata.id (count - 1) }
      else none

/-- A minting input makes any number of tokens of its category, and is not used up. -/
def mint : Option TokenTally :=
  if s.inputMintingIds.contains pdata.id then some s else none

/-- The transfer of a non-fungible token to an output. -/
def spendNFT : Except Fault TokenTally :=
  match (s.spendImmutable pdata <|> s.spendMutable pdata) <|> s.mint pdata with
  | some s' => .ok s'
  | none => .error (.dos 100 "bad-txns-token-nft-ex-nihilo")

end TokenTally

section

variable {B : Type} [CCoinsView B]

/-- One turn of the loop over the inputs. -/
def scanInput (scriptFlags : UInt32) (firstTokenEnabledBlockHeight : Int)
    (view : CCoinsViewCache B) (s : TokenTally) (txin : CTxIn) : Except Fault TokenTally := do
  let coin := (view.accessCoin txin.prevout).2
  require (!coin.isSpent) (.dos 100 "bad-txns-inputs-missingorspent")
  require (!coin.out.hasUnparseableTokenData) (.dos 100 "bad-txns-vin-tokenprefix")
  require (!(coin.out.tokenDataPtr.isSome &&
      decide ((coin.nHeight : Int) < firstTokenEnabledBlockHeight)))
    (.dos 100 "bad-txns-vin-token-created-pre-activation")
  let s ← s.markGenesis txin.prevout
  match coin.out.tokenDataPtr with
  | none => pure s
  | some pdata => do
    checkTokenData scriptFlags coin.out.tokenDataPtr
    s.creditInput pdata

/-- One turn of the loop over the outputs. -/
def scanOutput (scriptFlags : UInt32) (s : TokenTally) (out : CTxOut) : Except Fault TokenTally :=
  match out.tokenDataPtr with
  | none => .ok s
  | some pdata => do
    checkTokenData scriptFlags out.tokenDataPtr
    let (s, isGenesis) ← s.debitOutput pdata
    if pdata.hasNFT && !isGenesis then s.spendNFT pdata else pure s

/-- `CheckPreActivationSanity`: before the activation no coin with a token is spent. -/
def checkPreActivationSanity (tx : CTransaction) (view : CCoinsViewCache B) : Except Fault Unit :=
  if tx.isCoinBase then .ok ()
  else tx.vin.forM fun txin =>
    let coin := (view.accessCoin txin.prevout).2
    if coin.isSpent then .ok ()
    else require (!(coin.out.tokenDataPtr.isSome || coin.out.hasUnparseableTokenData))
      (.dos 100 "bad-txns-vin-tokenprefix-preactivation")

/-- `CheckTxTokens`. The view is not passed along: what a read shows does not depend on the reads
before it. -/
def checkTxTokens (tx : CTransaction) (view : CCoinsViewCache B) (scriptFlags : UInt32)
    (firstTokenEnabledBlockHeight : Int) : Except Fault Unit :=
  if !hasFlag scriptFlags scriptEnableTokens then checkPreActivationSanity tx view
  else if tx.hasOutputsWithUnparseableTokenData then
    .error (.dos 100 "bad-txns-vout-tokenprefix")
  else if tx.isCoinBase then
    require (!tx.hasTokenOutputs) (.dos 100 "bad-txns-coinbase-has-tokens")
  else do
    let s ← tx.vin.foldlM (scanInput scriptFlags firstTokenEnabledBlockHeight view) {}
    let _ ← tx.vout.foldlM (scanOutput scriptFlags) s
    pure ()

end

/-! ### Well-formed payloads -/

/-- What `CheckTokenData` asks of a payload: a valid bitfield that is true to the amount and the
commitment, no negative amount, and a commitment within the limit. -/
structure OutputData.WellFormed (scriptFlags : UInt32) (d : OutputData) : Prop where
  bitfield : isValidBitfield d.bitfield = true
  amount_nonneg : 0 ≤ d.amount
  hasAmount_iff : d.hasAmount = true ↔ d.amount ≠ 0
  hasCommitmentLength_iff : d.hasCommitmentLength = true ↔ d.commitment ≠ []
  commitment_le : d.hasNFT = true → d.commitment.length ≤ maxCommitmentLength scriptFlags

/-- A valid bitfield without a non-fungible token has an amount and nothing else. -/
theorem OutputData.fungible_of_isValidBitfield : ∀ bf : UInt8, isValidBitfield bf = true →
    bitHasNFT bf = false → bitHasAmount bf = true ∧ bitHasCommitmentLength bf = false := by
  decide +kernel

/-- A valid bitfield has one of the three capabilities. -/
theorem OutputData.capability_of_isValidBitfield : ∀ bf : UInt8, isValidBitfield bf = true →
    bf &&& 0x0f = 0 ∨ bf &&& 0x0f = 1 ∨ bf &&& 0x0f = 2 := by
  decide +kernel

variable {scriptFlags : UInt32} {d : OutputData}

theorem checkTokenData_ok_iff :
    checkTokenData scriptFlags (some d) = .ok () ↔ d.WellFormed scriptFlags := by
  simp only [checkTokenData, bind_ok_iff, require_ok_iff]
  constructor
  · rintro ⟨-, hbits, -, hneg, -, -, -, hamt, -, hcom, hlast⟩
    refine ⟨hbits, by simpa using hneg, ?_, ?_, ?_⟩
    · rw [← beq_iff_eq.mp hamt]
      simp
    · rw [beq_iff_eq.mp hcom]
      simp
    · intro hnft
      rw [if_neg (by simp [isFungibleOnly, hnft]), require_ok_iff] at hlast
      simpa using hlast
  · intro h
    have hamt : (d.amount != 0) = d.hasAmount := by
      rw [Bool.eq_iff_iff, h.hasAmount_iff, bne_iff_ne]
    have hcom : d.hasCommitmentLength = !d.commitment.isEmpty := by
      rw [Bool.eq_iff_iff, h.hasCommitmentLength_iff]
      simp
    refine ⟨(), h.bitfield, (), by simpa using h.amount_nonneg, (), ?_, (), by simp [hamt], (),
      by simp [hcom], ?_⟩
    · -- a fungible payload has its amount bit set, hence an amount
      by_cases hnft : d.hasNFT = true
      · simp [isFungibleOnly, hnft]
      · have hbit := (fungible_of_isValidBitfield _ h.bitfield
          (Bool.eq_false_of_not_eq_true hnft)).1
        have hne : d.amount ≠ 0 := h.hasAmount_iff.mp hbit
        simp [hne]
    · split
      next hft =>
        have hnft : d.hasNFT = false := by simpa [isFungibleOnly] using hft
        have hbit := (fungible_of_isValidBitfield _ h.bitfield hnft).2
        have hempty : d.commitment = [] := by
          by_contra hne
          have := h.hasCommitmentLength_iff.mpr hne
          rw [hasCommitmentLength, hbit] at this
          cases this
        simp [require, hempty]
      next hft =>
        rw [require_ok_iff]
        simpa using h.commitment_le (by simpa [isFungibleOnly] using hft)

/-! ### Non-fungible tokens and what they can become -/

/-- A non-fungible token, up to what the rules look at. -/
inductive Nft where
  | immutable (commitment : List UInt8)
  | mutable
  | minting
  deriving DecidableEq, Repr

/-- The non-fungible token of a payload. -/
def OutputData.nft (d : OutputData) : Option Nft :=
  if d.isImmutableNFT then some (.immutable d.commitment)
  else if d.isMutableNFT then some .mutable
  else if d.isMintingNFT then some .minting
  else none

/-- Which input token an output token may come from, where nothing is minted: an immutable token
from its equal or a mutable one, a mutable token from a mutable one, a minting token from none. -/
def Nft.Admissible : Nft → Nft → Prop
  | .immutable c, .immutable c' => c = c'
  | .immutable _, .mutable => True
  | .mutable, .mutable => True
  | _, _ => False

variable {o : Nft}

namespace Nft

theorem Admissible.ne_minting {i : Nft} (h : Admissible o i) : i ≠ .minting := by
  rintro rfl
  cases o <;> exact h

theorem admissible_immutable_iff {c : List UInt8} :
    Admissible o (.immutable c) ↔ o = .immutable c := by
  cases o with
  | immutable c' => simp [Admissible]
  | mutable => simp [Admissible]
  | minting => simp [Admissible]

theorem admissible_mutable_iff : Admissible o .mutable ↔ o ≠ .minting := by
  cases o with
  | immutable c => simp [Admissible]
  | mutable => simp [Admissible]
  | minting => simp [Admissible]

end Nft

open Nft

/-- The four kinds of a well-formed payload, with the answers of its predicates. -/
theorem OutputData.WellFormed.nft_cases (h : d.WellFormed scriptFlags) :
    (d.hasNFT = false ∧ d.nft = none) ∨
    (d.hasNFT = true ∧ d.isImmutableNFT = true ∧ d.isMintingNFT = false ∧
      d.nft = some (.immutable d.commitment)) ∨
    (d.hasNFT = true ∧ d.isImmutableNFT = false ∧ d.isMutableNFT = true ∧
      d.isMintingNFT = false ∧ d.nft = some .mutable) ∨
    (d.hasNFT = true ∧ d.isImmutableNFT = false ∧ d.isMutableNFT = false ∧
      d.isMintingNFT = true ∧ d.nft = some .minting) := by
  have hcap := capability_of_isValidBitfield _ h.bitfield
  cases hnft : d.hasNFT with
  | false =>
    simp [nft, isImmutableNFT, isMutableNFT, isMintingNFT, hnft]
  | true =>
    rcases hcap with hcap | hcap | hcap <;>
      simp [nft, isImmutableNFT, isMutableNFT, isMintingNFT, hnft, getCapability, hcap]

/-! ### Categories

What the tallies say about one category, and what a list of its outputs has to satisfy. -/

theorem filterMap_cons_eq_toList_append {α β : Type} (f : α → Option β) (a : α) (l : List α) :
    (a :: l).filterMap f = (f a).toList ++ l.filterMap f := by
  cases h : f a with
  | none => simp [h]
  | some x => simp [h]

/-- One category in the middle of the check: what is left of the amount that came in (`none` if no
input carries the category), whether it may be new, the amount created in it so far, and the
non-fungible tokens left. -/
structure Category where
  inherited : Option Int
  genesis : Bool
  created : Int
  stock : List Nft

variable {c : Category} {l : List OutputData} {stock : List Nft}

namespace Category

/-- The total amount of a list of payloads. -/
def total (l : List OutputData) : Int := (l.map fun d => d.amount).sum

/-- The non-fungible tokens of a list of payloads. -/
def nfts (l : List OutputData) : List Nft := l.filterMap fun d => d.nft

/-- What remains of a category allows for these outputs of it. -/
@[mk_iff] structure Accepts (c : Category) (l : List OutputData) : Prop where
  known : l ≠ [] → Xor (c.inherited.isSome = true) (c.genesis = true)
  amount_le : ∀ a, c.inherited = some a → total l ≤ a
  created_lt : c.genesis = true → c.created + total l < 2 ^ 63
  served : c.inherited.isSome = true → minting ∉ c.stock →
    Serves Nft.Admissible (nfts l) c.stock

/-- The amounts of a category are amounts of tokens. -/
structure Sane (c : Category) : Prop where
  inherited : ∀ a, c.inherited = some a → 0 ≤ a ∧ a < 2 ^ 63
  created : 0 ≤ c.created ∧ c.created < 2 ^ 63

@[simp] theorem total_nil : total [] = 0 := rfl

@[simp] theorem total_cons : total (d :: l) = d.amount + total l := by
  simp [total]

theorem nfts_cons : nfts (d :: l) = d.nft.toList ++ nfts l :=
  filterMap_cons_eq_toList_append _ d l

theorem total_nonneg (h : ∀ d ∈ l, 0 ≤ d.amount) : 0 ≤ total l := by
  exact sum_nonneg (forall_mem_map.mpr h)

theorem accepts_nil (h : c.Sane) : c.Accepts [] where
  known hne := absurd rfl hne
  amount_le a ha := (h.inherited a ha).1
  created_lt _ := by simpa using h.created.2
  served _ _ := serves_nil _

/-- The stock after the greedy rule: the token taken can serve nothing that the others it could have
taken cannot. -/
def IsWeakest (stock : List Nft) (o i : Nft) : Prop :=
  i ∈ stock ∧ Nft.Admissible o i ∧
    ∀ j ∈ stock, Nft.Admissible o j → ∀ o', Nft.Admissible o' i → Nft.Admissible o' j

theorem isWeakest_immutable {c : List UInt8} (h : .immutable c ∈ stock) :
    IsWeakest stock (.immutable c) (.immutable c) := by
  refine ⟨h, rfl, ?_⟩
  intro j _ hj o' ho'
  rw [admissible_immutable_iff.mp ho']
  exact hj

/-- A mutable token is the weakest for an output whose equal is not in stock. -/
theorem isWeakest_mutable (h : .mutable ∈ stock) (ho : o ≠ .minting)
    (hno : ∀ c, o = .immutable c → .immutable c ∉ stock) : IsWeakest stock o .mutable := by
  refine ⟨h, admissible_mutable_iff.mpr ho, ?_⟩
  intro j hj hoj o' ho'
  cases j with
  | immutable c => exact absurd hj (hno c (admissible_immutable_iff.mp hoj))
  | mutable => exact ho'
  | minting => exact absurd rfl hoj.ne_minting

/-- Neither its equal nor a mutable token is in stock for an output. -/
theorem not_admissible (hmut : o ≠ .minting → .mutable ∉ stock)
    (hno : ∀ c, o = .immutable c → .immutable c ∉ stock) : ∀ i ∈ stock, ¬Nft.Admissible o i := by
  intro i hi hadm
  cases i with
  | immutable c => exact hno c (admissible_immutable_iff.mp hadm) hi
  | mutable => exact hmut (admissible_mutable_iff.mp hadm) hi
  | minting => exact hadm.ne_minting rfl

/-- The category without one of its tokens. -/
def take (c : Category) (i : Nft) : Category := { c with stock := c.stock.erase i }

/-- The category after an amount was debited from what came in. -/
def debit (c : Category) (amt : Int) : Category :=
  { c with inherited := c.inherited.map fun a => a - amt }

@[simp] theorem debit_stock (amt : Int) : (c.debit amt).stock = c.stock := rfl

/-- The category after an amount was created in it. -/
def create (c : Category) (amt : Int) : Category := { c with created := c.created + amt }

/-- **One output less to place.** The category `c'` that remains after an output `d` accepts the
others exactly when `c` accepts all, if the amounts are adjusted and the stock serves the others
exactly when it served all. -/
theorem accepts_cons_iff {c' : Category}
    (hknown : Xor (c.inherited.isSome = true) (c.genesis = true))
    (hin : c'.inherited = c.inherited.map fun a => a - d.amount) (hgen : c'.genesis = c.genesis)
    (hcr : c.genesis = true → c'.created = c.created + d.amount)
    (hmint : minting ∈ c'.stock ↔ minting ∈ c.stock)
    (hstock : c.inherited.isSome = true → minting ∉ c.stock →
      (Serves Nft.Admissible (nfts (d :: l)) c.stock ↔ Serves Nft.Admissible (nfts l) c'.stock)) :
    c.Accepts (d :: l) ↔ c'.Accepts l := by
  have hsome : c'.inherited.isSome = c.inherited.isSome := by rw [hin, isSome_map]
  have hamount : (∀ a, c.inherited = some a → total (d :: l) ≤ a) ↔
      ∀ a, c'.inherited = some a → total l ≤ a := by
    rw [hin]
    cases c.inherited with
    | none => simp
    | some a => simp [le_sub_iff_add_le']
  rw [accepts_iff, accepts_iff, hsome, hgen, hmint, hamount]
  refine and_congr ⟨fun _ _ => hknown, fun _ _ => hknown⟩ (and_congr .rfl (and_congr ?_ ?_))
  · refine forall_congr' fun hg => ?_
    rw [hcr hg, total_cons, add_assoc]
  · exact forall_congr' fun hs => forall_congr' fun hm => hstock hs hm

/-- An output without a non-fungible token of an inherited category. -/
theorem accepts_cons_debit (hin : c.inherited.isSome = true) (hgen : c.genesis = false)
    (hnft : d.nft = none ∨ minting ∈ c.stock) :
    c.Accepts (d :: l) ↔ (c.debit d.amount).Accepts l := by
  refine accepts_cons_iff (.inl ⟨hin, by simp [hgen]⟩) rfl rfl (fun h => ?_) .rfl ?_
  · exact absurd h (by simp [hgen])
  · intro _ hm
    rw [nfts_cons, hnft.resolve_right hm]
    exact .rfl

/-- An output that takes the weakest token. -/
theorem accepts_cons_take {i : Nft}
    (hin : c.inherited.isSome = true) (hgen : c.genesis = false) (hnft : d.nft = some o)
    (hi : IsWeakest c.stock o i) : c.Accepts (d :: l) ↔ ((c.debit d.amount).take i).Accepts l := by
  refine accepts_cons_iff (.inl ⟨hin, by simp [hgen]⟩) rfl rfl (fun h => ?_) ?_ ?_
  · exact absurd h (by simp [hgen])
  · exact mem_erase_of_ne (Ne.symm hi.2.1.ne_minting)
  · intro _ _
    rw [nfts_cons, hnft]
    exact serves_cons_iff hi.1 hi.2.1 hi.2.2

/-- An output of a new category. -/
theorem accepts_cons_create (hin : c.inherited = none) (hgen : c.genesis = true) :
    c.Accepts (d :: l) ↔ (c.create d.amount).Accepts l := by
  refine accepts_cons_iff (.inr ⟨hgen, by simp [hin]⟩) ?_ rfl (fun _ => rfl) .rfl ?_
  · simp [create, hin]
  · intro hs
    exact absurd hs (by simp [hin])

end Category

open Category

/-! ### The tallies as categories -/

variable {s : TokenTally} {id : TxId} {a amt : Int}

namespace TokenTally

variable {s : TokenTally} {b : TxId → Category} {d : OutputData} {scriptFlags : UInt32}

/-- The tallies hold what `c` says of the category `id`. The stock is a list here and counters
there. -/
structure Holds (s : TokenTally) (id : TxId) (c : Category) : Prop where
  inherited : s.inputAmountsByCategory[id]? = c.inherited
  genesis : s.potentialGenesisIds.contains id = c.genesis
  created : (s.genesisAmountsByCategory[id]?).getD 0 = c.created
  minting : s.inputMintingIds.contains id = true ↔ minting ∈ c.stock
  mutables : Ledger.count s.inputMutables id = c.stock.count .mutable
  immutables : ∀ x, Ledger.count (s.immutablesOf id) x = c.stock.count (.immutable x)

/-- The tallies hold what `b` says of every category. -/
def Represents (s : TokenTally) (b : TxId → Category) : Prop := ∀ id, s.Holds id (b id)

/-- A step that works on one category. -/
theorem Represents.update {s' : TokenTally} (h : s.Represents b)
    (hid : s'.Holds id c) (hother : ∀ id', id ≠ id' → s.Holds id' (b id') → s'.Holds id' (b id')) :
    s'.Represents (Function.update b id c) :=
  (forall_update_iff b fun id' c => s'.Holds id' c).mpr
    ⟨hid, fun id' hne => hother id' hne.symm (h id')⟩

theorem immutablesOf_insert (m : Std.ExtTreeMap (List UInt8) Nat)
    (id' : TxId) :
    { s with inputImmutables := s.inputImmutables.insert id m }.immutablesOf id' =
      if id = id' then m else s.immutablesOf id' := by
  simp only [immutablesOf, getElem?_insert]
  split <;> rfl

section

variable (h : s.Represents b)
include h

/-- New counters of the immutable tokens of a category, and its new stock. -/
theorem Represents.setImmutables {m : Std.ExtTreeMap (List UInt8) Nat}
    (hminting : minting ∈ stock ↔ minting ∈ (b id).stock)
    (hmutables : stock.count .mutable = (b id).stock.count .mutable)
    (himmutables : ∀ x, count m x = stock.count (.immutable x)) :
    { s with inputImmutables := s.inputImmutables.insert id m }.Represents
      (Function.update b id { b id with stock := stock }) := by
  refine h.update ?_ ?_
  · refine { h id with
      minting := (h id).minting.trans hminting.symm
      mutables := (h id).mutables.trans hmutables.symm
      immutables := fun x => ?_ }
    rw [immutablesOf_insert, if_pos rfl]
    exact himmutables x
  · intro id' hne hold
    refine { hold with immutables := fun x => ?_ }
    rw [immutablesOf_insert, if_neg hne]
    exact hold.immutables x

/-- A new counter of the mutable tokens of a category, and its new stock. -/
theorem Represents.setMutables {n : Nat} (hminting : minting ∈ stock ↔ minting ∈ (b id).stock)
    (hmutables : n = stock.count .mutable)
    (himmutables : ∀ x, stock.count (.immutable x) = (b id).stock.count (.immutable x)) :
    { s with inputMutables := s.inputMutables.insert id n }.Represents
      (Function.update b id { b id with stock := stock }) := by
  refine h.update ?_ ?_
  · refine { h id with
      minting := (h id).minting.trans hminting.symm
      mutables := ?_
      immutables := fun x => ((h id).immutables x).trans (himmutables x).symm }
    rw [count_insert, if_pos rfl]
    exact hmutables
  · intro id' hne hold
    refine { hold with mutables := ?_ }
    rw [count_insert, if_neg hne]
    exact hold.mutables

theorem Represents.setInherited (id : TxId) (x : Int) :
    { s with inputAmountsByCategory := s.inputAmountsByCategory.insert id x }.Represents
      (Function.update b id { b id with inherited := some x }) := by
  refine h.update ?_ ?_
  · refine { h id with inherited := ?_ }
    rw [getElem?_insert, if_pos rfl]
  · intro id' hne hold
    refine { hold with inherited := ?_ }
    rw [getElem?_insert, if_neg hne]
    exact hold.inherited

/-! ### Spending a non-fungible token -/

/-- An immutable token in stock is found and counted down. -/
theorem Represents.spendImmutable (himm : d.isImmutableNFT = true)
    (hmem : .immutable d.commitment ∈ (b d.id).stock) :
    ∃ s', s.spendImmutable d = some s' ∧
      s'.Represents (Function.update b d.id ((b d.id).take (.immutable d.commitment))) := by
  have hpos : 0 < count (s.immutablesOf d.id) d.commitment := by
    rw [(h d.id).immutables]
    exact count_pos_iff.mpr hmem
  cases hm : s.inputImmutables[d.id]? with
  | none => simp [immutablesOf, hm, count] at hpos
  | some m =>
    have hof : s.immutablesOf d.id = m := by simp [immutablesOf, hm]
    rw [hof] at hpos
    have hc := getElem?_of_count_pos hpos
    refine ⟨_, by simp only [TokenTally.spendImmutable, himm, hm, hc, hpos, if_true]; rfl, ?_⟩
    refine h.setImmutables (mem_erase_of_ne (by simp)) (count_erase_of_ne (by simp)) ?_
    intro x
    rw [count_insert, count_erase, ← (h d.id).immutables, hof]
    by_cases hx : d.commitment = x
    · subst hx
      simp
    · simp [hx]

theorem Represents.spendImmutable_eq_none
    (hno : d.isImmutableNFT = true → .immutable d.commitment ∉ (b d.id).stock) :
    s.spendImmutable d = none := by
  unfold TokenTally.spendImmutable
  split
  next himm =>
    have hzero : count (s.immutablesOf d.id) d.commitment = 0 := by
      rw [(h d.id).immutables]
      exact count_eq_zero.mpr (hno himm)
    cases hm : s.inputImmutables[d.id]? with
    | none => rfl
    | some m =>
      simp only [immutablesOf, hm, getD_some] at hzero
      cases hc : m[d.commitment]? with
      | none => simp [hc]
      | some n =>
        obtain rfl : n = 0 := by simpa [count, hc] using hzero
        simp [hc]
  · rfl

/-- A mutable token in stock is found and counted down. -/
theorem Represents.spendMutable (hmint : d.isMintingNFT = false)
    (hmem : .mutable ∈ (b d.id).stock) :
    ∃ s', s.spendMutable d = some s' ∧
      s'.Represents (Function.update b d.id ((b d.id).take .mutable)) := by
  have hpos : 0 < count s.inputMutables d.id := by
    rw [(h d.id).mutables]
    exact count_pos_iff.mpr hmem
  have hm := getElem?_of_count_pos hpos
  refine ⟨_, by simp only [TokenTally.spendMutable, hmint, hm, hpos, if_true]; rfl, ?_⟩
  refine h.setMutables (mem_erase_of_ne (by simp)) ?_
    fun x => count_erase_of_ne (by simp)
  rw [count_erase_self, ← (h d.id).mutables]

theorem Represents.spendMutable_eq_none
    (hno : d.isMintingNFT = false → .mutable ∉ (b d.id).stock) : s.spendMutable d = none := by
  unfold TokenTally.spendMutable
  split
  · rfl
  next hmint =>
    have hzero : count s.inputMutables d.id = 0 := by
      rw [(h d.id).mutables]
      exact count_eq_zero.mpr (hno (by simpa using hmint))
    cases hm : s.inputMutables[d.id]? with
    | none => rfl
    | some n =>
      obtain rfl : n = 0 := by simpa [count, hm] using hzero
      rfl

/-- An output with the token `o` takes the weakest token of its category that can become `o`; if
there is none it has to be minted. -/
theorem Represents.spendNFT_cases (hwf : d.WellFormed scriptFlags) (ho : d.nft = some o) :
    (∃ i s', Category.IsWeakest (b d.id).stock o i ∧ s.spendNFT d = .ok s' ∧
      s'.Represents (Function.update b d.id ((b d.id).take i))) ∨
    (∀ i ∈ (b d.id).stock, ¬Nft.Admissible o i) ∧
      s.spendNFT d = if minting ∈ (b d.id).stock then .ok s
        else .error (.dos 100 "bad-txns-token-nft-ex-nihilo") := by
  -- the last resort, once neither counter helped
  have hlast : s.spendImmutable d = none → s.spendMutable d = none →
      s.spendNFT d = if minting ∈ (b d.id).stock then .ok s
        else .error (.dos 100 "bad-txns-token-nft-ex-nihilo") := by
    intro himm hmut
    by_cases hmem : minting ∈ (b d.id).stock <;>
      simp [spendNFT, himm, hmut, mint, (h d.id).minting, hmem]
  rcases hwf.nft_cases with ⟨-, hnft⟩ | ⟨-, himm, hmint, hnft⟩ | ⟨-, himm, -, hmint, hnft⟩ |
      ⟨-, himm, -, hmint, hnft⟩ <;> rw [hnft] at ho <;> cases ho
  · -- an immutable output
    by_cases hmem : .immutable d.commitment ∈ (b d.id).stock
    · obtain ⟨s', hs', hrep⟩ := h.spendImmutable himm hmem
      exact .inl ⟨_, s', isWeakest_immutable hmem, by simp [spendNFT, hs'], hrep⟩
    · have hnone := h.spendImmutable_eq_none fun _ => hmem
      have hno : ∀ c, Nft.immutable d.commitment = .immutable c →
          .immutable c ∉ (b d.id).stock := by
        rintro c ⟨⟩
        exact hmem
      by_cases hmut : .mutable ∈ (b d.id).stock
      · obtain ⟨s', hs', hrep⟩ := h.spendMutable hmint hmut
        exact .inl ⟨_, s', isWeakest_mutable hmut (by simp) hno, by simp [spendNFT, hnone, hs'],
          hrep⟩
      · exact .inr ⟨not_admissible (fun _ => hmut) hno,
          hlast hnone (h.spendMutable_eq_none fun _ => hmut)⟩
  · -- a mutable output
    have hnone : s.spendImmutable d = none := by simp [TokenTally.spendImmutable, himm]
    by_cases hmut : .mutable ∈ (b d.id).stock
    · obtain ⟨s', hs', hrep⟩ := h.spendMutable hmint hmut
      exact .inl ⟨_, s', isWeakest_mutable hmut (by simp) (by simp),
        by simp [spendNFT, hnone, hs'], hrep⟩
    · exact .inr ⟨not_admissible (fun _ => hmut) (by simp),
        hlast hnone (h.spendMutable_eq_none fun _ => hmut)⟩
  · -- a minting output
    have hnone : s.spendImmutable d = none := by simp [TokenTally.spendImmutable, himm]
    exact .inr ⟨not_admissible (by simp) (by simp),
      hlast hnone (by simp [TokenTally.spendMutable, hmint])⟩

end

/-! ### Debiting an amount -/

theorem safeSub_cases (ha : 0 ≤ a ∧ a < 2 ^ 63) (hamt : 0 ≤ amt) :
    (safeSub a amt = some (a - amt) ∨ safeSub a amt = none ∧ a < amt) := by
  unfold safeSub derivedIfInRange
  split
  · exact .inl rfl
  · exact .inr ⟨rfl, by omega⟩

theorem safeAdd_of_lt (ha : 0 ≤ a) (hamt : 0 ≤ amt) (h : a + amt < 2 ^ 63) :
    safeAdd a amt = some (a + amt) := by
  unfold safeAdd derivedIfInRange
  rw [if_pos ⟨by omega, h⟩]

theorem safeAdd_of_le (h : 2 ^ 63 ≤ a + amt) : safeAdd a amt = none := by
  unfold safeAdd derivedIfInRange
  rw [if_neg (by omega)]

theorem debitOutput_inherited (hin : s.inputAmountsByCategory[d.id]? = some a)
    (hgen : s.potentialGenesisIds.contains d.id = false) (ha : 0 ≤ a ∧ a < 2 ^ 63)
    (hamt : 0 ≤ d.amount) :
    if d.amount ≤ a then
      s.debitOutput d = .ok
        ({ s with
            inputAmountsByCategory := s.inputAmountsByCategory.insert d.id (a - d.amount) }, false)
    else ∃ e, s.debitOutput d = .error e := by
  simp only [debitOutput, hin, hgen]
  rcases safeSub_cases ha hamt with hsub | ⟨hsub, hlt⟩
  · simp only [hsub, valueOrOverflow]
    by_cases hle : d.amount ≤ a
    · rw [if_pos hle]
      have hneg : ¬a - d.amount < 0 := by omega
      simp [bind, Except.bind, require, hneg, pure, Except.pure]
    · rw [if_neg hle]
      have hneg : a - d.amount < 0 := by omega
      exact ⟨_, by simp only [bind, Except.bind, require, hneg]; rfl⟩
  · rw [if_neg (by omega)]
    exact ⟨_, by simp only [hsub, valueOrOverflow]; rfl⟩

theorem debitOutput_genesis (hin : s.inputAmountsByCategory[d.id]? = none)
    (hgen : s.potentialGenesisIds.contains d.id = true)
    (hcr : 0 ≤ (s.genesisAmountsByCategory[d.id]?).getD 0) (hamt : 0 ≤ d.amount) :
    if (s.genesisAmountsByCategory[d.id]?).getD 0 + d.amount < 2 ^ 63 then
      s.debitOutput d = .ok
        ({ s with
            genesisAmountsByCategory := s.genesisAmountsByCategory.insert d.id
              ((s.genesisAmountsByCategory[d.id]?).getD 0 + d.amount) }, true)
    else ∃ e, s.debitOutput d = .error e := by
  simp only [debitOutput, hin, hgen]
  split
  next hlt =>
    have hneg : ¬(s.genesisAmountsByCategory[d.id]?).getD 0 + d.amount < 0 := by omega
    simp [safeAdd_of_lt hcr hamt hlt, valueOrOverflow, bind, Except.bind, require, hneg,
      pure, Except.pure]
  next hlt =>
    exact ⟨_, by simp only [safeAdd_of_le (not_lt.mp hlt), valueOrOverflow]; rfl⟩

/-- An output whose category is both or neither. -/
theorem debitOutput_unknown (h : ¬Xor (s.inputAmountsByCategory[d.id]?.isSome = true)
    (s.potentialGenesisIds.contains d.id = true)) : ∃ e, s.debitOutput d = .error e := by
  unfold debitOutput
  cases hin : s.inputAmountsByCategory[d.id]? with
  | none =>
    cases hgen : s.potentialGenesisIds.contains d.id with
    | false => exact ⟨_, rfl⟩
    | true => exact absurd (.inr ⟨rfl, by simp [hin]⟩) (hgen ▸ h)
  | some a =>
    cases hgen : s.potentialGenesisIds.contains d.id with
    | true => exact ⟨_, rfl⟩
    | false => exact absurd (.inl ⟨by simp [hin], by simp⟩) (hgen ▸ h)

/-! ### One output -/

theorem Represents.debit (h : s.Represents b) (hin : (b d.id).inherited = some a) :
    { s with
        inputAmountsByCategory :=
          s.inputAmountsByCategory.insert d.id (a - d.amount) }.Represents
      (Function.update b d.id ((b d.id).debit d.amount)) := by
  rw [Category.debit, hin]
  exact h.setInherited d.id _

theorem Represents.create (h : s.Represents b) :
    { s with
        genesisAmountsByCategory := s.genesisAmountsByCategory.insert d.id
          ((s.genesisAmountsByCategory[d.id]?).getD 0 + d.amount) }.Represents
      (Function.update b d.id ((b d.id).create d.amount)) := by
  refine h.update ?_ ?_
  · refine { h d.id with created := ?_ }
    rw [getElem?_insert, if_pos rfl, (h d.id).created]
    rfl
  · intro id' hne hold
    refine { hold with created := ?_ }
    rw [getElem?_insert, if_neg hne]
    exact hold.created

/-- What one output does: the check goes on with a category that accepts the later outputs exactly
when it accepted all, or it stops and they were not acceptable. -/
def Decides (b : TxId → Category) (d : OutputData) (r : Except Fault TokenTally) : Prop :=
  (∃ s' c, r = .ok s' ∧ s'.Represents (Function.update b d.id c) ∧ c.Sane ∧
    ∀ l, (b d.id).Accepts (d :: l) ↔ c.Accepts l) ∨
  (∃ e, r = .error e) ∧ ∀ l, (∀ e ∈ l, 0 ≤ e.amount) → ¬(b d.id).Accepts (d :: l)

/-- The transfer of the non-fungible token, after the amount of an inherited category was
debited. -/
theorem Represents.decides_spendNFT (hsane : ((b d.id).debit d.amount).Sane)
    (h : s.Represents (Function.update b d.id ((b d.id).debit d.amount)))
    (hwf : d.WellFormed scriptFlags) (hin : (b d.id).inherited.isSome = true)
    (hgen : (b d.id).genesis = false) (ho : d.nft = some o) : Decides b d (s.spendNFT d) := by
  have hcases := h.spendNFT_cases hwf ho
  rw [update_self, debit_stock] at hcases
  rcases hcases with ⟨i, s', hi, hok, hrep⟩ | ⟨hno, heq⟩
  · rw [update_idem] at hrep
    refine .inl ⟨s', _, hok, hrep, ⟨hsane.inherited, hsane.created⟩, ?_⟩
    intro l
    exact accepts_cons_take hin hgen ho hi
  · by_cases hmem : minting ∈ (b d.id).stock
    · -- minted
      rw [if_pos hmem] at heq
      exact .inl ⟨s, _, heq, h, hsane, fun l => accepts_cons_debit hin hgen (.inr hmem)⟩
    · -- out of thin air
      rw [if_neg hmem] at heq
      refine .inr ⟨⟨_, heq⟩, ?_⟩
      intro l _ hacc
      have hserved := hacc.served hin hmem
      rw [nfts_cons, ho] at hserved
      exact not_serves_cons hno hserved

/-- **One output of the transaction.** -/
theorem Represents.decides_scanOutput {out : CTxOut} (h : s.Represents b)
    (hsane : (b d.id).Sane) (hd : out.tokenDataPtr = some d) (hwf : d.WellFormed scriptFlags) :
    Decides b d (scanOutput scriptFlags s out) := by
  have hok : checkTokenData scriptFlags (some d) = .ok () := checkTokenData_ok_iff.mpr hwf
  have hscan : scanOutput scriptFlags s out = s.debitOutput d >>= fun r =>
      if d.hasNFT && !r.2 then r.1.spendNFT d else pure r.1 := by
    simp only [scanOutput, hd, hok]
    rfl
  rw [hscan]
  have hamt := hwf.amount_nonneg
  by_cases hknown : Xor ((b d.id).inherited.isSome = true) ((b d.id).genesis = true)
  · rcases hknown with ⟨hin, hgen⟩ | ⟨hgen, hin⟩
    · -- an inherited category
      have hgen : (b d.id).genesis = false := by simpa using hgen
      obtain ⟨a, ha⟩ := isSome_iff_exists.mp hin
      have hrange := hsane.inherited a ha
      have hdebit := debitOutput_inherited ((h d.id).inherited.trans ha)
        ((h d.id).genesis.trans hgen) hrange hamt
      split at hdebit
      next hle =>
        have hsane' : ((b d.id).debit d.amount).Sane := by
          refine ⟨?_, hsane.created⟩
          intro a' ha'
          rw [Category.debit, ha, map_some, some.injEq] at ha'
          constructor <;> omega
        have hrep := h.debit ha
        rw [hdebit]
        rcases hwf.nft_cases with ⟨hnft, hnone⟩ | hnft
        · refine .inl ⟨_, _, by simp only [hnft]; rfl, hrep, hsane', fun l => ?_⟩
          exact Category.accepts_cons_debit hin hgen (.inl hnone)
        · obtain ⟨hnft, o, ho⟩ : d.hasNFT = true ∧ ∃ o, d.nft = some o := by
            rcases hnft with hnft | hnft | hnft <;> simp [hnft]
          have hdec := Represents.decides_spendNFT hsane' hrep hwf hin hgen ho
          simpa [hnft, bind, Except.bind] using hdec
      next hle =>
        obtain ⟨e, he⟩ := hdebit
        refine .inr ⟨⟨e, by rw [he]; rfl⟩, ?_⟩
        intro l hl hacc
        have hle' := hacc.amount_le a ha
        have hnonneg := Category.total_nonneg hl
        rw [Category.total_cons] at hle'
        omega
    · -- a new category
      have hin : (b d.id).inherited = none := by simpa using hin
      have hcr := (h d.id).created
      have hrange := hsane.created
      have hcreate := debitOutput_genesis ((h d.id).inherited.trans hin)
        ((h d.id).genesis.trans hgen) (by rw [hcr]; exact hrange.1) hamt
      split at hcreate
      next hlt =>
        rw [hcr] at hlt
        rw [hcreate]
        refine .inl ⟨_, _, by simp only [bind, Except.bind, Bool.not_true, Bool.and_false]; rfl,
          h.create, ⟨hsane.inherited, ?_⟩, fun l => Category.accepts_cons_create hin hgen⟩
        constructor
        · show 0 ≤ (b d.id).created + d.amount
          omega
        · exact hlt
      next hlt =>
        rw [hcr] at hlt
        obtain ⟨e, he⟩ := hcreate
        refine .inr ⟨⟨e, by rw [he]; rfl⟩, ?_⟩
        intro l hl hacc
        have hlt' := hacc.created_lt hgen
        have hnonneg := Category.total_nonneg hl
        rw [Category.total_cons] at hlt'
        omega
  · -- both or neither
    obtain ⟨e, he⟩ := debitOutput_unknown (s := s) (d := d)
      (by rw [(h d.id).inherited, (h d.id).genesis]; exact hknown)
    exact .inr ⟨⟨e, by rw [he]; rfl⟩, fun l _ hacc => hknown (hacc.known (by simp))⟩

end TokenTally

/-! ### All outputs -/

/-- The payloads of some outputs that belong to a category. -/
def ofCategory (id : TxId) (ds : List OutputData) : List OutputData :=
  ds.filter fun d => d.id == id

theorem ofCategory_cons (ds : List OutputData) :
    ofCategory id (d :: ds) = if d.id = id then d :: ofCategory id ds else ofCategory id ds := by
  simp only [ofCategory, filter_cons, beq_iff_eq]

variable {ds : List OutputData}

theorem amount_nonneg_of_mem_ofCategory
    (h : ∀ d ∈ ds, d.WellFormed scriptFlags) : ∀ d ∈ ofCategory id ds, 0 ≤ d.amount :=
  fun d hd => (h d (mem_of_mem_filter hd)).amount_nonneg

/-- **The loop over the outputs** succeeds exactly when every payload is well formed and every
category accepts its outputs. -/
theorem scanOutputs_ok_iff (scriptFlags : UInt32) (vout : List CTxOut) :
    ∀ {s : TokenTally} {b : TxId → Category}, s.Represents b → (∀ id, (b id).Sane) →
      ((∃ s', vout.foldlM (scanOutput scriptFlags) s = .ok s') ↔
        (∀ d ∈ vout.filterMap (fun o => o.tokenDataPtr), d.WellFormed scriptFlags) ∧
        ∀ id, (b id).Accepts (ofCategory id (vout.filterMap fun o => o.tokenDataPtr))) := by
  induction vout with
  | nil =>
    intro s b _ hsane
    refine ⟨fun _ => ⟨by simp, fun id => accepts_nil (hsane id)⟩, fun _ => ⟨s, rfl⟩⟩
  | cons out vout ih =>
    intro s b h hsane
    rw [foldlM_cons]
    cases hd : out.tokenDataPtr with
    | none =>
      have hscan : scanOutput scriptFlags s out = .ok s := by simp only [scanOutput, hd]
      rw [hscan, filterMap_cons_none hd]
      exact ih h hsane
    | some d =>
      rw [filterMap_cons_some hd, forall_mem_cons]
      by_cases hwf : d.WellFormed scriptFlags
      · -- the category of `d` is settled by the step, the others are as before
        rcases h.decides_scanOutput (hsane d.id) hd hwf with
          ⟨s', c, hok, hrep, hc, hiff⟩ | ⟨⟨e, herr⟩, hnot⟩
        · have hsane' : ∀ id, (Function.update b d.id c id).Sane :=
            (forall_update_iff b fun _ c => c.Sane).mpr ⟨hc, fun id _ => hsane id⟩
          rw [hok]
          refine (ih hrep hsane').trans (and_congr (by simp [hwf]) (forall_congr' fun id => ?_))
          rw [ofCategory_cons]
          by_cases hid : d.id = id
          · subst hid
            rw [update_self, if_pos rfl]
            exact (hiff _).symm
          · rw [update_of_ne (Ne.symm hid), if_neg hid]
        · rw [herr]
          constructor
          · rintro ⟨s', hs'⟩
            exact absurd hs' (by simp [bind, Except.bind])
          · rintro ⟨⟨-, hwfs⟩, hacc⟩
            have := hacc d.id
            rw [ofCategory_cons, if_pos rfl] at this
            exact absurd this (hnot _ (amount_nonneg_of_mem_ofCategory hwfs))
      · -- a payload that is not well formed
        have hne : checkTokenData scriptFlags (some d) ≠ .ok () := mt checkTokenData_ok_iff.mp hwf
        refine ⟨?_, fun hr => absurd hr.1.1 hwf⟩
        rintro ⟨s', hs'⟩
        obtain ⟨s₁, hs₁, -⟩ := bind_ok_iff.mp hs'
        simp only [scanOutput, hd] at hs₁
        obtain ⟨u, hu, -⟩ := bind_ok_iff.mp hs₁
        exact absurd hu hne

/-! ### All inputs -/

/-- The categories after inputs with the payloads `ds` and the genesis candidates `gs`. -/
def bookOf (ds : List OutputData) (gs : List TxId) (id : TxId) : Category where
  inherited := if ofCategory id ds = [] then none else some (total (ofCategory id ds))
  genesis := decide (id ∈ gs)
  created := 0
  stock := nfts (ofCategory id ds)

theorem total_perm {l' : List OutputData} (h : l.Perm l') : total l = total l' :=
  (h.map _).sum_eq

variable {gs : List TxId}

namespace TokenTally

variable {s : TokenTally} {b : TxId → Category} {d : OutputData} {scriptFlags : UInt32}

/-- The order in which the inputs were read does not show in the tallies. -/
theorem Represents.perm {ds' : List OutputData} {gs' : List TxId} (hds : ds.Perm ds')
    (hgs : gs.Perm gs') (h : s.Represents (bookOf ds gs)) : s.Represents (bookOf ds' gs') := by
  intro id
  have hcat : (ofCategory id ds).Perm (ofCategory id ds') := hds.filter _
  have hstock : (bookOf ds gs id).stock.Perm (bookOf ds' gs' id).stock := hcat.filterMap _
  constructor
  · rw [(h id).inherited, bookOf, bookOf, total_perm hcat]
    exact if_congr (by rw [← length_eq_zero_iff, ← length_eq_zero_iff, hcat.length_eq])
      rfl rfl
  · rw [(h id).genesis, bookOf, bookOf]
    exact decide_eq_decide.mpr hgs.mem_iff
  · exact (h id).created
  · exact (h id).minting.trans hstock.mem_iff
  · exact (h id).mutables.trans (hstock.count_eq _)
  · intro x
    exact ((h id).immutables x).trans (hstock.count_eq _)

/-- A non-fungible token is put into the stock of its category. -/
theorem Represents.rememberNFT (h : s.Represents b) (hwf : d.WellFormed scriptFlags) :
    ∃ s', s.rememberNFT d = .ok s' ∧ s'.Represents
      (Function.update b d.id { b d.id with stock := d.nft.toList ++ (b d.id).stock }) := by
  rcases hwf.nft_cases with ⟨hnft, hnone⟩ | ⟨hnft, himm, -, hsome⟩ | ⟨hnft, himm, hmut, -, hsome⟩ |
      ⟨hnft, himm, hmut, hmint, hsome⟩
  · refine ⟨s, by simp [TokenTally.rememberNFT, hnft], ?_⟩
    rw [hnone]
    exact h.update (h d.id) fun _ _ hold => hold
  · refine ⟨_, by simp only [TokenTally.rememberNFT, hnft, himm, if_true]; rfl, ?_⟩
    rw [hsome]
    refine h.setImmutables (by simp) (by simp) fun x => ?_
    rw [count_increment, (h d.id).immutables]
    simp [count_cons]
  · refine ⟨_, by simp only [TokenTally.rememberNFT, hnft, himm, hmut, if_true]; rfl, ?_⟩
    rw [hsome]
    refine h.setMutables (by simp) ?_ fun x => count_cons_of_ne (by simp)
    rw [(h d.id).mutables]
    simp
  · refine ⟨_, by simp only [TokenTally.rememberNFT, hnft, himm, hmut, hmint, if_true]; rfl, ?_⟩
    rw [hsome]
    refine h.update ?_ ?_
    · refine { h d.id with minting := ?_, mutables := ?_, immutables := ?_ }
      · simp
      · rw [(h d.id).mutables]
        simp
      · intro x
        rw [toList_some, singleton_append, count_cons_of_ne (by simp)]
        exact (h d.id).immutables x
    · intro id' hne hold
      refine { hold with minting := ?_ }
      rw [← hold.minting, Std.ExtTreeSet.contains_insert]
      simp [hne]

theorem bookOf_cons : bookOf (d :: ds) gs = Function.update (bookOf ds gs) d.id
      { bookOf ds gs d.id with
        inherited := some (d.amount + total (ofCategory d.id ds))
        stock := d.nft.toList ++ (bookOf ds gs d.id).stock } := by
  funext id
  by_cases hid : d.id = id
  · subst hid
    rw [update_self]
    simp [bookOf, ofCategory_cons, nfts_cons]
  · rw [update_of_ne (Ne.symm hid)]
    simp [bookOf, ofCategory_cons, hid]

/-- The payload of an input is tallied exactly when the sum stays in range. -/
theorem Represents.creditInput (h : s.Represents (bookOf ds gs)) (hds : ∀ e ∈ ds, 0 ≤ e.amount)
    (hwf : d.WellFormed scriptFlags) :
    if total (ofCategory d.id ds) + d.amount < 2 ^ 63 then
      ∃ s', s.creditInput d = .ok s' ∧ s'.Represents (bookOf (d :: ds) gs)
    else ∃ e, s.creditInput d = .error e := by
  have hget : (s.inputAmountsByCategory[d.id]?).getD 0 = total (ofCategory d.id ds) := by
    rw [(h d.id).inherited]
    by_cases hempty : ofCategory d.id ds = []
    · simp [bookOf, hempty]
    · simp [bookOf, hempty]
  have hnonneg : 0 ≤ total (ofCategory d.id ds) :=
    total_nonneg fun e he => hds e (mem_of_mem_filter he)
  simp only [TokenTally.creditInput, hget]
  split
  next hlt =>
    obtain ⟨s', hs', hrep⟩ :=
      (h.setInherited d.id (total (ofCategory d.id ds) + d.amount)).rememberNFT hwf
    rw [update_self, update_idem, add_comm] at hrep
    refine ⟨s', ?_, ?_⟩
    · rw [safeAdd_of_lt hnonneg hwf.amount_nonneg hlt]
      exact hs'
    · rw [bookOf_cons]
      exact hrep
  next hlt =>
    exact ⟨_, by rw [safeAdd_of_le (not_lt.mp hlt)]; rfl⟩

/-- The candidate for a new category that an input makes. -/
def genesisId (txin : CTxIn) : Option TxId :=
  if txin.prevout.n = 0 then some txin.prevout.txid else none

theorem Represents.markGenesis (txin : CTxIn) (h : s.Represents (bookOf ds gs)) :
    (∃ s', s.markGenesis txin.prevout = .ok s' ∧ (∀ t ∈ genesisId txin, t ∉ gs) ∧
      s'.Represents (bookOf ds ((genesisId txin).toList ++ gs))) ∨
    (∃ e, s.markGenesis txin.prevout = .error e) ∧ ¬∀ t ∈ genesisId txin, t ∉ gs := by
  have hcontains : s.potentialGenesisIds.contains txin.prevout.txid =
      decide (txin.prevout.txid ∈ gs) := (h _).genesis
  unfold TokenTally.markGenesis genesisId
  split
  next hn =>
    by_cases hmem : txin.prevout.txid ∈ gs
    · refine .inr ⟨⟨_, by simp only [hcontains, hmem]; rfl⟩, by simpa using hmem⟩
    · refine .inl ⟨_, by simp only [hcontains, hmem]; rfl, by simpa using hmem, ?_⟩
      intro id
      refine { h id with genesis := ?_ }
      have hid : s.potentialGenesisIds.contains id = decide (id ∈ gs) := (h id).genesis
      have hcmp : (compare txin.prevout.txid id == .eq) = decide (id = txin.prevout.txid) := by
        rw [Bool.eq_iff_iff, beq_iff_eq, decide_eq_true_iff, Std.LawfulEqCmp.compare_eq_iff_eq]
        exact eq_comm
      rw [Std.ExtTreeSet.contains_insert, hid, hcmp]
      simp [bookOf]
  · exact .inl ⟨s, rfl, by simp, h⟩

end TokenTally

variable {vin : List CTxIn}

section

variable {B : Type} [CCoinsView B]

variable (scriptFlags : UInt32) (firstHeight : Int) (view : CCoinsViewCache B)

/-- The payload of the coin an input spends. -/
def inputToken (txin : CTxIn) : Option OutputData :=
  (view.peek txin.prevout).out.tokenDataPtr

/-- What is asked of a single input. -/
structure InputOk (txin : CTxIn) : Prop where
  unspent : (view.peek txin.prevout).isSpent = false
  parseable : (view.peek txin.prevout).out.hasUnparseableTokenData = false
  postActivation : (inputToken view txin).isSome = true →
    firstHeight ≤ (view.peek txin.prevout).nHeight
  wellFormed : ∀ d ∈ inputToken view txin, d.WellFormed scriptFlags

open TokenTally (genesisId)

/-- The payloads that some inputs carry. -/
def inputTokens (vin : List CTxIn) : List OutputData := vin.filterMap (inputToken view)

/-- What is asked of some inputs, after others with the payloads `ds` and the genesis candidates
`gs`. -/
structure InputRules (vin : List CTxIn) (ds : List OutputData) (gs : List TxId) : Prop where
  inputs : ∀ txin ∈ vin, InputOk scriptFlags firstHeight view txin
  distinct : (vin.filterMap genesisId ++ gs).Nodup
  inRange : ∀ id, total (ofCategory id (inputTokens view vin ++ ds)) < 2 ^ 63

/-- What one more input adds to the payloads and candidates read so far stays in bounds. -/
structure NextInputOk (txin : CTxIn) (ds : List OutputData) (gs : List TxId) : Prop where
  input : InputOk scriptFlags firstHeight view txin
  distinct : ∀ t ∈ genesisId txin, t ∉ gs
  inRange : ∀ d ∈ inputToken view txin, total (ofCategory d.id ds) + d.amount < 2 ^ 63

variable {scriptFlags firstHeight view}

theorem scanInput_ok_iff {s' : TokenTally} {txin : CTxIn} :
    scanInput scriptFlags firstHeight view s txin = .ok s' ↔
      InputOk scriptFlags firstHeight view txin ∧
      ∃ s₁, s.markGenesis txin.prevout = .ok s₁ ∧
        match inputToken view txin with
        | none => s₁ = s'
        | some d => s₁.creditInput d = .ok s' := by
  simp only [scanInput, bind_ok_iff, require_ok_iff,
    CCoinsViewCache.accessCoin_snd, Bool.not_eq_true']
  cases hd : (view.peek txin.prevout).out.tokenDataPtr with
  | none =>
    constructor
    · rintro ⟨-, hspent, -, hparse, -, -, s₁, hs₁, hrest⟩
      exact ⟨⟨hspent, hparse, by simp [inputToken, hd], by simp [inputToken, hd]⟩, s₁, hs₁,
        by simpa [inputToken, hd, pure, Except.pure] using hrest⟩
    · rintro ⟨hok, s₁, hs₁, hrest⟩
      simp only [inputToken, hd] at hrest
      exact ⟨(), hok.unspent, (), hok.parseable, (), rfl, s₁, hs₁, congrArg Except.ok hrest⟩
  | some d =>
    have htoken : inputToken view txin = some d := hd
    rw [htoken]
    constructor
    · rintro ⟨-, hspent, -, hparse, -, hact, s₁, hs₁, hrest⟩
      obtain ⟨u, hwf, hcredit⟩ := bind_ok_iff.mp hrest
      refine ⟨⟨hspent, hparse, fun _ => by simpa using hact, ?_⟩, s₁, hs₁, hcredit⟩
      intro e he
      obtain rfl : d = e := some.inj (htoken.symm.trans he)
      exact checkTokenData_ok_iff.mp hwf
    · rintro ⟨hok, s₁, hs₁, hrest⟩
      have hheight := hok.postActivation (by simp [htoken])
      have hwf := checkTokenData_ok_iff.mpr (hok.wellFormed d htoken)
      exact ⟨(), hok.unspent, (), hok.parseable, (), by simpa using hheight, s₁, hs₁,
        bind_ok hwf hrest⟩

theorem wellFormed_of_inputs
    (h : ∀ txin ∈ vin, InputOk scriptFlags firstHeight view txin) :
    ∀ d ∈ inputTokens view vin, d.WellFormed scriptFlags := by
  intro d hd
  obtain ⟨txin, hin, htoken⟩ := mem_filterMap.mp hd
  exact (h txin hin).wellFormed d htoken

/-- An input is entered in the books if the rules allow it, and refused if not. -/
theorem scanInput_cases (scriptFlags : UInt32) (firstHeight : Int) (view : CCoinsViewCache B)
    (txin : CTxIn) (h : s.Represents (bookOf ds gs)) (hds : ∀ d ∈ ds, 0 ≤ d.amount) :
    (NextInputOk scriptFlags firstHeight view txin ds gs ∧
      ∃ s', scanInput scriptFlags firstHeight view s txin = .ok s' ∧
        s'.Represents (bookOf ((inputToken view txin).toList ++ ds)
          ((genesisId txin).toList ++ gs))) ∨
    (¬NextInputOk scriptFlags firstHeight view txin ds gs ∧
      ∀ s', scanInput scriptFlags firstHeight view s txin ≠ .ok s') := by
  by_cases hok : InputOk scriptFlags firstHeight view txin
  · rcases h.markGenesis txin with ⟨s₁, hs₁, hfresh, hrep⟩ | ⟨⟨e, he⟩, hdup⟩
    · cases hd : inputToken view txin with
      | none =>
        refine .inl ⟨⟨hok, hfresh, by simp [hd]⟩, s₁, ?_, hrep⟩
        rw [scanInput_ok_iff, hd]
        exact ⟨hok, s₁, hs₁, rfl⟩
      | some d =>
        have hcredit := hrep.creditInput hds (hok.wellFormed d hd)
        split at hcredit
        next hlt =>
          obtain ⟨s', hs', hrep'⟩ := hcredit
          refine .inl ⟨⟨hok, hfresh, ?_⟩, s', ?_, hrep'⟩
          · intro e he
            rw [hd, mem_some_iff] at he
            exact he ▸ hlt
          · rw [scanInput_ok_iff, hd]
            exact ⟨hok, s₁, hs₁, hs'⟩
        next hlt =>
          obtain ⟨e, he⟩ := hcredit
          refine .inr ⟨fun hnext => hlt (hnext.inRange d hd), ?_⟩
          intro s' hs'
          rw [scanInput_ok_iff, hd] at hs'
          obtain ⟨-, s₂, hs₂, hs'⟩ := hs'
          cases hs₁.symm.trans hs₂
          cases he.symm.trans hs'
    · refine .inr ⟨fun hnext => hdup hnext.distinct, ?_⟩
      intro s' hs'
      obtain ⟨-, s₁, hs₁, -⟩ := scanInput_ok_iff.mp hs'
      cases he.symm.trans hs₁
  · exact .inr ⟨fun hnext => hok hnext.input, fun s' hs' => hok (scanInput_ok_iff.mp hs').1⟩

theorem total_ofCategory_append (l l' : List OutputData) : total (ofCategory id (l ++ l')) =
      total (ofCategory id l) + total (ofCategory id l') := by
  simp [ofCategory, total]

/-- The rules of a list of inputs are those of its first and, after it, of the others. -/
theorem inputRules_cons_iff {txin : CTxIn} :
    InputRules scriptFlags firstHeight view (txin :: vin) ds gs ↔
      NextInputOk scriptFlags firstHeight view txin ds gs ∧
      InputRules scriptFlags firstHeight view vin
        ((inputToken view txin).toList ++ ds) ((genesisId txin).toList ++ gs) := by
  have htokens : (inputTokens view (txin :: vin) ++ ds).Perm
      (inputTokens view vin ++ ((inputToken view txin).toList ++ ds)) := by
    rw [inputTokens, filterMap_cons_eq_toList_append, append_assoc]
    exact perm_append_comm_assoc ..
  have hids : ((txin :: vin).filterMap genesisId ++ gs).Perm
      (vin.filterMap genesisId ++ ((genesisId txin).toList ++ gs)) := by
    rw [filterMap_cons_eq_toList_append, append_assoc]
    exact perm_append_comm_assoc ..
  have htotal : ∀ id, total (ofCategory id (inputTokens view (txin :: vin) ++ ds)) =
      total (ofCategory id
        (inputTokens view vin ++ ((inputToken view txin).toList ++ ds))) :=
    fun id => total_perm (htokens.filter _)
  constructor
  · intro h
    refine ⟨⟨h.inputs _ mem_cons_self, ?_, ?_⟩, ?_, ?_, ?_⟩
    · intro t ht hgs
      have hnodup := (nodup_append.mp (hids.nodup_iff.mp h.distinct)).2.1
      exact (nodup_append.mp hnodup).2.2 t (mem_toList.mpr ht) t hgs rfl
    · -- the other inputs add nothing negative
      intro d hd
      have hlt := h.inRange d.id
      have hwfs := wellFormed_of_inputs fun i hi => h.inputs i (mem_cons_of_mem txin hi)
      have hnonneg : 0 ≤ total (ofCategory d.id (inputTokens view vin)) :=
        total_nonneg (amount_nonneg_of_mem_ofCategory hwfs)
      rw [htotal, total_ofCategory_append, mem_def.mp hd, toList_some,
        singleton_append, ofCategory_cons, if_pos rfl, total_cons] at hlt
      omega
    · exact fun i hi => h.inputs i (mem_cons_of_mem _ hi)
    · exact hids.nodup_iff.mp h.distinct
    · exact fun id => htotal id ▸ h.inRange id
  · rintro ⟨hnext, h⟩
    exact ⟨forall_mem_cons.mpr ⟨hnext.input, h.inputs⟩, hids.nodup_iff.mpr h.distinct,
      fun id => (htotal id).symm ▸ h.inRange id⟩

/-- **The loop over the inputs** succeeds exactly when the inputs meet the rules, and then the
tallies hold their sums and counts. -/
theorem scanInputs_cases (scriptFlags : UInt32) (firstHeight : Int)
    (view : CCoinsViewCache B) (vin : List CTxIn) :
    ∀ {s : TokenTally} {ds : List OutputData} {gs : List TxId}, s.Represents (bookOf ds gs) →
      (∀ d ∈ ds, 0 ≤ d.amount) → gs.Nodup → (∀ id, total (ofCategory id ds) < 2 ^ 63) →
      (InputRules scriptFlags firstHeight view vin ds gs ∧
        ∃ s', vin.foldlM (scanInput scriptFlags firstHeight view) s = .ok s' ∧
          s'.Represents (bookOf (inputTokens view vin ++ ds) (vin.filterMap genesisId ++ gs))) ∨
      (¬InputRules scriptFlags firstHeight view vin ds gs ∧
        ∀ s', vin.foldlM (scanInput scriptFlags firstHeight view) s ≠ .ok s') := by
  induction vin with
  | nil =>
    intro s ds gs h _ hgs hlt
    exact .inl ⟨⟨by simp, by simpa using hgs, by simpa [inputTokens] using hlt⟩, s, rfl, h⟩
  | cons txin vin ih =>
    intro s ds gs h hds hgs hlt
    rw [inputRules_cons_iff]
    rcases scanInput_cases scriptFlags firstHeight view txin h hds with
      ⟨hnext, s₁, hs₁, hrep⟩ | ⟨hnext, hno⟩
    · -- the invariants hold with the payload and the candidate of this input added
      have hds₁ : ∀ d ∈ (inputToken view txin).toList ++ ds, 0 ≤ d.amount := by
        intro d hd
        rcases mem_append.mp hd with hd | hd
        · exact (hnext.input.wellFormed d (mem_toList.mp hd)).amount_nonneg
        · exact hds d hd
      have hgs₁ : ((genesisId txin).toList ++ gs).Nodup := by
        refine nodup_append.mpr ⟨toList_nodup _, hgs, ?_⟩
        rintro t ht t' ht' rfl
        exact hnext.distinct t (mem_toList.mp ht) ht'
      have hlt₁ : ∀ id, total
          (ofCategory id ((inputToken view txin).toList ++ ds)) < 2 ^ 63 := by
        intro id
        cases hd : inputToken view txin with
        | none => exact hlt id
        | some d =>
          rw [toList_some, singleton_append, ofCategory_cons]
          split
          next hid =>
            have := hnext.inRange d hd
            rw [hid] at this
            rw [total_cons]
            omega
          · exact hlt id
      have hfold : (txin :: vin).foldlM
          (scanInput scriptFlags firstHeight view) s =
          vin.foldlM (scanInput scriptFlags firstHeight view) s₁ := by
        rw [foldlM_cons, hs₁]
        rfl
      rw [hfold]
      rcases ih hrep hds₁ hgs₁ hlt₁ with ⟨hrules, s', hs', hrep'⟩ | ⟨hrules, hno⟩
      · refine .inl ⟨⟨hnext, hrules⟩, s', hs', hrep'.perm ?_ ?_⟩
        · rw [inputTokens, inputTokens, filterMap_cons_eq_toList_append, append_assoc]
          exact perm_append_comm_assoc ..
        · rw [filterMap_cons_eq_toList_append, append_assoc]
          exact perm_append_comm_assoc ..
      · exact .inr ⟨fun hr => hrules hr.2, hno⟩
    · refine .inr ⟨fun hr => hnext hr.1, ?_⟩
      intro s' hs'
      rw [foldlM_cons] at hs'
      obtain ⟨s₁, hs₁, -⟩ := bind_ok_iff.mp hs'
      exact hno s₁ hs₁

end

/-! ### The rules of a transaction -/

variable {tx' : CTransaction}

section

variable {B : Type} [CCoinsView B]

open TokenTally (genesisId)

/-- The payloads of the outputs. -/
def outputTokens (tx : CTransaction) : List OutputData :=
  tx.vout.filterMap fun o => o.tokenDataPtr

/-- The transaction ids that may become categories: those of the inputs with index 0. -/
def genesisIds (tx : CTransaction) : List TxId := tx.vin.filterMap genesisId

variable (scriptFlags : UInt32) (firstHeight : Int) (view : CCoinsViewCache B) (tx : CTransaction)

/-- Some input carries the category. -/
def Carried (id : TxId) : Prop :=
  ∃ d ∈ inputTokens view tx.vin, d.id = id

/-- **Conservation of tokens.** Sums are exact, and the assignment of outputs to inputs is one
of positions. -/
structure TokenConservation : Prop where
  outputs_parse : ∀ out ∈ tx.vout, out.hasUnparseableTokenData = false
  outputs_wellFormed : ∀ d ∈ outputTokens tx, d.WellFormed scriptFlags
  inputs_wellFormed : ∀ d ∈ inputTokens view tx.vin, d.WellFormed scriptFlags
  inputs_parse : ∀ txin ∈ tx.vin, (view.peek txin.prevout).out.hasUnparseableTokenData = false
  inputs_postActivation : ∀ txin ∈ tx.vin, (inputToken view txin).isSome = true →
    firstHeight ≤ (view.peek txin.prevout).nHeight
  category : ∀ d ∈ outputTokens tx, Xor (Carried view tx d.id) (d.id ∈ genesisIds tx)
  inherited : ∀ id, Carried view tx id →
    total (ofCategory id (outputTokens tx)) ≤
        total (ofCategory id (inputTokens view tx.vin)) ∧
      total (ofCategory id (inputTokens view tx.vin)) < 2 ^ 63
  created : ∀ id ∈ genesisIds tx, total (ofCategory id (outputTokens tx)) < 2 ^ 63
  assigned : ∀ id, Carried view tx id →
    minting ∉ nfts (ofCategory id (inputTokens view tx.vin)) →
    Assignable Nft.Admissible (nfts (ofCategory id (outputTokens tx)))
      (nfts (ofCategory id (inputTokens view tx.vin)))

/-- What `CheckTxTokens` asks of a transaction that is not a coinbase. -/
structure TokenRules : Prop where
  conservation : TokenConservation scriptFlags firstHeight view tx
  unspent : ∀ txin ∈ tx.vin, (view.peek txin.prevout).isSpent = false
  distinct : (genesisIds tx).Nodup

variable {scriptFlags firstHeight view tx}

theorem carried_iff : Carried view tx id ↔ ofCategory id (inputTokens view tx.vin) ≠ [] := by
  simp [Carried, ofCategory, filter_eq_nil_iff]

theorem mem_outputTokens_iff :
    (∃ d ∈ outputTokens tx, d.id = id) ↔ ofCategory id (outputTokens tx) ≠ [] := by
  simp [ofCategory, filter_eq_nil_iff]

/-- What the categories after the inputs ask of the outputs, in terms of the transaction. -/
theorem accepts_bookOf_iff {ins outs : List OutputData} :
    (bookOf ins gs id).Accepts (ofCategory id outs) ↔
      (ofCategory id outs ≠ [] → Xor (ofCategory id ins ≠ []) (id ∈ gs)) ∧
      (ofCategory id ins ≠ [] →
        total (ofCategory id outs) ≤ total (ofCategory id ins)) ∧
      (id ∈ gs → total (ofCategory id outs) < 2 ^ 63) ∧
      (ofCategory id ins ≠ [] → minting ∉ nfts (ofCategory id ins) →
        Assignable Nft.Admissible (nfts (ofCategory id outs))
          (nfts (ofCategory id ins))) := by
  have hsome : (bookOf ins gs id).inherited.isSome = true ↔ ofCategory id ins ≠ [] := by
    by_cases h : ofCategory id ins = [] <;> simp [bookOf, h]
  have hgen : (bookOf ins gs id).genesis = true ↔ id ∈ gs := by simp [bookOf]
  have hamount : (∀ a, (bookOf ins gs id).inherited = some a →
      total (ofCategory id outs) ≤ a) ↔ (ofCategory id ins ≠ [] →
        total (ofCategory id outs) ≤ total (ofCategory id ins)) := by
    by_cases h : ofCategory id ins = [] <;> simp [bookOf, h]
  have hcreated : (bookOf ins gs id).created + total (ofCategory id outs) =
      total (ofCategory id outs) := by simp [bookOf]
  rw [accepts_iff, hsome, hgen, hamount, hcreated]
  simp only [assignable_iff_serves]
  rfl

theorem represents_empty : ({} : TokenTally).Represents (bookOf [] []) := by
  intro id
  refine ⟨by simp [bookOf, ofCategory], by simp [bookOf], by simp [bookOf], ?_, ?_, ?_⟩
  · simp [bookOf, ofCategory, nfts]
  · simp [bookOf, ofCategory, nfts, count]
  · simp [bookOf, ofCategory, nfts, count, TokenTally.immutablesOf]

/-- The categories after inputs that meet the rules hold amounts of tokens. -/
theorem InputRules.sane_bookOf (gs : List TxId)
    (h : InputRules scriptFlags firstHeight view vin [] []) (id : TxId) :
    (bookOf (inputTokens view vin) gs id).Sane := by
  refine ⟨?_, by simp [bookOf]⟩
  intro a ha
  have hlt := h.inRange id
  have hnonneg : 0 ≤ total (ofCategory id (inputTokens view vin)) :=
    total_nonneg (amount_nonneg_of_mem_ofCategory (wellFormed_of_inputs h.inputs))
  rw [append_nil] at hlt
  simp only [bookOf] at ha
  split at ha
  · cases ha
  · cases ha
    exact ⟨hnonneg, hlt⟩

/-- The rules, as the two loops ask for them. -/
theorem tokenRules_iff :
    TokenRules scriptFlags firstHeight view tx ↔
      (∀ out ∈ tx.vout, out.hasUnparseableTokenData = false) ∧
      InputRules scriptFlags firstHeight view tx.vin [] [] ∧
      (∀ d ∈ outputTokens tx, d.WellFormed scriptFlags) ∧
      ∀ id, (bookOf (inputTokens view tx.vin) (genesisIds tx) id).Accepts
        (ofCategory id (outputTokens tx)) := by
  constructor
  · rintro ⟨hcons, hunspent, hdistinct⟩
    refine ⟨hcons.outputs_parse, ⟨?_, by simpa [genesisIds] using hdistinct, ?_⟩,
      hcons.outputs_wellFormed, ?_⟩
    · intro txin hin
      refine ⟨hunspent txin hin, hcons.inputs_parse txin hin,
        hcons.inputs_postActivation txin hin, ?_⟩
      intro d hd
      exact hcons.inputs_wellFormed d (mem_filterMap.mpr ⟨txin, hin, hd⟩)
    · intro id
      rw [append_nil]
      -- a category that no input carries has the sum zero
      by_cases hid : Carried view tx id
      · exact (hcons.inherited id hid).2
      · rw [carried_iff, not_not] at hid
        rw [hid]
        norm_num
    · intro id
      rw [accepts_bookOf_iff]
      refine ⟨?_, ?_, hcons.created id, ?_⟩
      · intro hne
        obtain ⟨d, hd, rfl⟩ := mem_outputTokens_iff.mpr hne
        rw [← carried_iff]
        exact hcons.category d hd
      · exact fun hne => (hcons.inherited id (carried_iff.mpr hne)).1
      · exact fun hne => hcons.assigned id (carried_iff.mpr hne)
  · rintro ⟨hparse, hin, hwf, hacc⟩
    have hcat := fun id => accepts_bookOf_iff.mp (hacc id)
    refine ⟨⟨hparse, hwf, wellFormed_of_inputs hin.inputs, fun i hi => (hin.inputs i hi).parseable,
      fun i hi => (hin.inputs i hi).postActivation, ?_, ?_, ?_, ?_⟩,
      fun i hi => (hin.inputs i hi).unspent, by simpa [genesisIds] using hin.distinct⟩
    · intro d hd
      rw [carried_iff]
      exact (hcat d.id).1 (mem_outputTokens_iff.mp ⟨d, hd, rfl⟩)
    · intro id hid
      refine ⟨(hcat id).2.1 (carried_iff.mp hid), ?_⟩
      simpa using hin.inRange id
    · exact fun id hid => (hcat id).2.2.1 hid
    · exact fun id hid => (hcat id).2.2.2 (carried_iff.mp hid)

/-- **`CheckTxTokens` decides the token rules.** -/
theorem checkTxTokens_ok_iff_rules (htokens : hasFlag scriptFlags scriptEnableTokens = true)
    (hcb : tx.isCoinBase = false) :
    checkTxTokens tx view scriptFlags firstHeight = .ok () ↔
      TokenRules scriptFlags firstHeight view tx := by
  have hparse : tx.hasOutputsWithUnparseableTokenData = false ↔
      ∀ out ∈ tx.vout, out.hasUnparseableTokenData = false := by
    simp [CTransaction.hasOutputsWithUnparseableTokenData]
  rw [tokenRules_iff, ← hparse]
  unfold checkTxTokens
  rw [htokens, Bool.not_true, if_neg (by simp)]
  cases tx.hasOutputsWithUnparseableTokenData with
  | true => simp
  | false =>
    rw [if_neg (by simp), hcb, if_neg (by simp), bind_ok_iff]
    rcases scanInputs_cases scriptFlags firstHeight view tx.vin represents_empty
        (by simp) nodup_nil (by simp [ofCategory]) with ⟨hrules, s, hs, hrep⟩ | ⟨hrules, hno⟩
    · -- the outputs are checked against the tallies of the inputs
      rw [append_nil, append_nil] at hrep
      have hout := scanOutputs_ok_iff scriptFlags tx.vout hrep
        (hrules.sane_bookOf _)
      constructor
      · rintro ⟨s₁, hs₁, hrest⟩
        obtain ⟨s', hs', -⟩ := bind_ok_iff.mp hrest
        cases hs.symm.trans hs₁
        exact ⟨rfl, hrules, hout.mp ⟨s', hs'⟩⟩
      · rintro ⟨-, -, hacc⟩
        obtain ⟨s', hs'⟩ := hout.mpr hacc
        exact ⟨s, hs, bind_ok hs' rfl⟩
    · constructor
      · rintro ⟨s₁, hs₁, -⟩
        exact absurd hs₁ (hno s₁)
      · rintro ⟨-, hr, -⟩
        exact absurd hr hrules

/-! ### Order -/

/-- The same inputs and the same outputs, in any order. -/
def SameUpToOrder (tx tx' : CTransaction) : Prop := tx.vin.Perm tx'.vin ∧ tx.vout.Perm tx'.vout

theorem SameUpToOrder.symm {tx : CTransaction} (h : SameUpToOrder tx tx') : SameUpToOrder tx' tx :=
  ⟨h.1.symm, h.2.symm⟩

theorem SameUpToOrder.isCoinBase_eq {tx : CTransaction} (h : SameUpToOrder tx tx') :
    tx.isCoinBase = tx'.isCoinBase := by
  have hlen := h.1.length_eq
  unfold CTransaction.isCoinBase
  match hv : tx.vin, hv' : tx'.vin with
  | [], [] => rfl
  | [a], [a'] =>
    have hperm := h.1
    rw [hv, hv'] at hperm
    rw [singleton_perm_singleton.mp hperm]
  | _ :: _ :: _, _ :: _ :: _ => rfl
  | [], _ :: _ => simp [hv, hv'] at hlen
  | _ :: _, [] => simp [hv, hv'] at hlen
  | [_], _ :: _ :: _ => simp [hv, hv'] at hlen
  | _ :: _ :: _, [_] => simp [hv, hv'] at hlen

/-- The rules do not depend on an order. -/
theorem TokenRules.of_sameUpToOrder (hsame : SameUpToOrder tx tx')
    (h : TokenRules scriptFlags firstHeight view tx) :
    TokenRules scriptFlags firstHeight view tx' := by
  have hins : (inputTokens view tx.vin).Perm (inputTokens view tx'.vin) := hsame.1.filterMap _
  have houts : (outputTokens tx).Perm (outputTokens tx') := hsame.2.filterMap _
  have hgen : (genesisIds tx).Perm (genesisIds tx') := hsame.1.filterMap _
  have hcarried : ∀ id, Carried view tx' id ↔ Carried view tx id := by
    intro id
    simp only [Carried, hins.mem_iff]
  have htotal_in : ∀ id, total (ofCategory id (inputTokens view tx'.vin)) =
      total (ofCategory id (inputTokens view tx.vin)) :=
    fun id => (total_perm (hins.filter _)).symm
  have htotal_out : ∀ id, total (ofCategory id (outputTokens tx')) =
      total (ofCategory id (outputTokens tx)) :=
    fun id => (total_perm (houts.filter _)).symm
  obtain ⟨hc, hunspent, hdistinct⟩ := h
  refine ⟨⟨fun o ho => hc.outputs_parse o (hsame.2.mem_iff.mpr ho),
    fun d hd => hc.outputs_wellFormed d (houts.mem_iff.mpr hd),
    fun d hd => hc.inputs_wellFormed d (hins.mem_iff.mpr hd),
    fun i hi => hc.inputs_parse i (hsame.1.mem_iff.mpr hi),
    fun i hi => hc.inputs_postActivation i (hsame.1.mem_iff.mpr hi), ?_, ?_, ?_, ?_⟩,
    fun i hi => hunspent i (hsame.1.mem_iff.mpr hi), hgen.nodup_iff.mp hdistinct⟩
  · intro d hd
    rw [hcarried, ← hgen.mem_iff]
    exact hc.category d (houts.mem_iff.mpr hd)
  · intro id hid
    rw [htotal_in, htotal_out]
    exact hc.inherited id ((hcarried id).mp hid)
  · intro id hid
    rw [htotal_out]
    exact hc.created id (hgen.mem_iff.mpr hid)
  · intro id hid hmint
    have hstock : (nfts (ofCategory id (inputTokens view tx.vin))).Perm
        (nfts (ofCategory id (inputTokens view tx'.vin))) := (hins.filter _).filterMap _
    have hdemand : (nfts (ofCategory id (outputTokens tx))).Perm
        (nfts (ofCategory id (outputTokens tx'))) := (houts.filter _).filterMap _
    -- an assignment of positions depends on the order; serving one by one does not
    have hserves := assignable_iff_serves.mp
      (hc.assigned id ((hcarried id).mp hid) fun hm => hmint (hstock.mem_iff.mp hm))
    exact assignable_iff_serves.mpr (hserves.of_perm hdemand hstock)

/-- **Tokens are conserved.** With tokens enabled, a transaction that is not a coinbase is accepted
exactly when its tokens are conserved, its inputs are there, and no two inputs with index 0 name the
same transaction; the order of inputs and outputs does not matter. -/
theorem checkTxTokens_accepts_iff (tx : CTransaction) (view : CCoinsViewCache B)
    (scriptFlags : UInt32) (firstTokenEnabledBlockHeight : Int)
    (htokens : hasFlag scriptFlags scriptEnableTokens = true) (hcb : tx.isCoinBase = false) :
    (checkTxTokens tx view scriptFlags firstTokenEnabledBlockHeight = .ok () ↔
      TokenRules scriptFlags firstTokenEnabledBlockHeight view tx) ∧
    ∀ tx' : CTransaction, tx.vin.Perm tx'.vin → tx.vout.Perm tx'.vout →
      (checkTxTokens tx view scriptFlags firstTokenEnabledBlockHeight = .ok () ↔
        checkTxTokens tx' view scriptFlags firstTokenEnabledBlockHeight = .ok ()) := by
  refine ⟨checkTxTokens_ok_iff_rules htokens hcb, ?_⟩
  intro tx' hvin hvout
  have hsame : SameUpToOrder tx tx' := ⟨hvin, hvout⟩
  rw [checkTxTokens_ok_iff_rules htokens hcb,
    checkTxTokens_ok_iff_rules htokens (hsame.isCoinBase_eq ▸ hcb)]
  exact ⟨TokenRules.of_sameUpToOrder hsame, TokenRules.of_sameUpToOrder hsame.symm⟩

end

namespace Swap

/-- A coin with a mutable token of category 9 and 5 fungible tokens. -/
def coin : Coin :=
  { out := { nValue := 100000, scriptPubKey := [], tokenDataPtr := some ⟨9, 0x31, 5, []⟩ }
    nHeight := 10
    fCoinBase := false }

/-- A view with that coin at one outpoint. -/
def view : CCoinsViewCache UtxoSet :=
  { base := UtxoSet.empty 1
    cacheCoins := (∅ : Std.ExtTreeMap COutPoint CCoinsCacheEntry).insert ⟨7, 1⟩ { coin := coin } }

/-- The token becomes an immutable one with a commitment, and 3 of the fungible tokens are
spent to another output. -/
def tx : CTransaction :=
  { vin := [{ prevout := ⟨7, 1⟩ }]
    vout := [{ nValue := 50000, scriptPubKey := [], tokenDataPtr := some ⟨9, 0x70, 2, [1]⟩ },
      { nValue := 50000, scriptPubKey := [], tokenDataPtr := some ⟨9, 0x10, 3, []⟩ }]
    hash := 8 }

/-- The only input is not in the view. -/
def missing : CTransaction := { vin := [{ prevout := ⟨6, 1⟩ }], vout := [], hash := 8 }

end Swap

open Swap

/-- A transaction that spends an editable token, and its rules. -/
theorem checkTxTokens_accepts_iff_swap :
    checkTxTokens tx view scriptEnableTokens 0 = .ok () ∧
      TokenRules scriptEnableTokens 0 view tx := by
  have hok : checkTxTokens tx view scriptEnableTokens 0 = .ok () := by decide +kernel
  exact ⟨hok, (checkTxTokens_accepts_iff tx view scriptEnableTokens 0 (by decide)
    (by decide)).1.mp hok⟩

/-- **Conservation alone is not enough.** A transaction without tokens whose input is missing is
rejected. -/
theorem checkTxTokens_rejects_missing :
    TokenConservation scriptEnableTokens 0 view missing ∧
      missing.isCoinBase = false ∧
      checkTxTokens missing view scriptEnableTokens 0 =
        .error (.dos 100 "bad-txns-inputs-missingorspent") := by
  have hins : inputTokens view missing.vin = [] := by decide +kernel
  have hcarried : ∀ id, ¬Carried view missing id := by
    rintro id ⟨d, hd, -⟩
    rw [hins] at hd
    cases hd
  refine ⟨⟨nofun, nofun, ?_, by decide +kernel, by decide +kernel, nofun,
    fun id hid => absurd hid (hcarried id), nofun, fun id hid => absurd hid (hcarried id)⟩,
    by decide, by decide +kernel⟩
  rw [hins]
  exact nofun

end DeVault
