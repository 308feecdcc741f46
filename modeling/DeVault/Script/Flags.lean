import DeVault.Script.CheckInputs

/-!
# Script flags (`script/script_flags.h`, `policy/policy.h`, `validation.cpp`)

The flags that scripts are verified under. `getNextBlockScriptFlags` are those of the block after a
given one; flags are only added as the median time past rises.
-/

namespace DeVault

/-- `SCRIPT_VERIFY_P2SH`. -/
def scriptVerifyP2sh : UInt32 := (1 : UInt32) <<< 0

/-- `SCRIPT_VERIFY_STRICTENC`. -/
def scriptVerifyStrictenc : UInt32 := (1 : UInt32) <<< 1

/-- `SCRIPT_VERIFY_DERSIG`. -/
def scriptVerifyDersig : UInt32 := (1 : UInt32) <<< 2

/-- `SCRIPT_VERIFY_LOW_S`. -/
def scriptVerifyLowS : UInt32 := (1 : UInt32) <<< 3

/-- `SCRIPT_VERIFY_SIGPUSHONLY`. -/
def scriptVerifySigpushonly : UInt32 := (1 : UInt32) <<< 5

/-- `SCRIPT_VERIFY_MINIMALDATA`. -/
def scriptVerifyMinimaldata : UInt32 := (1 : UInt32) <<< 6

/-- `SCRIPT_VERIFY_CLEANSTACK`. -/
def scriptVerifyCleanstack : UInt32 := (1 : UInt32) <<< 8

/-- `SCRIPT_VERIFY_CHECKLOCKTIMEVERIFY`. -/
def scriptVerifyChecklocktimeverify : UInt32 := (1 : UInt32) <<< 9

/-- `SCRIPT_VERIFY_CHECKSEQUENCEVERIFY`. -/
def scriptVerifyChecksequenceverify : UInt32 := (1 : UInt32) <<< 10

/-- `SCRIPT_VERIFY_NULLFAIL`. -/
def scriptVerifyNullfail : UInt32 := (1 : UInt32) <<< 14

/-- `SCRIPT_ENABLE_SCHNORR_MULTISIG`. -/
def scriptEnableSchnorrMultisig : UInt32 := (1 : UInt32) <<< 21

/-- `SCRIPT_64_BIT_INTEGERS`. -/
def script64BitIntegers : UInt32 := (1 : UInt32) <<< 24

/-- `SCRIPT_ENABLE_MAY2025`. -/
def scriptEnableMay2025 : UInt32 := (1 : UInt32) <<< 28

/-- `SCRIPT_ENABLE_MAY2026`. -/
def scriptEnableMay2026 : UInt32 := (1 : UInt32) <<< 30

/-- The flags that DeVault enforces from the genesis block on. -/
def genesisScriptFlags : UInt32 :=
  scriptVerifyP2sh ||| scriptVerifyDersig ||| scriptVerifyChecklocktimeverify |||
    scriptVerifyChecksequenceverify ||| scriptVerifyStrictenc ||| scriptEnableSighashForkid |||
    scriptVerifyLowS ||| scriptVerifyNullfail

/-- The flags that the script upgrade adds. -/
def scriptUpgradeFlags : UInt32 :=
  scriptVerifySigpushonly ||| scriptVerifyCleanstack ||| scriptEnableBls

/-- `GetNextBlockScriptFlags`, on the median time past of `pindex`, `none` for a null
pointer. -/
def getNextBlockScriptFlags (scriptUpgradeActivationTime : Int) (pindexTime : Option Int) :
    UInt32 :=
  match pindexTime with
  | some nMedianTimePast =>
    if nMedianTimePast ≥ scriptUpgradeActivationTime then genesisScriptFlags ||| scriptUpgradeFlags
    else genesisScriptFlags
  | none => genesisScriptFlags

/-- **Flags stay set** when the median time past does not fall. -/
theorem getNextBlockScriptFlags_mono {upgradeTime t t' : Int} (h : t ≤ t') :
    getNextBlockScriptFlags upgradeTime (some t) &&& getNextBlockScriptFlags upgradeTime (some t') =
      getNextBlockScriptFlags upgradeTime (some t) := by
  simp only [getNextBlockScriptFlags]
  split
  next hlow =>
    rw [if_pos (hlow.trans h)]
    decide
  · split <;> decide

/-- A null pointer has the fewest flags. -/
theorem getNextBlockScriptFlags_none_le (upgradeTime t : Int) :
    getNextBlockScriptFlags upgradeTime none &&& getNextBlockScriptFlags upgradeTime (some t) =
      getNextBlockScriptFlags upgradeTime none := by
  simp only [getNextBlockScriptFlags]
  split <;> decide

end DeVault
