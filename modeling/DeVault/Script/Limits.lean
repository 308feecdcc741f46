import DeVault.Script.Flags

/-!
# Errors and limits of the interpreter (`script_error.h`, `vm_limits.h`)

The flags decide how large a number or a stack element may be. `EvalScriptImpl` computes these
limits once, before it runs the script, and the opcodes read them.
-/

namespace DeVault

/-- `ScriptError`: those that the modelled opcodes return. -/
inductive ScriptError
  | unknown
  | pushSize
  | opCount
  | sigCount
  | pubkeyCount
  | invalidNumberRange
  | impossibleEncoding
  | invalidBitCount
  | checkMultisigVerify
  | invalidStackOperation
  | invalidBitfieldSize
  | invalidBitRange
  | sigNullfail
  | minimalNum
  | sigBadlength
  | sigNonschnorr
  | invalidNumberRange64Bit
  | invalidNumberRangeBigInt
  deriving DecidableEq, Repr

/-- `MAX_SCRIPT_ELEMENT_SIZE_LEGACY`. -/
def maxScriptElementSizeLegacy : Nat := 520

/-- `may2025::MAX_SCRIPT_ELEMENT_SIZE`, which is `MAX_SCRIPT_SIZE`. -/
def may2025MaxScriptElementSize : Nat := 10000

/-- The limits of a run. -/
structure ScriptLimits where
  fRequireMinimal : Bool
  maxIntegerSizeLegacy : Nat
  maxIntegerSize : Nat
  maxScriptElementSize : Nat
  invalidNumberRangeError : ScriptError
  deriving DecidableEq, Repr

/-- The beginning of `EvalScriptImpl`. -/
def ScriptLimits.ofFlags (flags : UInt32) : ScriptLimits :=
  let integers64Bit := flags &&& script64BitIntegers ≠ 0
  let usesBigInt := flags &&& scriptEnableMay2025 ≠ 0
  let legacy := if integers64Bit then 8 else 4
  { fRequireMinimal := flags &&& scriptVerifyMinimaldata ≠ 0
    maxIntegerSizeLegacy := legacy
    maxIntegerSize := if usesBigInt then may2025MaxScriptElementSize else legacy
    maxScriptElementSize :=
      if usesBigInt then may2025MaxScriptElementSize else maxScriptElementSizeLegacy
    invalidNumberRangeError :=
      if usesBigInt then .invalidNumberRangeBigInt
      else if integers64Bit then .invalidNumberRange64Bit
      else .invalidNumberRange }

end DeVault
