import Satd.Lib.Machine

/-!
# What the script interpreter is given

Verification flags, script errors, signature versions and the data a tapscript
evaluation accumulates, as the interpreter's crate declares them. Signature
checks are a `SignatureChecker` supplied by the caller. Hash functions and the
secp256k1 operations come from other packages; `Crypto` is the list of those the
interpreter calls, taken as arbitrary functions of their arguments.
-/

namespace Satd.Consensus

open Rust BitVec

/-- A byte string: a script, a stack element, a signature or a key. -/
abbrev Bytes := List UInt8

/-! ## Flags -/

/-- The word with one bit set. -/
def flagBit (position : UInt32) : UInt32 := 1 <<< position

def verifyNone : UInt32 := 0
def verifyP2sh : UInt32 := flagBit 0
def verifyStrictenc : UInt32 := flagBit 1
def verifyDersig : UInt32 := flagBit 2
def verifyLowS : UInt32 := flagBit 3
def verifyNulldummy : UInt32 := flagBit 4
def verifySigpushonly : UInt32 := flagBit 5
def verifyMinimaldata : UInt32 := flagBit 6
def verifyDiscourageUpgradableNops : UInt32 := flagBit 7
def verifyCleanstack : UInt32 := flagBit 8
def verifyChecklocktimeverify : UInt32 := flagBit 9
def verifyChecksequenceverify : UInt32 := flagBit 10
def verifyWitness : UInt32 := flagBit 11
def verifyDiscourageUpgradableWitnessProgram : UInt32 := flagBit 12
def verifyMinimalif : UInt32 := flagBit 13
def verifyNullfail : UInt32 := flagBit 14
def verifyWitnessPubkeytype : UInt32 := flagBit 15
def verifyConstScriptcode : UInt32 := flagBit 16
def verifyTaproot : UInt32 := flagBit 17
def verifyDiscourageUpgradableTaprootVersion : UInt32 := flagBit 18
def verifyDiscourageOpSuccess : UInt32 := flagBit 19
def verifyDiscourageUpgradablePubkeytype : UInt32 := flagBit 20
def verifyMinimalifBase : UInt32 := flagBit 31

/-- Some bit of `flag` is set in `flags`. -/
def hasFlag (flags flag : UInt32) : Bool := flags &&& flag != 0

/-- Every bit set in the first word is set in the second. -/
def FlagSubset (fewer more : UInt32) : Prop :=
  ∀ bit, fewer.toBitVec.getLsbD bit = true → more.toBitVec.getLsbD bit = true

/-- A larger flag word has every flag the smaller one has. -/
theorem FlagSubset.hasFlag_imp {fewer more : UInt32} (subset : FlagSubset fewer more)
    {flag : UInt32} (present : hasFlag fewer flag = true) : hasFlag more flag = true := by
  simp only [hasFlag, bne_iff_ne, ne_eq] at present ⊢
  intro absent
  apply present
  rw [← UInt32.toBitVec_inj] at absent ⊢
  apply eq_of_getLsbD_eq
  intro bit _
  have zeroBit := congrArg (fun word => getLsbD word bit) absent
  simp only [UInt32.toBitVec_and, getLsbD_and, UInt32.toBitVec_zero, getLsbD_zero] at zeroBit ⊢
  cases fewerBit : fewer.toBitVec.getLsbD bit with
  | false => rfl
  | true => simpa [subset bit fewerBit] using zeroBit

/-- The combinations the interpreter requires of its callers. -/
def FlagPreconditions (flags : UInt32) : Prop :=
  (hasFlag flags verifyCleanstack = true →
    hasFlag flags verifyP2sh = true ∧ hasFlag flags verifyWitness = true) ∧
  (hasFlag flags verifyWitness = true → hasFlag flags verifyP2sh = true)

instance (flags : UInt32) : Decidable (FlagPreconditions flags) := by
  unfold FlagPreconditions
  infer_instance

/-! ## Errors -/

/-- The ways a script fails to verify. -/
inductive ScriptError where
  | unknownError | evalFalse | opReturn | scriptNum
  | scriptSize | pushSize | opCount | stackSize | sigCount | pubkeyCount
  | verify | equalVerify | checkMultiSigVerify | checkSigVerify | numEqualVerify
  | badOpcode | disabledOpcode | invalidStackOperation | invalidAltstackOperation
  | unbalancedConditional
  | negativeLocktime | unsatisfiedLocktime
  | sigHashtype | sigDer | minimalData | sigPushOnly | sigHighS | sigNullDummy | pubkeyType
  | cleanStack | minimalIf | sigNullFail
  | discourageUpgradableNops | discourageUpgradableWitnessProgram
  | discourageUpgradableTaprootVersion | discourageOpSuccess | discourageUpgradablePubkeyType
  | witnessProgramWrongLength | witnessProgramWitnessEmpty | witnessProgramMismatch
  | witnessMalleated | witnessMalleatedP2sh | witnessUnexpected | witnessPubkeyType
  | schnorrSigSize | schnorrSigHashtype | schnorrSig | taprootWrongControlSize
  | tapscriptValidationWeight | tapscriptCheckMultiSig | tapscriptMinimalIf
  | tapscriptEmptyPubkey
  | opCodeSeparator | sigFindAndDelete
  deriving DecidableEq, Repr

/-- The result of an interpreter function. -/
abbrev Exec (α : Type) := Outcome ScriptError α

/-! ## Signature checks and cryptography -/

/-- Which script rules apply to a signature. -/
inductive SigVersion where
  | base | witnessV0 | taproot | tapscript
  deriving DecidableEq, Repr

/-- Execution data accumulated during tapscript evaluation. -/
structure ExecData where
  tapleafHashInit : Bool
  tapleafHash : Bytes
  codeseparatorPosInit : Bool
  codeseparatorPos : Nat
  annexInit : Bool
  annexPresent : Bool
  annexHash : Bytes
  validationWeightLeftInit : Bool
  validationWeightLeft : Int
  deriving DecidableEq, Repr

/-- Fresh execution data. -/
def ExecData.new : ExecData where
  tapleafHashInit := false
  tapleafHash := List.replicate 32 0
  codeseparatorPosInit := false
  codeseparatorPos := 0xFFFFFFFF
  annexInit := false
  annexPresent := false
  annexHash := List.replicate 32 0
  validationWeightLeftInit := false
  validationWeightLeft := 0

/-- The caller's signature and lock-time checks. The Schnorr check may panic:
the transaction checker asserts the signature version and key length. -/
structure SignatureChecker where
  checkEcdsaSignature : (sig pubkey scriptCode : Bytes) → SigVersion → Bool
  checkSchnorrSignature : (sig pubkey : Bytes) → SigVersion → ExecData → Exec Bool
  checkLockTime : Int → Bool
  checkSequence : Int → Bool

/-- What the interpreter guarantees when it asks for a Schnorr check is enough
for the checker not to panic. -/
def SignatureChecker.AcceptsSchnorrCalls (checker : SignatureChecker) : Prop :=
  ∀ sig pubkey version execData, pubkey.length = 32 →
    (version = .taproot ∨ version = .tapscript) →
      checker.checkSchnorrSignature sig pubkey version execData ≠ .panic

/-- The checker that refuses everything. -/
def noopChecker : SignatureChecker where
  checkEcdsaSignature _ _ _ _ := false
  checkSchnorrSignature _ _ _ _ := .ok false
  checkLockTime _ := false
  checkSequence _ := false

/-- The refusing checker keeps the contract. -/
theorem noopChecker_acceptsSchnorrCalls : noopChecker.AcceptsSchnorrCalls := by
  intro sig pubkey version execData _ _
  simp [noopChecker]

/-- The parity of a public key's second coordinate. -/
inductive Parity where
  | even | odd
  deriving DecidableEq, Repr

/-- The hash and secp256k1 functions the interpreter calls. -/
structure Crypto where
  ripemd160 : Bytes → Bytes
  sha1 : Bytes → Bytes
  sha256 : Bytes → Bytes
  /-- Parse a DER signature, lower its S value and serialize it again. -/
  normalizedDer : Bytes → Option Bytes
  /-- Parse an x-only public key and return its serialization. -/
  xOnlyPublicKey : Bytes → Option Bytes
  /-- Add a scalar, given by its bytes, times the generator to an x-only key. -/
  addTweak : (key tweak : Bytes) → Option (Bytes × Parity)

end Satd.Consensus
