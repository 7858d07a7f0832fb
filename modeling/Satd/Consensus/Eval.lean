import Satd.Consensus.Opcode

/-!
# The script interpreter

`evalScript` runs a script over a stack of byte strings, last element on top.
The mutable locals of the source function are the fields of `EvalState`, one
pass of its loop is `evalStep`, and each arm of the opcode dispatch is a
definition of its own. Flags are an argument of exactly the definitions that
read them.
-/

namespace Satd.Consensus

open Rust Outcome
open Rust.Outcome (failWhen onlyIf)

/-- The main and alternate stacks, last element on top. -/
abbrev Stack := List Bytes

def maxScriptElementSize : Nat := 520
def maxOpsPerScript : Nat := 201
def maxPubkeysPerMultisig : Nat := 20
def maxScriptSize : Nat := 10000
def maxStackSize : Nat := 1000
def validationWeightPerSigopPassed : Int := 50

/-- What stays fixed while a script runs, the flags apart. -/
structure Env where
  build : Build
  crypto : Crypto
  checker : SignatureChecker
  sigVersion : SigVersion
  script : Bytes

/-- The rules before tapscript, with their size and operation limits. -/
def SigVersion.preTapscript (version : SigVersion) : Bool :=
  version == .base || version == .witnessV0

/-- The locals of the evaluation loop. -/
structure EvalState where
  stack : Stack
  altstack : Stack
  vfExec : ConditionStack
  nOpCount : Nat
  pc : Nat
  pbegincodehash : Nat
  opcodePos : Nat
  execData : ExecData

/-! ## Signature opcodes -/

/-- Drop a signature from the code it signs; with the flag, finding one fails. -/
def deleteSignature (flags : UInt32) (code sig : Bytes) : Exec Bytes := do
  let (newCode, found) ← findAndDelete code (signaturePattern sig)
  failWhen (found > 0 && hasFlag flags verifyConstScriptcode) .sigFindAndDelete
  .ok newCode

variable (env : Env)

/-- Signature check of bare, P2SH and version 0 witness scripts. -/
def evalChecksigPreTapscript (flags : UInt32) (sig pubkey scriptCode : Bytes) : Exec Bool := do
  let code ← (if env.sigVersion == .base then deleteSignature flags scriptCode sig
    else .ok scriptCode)
  checkSignatureEncoding env.build env.crypto sig flags
  checkPubkeyEncoding pubkey flags env.sigVersion
  let success := env.checker.checkEcdsaSignature sig pubkey code env.sigVersion
  failWhen (!success && hasFlag flags verifyNullfail && !sig.isEmpty) .sigNullFail
  .ok success

/-- Take the cost of a signature that is not empty off the weight budget. -/
def spendValidationWeight (sig : Bytes) (execData : ExecData) : Exec ExecData :=
  if sig.isEmpty then .ok execData
  else do
    assert execData.validationWeightLeftInit
    let left ← env.build.signed 64 (execData.validationWeightLeft - validationWeightPerSigopPassed)
    failWhen (left < 0) .tapscriptValidationWeight
    .ok { execData with validationWeightLeft := left }

/-- Signature check of tapscripts. -/
def evalChecksigTapscript (flags : UInt32) (sig pubkey : Bytes)
    (execData : ExecData) : Exec (Bool × ExecData) := do
  let success := !sig.isEmpty
  let execData ← spendValidationWeight env sig execData
  if pubkey.isEmpty then .err .tapscriptEmptyPubkey
  else if pubkey.length = 32 then do
    onlyIf success do
      let verified ← env.checker.checkSchnorrSignature sig pubkey .tapscript execData
      failWhen (!verified) .schnorrSig
    .ok (success, execData)
  else do
    failWhen (hasFlag flags verifyDiscourageUpgradablePubkeytype) .discourageUpgradablePubkeyType
    .ok (success, execData)

/-- Route a signature check to the rules of the signature version. -/
def evalChecksig (flags : UInt32) (sig pubkey scriptCode : Bytes)
    (execData : ExecData) : Exec (Bool × ExecData) :=
  match env.sigVersion with
  | .base | .witnessV0 => do
    let success ← evalChecksigPreTapscript env flags sig pubkey scriptCode
    .ok (success, execData)
  | .tapscript => evalChecksigTapscript env flags sig pubkey execData
  | .taproot => .panic

/-! ## Stack opcodes -/

/-- Fail unless the stack holds at least `count` elements. -/
def requireItems (stack : Stack) (count : Nat) : Exec Unit :=
  failWhen (stack.length < count) .invalidStackOperation

variable (build : Build)

/-- The element `depth` places from the end of the stack, 1 being the top. -/
def fromTop (stack : Stack) (depth : Nat) : Exec Bytes := do
  let position ← build.sub 64 stack.length depth
  index stack position

/-- Compare the two top elements. -/
def execEqual (stack : Stack) : Exec (Bool × Stack) := do
  requireItems stack 2
  let (vch2, stack) ← popLast stack
  let (vch1, stack) ← popLast stack
  .ok (vch1 == vch2, stack)

/-- The opcodes that only work on the stack. -/
def execStackOp (stack : Stack) : StackOp → Exec Stack
  | .verify => do
    requireItems stack 1
    let top ← lastItem stack
    let value ← castToBool build top
    failWhen (!value) .verify
    .ok stack.dropLast
  | .drop2 => do
    requireItems stack 2
    .ok stack.dropLast.dropLast
  | .dup2 => do
    requireItems stack 2
    let vch1 ← fromTop build stack 2
    let vch2 ← fromTop build stack 1
    .ok (stack ++ [vch1, vch2])
  | .dup3 => do
    requireItems stack 3
    let vch1 ← fromTop build stack 3
    let vch2 ← fromTop build stack 2
    let vch3 ← fromTop build stack 1
    .ok (stack ++ [vch1, vch2, vch3])
  | .over2 => do
    requireItems stack 4
    let vch1 ← fromTop build stack 4
    let vch2 ← fromTop build stack 3
    .ok (stack ++ [vch1, vch2])
  | .rot2 => do
    requireItems stack 6
    let vch1 ← fromTop build stack 6
    let vch2 ← fromTop build stack 5
    let start ← build.sub 64 stack.length 6
    let stop ← build.sub 64 stack.length 4
    let rest ← drainItems stack start stop
    .ok (rest ++ [vch1, vch2])
  | .swap2 => do
    requireItems stack 4
    let first ← build.sub 64 stack.length 4
    let second ← build.sub 64 stack.length 3
    let third ← build.sub 64 stack.length 2
    let fourth ← build.sub 64 stack.length 1
    let stack ← swapItems stack first third
    swapItems stack second fourth
  | .ifdup => do
    requireItems stack 1
    let vch ← lastItem stack
    let value ← castToBool build vch
    .ok (if value then stack ++ [vch] else stack)
  | .depth => do
    let item ← serializeI64 build stack.length
    .ok (stack ++ [item])
  | .drop => do
    requireItems stack 1
    .ok stack.dropLast
  | .dup => do
    requireItems stack 1
    let vch ← lastItem stack
    .ok (stack ++ [vch])
  | .nip => do
    requireItems stack 2
    let position ← build.sub 64 stack.length 2
    removeItem stack position
  | .overOp => do
    requireItems stack 2
    let vch ← fromTop build stack 2
    .ok (stack ++ [vch])
  | .rot => do
    requireItems stack 3
    let first ← build.sub 64 stack.length 3
    let second ← build.sub 64 stack.length 2
    let third ← build.sub 64 stack.length 1
    let stack ← swapItems stack first second
    swapItems stack second third
  | .swap => do
    requireItems stack 2
    let first ← build.sub 64 stack.length 2
    let second ← build.sub 64 stack.length 1
    swapItems stack first second
  | .tuck => do
    requireItems stack 2
    let vch ← lastItem stack
    let position ← build.sub 64 stack.length 2
    insertItem stack position vch
  | .size => do
    requireItems stack 1
    let top ← lastItem stack
    let item ← serializeI64 build top.length
    .ok (stack ++ [item])
  | .equal => do
    let (fEqual, stack) ← execEqual stack
    .ok (stack ++ [boolItem fEqual])
  | .equalVerify => do
    -- The pushed result is taken off again when the check passes.
    let (fEqual, stack) ← execEqual stack
    failWhen (!fEqual) .equalVerify
    .ok stack

/-- Copy or move the element at the depth given by the top of the stack. -/
def execPick (requireMinimal roll : Bool) (stack : Stack) : Exec Stack := do
  requireItems stack 2
  let top ← lastItem stack
  let number ← fromBytesDefault build top requireMinimal
  let n := getint number
  let stack := stack.dropLast
  failWhen (n < 0 || n.toNat ≥ stack.length) .invalidStackOperation
  let above ← build.sub 64 stack.length n.toNat
  let position ← build.sub 64 above 1
  let vch ← index stack position
  let rest ← (if roll then removeItem stack position else .ok stack)
  .ok (rest ++ [vch])

/-- Replace the top element by its hash. -/
def execHash (crypto : Crypto) (op : HashOp) (stack : Stack) : Exec Stack := do
  requireItems stack 1
  let (data, stack) ← popLast stack
  let hash := match op with
    | .ripemd160 => crypto.ripemd160 data
    | .sha1 => crypto.sha1 data
    | .sha256 => crypto.sha256 data
    | .hash160 => crypto.ripemd160 (crypto.sha256 data)
    | .hash256 => crypto.sha256 (crypto.sha256 data)
  .ok (stack ++ [hash])

/-! ## Numeric opcodes -/

/-- The result of a numeric opcode with one operand. -/
def unaryResult (bn : Int) : UnaryOp → Exec Int
  | .add1 => addNum build bn 1
  | .sub1 => subNum build bn 1
  | .negate => negate build bn
  | .abs => if bn < 0 then negate build bn else .ok bn
  | .not => .ok (numOfBool (bn == 0))
  | .notEqual0 => .ok (numOfBool (bn != 0))

variable (requireMinimal : Bool)

def execUnary (op : UnaryOp) (stack : Stack) : Exec Stack := do
  requireItems stack 1
  let top ← lastItem stack
  let bn ← fromBytesDefault build top requireMinimal
  let result ← unaryResult build bn op
  let item ← serializeI64 build result
  .ok (stack.dropLast ++ [item])

/-- The result of a numeric opcode with two operands. -/
def binaryResult (bn1 bn2 : Int) : BinaryOp → Exec Int
  | .add => addNum build bn1 bn2
  | .sub => subNum build bn1 bn2
  | .boolAnd => .ok (numOfBool (bn1 != 0 && bn2 != 0))
  | .boolOr => .ok (numOfBool (bn1 != 0 || bn2 != 0))
  | .numEqual | .numEqualVerify => .ok (numOfBool (bn1 == bn2))
  | .numNotEqual => .ok (numOfBool (bn1 != bn2))
  | .lessThan => .ok (numOfBool (bn1 < bn2))
  | .greaterThan => .ok (numOfBool (bn1 > bn2))
  | .lessThanOrEqual => .ok (numOfBool (bn1 ≤ bn2))
  | .greaterThanOrEqual => .ok (numOfBool (bn1 ≥ bn2))
  | .min => .ok (if bn1 < bn2 then bn1 else bn2)
  | .max => .ok (if bn1 > bn2 then bn1 else bn2)

def execBinary (op : BinaryOp) (stack : Stack) : Exec Stack := do
  requireItems stack 2
  let item2 ← fromTop build stack 1
  let bn2 ← fromBytesDefault build item2 requireMinimal
  let item1 ← fromTop build stack 2
  let bn1 ← fromBytesDefault build item1 requireMinimal
  let result ← binaryResult build bn1 bn2 op
  let item ← serializeI64 build result
  let stack := stack.dropLast.dropLast ++ [item]
  if op = .numEqualVerify then do
    let top ← lastItem stack
    let value ← castToBool build top
    failWhen (!value) .numEqualVerify
    .ok stack.dropLast
  else .ok stack

def execWithin (stack : Stack) : Exec Stack := do
  requireItems stack 3
  let item3 ← fromTop build stack 1
  let bn3 ← fromBytesDefault build item3 requireMinimal
  let item2 ← fromTop build stack 2
  let bn2 ← fromBytesDefault build item2 requireMinimal
  let item1 ← fromTop build stack 3
  let bn1 ← fromBytesDefault build item1 requireMinimal
  .ok (stack.dropLast.dropLast.dropLast ++ [boolItem (bn2 ≤ bn1 && bn1 < bn3)])

/-! ## Lock times and conditionals -/

/-- The top of the stack as a lock time of up to five bytes. -/
def readLockTime (stack : Stack) : Exec Int := do
  requireItems stack 1
  let top ← lastItem stack
  let value ← fromBytes build top requireMinimal 5
  failWhen (value < 0) .negativeLocktime
  .ok value

/-- The bit of a sequence number that turns its check off. -/
def sequenceLocktimeDisabled (value : Int) : Bool := (value % 4294967296).toNat.testBit 31

variable (flags : UInt32) (stack : Stack)

def checkLockTimeVerify : Exec Unit :=
  onlyIf (hasFlag flags verifyChecklocktimeverify) do
    let nLockTime ← readLockTime env.build (hasFlag flags verifyMinimaldata) stack
    failWhen (!env.checker.checkLockTime nLockTime) .unsatisfiedLocktime

def checkSequenceVerify : Exec Unit :=
  onlyIf (hasFlag flags verifyChecksequenceverify) do
    let nSequence ← readLockTime env.build (hasFlag flags verifyMinimaldata) stack
    failWhen (!sequenceLocktimeDisabled nSequence &&
      !env.checker.checkSequence nSequence) .unsatisfiedLocktime

/-- The argument of a conditional is empty or the single byte one. -/
def checkMinimalIf (vch : Bytes) (error : ScriptError) : Exec Unit :=
  if vch.length > 1 then .err error
  else if vch.length = 1 then do
    let byte ← index vch 0
    failWhen (byte != 1) error
  else .ok ()

/-- Whether the flags restrict the argument of a conditional. -/
def minimalIfAsked (sigVersion : SigVersion) : Bool :=
  (sigVersion == .witnessV0 && hasFlag flags verifyMinimalif) ||
    (sigVersion == .base && hasFlag flags verifyMinimalifBase)

/-- Take the argument of an executed conditional off the stack. -/
def takeCondition (negated : Bool) (stack : Stack) : Exec (Bool × Stack) := do
  requireItems stack 1
  let vch ← lastItem stack
  onlyIf (env.sigVersion == .tapscript) (checkMinimalIf vch .tapscriptMinimalIf)
  onlyIf (minimalIfAsked flags env.sigVersion) (checkMinimalIf vch .minimalIf)
  let value ← castToBool env.build vch
  .ok (if negated then !value else value, stack.dropLast)

def execIf (flags : UInt32) (negated fExec : Bool) (state : EvalState) : Exec EvalState := do
  let (fValue, stack) ← (if fExec then takeCondition env flags negated state.stack
    else .ok (false, state.stack))
  let vfExec ← state.vfExec.pushBack env.build fValue
  .ok { state with stack, vfExec }

/-! ## Multiple signatures -/

/-- Drop each of the given signatures from the code, deepest index last. -/
def deleteSignatures (stack : Stack) (isig : Nat) : List Nat → Bytes → Exec Bytes
  | [], code => .ok code
  | k :: rest, code => do
    let above ← env.build.sub 64 stack.length isig
    let position ← env.build.sub 64 above k
    let sigData ← index stack position
    let code ← deleteSignature flags code sigData
    deleteSignatures stack isig rest code

/-- The state of the loop that matches signatures with keys. -/
structure MultisigState where
  isig : Nat
  ikey : Nat
  nSigsCount : Int
  nKeysRemaining : Int
  fSuccess : Bool

/-- Check the current signature against the current key. -/
def multisigPass (scriptCode : Bytes) (state : MultisigState) :
    Exec (Outcome.Flow MultisigState Bool) :=
  if state.fSuccess ∧ state.nSigsCount > 0 then do
    let vchSig ← fromTop env.build stack state.isig
    let vchPubkey ← fromTop env.build stack state.ikey
    checkSignatureEncoding env.build env.crypto vchSig flags
    checkPubkeyEncoding vchPubkey flags env.sigVersion
    let fOk := env.checker.checkEcdsaSignature vchSig vchPubkey scriptCode env.sigVersion
    let nSigsCount ← (if fOk then env.build.signed 32 (state.nSigsCount - 1)
      else .ok state.nSigsCount)
    let nKeysRemaining ← env.build.signed 32 (state.nKeysRemaining - 1)
    .ok (.next
      { isig := if fOk then state.isig + 1 else state.isig
        ikey := state.ikey + 1
        nSigsCount
        nKeysRemaining
        fSuccess := decide (nSigsCount ≤ nKeysRemaining) })
  else .ok (.done state.fSuccess)

/-- Take the arguments off the stack. The counter `ikey2` reaches zero at the
first signature, from where a failed check may ask for empty ones. -/
def popMultisigArguments (fSuccess : Bool) : Nat → Nat → Stack → Exec Stack
  | i + 2, ikey2, stack => do
    onlyIf (!fSuccess && hasFlag flags verifyNullfail && ikey2 == 0) do
      let top ← fromTop env.build stack 1
      failWhen (!top.isEmpty) .sigNullFail
    popMultisigArguments fSuccess (i + 1) (ikey2 - 1) stack.dropLast
  | _, _, stack => .ok stack

/-- The numbers of keys and signatures of a multiple-signature check, with the
operation count they lead to. -/
structure MultisigCounts where
  nKeysCount : Nat
  nSigsCount : Nat
  nOpCount : Nat

/-- Read the two counts, checking each against its limit and the stack size. -/
def readMultisigCounts (nOpCount : Nat) : Exec MultisigCounts := do
  requireItems stack 1
  let keysItem ← fromTop build stack 1
  let keysNumber ← fromBytesDefault build keysItem requireMinimal
  let nKeysCount := getint keysNumber
  failWhen (nKeysCount < 0 || nKeysCount.toNat > maxPubkeysPerMultisig) .pubkeyCount
  let nOpCount := nOpCount + nKeysCount.toNat
  failWhen (nOpCount > maxOpsPerScript) .opCount
  requireItems stack (2 + nKeysCount.toNat)
  let sigsItem ← fromTop build stack (2 + nKeysCount.toNat)
  let sigsNumber ← fromBytesDefault build sigsItem requireMinimal
  let nSigsCount := getint sigsNumber
  failWhen (nSigsCount < 0 || nSigsCount > nKeysCount) .sigCount
  requireItems stack (3 + nKeysCount.toNat + nSigsCount.toNat)
  .ok { nKeysCount := nKeysCount.toNat, nSigsCount := nSigsCount.toNat, nOpCount }

/-- The dummy element that a multiple-signature check consumes besides its
arguments. -/
def popDummy : Exec Stack := do
  requireItems stack 1
  onlyIf (hasFlag flags verifyNulldummy) do
    let dummy ← lastItem stack
    failWhen (!dummy.isEmpty) .sigNullDummy
  .ok stack.dropLast

def execCheckMultiSig (flags : UInt32) (verify : Bool) (state : EvalState) : Exec EvalState := do
  failWhen (env.sigVersion == .tapscript) .tapscriptCheckMultiSig
  let counts ← readMultisigCounts env.build (hasFlag flags verifyMinimaldata) state.stack
    state.nOpCount
  let scriptCode ← slice env.script state.pbegincodehash env.script.length
  let isig := 3 + counts.nKeysCount
  let scriptCode ← (if env.sigVersion == .base then
      deleteSignatures env flags state.stack isig (List.range counts.nSigsCount) scriptCode
    else .ok scriptCode)
  let fSuccess ← loop (multisigPass env flags state.stack scriptCode)
    (counts.nKeysCount + 2)
    { isig, ikey := 2, nSigsCount := counts.nSigsCount, nKeysRemaining := counts.nKeysCount,
      fSuccess := true }
  let stack ← popMultisigArguments env flags fSuccess (isig + counts.nSigsCount)
    (counts.nKeysCount + 2) state.stack
  let stack ← popDummy flags stack
  let state := { state with nOpCount := counts.nOpCount }
  if verify then do
    failWhen (!fSuccess) .checkMultiSigVerify
    .ok { state with stack }
  else .ok { state with stack := stack ++ [boolItem fSuccess] }

/-! ## Single signatures -/

def execCheckSig (flags : UInt32) (verify : Bool) (state : EvalState) : Exec EvalState := do
  requireItems state.stack 2
  let (vchPubkey, stack) ← popLast state.stack
  let (vchSig, stack) ← popLast stack
  let scriptCode ← slice env.script state.pbegincodehash env.script.length
  let (fSuccess, execData) ← evalChecksig env flags vchSig vchPubkey scriptCode state.execData
  if verify then do
    failWhen (!fSuccess) .checkSigVerify
    .ok { state with stack, execData }
  else .ok { state with stack := stack ++ [boolItem fSuccess], execData }

def execCheckSigAdd (flags : UInt32) (state : EvalState) : Exec EvalState := do
  failWhen env.sigVersion.preTapscript .badOpcode
  requireItems state.stack 3
  let (pubkey, stack) ← popLast state.stack
  let numItem ← lastItem stack
  let num ← fromBytesDefault env.build numItem (hasFlag flags verifyMinimaldata)
  let (sig, stack) ← popLast stack.dropLast
  let scriptCode ← slice env.script state.pbegincodehash env.script.length
  let (success, execData) ← evalChecksig env flags sig pubkey scriptCode state.execData
  let result ← addNum env.build num (if success then 1 else 0)
  let item ← serializeI64 env.build result
  .ok { state with stack := stack ++ [item], execData }

/-! ## The loop -/

variable (instruction : Instruction)

/-- Push the data of an instruction. -/
def execPush (state : EvalState) : Exec EvalState := do
  onlyIf (hasFlag flags verifyMinimaldata) do
    let minimal ← checkMinimalPush instruction.pushData instruction.opcode
    failWhen (!minimal) .minimalData
  .ok { state with stack := state.stack ++ [instruction.pushData] }

/-- Put a new stack into the state. -/
def EvalState.withStack (state : EvalState) (program : Exec Stack) : Exec EvalState := do
  let stack ← program
  .ok { state with stack }

/-- Dispatch an opcode that is not a push of data. -/
def execOp (flags : UInt32) (fExec : Bool) (opcode : UInt8) (state : EvalState) : Exec EvalState :=
  let requireMinimal := hasFlag flags verifyMinimaldata
  match Op.ofByte opcode with
  | .pushValue => state.withStack do
    let item ← serializeI64 env.build (opcode.toNat - 0x50)
    .ok (state.stack ++ [item])
  | .nop => .ok state
  | .checkLockTimeVerify => do
    checkLockTimeVerify env flags state.stack
    .ok state
  | .checkSequenceVerify => do
    checkSequenceVerify env flags state.stack
    .ok state
  | .upgradableNop => do
    failWhen (hasFlag flags verifyDiscourageUpgradableNops) .discourageUpgradableNops
    .ok state
  | .ifOp negated => execIf env flags negated fExec state
  | .elseOp => do
    failWhen state.vfExec.isEmpty .unbalancedConditional
    let vfExec ← state.vfExec.toggleTop env.build
    .ok { state with vfExec }
  | .endIf => do
    failWhen state.vfExec.isEmpty .unbalancedConditional
    let vfExec ← state.vfExec.popBack env.build
    .ok { state with vfExec }
  | .returnOp => .err .opReturn
  | .toAltStack => do
    requireItems state.stack 1
    let (item, stack) ← popLast state.stack
    .ok { state with stack, altstack := state.altstack ++ [item] }
  | .fromAltStack => do
    failWhen state.altstack.isEmpty .invalidAltstackOperation
    let (item, altstack) ← popLast state.altstack
    .ok { state with stack := state.stack ++ [item], altstack }
  | .stackOp op => state.withStack (execStackOp env.build state.stack op)
  | .pick roll => state.withStack (execPick env.build requireMinimal roll state.stack)
  | .unary op => state.withStack (execUnary env.build requireMinimal op state.stack)
  | .binary op => state.withStack (execBinary env.build requireMinimal op state.stack)
  | .within => state.withStack (execWithin env.build requireMinimal state.stack)
  | .hash op => state.withStack (execHash env.crypto op state.stack)
  | .codeSeparator => .ok
      { state with
        pbegincodehash := state.pc
        execData := { state.execData with codeseparatorPos := state.opcodePos } }
  | .checkSig verify => execCheckSig env flags verify state
  | .checkSigAdd => execCheckSigAdd env flags state
  | .checkMultiSig verify => execCheckMultiSig env flags verify state
  | .bad => .err .badOpcode

/-- Execute an instruction, if its branch is executed or it is a conditional. -/
def execInstruction (flags : UInt32) (fExec : Bool) (instruction : Instruction)
    (state : EvalState) : Exec EvalState :=
  if fExec ∧ instruction.opcode ≤ 0x4e then execPush flags instruction state
  else if fExec ∨ (0x63 ≤ instruction.opcode ∧ instruction.opcode ≤ 0x68) then
    execOp env flags fExec instruction.opcode state
  else .ok state

/-- The checks every instruction passes before it is executed, and the operation
count after it. -/
def admitInstruction (nOpCount : Nat) : Exec Nat := do
  failWhen (instruction.pushData.length > maxScriptElementSize) .pushSize
  let counted := env.sigVersion.preTapscript && decide (instruction.opcode > 0x60)
  let nOpCount := if counted then nOpCount + 1 else nOpCount
  failWhen (counted && decide (nOpCount > maxOpsPerScript)) .opCount
  failWhen (isDisabled instruction.opcode) .disabledOpcode
  failWhen (instruction.opcode == 0xab && env.sigVersion == .base &&
    hasFlag flags verifyConstScriptcode) .opCodeSeparator
  .ok nOpCount

/-- One pass of the evaluation loop. -/
def evalStep (flags : UInt32) (state : EvalState) : Exec (Outcome.Flow EvalState EvalState) :=
  if state.pc < env.script.length then do
    let fExec := state.vfExec.allTrue
    let read ← readInstruction env.script state.pc
    let instruction ← ofOption .badOpcode read
    let nOpCount ← admitInstruction env flags instruction state.nOpCount
    let state ← execInstruction env flags fExec instruction
      { state with pc := instruction.pc, nOpCount }
    failWhen (state.stack.length + state.altstack.length > maxStackSize) .stackSize
    let opcodePos ← env.build.add 32 state.opcodePos 1
    .ok (.next { state with opcodePos })
  else .ok (.done state)

/-- The state before the first instruction. -/
def EvalState.start (execData : ExecData) : EvalState where
  stack := stack
  altstack := []
  vfExec := ConditionStack.new
  nOpCount := 0
  pc := 0
  pbegincodehash := 0
  opcodePos := 0
  execData := { execData with codeseparatorPos := 0xFFFFFFFF, codeseparatorPosInit := true }

/-- Evaluate a script over a stack. -/
def evalScript (flags : UInt32) (stack : Stack) (execData : ExecData) :
    Exec (Stack × ExecData) := do
  assert (env.sigVersion != .taproot)
  failWhen (env.sigVersion.preTapscript && decide (env.script.length > maxScriptSize)) .scriptSize
  let state ← loop (evalStep env flags) (env.script.length + 1) (EvalState.start stack execData)
  failWhen (!state.vfExec.isEmpty) .unbalancedConditional
  .ok (state.stack, state.execData)

end Satd.Consensus
