import Satd.Bitcoin.Types

/-!
# Counting signature operations

The sigop counts behind the block limit: the opcodes of a script are read one
after another, a truncated push ends the count, and a multisig opcode counts the
number pushed just before it when the count is accurate. A cursor into a script
is modelled by the bytes that are left. Loops over a script run on its length,
which `scriptSigopCount_counts` shows to be enough.
-/

namespace Satd.Validation

open Rust Satd.Bitcoin List Outcome
open Satd.Consensus (Bytes)

def maxPubkeysPerMultisig : Nat := 20
def witnessScaleFactor : Nat := 4
def witnessV0KeyhashSize : Nat := 20
def witnessV0ScripthashSize : Nat := 32

/-- Which kinds of signature operation are counted. -/
inductive SigOpFlags where
  | legacy | p2sh | p2shWitness
  deriving DecidableEq, Repr

def SigOpFlags.hasP2sh : SigOpFlags → Bool
  | .legacy => false
  | _ => true

def SigOpFlags.hasWitness : SigOpFlags → Bool
  | .p2shWitness => true
  | _ => false

/-! ## Reading opcodes -/

/-- A push of `size` bytes, with the bytes left after it. -/
def takePush (opcode : UInt8) (size : Nat) (rest : Bytes) : Option (UInt8 × Bytes × Bytes) :=
  if size ≤ rest.length then some (opcode, rest.take size, rest.drop size) else none

/-- The next opcode, the data it pushes and the bytes left after both. -/
def getOp : Bytes → Option (UInt8 × Bytes × Bytes)
  | [] => none
  | opcode :: rest =>
    if opcode = 0x4c then
      match rest with
      | size :: rest => takePush opcode size.toNat rest
      | _ => none
    else if opcode = 0x4d then
      match rest with
      | low :: high :: rest => takePush opcode (Wire.leNat [low, high]) rest
      | _ => none
    else if opcode = 0x4e then
      match rest with
      | a :: b :: c :: d :: rest => takePush opcode (Wire.leNat [a, b, c, d]) rest
      | _ => none
    else if opcode < 0x4c then takePush opcode opcode.toNat rest
    else some (opcode, [], rest)

variable {data left : Bytes} {opcode : UInt8} {tx : Transaction}

theorem takePush_length {read : UInt8} {size : Nat} {rest : Bytes}
    (taken : takePush opcode size rest = some (read, data, left)) : left.length ≤ rest.length := by
  unfold takePush at taken
  split at taken
  · simp only [Option.some.injEq, Prod.mk.injEq] at taken
    obtain ⟨-, -, rfl⟩ := taken
    simp
  · cases taken

/-- Reading an opcode leaves fewer bytes. -/
theorem getOp_shorter {script : Bytes} (read : getOp script = some (opcode, data, left)) :
    left.length < script.length := by
  cases script with
  | nil => cases read
  | cons first rest =>
    simp only [getOp] at read
    split_ifs at read
    rotate_left 3
    · exact Nat.lt_succ_of_le (takePush_length read)
    · cases read
      exact Nat.lt_succ_self _
    all_goals
      split at read
      · have := takePush_length read
        simp only [length_cons]
        omega
      · cases read

/-- The number an opcode from `OP_0` to `OP_16` stands for. -/
def decodeOpN (opcode : UInt8) : Nat := if opcode = 0x00 then 0 else opcode.toNat - 0x50

variable (script : Bytes)

def isPayToScriptHash : Bool :=
  script.length = 23 && script[0]? == some 0xa9 && script[1]? == some 0x14 &&
    script[22]? == some 0x87

/-- A version opcode and one direct push of 2 to 40 bytes that ends the script. -/
def witnessProgram : Option (Nat × Bytes) :=
  if script.length < 4 ∨ script.length > 42 then none
  else
    match script with
    | version :: size :: program =>
      if version ≠ 0x00 ∧ ¬(0x51 ≤ version ∧ version ≤ 0x60) then none
      else if size.toNat + 2 = script.length then some (decodeOpN version, program)
      else none
    | _ => none

/-! ## Counting -/

variable (accurate : Bool)

/-- What one opcode adds to the count. -/
def opcodeSigops (lastOpcode opcode : UInt8) : Nat :=
  if opcode = 0xac ∨ opcode = 0xad then 1
  else if opcode = 0xae ∨ opcode = 0xaf then
    if accurate ∧ 0x51 ≤ lastOpcode ∧ lastOpcode ≤ 0x60 then decodeOpN lastOpcode
    else maxPubkeysPerMultisig
  else 0

/-- The counting loop, for at most `fuel` opcodes. -/
def sigopLoop (accurate : Bool) : Nat → UInt8 → Bytes → Nat
  | 0, _, _ => 0
  | fuel + 1, lastOpcode, script =>
    match getOp script with
    | none => 0
    | some (opcode, _, rest) =>
      opcodeSigops accurate lastOpcode opcode + sigopLoop accurate fuel opcode rest

/-- The sigops of one script. -/
def scriptSigopCount : Nat := sigopLoop accurate script.length 0xff script

/-- What the loop counts from an opcode on, however many follow. -/
inductive SigopCount (accurate : Bool) : UInt8 → Bytes → Nat → Prop
  | stop {lastOpcode script} (ends : getOp script = none) : SigopCount accurate lastOpcode script 0
  | next {lastOpcode script opcode data rest count}
      (read : getOp script = some (opcode, data, rest))
      (later : SigopCount accurate opcode rest count) :
      SigopCount accurate lastOpcode script (opcodeSigops accurate lastOpcode opcode + count)

theorem sigopLoop_counts {fuel : Nat} {lastOpcode : UInt8} {script : Bytes}
    (enough : script.length ≤ fuel) :
    SigopCount accurate lastOpcode script (sigopLoop accurate fuel lastOpcode script) := by
  induction fuel generalizing lastOpcode script with
  | zero =>
    obtain rfl : script = [] := length_eq_zero_iff.mp (Nat.le_zero.mp enough)
    exact .stop rfl
  | succ fuel ih =>
    rw [sigopLoop]
    cases read : getOp script with
    | none => exact .stop read
    | some result =>
      have shorter := getOp_shorter read
      exact .next read (ih (by omega))

theorem scriptSigopCount_counts :
    SigopCount accurate 0xff script (scriptSigopCount script accurate) :=
  sigopLoop_counts accurate le_rfl

/-- The data the last opcode of a script pushes, when every opcode parses and is
at most `OP_16`. -/
def lastPushLoop : Nat → Bytes → Bytes → Option Bytes
  | _, data, [] => some data
  | 0, _, _ :: _ => none
  | fuel + 1, _, script =>
    match getOp script with
    | none => none
    | some (opcode, pushed, rest) =>
      if opcode > 0x60 then none else lastPushLoop fuel pushed rest

def lastPush : Option Bytes := lastPushLoop script.length [] script

/-- The sigops of the redeem script that `scriptSig` reveals. -/
def p2shSigopCount (scriptPubkey scriptSig : Bytes) : Nat :=
  if isPayToScriptHash scriptPubkey then
    match lastPush scriptSig with
    | some data => scriptSigopCount data true
    | none => 0
  else scriptSigopCount scriptPubkey true

def witnessProgramSigops (version : Nat) (program : Bytes) (witness : List Bytes) : Nat :=
  if version = 0 then
    if program.length = witnessV0KeyhashSize then 1
    else if program.length = witnessV0ScripthashSize then
      match witness.getLast? with
      | some witnessScript => scriptSigopCount witnessScript true
      | none => 0
    else 0
  else 0

/-- The witness sigops of one input. -/
def witnessSigopCount (scriptSig scriptPubkey : Bytes) (witness : List Bytes)
    (flags : SigOpFlags) : Nat :=
  if flags.hasWitness then
    match witnessProgram scriptPubkey with
    | some (version, program) => witnessProgramSigops version program witness
    | none =>
      if isPayToScriptHash scriptPubkey then
        -- A push-only script's last push may itself be a witness program.
        match lastPush scriptSig with
        | some data =>
          match witnessProgram data with
          | some (version, program) => witnessProgramSigops version program witness
          | none => 0
        | none => 0
      else 0
  else 0

/-- The inaccurate count of every input and output script. -/
def legacySigopCount (tx : Transaction) : Nat :=
  (tx.input.map fun input => scriptSigopCount input.scriptSig false).sum +
    (tx.output.map fun output => scriptSigopCount output.scriptPubkey false).sum

def transactionP2shSigopCount (tx : Transaction) (prevouts : List TxOut) : Nat :=
  ((tx.input.zip prevouts).filter fun pair => isPayToScriptHash pair.2.scriptPubkey).map
    (fun pair => p2shSigopCount pair.2.scriptPubkey pair.1.scriptSig) |>.sum

/-- The sigop cost of a transaction. Any transaction but a coinbase needs the
output each input spends; a list of another length is a panic. -/
def transactionSigopCost {ε : Type} (tx : Transaction) (prevouts : List TxOut)
    (flags : SigOpFlags) : Outcome ε Nat := do
  let legacy := legacySigopCount tx * witnessScaleFactor
  if tx.isCoinbase then
    pure legacy
  else do
    assert (prevouts.length == tx.input.length)
    let p2sh :=
      if flags.hasP2sh then transactionP2shSigopCount tx prevouts * witnessScaleFactor else 0
    let witness := ((tx.input.zip prevouts).map fun pair =>
      witnessSigopCount pair.1.scriptSig pair.2.scriptPubkey pair.1.witness flags).sum
    pure (legacy + p2sh + witness)

/-- With one output per input the cost is defined. -/
theorem transactionSigopCost_safe {ε : Type} {prevouts : List TxOut} (flags : SigOpFlags)
    (matched : prevouts.length = tx.input.length) :
    Safe (transactionSigopCost tx prevouts flags : Outcome ε Nat) := by
  unfold transactionSigopCost
  by_cases coinbase : tx.isCoinbase
  · simp [coinbase]
  · simp [coinbase, matched]

/-- A coinbase's cost is defined and does not read the outputs it is given. -/
theorem transactionSigopCost_coinbase_safe {ε : Type} (prevouts : List TxOut) (flags : SigOpFlags)
    (coinbase : tx.isCoinbase = true) :
    Safe (transactionSigopCost tx prevouts flags : Outcome ε Nat) := by
  simp [transactionSigopCost, coinbase]

end Satd.Validation
