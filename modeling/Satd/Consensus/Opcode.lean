import Satd.Consensus.Encoding

/-!
# Opcodes, instructions and the condition stack

The interpreter dispatches on the opcode byte. `Op.ofByte` groups the bytes the
way the arms of that dispatch do, so that a family of opcodes sharing one arm is
one constructor with the member as its argument. Reading an instruction and the
compressed stack of open conditionals are here too.
-/

namespace Satd.Consensus

open Rust Outcome
open Rust.Outcome (Safe ok_bind)

/-! ## Opcodes -/

/-- Opcodes that only rearrange, copy, compare or measure the stack. -/
inductive StackOp where
  | verify
  | drop2 | dup2 | dup3 | over2 | rot2 | swap2
  | ifdup | depth | drop | dup | nip | overOp | rot | swap | tuck | size
  | equal | equalVerify
  deriving DecidableEq, Repr

/-- Numeric opcodes with one operand. -/
inductive UnaryOp where
  | add1 | sub1 | negate | abs | not | notEqual0
  deriving DecidableEq, Repr

/-- Numeric opcodes with two operands. -/
inductive BinaryOp where
  | add | sub | boolAnd | boolOr | numEqual | numEqualVerify | numNotEqual
  | lessThan | greaterThan | lessThanOrEqual | greaterThanOrEqual | min | max
  deriving DecidableEq, Repr

/-- Hash opcodes. -/
inductive HashOp where
  | ripemd160 | sha1 | sha256 | hash160 | hash256
  deriving DecidableEq, Repr

/-- The arms of the opcode dispatch. -/
inductive Op where
  | pushValue
  | nop
  | checkLockTimeVerify
  | checkSequenceVerify
  | upgradableNop
  | ifOp (negated : Bool)
  | elseOp
  | endIf
  | returnOp
  | toAltStack
  | fromAltStack
  | stackOp (op : StackOp)
  | pick (roll : Bool)
  | unary (op : UnaryOp)
  | binary (op : BinaryOp)
  | within
  | hash (op : HashOp)
  | codeSeparator
  | checkSig (verify : Bool)
  | checkSigAdd
  | checkMultiSig (verify : Bool)
  | bad
  deriving DecidableEq, Repr

/-- The arm an opcode byte is dispatched to. -/
def Op.ofByte (opcode : UInt8) : Op :=
  if opcode == 0x4f || (0x51 ≤ opcode && opcode ≤ 0x60) then .pushValue
  else if opcode == 0xb0 || (0xb3 ≤ opcode && opcode ≤ 0xb9) then .upgradableNop
  else match opcode.toNat with
    | 0x61 => .nop
    | 0x63 => .ifOp false
    | 0x64 => .ifOp true
    | 0x67 => .elseOp
    | 0x68 => .endIf
    | 0x69 => .stackOp .verify
    | 0x6a => .returnOp
    | 0x6b => .toAltStack
    | 0x6c => .fromAltStack
    | 0x6d => .stackOp .drop2
    | 0x6e => .stackOp .dup2
    | 0x6f => .stackOp .dup3
    | 0x70 => .stackOp .over2
    | 0x71 => .stackOp .rot2
    | 0x72 => .stackOp .swap2
    | 0x73 => .stackOp .ifdup
    | 0x74 => .stackOp .depth
    | 0x75 => .stackOp .drop
    | 0x76 => .stackOp .dup
    | 0x77 => .stackOp .nip
    | 0x78 => .stackOp .overOp
    | 0x79 => .pick false
    | 0x7a => .pick true
    | 0x7b => .stackOp .rot
    | 0x7c => .stackOp .swap
    | 0x7d => .stackOp .tuck
    | 0x82 => .stackOp .size
    | 0x87 => .stackOp .equal
    | 0x88 => .stackOp .equalVerify
    | 0x8b => .unary .add1
    | 0x8c => .unary .sub1
    | 0x8f => .unary .negate
    | 0x90 => .unary .abs
    | 0x91 => .unary .not
    | 0x92 => .unary .notEqual0
    | 0x93 => .binary .add
    | 0x94 => .binary .sub
    | 0x9a => .binary .boolAnd
    | 0x9b => .binary .boolOr
    | 0x9c => .binary .numEqual
    | 0x9d => .binary .numEqualVerify
    | 0x9e => .binary .numNotEqual
    | 0x9f => .binary .lessThan
    | 0xa0 => .binary .greaterThan
    | 0xa1 => .binary .lessThanOrEqual
    | 0xa2 => .binary .greaterThanOrEqual
    | 0xa3 => .binary .min
    | 0xa4 => .binary .max
    | 0xa5 => .within
    | 0xa6 => .hash .ripemd160
    | 0xa7 => .hash .sha1
    | 0xa8 => .hash .sha256
    | 0xa9 => .hash .hash160
    | 0xaa => .hash .hash256
    | 0xab => .codeSeparator
    | 0xac => .checkSig false
    | 0xad => .checkSig true
    | 0xae => .checkMultiSig false
    | 0xaf => .checkMultiSig true
    | 0xb1 => .checkLockTimeVerify
    | 0xb2 => .checkSequenceVerify
    | 0xba => .checkSigAdd
    | _ => .bad

/-- Opcodes that fail the script even in a branch that is not executed. -/
def isDisabled (opcode : UInt8) : Bool :=
  (0x7e ≤ opcode && opcode ≤ 0x81) || (0x83 ≤ opcode && opcode ≤ 0x86) ||
    opcode == 0x8d || opcode == 0x8e || (0x95 ≤ opcode && opcode ≤ 0x99)

/-! ## Reading instructions -/

/-- An opcode, its pushed data and the position after it. -/
structure Instruction where
  opcode : UInt8
  pushData : Bytes
  pc : Nat
  deriving DecidableEq, Repr

/-- The pushed data of `length` bytes at `start`, unless the script is cut off. -/
def readPush (script : Bytes) (opcode : UInt8) (start length : Nat) : Exec (Option Instruction) :=
  if start + length > script.length then .ok none
  else do
    let pushData ← slice script start (start + length)
    .ok (some { opcode, pushData, pc := start + length })

/-- Read one instruction; `none` for a malformed script. -/
def readInstruction (script : Bytes) (pc : Nat) : Exec (Option Instruction) :=
  if pc ≥ script.length then .ok none
  else do
    let opcode ← index script pc
    let pc := pc + 1
    if opcode == 0 then .ok (some { opcode, pushData := [], pc })
    else if opcode ≤ 75 then readPush script opcode pc opcode.toNat
    else if opcode == 0x4c then
      if pc ≥ script.length then .ok none
      else do
        let n ← index script pc
        readPush script opcode (pc + 1) n.toNat
    else if opcode == 0x4d then
      if pc + 1 ≥ script.length then .ok none
      else do
        let n ← pushLength2 script pc
        readPush script opcode (pc + 2) n
    else if opcode == 0x4e then
      if pc + 3 ≥ script.length then .ok none
      else do
        let n ← pushLength4 script pc
        readPush script opcode (pc + 4) n
    else .ok (some { opcode, pushData := [], pc })

/-- The opcode of a push of `length` bytes and the number of bytes the push takes. -/
def Sized (opcode length size : Nat) : Prop :=
  opcode = length ∧ length ≤ 75 ∧ size = 1 + length ∨
    opcode = 0x4c ∧ length ≤ 255 ∧ size = 2 + length ∨
    opcode = 0x4d ∧ length ≤ 65535 ∧ size = 3 + length ∨ opcode = 0x4e ∧ size = 5 + length

/-- An instruction that was read at `pc` ends behind it in the script, and a push takes the
bytes of its form. -/
def Placed (script : Bytes) (pc : Nat) (read : Option Instruction) : Prop :=
  ∀ instruction, read = some instruction →
    (pc < instruction.pc ∧ instruction.pc ≤ script.length) ∧
      (instruction.opcode ≤ 0x4e →
        Sized instruction.opcode.toNat instruction.pushData.length (instruction.pc - pc))

variable {script : Bytes} {pc : Nat}

private theorem readPush_placed {opcode : UInt8} {start length : Nat} (after : pc < start)
    (sized : Sized opcode.toNat length (start + length - pc)) :
    Safe (readPush script opcode start length) (Placed script pc) := by
  refine .ite (fun _ => by simp [Placed]) fun fits => ?_
  rw [slice_eq_ok (by omega) (by omega)]
  rintro instruction ⟨rfl⟩
  have taken : min length (script.length - start) = length := by omega
  exact ⟨⟨by simp only; omega, by simp only; omega⟩, fun _ => by simpa [taken] using sized⟩

theorem readInstruction_placed : Safe (readInstruction script pc) (Placed script pc) := by
  have cut : Safe (.ok none : Exec (Option Instruction)) (Placed script pc) := by simp [Placed]
  refine .ite (fun _ => cut) fun inside => .read (by omega) fun opcode _ => ?_
  have next : pc < pc + 1 ∧ pc + 1 ≤ script.length := by omega
  refine .ite (fun zero => ?_) fun _ => ?_
  · rintro instruction ⟨rfl⟩
    rw [eq_of_beq zero]
    exact ⟨next, fun _ => .inl (by simp)⟩
  refine .ite (fun direct => readPush_placed next.1 (.inl ⟨rfl, direct, by omega⟩)) fun long => ?_
  refine .ite (fun one => .ite (fun _ => cut) fun more => ?_) fun notOne => ?_
  · refine .read (by omega) fun byte _ => readPush_placed (by omega) ?_
    rw [eq_of_beq one]
    exact .inr (.inl ⟨rfl, Nat.le_of_lt_succ byte.toNat_lt, by omega⟩)
  refine .ite (fun two => .ite (fun _ => cut) fun more => ?_) fun notTwo => ?_
  · refine (pushLength2_safe (by omega)).bind fun length below => readPush_placed (by omega) ?_
    rw [eq_of_beq two]
    exact .inr (.inr (.inl ⟨rfl, Nat.le_of_lt_succ below, by omega⟩))
  refine .ite (fun four => .ite (fun _ => cut) fun more => ?_) fun notFour => ?_
  · refine (pushLength4_safe (by omega)).bind fun length _ => readPush_placed (by omega) ?_
    rw [eq_of_beq four]
    exact .inr (.inr (.inr ⟨rfl, by omega⟩))
  · rintro instruction ⟨rfl⟩
    refine ⟨next, fun push => ?_⟩
    simp only [beq_iff_eq, ← UInt8.toNat_inj, UInt8.le_iff_toNat_le] at *
    simp at *
    omega

/-- Reading never leaves the script, and an instruction that was read advances. -/
theorem readInstruction_safe :
    Safe (readInstruction script pc) (fun read => ∀ instruction,
      read = some instruction → pc < instruction.pc ∧ instruction.pc ≤ script.length) :=
  readInstruction_placed.mono fun _ placed instruction same => (placed instruction same).1

/-! ## Open conditionals -/

/-- The stack of open conditionals, reduced to its size and the position of the
first branch that is not executed. -/
structure ConditionStack where
  stackSize : Nat
  firstFalsePos : Nat
  deriving DecidableEq, Repr

/-- The position that stands for no false branch. -/
def noFalse : Nat := 2 ^ 32 - 1

namespace ConditionStack

def new : ConditionStack := { stackSize := 0, firstFalsePos := noFalse }

variable (conditions : ConditionStack)

def isEmpty : Bool := conditions.stackSize == 0

def allTrue : Bool := conditions.firstFalsePos == noFalse

variable (build : Build)

def pushBack (conditions : ConditionStack) (value : Bool) : Exec ConditionStack := do
  let firstFalsePos :=
    if conditions.firstFalsePos == noFalse && !value then conditions.stackSize
    else conditions.firstFalsePos
  let stackSize ← build.add 32 conditions.stackSize 1
  .ok { stackSize, firstFalsePos }

def popBack (conditions : ConditionStack) : Exec ConditionStack := do
  assert (conditions.stackSize > 0)
  let stackSize ← build.sub 32 conditions.stackSize 1
  .ok { stackSize,
        firstFalsePos :=
          if conditions.firstFalsePos == stackSize then noFalse else conditions.firstFalsePos }

def toggleTop (conditions : ConditionStack) : Exec ConditionStack := do
  assert (conditions.stackSize > 0)
  let top ← build.sub 32 conditions.stackSize 1
  .ok { conditions with
        firstFalsePos :=
          if conditions.firstFalsePos == noFalse then top
          else if conditions.firstFalsePos == top then noFalse
          else conditions.firstFalsePos }

section

variable {build : Build} {conditions : ConditionStack}

/-- Opening a conditional is safe while the count of open ones fits, or wraps. -/
theorem pushBack_safe {value : Bool}
    (fits : build.overflowChecks = true → conditions.stackSize + 1 < 2 ^ 32) :
    Safe (pushBack build conditions value)
      (fun after => build.overflowChecks = true → after.stackSize = conditions.stackSize + 1) := by
  exact (Build.add_safe fits).bind fun stackSize exact => exact

/-- Closing a conditional is safe when one is open. -/
theorem popBack_safe (opened : conditions.isEmpty = false) :
    Safe (popBack build conditions) (fun after => after.stackSize < conditions.stackSize) := by
  have positive : 0 < conditions.stackSize := by
    simp only [isEmpty, beq_eq_false_iff_ne] at opened
    omega
  unfold popBack
  simp only [positive, decide_true, assert_true, ok_bind]
  refine .sub positive ?_
  simp only [Safe.ok_iff]
  omega

/-- Switching to the other branch is safe when a conditional is open. -/
theorem toggleTop_safe (opened : conditions.isEmpty = false) :
    Safe (toggleTop build conditions) (fun after => after.stackSize = conditions.stackSize) := by
  have positive : 0 < conditions.stackSize := by
    simp only [isEmpty, beq_eq_false_iff_ne] at opened
    omega
  unfold toggleTop
  simp only [positive, decide_true, assert_true, ok_bind]
  exact .sub positive rfl

end

end ConditionStack

end Satd.Consensus
