import Satd.Consensus.Verify

/-!
# Pushes and their shortest form

Bytes are pushed by an opcode that is their number, by one of three opcodes with one, two
or four length bytes behind it or, for minus one and the numbers up to sixteen, by an opcode
of their own. `checkMinimalPush` accepts the shortest of these, the only one of its length.
-/

namespace Satd.Consensus

open Rust Outcome List
open Rust.Outcome (Safe)

namespace Instruction

/-- The instruction is read somewhere and takes so many bytes there. -/
def Takes (instruction : Instruction) (size : Nat) : Prop :=
  ∃ script pc, readInstruction script pc = .ok (some instruction) ∧ instruction.pc = pc + size

/-- The instruction pushes the bytes, as its data or as the number of its opcode. -/
def Pushes (build : Build) (data : Bytes) (instruction : Instruction) : Prop :=
  instruction.opcode ≤ 0x4e ∧ instruction.pushData = data ∨
    Op.ofByte instruction.opcode = .pushValue ∧
      serializeI64 build (instruction.opcode.toNat - 0x50) = .ok data

end Instruction

open Instruction

/-- No instruction of fewer bytes pushes the same. -/
def Shortest (build : Build) (data : Bytes) (size : Nat) : Prop :=
  ∀ instruction shorter, Takes instruction shorter → Pushes build data instruction → size ≤ shorter

variable {build : Build} {data : Bytes} {opcode byte : UInt8} {size : Nat}
  {instruction : Instruction}

theorem Instruction.Takes.sized (takes : instruction.Takes size)
    (push : instruction.opcode ≤ 0x4e) :
    Sized instruction.opcode.toNat instruction.pushData.length size := by
  obtain ⟨script, pc, read, stop⟩ := takes
  have sized := (readInstruction_placed.of_eq_ok read instruction rfl).2 push
  rwa [stop, Nat.add_sub_cancel_left] at sized

theorem buildSinglePush_length : (buildSinglePush data).length = data.length +
    if data.length ≤ 75 then 1 else if data.length ≤ 255 then 2
    else if data.length ≤ 65535 then 3 else 5 := by
  rw [buildSinglePush]
  split_ifs <;> rfl

/-- What the builder writes is read back as a whole. -/
theorem readInstruction_buildSinglePush (short : data.length ≤ 65535) :
    ∃ opcode ≤ 0x4e, readInstruction (buildSinglePush data) 0 =
      .ok (some ⟨opcode, data, (buildSinglePush data).length⟩) := by
  have low : ∀ n ≤ 255, (UInt8.ofNat n).toNat = n := fun n small =>
    Nat.mod_eq_of_lt (Nat.lt_succ_of_le small)
  rw [buildSinglePush]
  split_ifs with direct one
  · have small : UInt8.ofNat data.length ≤ 75 := by
      rw [UInt8.le_iff_toNat_le, low _ (by omega)]
      exact direct
    refine ⟨_, UInt8.le_trans small (by decide), ?_⟩
    by_cases zero : UInt8.ofNat data.length = 0
    · have empty := low data.length (by omega)
      rw [zero] at empty
      obtain rfl := length_eq_zero_iff.mp empty.symm
      rfl
    · simp [readInstruction, readPush, slice, zero, small, low data.length (by omega), add_comm]
  · refine ⟨0x4c, by decide, ?_⟩
    simp [readInstruction, readPush, slice, low _ one, add_comm 2]
  · have number : data.length % 256 ||| (data.length >>> 8 % 256) <<< 8 = data.length := by
      rw [Nat.or_comm, ← Nat.shiftLeft_add_eq_or_of_lt (Nat.mod_lt _ (by decide)),
        Nat.shiftLeft_eq, Nat.shiftRight_eq_div_pow]
      omega
    refine ⟨0x4d, by decide, ?_⟩
    simp [readInstruction, readPush, slice, pushLength2, number, add_comm 3]

/-! ## Small numbers -/

/-- The bytes that have an opcode of their own. -/
def isNumber (byte : UInt8) : Bool := 1 ≤ byte && byte ≤ 16 || byte == 0x81

def numberOpcode (byte : UInt8) : UInt8 := if byte = 0x81 then 0x4f else byte + 0x50

theorem numberOpcode_pushes (build : Build) (byte : UInt8) : isNumber byte = true →
    readInstruction [numberOpcode byte] 0 = .ok (some ⟨numberOpcode byte, [], 1⟩) ∧
      Op.ofByte (numberOpcode byte) = .pushValue ∧
      serializeI64 build ((numberOpcode byte).toNat - 0x50) = .ok [byte] := by
  obtain ⟨⟨byte⟩⟩ := byte
  obtain ⟨_ | _⟩ := build <;> revert byte <;> decide +kernel

theorem exists_number (pushes : Op.ofByte opcode = .pushValue) :
    ∃ byte, isNumber byte = true ∧ opcode = numberOpcode byte := by
  refine ⟨if opcode = 0x4f then 0x81 else opcode - 0x50, ?_⟩
  obtain ⟨⟨code⟩⟩ := opcode
  revert code
  decide +kernel

theorem Instruction.Pushes.forms (pushes : instruction.Pushes build data) :
    instruction.opcode ≤ 0x4e ∧ instruction.pushData = data ∨
      ∃ byte, data = [byte] ∧ isNumber byte = true ∧ instruction.opcode = numberOpcode byte := by
  refine pushes.imp_right ?_
  rintro ⟨isValue, serialized⟩
  obtain ⟨byte, isNumber, same⟩ := exists_number isValue
  rw [same] at serialized
  cases serialized.symm.trans (numberOpcode_pushes build byte isNumber).2.2
  exact ⟨byte, rfl, isNumber, same⟩

/-- A shortest push is of no number. -/
theorem Instruction.Takes.not_isNumber (takes : instruction.Takes size)
    (push : instruction.opcode ≤ 0x4e) (shortest : Shortest build instruction.pushData size)
    (same : instruction.pushData = [byte]) : isNumber byte = false := by
  by_contra isNumber
  rw [Bool.not_eq_false] at isNumber
  obtain ⟨read, number⟩ := numberOpcode_pushes build byte isNumber
  rw [same] at shortest
  have least := shortest _ 1 ⟨_, 0, read, rfl⟩ (.inr number)
  have sized := takes.sized push
  simp [same, Sized] at sized
  omega

/-- The check accepts a push as short as the one built for its data, unless the data has an
opcode of its own. -/
theorem checkMinimalPush_iff (sized : Sized opcode.toNat data.length size) :
    checkMinimalPush data opcode = .ok true ↔
      (∀ byte, data = [byte] → isNumber byte = false) ∧ size ≤ (buildSinglePush data).length := by
  have zero : opcode = 0 ↔ opcode.toNat = 0 := UInt8.toNat_inj.symm
  have one : opcode = 0x4c ↔ opcode.toNat = 0x4c := UInt8.toNat_inj.symm
  have two : opcode = 0x4d ↔ opcode.toNat = 0x4d := UInt8.toNat_inj.symm
  rw [buildSinglePush_length]
  rw [Sized] at sized
  rcases data with _ | ⟨first, _ | ⟨second, rest⟩⟩
  · simp only [length_nil] at sized
    simp [checkMinimalPush, zero]
    omega
  · simp only [length_cons, length_nil] at sized
    simp [checkMinimalPush, isNumber]
    grind
  · simp only [length_cons] at sized
    simp [checkMinimalPush]
    split_ifs <;> simp [one, two] <;> omega

/-- Pushes are canonical: the built push is read back, the check accepts exactly the shortest
push of any data, and no two instructions are the shortest. -/
theorem pushes_canonical (build : Build) :
    (∀ data : Bytes, data.length ≤ 520 → ∃ opcode ≤ 0x4e,
      readInstruction (buildSinglePush data) 0 =
        .ok (some ⟨opcode, data, (buildSinglePush data).length⟩)) ∧
    (∀ instruction size, Takes instruction size → instruction.opcode ≤ 0x4e →
      (checkMinimalPush instruction.pushData instruction.opcode = .ok true ↔
        Shortest build instruction.pushData size)) ∧
    ∀ data size size', Shortest build data size → Shortest build data size' →
      ∀ first second, Takes first size → Takes second size' → Pushes build data first →
        Pushes build data second → first.opcode = second.opcode := by
  refine ⟨fun data short => readInstruction_buildSinglePush (by omega), ?_, ?_⟩
  · intro instruction size takes push
    have sized := takes.sized push
    rw [checkMinimalPush_iff sized, buildSinglePush_length]
    rw [Sized] at sized
    constructor
    · rintro ⟨noNumber, least⟩ other shorter takesOther pushes
      rcases pushes.forms with ⟨pushOther, same⟩ | ⟨byte, same, isNumber, -⟩
      · have sizedOther := takesOther.sized pushOther
        rw [same, Sized] at sizedOther
        split_ifs at least <;> omega
      · simp [noNumber byte same] at isNumber
    · intro shortest
      refine ⟨fun byte same => takes.not_isNumber push shortest same, ?_⟩
      by_cases short : instruction.pushData.length ≤ 65535
      · obtain ⟨opcode, push, built⟩ := readInstruction_buildSinglePush short
        rw [← buildSinglePush_length]
        exact shortest _ _ ⟨_, 0, built, (zero_add _).symm⟩ (.inl ⟨push, rfl⟩)
      · split_ifs <;> omega
  · intro data size size' least least' first second takes takes' pushes pushes'
    cases le_antisymm (least second _ takes' pushes') (least' first _ takes pushes)
    rcases pushes.forms with ⟨push, same⟩ | ⟨byte, same, isNumber, opcode⟩ <;>
      rcases pushes'.forms with ⟨push', same'⟩ | ⟨byte', same', isNumber', opcode'⟩
    · have sized := takes.sized push
      have sized' := takes'.sized push'
      rw [same, Sized] at sized
      rw [same', Sized] at sized'
      exact UInt8.toNat_inj.mp (by omega)
    · rw [← same] at least same'
      simp [takes.not_isNumber push least same'] at isNumber'
    · rw [← same'] at least same
      simp [takes'.not_isNumber push' least same] at isNumber
    · cases same.symm.trans same'
      exact opcode.trans opcode'.symm

end Satd.Consensus
