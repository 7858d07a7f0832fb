import Satd.Consensus.PanicFree
import Satd.Lib.Run

/-!
# What the condition stack stands for

The condition stack keeps a size and the position of the first branch that is not
executed. It stands for the list of all open branches (`ofBranches`), as long as there
are fewer than 2^32 of them, and the evaluation follows that list.
-/

namespace Satd.Consensus

open Rust Outcome List

namespace ConditionStack

/-- The position of the first false branch. The innermost branch comes first. -/
def firstFalse : List Bool → Nat
  | [] => noFalse
  | value :: outer =>
    if firstFalse outer = noFalse ∧ value = false then outer.length else firstFalse outer

/-- The condition stack of a list of branches. -/
def ofBranches (branches : List Bool) : ConditionStack := ⟨branches.length, firstFalse branches⟩

inductive Call where
  | push (value : Bool)
  | pop
  | toggle

/-- A call on a plain list of branches. -/
def Call.apply : List Bool → Call → List Bool
  | branches, .push value => value :: branches
  | _ :: outer, .pop => outer
  | value :: outer, .toggle => (!value) :: outer
  | [], _ => []

def Call.run (build : Build) (conditions : ConditionStack) : Call → Exec ConditionStack
  | .push value => conditions.pushBack build value
  | .pop => conditions.popBack build
  | .toggle => conditions.toggleTop build

/-- There is a branch to close or to switch, and the count of branches fits its word. -/
def Call.Allowed (branches : List Bool) : Call → Prop
  | .push _ => branches.length + 1 < 2 ^ 32
  | .pop | .toggle => branches ≠ []

variable {branches outer : List Bool}

theorem firstFalse_lt (branches : List Bool) :
    firstFalse branches = noFalse ∨ firstFalse branches < branches.length := by
  induction branches with
  | nil => exact .inl rfl
  | cons value outer ih =>
    rw [firstFalse, length_cons]
    split_ifs <;> omega

theorem isEmpty_ofBranches : (ofBranches branches).isEmpty = branches.isEmpty := by
  cases branches <;> rfl

theorem allTrue_ofBranches (fits : branches.length < 2 ^ 32) :
    (ofBranches branches).allTrue = branches.all id := by
  rw [allTrue, ofBranches]
  dsimp only
  induction branches with
  | nil => rfl
  | cons value outer ih =>
    rw [length_cons] at fits
    have below := ih (by omega)
    have short : outer.length ≠ noFalse := by
      rw [noFalse]
      omega
    rw [firstFalse, all_cons, ← below]
    by_cases inside : firstFalse outer = noFalse
    · cases value <;> simp [inside, short]
    · simp [inside]

/-- Each call does to the condition stack what it does to the list. -/
theorem run_ofBranches (build : Build) {call : Call} (fits : branches.length < 2 ^ 32)
    (allowed : call.Allowed branches) :
    call.run build (ofBranches branches) = .ok (ofBranches (call.apply branches)) := by
  cases call with
  | push value =>
    have added : (build.add 32 branches.length 1 : Exec Nat) = _ := Build.add_of_lt build allowed
    simp [Call.run, pushBack, ofBranches, added, Call.apply, firstFalse]
  | pop | toggle =>
    obtain ⟨value, outer, rfl⟩ := exists_cons_of_ne_nil allowed
    have below := firstFalse_lt outer
    have short : outer.length ≠ noFalse := by
      rw [length_cons] at fits
      rw [noFalse]
      omega
    by_cases inside : firstFalse outer = noFalse
    · cases value <;>
        simp [Call.run, popBack, toggleTop, ofBranches, Call.apply, firstFalse, inside, short]
    · have apart : firstFalse outer ≠ outer.length := by omega
      simp [Call.run, popBack, toggleTop, ofBranches, Call.apply, firstFalse, inside, apart]

theorem length_apply_le (branches : List Bool) (call : Call) :
    (call.apply branches).length ≤ branches.length + 1 := by
  cases call <;> cases branches <;> simp [Call.apply]
  omega

/-- A run of calls does to the condition stack what it does to the list. -/
theorem runs_ofBranches (build : Build) {calls : List Call} (fits : branches.length < 2 ^ 32)
    (allowed : Run.EachStep Call.apply Call.Allowed branches calls) :
    calls.foldlM (Call.run build) (ofBranches branches) =
        .ok (ofBranches (calls.foldl Call.apply branches)) ∧
      (calls.foldl Call.apply branches).length < 2 ^ 32 := by
  induction calls generalizing branches with
  | nil => exact ⟨rfl, fits⟩
  | cons call rest ih =>
    obtain ⟨here, later⟩ := allowed
    rw [foldlM_cons, run_ofBranches build fits here]
    refine ih ?_ later
    cases call with
    | push value => exact here
    | pop | toggle =>
      cases branches <;> simp [Call.apply] at fits ⊢
      omega

end ConditionStack

open ConditionStack

variable {env : Env} {flags : UInt32} {fExec : Bool} {state after : EvalState}

/-- What an opcode does to the open branches. A conditional that is not executed opens a
branch that is not executed either. -/
def Op.call (env : Env) (flags : UInt32) (fExec : Bool) (stack : Stack) : Op → Exec (Option Call)
  | .ifOp negated => do
    let taken ← (if fExec then takeCondition env flags negated stack else .ok (false, stack))
    .ok (some (.push taken.1))
  | .elseOp => .ok (some .toggle)
  | .endIf => .ok (some .pop)
  | _ => .ok none

/-- The state moves on by the call of an opcode. -/
def Moves (env : Env) (flags : UInt32) (fExec : Bool) (opcode : UInt8) (state after : EvalState) :
    Prop :=
  ∃ call, (Op.ofByte opcode).call env flags fExec state.stack = .ok call ∧
    call.elim (.ok state.vfExec) (Call.run env.build state.vfExec) = .ok after.vfExec ∧
    after.pc = state.pc

theorem execOp_moves {opcode : UInt8} (ran : execOp env flags fExec opcode state = .ok after) :
    Moves env flags fExec opcode state after := by
  unfold execOp at ran
  unfold Moves
  cases op : Op.ofByte opcode with
  | ifOp negated =>
    simp only [op, execIf, bind_eq_ok] at ran
    obtain ⟨taken, isTaken, vfExec, pushed, same⟩ := ran
    cases same
    exact ⟨some (.push taken.1), by rw [Op.call, isTaken]; rfl, pushed, rfl⟩
  | elseOp | endIf =>
    simp only [op, bind_eq_ok] at ran
    obtain ⟨_, _, vfExec, moved, same⟩ := ran
    cases same
    exact ⟨_, rfl, moved, rfl⟩
  | checkSig verify | checkMultiSig verify =>
    have kept : after.vfExec = state.vfExec ∧ after.pc = state.pc := by
      cases verify <;>
        simp only [op, execCheckSig, execCheckMultiSig, bind_eq_ok, Bool.false_eq_true, if_true,
          if_false] at ran <;>
        grind
    exact ⟨none, rfl, by rw [kept.1]; rfl, kept.2⟩
  | _ =>
    have kept : after.vfExec = state.vfExec ∧ after.pc = state.pc := by
      simp only [op, EvalState.withStack, execCheckSigAdd, bind_eq_ok] at ran
      grind
    exact ⟨none, rfl, by rw [kept.1]; rfl, kept.2⟩

/-- Only the bytes of conditionals touch the open branches. -/
theorem call_of_byte {opcode : UInt8} (other : ¬(0x63 ≤ opcode ∧ opcode ≤ 0x68)) (stack : Stack) :
    (Op.ofByte opcode).call env flags fExec stack = .ok none := by
  have bytes : ∀ n < 256, ¬(0x63 ≤ UInt8.ofNat n ∧ UInt8.ofNat n ≤ 0x68) →
      Op.ofByte (.ofNat n) ∉ [.ifOp false, .ifOp true, .elseOp, .endIf] := by decide +kernel
  have byte := bytes opcode.toNat opcode.toNat_lt
  rw [UInt8.ofNat_toNat] at byte
  have notAny := byte other
  cases op : Op.ofByte opcode with
  | ifOp negated => cases negated <;> simp [op] at notAny
  | elseOp | endIf => simp [op] at notAny
  | _ => rfl

theorem execInstruction_moves {instruction : Instruction}
    (ran : execInstruction env flags fExec instruction state = .ok after) :
    Moves env flags fExec instruction.opcode state after := by
  rw [execInstruction] at ran
  split_ifs at ran with push executed
  · have other : ¬(0x63 ≤ instruction.opcode ∧ instruction.opcode ≤ 0x68) := fun both =>
      absurd (UInt8.le_trans both.1 push.2) (by decide)
    simp only [execPush, bind_eq_ok] at ran
    obtain ⟨_, _, same⟩ := ran
    cases same
    exact ⟨none, call_of_byte other _, rfl, rfl⟩
  · exact execOp_moves ran
  · cases ran
    exact ⟨none, call_of_byte (fun both => executed (.inr both)) _, rfl, rfl⟩

/-- A pass reads an instruction, executes it if all branches are, and counts it. -/
theorem evalStep_eq_next (ran : evalStep env flags state = .ok (.next after)) :
    ∃ instruction nOpCount done opcodePos,
      readInstruction env.script state.pc = .ok (some instruction) ∧
      execInstruction env flags state.vfExec.allTrue instruction
        { state with pc := instruction.pc, nOpCount } = .ok done ∧
      after = { done with opcodePos } := by
  rw [evalStep] at ran
  split at ran
  · simp only [bind_eq_ok, ofOption_eq_ok] at ran
    obtain ⟨_, read, instruction, rfl, nOpCount, _, done, executed, _, _, opcodePos, _, same⟩ := ran
    cases same
    exact ⟨instruction, nOpCount, done, opcodePos, read, executed, rfl⟩
  · cases ran

/-- The branches open in a state that the evaluation of a script comes to. -/
inductive Enclosing (env : Env) (flags : UInt32) (stack : Stack) (execData : ExecData) :
    EvalState → List Bool → Prop where
  | start : Enclosing env flags stack execData (.start stack execData) []
  | step {state after branches instruction call}
      (earlier : Enclosing env flags stack execData state branches)
      (ran : evalStep env flags state = .ok (.next after))
      (read : readInstruction env.script state.pc = .ok (some instruction))
      (opened : (Op.ofByte instruction.opcode).call env flags (branches.all id) state.stack =
        .ok call) :
      Enclosing env flags stack execData after (call.elim branches (Call.apply branches))

variable {stack : Stack} {execData : ExecData} {branches : List Bool}

/-- The condition stack of an evaluation stands for the open branches. -/
theorem Enclosing.stands (short : env.script.length < 2 ^ 32)
    (enclosing : Enclosing env flags stack execData state branches) :
    state.vfExec = ofBranches branches ∧ branches.length ≤ state.pc ∧
      state.pc ≤ env.script.length := by
  induction enclosing with
  | start => exact ⟨rfl, le_rfl, zero_le⟩
  | @step state after branches instruction call earlier ran read opened ih =>
    obtain ⟨stands, behind, inside⟩ := ih
    obtain ⟨other, nOpCount, done, opcodePos, alsoRead, executed, rfl⟩ := evalStep_eq_next ran
    rw [read] at alsoRead
    cases alsoRead
    have executes : state.vfExec.allTrue = branches.all id := by
      rw [stands, allTrue_ofBranches (by omega)]
    rw [executes] at executed
    obtain ⟨moved, alsoOpened, moves, pc⟩ := execInstruction_moves executed
    rw [opened] at alsoOpened
    cases alsoOpened
    obtain ⟨advanced, within⟩ := readInstruction_safe.of_eq_ok read instruction rfl
    simp only at pc moves
    rw [stands] at moves
    cases call with
    | none =>
      exact ⟨(Outcome.ok.inj moves).symm, by simp only [Option.elim]; omega, by simp only; omega⟩
    | some call =>
      have allowed : call.Allowed branches := by
        cases call with
        | push value => exact (by omega : branches.length + 1 < 2 ^ 32)
        | pop | toggle =>
          rintro rfl
          cases moves
      have grown := length_apply_le branches call
      have fits : branches.length < 2 ^ 32 := by omega
      rw [Option.elim, run_ofBranches env.build fits allowed] at moves
      exact ⟨(Outcome.ok.inj moves).symm, by simp only [Option.elim]; omega, by simp only; omega⟩

/-- The condition stack agrees with a plain list of branches while there are fewer than 2^32 of
them, and a script shorter than that executes an instruction exactly when all branches around
it are executed. -/
theorem conditions_exact (build : Build) :
    (∀ calls : List Call, Run.EachStep Call.apply Call.Allowed [] calls → ∃ conditions,
      calls.foldlM (Call.run build) .new = .ok conditions ∧
        conditions.isEmpty = (calls.foldl Call.apply []).isEmpty ∧
        conditions.allTrue = (calls.foldl Call.apply []).all id) ∧
    ∀ env flags stack execData state branches after, env.script.length < 2 ^ 32 →
      Enclosing env flags stack execData state branches →
      evalStep env flags state = .ok (.next after) →
      ∃ instruction nOpCount done opcodePos, ∃ call : Option Call,
        readInstruction env.script state.pc = .ok (some instruction) ∧
        execInstruction env flags (branches.all id) instruction
          { state with pc := instruction.pc, nOpCount } = .ok done ∧
        after = { done with opcodePos } ∧
        Enclosing env flags stack execData after (call.elim branches (Call.apply branches)) := by
  refine ⟨fun calls allowed => ?_, ?_⟩
  · obtain ⟨ran, fits⟩ := runs_ofBranches build (by decide) allowed
    exact ⟨_, ran, isEmpty_ofBranches, allTrue_ofBranches fits⟩
  · intro env flags stack execData state branches after short enclosing ran
    obtain ⟨stands, behind, inside⟩ := enclosing.stands short
    obtain ⟨instruction, nOpCount, done, opcodePos, read, executed, rfl⟩ := evalStep_eq_next ran
    have executes : state.vfExec.allTrue = branches.all id := by
      rw [stands, allTrue_ofBranches (by omega)]
    rw [executes] at executed
    obtain ⟨call, opened, -⟩ := execInstruction_moves executed
    exact ⟨instruction, nOpCount, done, opcodePos, call, read, executed, rfl,
      .step enclosing ran read opened⟩

/-- Nested conditionals, the inner one switched, and an instruction in a branch that is not
executed. -/
theorem conditions_exact_nested :
    (∃ conditions,
      [Call.push true, .push false, .toggle].foldlM (Call.run ⟨true⟩) .new = .ok conditions ∧
        conditions.isEmpty = false ∧ conditions.allTrue = true) ∧
    ∃ inner after call, Enclosing (checkedHost.env .base [0x63, 0x51]) 0 [[]] .new inner [false] ∧
      Enclosing (checkedHost.env .base [0x63, 0x51]) 0 [[]] .new after
        (Option.elim call [false] (Call.apply [false])) ∧ after.stack = inner.stack := by
  obtain ⟨called, stepped⟩ := conditions_exact ⟨true⟩
  refine ⟨called [.push true, .push false, .toggle] (by
    simp [Run.EachStep, Call.Allowed, Call.apply]), ?_⟩
  have inner : Enclosing (checkedHost.env .base [0x63, 0x51]) 0 [[]] .new _
      (Option.elim (some (Call.push false)) [] (Call.apply [])) := .step .start rfl rfl rfl
  obtain ⟨_, _, _, _, call, _, _, _, enclosing⟩ := stepped _ 0 [[]] .new _ [false] _ (by decide)
    inner rfl
  exact ⟨_, _, call, inner, enclosing, rfl⟩

end Satd.Consensus
