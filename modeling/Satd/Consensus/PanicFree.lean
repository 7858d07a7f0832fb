import Satd.Consensus.OpcodeSafety

/-!
# The interpreter does not panic

Every index, slice, subtraction, unwrap and assertion that a verification
reaches is shown to be inside its bounds. The opcodes need nothing but the size
checks they make themselves. The loop carries an invariant for the rest: the
start of the signed code lies inside the script, a tapscript has its weight
budget, and the counters of instructions and of open conditionals do not run
ahead of the position.

The two counters are 32 bits wide. In a build that checks for overflow they
bound the length of a script, and scripts before tapscript are short anyway. A
tapscript of `2 ^ 32` bytes does overflow the instruction counter; this is the
one input left out, and only in such a build.
-/

namespace Satd.Consensus

open Rust List Outcome
open Rust.Outcome (Safe failWhen ok_bind)

/-! ## The loop -/

section Loop

variable {env : Env} (runnable : Runnable env) (flags : UInt32) {pc : Nat}

/-- Replacing the stack keeps what holds within an instruction. -/
theorem Within.withStack {state : EvalState} (within : Within env pc state) {program : Exec Stack}
    (safe : Safe program) :
    Safe (state.withStack program) (Within env pc) :=
  .bind safe (fun _ _ => { within with })

include runnable

section

variable {state : EvalState} (within : Within env pc state)
  (behind : env.build.overflowChecks = true → state.vfExec.stackSize < pc)
include within behind

variable {fExec : Bool}

/-- Opening a conditional: the count of open ones was behind the position. -/
theorem execIf_safe {negated : Bool} :
    Safe (execIf env flags negated fExec state) (Within env pc) := by
  refine .andThen ?_ (fun condition => ?_)
  · exact .ite (fun _ => takeCondition_safe env flags) (fun _ => trivial)
  have fits : env.build.overflowChecks = true → state.vfExec.stackSize + 1 < 2 ^ 32 := by
    intro checks
    have behindPc := behind checks
    have shortScript := runnable.short checks
    have pcInside := within.pcInside
    omega
  refine (ConditionStack.pushBack_safe fits).bind fun vfExec opened => ?_
  refine { within with counted := fun checks => ?_ }
  have grown := opened checks
  have behindPc := behind checks
  exact ⟨(within.counted checks).1, by simp only; omega⟩

/-- Every arm of the dispatch is safe. -/
theorem execOp_safe {opcode : UInt8} :
    Safe (execOp env flags fExec opcode state) (Within env pc) := by
  unfold execOp
  cases Op.ofByte opcode with
  | pushValue =>
    exact within.withStack (.bind (serializeI64_safe env.build) (fun item _ => trivial))
  | nop => exact within
  | checkLockTimeVerify =>
    exact (checkLockTimeVerify_safe env flags).bind fun _ _ => within
  | checkSequenceVerify =>
    exact (checkSequenceVerify_safe env flags).bind fun _ _ => within
  | upgradableNop => exact .check fun _ => within
  | ifOp negated => exact execIf_safe runnable flags within behind
  | elseOp =>
    refine .check fun opened => ?_
    refine (ConditionStack.toggleTop_safe opened).bind fun vfExec same => ?_
    refine { within with counted := fun checks => ?_ }
    have counted := within.counted checks
    exact ⟨counted.1, by simp only; omega⟩
  | endIf =>
    refine .check fun opened => ?_
    refine (ConditionStack.popBack_safe opened).bind fun vfExec smaller => ?_
    refine { within with counted := fun checks => ?_ }
    have counted := within.counted checks
    exact ⟨counted.1, by simp only; omega⟩
  | returnOp => trivial
  | toAltStack =>
    refine requiring fun enough => ?_
    exact (popLast_safe enough).bind fun _ _ => { within with }
  | fromAltStack =>
    refine .check fun nonempty => ?_
    have held : 1 ≤ state.altstack.length := length_pos_iff.mpr (by simpa using nonempty)
    exact (popLast_safe held).bind fun _ _ => { within with }
  | stackOp op => exact within.withStack (execStackOp_safe env.build)
  | pick roll => exact within.withStack (execPick_safe env.build)
  | unary op => exact within.withStack (execUnary_safe env.build _)
  | binary op => exact within.withStack (execBinary_safe env.build _)
  | within => exact within.withStack (execWithin_safe env.build _)
  | hash op => exact within.withStack (execHash_safe)
  | codeSeparator => exact { within with codeInside := within.atPc ▸ within.pcInside }
  | checkSig verify => exact execCheckSig_safe runnable flags within
  | checkSigAdd => exact execCheckSigAdd_safe runnable flags within
  | checkMultiSig verify => exact execCheckMultiSig_safe within
  | bad => trivial

end

variable {instruction : Instruction}

omit runnable in
theorem execPush_safe {state : EvalState} (within : Within env pc state) :
    Safe (execPush flags instruction state) (Within env pc) := by
  refine (Safe.onlyIf (fun _ => ?_)).bind fun _ _ => ?_
  · refine (checkMinimalPush_safe).bind fun minimal _ => ?_
    exact .refuse
  · exact { within with }

omit runnable in
theorem admitInstruction_safe {nOpCount : Nat} :
    Safe (admitInstruction env flags instruction nOpCount) := by
  refine .check fun _ => ?_
  refine .check fun _ => ?_
  refine .check fun _ => ?_
  exact .check fun _ => trivial

theorem execInstruction_safe {state : EvalState} (within : Within env pc state)
    (behind : env.build.overflowChecks = true → state.vfExec.stackSize < pc) {fExec : Bool} :
    Safe (execInstruction env flags fExec instruction state) (Within env pc) := by
  refine .ite (fun _ => execPush_safe flags within) (fun _ => ?_)
  exact .ite (fun _ => execOp_safe runnable flags within behind) (fun _ => within)

/-- What holds of the state between instructions. -/
structure Between (env : Env) (state : EvalState) : Prop where
  pcInside : state.pc ≤ env.script.length
  codeInside : state.pbegincodehash ≤ env.script.length
  budget : env.sigVersion = .tapscript → Budget env.build state.execData
  counted : env.build.overflowChecks = true →
    state.opcodePos ≤ state.pc ∧ state.vfExec.stackSize ≤ state.pc

/-- One pass of the loop is safe, keeps the invariant and advances. -/
theorem evalStep_safe (state : EvalState) (between : Between env state) :
    Safe (evalStep env flags state)
      (Safe.Pass (Between env) (fun _ => True)
        (fun after => env.script.length - after.pc) state) := by
  refine .ite (fun more => ?_) (fun _ => trivial)
  refine (readInstruction_safe).bind fun read advances => ?_
  refine (Safe.ofOption _ read).bind fun instruction found => ?_
  obtain ⟨advanced, pcInside⟩ := advances instruction found
  refine (admitInstruction_safe flags).bind fun nOpCount _ => ?_
  have behind : env.build.overflowChecks = true → state.vfExec.stackSize < instruction.pc := by
    intro checks
    have counted := between.counted checks
    omega
  have entering : Within env instruction.pc { state with pc := instruction.pc, nOpCount } := by
    refine ⟨rfl, pcInside, between.codeInside, between.budget, fun checks => ?_⟩
    have counted := between.counted checks
    exact ⟨by simp only; omega, by simp only; omega⟩
  refine (execInstruction_safe runnable flags entering behind).bind fun after within => ?_
  refine .check fun _ => ?_
  have fits : env.build.overflowChecks = true → after.opcodePos + 1 < 2 ^ 32 := by
    intro checks
    have counted := within.counted checks
    have shortScript := runnable.short checks
    omega
  refine (Build.add_safe fits).bind fun opcodePos incremented => ?_
  have samePc := within.atPc
  refine ⟨⟨samePc ▸ within.pcInside, within.codeInside, within.budget, fun checks => ?_⟩, ?_⟩
  · have counted := within.counted checks
    have next := incremented checks
    exact ⟨by simp only; omega, by simp only; omega⟩
  · simp only
    omega

end Loop

/-- Scripts before tapscript are cut off at their size limit; a tapscript needs a
budget and, where overflow is checked, a length below `2 ^ 32`. -/
theorem evalScript_safe {env : Env} (notTaproot : env.sigVersion ≠ .taproot)
    (contract : env.checker.AcceptsSchnorrCalls) {flags : UInt32} {stack : Stack}
    {execData : ExecData}
    (short : env.sigVersion = .tapscript → env.build.overflowChecks = true →
      env.script.length < 2 ^ 32)
    (budget : env.sigVersion = .tapscript → Budget env.build execData) :
    Safe (evalScript env flags stack execData) := by
  unfold evalScript
  have notKeyPath : (env.sigVersion != .taproot) = true := by simpa using notTaproot
  rw [notKeyPath, assert_true, ok_bind]
  refine .check fun sized => ?_
  have runnable : Runnable env := by
    refine ⟨notTaproot, contract, fun checks => ?_⟩
    cases version : env.sigVersion with
    | taproot => exact absurd version notTaproot
    | tapscript => exact short version checks
    | base =>
      simp [version, SigVersion.preTapscript, maxScriptSize] at sized
      omega
    | witnessV0 =>
      simp [version, SigVersion.preTapscript, maxScriptSize] at sized
      omega
  have starts : Between env (.start stack execData) :=
    ⟨zero_le, zero_le, budget, fun _ => ⟨Nat.le_refl _, Nat.le_refl _⟩⟩
  have runs := Safe.loop _ (fun after => env.script.length - after.pc)
    (evalStep_safe runnable flags) (env.script.length + 1) (EvalState.start stack execData) starts
    (Nat.lt_succ_of_le (Nat.sub_le _ _))
  refine .bind runs (fun final _ => ?_)
  exact .check fun _ => trivial

/-! ## Witness programs -/

/-- The scan for opcodes that succeed advances with every pass. -/
theorem scanForOpSuccess_safe {script : Bytes} {flags : UInt32} :
    Safe (scanForOpSuccess script flags)
      (fun scanned => ∀ result, scanned = some result → Safe result) := by
  have passes : ∀ pc, True → Safe (scanPass script pc)
      (Safe.Pass (fun _ => True) (fun _ => True) (fun pc => script.length - pc) pc) := by
    intro pc _
    refine .ite (fun more => ?_) (fun _ => trivial)
    refine .read more fun opcode _ => ?_
    refine .ite (fun _ => ⟨trivial, by simp only; omega⟩) (fun _ => ?_)
    refine .ite (fun _ => ?_) (fun _ => ?_)
    · refine .ite (fun _ => trivial) (fun inside => ?_)
      exact .read (by omega) fun n _ => ⟨trivial, by simp only; omega⟩
    refine .ite (fun _ => ?_) (fun _ => ?_)
    · refine .ite (fun _ => trivial) (fun inside => ?_)
      exact (pushLength2_safe (by omega)).bind fun n _ => ⟨trivial, by simp only; omega⟩
    refine .ite (fun _ => ?_) (fun _ => ?_)
    · refine .ite (fun _ => trivial) (fun inside => ?_)
      exact (pushLength4_safe (by omega)).bind fun n _ => ⟨trivial, by simp only; omega⟩
    exact .ite (fun _ => trivial) (fun _ => ⟨trivial, by simp only; omega⟩)
  refine .bind
    (.loop _ (fun pc => script.length - pc) passes _ _ trivial (Nat.lt_succ_of_le (Nat.sub_le _ _)))
    (fun found _ => ?_)
  intro result same
  cases found with
  | false => simp at same
  | true =>
    obtain rfl : failWhen _ _ = result := by simpa using same
    exact .refuse

section Host

variable {host : Host} (contract : host.checker.AcceptsSchnorrCalls) (flags : UInt32)

include contract

section

variable (stack : Stack) (script : Bytes) {sigVersion : SigVersion}
  (notTaproot : sigVersion ≠ .taproot) (execData : ExecData)
  (short : sigVersion = .tapscript → host.build.overflowChecks = true → script.length < 2 ^ 32)
  (budget : sigVersion = .tapscript → Budget host.build execData)
include stack script notTaproot execData short budget

theorem runWitnessScript_safe :
    Safe (runWitnessScript host flags stack script sigVersion execData) := by
  refine .check fun _ => ?_
  refine .bind
    (evalScript_safe notTaproot contract short budget) (fun final _ => ?_)
  refine .check fun single => ?_
  have one : final.1.length = 1 := by simpa using single
  refine .read (by omega) fun item _ => ?_
  refine (castToBool_safe host.build).bind fun value _ => ?_
  exact .refuse

theorem executeWitnessScript_safe :
    Safe (executeWitnessScript host flags stack script sigVersion execData) := by
  have runs := runWitnessScript_safe contract flags stack script notTaproot execData short budget
  refine .ite (fun _ => ?_) (fun _ => runs)
  refine (scanForOpSuccess_safe).bind fun scanned verdict => ?_
  cases scanned with
  | some result => exact verdict result rfl
  | none => exact .check fun _ => runs

end

variable {program : Bytes}

theorem verifyScriptHash_safe {witness : Stack} :
    Safe (verifyScriptHash host flags witness program) := by
  refine .check fun nonempty => ?_
  have held : 1 ≤ witness.length := length_pos_iff.mpr (by simpa using nonempty)
  refine .sub held ?_
  refine .read (by omega) fun scriptBytes _ => ?_
  refine (Safe.slice (by omega) (by omega)).bind fun stack _ => ?_
  refine .check fun _ => ?_
  exact executeWitnessScript_safe contract flags stack scriptBytes (by decide) _ (by simp) (by simp)

theorem verifyKeyHash_safe {witness : Stack} : Safe (verifyKeyHash host flags witness program) := by
  refine .check fun _ => ?_
  exact executeWitnessScript_safe contract flags witness _ (by decide) _ (by simp) (by simp)

end Host

/-- The path of a control block of a legal size is a whole number of nodes. -/
theorem verifyTaprootCommitment_safe {host : Host} {control : Bytes}
    (long : 33 ≤ control.length) {program tapleafHash : Bytes} :
    Safe (verifyTaprootCommitment host control program tapleafHash) := by
  have nodes : ∀ (indices : List Nat) (k : Bytes),
      (∀ i ∈ indices, 33 + 32 * i + 32 ≤ control.length) →
        Safe (hashPath host.crypto control indices k) := by
    intro indices
    induction indices with
    | nil => intro k _; trivial
    | cons i rest ih =>
      intro k inside
      have here := inside i (mem_cons_self ..)
      refine .bind (.slice (by omega) here) (fun node _ => ?_)
      exact ih _ (fun j member => inside j (mem_cons_of_mem _ member))
  have root : Safe (computeTaprootMerkleRoot host control tapleafHash) := by
    refine .sub long ?_
    apply nodes
    intro i member
    have below := mem_range.mp member
    simp only [taprootControlNodeSize, taprootControlBaseSize] at below
    omega
  refine (Safe.slice (by omega) long).bind fun keyBytes _ => ?_
  split
  · refine .bind root (fun merkleRoot _ => ?_)
    refine .read (by omega) fun first _ => ?_
    dsimp only
    split <;> trivial
  · trivial

/-- The annex, when there is one, is not the only element of the witness. -/
theorem takeAnnex_safe {crypto : Crypto} {witness : Stack} (nonempty : 1 ≤ witness.length)
    {execData : ExecData} :
    Safe (takeAnnex crypto witness execData)
      (fun taken => 1 ≤ taken.1.length ∧ ∀ item ∈ taken.1, item ∈ witness) := by
  have whole : ∀ data : ExecData, Safe (.ok (witness, data) : Exec (Stack × ExecData))
      (fun taken => 1 ≤ taken.1.length ∧ ∀ item ∈ taken.1, item ∈ witness) :=
    fun _ => ⟨nonempty, fun _ member => member⟩
  refine .ite (fun several => ?_) (fun _ => whole _)
  refine (lastItem_safe nonempty).bind fun last _ => ?_
  refine .ite (fun _ => whole _) (fun nonemptyLast => ?_)
  have positive : 0 < last.length := length_pos_iff.mpr (by simpa using nonemptyLast)
  refine .read positive fun tag _ => ?_
  refine .ite (fun _ => ?_) (fun _ => whole _)
  refine .bind (.popLast (ne_nil_of_length_pos nonempty)) ?_
  rintro ⟨annex, stack⟩ rfl
  exact ⟨by simpa using several, fun item member => mem_append_left _ member⟩

/-- The witness fits the machine: no element reaches `2 ^ 32` bytes and the whole
of it is smaller than the address space. -/
def WitnessFits (witness : Stack) : Prop :=
  (∀ item ∈ witness, item.length < 2 ^ 32) ∧ witnessSerializedSize witness + 50 < 2 ^ 63

section Spend

variable {host : Host} (contract : host.checker.AcceptsSchnorrCalls) (flags : UInt32)
  {witness : Stack} (fits : host.build.overflowChecks = true → WitnessFits witness)

include contract fits

variable {program : Bytes} {isP2sh : Bool}

/-- The weight budget of a script spend fits a 64-bit integer. -/
theorem verifyTaprootScriptPath_safe {stack : Stack} {execData : ExecData} (held : 2 ≤ stack.length)
    (taken : ∀ item ∈ stack, item ∈ witness) :
    Safe (verifyTaprootScriptPath host flags witness stack program execData) := by
  refine .bind (.popLast (ne_nil_of_length_pos (by omega))) ?_
  rintro ⟨control, rest⟩ rfl
  simp only [length_append, length_singleton] at held
  refine .bind (.popLast (ne_nil_of_length_pos (by omega))) ?_
  rintro ⟨script, initial⟩ rfl
  have scriptTaken : script ∈ witness := taken script (by simp)
  refine .check fun sized => ?_
  rw [Bool.or_eq_false_iff] at sized
  have long : 33 ≤ control.length := Nat.le_of_not_lt (of_decide_eq_false sized.1)
  refine .sub long ?_
  refine .check fun _ => ?_
  refine .read (by omega) fun first _ => ?_
  refine (verifyTaprootCommitment_safe long).bind fun committed _ => ?_
  refine .check fun _ => ?_
  refine .ite (fun _ => ?_) (fun _ => .refuse)
  have exactSize : host.build.overflowChecks = true →
      Build.toI64 (witnessSerializedSize witness) = witnessSerializedSize witness := by
    intro checks
    have small := (fits checks).2
    have below : witnessSerializedSize witness < 2 ^ 63 := by omega
    exact if_pos below
  have fitsWeight : host.build.overflowChecks = true → Build.FitsSigned 64
      (Build.toI64 (witnessSerializedSize witness) + validationWeightOffset) := by
    intro checks
    have small := (fits checks).2
    rw [exactSize checks]
    unfold validationWeightOffset
    exact .inl (by omega)
  refine (Build.signed_safe fitsWeight).bind fun weight exactWeight => ?_
  refine executeWitnessScript_safe contract flags initial script (by decide) _ ?_ ?_
  · intro _ checks
    exact (fits checks).1 script scriptTaken
  · refine fun _ => ⟨rfl, fun checks => ?_⟩
    have small := (fits checks).2
    have value := exactWeight checks
    rw [exactSize checks] at value
    unfold validationWeightOffset at value
    exact ⟨by simp only; omega, by simp only; omega⟩

theorem verifyTaprootSpend_safe (sized : program.length = 32) :
    Safe (verifyTaprootSpend host flags witness program) := by
  refine .check fun nonempty => ?_
  have held : 1 ≤ witness.length := length_pos_iff.mpr (by simpa using nonempty)
  refine (takeAnnex_safe held).bind fun taken kept => ?_
  refine .ite (fun single => ?_) (fun several => ?_)
  · refine .read (by omega) fun sig _ => ?_
    have answered := contract sig program .taproot taken.2 sized (.inl rfl)
    refine (Safe.intro answered (fun _ _ => trivial)).bind fun verified (_ : True) => ?_
    exact .refuse
  · have two : 2 ≤ taken.1.length := by omega
    exact verifyTaprootScriptPath_safe contract flags fits two kept.2

theorem verifyWitnessProgram_safe {version : Nat} :
    Safe (verifyWitnessProgram host flags witness version program isP2sh) := by
  refine .ite (fun _ => ?_) (fun _ => ?_)
  · refine .ite (fun _ => verifyScriptHash_safe contract flags) (fun _ => ?_)
    exact .ite (fun _ => verifyKeyHash_safe contract flags) (fun _ => trivial)
  · refine .ite (fun taproot => ?_) (fun _ => ?_)
    · exact .onlyIf (fun _ => verifyTaprootSpend_safe contract flags fits taproot.2.1)
    · exact .ite (fun _ => trivial) (fun _ => .refuse)

omit contract fits in
theorem isWitnessProgram_safe {script : Bytes} : Safe (isWitnessProgram script) := by
  refine .ite (fun _ => trivial) (fun sized => ?_)
  refine .read (by omega) fun versionOpcode _ => ?_
  dsimp only
  split
  · trivial
  · refine .read (by omega) fun programLen _ => ?_
    refine .ite (fun _ => trivial) (fun _ => ?_)
    refine .ite (fun _ => trivial) (fun _ => ?_)
    exact (Safe.slice (by omega) (Nat.le_refl _)).bind fun program _ => trivial

theorem runNamedProgram_safe {script : Bytes} {stack : Stack} {spent : Exec Unit}
    (spentSafe : Safe spent) :
    Safe (runNamedProgram host flags witness script stack spent isP2sh) := by
  refine .ite (fun _ => ?_) (fun _ => trivial)
  refine (isWitnessProgram_safe).bind fun named _ => ?_
  cases named with
  | none => trivial
  | some program =>
    refine .bind spentSafe (fun _ _ => ?_)
    exact .bind (verifyWitnessProgram_safe contract flags fits) (fun _ _ => trivial)

end Spend

/-! ## Whole scripts -/

theorem isPushOnly_safe (script : Bytes) : Safe (isPushOnly script) := by
  have passes : ∀ pc, True → Safe (pushOnlyPass script pc)
      (Safe.Pass (fun _ => True) (fun _ => True) (fun pc => script.length - pc) pc) := by
    intro pc _
    refine .ite (fun more => ?_) (fun _ => trivial)
    refine .read more fun opcode _ => ?_
    refine .ite (fun _ => trivial) (fun _ => ?_)
    refine .ite (fun _ => ⟨trivial, by simp only; omega⟩) (fun _ => ?_)
    refine .ite (fun _ => ?_) (fun _ => ?_)
    · refine .ite (fun _ => trivial) (fun inside => ?_)
      exact .read (by omega) fun n _ => ⟨trivial, by simp only; omega⟩
    refine .ite (fun _ => ?_) (fun _ => ?_)
    · refine .ite (fun _ => trivial) (fun inside => ?_)
      exact (pushLength2_safe (by omega)).bind fun n _ => ⟨trivial, by simp only; omega⟩
    refine .ite (fun _ => ?_) (fun _ => ⟨trivial, by simp only; omega⟩)
    · refine .ite (fun _ => trivial) (fun inside => ?_)
      exact (pushLength4_safe (by omega)).bind fun n _ => ⟨trivial, by simp only; omega⟩
  exact .loop _ (fun pc => script.length - pc) passes _ _ trivial
    (Nat.lt_succ_of_le (Nat.sub_le _ _))

/-- A script that pays to a script hash begins with the hash opcode. -/
theorem isP2sh_safe {script : Bytes} :
    Safe (isP2sh script) (fun toScriptHash =>
      toScriptHash = true → script.length = 23 ∧ script[0]? = some 0xa9) := by
  refine .ite (fun sized => ?_) (fun _ => by simp)
  refine .read (by omega) fun hash160 read => ?_
  refine .ite (fun _ => by simp) (fun isHash => ?_)
  have hashOpcode : hash160 = 0xa9 := by simpa using isHash
  refine .read (by omega) fun push _ => ?_
  refine .ite (fun _ => by simp) (fun _ => ?_)
  refine .read (by omega) fun equal _ => ?_
  exact fun _ => ⟨sized, hashOpcode ▸ read⟩

theorem requireTrue_safe (build : Build) (stack : Stack) : Safe (requireTrue build stack) := by
  refine .check fun nonempty => ?_
  have held : 1 ≤ stack.length := length_pos_iff.mpr (by simpa using nonempty)
  refine (lastItem_safe held).bind fun top _ => ?_
  refine (castToBool_safe build).bind fun value _ => ?_
  exact .refuse

/-- Over an empty stack, a script that begins with the hash opcode fails at it. -/
theorem evalScript_hash160_of_empty {host : Host} {flags : UInt32} {script : Bytes}
    (sized : script.length = 23) (begins : script[0]? = some 0xa9) (execData : ExecData) :
    evalScript (host.env .base script) flags [] execData = .err .invalidStackOperation := by
  obtain ⟨rest, rfl⟩ : ∃ rest, script = 0xa9 :: rest := by
    cases script with
    | nil => simp at sized
    | cons byte rest => exact ⟨rest, by simpa using begins⟩
  have read : readInstruction (0xa9 :: rest) 0 =
      .ok (some { opcode := 0xa9, pushData := [], pc := 1 }) := by
    simp [readInstruction]
  have step : evalStep (host.env .base (0xa9 :: rest)) flags (.start [] execData) =
      .err .invalidStackOperation := by
    unfold evalStep
    rw [if_pos (by simp [EvalState.start, Host.env])]
    have script : (host.env .base (0xa9 :: rest)).script = 0xa9 :: rest := rfl
    rfl
  unfold evalScript
  have allowed : (host.env .base (0xa9 :: rest)).script.length = 23 := sized
  rw [allowed, loop, step]
  rfl

section Verification

variable {host : Host} (contract : host.checker.AcceptsSchnorrCalls) (flags : UInt32)
  {witness : Stack} (fits : host.build.overflowChecks = true → WitnessFits witness)

include contract

/-- Bare, output and redeem scripts are limited in size and have no budget. -/
theorem evalScript_base_safe (script : Bytes) (stack : Stack) (execData : ExecData) :
    Safe (evalScript (host.env .base script) flags stack execData) :=
  evalScript_safe (by simp [Host.env]) contract (by simp [Host.env]) (by simp [Host.env])

include fits

theorem verifyRedeemScript_safe {scriptSig : Bytes} {stack : Stack} (nonempty : stack ≠ [])
    {execData : ExecData} :
    Safe (verifyRedeemScript host flags scriptSig witness (some stack) execData) := by
  refine (isPushOnly_safe scriptSig).bind fun pushOnly _ => ?_
  refine .check fun _ => ?_
  have filled : (!stack.isEmpty) = true := by simpa using nonempty
  rw [unwrap_some, ok_bind, filled, assert_true, ok_bind]
  refine (Safe.popLast nonempty).bind fun popped _ => ?_
  refine (evalScript_base_safe contract flags popped.1 popped.2 execData).bind fun evaluated _ => ?_
  refine (requireTrue_safe host.build evaluated.1).bind fun _ _ => ?_
  exact runNamedProgram_safe contract flags fits (Safe.failWhen _ _).forget

/-- The stack the input's script left is not empty when the output's script, which
begins with the hash opcode, could be evaluated over it. -/
theorem verifyPrograms_safe (scriptSig scriptPubkey : Bytes) {sigStack stack : Stack}
    {sigData execData : ExecData}
    (evaluated : evalScript (host.env .base scriptPubkey) flags sigStack sigData =
      .ok (stack, execData)) :
    Safe (verifyPrograms host flags scriptSig scriptPubkey witness
      (if hasFlag flags verifyP2sh then some sigStack else none) stack execData) := by
  refine .bind (runNamedProgram_safe contract flags fits
    (Safe.failWhen _ _).forget) (fun bare _ => ?_)
  cases p2sh : hasFlag flags verifyP2sh with
  | false =>
    refine .check fun _ => ?_
    exact .refuse
  | true =>
    refine (isP2sh_safe).bind fun toScriptHash shape => ?_
    refine .andThen ?_ (fun nested => ?_)
    · refine .ite (fun hashed => ?_) (fun _ => trivial)
      obtain ⟨sized, begins⟩ := shape hashed
      have nonempty : sigStack ≠ [] := by
        rintro rfl
        rw [evalScript_hash160_of_empty sized begins] at evaluated
        cases evaluated
      exact verifyRedeemScript_safe contract flags fits nonempty
    · refine .check fun _ => ?_
      exact .refuse

end Verification

/-- Verification of a spend never panics: in a build without overflow checks for
every input, in a build with them for every witness that fits the machine. -/
theorem verifyScript_never_panics (host : Host) (contract : host.checker.AcceptsSchnorrCalls)
    (flags : UInt32) (scriptSig scriptPubkey : Bytes) (witness : Stack)
    (fits : host.build.overflowChecks = true → WitnessFits witness) :
    verifyScript host flags scriptSig scriptPubkey witness ≠ .panic := by
  suffices safe : Safe (verifyScript host flags scriptSig scriptPubkey witness) from safe.ne_panic
  refine (Safe.onlyIf (fun _ => ?_)).bind fun _ _ => ?_
  · refine (isPushOnly_safe scriptSig).bind fun pushOnly _ => ?_
    exact .refuse
  refine (evalScript_base_safe contract flags scriptSig [] .new).bind fun first _ => ?_
  refine .bind (evalScript_base_safe contract flags scriptPubkey first.1 first.2).remember ?_
  rintro ⟨stack, execData⟩ ⟨evaluated, _⟩
  refine (requireTrue_safe host.build stack).bind fun _ _ => ?_
  exact verifyPrograms_safe contract flags fits scriptSig scriptPubkey evaluated

/-- The P2SH path with its assertion, in a build with overflow checks. -/
theorem verifyScript_never_panics_p2sh :
    verifyScript ⟨⟨true⟩, trueScriptCrypto, noopChecker⟩ (verifyP2sh ||| verifyWitness)
      [0x01, 0x51] trueScriptHashOutput [] ≠ .panic :=
  verifyScript_never_panics _ noopChecker_acceptsSchnorrCalls _ _ _ _
    (fun _ => by unfold WitnessFits witnessSerializedSize; decide)

/-! ## A tapscript too long for the instruction counter

A leaf of `2 ^ 32` bytes is spent by a witness that no block has room for, but
that the verifier takes like any other. The instruction counter overflows at its
last instruction. The key and the digests below are those of secp256k1 and
SHA256 for the leaf of that many `OP_NOP` under the generator as internal key. -/

variable (count : Nat)

/-- A script of `count` instructions that do nothing. -/
def nopScript : Bytes := List.replicate count 0x61

def nopInternalKey : Bytes :=
  [0x79, 0xbe, 0x66, 0x7e, 0xf9, 0xdc, 0xbb, 0xac, 0x55, 0xa0, 0x62, 0x95, 0xce, 0x87, 0x0b, 0x07,
    0x02, 0x9b, 0xfc, 0xdb, 0x2d, 0xce, 0x28, 0xd9, 0x59, 0xf2, 0x81, 0x5b, 0x16, 0xf8, 0x17, 0x98]

def nopOutputKey : Bytes :=
  [0x35, 0xda, 0xa3, 0xe1, 0x48, 0x3e, 0x63, 0x3e, 0xed, 0x55, 0xc6, 0x51, 0x55, 0x83, 0x07, 0x7b,
    0xcf, 0x13, 0xe5, 0xcd, 0xff, 0x18, 0xbf, 0x83, 0x23, 0x1b, 0xb7, 0x67, 0x0f, 0x36, 0xa6, 0xbe]

def tapLeafTagHash : Bytes :=
  [0xae, 0xea, 0x8f, 0xdc, 0x42, 0x08, 0x98, 0x31, 0x05, 0x73, 0x4b, 0x58, 0x08, 0x1d, 0x1e, 0x26,
    0x38, 0xd3, 0x5f, 0x1c, 0xb5, 0x40, 0x08, 0xd4, 0xd3, 0x57, 0xca, 0x03, 0xbe, 0x78, 0xe9, 0xee]

def tapTweakTagHash : Bytes :=
  [0xe8, 0x0f, 0xe1, 0x63, 0x9c, 0x9c, 0xa0, 0x50, 0xe3, 0xaf, 0x1b, 0x39, 0xc1, 0x43, 0xc6, 0x3e,
    0x42, 0x9c, 0xbc, 0xeb, 0x15, 0xd9, 0x40, 0xfb, 0xb5, 0xc5, 0xa1, 0xf4, 0xaf, 0x57, 0xc5, 0xe9]

def nopLeafHash : Bytes :=
  [0xbd, 0x75, 0x9e, 0xb6, 0x68, 0x1d, 0xe7, 0xc0, 0xba, 0x42, 0x9e, 0x79, 0x83, 0xc6, 0x69, 0x83,
    0x81, 0xc0, 0xf0, 0x1a, 0xea, 0x09, 0x70, 0x12, 0xca, 0xef, 0x8d, 0x23, 0x6a, 0x26, 0x98, 0xc4]

def nopTweakHash : Bytes :=
  [0xc4, 0xbd, 0x01, 0xf4, 0x5a, 0x3e, 0x2a, 0x73, 0xd3, 0x96, 0xde, 0x08, 0x11, 0x9a, 0xd4, 0xb4,
    0xdb, 0x2e, 0x69, 0xa6, 0x6b, 0x21, 0xa8, 0x94, 0x51, 0x6e, 0x4d, 0xdb, 0x64, 0x29, 0x17, 0x40]

/-- Functions that agree with the real ones on the four messages hashed and the
one key tweaked when the leaf is spent; the messages differ in length. -/
def nopCrypto : Crypto where
  ripemd160 _ := []
  sha1 _ := []
  sha256 message :=
    if message.length = 7 then tapLeafTagHash
    else if message.length = 8 then tapTweakTagHash
    else if message.length = 128 then nopTweakHash
    else nopLeafHash
  normalizedDer _ := none
  xOnlyPublicKey bytes := some bytes
  addTweak key tweak :=
    if key = nopInternalKey ∧ tweak = nopTweakHash then some (nopOutputKey, .odd) else none

/-- A build with overflow checks. -/
def checkedHost : Host := ⟨⟨true⟩, nopCrypto, noopChecker⟩

/-- The control block of a leaf that is the whole tree. -/
def nopControl : Bytes := 0xc1 :: nopInternalKey

/-- The surroundings of the leaf. -/
abbrev nopEnv : Env := checkedHost.env .tapscript (nopScript count)

/-- The witness that spends the leaf. -/
abbrev nopWitness : Stack := [nopScript count, nopControl]

/-- The instruction at a position of the leaf. -/
abbrev nopAt (position : Nat) : Instruction := ⟨0x61, [], position + 1⟩

/-- The scan finds no opcode that succeeds. -/
theorem scanForOpSuccess_nopScript (flags : UInt32) :
    scanForOpSuccess (nopScript count) flags = .ok none := by
  have pass : ∀ pc, scanPass (nopScript count) pc =
      if pc < count then .ok (.next (pc + 1)) else .ok (.done false) := by
    intro pc
    unfold scanPass
    by_cases inside : pc < count
    · have read : (.index (nopScript count) pc : Exec UInt8) = .ok 0x61 := by
        simp [index, nopScript, inside]
      simp [nopScript, inside, isOpSuccess] at read ⊢
      simp [read]
    · simp [nopScript, inside]
  have run : ∀ fuel pc, count < pc + fuel → pc ≤ count →
      loop (scanPass (nopScript count)) fuel pc = .ok false := by
    intro fuel
    induction fuel with
    | zero =>
      intro pc enough inside
      omega
    | succ fuel ih =>
      intro pc enough inside
      rw [loop, pass]
      by_cases more : pc < count
      · rw [if_pos more]
        exact ih (pc + 1) (by omega) more
      · rw [if_neg more]
  unfold scanForOpSuccess
  rw [run _ 0 (by simp [nopScript]) zero_le]
  rfl

/-- The state after `position` instructions that do nothing. -/
def nopState (execData : ExecData) (position : Nat) : EvalState :=
  { EvalState.start [] execData with pc := position, opcodePos := position }

variable {count : Nat}

/-- One instruction that does nothing advances the counter, or overflows it. -/
theorem evalStep_nopScript {flags : UInt32} {execData : ExecData} {position : Nat}
    (inside : position < count) :
    evalStep (nopEnv count) flags (nopState execData position) =
      if position + 1 < 2 ^ 32 then .ok (.next (nopState execData (position + 1)))
      else .panic := by
  have byte : (.index (nopScript count) position : Exec UInt8) = .ok 0x61 := by
    simp [index, nopScript, inside]
  have read : readInstruction (nopEnv count).script (nopState execData position).pc =
      .ok (some (nopAt position)) := by
    change readInstruction (nopScript count) position = _
    simp [readInstruction, byte]
    simp [nopScript, inside]
  have admitted : admitInstruction (nopEnv count) flags (nopAt position)
      (nopState execData position).nOpCount = .ok 0 := by
    change admitInstruction _ _ _ 0 = _
    simp [admitInstruction, Host.env, SigVersion.preTapscript, maxScriptElementSize, isDisabled]
  have executed : execInstruction (nopEnv count) flags true (nopAt position)
      { nopState execData position with pc := position + 1, nOpCount := 0 } =
        .ok { nopState execData position with pc := position + 1, nOpCount := 0 } := by
    rfl
  have more : (nopState execData position).pc < (nopEnv count).script.length := by
    simpa [nopState, Host.env, nopScript] using inside
  have open_ : (nopState execData position).vfExec.allTrue = true := rfl
  rw [evalStep, if_pos more]
  simp only [read, ok_bind, ofOption, admitted, open_, executed]
  have counter : (nopEnv count).build = ⟨true⟩ := rfl
  have small : failWhen (decide ((nopState execData position).stack.length +
      (nopState execData position).altstack.length > maxStackSize)) ScriptError.stackSize =
        .ok () := rfl
  have before : (nopState execData position).opcodePos = position := rfl
  simp only [small, counter, before, ok_bind, Build.add, Build.overflow, if_true]
  by_cases fits : position + 1 < 2 ^ 32
  · rw [if_pos fits, if_pos fits]
    rfl
  · rw [if_neg fits, if_neg fits]
    rfl

/-- A run of `2 ^ 32` or more such instructions overflows the counter. -/
theorem evalScript_nopScript {flags : UInt32} {execData : ExecData} (long : 2 ^ 32 ≤ count) :
    evalScript (nopEnv count) flags [] execData = .panic := by
  have run : ∀ left fuel position, position + left + 1 = 2 ^ 32 → left < fuel →
      loop (evalStep (nopEnv count) flags) fuel (nopState execData position) = .panic := by
    intro left
    induction left with
    | zero =>
      intro fuel position last enough
      cases fuel with
      | zero => omega
      | succ fuel =>
        rw [loop, evalStep_nopScript (by omega), if_neg (by omega)]
    | succ left ih =>
      intro fuel position last enough
      cases fuel with
      | zero => omega
      | succ fuel =>
        rw [loop, evalStep_nopScript (by omega), if_pos (by omega)]
        exact ih fuel (position + 1) (by omega) (by omega)
  have length : (nopEnv count).script.length = count := by
    simp [Host.env, nopScript]
  unfold evalScript
  have panics := run (2 ^ 32 - 1) (count + 1) 0 (by omega) (by omega)
  rw [length]
  have start : EvalState.start [] execData = nopState execData 0 := rfl
  rw [start, panics]
  rfl

/-- The leaf commits to its output key. -/
theorem verifyTaprootCommitment_nopScript :
    verifyTaprootCommitment checkedHost nopControl nopOutputKey nopLeafHash = .ok true := by
  decide +kernel

theorem computeTapleafHash_nopScript (long : 2 ^ 32 ≤ count) :
    computeTapleafHash nopCrypto 0xc0 (nopScript count) = nopLeafHash := by
  have tagHash : nopCrypto.sha256 tapLeafTag = tapLeafTagHash := by decide
  have length : (tapLeafTagHash ++ tapLeafTagHash ++
      (0xc0 :: Wire.compactSize (nopScript count).length ++ nopScript count)).length =
        65 + Wire.compactSizeLength count + count := by
    simp [tapLeafTagHash, nopScript]
    omega
  unfold computeTapleafHash Crypto.tagged
  simp only [tagHash]
  unfold nopCrypto
  simp only [length]
  rw [if_neg (by omega), if_neg (by omega), if_neg (by omega)]

/-- Spending a leaf of `2 ^ 32` or more such instructions overflows the counter. -/
theorem verifyTaprootScriptPath_nopScript {flags : UInt32} (long : 2 ^ 32 ≤ count)
    (stored : count < 2 ^ 62) {execData : ExecData} :
    verifyTaprootScriptPath checkedHost flags (nopWitness count) (nopWitness count) nopOutputKey
      execData = .panic := by
  have size : witnessSerializedSize (nopWitness count) < 2 ^ 62 + 54 := by
    have varint := Wire.compactSizeLength_le count
    simp [witnessSerializedSize, nopScript, nopControl, nopInternalKey, Wire.compactSizeLength]
      at varint ⊢
    omega
  have weight : ∃ value, (checkedHost.build.signed 64
      (Build.toI64 (witnessSerializedSize (nopWitness count)) +
        validationWeightOffset) : Exec Int) = .ok value := by
    have below : witnessSerializedSize (nopWitness count) < 2 ^ 63 := by omega
    refine ⟨_, Build.signed_of_fits (Or.inl ?_)⟩
    rw [show Build.toI64 (witnessSerializedSize (nopWitness count)) =
      witnessSerializedSize (nopWitness count) from if_pos below]
    unfold validationWeightOffset
    omega
  obtain ⟨value, weighed⟩ := weight
  have popControl : (.popLast (nopWitness count) : Exec (Bytes × Stack)) =
      .ok (nopControl, [nopScript count]) := rfl
  have popScript : (.popLast [nopScript count] : Exec (Bytes × Stack)) =
      .ok (nopScript count, []) := rfl
  have sized : (failWhen (nopControl.length < taprootControlBaseSize ||
      nopControl.length > taprootControlMaxSize) ScriptError.taprootWrongControlSize) =
        .ok () := rfl
  have path : (checkedHost.build.sub 64 nopControl.length taprootControlBaseSize : Exec Nat) =
      .ok 0 := rfl
  have whole : failWhen (0 % taprootControlNodeSize != 0)
      ScriptError.taprootWrongControlSize = .ok () := rfl
  have first : (.index nopControl 0 : Exec UInt8) = .ok 0xc1 := rfl
  have leafVersion : (0xc1 : UInt8) &&& taprootLeafMask = 0xc0 := by decide
  have leaf : computeTapleafHash checkedHost.crypto 0xc0 (nopScript count) = nopLeafHash :=
    computeTapleafHash_nopScript long
  have isTapscript : (0xc0 : UInt8) = taprootLeafTapscript := rfl
  unfold verifyTaprootScriptPath
  simp only [popControl, popScript, sized, path, whole, first, leafVersion, leaf,
    verifyTaprootCommitment_nopScript, ok_bind, Bool.not_true, failWhen_false,
    weighed, if_pos isTapscript]
  unfold executeWitnessScript runWitnessScript
  simp only [scanForOpSuccess_nopScript, if_true, ok_bind]
  have few : failWhen (decide (([] : Stack).length > maxStackSize))
      ScriptError.stackSize = .ok () := rfl
  have smallItems : failWhen
      (([] : Stack).any (fun item => decide (item.length > maxScriptElementSize)))
      ScriptError.pushSize = .ok () := rfl
  simp only [few, smallItems, ok_bind, evalScript_nopScript long, panic_bind]

/-- The taproot output whose tree is the leaf. -/
def nopOutput : Bytes := 0x51 :: 0x20 :: nopOutputKey

/-- The rules that make a taproot output spendable by a script. -/
def taprootFlags : UInt32 := verifyP2sh ||| verifyWitness ||| verifyTaproot

theorem verifyTaprootSpend_nopScript {flags : UInt32} (long : 2 ^ 32 ≤ count)
    (stored : count < 2 ^ 62) :
    verifyTaprootSpend checkedHost flags (nopWitness count) nopOutputKey = .panic := by
  have annex : takeAnnex checkedHost.crypto (nopWitness count) .new =
      .ok (nopWitness count, { ExecData.new with annexInit := true }) := rfl
  unfold verifyTaprootSpend
  simp only [annex, isEmpty_cons, failWhen_false, ok_bind]
  rw [if_neg (by simp)]
  exact verifyTaprootScriptPath_nopScript long stored

/-- The verifier runs the leaf of such an output. -/
theorem verifyScript_nopScript (long : 2 ^ 32 ≤ count) (stored : count < 2 ^ 62) :
    verifyScript checkedHost taprootFlags [] nopOutput (nopWitness count) = .panic := by
  have input : evalScript (checkedHost.env .base []) taprootFlags [] .new =
      .ok ([], { ExecData.new with codeseparatorPosInit := true }) := by
    decide +kernel
  have output : evalScript (checkedHost.env .base nopOutput) taprootFlags []
      { ExecData.new with codeseparatorPosInit := true } =
        .ok ([[1], nopOutputKey], { ExecData.new with codeseparatorPosInit := true }) := by
    decide +kernel
  have leftTrue : requireTrue checkedHost.build [[1], nopOutputKey] = .ok () := by
    decide +kernel
  have named : isWitnessProgram nopOutput = .ok (some (1, nopOutputKey)) := by
    decide +kernel
  have pushOnly : hasFlag taprootFlags verifySigpushonly = false := by decide
  have witnessAsked : hasFlag taprootFlags verifyWitness = true := by decide
  have taprootAsked : hasFlag taprootFlags verifyTaproot = true := by decide
  have program : verifyWitnessProgram checkedHost taprootFlags (nopWitness count) 1
      nopOutputKey false = .panic := by
    unfold verifyWitnessProgram
    rw [if_neg (by decide), if_pos (by decide), taprootAsked, onlyIf_true]
    exact verifyTaprootSpend_nopScript long stored
  unfold verifyScript verifyPrograms runNamedProgram
  simp [pushOnly, input, output, leftTrue, named, witnessAsked, program, onlyIf_false, ok_bind,
    panic_bind, failWhen_false]

/-- In a build with overflow checks a witness with a leaf of `2 ^ 32` bytes makes
the verifier panic, although flags and checker are as required. -/
theorem verifyScript_panics_on_long_tapscript :
    FlagPreconditions taprootFlags ∧ checkedHost.checker.AcceptsSchnorrCalls ∧
      verifyScript checkedHost taprootFlags [] nopOutput [nopScript (2 ^ 32), nopControl] =
        .panic :=
  ⟨by decide, noopChecker_acceptsSchnorrCalls, verifyScript_nopScript (Nat.le_refl _) (by norm_num)⟩

end Satd.Consensus
