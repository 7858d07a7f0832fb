import Satd.Consensus.FindAndDelete
import Satd.Consensus.Verify

/-!
# Opcodes do not panic

Each arm of the opcode dispatch indexes and cuts the stack by amounts it has
checked, and does arithmetic on numbers of at most five bytes. One `Safe` lemma
per definition records it. Signature checks of tapscripts also need the weight
budget to be set, and that is what `Budget` says; `Within` collects what an
instruction can rely on and has to keep.
-/

namespace Satd.Consensus

open Rust List Outcome
open Rust.Outcome (Safe)

/-! ## Stack opcodes -/

variable {stack : Stack} {op : BinaryOp} {execData : ExecData} {sig pubkey : Bytes}

theorem requireItems_safe {count : Nat} :
    Safe (requireItems stack count) (fun _ => count ≤ stack.length) := by
  refine (Safe.failWhen _ _).mono (fun _ enough => ?_)
  simp only [decide_eq_false_iff_not] at enough
  omega

section Sequencing

variable {α : Type} {post : α → Prop}

/-- After a size check the stack has the elements asked for. -/
theorem requiring {count : Nat} {next : PUnit → Exec α}
    (rest : count ≤ stack.length → Safe (next ⟨⟩) post) :
    Safe (requireItems stack count >>= next) post :=
  requireItems_safe.bind fun _ enough => rest enough

theorem fromTop_safe {build : Build} {depth : Nat} (positive : 0 < depth)
    (inside : depth ≤ stack.length) : Safe (fromTop build stack depth) := by
  refine .sub inside ?_
  exact (Safe.index (by omega)).forget

theorem peeking {build : Build} {depth : Nat} {next : Bytes → Exec α} (positive : 0 < depth)
    (inside : depth ≤ stack.length) (rest : ∀ item, Safe (next item) post) :
    Safe (fromTop build stack depth >>= next) post :=
  (fromTop_safe positive inside).andThen rest

end Sequencing

theorem lastItem_safe (inside : 1 ≤ stack.length) : Safe (lastItem stack : Exec Bytes) :=
  (Safe.lastItem (ne_nil_of_length_pos inside)).forget

/-- Taking the top off a stack leaves one element less. -/
theorem popLast_safe (inside : 1 ≤ stack.length) :
    Safe (popLast stack : Exec (Bytes × Stack))
      (fun popped => popped.2.length + 1 = stack.length) := by
  refine (Safe.popLast (ne_nil_of_length_pos inside)).mono (fun popped split => ?_)
  rw [split]
  simp

theorem execEqual_safe : Safe (execEqual stack) := by
  refine requiring fun enough => ?_
  refine (popLast_safe (by omega)).bind fun popped shorter => ?_
  exact (popLast_safe (by omega)).bind fun _ _ => trivial

variable (build : Build)

/-- Each stack opcode checks for the elements it reads. -/
theorem execStackOp_safe {op : StackOp} : Safe (execStackOp build stack op) := by
  cases op with
  | verify =>
    refine requiring fun enough => ?_
    refine (lastItem_safe enough).bind fun top _ => ?_
    refine (castToBool_safe build).bind fun value _ => ?_
    exact .check fun _ => trivial
  | drop2 => exact requiring fun _ => trivial
  | dup2 =>
    refine requiring fun enough => ?_
    refine peeking (by omega) (by omega) fun vch1 => ?_
    exact peeking (by omega) (by omega) fun vch2 => trivial
  | dup3 =>
    refine requiring fun enough => ?_
    refine peeking (by omega) (by omega) fun vch1 => ?_
    refine peeking (by omega) (by omega) fun vch2 => ?_
    exact peeking (by omega) (by omega) fun vch3 => trivial
  | over2 =>
    refine requiring fun enough => ?_
    refine peeking (by omega) (by omega) fun vch1 => ?_
    exact peeking (by omega) (by omega) fun vch2 => trivial
  | rot2 =>
    refine requiring fun enough => ?_
    refine peeking (by omega) (by omega) fun vch1 => ?_
    refine peeking (by omega) (by omega) fun vch2 => ?_
    refine .sub enough ?_
    refine .sub (by omega) ?_
    exact (Safe.drainItems (by omega) (by omega)).bind fun rest _ => trivial
  | swap2 =>
    refine requiring fun enough => ?_
    refine .sub enough ?_
    refine .sub (by omega) ?_
    refine .sub (by omega) ?_
    refine .sub (by omega) ?_
    refine (Safe.swapItems (by omega) (by omega)).bind fun swapped same => ?_
    exact (Safe.swapItems (by omega) (by omega)).forget
  | ifdup =>
    refine requiring fun enough => ?_
    refine (lastItem_safe enough).bind fun vch _ => ?_
    exact (castToBool_safe build).bind fun value _ => trivial
  | depth => exact (serializeI64_safe build).bind fun item _ => trivial
  | drop => exact requiring fun _ => trivial
  | dup =>
    refine requiring fun enough => ?_
    exact (lastItem_safe enough).bind fun vch _ => trivial
  | nip =>
    refine requiring fun enough => ?_
    refine .sub enough ?_
    exact .removeItem (by omega)
  | overOp =>
    refine requiring fun enough => ?_
    exact peeking (by omega) (by omega) fun vch => trivial
  | rot =>
    refine requiring fun enough => ?_
    refine .sub enough ?_
    refine .sub (by omega) ?_
    refine .sub (by omega) ?_
    refine (Safe.swapItems (by omega) (by omega)).bind fun swapped same => ?_
    exact (Safe.swapItems (by omega) (by omega)).forget
  | swap =>
    refine requiring fun enough => ?_
    refine .sub enough ?_
    refine .sub (by omega) ?_
    exact (Safe.swapItems (by omega) (by omega)).forget
  | tuck =>
    refine requiring fun enough => ?_
    refine (lastItem_safe (by omega)).bind fun vch _ => ?_
    refine .sub enough ?_
    exact .insertItem (by omega) vch
  | size =>
    refine requiring fun enough => ?_
    refine (lastItem_safe enough).bind fun top _ => ?_
    exact (serializeI64_safe build).bind fun item _ => trivial
  | equal => exact (execEqual_safe).bind fun compared _ => trivial
  | equalVerify =>
    refine (execEqual_safe).bind fun compared _ => ?_
    exact .check fun _ => trivial

/-- The depth an opcode reads is checked against the stack without its top. -/
theorem execPick_safe {requireMinimal roll : Bool} :
    Safe (execPick build requireMinimal roll stack) := by
  refine requiring fun enough => ?_
  refine (lastItem_safe (by omega)).bind fun top _ => ?_
  refine fromBytesDefault_safe.bind fun number _ => ?_
  refine .check fun checked => ?_
  simp only [Bool.or_eq_false_iff, decide_eq_false_iff_not, not_le] at checked
  refine .sub (by omega) ?_
  refine .sub (by omega) ?_
  refine .read (by omega) fun vch _ => ?_
  refine .andThen ?_ (fun rest => trivial)
  cases roll with
  | false => trivial
  | true => exact .removeItem (by omega)

theorem execHash_safe {crypto : Crypto} {op : HashOp} : Safe (execHash crypto op stack) := by
  refine requiring fun enough => ?_
  exact (popLast_safe enough).bind fun popped _ => trivial

/-! ## Numeric opcodes -/

private theorem moderate_one : Moderate 1 := by
  unfold Moderate
  decide

/-- Operands come from at most four bytes, so no result leaves the 64-bit range
and the number without a negation does not occur. -/
theorem unaryResult_safe {bn : Int} (bound : Moderate bn) {op : UnaryOp} :
    Safe (unaryResult build bn op) := by
  cases op with
  | add1 => exact addNum_safe build bound moderate_one
  | sub1 => exact subNum_safe build bound moderate_one
  | negate => exact negate_safe build bound
  | abs => exact .ite (fun _ => negate_safe build bound) (fun _ => trivial)
  | not => trivial
  | notEqual0 => trivial

variable (requireMinimal : Bool)

theorem execUnary_safe {op : UnaryOp} : Safe (execUnary build requireMinimal op stack) := by
  refine requiring fun enough => ?_
  refine (lastItem_safe enough).bind fun top _ => ?_
  refine fromBytesDefault_safe.bind fun bn bound => ?_
  refine (unaryResult_safe build bound).bind fun result _ => ?_
  exact (serializeI64_safe build).bind fun item _ => trivial

theorem binaryResult_safe {bn1 bn2 : Int} (bound1 : Moderate bn1) (bound2 : Moderate bn2) :
    Safe (binaryResult build bn1 bn2 op) := by
  cases op with
  | add => exact addNum_safe build bound1 bound2
  | sub => exact subNum_safe build bound1 bound2
  | _ => trivial

theorem execBinary_safe : Safe (execBinary build requireMinimal op stack) := by
  refine requiring fun enough => ?_
  refine peeking (by omega) (by omega) fun item2 => ?_
  refine fromBytesDefault_safe.bind fun bn2 bound2 => ?_
  refine peeking (by omega) (by omega) fun item1 => ?_
  refine fromBytesDefault_safe.bind fun bn1 bound1 => ?_
  refine (binaryResult_safe build bound1 bound2).bind fun result _ => ?_
  refine (serializeI64_safe build).bind fun item _ => ?_
  refine .ite (fun _ => ?_) (fun _ => trivial)
  refine (lastItem_safe (by simp)).bind fun top _ => ?_
  refine (castToBool_safe build).bind fun value _ => ?_
  exact .check fun _ => trivial

theorem execWithin_safe : Safe (execWithin build requireMinimal stack) := by
  refine requiring fun enough => ?_
  refine peeking (by omega) (by omega) fun item3 => ?_
  refine fromBytesDefault_safe.bind fun bn3 _ => ?_
  refine peeking (by omega) (by omega) fun item2 => ?_
  refine fromBytesDefault_safe.bind fun bn2 _ => ?_
  refine peeking (by omega) (by omega) fun item1 => ?_
  exact fromBytesDefault_safe.bind fun bn1 _ => trivial

/-! ## Signature opcodes -/

/-- The weight budget of a tapscript: set, and in a build that checks for overflow
a nonnegative 64-bit number. -/
def Budget (execData : ExecData) : Prop :=
  execData.validationWeightLeftInit = true ∧
    (build.overflowChecks = true →
      0 ≤ execData.validationWeightLeft ∧ execData.validationWeightLeft.natAbs < 2 ^ 63)

/-- What a script must satisfy to be run. -/
structure Runnable (env : Env) : Prop where
  notTaproot : env.sigVersion ≠ .taproot
  contract : env.checker.AcceptsSchnorrCalls
  short : env.build.overflowChecks = true → env.script.length < 2 ^ 32

theorem deleteSignature_safe (flags : UInt32) (code sig : Bytes) :
    Safe (deleteSignature flags code sig) := by
  refine (findAndDelete_safe).bind fun deleted _ => ?_
  exact .check fun _ => trivial

variable (env : Env) (flags : UInt32)

theorem evalChecksigPreTapscript_safe (sig pubkey scriptCode : Bytes) :
    Safe (evalChecksigPreTapscript env flags sig pubkey scriptCode) := by
  have deleted : Safe
      (if env.sigVersion == .base then deleteSignature flags scriptCode sig else .ok scriptCode) :=
    .ite (fun _ => deleteSignature_safe flags scriptCode sig) (fun _ => trivial)
  refine .bind deleted (fun code _ => ?_)
  refine checkSignatureEncoding_safe.bind fun _ _ => ?_
  refine (checkPubkeyEncoding_safe).bind fun _ _ => ?_
  exact .check fun _ => trivial

/-- Paying for a signature keeps the budget a budget, or ends the script. -/
theorem spendValidationWeight_safe (budget : Budget env.build execData) :
    Safe (spendValidationWeight env sig execData) (Budget env.build) := by
  obtain ⟨initialised, range⟩ := budget
  refine .ite (fun _ => ⟨initialised, range⟩) (fun _ => ?_)
  rw [initialised, assert_true, ok_bind]
  have fits : env.build.overflowChecks = true → Build.FitsSigned 64
      (execData.validationWeightLeft - validationWeightPerSigopPassed) := by
    intro checks
    have bounds := range checks
    unfold validationWeightPerSigopPassed
    exact .inl (by omega)
  refine (Build.signed_safe fits).bind fun left exactLeft => ?_
  refine .check fun nonnegative => ?_
  refine ⟨rfl, fun checks => ?_⟩
  have bounds := range checks
  have value := exactLeft checks
  simp only [decide_eq_false_iff_not, not_lt] at nonnegative
  unfold validationWeightPerSigopPassed at value
  exact ⟨nonnegative, by simp only; omega⟩

theorem evalChecksigTapscript_safe {env : Env} (runnable : Runnable env) {flags : UInt32}
    (budget : Budget env.build execData) :
    Safe (evalChecksigTapscript env flags sig pubkey execData)
      (fun checked => Budget env.build checked.2) := by
  refine (spendValidationWeight_safe env budget).bind fun spent kept => ?_
  refine .ite (fun _ => trivial) (fun _ => ?_)
  refine .ite (fun sized => ?_) (fun _ => ?_)
  · refine (Safe.onlyIf (fun _ => ?_)).bind fun _ _ => kept
    have answered := runnable.contract sig pubkey .tapscript spent sized (.inr rfl)
    refine (Safe.intro answered (fun _ _ => trivial)).bind fun verified (_ : True) => ?_
    exact .refuse
  · exact .check fun _ => kept

/-- A signature check never reaches the version without a script, and finds the
budget of a tapscript set. -/
theorem evalChecksig_safe {env : Env} (runnable : Runnable env) {flags : UInt32}
    {scriptCode : Bytes} (budget : env.sigVersion = .tapscript → Budget env.build execData) :
    Safe (evalChecksig env flags sig pubkey scriptCode execData)
      (fun checked => env.sigVersion = .tapscript → Budget env.build checked.2) := by
  have preTapscript := evalChecksigPreTapscript_safe env flags sig pubkey scriptCode
  unfold evalChecksig
  cases version : env.sigVersion with
  | base => exact .bind preTapscript (fun _ _ => by simp)
  | witnessV0 => exact .bind preTapscript (fun _ _ => by simp)
  | taproot => exact absurd version runnable.notTaproot
  | tapscript =>
    exact (evalChecksigTapscript_safe runnable (budget version)).mono (fun _ kept _ => kept)

/-- What holds of the state while the instruction before position `pc` is
executed. -/
structure Within (env : Env) (pc : Nat) (state : EvalState) : Prop where
  atPc : state.pc = pc
  pcInside : pc ≤ env.script.length
  codeInside : state.pbegincodehash ≤ env.script.length
  budget : env.sigVersion = .tapscript → Budget env.build state.execData
  counted : env.build.overflowChecks = true → state.opcodePos < pc ∧ state.vfExec.stackSize ≤ pc

section Instruction

variable {env : Env} (runnable : Runnable env) (flags : UInt32) {pc : Nat}
  {state : EvalState} (within : Within env pc state)

include runnable within

theorem execCheckSig_safe {verify : Bool} :
    Safe (execCheckSig env flags verify state) (Within env pc) := by
  refine requiring fun enough => ?_
  refine (popLast_safe (by omega)).bind fun keyPopped shorter => ?_
  refine (popLast_safe (by omega)).bind fun sigPopped _ => ?_
  refine (Safe.slice within.codeInside (le_refl _)).bind fun code _ => ?_
  refine (evalChecksig_safe runnable within.budget).bind fun checked budget => ?_
  have kept : ∀ stack, Within env pc { state with stack, execData := checked.2 } :=
    fun stack => { within with budget := budget }
  refine .ite (fun _ => ?_) (fun _ => kept _)
  exact .check fun _ => kept _

theorem execCheckSigAdd_safe : Safe (execCheckSigAdd env flags state) (Within env pc) := by
  refine .check fun _ => ?_
  refine requiring fun enough => ?_
  refine (popLast_safe (by omega)).bind fun keyPopped shorter => ?_
  refine (lastItem_safe (by omega)).bind fun numItem _ => ?_
  refine fromBytesDefault_safe.bind fun num bound => ?_
  refine (popLast_safe (by rw [length_dropLast]; omega)).bind fun sigPopped _ => ?_
  refine (Safe.slice within.codeInside (le_refl _)).bind fun code _ => ?_
  refine (evalChecksig_safe runnable within.budget).bind fun checked budget => ?_
  have small : Moderate (if checked.1 then 1 else 0) := by
    unfold Moderate
    split <;> decide
  refine (addNum_safe env.build bound small).bind fun result _ => ?_
  refine (serializeI64_safe env.build).bind fun item _ => ?_
  exact { within with budget := budget }

end Instruction

/-! ## Multiple signatures -/

/-- The counts are within their limits, the stack holds what they announce, and the keys are
counted as operations. -/
theorem readMultisigCounts_safe {stack : Stack} {nOpCount : Nat} :
    Safe (readMultisigCounts build requireMinimal stack nOpCount) (fun counts =>
      counts.nKeysCount ≤ 20 ∧ counts.nSigsCount ≤ counts.nKeysCount ∧
        3 + counts.nKeysCount + counts.nSigsCount ≤ stack.length ∧
        counts.nOpCount = nOpCount + counts.nKeysCount) := by
  refine requiring fun enough => ?_
  refine peeking (by omega) enough fun keysItem => ?_
  refine fromBytesDefault_safe.bind fun keysNumber _ => ?_
  refine .check fun keysBound => ?_
  refine .check fun _ => ?_
  refine requiring fun keysHeld => ?_
  refine peeking (by omega) keysHeld fun sigsItem => ?_
  refine fromBytesDefault_safe.bind fun sigsNumber _ => ?_
  refine .check fun sigsBound => ?_
  refine requiring fun sigsHeld => ?_
  simp only [maxPubkeysPerMultisig, Bool.or_eq_false_iff, decide_eq_false_iff_not, not_lt,
    gt_iff_lt] at keysBound sigsBound
  exact ⟨keysBound.2, by simp only; omega, sigsHeld, rfl⟩

theorem deleteSignatures_safe (stack : Stack) {isig : Nat}
    (positive : 1 ≤ isig) (indices : List Nat) (code : Bytes)
    (held : ∀ k ∈ indices, isig + k ≤ stack.length) :
    Safe (deleteSignatures env flags stack isig indices code) := by
  induction indices generalizing code with
  | nil => trivial
  | cons k rest ih =>
    have here := held k (mem_cons_self ..)
    refine .sub (by omega) ?_
    refine .sub (by omega) ?_
    refine .read (by omega) fun sigData _ => ?_
    refine (deleteSignature_safe flags code sigData).bind fun newCode _ => ?_
    exact ih newCode (fun index member => held index (mem_cons_of_mem _ member))

/-- The matching loop: the signatures and the keys still to be tried lie where
the counts say, and while the check can succeed there are at least as many
keys as signatures. -/
structure Matching (stack : Stack) (nKeys nSigs : Nat) (state : MultisigState) : Prop where
  sigsLeft : 0 ≤ state.nSigsCount
  keysLeft : 0 ≤ state.nKeysRemaining
  enough : state.fSuccess = true → state.nSigsCount ≤ state.nKeysRemaining
  sigPlace : (state.isig : Int) + state.nSigsCount = 3 + nKeys + nSigs
  sigStart : 3 + nKeys ≤ state.isig
  keyPlace : (state.ikey : Int) + state.nKeysRemaining = 2 + nKeys
  keyStart : 2 ≤ state.ikey

private theorem fitsSigned_count {value : Int} (low : -1 ≤ value) (high : value ≤ 40) :
    Build.FitsSigned 32 value :=
  .inl (by omega)

/-- One pass reads a signature and a key that are on the stack and uses up a key. -/
theorem multisigPass_safe {stack : Stack} {scriptCode : Bytes}
    {nKeys nSigs : Nat} (few : nKeys ≤ 20) (fewer : nSigs ≤ nKeys)
    (held : 3 + nKeys + nSigs ≤ stack.length) (state : MultisigState)
    (matching : Matching stack nKeys nSigs state) :
    Safe (multisigPass env flags stack scriptCode state)
      (Safe.Pass (Matching stack nKeys nSigs) (fun _ => True)
        (fun matching => matching.nKeysRemaining.toNat) state) := by
  obtain ⟨sigsLeft, keysLeft, enough, sigPlace, sigStart, keyPlace, keyStart⟩ := matching
  refine .ite (fun going => ?_) (fun _ => trivial)
  obtain ⟨succeeding, sigsWaiting⟩ := going
  have keysWaiting := enough succeeding
  refine peeking (by omega) (by omega) fun vchSig => ?_
  refine peeking (by omega) (by omega) fun vchPubkey => ?_
  refine checkSignatureEncoding_safe.bind fun _ _ => ?_
  refine (checkPubkeyEncoding_safe).bind fun _ _ => ?_
  generalize env.checker.checkEcdsaSignature vchSig vchPubkey scriptCode env.sigVersion = fOk
  rw [Build.signed_of_fits (fitsSigned_count (by omega) (by omega)),
    Build.signed_of_fits (fitsSigned_count (by omega) (by omega))]
  cases fOk with
  | true =>
    refine ⟨⟨?_, ?_, ?_, ?_, ?_, ?_, ?_⟩, ?_⟩ <;> simp only [if_true, decide_eq_true_eq] <;> omega
  | false =>
    refine ⟨⟨?_, ?_, ?_, ?_, ?_, ?_, ?_⟩, ?_⟩ <;>
      simp only [Bool.false_eq_true, if_false, decide_eq_true_eq] <;> omega

/-- While arguments are taken off, at least as many elements are left. -/
theorem popMultisigArguments_safe (fSuccess : Bool) (i ikey2 : Nat)
    (stack : Stack) (held : i ≤ stack.length) :
    Safe (popMultisigArguments env flags fSuccess i ikey2 stack) := by
  induction i generalizing ikey2 stack with
  | zero => trivial
  | succ i ih =>
    cases i with
    | zero => trivial
    | succ i =>
      refine (Safe.onlyIf (fun _ => ?_)).bind fun _ _ => ?_
      · refine peeking (by omega) (by omega) fun top => ?_
        exact .refuse
      · exact ih (ikey2 - 1) stack.dropLast (by rw [length_dropLast]; omega)

theorem popDummy_safe {stack : Stack} : Safe (popDummy flags stack) := by
  refine requiring fun enough => ?_
  refine (Safe.onlyIf (fun _ => ?_)).bind fun _ _ => trivial
  refine (lastItem_safe enough).bind fun dummy _ => ?_
  exact .refuse

theorem execCheckMultiSig_safe {env : Env} {flags : UInt32} {pc : Nat} {state : EvalState}
    (within : Within env pc state) {verify : Bool} :
    Safe (execCheckMultiSig env flags verify state) (Within env pc) := by
  refine .check fun _ => ?_
  refine (readMultisigCounts_safe env.build _).bind fun counts announced => ?_
  obtain ⟨few, fewer, held, -⟩ := announced
  refine (Safe.slice within.codeInside (le_refl _)).bind fun code _ => ?_
  have signatures : ∀ k ∈ List.range counts.nSigsCount,
      3 + counts.nKeysCount + k ≤ state.stack.length := by
    intro k member
    have below := mem_range.mp member
    omega
  refine .andThen ?_ (fun scriptCode => ?_)
  · exact .ite
      (fun _ => deleteSignatures_safe env flags state.stack (by omega) _ code signatures)
      (fun _ => trivial)
  have matched : Safe (.loop (multisigPass env flags state.stack scriptCode)
      (counts.nKeysCount + 2)
      { isig := 3 + counts.nKeysCount, ikey := 2, nSigsCount := counts.nSigsCount,
        nKeysRemaining := counts.nKeysCount, fSuccess := true }) := by
    refine .loop _ (fun matching => matching.nKeysRemaining.toNat)
      (multisigPass_safe env flags few fewer held) _ _ ?_ (by simp)
    exact ⟨by simp, by simp, by simp; omega, by simp, by simp, by simp, by simp⟩
  refine .bind matched (fun fSuccess _ => ?_)
  refine (popMultisigArguments_safe env flags fSuccess _ _ state.stack held).bind fun popped _ => ?_
  refine (popDummy_safe flags).bind fun stack _ => ?_
  have kept : ∀ stack, Within env pc { state with stack, nOpCount := counts.nOpCount } :=
    fun stack => { within with }
  refine .ite (fun _ => ?_) (fun _ => kept _)
  exact .check fun _ => kept _

/-! ## Lock times and conditionals -/

theorem readLockTime_safe : Safe (readLockTime build requireMinimal stack) := by
  refine requiring fun enough => ?_
  refine (lastItem_safe enough).bind fun top _ => ?_
  refine (fromBytes_safe build top requireMinimal (le_refl 5)).bind fun value _ => ?_
  exact .check fun _ => trivial

theorem checkLockTimeVerify_safe : Safe (checkLockTimeVerify env flags stack) := by
  refine .onlyIf (fun _ => ?_)
  refine (readLockTime_safe env.build _).bind fun nLockTime _ => ?_
  exact .refuse

theorem checkSequenceVerify_safe : Safe (checkSequenceVerify env flags stack) := by
  refine .onlyIf (fun _ => ?_)
  refine (readLockTime_safe env.build _).bind fun nSequence _ => ?_
  exact .refuse

theorem checkMinimalIf_safe {vch : Bytes} {error : ScriptError} :
    Safe (checkMinimalIf vch error) := by
  refine .ite (fun _ => trivial) (fun _ => ?_)
  refine .ite (fun single => ?_) (fun _ => trivial)
  refine .read (by omega) fun byte _ => ?_
  exact .refuse

theorem takeCondition_safe {negated : Bool} : Safe (takeCondition env flags negated stack) := by
  refine requiring fun enough => ?_
  refine (lastItem_safe enough).bind fun vch _ => ?_
  refine (Safe.onlyIf (fun _ => checkMinimalIf_safe)).bind fun _ _ => ?_
  refine (Safe.onlyIf (fun _ => checkMinimalIf_safe)).bind fun _ _ => ?_
  exact (castToBool_safe env.build).bind fun value _ => trivial

end Satd.Consensus
