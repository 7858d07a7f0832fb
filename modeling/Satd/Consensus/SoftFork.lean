import Satd.Consensus.Verify

/-!
# Fewer flags accept at least as much

Every flag adds a rule, so a script that verifies under a flag word verifies
under every part of that word. The proof compares two runs of the interpreter
that differ only in their flags. Each definition that reads flags has one lemma:
whatever it returns under more flags it returns, with the same value, under
fewer. Loops and sequences inherit this from their parts.

Two places are not of that shape. With fewer flags the P2SH and witness stages of
`verifyScript` may be left out, and the stack they return differs from the one
the longer run ends with. Only the clean-stack rule reads that stack, and its
flag requires both stages, so when the rule applies the two runs take the same
stages.
-/

namespace Satd.Consensus

open Rust Bool Outcome
open Rust.Outcome (Extends bind_eq_ok ok_bind)
open Extends (after)

section TwoRuns

variable {fewer more : UInt32} (subset : FlagSubset fewer more) (env : Env)

include subset

/-! ## Signature opcodes -/

private theorem and_hasFlag_imp {flag : UInt32} {condition : Bool}
    (fires : (condition && hasFlag fewer flag) = true) :
    (condition && hasFlag more flag) = true := by
  rw [and_eq_true] at fires ⊢
  exact ⟨fires.1, subset.hasFlag_imp fires.2⟩

theorem deleteSignature_extends (code sig : Bytes) :
    Extends (deleteSignature fewer code sig) (deleteSignature more code sig) := by
  apply after
  intro found
  exact .before (.failWhen (and_hasFlag_imp subset) _)

variable {pubkey scriptCode sig script program : Bytes} {execData : ExecData} {state : EvalState}
    {build : Build} {stack : Stack} {sigVersion : SigVersion} {fExec isP2sh : Bool} {flags : UInt32}
    {stackCopy : Option Stack}

theorem evalChecksigPreTapscript_extends :
    Extends (evalChecksigPreTapscript env fewer sig pubkey scriptCode)
      (evalChecksigPreTapscript env more sig pubkey scriptCode) := by
  have deleted : Extends
      (if env.sigVersion == .base then deleteSignature fewer scriptCode sig else .ok scriptCode)
      (if env.sigVersion == .base then
        deleteSignature more scriptCode sig else .ok scriptCode) := by
    split
    · exact deleteSignature_extends subset scriptCode sig
    · exact .refl _
  apply Extends.bind deleted
  intro code
  apply Extends.bind (checkSignatureEncoding_extends env.build env.crypto subset)
  intro _
  apply Extends.bind (checkPubkeyEncoding_extends subset)
  intro _
  apply Extends.bind
  · apply Extends.failWhen
    intro fires
    simp only [and_eq_true] at fires ⊢
    exact ⟨⟨fires.1.1, subset.hasFlag_imp fires.1.2⟩, fires.2⟩
  · intro _
    exact .refl _

theorem evalChecksigTapscript_extends :
    Extends (evalChecksigTapscript env fewer sig pubkey execData)
      (evalChecksigTapscript env more sig pubkey execData) := by
  apply after
  intro spent
  split
  · exact .refl _
  · split
    · exact .refl _
    · exact .before (.failWhen subset.hasFlag_imp _)

theorem evalChecksig_extends :
    Extends (evalChecksig env fewer sig pubkey scriptCode execData)
      (evalChecksig env more sig pubkey scriptCode execData) := by
  unfold evalChecksig
  split
  · exact .before (evalChecksigPreTapscript_extends subset env)
  · exact .before (evalChecksigPreTapscript_extends subset env)
  · exact evalChecksigTapscript_extends subset env
  · exact .refl _

theorem execCheckSig_extends {verify : Bool} :
    Extends (execCheckSig env fewer verify state) (execCheckSig env more verify state) := by
  apply after
  intro _
  apply after
  intro keyPopped
  apply after
  intro sigPopped
  apply after
  intro scriptCode
  exact .before (evalChecksig_extends subset env)

/-! ## Numbers -/

private theorem minimaldata_imp :
    hasFlag fewer verifyMinimaldata = true → hasFlag more verifyMinimaldata = true :=
  subset.hasFlag_imp

theorem fromBytesDefault_extends {data : Bytes} :
    Extends (fromBytesDefault build data (hasFlag fewer verifyMinimaldata))
      (fromBytesDefault build data (hasFlag more verifyMinimaldata)) :=
  fromBytes_extends build data (minimaldata_imp subset)

theorem execPick_extends {roll : Bool} :
    Extends (execPick build (hasFlag fewer verifyMinimaldata) roll stack)
      (execPick build (hasFlag more verifyMinimaldata) roll stack) := by
  apply after
  intro _
  apply after
  intro top
  exact .before (fromBytesDefault_extends subset)

theorem execUnary_extends {op : UnaryOp} :
    Extends (execUnary build (hasFlag fewer verifyMinimaldata) op stack)
      (execUnary build (hasFlag more verifyMinimaldata) op stack) := by
  apply after
  intro _
  apply after
  intro top
  exact .before (fromBytesDefault_extends subset)

theorem execBinary_extends {op : BinaryOp} :
    Extends (execBinary build (hasFlag fewer verifyMinimaldata) op stack)
      (execBinary build (hasFlag more verifyMinimaldata) op stack) := by
  apply after
  intro _
  apply after
  intro item2
  apply Extends.bind (fromBytesDefault_extends subset)
  intro bn2
  apply after
  intro item1
  exact .before (fromBytesDefault_extends subset)

theorem execWithin_extends :
    Extends (execWithin build (hasFlag fewer verifyMinimaldata) stack)
      (execWithin build (hasFlag more verifyMinimaldata) stack) := by
  apply after
  intro _
  apply after
  intro item3
  apply Extends.bind (fromBytesDefault_extends subset)
  intro bn3
  apply after
  intro item2
  apply Extends.bind (fromBytesDefault_extends subset)
  intro bn2
  apply after
  intro item1
  exact .before (fromBytesDefault_extends subset)

theorem execCheckSigAdd_extends :
    Extends (execCheckSigAdd env fewer state) (execCheckSigAdd env more state) := by
  apply after
  intro _
  apply after
  intro _
  apply after
  intro keyPopped
  apply after
  intro numItem
  apply Extends.bind (fromBytesDefault_extends subset)
  intro num
  apply after
  intro sigPopped
  apply after
  intro scriptCode
  exact .before (evalChecksig_extends subset env)

/-! ## Lock times and conditionals -/

private theorem readLockTime_extends :
    Extends (readLockTime build (hasFlag fewer verifyMinimaldata) stack)
      (readLockTime build (hasFlag more verifyMinimaldata) stack) := by
  apply after
  intro _
  apply after
  intro top
  exact .before (fromBytes_extends build top (minimaldata_imp subset))

/-- Without its flag a lock-time opcode does nothing, so it accepts every stack. -/
theorem checkLockTimeVerify_extends :
    Extends (checkLockTimeVerify env fewer stack) (checkLockTimeVerify env more stack) := by
  apply Extends.onlyIf subset.hasFlag_imp
  exact .before (readLockTime_extends subset)

theorem checkSequenceVerify_extends :
    Extends (checkSequenceVerify env fewer stack) (checkSequenceVerify env more stack) := by
  apply Extends.onlyIf subset.hasFlag_imp
  exact .before (readLockTime_extends subset)

private theorem minimalIfAsked_imp (asked : minimalIfAsked fewer sigVersion = true) :
    minimalIfAsked more sigVersion = true := by
  unfold minimalIfAsked at asked ⊢
  rw [or_eq_true] at asked ⊢
  cases asked with
  | inl witness => exact .inl (and_hasFlag_imp subset witness)
  | inr base => exact .inr (and_hasFlag_imp subset base)

theorem execIf_extends {negated : Bool} :
    Extends (execIf env fewer negated fExec state) (execIf env more negated fExec state) := by
  have taken : Extends (takeCondition env fewer negated state.stack)
      (takeCondition env more negated state.stack) := by
    apply after
    intro _
    apply after
    intro vch
    apply after
    intro _
    exact .before (.onlyIf (minimalIfAsked_imp subset) (.refl _))
  cases fExec with
  | false => exact .refl _
  | true =>
    exact .before taken

/-! ## Multiple signatures -/

theorem deleteSignatures_extends (stack : Stack) (isig : Nat) (indices : List Nat) (code : Bytes) :
    Extends (deleteSignatures env fewer stack isig indices code)
      (deleteSignatures env more stack isig indices code) := by
  induction indices generalizing code with
  | nil => exact .refl _
  | cons k rest ih =>
    apply after
    intro above
    apply after
    intro position
    apply after
    intro sigData
    apply Extends.bind (deleteSignature_extends subset code sigData)
    intro newCode
    exact ih newCode

theorem multisigPass_extends {stack : Stack} {scriptCode : Bytes} (state : MultisigState) :
    Extends (multisigPass env fewer stack scriptCode state)
      (multisigPass env more stack scriptCode state) := by
  unfold multisigPass
  split
  · apply after
    intro vchSig
    apply after
    intro vchPubkey
    apply Extends.bind (checkSignatureEncoding_extends env.build env.crypto subset)
    intro _
    exact .before (checkPubkeyEncoding_extends subset)
  · exact .refl _

theorem popMultisigArguments_extends (fSuccess : Bool) (i ikey2 : Nat) (stack : Stack) :
    Extends (popMultisigArguments env fewer fSuccess i ikey2 stack)
      (popMultisigArguments env more fSuccess i ikey2 stack) := by
  induction i generalizing ikey2 stack with
  | zero => exact .refl _
  | succ i ih =>
    cases i with
    | zero => exact .refl _
    | succ i =>
      apply Extends.bind
      · apply Extends.onlyIf _ (.refl _)
        intro fires
        simp only [and_eq_true] at fires ⊢
        exact ⟨⟨fires.1.1, subset.hasFlag_imp fires.1.2⟩, fires.2⟩
      · intro _
        exact ih (ikey2 - 1) stack.dropLast

private theorem readMultisigCounts_extends {build : Build} {stack : Stack} {nOpCount : Nat} :
    Extends (readMultisigCounts build (hasFlag fewer verifyMinimaldata) stack nOpCount)
      (readMultisigCounts build (hasFlag more verifyMinimaldata) stack nOpCount) := by
  apply after
  intro _
  apply after
  intro keysItem
  apply Extends.bind (fromBytesDefault_extends subset)
  intro keysNumber
  apply after
  intro _
  apply after
  intro _
  apply after
  intro _
  apply after
  intro sigsItem
  exact .before (fromBytesDefault_extends subset)

theorem execCheckMultiSig_extends {verify : Bool} {state : EvalState} :
    Extends (execCheckMultiSig env fewer verify state)
      (execCheckMultiSig env more verify state) := by
  apply after
  intro _
  apply Extends.bind (readMultisigCounts_extends subset)
  intro counts
  apply after
  intro wholeCode
  apply Extends.bind
  · split
    · exact deleteSignatures_extends subset env state.stack _ _ wholeCode
    · exact .refl _
  intro scriptCode
  apply Extends.bind (.loop (multisigPass_extends subset env) _ _)
  intro fSuccess
  apply Extends.bind (popMultisigArguments_extends subset env fSuccess _ _ state.stack)
  intro popped
  apply Extends.bind
  · unfold popDummy
    apply after
    intro _
    exact .before (.onlyIf subset.hasFlag_imp (.refl _))
  intro stack
  exact .refl _

/-! ## Whole scripts -/

theorem execPush_extends {instruction : Instruction} :
    Extends (execPush fewer instruction state) (execPush more instruction state) := by
  exact .before (.onlyIf subset.hasFlag_imp (.refl _))

/-- Every arm of the dispatch accepts at least as much with fewer flags. -/
theorem execOp_extends {opcode : UInt8} :
    Extends (execOp env fewer fExec opcode state) (execOp env more fExec opcode state) := by
  have onStack : ∀ {lenient strict : Exec Stack}, Extends lenient strict →
      Extends (state.withStack lenient) (state.withStack strict) := by
    intro lenient strict related
    exact .bind related (fun stack => .refl _)
  unfold execOp
  cases Op.ofByte opcode with
  | checkLockTimeVerify =>
    exact .bind (checkLockTimeVerify_extends subset env) (fun _ => .refl _)
  | checkSequenceVerify =>
    exact .bind (checkSequenceVerify_extends subset env) (fun _ => .refl _)
  | upgradableNop => exact .bind (.failWhen subset.hasFlag_imp _) (fun _ => .refl _)
  | ifOp negated => exact execIf_extends subset env
  | pick roll => exact onStack (execPick_extends subset)
  | unary op => exact onStack (execUnary_extends subset)
  | binary op => exact onStack (execBinary_extends subset)
  | within => exact onStack (execWithin_extends subset)
  | checkSig verify => exact execCheckSig_extends subset env
  | checkSigAdd => exact execCheckSigAdd_extends subset env
  | checkMultiSig verify => exact execCheckMultiSig_extends subset env
  | _ => exact .refl _

theorem evalStep_extends (state : EvalState) :
    Extends (evalStep env fewer state) (evalStep env more state) := by
  unfold evalStep
  split
  · apply after
    intro read
    apply after
    intro instruction
    apply Extends.bind
    · unfold admitInstruction
      apply after
      intro _
      apply after
      intro _
      apply after
      intro _
      exact .before (.failWhen (and_hasFlag_imp subset) _)
    intro nOpCount
    apply Extends.bind
    · unfold execInstruction
      split
      · exact execPush_extends subset
      · split
        · exact execOp_extends subset env
        · exact .refl _
    intro after
    exact .refl _
  · exact .refl _

/-- A script evaluates to the same stack with fewer flags. -/
theorem evalScript_extends {stack : Stack} {execData : ExecData} :
    Extends (evalScript env fewer stack execData) (evalScript env more stack execData) := by
  apply after
  intro _
  apply after
  intro _
  exact .before (.loop (evalStep_extends subset env) _ _)

/-! ## Witness programs -/

variable (host : Host)

theorem runWitnessScript_extends :
    Extends (runWitnessScript host fewer stack script sigVersion execData)
      (runWitnessScript host more stack script sigVersion execData) := by
  apply after
  intro _
  exact .before (evalScript_extends subset _)

theorem executeWitnessScript_extends :
    Extends (executeWitnessScript host fewer stack script sigVersion execData)
      (executeWitnessScript host more stack script sigVersion execData) := by
  unfold executeWitnessScript
  split
  · unfold scanForOpSuccess
    rw [bind_assoc, bind_assoc]
    apply after
    intro found
    cases found with
    | true => exact .failWhen subset.hasFlag_imp _
    | false =>
      simp only [false_eq_true, if_false, ok_bind]
      apply after
      intro _
      exact runWitnessScript_extends subset host
  · exact runWitnessScript_extends subset host

theorem verifyTaprootSpend_extends {witness : Stack} :
    Extends (verifyTaprootSpend host fewer witness program)
      (verifyTaprootSpend host more witness program) := by
  apply after
  intro _
  apply after
  rintro ⟨stack, execData⟩
  dsimp only
  split
  · exact .refl _
  · unfold verifyTaprootScriptPath
    apply after
    intro controlPopped
    apply after
    intro scriptPopped
    apply after
    intro _
    apply after
    intro path
    apply after
    intro _
    apply after
    intro first
    apply after
    intro committed
    apply after
    intro _
    split
    · apply after
      intro weight
      exact executeWitnessScript_extends subset host
    · exact .failWhen subset.hasFlag_imp _

/-- A program left to future rules may be discouraged; without the taproot flag
a taproot output is one of those. -/
theorem verifyWitnessProgram_extends {witness : Stack} {version : Nat} :
    Extends (verifyWitnessProgram host fewer witness version program isP2sh)
      (verifyWitnessProgram host more witness version program isP2sh) := by
  unfold verifyWitnessProgram
  split
  · split
    · unfold verifyScriptHash
      apply after
      intro _
      apply after
      intro last
      apply after
      intro scriptBytes
      apply after
      intro stack
      apply after
      intro _
      exact executeWitnessScript_extends subset host
    · split
      · unfold verifyKeyHash
        apply after
        intro _
        exact executeWitnessScript_extends subset host
      · exact .refl _
  · split
    · exact .onlyIf subset.hasFlag_imp (verifyTaprootSpend_extends subset host)
    · split
      · exact .refl _
      · exact .failWhen subset.hasFlag_imp _

/-! ## The stages of a verification -/

variable (witness : Stack)

/-- With the witness flag in both words the same program is run. -/
theorem runNamedProgram_extends (asked : hasFlag fewer verifyWitness = true) {spent : Exec Unit} :
    Extends (runNamedProgram host fewer witness script stack spent isP2sh)
      (runNamedProgram host more witness script stack spent isP2sh) := by
  unfold runNamedProgram
  simp only [asked, subset.hasFlag_imp asked, if_true]
  apply after
  intro named
  cases named with
  | none => exact .refl _
  | some program =>
    apply after
    intro _
    exact .before (verifyWitnessProgram_extends subset host)

omit subset in
/-- Without the witness flag no program is run. -/
theorem runNamedProgram_of_not_asked (notAsked : hasFlag flags verifyWitness = false)
    (script : Bytes) (stack : Stack) (spent : Exec Unit) (isP2sh : Bool) :
    runNamedProgram host flags witness script stack spent isP2sh = .ok (stack, false) := by
  simp [runNamedProgram, notAsked]

variable (scriptSig scriptPubkey : Bytes)

theorem verifyRedeemScript_extends (asked : hasFlag fewer verifyWitness = true) :
    Extends (verifyRedeemScript host fewer scriptSig witness stackCopy execData)
      (verifyRedeemScript host more scriptSig witness stackCopy execData) := by
  apply after
  intro pushOnly
  apply after
  intro _
  apply after
  intro stack
  apply after
  intro _
  apply after
  intro popped
  apply Extends.bind (evalScript_extends subset _)
  intro evaluated
  apply after
  intro _
  exact runNamedProgram_extends subset host witness asked

/-- Without the witness flag the redeem script is still run as under more flags,
and the stack it leaves is returned as it is. -/
theorem verifyRedeemScript_returns (notAsked : hasFlag fewer verifyWitness = false)
    {strictResult : Stack × Bool}
    (accepted : verifyRedeemScript host more scriptSig witness stackCopy execData =
      .ok strictResult) :
    ∃ result, verifyRedeemScript host fewer scriptSig witness stackCopy execData = .ok result := by
  unfold verifyRedeemScript at accepted ⊢
  obtain ⟨pushOnly, pushOnlyRead, accepted⟩ := bind_eq_ok.mp accepted
  obtain ⟨_, pushOnlyHolds, accepted⟩ := bind_eq_ok.mp accepted
  obtain ⟨stack, copied, accepted⟩ := bind_eq_ok.mp accepted
  obtain ⟨_, nonempty, accepted⟩ := bind_eq_ok.mp accepted
  obtain ⟨popped, redeemPopped, accepted⟩ := bind_eq_ok.mp accepted
  obtain ⟨evaluated, strictEvaluated, accepted⟩ := bind_eq_ok.mp accepted
  obtain ⟨_, leftTrue, _⟩ := bind_eq_ok.mp accepted
  have lenientEvaluated := evalScript_extends subset _ _ strictEvaluated
  refine ⟨(evaluated.1, false), ?_⟩
  simp only [pushOnlyRead, pushOnlyHolds, copied, nonempty, redeemPopped, lenientEvaluated,
    leftTrue, ok_bind, runNamedProgram_of_not_asked host witness notAsked]

/-- With the witness flag, both runs take the same stages: the flag requires the
P2SH flag. -/
private theorem verifyPrograms_extends_of_asked (asked : hasFlag fewer verifyWitness = true)
    (p2sh : hasFlag fewer verifyP2sh = true) :
    Extends
      (verifyPrograms host fewer scriptSig scriptPubkey witness stackCopy stack execData)
      (verifyPrograms host more scriptSig scriptPubkey witness stackCopy stack execData) := by
  have asked' := subset.hasFlag_imp asked
  have p2sh' := subset.hasFlag_imp p2sh
  unfold verifyPrograms
  simp only [p2sh, p2sh', if_true]
  apply Extends.bind (runNamedProgram_extends subset host witness asked)
  rintro ⟨bareStack, bareWitness⟩
  apply after
  intro toScriptHash
  apply Extends.bind
  · split
    · exact verifyRedeemScript_extends subset host witness scriptSig asked
    · exact .refl _
  rintro ⟨nestedStack, nestedWitness⟩
  apply Extends.bind
  · unfold checkCleanStack
    apply Extends.failWhen
    intro fires
    rw [and_eq_true] at fires ⊢
    exact ⟨subset.hasFlag_imp fires.1, fires.2⟩
  intro _
  rw [asked, asked']
  exact .refl _

omit subset in
/-- Without the witness and P2SH flags nothing follows the output's script. -/
private theorem verifyPrograms_bare (notAsked : hasFlag fewer verifyWitness = false)
    (unclean : hasFlag fewer verifyCleanstack = false) (noP2sh : hasFlag fewer verifyP2sh = false) :
    verifyPrograms host fewer scriptSig scriptPubkey witness stackCopy stack execData = .ok () := by
  unfold verifyPrograms
  simp [runNamedProgram_of_not_asked host witness notAsked, noP2sh, checkCleanStack, unclean,
    notAsked]

/-- Without the witness flag only a redeem script can follow the output's
script, and what it leaves is not looked at. -/
private theorem verifyPrograms_extends_of_p2sh (notAsked : hasFlag fewer verifyWitness = false)
    (unclean : hasFlag fewer verifyCleanstack = false) (p2sh : hasFlag fewer verifyP2sh = true) :
    Extends
      (verifyPrograms host fewer scriptSig scriptPubkey witness stackCopy stack execData)
      (verifyPrograms host more scriptSig scriptPubkey witness stackCopy stack execData) := by
  intro result accepted
  unfold verifyPrograms at accepted ⊢
  simp only [subset.hasFlag_imp p2sh, if_true] at accepted
  simp only [runNamedProgram_of_not_asked host witness notAsked, p2sh, if_true, ok_bind,
    checkCleanStack, unclean, notAsked, Bool.false_and, Outcome.failWhen_false]
  obtain ⟨bare, _, accepted⟩ := bind_eq_ok.mp accepted
  obtain ⟨toScriptHash, hashRead, accepted⟩ := bind_eq_ok.mp accepted
  obtain ⟨nested, nestedRun, _⟩ := bind_eq_ok.mp accepted
  rw [hashRead]
  cases toScriptHash with
  | false => rfl
  | true =>
    obtain ⟨lenientResult, lenientRun⟩ := verifyRedeemScript_returns subset host witness scriptSig
      notAsked nestedRun
    simp [lenientRun]

omit subset in
/-- The copy of the stack is read only under the P2SH flag. -/
private theorem verifyPrograms_stackCopy (p2sh : hasFlag flags verifyP2sh = true) (stack : Stack) :
    (if hasFlag flags verifyP2sh then some stack else none) = some stack := by
  simp [p2sh]

end TwoRuns

/-- Soft-fork monotonicity: a spend that verifies under a flag word verifies under
every subset of it that meets the preconditions on flags. The larger word need
not meet them. -/
theorem verifyScript_mono (host : Host) (fewer more : UInt32) (subset : FlagSubset fewer more)
    (preconditions : FlagPreconditions fewer) (scriptSig scriptPubkey : Bytes) (witness : Stack)
    (accepted : verifyScript host more scriptSig scriptPubkey witness = .ok ()) :
    verifyScript host fewer scriptSig scriptPubkey witness = .ok () := by
  obtain ⟨cleanImplies, witnessImplies⟩ := preconditions
  suffices related : Extends (verifyScript host fewer scriptSig scriptPubkey witness)
      (verifyScript host more scriptSig scriptPubkey witness) from related () accepted
  apply Extends.bind (.onlyIf subset.hasFlag_imp (.refl _))
  intro _
  apply Extends.bind (evalScript_extends subset _)
  rintro ⟨sigStack, sigData⟩
  apply Extends.bind (evalScript_extends subset _)
  rintro ⟨stack, execData⟩
  apply after
  intro _
  cases asked : hasFlag fewer verifyWitness with
  | true =>
    have p2sh := witnessImplies asked
    rw [verifyPrograms_stackCopy p2sh, verifyPrograms_stackCopy (subset.hasFlag_imp p2sh)]
    exact verifyPrograms_extends_of_asked subset host witness scriptSig scriptPubkey asked p2sh
  | false =>
    have unclean : hasFlag fewer verifyCleanstack = false := by
      cases clean : hasFlag fewer verifyCleanstack with
      | false => rfl
      | true => simp [(cleanImplies clean).2] at asked
    cases p2sh : hasFlag fewer verifyP2sh with
    | true =>
      rw [if_pos rfl, verifyPrograms_stackCopy (subset.hasFlag_imp p2sh)]
      exact verifyPrograms_extends_of_p2sh subset host witness scriptSig scriptPubkey asked unclean
        p2sh
    | false =>
      intro result _
      exact verifyPrograms_bare host witness scriptSig scriptPubkey asked unclean p2sh

/-- Spending a P2SH output with the clean-stack and witness rules, and without
them. -/
theorem verifyScript_mono_p2sh :
    verifyScript ⟨⟨false⟩, trueScriptCrypto, noopChecker⟩ (verifyP2sh ||| verifyDersig)
      [0x01, 0x51] trueScriptHashOutput [] = .ok () := by
  apply verifyScript_mono _ _ (verifyP2sh ||| verifyDersig ||| verifyWitness ||| verifyCleanstack)
  · intro bit set
    have both : ∀ position : Fin 32,
        (verifyP2sh ||| verifyDersig).toBitVec.getLsbD position = true →
          (verifyP2sh ||| verifyDersig ||| verifyWitness ||| verifyCleanstack).toBitVec.getLsbD
            position = true := by
      decide
    have inside : bit < 32 := BitVec.lt_of_getLsbD set
    exact both ⟨bit, inside⟩ set
  · decide
  · decide

end Satd.Consensus
