import Satd.Consensus.OpcodeSafety
import Satd.Lib.Matching

/-!
# Multiple-signature checks

`OP_CHECKMULTISIG` finds its operands from the top of the stack down: the number of
keys, the keys, the number of signatures, the signatures, and one element more that it
only removes. It goes through the keys once and takes the next signature whenever the
current one fits.

`execCheckMultiSig_matches` says what this decides: the signatures can be assigned, in
order, to keys they fit. It also says what the instruction leaves on the stack, and
that the check for an empty stack after the operands were removed never fires.
-/

namespace Satd.Consensus

open Rust List Outcome
open Rust.Outcome (bind_eq_ok ok_bind)

/-- The operands in the order a script pushes them. -/
structure MultisigOperands where
  dummy : Bytes
  sigs : List Bytes
  sigCount : Bytes
  keys : List Bytes
  keyCount : Bytes

variable (operands : MultisigOperands)

namespace MultisigOperands

/-- All but the element that is only removed. -/
def arguments : Stack :=
  operands.sigs ++ operands.sigCount :: (operands.keys ++ [operands.keyCount])

/-- All the instruction consumes. -/
def items : Stack := operands.dummy :: operands.arguments

theorem length_arguments :
    operands.arguments.length = operands.sigs.length + operands.keys.length + 2 := by
  simp [arguments]
  omega

theorem reverse_arguments :
    operands.arguments.reverse = operands.keyCount :: (operands.keys.reverse ++
      operands.sigCount :: operands.sigs.reverse) := by
  simp [arguments]

end MultisigOperands

variable (env : Env) (flags : UInt32)

/-- A stack element is read as a count. -/
def CountItem (item : Bytes) (count : Nat) : Prop :=
  ∃ number, fromBytesDefault env.build item (hasFlag flags verifyMinimaldata) = .ok number ∧
    getint number = count

/-- The two counts announce the keys and the signatures, within their limits. -/
structure Announced (env : Env) (flags : UInt32) (operands : MultisigOperands) : Prop where
  keyCount : CountItem env flags operands.keyCount operands.keys.length
  sigCount : CountItem env flags operands.sigCount operands.sigs.length
  few : operands.keys.length ≤ maxPubkeysPerMultisig
  fewer : operands.sigs.length ≤ operands.keys.length

/-- The script code the signatures are checked against. -/
def multisigCode (operands : MultisigOperands) (state : EvalState) : Exec Bytes := do
  let scriptCode ← slice env.script state.pbegincodehash env.script.length
  if env.sigVersion == .base then
    deleteSignatures env flags state.stack (3 + operands.keys.length)
      (List.range operands.sigs.length) scriptCode
  else .ok scriptCode

/-- What the instruction returns once it is known whether the signatures match: the flags
may refuse a failed check with a signature, and a last element that is not empty. -/
def multisigResult (verify : Bool) (operands : MultisigOperands) (base : Stack) (matched : Bool)
    (state : EvalState) : Exec EvalState :=
  if maxOpsPerScript < state.nOpCount + operands.keys.length then .err .opCount
  else if !matched && hasFlag flags verifyNullfail && operands.sigs.any (fun sig => !sig.isEmpty)
    then .err .sigNullFail
  else if hasFlag flags verifyNulldummy && !operands.dummy.isEmpty then .err .sigNullDummy
  else if verify && !matched then .err .checkMultiSigVerify
  else .ok { state with
    nOpCount := state.nOpCount + operands.keys.length
    stack := base ++ if verify then [] else [boolItem matched] }

/-! ## Reading from the top -/

variable {stack : Stack}

/-- An element found by its depth is that of the stack read from the top. -/
theorem fromTop_eq {build : Build} {depth : Nat} {item : Bytes}
    (found : stack.reverse[depth]? = some item) : fromTop build stack (depth + 1) = .ok item := by
  have inside : depth < stack.length := by
    simpa using (List.getElem?_eq_some_iff.mp found).1
  rw [getElem?_reverse inside] at found
  simp only [fromTop, Build.sub_of_le (show depth + 1 ≤ stack.length by omega),
    ok_bind, index_eq_ok_iff]
  rw [← found]
  congr 1
  omega

section Layout

variable {env : Env} {flags : UInt32} {operands : MultisigOperands} {base : Stack}

theorem reverse_stack (base : Stack) (operands : MultisigOperands) :
    (base ++ operands.items).reverse = operands.keyCount :: (operands.keys.reverse ++
      operands.sigCount :: (operands.sigs.reverse ++ operands.dummy :: base.reverse)) := by
  simp [MultisigOperands.items, MultisigOperands.reverse_arguments]

theorem fromTop_keyCount (build : Build) :
    fromTop build (base ++ operands.items) 1 = .ok operands.keyCount :=
  fromTop_eq (by rw [reverse_stack]; rfl)

theorem fromTop_sigCount (build : Build) :
    fromTop build (base ++ operands.items) (2 + operands.keys.length) = .ok operands.sigCount := by
  rw [show 2 + operands.keys.length = (operands.keys.length + 1) + 1 by omega]
  apply fromTop_eq
  rw [reverse_stack]
  simp

variable {build : Build} {index : Nat}

theorem fromTop_key {key : Bytes} (found : operands.keys.reverse[index]? = some key) :
    fromTop build (base ++ operands.items) (2 + index) = .ok key := by
  rw [show 2 + index = (index + 1) + 1 by omega]
  apply fromTop_eq
  rw [reverse_stack, getElem?_cons_succ, getElem?_append_left]
  · exact found
  · exact (List.getElem?_eq_some_iff.mp found).1

theorem fromTop_sig {sig : Bytes} (found : operands.sigs.reverse[index]? = some sig) :
    fromTop build (base ++ operands.items) (3 + operands.keys.length + index) = .ok sig := by
  rw [show 3 + operands.keys.length + index =
    (operands.keys.reverse.length + (index + 1)) + 1 + 1 by simp; omega]
  apply fromTop_eq
  rw [reverse_stack, getElem?_cons_succ, getElem?_append_right (by omega),
    Nat.add_sub_cancel_left, getElem?_cons_succ, getElem?_append_left]
  · exact found
  · exact (List.getElem?_eq_some_iff.mp found).1

/-- The counts are read as they were announced. -/
theorem readMultisigCounts_eq (announced : Announced env flags operands) (nOpCount : Nat) :
    readMultisigCounts env.build (hasFlag flags verifyMinimaldata) (base ++ operands.items)
      nOpCount =
      if maxOpsPerScript < nOpCount + operands.keys.length then .err .opCount
      else .ok ⟨operands.keys.length, operands.sigs.length, nOpCount + operands.keys.length⟩ := by
  obtain ⟨keyNumber, keyRead, keyInt⟩ := announced.keyCount
  obtain ⟨sigNumber, sigRead, sigInt⟩ := announced.sigCount
  have few := announced.few
  have fewer := announced.fewer
  have length : (base ++ operands.items).length =
      base.length + (operands.sigs.length + operands.keys.length + 3) := by
    simp [MultisigOperands.items, MultisigOperands.length_arguments]
  have holds : ∀ count, count ≤ operands.sigs.length + operands.keys.length + 3 →
      requireItems (base ++ operands.items) count = .ok () := by
    intro count bound
    rw [requireItems, length]
    simp only [failWhen_eq_ok, decide_eq_false_iff_not]
    omega
  simp only [readMultisigCounts, holds 1 (by omega), fromTop_keyCount, keyRead, keyInt,
    ok_bind, Int.toNat_natCast]
  have keysPass : (decide ((operands.keys.length : Int) < 0) ||
      decide (operands.keys.length > maxPubkeysPerMultisig)) = false := by
    simp only [Bool.or_eq_false_iff, decide_eq_false_iff_not]
    omega
  have sigsPass : (decide ((operands.sigs.length : Int) < 0) ||
      decide ((operands.sigs.length : Int) > operands.keys.length)) = false := by
    simp only [Bool.or_eq_false_iff, decide_eq_false_iff_not]
    omega
  rw [keysPass, failWhen_false, ok_bind]
  by_cases exceeded : maxOpsPerScript < nOpCount + operands.keys.length
  · rw [if_pos exceeded, decide_eq_true exceeded]
    rfl
  · rw [if_neg exceeded, decide_eq_false exceeded, failWhen_false, ok_bind,
      holds _ (by omega), ok_bind, fromTop_sigCount, ok_bind, sigRead,
      ok_bind]
    simp only [sigInt]
    rw [sigsPass, failWhen_false, ok_bind, Int.toNat_natCast, holds _ (by omega)]
    rfl

end Layout

/-! ## The scan -/

/-- The loop over the keys is the greedy scan of both lists, read from the top. -/
theorem loop_multisigPass {env : Env} {flags : UInt32} (scriptCode : Bytes) {keys sigs : List Bytes}
    {isig ikey : Nat} (spare : Nat)
    (sigAt : ∀ index sig, sigs[index]? = some sig →
      fromTop env.build stack (isig + index) = .ok sig)
    (keyAt : ∀ index key, keys[index]? = some key →
      fromTop env.build stack (ikey + index) = .ok key)
    (sigPass : ∀ sig ∈ sigs, checkSignatureEncoding env.build env.crypto sig flags = .ok ())
    (keyPass : ∀ key ∈ keys, checkPubkeyEncoding key flags env.sigVersion = .ok ())
    (fewKeys : keys.length ≤ 20) (fewSigs : sigs.length ≤ 20) :
    loop (multisigPass env flags stack scriptCode) (keys.length + 1 + spare)
      ⟨isig, ikey, sigs.length, keys.length, decide (sigs.length ≤ keys.length)⟩ =
      .ok (Matching.greedy (fun sig key =>
        env.checker.checkEcdsaSignature sig key scriptCode env.sigVersion) sigs keys) := by
  have countDown : ∀ count : Nat, count + 1 ≤ 20 →
      (env.build.signed 32 (((count + 1 : Nat) : Int) - 1) : Exec Int) = .ok count := by
    intro count bound
    rw [Build.signed_of_fits (Or.inl (by omega))]
    simp
  induction keys generalizing sigs isig ikey with
  | nil =>
    cases sigs with
    | nil => simp [loop, multisigPass, show 0 + 1 + spare = spare + 1 by omega]
    | cons sig sigs =>
      simp [loop, multisigPass, Matching.greedy, show 0 + 1 + spare = spare + 1 by omega]
  | cons key keys ih =>
    rw [length_cons, show keys.length + 1 + 1 + spare = (keys.length + 1 + spare) + 1 by omega,
      loop]
    cases sigs with
    | nil => simp [multisigPass]
    | cons sig sigs =>
      by_cases enough : (sig :: sigs).length ≤ keys.length + 1
      · have going : (decide ((sig :: sigs).length ≤ keys.length + 1) = true ∧
            ((sig :: sigs).length : Int) > 0) := ⟨decide_eq_true enough, by simp⟩
        have sigHere : fromTop env.build stack isig = .ok sig := sigAt 0 sig rfl
        have keyHere : fromTop env.build stack ikey = .ok key := keyAt 0 key rfl
        have keysLater : ∀ index other, keys[index]? = some other →
            fromTop env.build stack (ikey + 1 + index) = .ok other := by
          intro index other found
          rw [show ikey + 1 + index = ikey + (index + 1) by omega]
          exact keyAt (index + 1) other (by simpa using found)
        have keysPass := fun other member => keyPass other (mem_cons_of_mem key member)
        rw [Matching.greedy]
        simp only [multisigPass, if_pos going, sigHere, keyHere, ok_bind,
          sigPass sig mem_cons_self, keyPass key mem_cons_self]
        have sigsDown : (env.build.signed 32 (((sig :: sigs).length : Int) - 1) : Exec Int) =
            .ok sigs.length := countDown sigs.length (by simpa using fewSigs)
        rw [countDown keys.length (by simpa using fewKeys), sigsDown]
        by_cases fit : env.checker.checkEcdsaSignature sig key scriptCode env.sigVersion = true
        · have sigsLater : ∀ index other, sigs[index]? = some other →
              fromTop env.build stack (isig + 1 + index) = .ok other := by
            intro index other found
            rw [show isig + 1 + index = isig + (index + 1) by omega]
            exact sigAt (index + 1) other (by simpa using found)
          have rest := ih sigsLater keysLater
            (fun other member => sigPass other (mem_cons_of_mem sig member)) keysPass
            (by simp at fewKeys; omega) (by simp at fewSigs; omega)
          simpa [fit] using rest
        · have rest := ih sigAt keysLater sigPass keysPass (by simp at fewKeys; omega) fewSigs
          simpa [fit] using rest
      · -- More signatures than keys: the loop is left at once, and no matching exists.
        have unmatched : Matching.greedy (fun sig key =>
            env.checker.checkEcdsaSignature sig key scriptCode env.sigVersion) (sig :: sigs)
            (key :: keys) = false := by
          rw [Bool.eq_false_iff, ne_eq, Matching.greedy_iff]
          exact fun ordered => enough (Matching.length_le_of_inOrder ordered)
        simp only [multisigPass]
        rw [if_neg fun going => enough (of_decide_eq_true going.1), unmatched]
        simp only [decide_eq_false enough]

/-! ## Taking the operands off -/

/-- The arguments are removed, unless the flags refuse one that lies deeper than the
counter reaches. -/
theorem popMultisigArguments_eq (fSuccess : Bool) (rest : Stack) (arguments : Stack) (ikey2 : Nat) :
    popMultisigArguments env flags fSuccess (arguments.length + 1) ikey2 (rest ++ arguments) =
      if !fSuccess && hasFlag flags verifyNullfail &&
          (arguments.reverse.drop ikey2).any (fun item => !item.isEmpty)
        then .err .sigNullFail else .ok rest := by
  induction arguments using reverseRecOn generalizing ikey2 with
  | nil => simp [popMultisigArguments]
  | append_singleton arguments last ih =>
    have top : fromTop env.build (rest ++ (arguments ++ [last])) 1 = .ok last :=
      fromTop_eq (by simp)
    have popped : (rest ++ (arguments ++ [last])).dropLast = rest ++ arguments := by
      rw [← append_assoc, dropLast_concat]
    rw [length_append, length_singleton, popMultisigArguments, popped,
      ih, reverse_concat, top, ok_bind]
    cases ikey2 with
    | zero =>
      simp only [drop_zero, any_cons, Nat.zero_sub, beq_self_eq_true, Bool.and_true]
      cases refuses : !fSuccess && hasFlag flags verifyNullfail with
      | false => simp
      | true => cases last.isEmpty <;> simp
    | succ ikey2 => simp

theorem popDummy_eq (base : Stack) (dummy : Bytes) :
    popDummy flags (base ++ [dummy]) =
      if hasFlag flags verifyNulldummy && !dummy.isEmpty then .err .sigNullDummy else .ok base := by
  have held : requireItems (base ++ [dummy]) 1 = .ok () := by
    simp [requireItems]
  rw [popDummy, held, ok_bind, dropLast_concat]
  cases hasFlag flags verifyNulldummy with
  | false => simp
  | true => cases empty : dummy.isEmpty <;> simp [lastItem, unwrap, empty]

section Layout

variable {env : Env} {flags : UInt32} {operands : MultisigOperands} {base : Stack}

/-- Where the operands are, the check removes the arguments and looks at the signatures. -/
theorem popMultisigArguments_operands (fSuccess : Bool) :
    popMultisigArguments env flags fSuccess (3 + operands.keys.length + operands.sigs.length)
      (operands.keys.length + 2) (base ++ operands.items) =
      if !fSuccess && hasFlag flags verifyNullfail && operands.sigs.any (fun sig => !sig.isEmpty)
        then .err .sigNullFail else .ok (base ++ [operands.dummy]) := by
  have placed : base ++ operands.items = (base ++ [operands.dummy]) ++ operands.arguments := by
    simp [MultisigOperands.items]
  have signatures : operands.arguments.reverse.drop (operands.keys.length + 2) =
      operands.sigs.reverse := by
    rw [MultisigOperands.reverse_arguments, drop_succ_cons]
    rw [show operands.keys.length + 1 = operands.keys.reverse.length + 1 by simp, drop_append]
    simp
  rw [placed, show 3 + operands.keys.length + operands.sigs.length =
    operands.arguments.length + 1 by rw [MultisigOperands.length_arguments]; omega,
    popMultisigArguments_eq, signatures, any_reverse]

/-- Past the counts, the instruction is the scan and what the result leads to. -/
theorem execCheckMultiSig_eq {state : EvalState} (announced : Announced env flags operands)
    (older : env.sigVersion ≠ .tapscript) (laid : state.stack = base ++ operands.items)
    (verify : Bool) : execCheckMultiSig env flags verify state =
      if maxOpsPerScript < state.nOpCount + operands.keys.length then .err .opCount
      else multisigCode env flags operands state >>= fun scriptCode =>
        loop (multisigPass env flags state.stack scriptCode) (operands.keys.length + 2)
          ⟨3 + operands.keys.length, 2, operands.sigs.length, operands.keys.length, true⟩ >>=
        fun matched => multisigResult flags verify operands base matched state := by
  have notTapscript : (env.sigVersion == .tapscript) = false := by simpa using older
  rw [execCheckMultiSig, notTapscript, failWhen_false, ok_bind, laid,
    readMultisigCounts_eq announced]
  by_cases exceeded : maxOpsPerScript < state.nOpCount + operands.keys.length
  · rw [if_pos exceeded, if_pos exceeded]
    rfl
  · rw [if_neg exceeded, if_neg exceeded, ok_bind, multisigCode, laid, bind_assoc]
    dsimp only
    congr 1
    funext code
    congr 1
    funext scriptCode
    congr 1
    funext matched
    rw [popMultisigArguments_operands, multisigResult, if_neg exceeded]
    by_cases refused : (!matched && hasFlag flags verifyNullfail &&
        operands.sigs.any fun sig => !sig.isEmpty) = true
    · rw [if_pos refused, if_pos refused]
      rfl
    · rw [if_neg refused, if_neg refused, ok_bind, popDummy_eq]
      by_cases longDummy : (hasFlag flags verifyNulldummy && !operands.dummy.isEmpty) = true
      · rw [if_pos longDummy, if_pos longDummy]
        rfl
      · rw [if_neg longDummy, if_neg longDummy, ok_bind]
        cases verify <;> cases matched <;> simp

end Layout

/-! ## What any stack loses -/

section Consumed

variable {env : Env} {flags : UInt32} {stack popped : Stack} {fSuccess : Bool} {ikey2 : Nat}

/-- A removal that succeeds takes that many elements off the top. -/
theorem popMultisigArguments_ok {count : Nat} (held : count ≤ stack.length)
    (removed : popMultisigArguments env flags fSuccess (count + 1) ikey2 stack = .ok popped) :
    ∃ arguments, stack = popped ++ arguments ∧ arguments.length = count := by
  obtain ⟨rest, arguments, rfl, rfl⟩ : ∃ rest arguments : Stack,
      stack = rest ++ arguments ∧ arguments.length = count :=
    ⟨_, _, (take_append_drop (stack.length - count) stack).symm, by rw [length_drop]; omega⟩
  rw [popMultisigArguments_eq] at removed
  split at removed
  next => cases removed
  next =>
    cases removed
    exact ⟨arguments, rfl, rfl⟩

/-- What the checks of the counts have established. -/
theorem readMultisigCounts_ok {build : Build} {requireMinimal : Bool} {nOpCount : Nat}
    {counts : MultisigCounts}
    (read : readMultisigCounts build requireMinimal stack nOpCount = .ok counts) :
    3 + counts.nKeysCount + counts.nSigsCount ≤ stack.length ∧
      counts.nOpCount = nOpCount + counts.nKeysCount := by
  have announced := @readMultisigCounts_safe build requireMinimal stack nOpCount
  rw [read] at announced
  exact announced.2.2

/-- The counts were checked against the stack, with one element more than the arguments they
announce, so the removal of the arguments leaves an element. -/
theorem popMultisigArguments_leaves {requireMinimal : Bool} {nOpCount : Nat}
    {counts : MultisigCounts}
    (read : readMultisigCounts env.build requireMinimal stack nOpCount = .ok counts)
    (removed : popMultisigArguments env flags fSuccess
      (3 + counts.nKeysCount + counts.nSigsCount) ikey2 stack = .ok popped) :
    popped ≠ [] ∧ ∃ arguments, stack = popped ++ arguments ∧
      arguments.length = counts.nSigsCount + counts.nKeysCount + 2 := by
  obtain ⟨held, -⟩ := readMultisigCounts_ok read
  rw [show 3 + counts.nKeysCount + counts.nSigsCount =
    counts.nSigsCount + counts.nKeysCount + 2 + 1 by omega] at removed held
  obtain ⟨arguments, rfl, length⟩ := popMultisigArguments_ok (by omega) removed
  refine ⟨?_, arguments, rfl, length⟩
  rintro rfl
  rw [nil_append] at held
  omega

theorem popDummy_ok {rest : Stack} (filled : stack ≠ [])
    (removed : popDummy flags stack = .ok rest) : ∃ dummy, stack = rest ++ [dummy] := by
  obtain ⟨below, dummy, rfl⟩ := (eq_nil_or_concat stack).resolve_left filled
  rw [concat_eq_append, popDummy_eq] at removed
  split at removed
  next => cases removed
  next =>
    cases removed
    exact ⟨dummy, concat_eq_append⟩

/-- On any stack the instruction takes off as many elements as the counts it reads announce and
three more, and counts the keys as operations. -/
theorem execCheckMultiSig_consumes {state after : EvalState} {verify : Bool}
    (returned : execCheckMultiSig env flags verify state = .ok after) :
    ∃ counts base consumed matched, readMultisigCounts env.build
        (hasFlag flags verifyMinimaldata) state.stack state.nOpCount = .ok counts ∧
      state.stack = base ++ consumed ∧
      consumed.length = counts.nSigsCount + counts.nKeysCount + 3 ∧
      after.stack = base ++ (if verify then [] else [boolItem matched]) ∧
      after.nOpCount = state.nOpCount + counts.nKeysCount := by
  obtain ⟨_, -, returned⟩ := bind_eq_ok.mp returned
  obtain ⟨counts, read, returned⟩ := bind_eq_ok.mp returned
  obtain ⟨_, -, returned⟩ := bind_eq_ok.mp returned
  obtain ⟨_, -, returned⟩ := bind_eq_ok.mp returned
  obtain ⟨matched, -, returned⟩ := bind_eq_ok.mp returned
  obtain ⟨popped, removed, returned⟩ := bind_eq_ok.mp returned
  obtain ⟨base, dropped, returned⟩ := bind_eq_ok.mp returned
  obtain ⟨-, counted⟩ := readMultisigCounts_ok read
  obtain ⟨filled, arguments, stackEq, length⟩ := popMultisigArguments_leaves read removed
  obtain ⟨dummy, below⟩ := popDummy_ok filled dropped
  refine ⟨counts, base, dummy :: arguments, matched, read, by simp [stackEq, below],
    by simp [length], ?_⟩
  cases verify with
  | true =>
    simp only [if_true] at returned
    obtain ⟨_, -, returned⟩ := bind_eq_ok.mp returned
    cases returned
    simp [counted]
  | false =>
    simp only [Bool.false_eq_true, if_false] at returned
    cases returned
    simp [counted]

end Consumed

/-- The instruction decides whether the signatures can be assigned, in order, to keys they
fit: it returns what `multisigResult` says of the answer. On any stack, whenever it returns a
state, it has consumed what the counts announce and three elements more, and the keys are
counted as operations; and once the counts are read, the removal of the arguments always leaves
an element. The last two rest on the size check that follows the counts. -/
theorem execCheckMultiSig_matches {env : Env} {flags : UInt32} {operands : MultisigOperands}
    {base : Stack} {state : EvalState} (announced : Announced env flags operands)
    (older : env.sigVersion ≠ .tapscript) (laid : state.stack = base ++ operands.items)
    (verify : Bool) :
    (∀ scriptCode, multisigCode env flags operands state = .ok scriptCode →
      (∀ sig ∈ operands.sigs, checkSignatureEncoding env.build env.crypto sig flags = .ok ()) →
      (∀ key ∈ operands.keys, checkPubkeyEncoding key flags env.sigVersion = .ok ()) →
      ∃ matched : Bool, (matched = true ↔ Matching.InOrder (fun sig key =>
          env.checker.checkEcdsaSignature sig key scriptCode env.sigVersion)
          operands.sigs operands.keys) ∧
        execCheckMultiSig env flags verify state =
          multisigResult flags verify operands base matched state) ∧
    (∀ before after, execCheckMultiSig env flags verify before = .ok after →
      ∃ counts rest consumed matched, readMultisigCounts env.build
          (hasFlag flags verifyMinimaldata) before.stack before.nOpCount = .ok counts ∧
        before.stack = rest ++ consumed ∧
        consumed.length = counts.nSigsCount + counts.nKeysCount + 3 ∧
        after.stack = rest ++ (if verify then [] else [boolItem matched]) ∧
        after.nOpCount = before.nOpCount + counts.nKeysCount) ∧
    (∀ stack requireMinimal nOpCount counts fSuccess popped,
      readMultisigCounts env.build requireMinimal stack nOpCount = .ok counts →
      popMultisigArguments env flags fSuccess (3 + counts.nKeysCount + counts.nSigsCount)
        (counts.nKeysCount + 2) stack = .ok popped → popped ≠ []) := by
  refine ⟨fun scriptCode coded sigPass keyPass => ?_,
    fun _ _ returned => execCheckMultiSig_consumes returned,
    fun _ _ _ _ _ _ read removed => (popMultisigArguments_leaves read removed).1⟩
  have few := announced.few
  have fewer := announced.fewer
  have scanned := loop_multisigPass scriptCode 1
    (fun index sig found => laid ▸ fromTop_sig found)
    (fun index key found => laid ▸ fromTop_key found)
    (fun sig member => sigPass sig (mem_reverse.mp member))
    (fun key member => keyPass key (mem_reverse.mp member))
    (by simpa [maxPubkeysPerMultisig] using few)
    (by simpa [maxPubkeysPerMultisig] using fewer.trans few)
  simp only [length_reverse, decide_eq_true fewer] at scanned
  refine ⟨_, Matching.greedy_iff.trans Matching.inOrder_reverse, ?_⟩
  rw [execCheckMultiSig_eq announced older laid, coded, ok_bind, scanned, ok_bind]
  split
  next exceeded => rw [multisigResult, if_pos exceeded]
  next => rfl

/-- One signature and two keys, of which it fits the second. -/
def oneOfTwo : MultisigOperands := ⟨[], [[7]], [1], [[1], [2]], [2]⟩

def oneOfTwoEnv : Env where
  build := ⟨false⟩
  crypto := ⟨id, id, id, some, some, fun _ _ => none⟩
  checker := { noopChecker with checkEcdsaSignature := fun sig key _ _ => sig = [7] ∧ key = [2] }
  sigVersion := .base
  script := [0xae]

def oneOfTwoState : EvalState :=
  ⟨[[9]] ++ oneOfTwo.items, [], ConditionStack.new, 1, 1, 0, 0, ExecData.new⟩

/-- The check of one signature for two keys. -/
theorem execCheckMultiSig_matches_oneOfTwo :
    ∃ matched : Bool, (matched = true ↔ Matching.InOrder (fun sig key =>
        oneOfTwoEnv.checker.checkEcdsaSignature sig key [0xae] .base) [[7]] [[1], [2]]) ∧
      execCheckMultiSig oneOfTwoEnv verifyNone false oneOfTwoState =
        multisigResult verifyNone false oneOfTwo [[9]] matched oneOfTwoState := by
  have announced : Announced oneOfTwoEnv verifyNone oneOfTwo :=
    ⟨⟨2, by decide, by decide⟩, ⟨1, by decide, by decide⟩, by decide, by decide⟩
  refine (execCheckMultiSig_matches announced (by decide) rfl false).1 [0xae] ?_ ?_ ?_
  · decide
  · decide
  · decide

end Satd.Consensus
