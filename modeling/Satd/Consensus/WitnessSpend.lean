import Satd.Consensus.Verify

/-!
# What an accepted witness spend is bound by

The script of an input is not covered by the hashes its witness signs, so a
spend of a witness program must leave it no choice: it is empty, or the one push
of the program where the output names a script hash.
-/

namespace Satd.Consensus

open Rust
open Rust.Outcome (bind_eq_ok failWhen_eq_ok)

/-! ## The input's script -/

/-- The script is a witness program. -/
def NamesProgram (script : Bytes) : Prop := ∃ named, isWitnessProgram script = .ok (some named)

/-- The script an input hands to a script-hash output: what its own script leaves on top. -/
def IsRedeemScript (host : Host) (flags : UInt32) (scriptSig redeemScript : Bytes) : Prop :=
  ∃ stack execData, evalScript (host.env .base scriptSig) flags [] ExecData.new =
    .ok (stack ++ [redeemScript], execData)

section Malleability

variable {host : Host} {flags : UInt32} {witness : Stack}
  (asked : hasFlag flags verifyWitness = true)

include asked

variable {after stack : Stack}

/-- The witness is used exactly when the script names a program, and then the input's script
was checked. -/
theorem runNamedProgram_eq_ok {script : Bytes} {spent : Exec Unit} {isP2sh used : Bool}
    (ran : runNamedProgram host flags witness script stack spent isP2sh = .ok (after, used)) :
    (used = true ↔ NamesProgram script) ∧ (NamesProgram script → spent = .ok ()) := by
  rw [runNamedProgram, if_pos asked] at ran
  obtain ⟨named, isNamed, ran⟩ := bind_eq_ok.mp ran
  rw [NamesProgram, isNamed]
  cases named with
  | none =>
    cases ran
    simp
  | some program =>
    obtain ⟨_, checked, ran⟩ := bind_eq_ok.mp ran
    obtain ⟨_, -, ran⟩ := bind_eq_ok.mp ran
    cases ran
    simp [checked]

/-- An accepted script-hash spend whose script names a program is that push alone. -/
theorem verifyRedeemScript_eq_ok {scriptSig : Bytes} {execData : ExecData} {used : Bool}
    (ran : verifyRedeemScript host flags scriptSig witness (some stack) execData =
      .ok (after, used)) :
    ∃ redeemScript rest, stack = rest ++ [redeemScript] ∧
      (used = true ↔ NamesProgram redeemScript) ∧
      (NamesProgram redeemScript → scriptSig = buildSinglePush redeemScript) := by
  obtain ⟨_, -, ran⟩ := bind_eq_ok.mp ran
  obtain ⟨_, -, ran⟩ := bind_eq_ok.mp ran
  obtain ⟨_, ⟨⟩, ran⟩ := bind_eq_ok.mp ran
  obtain ⟨_, -, ran⟩ := bind_eq_ok.mp ran
  obtain ⟨⟨redeemScript, rest⟩, popped, ran⟩ := bind_eq_ok.mp ran
  obtain ⟨⟨evaluated, _⟩, -, ran⟩ := bind_eq_ok.mp ran
  obtain ⟨_, -, ran⟩ := bind_eq_ok.mp ran
  obtain ⟨isUsed, checked⟩ := runNamedProgram_eq_ok asked ran
  have nonempty : stack ≠ [] := by
    rintro rfl
    cases popped
  refine ⟨redeemScript, rest, (Outcome.Safe.popLast nonempty).of_eq_ok popped, isUsed, ?_⟩
  intro names
  simpa using checked names

/-- An accepted spend leaves the input's script no choice where a witness program is named, and
comes without a witness where none is. -/
theorem witness_spend_fixed (p2sh : hasFlag flags verifyP2sh = true)
    {scriptSig scriptPubkey : Bytes}
    (accepted : verifyScript host flags scriptSig scriptPubkey witness = .ok ()) :
    (NamesProgram scriptPubkey → scriptSig = []) ∧
    (∀ redeemScript, isP2sh scriptPubkey = .ok true →
      IsRedeemScript host flags scriptSig redeemScript → NamesProgram redeemScript →
        scriptSig = buildSinglePush redeemScript) ∧
    (¬NamesProgram scriptPubkey → (∀ redeemScript, isP2sh scriptPubkey = .ok true →
      IsRedeemScript host flags scriptSig redeemScript → ¬NamesProgram redeemScript) →
        witness = []) := by
  obtain ⟨_, -, accepted⟩ := bind_eq_ok.mp accepted
  obtain ⟨⟨stack, execData⟩, evaluated, accepted⟩ := bind_eq_ok.mp accepted
  obtain ⟨⟨left, leftData⟩, -, accepted⟩ := bind_eq_ok.mp accepted
  obtain ⟨_, -, accepted⟩ := bind_eq_ok.mp accepted
  obtain ⟨⟨_, bare⟩, ranBare, accepted⟩ := bind_eq_ok.mp accepted
  simp only [p2sh, if_true] at accepted
  obtain ⟨toScriptHash, isHash, accepted⟩ := bind_eq_ok.mp accepted
  obtain ⟨⟨_, nested⟩, ranNested, accepted⟩ := bind_eq_ok.mp accepted
  obtain ⟨_, -, accepted⟩ := bind_eq_ok.mp accepted
  have expected := failWhen_eq_ok.mp accepted
  obtain ⟨isBare, checkedBare⟩ := runNamedProgram_eq_ok asked ranBare
  refine ⟨fun names => by simpa using checkedBare names, ?_, ?_⟩
  · rintro redeemScript hashed ⟨_, _, redeems⟩ names
    obtain rfl : true = toScriptHash := by simpa [hashed] using isHash
    obtain ⟨found, _, shape, -, fixed⟩ := verifyRedeemScript_eq_ok asked ranNested
    obtain ⟨⟨-, rfl⟩, -⟩ : (_ ∧ found = redeemScript) ∧ _ := by
      simpa [evaluated, shape] using redeems
    exact fixed names
  · intro bareNot nestedNot
    have notNested : nested = false := by
      cases toScriptHash with
      | false =>
        cases ranNested
        rfl
      | true =>
        obtain ⟨found, rest, rfl, isNested, -⟩ := verifyRedeemScript_eq_ok asked ranNested
        exact Bool.eq_false_iff.mpr fun used =>
          nestedNot found isHash ⟨rest, execData, evaluated⟩ (isNested.mp used)
    have notBare : bare = false := Bool.eq_false_iff.mpr fun used => bareNot (isBare.mp used)
    simpa [asked, notBare, notNested] using expected

end Malleability

/-- A version 0 script-hash program behind a script hash. -/
theorem witness_spend_fixed_nested :
    0x22 :: 0x00 :: 0x20 :: trueScriptCrypto.sha256 [] =
      buildSinglePush (0x00 :: 0x20 :: trueScriptCrypto.sha256 []) := by
  have accepted : verifyScript ⟨⟨true⟩, trueScriptCrypto, noopChecker⟩
      (verifyP2sh ||| verifyWitness) (0x22 :: 0x00 :: 0x20 :: trueScriptCrypto.sha256 [])
      trueScriptHashOutput [[0x51]] = .ok () := by
    decide +kernel
  exact (witness_spend_fixed (by decide) (by decide) accepted).2.1 _ (by decide +kernel)
    ⟨[], { ExecData.new with codeseparatorPosInit := true }, by decide +kernel⟩ ⟨_, by rfl⟩

end Satd.Consensus
