import Satd.Bitcoin.Types

/-!
# Context-free transaction checks

The reasons for which a block or a transaction is refused, and the checks that
need nothing but the transaction. A passed check bounds the number of outputs
and their total value, which is what later sums rest on.
-/

namespace Satd.Validation

open Rust Satd.Bitcoin
open Satd.Consensus (Bytes)

/-- The reasons for refusing a block, a header or a transaction. -/
inductive ValidationError where
  | badProofOfWork | timeTooOld | timeTooNew | badVersion (version : UInt32)
  | badMerkleRoot | badTxDuplicate | noCoinbase | multipleCoinbase
  | oversizedBlock | overweightBlock | badBlockSigops | badDifficulty | emptyBlock
  | badTxNoInputs | badTxNoOutputs | badTxOversize
  | badTxOutputNegative | badTxOutputTooLarge | badTxOutputTotalTooLarge
  | badTxDuplicateInput | badTxCoinbaseSize | badTxNullInput
  | badWitnessCommitment | badWitnessNonceSize | unexpectedWitness
  | badSignetSolution | timewarpAttack
  deriving DecidableEq, Repr

/-- Satoshis in 21 million coins. -/
def maxMoney : Nat := 21_000_000 * 100_000_000

def maxBlockWeight : Nat := 4_000_000

def weightScaleFactor : Nat := 4

/-- Add the value of one output to the running total. -/
def addOutputValue (totalOut : Nat) (output : TxOut) : Except ValidationError Nat :=
  if 2 ^ 63 ≤ output.value.toNat then .error .badTxOutputNegative
  else if maxMoney < output.value.toNat then .error .badTxOutputTooLarge
  else if 2 ^ 64 ≤ totalOut + output.value.toNat then .error .badTxOutputTotalTooLarge
  else if maxMoney < totalOut + output.value.toNat then .error .badTxOutputTotalTooLarge
  else .ok (totalOut + output.value.toNat)

/-- Check the value of every output and their running total. -/
def checkOutputValues : Nat → List TxOut → Except ValidationError Unit
  | _, [] => .ok ()
  | totalOut, output :: rest =>
    match addOutputValue totalOut output with
    | .ok totalOut => checkOutputValues totalOut rest
    | .error error => .error error

/-- The context-free checks of one transaction. -/
def checkTransaction (tx : Transaction) : Except ValidationError Unit :=
  if tx.input.isEmpty then .error .badTxNoInputs
  else if tx.output.isEmpty then .error .badTxNoOutputs
  else if maxBlockWeight < tx.baseSize * weightScaleFactor then .error .badTxOversize
  else
    match checkOutputValues 0 tx.output with
    | .error error => .error error
    | .ok () =>
      if ¬(tx.input.map TxIn.previousOutput).Nodup then .error .badTxDuplicateInput
      else if tx.isCoinbase then
        match tx.input with
        | [] => .ok ()
        | first :: _ =>
          if first.scriptSig.length < 2 ∨ 100 < first.scriptSig.length then
            .error .badTxCoinbaseSize
          else .ok ()
      else if tx.input.any fun input => input.previousOutput.isNull then .error .badTxNullInput
      else .ok ()

/-- The total value of a list of outputs. -/
def outputTotal (outputs : List TxOut) : Nat := (outputs.map fun output => output.value.toNat).sum

@[simp] theorem outputTotal_nil : outputTotal [] = 0 := rfl

@[simp] theorem outputTotal_cons (output : TxOut) (rest : List TxOut) :
    outputTotal (output :: rest) = output.value.toNat + outputTotal rest := by
  simp [outputTotal]

/-- A value is added only while the total stays within the money supply. -/
theorem addOutputValue_eq_ok {totalOut total : Nat} {output : TxOut}
    (added : addOutputValue totalOut output = .ok total) :
    total = totalOut + output.value.toNat ∧ total ≤ maxMoney := by
  unfold addOutputValue at added
  split_ifs at added with negative tooLarge overflows exceeds
  simp only [Except.ok.injEq] at added
  omega

/-- Outputs that pass are worth at most the money supply together. -/
theorem checkOutputValues_bound {outputs : List TxOut} {totalOut : Nat}
    (within : totalOut ≤ maxMoney) (passed : checkOutputValues totalOut outputs = .ok ()) :
    totalOut + outputTotal outputs ≤ maxMoney := by
  induction outputs generalizing totalOut with
  | nil => simpa using within
  | cons output rest ih =>
    rw [checkOutputValues] at passed
    cases added : addOutputValue totalOut output with
    | error error => simp [added] at passed
    | ok total =>
      obtain ⟨sum, bound⟩ := addOutputValue_eq_ok added
      simp only [added] at passed
      have later := ih bound passed
      rw [outputTotal_cons]
      omega

/-- What a transaction that passes is known to satisfy. -/
structure Checked (tx : Transaction) : Prop where
  inputs : tx.input ≠ []
  outputs : tx.output ≠ []
  size : tx.baseSize * weightScaleFactor ≤ maxBlockWeight
  value : outputTotal tx.output ≤ maxMoney
  distinct : (tx.input.map TxIn.previousOutput).Nodup

/-- Passing the checks establishes each of their conditions. -/
theorem checked_of_checkTransaction {tx : Transaction} (passed : checkTransaction tx = .ok ()) :
    Checked tx := by
  have noInputs : ¬tx.input.isEmpty = true := by
    intro empty
    simp [checkTransaction, empty] at passed
  have noOutputs : ¬tx.output.isEmpty = true := by
    intro empty
    simp [checkTransaction, noInputs, empty] at passed
  have size : ¬maxBlockWeight < tx.baseSize * weightScaleFactor := by
    intro oversize
    simp [checkTransaction, noInputs, noOutputs, oversize] at passed
  have values : checkOutputValues 0 tx.output = .ok () := by
    cases outcome : checkOutputValues 0 tx.output with
    | error error => simp [checkTransaction, noInputs, noOutputs, size, outcome] at passed
    | ok result => rfl
  have distinct : (tx.input.map TxIn.previousOutput).Nodup := by
    by_contra repeated
    simp [checkTransaction, noInputs, noOutputs, size, values, repeated] at passed
  have bound := checkOutputValues_bound zero_le values
  constructor
  · simpa using noInputs
  · simpa using noOutputs
  · omega
  · omega
  · exact distinct

end Satd.Validation
