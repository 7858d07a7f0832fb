import Satd.Policy.Soundness

/-!
# The static cost model

Every compiled expression is given a worst-case cost on three axes: fixed work,
which a quantifier multiplies by the largest number of elements; scans of data
that is part of the transaction, which it does not; and scans of previous outputs,
which it does. Unsigned 64-bit sums and products saturate.
-/

namespace Satd.Policy

open Rust
open Satd.Consensus (Bytes)

def policyBudget : Nat := 256_000_000
def maxTxScan : Nat := 4_000_000
def maxPrevoutScript : Nat := 10_000
def txidBytes : Nat := 32
def maxInputs : Nat := 24_000
def maxOutputs : Nat := 111_000

variable (first : Nat) (second : Nat)

/-- A sum of unsigned 64-bit numbers. -/
def saturatingSum : Nat := min (first + second) (2 ^ 64 - 1)

structure Cost where
  flat : Nat
  scan : Nat
  scanElem : Nat
  deriving DecidableEq, Repr

namespace Cost

def leaf : Cost := ⟨1, 0, 0⟩

def zero : Cost := ⟨0, 0, 0⟩

variable (cost : Cost) (amount : Nat)

def plusFlat : Cost := { cost with flat := saturatingSum cost.flat amount }

def plusScan : Cost := { cost with scan := saturatingSum cost.scan amount }

def plusScanElem : Cost := { cost with scanElem := saturatingSum cost.scanElem amount }

def total : Nat := saturatingSum (saturatingSum cost.flat cost.scan) cost.scanElem

def add (first second : Cost) : Cost :=
  ⟨saturatingSum first.flat second.flat, saturatingSum first.scan second.scan,
    saturatingSum first.scanElem second.scanElem⟩

end Cost

/-- How many bytes a scan of the receiver may read, and whether it recurs for
every element. -/
def scanBound : Expr → Nat × Bool
  | .attr root field _ =>
    match root, field with
    | .tx, "txid" => (txidBytes, false)
    | .input, "prevout_txid" => (txidBytes, false)
    | .input, "prevout_script" => (maxPrevoutScript, true)
    | _, _ => (maxTxScan, false)
  | _ => (maxTxScan, false)

/-- The bytes a call scans, given how long its receiver may be. -/
def scanned (bound : Nat) : MethodCall → Nat
  | .len => 0
  | .startsWith needle | .endsWith needle => needle.length
  | .contains needle => saturatingProduct bound needle.length
  | .countOp _ | .maxPush | .wellFormed => bound
  | .containsOps pattern => saturatingProduct bound (pattern.len + 2)

def maxElements : Domain → Nat
  | .inputs => maxInputs
  | .outputs => maxOutputs

def cost : Expr → Cost
  | .bool _ _ | .int _ _ | .bytes _ _ | .enum _ _ | .attr _ _ _ => .leaf
  | .unary _ expr _ => (cost expr).plusFlat 1
  | .binary _ lhs rhs _ => ((cost lhs).add (cost rhs)).plusFlat 1
  | .method recv call _ =>
    let base := (cost recv).plusFlat 1
    let (bound, perElem) := scanBound recv
    if perElem then base.plusScanElem (scanned bound call) else base.plusScan (scanned bound call)
  | .quant _ domain body _ =>
    let inner := cost body
    { flat := saturatingSum (saturatingProduct (maxElements domain) inner.flat) 1
      scan := inner.scan
      scanElem := saturatingProduct (maxElements domain) inner.scanElem }

/-! ## The model without saturation -/

inductive Axis where
  | flat | scan | scanElem
  deriving DecidableEq, Repr

def Cost.on (cost : Cost) : Axis → Nat
  | .flat => cost.flat
  | .scan => cost.scan
  | .scanElem => cost.scanElem

/-- The visit of a node is fixed work. -/
def visitOn : Axis → Nat
  | .flat => 1
  | .scan | .scanElem => 0

/-- How often a quantifier counts its body. -/
def timesOn (domain : Domain) : Axis → Nat
  | .scan => 1
  | .flat | .scanElem => maxElements domain

/-- The axis the scans of a receiver are counted on. -/
def scanAxis (recv : Expr) : Axis := if (scanBound recv).2 then .scanElem else .scan

/-- The bytes a call scans, without saturation. -/
def exactScanned (bound : Nat) : MethodCall → Nat
  | .len => 0
  | .startsWith needle | .endsWith needle => needle.length
  | .contains needle => bound * needle.length
  | .countOp _ | .maxPush | .wellFormed => bound
  | .containsOps pattern => bound * (pattern.len + 2)

def exactCost (axis : Axis) : Expr → Nat
  | .unary _ expr _ => visitOn axis + exactCost axis expr
  | .binary _ lhs rhs _ => visitOn axis + exactCost axis lhs + exactCost axis rhs
  | .method recv call _ =>
    visitOn axis + exactCost axis recv +
      if axis = scanAxis recv then exactScanned (scanBound recv).1 call else 0
  | .quant _ domain body _ => visitOn axis + timesOn domain axis * exactCost axis body
  | _ => visitOn axis

/-- A number capped at the largest unsigned 64-bit one. -/
def capped (number : Nat) : Nat := min number (2 ^ 64 - 1)

theorem saturatingSum_capped :
    saturatingSum (capped first) (capped second) = capped (first + second) := by
  simp only [saturatingSum, capped]
  omega

theorem saturatingSum_capped_left :
    saturatingSum (capped first) second = capped (first + second) := by
  simp only [saturatingSum, capped]
  omega

theorem saturatingProduct_capped {factor : Nat} (positive : 0 < factor) (number : Nat) :
    saturatingProduct factor (capped number) = capped (factor * number) := by
  simp only [saturatingProduct, capped]
  rcases le_total number (2 ^ 64 - 1) with small | large
  · rw [min_eq_left small]
  · have product : 2 ^ 64 - 1 ≤ factor * (2 ^ 64 - 1) := Nat.le_mul_of_pos_left _ positive
    have larger : factor * (2 ^ 64 - 1) ≤ factor * number := Nat.mul_le_mul_left _ large
    rw [min_eq_right large, min_eq_right product, min_eq_right (product.trans larger)]

theorem saturatingSum_scanned (number bound : Nat) (call : MethodCall) :
    saturatingSum (capped number) (scanned bound call) =
      capped (number + exactScanned bound call) := by
  cases call with
  | len | startsWith | endsWith | countOp | maxPush | wellFormed =>
    exact saturatingSum_capped_left _ _
  | contains | containsOps => exact saturatingSum_capped _ _

theorem maxElements_pos {domain : Domain} : 0 < maxElements domain := by
  cases domain <;> decide

variable {axis : Axis} {number : Nat}

theorem plusFlat_on {base : Cost} (known : base.on axis = capped number) :
    (base.plusFlat 1).on axis = capped (visitOn axis + number) := by
  cases axis with
  | flat =>
    have flat : base.flat = capped number := known
    rw [Cost.on, Cost.plusFlat, flat, saturatingSum_capped_left, visitOn, add_comm]
  | scan | scanElem =>
    rw [visitOn, zero_add]
    exact known

theorem add_on {first second : Cost} {left right : Nat} (firstKnown : first.on axis = capped left)
    (secondKnown : second.on axis = capped right) :
    (first.add second).on axis = capped (left + right) := by
  rw [← saturatingSum_capped, ← firstKnown, ← secondKnown]
  cases axis <;> rfl

theorem plusScanned_on {base : Cost} {perElem : Bool} {bound : Nat} {call : MethodCall}
    (known : base.on axis = capped number) :
    (if perElem then base.plusScanElem (scanned bound call)
      else base.plusScan (scanned bound call)).on axis =
      capped (number + if axis = (if perElem then .scanElem else .scan)
        then exactScanned bound call else 0) := by
  have counted : saturatingSum (base.on axis) (scanned bound call) =
      capped (number + exactScanned bound call) := by
    rw [known, saturatingSum_scanned]
  cases perElem <;> cases axis <;> first | exact counted | exact known

/-- Saturating at every step is saturating once. -/
theorem cost_on (axis : Axis) (expr : Expr) : (cost expr).on axis = capped
    (exactCost axis expr) := by
  induction expr with
  | bool | int | bytes | enum | attr => cases axis <;> rfl
  | unary op expr span ih => exact plusFlat_on ih
  | binary op lhs rhs span leftIh rightIh =>
    have sum := plusFlat_on (add_on leftIh rightIh)
    rwa [← add_assoc] at sum
  | method recv call span ih =>
    exact plusScanned_on (plusFlat_on ih)
  | quant kind domain body span ih =>
    have product : saturatingProduct (maxElements domain) ((cost body).on axis) =
        capped (maxElements domain * exactCost axis body) := by
      rw [ih, saturatingProduct_capped (maxElements_pos)]
    cases axis with
    | flat =>
      have flat : (cost body).on .flat = (cost body).flat := rfl
      rw [flat] at product
      simp only [cost, Cost.on, exactCost, visitOn, timesOn, product, saturatingSum_capped_left,
        add_comm]
    | scan =>
      simp only [exactCost, visitOn, timesOn, zero_add, one_mul]
      exact ih
    | scanElem =>
      simp only [exactCost, visitOn, timesOn, zero_add]
      exact product

/-- The whole of an exact cost. -/
def exactTotal (expr : Expr) : Nat :=
  exactCost .flat expr + exactCost .scan expr + exactCost .scanElem expr

theorem cost_total (expr : Expr) : (cost expr).total = capped (exactTotal expr) := by
  have flat : (cost expr).flat = capped (exactCost .flat expr) := cost_on .flat expr
  have scan : (cost expr).scan = capped (exactCost .scan expr) := cost_on .scan expr
  have scanElem : (cost expr).scanElem = capped (exactCost .scanElem expr) := cost_on .scanElem expr
  rw [Cost.total, flat, scan, scanElem, saturatingSum_capped, saturatingSum_capped, exactTotal]

end Satd.Policy
