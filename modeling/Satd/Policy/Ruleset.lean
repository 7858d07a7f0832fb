import Satd.Policy.Fuel

/-!
# Rulesets

The rules of a policy file are tried in order and the first that matches decides.
One stock of fuel is shared by the whole pass; if it runs out, the transaction is
quarantined on every scope. A ruleset is loaded only if its summed cost is within
the budget.
-/

namespace Satd.Policy

open Rust List

structure ScopeSet where
  relay : Bool
  template : Bool
  deriving DecidableEq, Repr

def ScopeSet.all : ScopeSet := ⟨true, true⟩

inductive Verdict where
  | pass
  | allow (rule : String)
  | quarantine (rule : String) (scope : ScopeSet)
  deriving DecidableEq, Repr

def fuelRule : String := "__fuel"

def Verdict.fuel : Verdict := .quarantine fuelRule ScopeSet.all

inductive Action where
  | quarantine | allow
  deriving DecidableEq, Repr

/-- A typechecked expression with its cost, within the budget. -/
structure CompiledExpr where
  ast : Expr
  type : Ty
  cost : Cost
  typed : typecheck ast = .ok type
  costed : cost = Policy.cost ast
  affordable : cost.total ≤ policyBudget

/-- A rule, with a condition that is a truth value. -/
structure Rule where
  name : String
  action : Action
  scope : ScopeSet
  cond : CompiledExpr
  condition : cond.type = .bool

/-- The rules of a policy file, with their summed cost, within the budget. -/
structure CompiledRuleset where
  rules : List Rule
  totalCost : Cost
  summed : totalCost = rules.foldl (fun total rule => total.add rule.cond.cost) Cost.zero
  affordable : totalCost.total ≤ policyBudget

/-- What a pass over the rules came to, with the fuel it left. -/
structure Pass where
  verdict : Verdict
  fuelExhausted : Bool
  fuelRemaining : I64

def Rule.verdict (rule : Rule) : Verdict :=
  match rule.action with
  | .quarantine => .quarantine rule.name rule.scope
  | .allow => .allow rule.name

section Views

variable (tx : TxView) (ctx : Ctx)

/-- The rules in order, on what the ones before left. -/
def evaluateFrom : List Rule → I64 → Pass
  | [], fuel => ⟨.pass, false, fuel⟩
  | rule :: rest, fuel =>
    let out := evalMetered rule.cond.ast tx ctx fuel
    if out.fuelExhausted then ⟨.fuel, true, out.fuelRemaining⟩
    else if out.value = .bool true then ⟨rule.verdict, false, out.fuelRemaining⟩
    else evaluateFrom rest out.fuelRemaining

variable (ruleset : CompiledRuleset)

def CompiledRuleset.evaluatePass : Pass := evaluateFrom tx ctx ruleset.rules defaultFuel

def CompiledRuleset.evaluate : Verdict := (ruleset.evaluatePass tx ctx).verdict

/-! ## What a pass takes -/

/-- The rule's condition holds of the transaction. -/
def Rule.matches (rule : Rule) : Bool := meaning tx ctx rule.cond.ast .top = some (.bool true)

variable (rules : List Rule)

/-- The rules a pass gets to. -/
def reached : List Rule := visited (Rule.matches tx ctx) rules

/-- The fuel of a pass: what the conditions of the rules it gets to take. -/
def passWork : Nat := ((reached tx ctx rules).map fun rule => work tx ctx rule.cond.ast .top).sum

/-- A pass that does not run out has paid for the rules it got to. -/
theorem evaluateFrom_fuel {rules : List Rule} {fuel : I64}
    (lasts : (evaluateFrom tx ctx rules fuel).fuelExhausted = false) :
    (evaluateFrom tx ctx rules fuel).fuelRemaining.toInt =
      fuel.toInt - passWork tx ctx rules := by
  induction rules generalizing fuel with
  | nil => simp [evaluateFrom, passWork, reached, visited]
  | cons rule rest ih =>
    obtain ⟨value, means, typed, spec⟩ := evalMetered_spec rule.cond.typed
    cases ends : (evalMetered rule.cond.ast tx ctx fuel).fuelExhausted with
    | true => simp [evaluateFrom, ends] at lasts
    | false =>
      obtain ⟨answer, -, left⟩ := (spec fuel).2 ((spec fuel).1.mp ends)
      by_cases holds : value = .bool true
      · have isMatch : Rule.matches tx ctx rule = true := by simp [Rule.matches, means, holds]
        simp [evaluateFrom, ends, answer, holds, left, passWork, reached, visited, isMatch]
      · have noMatch : Rule.matches tx ctx rule = false := by simp [Rule.matches, means, holds]
        have goesOn : evaluateFrom tx ctx (rule :: rest) fuel =
            evaluateFrom tx ctx rest (evalMetered rule.cond.ast tx ctx fuel).fuelRemaining := by
          simp [evaluateFrom, ends, answer, holds]
        rw [goesOn] at lasts ⊢
        rw [ih lasts, left]
        simp only [passWork, reached, visited, noMatch, Bool.false_eq_true, if_false, map_cons,
          sum_cons]
        push_cast
        ring

/-! ## The verdict of a pass -/

/-- The verdict of the first rule that matches. -/
def firstMatch (rules : List Rule) : Verdict :=
  (rules.find? (Rule.matches tx ctx)).elim .pass Rule.verdict

/-- A pass decides by the first match if what is there pays for the rules up to it. -/
theorem evaluateFrom_verdict {rules : List Rule} {fuel : I64} (some : 0 < fuel.toInt) :
    (evaluateFrom tx ctx rules fuel).verdict =
      if (passWork tx ctx rules : Int) < fuel.toInt then firstMatch tx ctx rules else .fuel := by
  induction rules generalizing fuel with
  | nil => simp [evaluateFrom, passWork, reached, visited, firstMatch, some]
  | cons rule rest ih =>
    obtain ⟨value, means, -, spec⟩ := evalMetered_spec rule.cond.typed
    by_cases paid : (work tx ctx rule.cond.ast .top : Int) < fuel.toInt
    · have lasts := (spec fuel).1.mpr paid
      obtain ⟨answer, -, left⟩ := (spec fuel).2 paid
      by_cases holds : value = .bool true
      · have isMatch : Rule.matches tx ctx rule = true := by simp [Rule.matches, means, holds]
        simp [evaluateFrom, lasts, answer, holds, passWork, reached, visited, firstMatch, isMatch,
          paid]
      · have noMatch : Rule.matches tx ctx rule = false := by simp [Rule.matches, means, holds]
        have remains : 0 < (evalMetered rule.cond.ast tx ctx fuel).fuelRemaining.toInt := by
          rw [left]
          omega
        have later := ih remains
        rw [left] at later
        simp only [evaluateFrom, lasts, answer, holds, if_false, Bool.false_eq_true, later]
        simp [passWork, reached, visited, firstMatch, noMatch, lt_sub_iff_add_lt']
    · have ends : (evalMetered rule.cond.ast tx ctx fuel).fuelExhausted = true := by
        rw [← Bool.not_eq_false, (spec fuel).1]
        exact paid
      have first : work tx ctx rule.cond.ast .top ≤ passWork tx ctx (rule :: rest) := by
        rw [passWork, reached, visited]
        split_ifs <;> simp
      rw [if_neg (by omega)]
      simp [evaluateFrom, ends]

/-- The verdict of a ruleset is that of the first rule whose condition holds, unless the
conditions up to that rule take all the fuel of a pass. -/
theorem evaluate_first_match :
    ruleset.evaluate tx ctx =
      if passWork tx ctx ruleset.rules < 8_000_000 then firstMatch tx ctx ruleset.rules
      else .fuel := by
  have stock : defaultFuel.toInt = 8_000_000 := by decide +kernel
  rw [CompiledRuleset.evaluate, CompiledRuleset.evaluatePass,
    evaluateFrom_verdict tx ctx (by rw [stock]; decide), stock]
  norm_cast

/-! ## The summed cost -/

variable {tx}

/-- What the cost of a list of rules comes to on an axis. -/
theorem foldl_cost_on {axis : Axis} {start : Cost} {number : Nat}
    (known : start.on axis = capped number) :
    (rules.foldl (fun total rule => total.add rule.cond.cost) start).on axis =
      capped (number + (rules.map fun rule => exactCost axis rule.cond.ast).sum) := by
  induction rules generalizing start number with
  | nil => simpa using known
  | cons rule rest ih =>
    have ruleKnown : rule.cond.cost.on axis = capped (exactCost axis rule.cond.ast) := by
      rw [rule.cond.costed]
      exact cost_on axis rule.cond.ast
    have next := ih (add_on known ruleKnown)
    simpa [add_assoc] using next

theorem CompiledRuleset.totalCost_total :
    ruleset.totalCost.total =
      capped (ruleset.rules.map fun rule => exactTotal rule.cond.ast).sum := by
  have onAxis (axis : Axis) : ruleset.totalCost.on axis =
      capped (ruleset.rules.map fun rule => exactCost axis rule.cond.ast).sum := by
    have start : Cost.zero.on axis = capped 0 := by cases axis <;> rfl
    have whole := foldl_cost_on ruleset.rules start
    rw [zero_add] at whole
    rw [ruleset.summed, whole]
  have flat : ruleset.totalCost.flat = _ := onAxis .flat
  have scan : ruleset.totalCost.scan = _ := onAxis .scan
  have scanElem : ruleset.totalCost.scanElem = _ := onAxis .scanElem
  rw [Cost.total, flat, scan, scanElem, saturatingSum_capped, saturatingSum_capped]
  simp only [exactTotal, sum_map_add]

/-- Every rule a pass gets to is within its cost, so the pass is within the sum. -/
theorem passWork_le (limits : WithinLimits tx) (rules : List Rule)
    (covered : ∀ rule ∈ rules, Covered tx false rule.cond.ast) :
    passWork tx ctx rules ≤ (rules.map fun rule => exactTotal rule.cond.ast).sum := by
  have part := visited_sublist (Rule.matches tx ctx) rules
  have perRule : ∀ rule ∈ reached tx ctx rules,
      work tx ctx rule.cond.ast .top ≤ exactTotal rule.cond.ast := fun rule member =>
    work_le ctx limits (check_typed rule.cond.typed) (covered rule (part.subset member))
  exact (sum_le_sum perRule).trans
    ((part.map fun rule => exactTotal rule.cond.ast).sum_le_sum fun _ _ => zero_le)

/-! ## Fuel against cost -/

/-- Fuel that was paid from a 64-bit stock is within a capped bound. -/
theorem paid_le_capped {amount bound : Nat} {before after : I64} (within : amount ≤ bound)
    (paid : after.toInt = before.toInt - amount) (positive : 0 ≤ after.toInt) :
    before.toInt - after.toInt ≤ capped bound := by
  have upper := before.upper
  simp only [capped]
  omega

/-- The static cost bounds the fuel burned by a covered expression, and by a pass over a ruleset
whose conditions are covered. Both follow from the bound on `work`, which the soundness of the
evaluator identifies with the fuel; the cost is the exact one, capped once. -/
theorem fuel_within_cost (tx : TxView) (ctx : Ctx) (limits : WithinLimits tx) :
    (∀ (expr : Expr) (type : Ty) (fuel : I64), typecheck expr = .ok type →
      Covered tx false expr → (evalMetered expr tx ctx fuel).fuelExhausted = false →
      fuel.toInt - (evalMetered expr tx ctx fuel).fuelRemaining.toInt ≤ (cost expr).total) ∧
    ∀ ruleset : CompiledRuleset, (∀ rule ∈ ruleset.rules, Covered tx false rule.cond.ast) →
      (ruleset.evaluatePass tx ctx).fuelExhausted = false →
      defaultFuel.toInt - (ruleset.evaluatePass tx ctx).fuelRemaining.toInt ≤
        ruleset.totalCost.total := by
  constructor
  · intro expr type fuel accepted covered lasts
    obtain ⟨value, -, -, spec⟩ := evalMetered_spec accepted
    have enough := (spec fuel).1.mp lasts
    obtain ⟨-, -, paid⟩ := (spec fuel).2 enough
    rw [cost_total]
    exact paid_le_capped (work_le ctx limits (check_typed accepted) covered) paid (by omega)
  · intro ruleset covered lasts
    have paid := evaluateFrom_fuel tx ctx lasts
    have few := passWork_le ctx limits ruleset.rules covered
    -- a sum within the budget has not been capped
    have affordable := ruleset.affordable
    change (ruleset.evaluatePass tx ctx).fuelRemaining.toInt = _ at paid
    rw [ruleset.totalCost_total] at affordable ⊢
    simp only [capped, policyBudget] at affordable ⊢
    omega

end Views

/-! ## A quantifier that burns more than its cost -/

/-- `all inputs (true)` -/
def everyInput : Expr := .quant .all .inputs (.bool true ⟨12, 16⟩) ⟨0, 17⟩

/-- `quarantine when all inputs (true)` -/
def everyInputRuleset : CompiledRuleset where
  rules := [{
    name := "every-input"
    action := .quarantine
    scope := ScopeSet.all
    cond := {
      ast := everyInput
      type := .bool
      cost := Policy.cost everyInput
      typed := rfl
      costed := rfl
      affordable := by decide }
    condition := rfl }]
  totalCost := Cost.zero.add (Policy.cost everyInput)
  summed := rfl
  affordable := by decide

variable {count : Nat}

theorem sampleTx_limits (few : count ≤ maxInputs) :
    WithinLimits (sampleTx (List.replicate count sampleInput)) where
  inputs := by simpa [sampleTx] using few
  outputs := zero_le
  scripts := by
    simp only [sampleTx, map_replicate, sum_replicate, map_nil, sum_nil,
      smul_eq_mul, sampleInput, length_cons, length_nil, maxTxScan]
    simp only [maxInputs] at few
    omega
  prevoutScripts input member := by
    obtain rfl := eq_of_mem_replicate member
    decide
  txid := rfl
  prevoutTxids input member := by
    obtain rfl := eq_of_mem_replicate member
    rfl

theorem fuel_within_cost_sample :
    let tx := sampleTx (.replicate 2 sampleInput)
    WithinLimits tx ∧ Covered tx false sampleExpr ∧
      50 - (evalMetered sampleExpr tx sampleCtx (.saturate 64 50)).fuelRemaining.toInt ≤
        (cost sampleExpr).total := by
  have limits : WithinLimits (sampleTx (replicate 2 sampleInput)) := sampleTx_limits (by decide)
  have covered : Covered (sampleTx (replicate 2 sampleInput)) false sampleExpr :=
    ⟨by decide, ⟨⟨trivial, trivial⟩, trivial⟩, trivial⟩
  have lasts : (evalMetered sampleExpr (sampleTx (replicate 2 sampleInput)) sampleCtx
      (.saturate 64 50)).fuelExhausted = false := by decide +kernel
  exact ⟨limits, covered, (fuel_within_cost _ sampleCtx limits).1 sampleExpr .bool _ rfl covered
    lasts⟩

/-- Nothing settles the matter, so everything is visited. -/
theorem visited_eq_self {α : Type} {settles : α → Bool} {items : List α}
    (never : ∀ item ∈ items, settles item = false) : visited settles items = items := by
  induction items with
  | nil => rfl
  | cons item rest ih =>
    rw [visited, never item mem_cons_self, if_neg Bool.false_ne_true,
      ih fun other member => never other (mem_cons_of_mem _ member)]

/-- Two units for every input: the step of the loop and the literal. -/
theorem work_everyInput {ctx : Ctx} :
    work (sampleTx (List.replicate count sampleInput)) ctx everyInput .top = 1 + count * 2 := by
  have all : visited (fun element => QuantKind.all.settledBy
      (meaning (sampleTx (replicate count sampleInput)) ctx (.bool true ⟨12, 16⟩) element))
      (elements (sampleTx (replicate count sampleInput)) .inputs) =
      elements (sampleTx (replicate count sampleInput)) .inputs :=
    visited_eq_self fun _ _ => rfl
  simp only [everyInput, work, all]
  simp [elements, sampleTx]

/-- The bound on the number of elements cannot be raised: this loop stays within its cost exactly
up to half the inputs the model allows for. -/
theorem everyInput_within_iff {ctx : Ctx} :
    work (sampleTx (List.replicate count sampleInput)) ctx everyInput .top ≤
      (cost everyInput).total ↔ 2 * count ≤ maxInputs := by
  have total : (cost everyInput).total = 24_001 := by decide
  rw [work_everyInput, total, maxInputs]
  omega

/-- A pass over one rule is the evaluation of its condition. -/
theorem evaluateFrom_single {tx : TxView} {ctx : Ctx} {rule : Rule} {fuel : I64}
    (lasts : (evalMetered rule.cond.ast tx ctx fuel).fuelExhausted = false) :
    (evaluateFrom tx ctx [rule] fuel).fuelExhausted = false ∧
      (evaluateFrom tx ctx [rule] fuel).fuelRemaining =
        (evalMetered rule.cond.ast tx ctx fuel).fuelRemaining := by
  simp only [evaluateFrom, lasts, Bool.false_eq_true, if_false]
  split <;> exact ⟨rfl, rfl⟩

/-- As many inputs as the cost model allows. -/
def widestTx : TxView := sampleTx (List.replicate 24_000 sampleInput)

/-- The loop burns about twice the cost, in one evaluation and in a pass over a
ruleset. -/
theorem everyInput_burns_more_than_cost :
    WithinLimits widestTx ∧ typecheck everyInput = .ok .bool ∧
      (evalMetered everyInput widestTx sampleCtx defaultFuel).fuelExhausted = false ∧
      (cost everyInput).total = 24_001 ∧
      defaultFuel.toInt -
        (evalMetered everyInput widestTx sampleCtx defaultFuel).fuelRemaining.toInt = 48_001 ∧
      (everyInputRuleset.evaluatePass widestTx sampleCtx).fuelExhausted = false ∧
      everyInputRuleset.totalCost.total = 24_001 ∧
      defaultFuel.toInt -
        (everyInputRuleset.evaluatePass widestTx sampleCtx).fuelRemaining.toInt = 48_001 := by
  have limits : WithinLimits widestTx := sampleTx_limits (by decide)
  have accepted : typecheck everyInput = .ok .bool := rfl
  have takes : work widestTx sampleCtx everyInput .top = 48_001 := work_everyInput
  have stock : defaultFuel.toInt = 8_000_000 := by decide
  have enough : (work widestTx sampleCtx everyInput .top : Int) < defaultFuel.toInt := by
    rw [takes, stock]
    decide
  obtain ⟨value, -, -, spec⟩ := evalMetered_spec accepted
  have lasts := (spec defaultFuel).1.mpr enough
  obtain ⟨-, -, left⟩ := (spec defaultFuel).2 enough
  have burned : defaultFuel.toInt -
      (evalMetered everyInput widestTx sampleCtx defaultFuel).fuelRemaining.toInt = 48_001 := by
    omega
  have single : (everyInputRuleset.evaluatePass widestTx sampleCtx).fuelExhausted = false ∧
      (everyInputRuleset.evaluatePass widestTx sampleCtx).fuelRemaining =
        (evalMetered everyInput widestTx sampleCtx defaultFuel).fuelRemaining :=
    evaluateFrom_single lasts
  refine ⟨limits, accepted, lasts, by decide, burned, single.1, by decide, ?_⟩
  rw [single.2]
  exact burned

end Satd.Policy
