import Satd.Policy.Rules

/-!
# Well-typed expressions mean what the evaluator answers

Evaluating a well-typed expression takes exactly the fuel `work` counts, takes no
default, and answers the value `meaning` gives, which has the type the checker
found; or it runs out of fuel. The induction is on the typing derivation.
-/

namespace Satd.Policy

open Rust Metered
open Satd.Consensus (Bytes)

section Views

variable (tx : TxView) (ctx : Ctx)

/-! ## Expressions -/

/-- The expression has the value, of the type, and evaluating it finds it. -/
structure Sound (expr : Expr) (binder : Binder) (type : Ty) (value : Value) : Prop where
  means : meaning tx ctx expr binder = some value
  typed : value.HasType type
  runs : meter.Triple (Holds binder) (eval tx ctx expr) value (work tx ctx expr binder)
    (Holds binder)

variable {lhs rhs : Expr} {span : Span} {binder : Binder}

variable {type : Ty} {value : Value} {answer : Bool} {expr : Expr} {node : Eval Value}

/-- Both operands are evaluated and the operator is applied. -/
theorem strict_sound {op : BinOp} {leftType rightType : Ty} {left right : Value}
    (strict : op.isLogical = false) (leftSound : Sound tx ctx lhs binder leftType left)
    (rightSound : Sound tx ctx rhs binder rightType right)
    (means : strictMeaning op left right = some value) (typed : value.HasType type)
    (answers : strictBinary op left right = pure value) :
    Sound tx ctx (.binary op lhs rhs span) binder type value where
  means := by
    simp only [meaning]
    rw [leftSound.means, rightSound.means, binaryMeaning_strict strict, means]
  typed := typed
  runs := by
    have applied : meter.Triple (Holds binder) (strictBinary op left right) value 0
        (Holds binder) := by
      rw [answers]
      exact .pure value
    have operands : meter.Triple (Holds binder) (binary op (eval tx ctx lhs) (eval tx ctx rhs))
        value (work tx ctx lhs binder + work tx ctx rhs binder) (Holds binder) := by
      rw [binary_strict strict]
      exact .bind leftSound.runs
        (.bind_free rightSound.runs applied fun _ => strictBinary_sticky _ _ _)
        fun _ => .bind (eval_sticky) fun _ => strictBinary_sticky _ _ _
    have paid := visit_triple operands (binary_sticky (eval_sticky) (eval_sticky))
    simpa only [eval, work, settledBy_strict strict, Bool.false_eq_true, if_false, add_assoc]
      using paid

/-- An operand asked for a truth value. -/
theorem Sound.asks (sound : Sound tx ctx expr binder .bool (.bool answer)) :
    meter.Triple (Holds binder) (eval tx ctx expr >>= asBool) answer (work tx ctx expr binder)
      (Holds binder) :=
  .bind_free sound.runs (.pure answer) asBool_sticky

theorem asks_sticky {expr : Expr} : meter.Sticky (eval tx ctx expr >>= asBool) :=
  .bind (eval_sticky) asBool_sticky

/-- An operand whose truth value is the answer. -/
theorem Sound.answers (sound : Sound tx ctx expr binder .bool (.bool answer)) :
    meter.Triple (Holds binder)
      (do let value ← eval tx ctx expr >>= asBool; pure (Value.bool value))
      (.bool answer) (work tx ctx expr binder) (Holds binder) :=
  .bind_free sound.asks (.pure _) fun _ => .pure _

theorem answers_sticky :
    meter.Sticky (do let value ← eval tx ctx expr >>= asBool; pure (Value.bool value)) :=
  .bind (asks_sticky tx ctx) fun _ => .pure _

section

variable {left right : Bool} (leftSound : Sound tx ctx lhs binder .bool (.bool left))
  (rightSound : Sound tx ctx rhs binder .bool (.bool right))
include leftSound rightSound

/-- The right operand of `and` is looked at only when the left one holds. -/
theorem and_sound :
    Sound tx ctx (.binary .and lhs rhs span) binder .bool (.bool (left && right)) where
  means := by
    simp only [meaning, leftSound.means, rightSound.means]
    cases left <;> rfl
  typed := trivial
  runs := by
    have sticky : meter.Sticky (binary .and (eval tx ctx lhs) (eval tx ctx rhs)) :=
      binary_sticky (eval_sticky) (eval_sticky)
    have next (other : Bool) : meter.Sticky (if other = true then
        (do let value ← eval tx ctx rhs >>= asBool; pure (Value.bool value))
        else pure (.bool false)) :=
      .ite (answers_sticky tx ctx) (.pure _)
    cases left with
    | true =>
      have operands : meter.Triple (Holds binder) (binary .and (eval tx ctx lhs) (eval tx ctx rhs))
          (.bool right) (work tx ctx lhs binder + work tx ctx rhs binder) (Holds binder) :=
        .bind leftSound.asks rightSound.answers next
      have paid := visit_triple operands sticky
      simpa [eval, work, leftSound.means, BinOp.settledBy, add_assoc] using paid
    | false =>
      have operand : meter.Triple (Holds binder) (binary .and (eval tx ctx lhs) (eval tx ctx rhs))
          (.bool false) (work tx ctx lhs binder) (Holds binder) :=
        .bind_free leftSound.asks (.pure _) next
      have paid := visit_triple operand sticky
      simpa [eval, work, leftSound.means, BinOp.settledBy] using paid

/-- The right operand of `or` is looked at only when the left one fails. -/
theorem or_sound :
    Sound tx ctx (.binary .or lhs rhs span) binder .bool (.bool (left || right)) where
  means := by
    simp only [meaning, leftSound.means, rightSound.means]
    cases left <;> rfl
  typed := trivial
  runs := by
    have sticky : meter.Sticky (binary .or (eval tx ctx lhs) (eval tx ctx rhs)) :=
      binary_sticky (eval_sticky) (eval_sticky)
    have next (other : Bool) : meter.Sticky (if other = true then pure (.bool true) else
        (do let value ← eval tx ctx rhs >>= asBool; pure (Value.bool value))) :=
      .ite (.pure _) (answers_sticky tx ctx)
    cases left with
    | true =>
      have operand : meter.Triple (Holds binder) (binary .or (eval tx ctx lhs) (eval tx ctx rhs))
          (.bool true) (work tx ctx lhs binder) (Holds binder) :=
        .bind_free leftSound.asks (.pure _) next
      have paid := visit_triple operand sticky
      simpa [eval, work, leftSound.means, BinOp.settledBy] using paid
    | false =>
      have operands : meter.Triple (Holds binder) (binary .or (eval tx ctx lhs) (eval tx ctx rhs))
          (.bool right) (work tx ctx lhs binder + work tx ctx rhs binder) (Holds binder) :=
        .bind leftSound.asks rightSound.answers next
      have paid := visit_triple operands sticky
      simpa [eval, work, leftSound.means, BinOp.settledBy, add_assoc] using paid

end

theorem method_sound {recv : Expr} {call : MethodCall} {bytes : Bytes}
    (receiver : Sound tx ctx recv binder type (.bytes bytes)) :
    Sound tx ctx (.method recv call span) binder call.resultType (callMeaning bytes call) where
  means := by
    simp only [meaning, receiver.means]
    rfl
  typed := by cases call <;> trivial
  runs := by
    have called : meter.Triple (Holds binder) (method (eval tx ctx recv) call)
        (callMeaning bytes call) (work tx ctx recv binder + callWork bytes call)
          (Holds binder) := by
      refine .bind receiver.runs (callOn_triple) fun value => ?_
      cases value with
      | bytes bytes => exact callOn_sticky
      | bool | int | enum => exact byDefault_sticky
    have paid := visit_triple called (method_sticky (eval_sticky))
    simpa [eval, work, receiver.means, Value.bytes?, add_assoc] using paid

/-- An answer that takes only the visit. -/
theorem leaf_triple (triple : meter.Triple (Holds binder) node value 0 (Holds binder))
    (sticky : meter.Sticky node) :
    meter.Triple (Holds binder) (visit node) value 1 (Holds binder) :=
  visit_triple triple sticky

/-- The values of a list of elements that all have one. -/
theorem mapM_values {α : Type} {read : α → Option Value} {value : α → Value} {items : List α}
    (known : ∀ item ∈ items, read item = some (value item)) :
    items.mapM read = some (items.map value) := by
  induction items with
  | nil => rfl
  | cons item rest ih =>
    rw [List.mapM_cons, known item List.mem_cons_self,
      ih fun other member => known other (List.mem_cons_of_mem _ member)]
    rfl

theorem quant_sound {kind : QuantKind} {domain : Domain} {body : Expr}
    (bodySound : ∀ element ∈ elements tx domain,
      ∃ value, Sound tx ctx body element kind.bodyType value) :
    ∃ value, Sound tx ctx (.quant kind domain body span) .top kind.resultType value := by
  choose! value sound using bodySound
  have typed : ∀ item ∈ (elements tx domain).map value, item.HasType kind.bodyType := by
    intro item member
    obtain ⟨element, inside, rfl⟩ := List.mem_map.mp member
    exact (sound element inside).typed
  have loop := quant_triple tx (eval_sticky)
    (fun element member => (sound element member).typed)
    (fun element member => (sound element member).runs)
  have reached : visited (fun element => kind.settledBy (some (value element)))
      (elements tx domain) =
      visited (fun element => kind.settledBy (meaning tx ctx body element)) (elements tx domain) :=
    visited_congr fun element member => by rw [(sound element member).means]
  refine ⟨(Tally.run kind ((elements tx domain).map value) .start).result kind, ?_, ?_, ?_⟩
  · rw [meaning, mapM_values fun element member => (sound element member).means]
    exact quantMeaning_eq typed
  · cases kind <;> trivial
  · rw [reached] at loop
    exact visit_triple loop (quant_sticky tx)

/-- A well-typed expression has a value of its type, and the evaluator finds it. -/
theorem typed_sound {domain : Option Domain} (typed : Typed domain expr type) (binder : Binder)
    (within : binder.domain = domain) :
    ∃ value, Sound tx ctx expr binder type value := by
  induction typed generalizing binder with
  | bool => exact ⟨_, rfl, trivial, leaf_triple (.pure _) (.pure _)⟩
  | int => exact ⟨_, rfl, trivial, leaf_triple (.pure _) (.pure _)⟩
  | bytes => exact ⟨_, rfl, trivial, leaf_triple (.pure _) (.pure _)⟩
  | enum => exact ⟨_, rfl, rfl, leaf_triple (.pure _) (.pure _)⟩
  | attr bound known =>
    subst within
    obtain ⟨value, means, hasType, runs⟩ := attr_sound tx ctx bound known
    exact ⟨value, means, hasType, leaf_triple runs (attr_sticky tx ctx)⟩
  | not operand ih =>
    obtain ⟨value, sound⟩ := ih binder within
    obtain ⟨answer, rfl⟩ := sound.typed.exists_bool
    refine ⟨.bool !answer, ?_, trivial, ?_⟩
    · simp only [meaning, sound.means]
      rfl
    · exact visit_triple (.bind_free sound.asks (.pure _) fun _ => .pure _)
        (.bind (asks_sticky tx ctx) fun _ => .pure _)
  | @logical domain op lhs rhs span isLogical left right leftIh rightIh =>
    obtain ⟨leftValue, leftSound⟩ := leftIh binder within
    obtain ⟨rightValue, rightSound⟩ := rightIh binder within
    obtain ⟨leftAnswer, rfl⟩ := leftSound.typed.exists_bool
    obtain ⟨rightAnswer, rfl⟩ := rightSound.typed.exists_bool
    cases op with
    | and => exact ⟨_, and_sound tx ctx leftSound rightSound⟩
    | or => exact ⟨_, or_sound tx ctx leftSound rightSound⟩
    | eq | ne | lt | le | gt | ge | add | sub | mul | div | mod => cases isLogical
  | arithmetic computes left right leftIh rightIh =>
    obtain ⟨leftValue, leftSound⟩ := leftIh binder within
    obtain ⟨rightValue, rightSound⟩ := rightIh binder within
    obtain ⟨leftAmount, rfl⟩ := leftSound.typed.exists_int
    obtain ⟨rightAmount, rfl⟩ := rightSound.typed.exists_int
    refine ⟨_, strict_sound tx ctx (arithmetic_strict computes) leftSound rightSound ?_ ?_
      (strictBinary_arithmetic computes)⟩
    · rw [strictMeaning, computes]
      rfl
    · trivial
  | ordering decides left right leftIh rightIh =>
    obtain ⟨leftValue, leftSound⟩ := leftIh binder within
    obtain ⟨rightValue, rightSound⟩ := rightIh binder within
    obtain ⟨leftAmount, rfl⟩ := leftSound.typed.exists_int
    obtain ⟨rightAmount, rfl⟩ := rightSound.typed.exists_int
    obtain ⟨strict, noArithmetic⟩ := ordering_strict decides
    refine ⟨_, strict_sound tx ctx strict leftSound rightSound ?_ ?_
      (strictBinary_ordering decides)⟩
    · rw [strictMeaning, noArithmetic, decides]
      rfl
    · trivial
  | @equality domain op lhs rhs leftType rightType span isEquality alike left right leftIh
      rightIh =>
    obtain ⟨leftValue, leftSound⟩ := leftIh binder within
    obtain ⟨rightValue, rightSound⟩ := rightIh binder within
    obtain ⟨same, compared⟩ := equalValues_isSome alike leftSound.typed rightSound.typed
    cases op with
    | eq =>
      refine ⟨.bool same, strict_sound tx ctx rfl leftSound rightSound ?_ trivial ?_⟩
      · simp [strictMeaning, BinOp.arithmetic, BinOp.ordering, compared]
      · simp [strictBinary, valueEq_eq compared]
    | ne =>
      refine ⟨.bool !same, strict_sound tx ctx rfl leftSound rightSound ?_ trivial ?_⟩
      · simp [strictMeaning, BinOp.arithmetic, BinOp.ordering, compared]
      · simp [strictBinary, valueEq_eq compared]
    | or | and | lt | le | gt | ge | add | sub | mul | div | mod => cases isEquality
  | method readable receiver ih =>
    obtain ⟨value, sound⟩ := ih binder within
    obtain ⟨bytes, rfl⟩ := sound.typed.exists_bytes
    exact ⟨_, method_sound tx ctx sound⟩
  | quant inner ih =>
    cases binder with
    | top =>
      exact quant_sound tx ctx fun element member => ih element (elements_domain tx member)
    | input | output => cases within

/-! ## Budgets -/

/-- A node cannot be visited without fuel. -/
theorem visit_spent (sticky : meter.Sticky node) {ev : Ev} (spent : ev.fuel.toInt ≤ 0) :
    (visit node ev).2.exhausted = true := by
  by_cases isExhausted : ev.exhausted = true
  · exact visit_sticky ev isExhausted
  · have charged : (ev.burn 1).exhausted = true := burn_exhausts (by omega)
    have visits : visit node ev = node (ev.burn 1) := by
      simp only [visit, exhausted, bind, StateT.bind, isExhausted]
      rfl
    rw [visits]
    exact sticky _ charged

theorem eval_spent (expr : Expr) (ev : Ev) (spent : ev.fuel.toInt ≤ 0) :
    (eval tx ctx expr ev).2.exhausted = true := by
  match expr with
  | .bool .. | .int .. | .bytes .. | .enum .. => exact visit_spent (.pure _) spent
  | .attr .. => exact visit_spent (attr_sticky tx ctx) spent
  | .unary .not operand _ =>
    exact visit_spent (.bind (asks_sticky tx ctx) fun _ => .pure _) spent
  | .binary _ lhs rhs _ =>
    exact visit_spent (binary_sticky (eval_sticky) (eval_sticky)) spent
  | .method recv call _ => exact visit_spent (method_sticky (eval_sticky)) spent
  | .quant .. => exact visit_spent (quant_sticky tx) spent

end Views

/-- The state an evaluation starts in. -/
def Ev.initial (fuel : I64) : Ev := ⟨fuel, false, none, none, false⟩

/-- What evaluating a well-typed expression with a given budget comes to. -/
theorem evalMetered_spec {expr : Expr} {type : Ty} {tx : TxView} {ctx : Ctx}
    (accepted : typecheck expr = .ok type) :
    ∃ value, meaning tx ctx expr .top = some value ∧ value.HasType type ∧ ∀ fuel : I64,
      ((evalMetered expr tx ctx fuel).fuelExhausted = false ↔
        (work tx ctx expr .top : Int) < fuel.toInt) ∧
      ((work tx ctx expr .top : Int) < fuel.toInt →
        (evalMetered expr tx ctx fuel).value = value ∧
        (evalMetered expr tx ctx fuel).defaulted = false ∧
        (evalMetered expr tx ctx fuel).fuelRemaining.toInt =
          fuel.toInt - work tx ctx expr .top) := by
  obtain ⟨value, sound⟩ := typed_sound tx ctx (check_typed accepted) .top rfl
  refine ⟨value, sound.means, sound.typed, fun fuel => ?_⟩
  have holds : Holds .top (.initial fuel) := ⟨rfl, trivial⟩
  have finishes (enough : (work tx ctx expr .top : Int) < fuel.toInt) :=
    sound.runs.finishes (.initial fuel)
      ⟨rfl, lt_of_le_of_lt (Int.natCast_nonneg _) enough⟩ holds enough
  constructor
  · constructor
    · intro ends
      by_cases positive : 0 < fuel.toInt
      · have live : meter.Live (.initial fuel) := ⟨rfl, positive⟩
        exact sound.runs.enough_of_live live holds ends
      · have spent := eval_spent tx ctx expr (.initial fuel) (not_lt.mp positive)
        exact absurd (ends.symm.trans spent) Bool.false_ne_true
    · intro enough
      exact (finishes enough).2.1.1
  · intro enough
    obtain ⟨answer, live, ended, left⟩ := finishes enough
    refine ⟨answer, ended.1, ?_⟩
    have notNegative : ¬(eval tx ctx expr (.initial fuel)).2.fuel.toInt < 0 := not_lt_of_gt live.2
    change (if (eval tx ctx expr (.initial fuel)).2.fuel.toInt < 0 then .saturate 64 0
      else (eval tx ctx expr (.initial fuel)).2.fuel).toInt = _
    rw [if_neg notNegative]
    exact left

/-- Type soundness: what a well-typed expression evaluates to, if the fuel lasts,
has its type and is its meaning, no default was taken on the way, and more fuel
gives the same. -/
theorem evalMetered_type_sound {expr : Expr} {type : Ty} (tx : TxView) (ctx : Ctx) (fuel : I64)
    (accepted : typecheck expr = .ok type)
    (lasts : (evalMetered expr tx ctx fuel).fuelExhausted = false) :
    (evalMetered expr tx ctx fuel).value.HasType type ∧
    (evalMetered expr tx ctx fuel).defaulted = false ∧
    meaning tx ctx expr .top = some (evalMetered expr tx ctx fuel).value ∧
    ∀ larger : I64, fuel ≤ larger →
      (evalMetered expr tx ctx larger).fuelExhausted = false ∧
      (evalMetered expr tx ctx larger).value = (evalMetered expr tx ctx fuel).value := by
  obtain ⟨value, means, typed, spec⟩ := evalMetered_spec accepted
  have enough := (spec fuel).1.mp lasts
  obtain ⟨answer, noDefault, -⟩ := (spec fuel).2 enough
  rw [answer]
  refine ⟨typed, noDefault, means, fun larger more => ?_⟩
  have still : (work tx ctx expr .top : Int) < larger.toInt := lt_of_lt_of_le enough more
  exact ⟨(spec larger).1.mpr still, ((spec larger).2 still).1⟩

/-! ## A small case -/

def sampleInput : InputView where
  prevoutTxid := List.replicate 32 0x11
  prevoutVout := Signed.saturate 128 1
  sequence := Signed.saturate 128 7
  scriptSig := [0x51, 0x02, 0xaa, 0xbb]
  witnessItems := Signed.saturate 128 0
  witnessSize := Signed.saturate 128 0
  maxWitnessItem := Signed.saturate 128 0
  hasAnnex := false
  prevoutValue := Signed.saturate 128 5_000
  prevoutScriptType := .nonstandard
  prevoutScript := [0x51]
  spendsCoinbase := false
  leafScript := []

def sampleTx (inputs : List InputView) : TxView where
  version := Signed.saturate 128 2
  locktime := Signed.saturate 128 0
  vsize := Signed.saturate 128 100
  weight := Signed.saturate 128 400
  totalWitnessSize := Signed.saturate 128 0
  signalsRbf := true
  txid := List.replicate 32 0x22
  fee := Signed.saturate 128 500
  feeRate := Signed.saturate 128 5_000
  sigopsCost := Signed.saturate 128 0
  source := .p2p
  fromWhitelistedPeer := false
  inputs := inputs
  outputs := []

def sampleCtx : Ctx where
  network := .regtest
  height := Signed.saturate 128 100
  minRelayFee := Signed.saturate 128 1_000
  dustRelayFee := Signed.saturate 128 3_000
  mempoolBytes := Signed.saturate 128 0
  mempoolMinFee := Signed.saturate 128 1_000

/-- `any inputs (in.script_sig.count_op(OP_1) > 0 and not in.has_annex)` -/
def sampleExpr : Expr :=
  .quant .any .inputs
    (.binary .and
      (.binary .gt (.method (.attr .input "script_sig" ⟨12, 25⟩) (.countOp 0x51) ⟨12, 40⟩)
        (.int (Signed.saturate 128 0) ⟨43, 44⟩) ⟨12, 44⟩)
      (.unary .not (.attr .input "has_annex" ⟨53, 65⟩) ⟨49, 65⟩) ⟨12, 65⟩) ⟨0, 66⟩

theorem evalMetered_type_sound_sample :
    let outcome := evalMetered sampleExpr (sampleTx [sampleInput, sampleInput]) sampleCtx
      (.saturate 64 50)
    typecheck sampleExpr = .ok .bool ∧ outcome.fuelExhausted = false ∧
      outcome.value.HasType .bool ∧ outcome.defaulted = false ∧
      meaning (sampleTx [sampleInput, sampleInput]) sampleCtx sampleExpr .top =
        some outcome.value := by
  have accepted : typecheck sampleExpr = .ok .bool := rfl
  have lasts : (evalMetered sampleExpr (sampleTx [sampleInput, sampleInput]) sampleCtx
      (.saturate 64 50)).fuelExhausted = false := by decide +kernel
  obtain ⟨typed, noDefault, means, -⟩ := evalMetered_type_sound _ _ _ accepted lasts
  exact ⟨accepted, lasts, typed, noDefault, means⟩

end Satd.Policy
