import Satd.Policy.Meaning
import Satd.Lib.Metered

/-!
# What each construct of the evaluator does

The evaluator as a metered computation: for every construct, the value it answers
from well-typed parts, what it pays, and that it takes no default. Once the fuel is
gone, nothing brings the evaluator back.
-/

namespace Satd.Policy

open Rust Metered Option
open Satd.Consensus (Bytes)

/-! ## The evaluator as a metered computation -/

def meter : Meter Ev := ⟨fun ev => ev.fuel.toInt, Ev.exhausted⟩

/-- No default was taken so far, and the element is bound. -/
def Holds (binder : Binder) (ev : Ev) : Prop :=
  ev.defaulted = false ∧
    match binder with
    | .top => True
    | .input input => ev.curIn = some input
    | .output output => ev.curOut = some output

variable {binder : Binder} {ev : Ev} {value : Value} {op : BinOp} {field : String} {type : Ty}

theorem Holds.top (holds : Holds binder ev) : Holds .top ev := ⟨holds.1, trivial⟩

theorem burn_sticky {amount : Nat} : meter.Sticky (burn amount) := by
  intro ev isExhausted
  change ev.exhausted = true at isExhausted
  change (Ev.burn amount ev).exhausted = true
  simp [Ev.burn, isExhausted]

theorem byDefault_sticky {α : Type} {value : α} : meter.Sticky (byDefault value) :=
  fun _ isExhausted => isExhausted

theorem exhausted_sticky : meter.Sticky exhausted := fun _ isExhausted => isExhausted

theorem asBool_sticky (value : Value) : meter.Sticky (asBool value) := by
  cases value <;> exact fun _ isExhausted => isExhausted

theorem asInt_sticky {value : Value} : meter.Sticky (asInt value) := by
  cases value <;> exact fun _ isExhausted => isExhausted

variable {left right : Value} {bytes : Bytes} {call : MethodCall} {node : Eval Value} {amount : Nat}
    {operation : I128 → I128 → I128} {relation : I128 → I128 → Bool}

theorem valueEq_sticky : meter.Sticky (valueEq left right) := by
  cases left <;> cases right <;> exact fun _ isExhausted => isExhausted

theorem strictBinary_sticky (op : BinOp) (left right : Value) :
    meter.Sticky (strictBinary op left right) := by
  have onInts (operation) : meter.Sticky (onInts operation left right) :=
    .bind (asInt_sticky) fun _ => .bind (asInt_sticky) fun _ => .pure _
  cases op with
  | eq | ne => exact .bind (valueEq_sticky) fun _ => .pure _
  | and | or => exact byDefault_sticky
  | lt | le | gt | ge | add | sub | mul | div | mod => exact onInts _

theorem tokens_sticky {script : Bytes} : meter.Sticky (tokens script) :=
  .bind (burn_sticky) fun _ => .bind exhausted_sticky fun _ => .ite (.pure _) (.pure _)

theorem callOn_sticky : meter.Sticky (callOn bytes call) := by
  cases call with
  | len => exact .pure _
  | startsWith | endsWith => exact .bind (burn_sticky) fun _ => .pure _
  | contains | wellFormed =>
    exact .bind (burn_sticky) fun _ => .bind exhausted_sticky fun _ => .ite (.pure _) (.pure _)
  | countOp | maxPush => exact .bind (tokens_sticky) fun _ => .pure _
  | containsOps =>
    exact .bind (tokens_sticky) fun _ => .bind (burn_sticky) fun _ =>
      .bind exhausted_sticky fun _ => .ite (.pure _) (.pure _)

/-- Nothing is done at a node once the fuel is gone. -/
theorem visit_sticky : meter.Sticky (visit node) := by
  intro ev isExhausted
  change ev.exhausted = true at isExhausted
  change (visit node ev).2.exhausted = true
  simp [visit, exhausted, bind, StateT.bind, pure, isExhausted]
  exact isExhausted

theorem eval_sticky {tx : TxView} {ctx : Ctx} {expr : Expr} : meter.Sticky (eval tx ctx expr) := by
  match expr with
  | .bool .. | .int .. | .bytes .. | .enum .. | .attr .. | .unary .not .. | .binary .. | .method ..
  | .quant .. => exact visit_sticky

/-! ## Fuel -/

/-- A charge below the stock is paid exactly. -/
theorem burn_fuel (enough : (amount : Int) < ev.fuel.toInt) :
    (ev.burn amount).fuel.toInt = ev.fuel.toInt - amount := by
  have upper := ev.fuel.upper
  have charge : (Signed.saturate 64 amount).toInt = amount :=
    Signed.saturate_of_fits (by omega) (by omega)
  simp only [Ev.burn, Signed.saturatingSub, charge]
  exact Signed.saturate_of_fits (by omega) (by omega)

/-- A charge of the whole stock or more leaves nothing. -/
theorem burn_exhausts (short : ev.fuel.toInt ≤ amount) : (ev.burn amount).exhausted = true := by
  have upper := ev.fuel.upper
  have charge : ev.fuel.toInt ≤ (Signed.saturate 64 amount).toInt := by
    simp only [Signed.saturate]
    omega
  have gone : (ev.burn amount).fuel.toInt ≤ 0 := by
    simp only [Ev.burn, Signed.saturatingSub, Signed.saturate] at charge ⊢
    omega
  have flag : (ev.burn amount).exhausted =
      (ev.exhausted || decide ((ev.burn amount).fuel.toInt ≤ 0)) := rfl
  simp [flag, gone]

theorem burn_triple {binder : Binder} {amount : Nat} :
    meter.Triple (Holds binder) (burn amount) () amount (Holds binder) where
  finishes ev live holds enough := by
    have left := burn_fuel enough
    have notExhausted : ev.exhausted = false := live.1
    have flag : (ev.burn amount).exhausted =
        (ev.exhausted || decide ((ev.burn amount).fuel.toInt ≤ 0)) := rfl
    have positive : (0 : Int) < ev.fuel.toInt - amount := by
      change (amount : Int) < ev.fuel.toInt at enough
      omega
    refine ⟨rfl, ⟨?_, ?_⟩, holds, left⟩
    · change (ev.burn amount).exhausted = false
      rw [flag, notExhausted, left]
      simpa using positive
    · change 0 < (ev.burn amount).fuel.toInt
      rw [left]
      exact positive
  exhausts ev _ _ short := burn_exhausts short

/-- With fuel left, the flag reads `false`. -/
theorem exhausted_triple {pre : Ev → Prop} : meter.Triple pre exhausted false 0 pre where
  finishes ev live holds _ := ⟨live.1, live, holds, (Int.sub_zero _).symm⟩
  exhausts ev live _ spent := by
    have positive := live.2
    omega

/-- A charge followed by an answer that is only looked for while fuel is left. -/
theorem burn_then_triple (binder : Binder) {α : Type} (amount : Nat) (otherwise value : α) :
    meter.Triple (Holds binder)
      (do
        burn amount
        if ← exhausted then pure otherwise else pure value)
      value amount (Holds binder) :=
  .bind_free (burn_triple)
    (.bind_free exhausted_triple (.pure value) fun _ => .ite (.pure _) (.pure _))
    fun _ => .bind exhausted_sticky fun _ => .ite (.pure _) (.pure _)

theorem visit_triple {post : Ev → Prop} {work : Nat}
    (triple : meter.Triple (Holds binder) node value work post) (sticky : meter.Sticky node) :
    meter.Triple (Holds binder) (visit node) value (1 + work) post := by
  have inner : meter.Triple (Holds binder) (do burn 1; node) value (1 + work) post :=
    .bind (burn_triple) triple fun _ => sticky
  have paid : meter.Triple (Holds binder) (visit node) value (0 + (1 + work)) post :=
    .bind exhausted_triple inner fun _ => .ite (.pure _) (.bind (burn_sticky) fun _ => sticky)
  rwa [zero_add] at paid

/-! ## Methods -/

theorem needle_at_start (haystack needle : Bytes) :
    needle.isPrefixOf haystack = decide (needle <+: haystack) := by
  rw [Bool.eq_iff_iff, List.isPrefixOf_iff_prefix, decide_eq_true_iff]

theorem needle_at_end (haystack needle : Bytes) :
    needle.isSuffixOf haystack = decide (needle <:+ haystack) := by
  rw [Bool.eq_iff_iff, List.isSuffixOf_iff_suffix, decide_eq_true_iff]

/-- The substring scan finds the needle exactly when it is there. -/
theorem containsSubslice_eq (haystack needle : Bytes) :
    containsSubslice haystack needle = decide (needle <:+: haystack) := by
  rw [Bool.eq_iff_iff, decide_eq_true_iff]
  unfold containsSubslice
  split_ifs with empty long
  · rw [List.isEmpty_iff] at empty
    subst empty
    simp
  · refine iff_of_false (by simp) fun isInfix => ?_
    have bound := isInfix.length_le
    omega
  · rw [List.any_eq_true]
    constructor
    · rintro ⟨start, -, same⟩
      rw [beq_iff_eq] at same
      rw [← same]
      exact (List.take_prefix _ _).isInfix.trans (List.drop_suffix _ _).isInfix
    · rintro ⟨before, after, rfl⟩
      refine ⟨before.length, ?_, ?_⟩
      · simp only [List.mem_range, List.length_append]
        omega
      · simp [List.append_assoc]

theorem tokens_triple (binder : Binder) (script : Bytes) :
    meter.Triple (Holds binder) (tokens script) (tokenize script).tokens script.length
      (Holds binder) :=
  burn_then_triple binder script.length [] (tokenize script).tokens

theorem callOn_triple {binder : Binder} :
    meter.Triple (Holds binder) (callOn bytes call) (callMeaning bytes call) (callWork bytes call)
      (Holds binder) := by
  cases call with
  | len => exact .pure _
  | startsWith needle =>
    simp only [callMeaning, ← needle_at_start]
    exact .bind_free (burn_triple) (.pure _) fun _ => .pure _
  | endsWith needle =>
    simp only [callMeaning, ← needle_at_end]
    exact .bind_free (burn_triple) (.pure _) fun _ => .pure _
  | contains needle =>
    simp only [callMeaning, ← containsSubslice_eq]
    exact burn_then_triple binder _ _ _
  | countOp | maxPush =>
    exact .bind_free (tokens_triple binder bytes) (.pure _) fun _ => .pure _
  | wellFormed => exact burn_then_triple binder _ _ _
  | containsOps pattern =>
    exact .bind (tokens_triple binder bytes) (burn_then_triple binder _ _ _) fun _ =>
      .bind (burn_sticky) fun _ => .bind exhausted_sticky fun _ => .ite (.pure _) (.pure _)

theorem method_sticky {recv : Eval Value} (sticky : meter.Sticky recv) :
    meter.Sticky (method recv call) := by
  refine .bind sticky fun value => ?_
  cases value with
  | bytes bytes => exact callOn_sticky
  | bool | int | enum => exact byDefault_sticky

/-! ## Operators -/

theorem Value.HasType.exists_bool (typed : value.HasType .bool) :
    ∃ answer, value = .bool answer := by
  cases value with
  | bool answer => exact ⟨answer, rfl⟩
  | int | bytes | enum => cases typed

theorem Value.HasType.exists_int (typed : value.HasType .int) : ∃ amount, value = .int amount := by
  cases value with
  | int amount => exact ⟨amount, rfl⟩
  | bool | bytes | enum => cases typed

theorem Value.HasType.exists_bytes {script : Bool} (typed : value.HasType (.bytes script)) :
    ∃ bytes, value = .bytes bytes := by
  cases value with
  | bytes bytes => exact ⟨bytes, rfl⟩
  | bool | int | enum => cases typed

/-- Division that saturates where it overflows, and is zero for a zero divisor. -/
theorem checkedDiv_eq (left right : I128) :
    checkedDiv left right =
      Signed.saturate 128 (if right.toInt = 0 then 0 else left.toInt.tdiv right.toInt) := by
  unfold checkedDiv Signed.checkedDiv
  split_ifs with zero
  · rfl
  · have size := Int.natAbs_tdiv_le_natAbs left.toInt right.toInt
    have lower := left.lower
    have upper := left.upper
    simp only [Signed.exact]
    split_ifs with fits
    · exact Signed.ext (Signed.saturate_of_fits fits.1 fits.2).symm
    · -- the quotient is the one number just above the type
      apply Signed.ext
      simp only [getD_none, Signed.greatest, Signed.saturate]
      omega

/-- The only quotient that overflows leaves no remainder. -/
theorem tmod_of_overflow {left right : I128} (zero : right.toInt ≠ 0)
    (overflows : Signed.exact 128 (left.toInt.tdiv right.toInt) = none) :
    left.toInt.tmod right.toInt = 0 := by
  have quotient : (left.toInt.tdiv right.toInt).natAbs = left.toInt.natAbs / right.toInt.natAbs :=
    Int.natAbs_tdiv _ _
  have lower := left.lower
  have upper := left.upper
  have outside : 2 ^ 127 ≤ (left.toInt.tdiv right.toInt).natAbs := by
    simp only [Signed.exact] at overflows
    split_ifs at overflows with fits
    omega
  have small : right.toInt.natAbs < 2 := by
    by_contra large
    have half : left.toInt.natAbs / right.toInt.natAbs ≤ left.toInt.natAbs / 2 :=
      Nat.div_le_div_left (by omega) (by decide)
    omega
  have unit : right.toInt.natAbs = 1 := by omega
  have remainder := Int.natAbs_tmod left.toInt right.toInt
  rw [unit, Nat.mod_one] at remainder
  omega

/-- The remainder fits wherever it is defined. -/
theorem checkedRem_eq (left right : I128) :
    checkedRem left right =
      Signed.saturate 128 (if right.toInt = 0 then 0 else left.toInt.tmod right.toInt) := by
  unfold checkedRem Signed.checkedRem Signed.checkedDiv
  split_ifs with zero quotient
  · rfl
  · have remainder := Int.natAbs_tmod left.toInt right.toInt
    have less : left.toInt.natAbs % right.toInt.natAbs < right.toInt.natAbs :=
      Nat.mod_lt _ (by omega)
    have lower := right.lower
    have upper := right.upper
    simp only [Signed.exact]
    split_ifs with fits
    · exact Signed.ext (Signed.saturate_of_fits fits.1 fits.2).symm
    · omega
  · rw [tmod_of_overflow zero (not_isSome_iff_eq_none.mp quotient)]
    rfl

theorem strictBinary_arithmetic (computes : op.arithmetic = some operation) {left right : I128} :
    strictBinary op (.int left) (.int right) = pure (.int (operation left right)) := by
  cases op with
  | add | sub | mul => cases computes; rfl
  | div =>
    cases computes
    simp only [← checkedDiv_eq]
    rfl
  | mod =>
    cases computes
    simp only [← checkedRem_eq]
    rfl
  | or | and | eq | ne | lt | le | gt | ge => cases computes

theorem strictBinary_ordering (decides : op.ordering = some relation) {left right : I128} :
    strictBinary op (.int left) (.int right) = pure (.bool (relation left right)) := by
  cases op with
  | lt | le | gt | ge => cases decides; rfl
  | or | and | eq | ne | add | sub | mul | div | mod => cases decides

theorem valueEq_eq {same : Bool} (alike : equalValues left right = some same) :
    valueEq left right = pure same := by
  cases left <;> cases right <;> simp only [equalValues, some.injEq, reduceCtorEq] at alike
  all_goals
    subst alike
    simp only [valueEq, beq_eq_decide]

/-- Values of comparable types can be compared. -/
theorem equalValues_isSome {leftType rightType : Ty} (alike : comparable leftType rightType = true)
    (leftTyped : left.HasType leftType) (rightTyped : right.HasType rightType) :
    ∃ same, equalValues left right = some same := by
  cases left <;> cases leftType <;> simp only [Value.HasType] at leftTyped <;>
    cases right <;> cases rightType <;> simp only [Value.HasType] at rightTyped <;>
    simp only [comparable, Bool.false_eq_true] at alike
  all_goals exact ⟨_, rfl⟩

/-- Both sides of an operator that does not decide early. -/
theorem binary_strict (strict : op.isLogical = false) (lhs rhs : Eval Value) :
    binary op lhs rhs = (do
      let left ← lhs
      let right ← rhs
      strictBinary op left right) := by
  cases op <;> first | rfl | cases strict

theorem binaryMeaning_strict (strict : op.isLogical = false) (left right : Value) :
    binaryMeaning op (some left) (some right) = strictMeaning op left right := by
  cases op <;> first | rfl | cases strict

theorem settledBy_strict (strict : op.isLogical = false) (left : Option Value) :
    op.settledBy left = false := by
  cases op <;> first | rfl | cases strict

theorem arithmetic_strict (computes : op.arithmetic = some operation) : op.isLogical = false := by
  cases op <;> first | rfl | cases computes

theorem ordering_strict (decides : op.ordering = some relation) :
    op.isLogical = false ∧ op.arithmetic = none := by
  cases op <;> first | exact ⟨rfl, rfl⟩ | cases decides

theorem binary_sticky {lhs rhs : Eval Value} (left : meter.Sticky lhs) (right : meter.Sticky rhs) :
    meter.Sticky (binary op lhs rhs) := by
  have asked {operand : Eval Value} (sticky : meter.Sticky operand) :
      meter.Sticky (operand >>= asBool) := .bind sticky asBool_sticky
  have answered : meter.Sticky (do let value ← rhs >>= asBool; pure (Value.bool value)) :=
    .bind (asked right) fun _ => .pure _
  cases logical : op.isLogical with
  | false =>
    rw [binary_strict logical]
    exact .bind left fun _ => .bind right fun _ => strictBinary_sticky _ _ _
  | true =>
    cases op with
    | or => exact .bind (asked left) fun _ => .ite (.pure _) answered
    | and => exact .bind (asked left) fun _ => .ite answered (.pure _)
    | eq | ne | lt | le | gt | ge | add | sub | mul | div | mod => cases logical

/-! ## Attributes -/

/-- Every entry of a table of types has a value of that type in the table of
values. -/
theorem txAttr_typed {tx : TxView} (known : txAttrType field = some type) :
    ∃ value, txAttr tx field = some value ∧ value.HasType type := by
  unfold txAttrType at known
  split at known <;> cases known <;> exact ⟨_, rfl, by trivial⟩

theorem nodeAttr_typed {ctx : Ctx} (known : nodeAttrType field = some type) :
    ∃ value, nodeAttr ctx field = some value ∧ value.HasType type := by
  unfold nodeAttrType at known
  split at known <;> cases known <;> exact ⟨_, rfl, by trivial⟩

theorem inAttr_typed {input : InputView} (known : inAttrType field = some type) :
    ∃ value, inAttr input field = some value ∧ value.HasType type := by
  unfold inAttrType at known
  split at known <;> cases known <;> exact ⟨_, rfl, by trivial⟩

theorem outAttr_typed {output : OutputView} (known : outAttrType field = some type) :
    ∃ value, outAttr output field = some value ∧ value.HasType type := by
  unfold outAttrType at known
  split at known <;> cases known <;> exact ⟨_, rfl, by trivial⟩

section Views

variable (tx : TxView) (ctx : Ctx)

variable {found : Option Value} {element : Binder} {tally : Tally} {bodyWork : Binder → Nat}

theorem orDefault_triple (known : found = some value) :
    meter.Triple (Holds binder) (orDefault found) value 0 (Holds binder) := by
  rw [known]
  exact .pure value

theorem orDefault_sticky : meter.Sticky (orDefault found) := by
  cases found <;> exact fun _ isExhausted => isExhausted

theorem attr_sticky {root : Root} {field : String} : meter.Sticky (attr tx ctx root field) := by
  cases root with
  | tx | node => exact orDefault_sticky
  | input | output => exact fun ev => orDefault_sticky ev

/-- An attribute that the checker accepts is found, with its type. -/
theorem attr_sound {root : Root} (bound : root.Bound binder.domain)
    (known : attrTable root field = some type) :
    ∃ value, attrMeaning tx ctx binder root field = some value ∧ value.HasType type ∧
      meter.Triple (Holds binder) (attr tx ctx root field) value 0 (Holds binder) := by
  cases root with
  | tx =>
    obtain ⟨value, found, typed⟩ := txAttr_typed known
    exact ⟨value, found, typed, orDefault_triple found⟩
  | node =>
    obtain ⟨value, found, typed⟩ := nodeAttr_typed known
    exact ⟨value, found, typed, orDefault_triple found⟩
  | input =>
    cases binder with
    | top | output => cases bound
    | input input =>
      obtain ⟨value, found, typed⟩ := inAttr_typed known
      refine ⟨value, found, typed, (orDefault_triple found).congr fun ev holds => ?_⟩
      simp only [attr, holds.2, bind_some]
  | output =>
    cases binder with
    | top | input => cases bound
    | output output =>
      obtain ⟨value, found, typed⟩ := outAttr_typed known
      refine ⟨value, found, typed, (orDefault_triple found).congr fun ev holds => ?_⟩
      simp only [attr, holds.2, bind_some]

/-! ## Quantifiers -/

/-- How an element is bound. -/
def Binder.enter : Binder → Ev → Ev
  | .top, ev => ev
  | .input view, ev => { ev with curIn := some view }
  | .output view, ev => { ev with curOut := some view }

variable {domain : Domain} {kind : QuantKind} {body : Eval Value} {values : List Value}

theorem elements_domain (member : element ∈ elements tx domain) : element.domain = some domain := by
  cases domain with
  | inputs | outputs =>
    obtain ⟨view, -, rfl⟩ := List.mem_map.mp member
    rfl

theorem binders_eq (domain : Domain) : binders tx domain =
    (elements tx domain).map Binder.enter := by
  cases domain with
  | inputs | outputs =>
    simp only [binders, elements, List.map_map]
    rfl

theorem enter_triple {binder : Binder} :
    meter.Triple (Holds .top) (modify binder.enter) () 0 (Holds binder) := by
  cases binder <;> exact .modify (fun _ => rfl) (fun _ => rfl) fun _ holds => ⟨holds.1, by trivial⟩

/-- The accumulators after an element with the given value; `true` ends the loop. -/
def Tally.entered (tally : Tally) : QuantKind → Value → Tally × Bool
  | .any, .bool holds => if holds then ({ tally with any := true }, true) else (tally, false)
  | .all, .bool holds => if holds then (tally, false) else ({ tally with all := false }, true)
  | .count, .bool holds =>
    (if holds then { tally with count := tally.count.saturatingAdd (Signed.saturate 128 1) }
      else tally, false)
  | .sum, .int amount => ({ tally with sum := tally.sum.saturatingAdd amount }, false)
  | _, _ => (tally, false)

/-- The accumulators after elements with the given values. -/
def Tally.run (kind : QuantKind) : List Value → Tally → Tally
  | [], tally => tally
  | value :: rest, tally =>
    if kind.settledBy (some value) then (tally.entered kind value).1
    else Tally.run kind rest (tally.entered kind value).1

/-- The loop ends early exactly when the element settles the quantifier. -/
theorem enter_eq {tally : Tally} (typed : value.HasType kind.bodyType) :
    tally.enter kind value = pure (tally.entered kind value) ∧
      (tally.entered kind value).2 = kind.settledBy (some value) := by
  cases kind with
  | any | all | count =>
    obtain ⟨holds, rfl⟩ := typed.exists_bool
    cases holds <;> exact ⟨rfl, rfl⟩
  | sum =>
    obtain ⟨amount, rfl⟩ := typed.exists_int
    exact ⟨rfl, rfl⟩

theorem tallyEnter_sticky {kind : QuantKind} {value : Value} :
    meter.Sticky (tally.enter kind value) := by
  cases kind with
  | any | all | count => exact .bind (asBool_sticky value) fun _ => .pure _
  | sum => exact .bind (asInt_sticky) fun _ => .pure _

theorem quantLoop_sticky {kind : QuantKind} {body : Eval Value} {bindings : List (Ev → Ev)} :
    meter.Sticky (quantLoop kind body bindings tally) := by
  cases bindings with
  | nil => exact .pure tally
  | cons binding rest =>
    intro ev isExhausted
    change ev.exhausted = true at isExhausted
    change (quantLoop kind body (binding :: rest) tally ev).2.exhausted = true
    simp [quantLoop, exhausted, bind, StateT.bind, pure, isExhausted]
    exact isExhausted

theorem enter_sticky {binder : Binder} : meter.Sticky (modify binder.enter : Eval Unit) := by
  cases binder <;> exact fun _ isExhausted => isExhausted

/-- What the loop does with the value of an element. -/
def afterValue (kind : QuantKind) (body : Eval Value) (rest : List (Ev → Ev)) (tally : Tally)
    (value : Value) : Eval Tally := do
  let (entered, stop) ← tally.enter kind value
  if stop then pure entered else quantLoop kind body rest entered

theorem quantLoop_cons (kind : QuantKind) (body : Eval Value) (binding : Ev → Ev)
    (rest : List (Ev → Ev)) (tally : Tally) :
    quantLoop kind body (binding :: rest) tally = (do
      if ← exhausted then pure tally
      else do
        burn 1
        modify binding
        let value ← body
        afterValue kind body rest tally value) :=
  rfl

theorem afterValue_sticky {kind : QuantKind} {body : Eval Value} {rest : List (Ev → Ev)}
    {tally : Tally} (value : Value) : meter.Sticky (afterValue kind body rest tally value) :=
  .bind (tallyEnter_sticky) fun _ => .ite (.pure _) (quantLoop_sticky)

theorem afterValue_eq {kind : QuantKind} (body : Eval Value) (rest : List (Ev → Ev)) (tally : Tally)
    (typed : value.HasType kind.bodyType) :
    afterValue kind body rest tally value =
      if kind.settledBy (some value) then pure (tally.entered kind value).1
      else quantLoop kind body rest (tally.entered kind value).1 := by
  obtain ⟨entered, stops⟩ := @enter_eq _ _ tally typed
  rw [← stops, afterValue, entered]
  rfl

/-- One element: a unit of fuel, its body, and what follows. -/
theorem element_triple {rest : List (Ev → Ev)} {bodyWork more : Nat} {result : Tally}
    (sticky : meter.Sticky body)
    (runs : meter.Triple (Holds element) body value bodyWork (Holds element))
    (goesOn : meter.Triple (Holds element) (afterValue kind body rest tally value) result more
      (Holds .top)) :
    meter.Triple (Holds .top) (quantLoop kind body (element.enter :: rest) tally) result
      (1 + bodyWork + more) (Holds .top) := by
  have evaluated : meter.Triple (Holds element) (body >>= afterValue kind body rest tally) result
      (bodyWork + more) (Holds .top) :=
    .bind runs goesOn (afterValue_sticky)
  have evaluatedSticky : meter.Sticky (body >>= afterValue kind body rest tally) :=
    .bind sticky (afterValue_sticky)
  have entered : meter.Triple (Holds .top)
      (do modify element.enter; body >>= afterValue kind body rest tally) result
      (0 + (bodyWork + more)) (Holds .top) :=
    .bind (enter_triple) evaluated fun _ => evaluatedSticky
  have enteredSticky : meter.Sticky
      (do modify element.enter; body >>= afterValue kind body rest tally) :=
    .bind (enter_sticky) fun _ => evaluatedSticky
  have paid : meter.Triple (Holds .top) (quantLoop kind body (element.enter :: rest) tally) result
      (0 + (1 + (0 + (bodyWork + more)))) (Holds .top) := by
    rw [quantLoop_cons]
    exact .bind exhausted_triple (.bind (burn_triple) entered fun _ => enteredSticky)
      fun _ => .ite (.pure _) (.bind (burn_sticky) fun _ => enteredSticky)
  have total : 0 + (1 + (0 + (bodyWork + more))) = 1 + bodyWork + more := by omega
  rwa [total] at paid

/-- The loop visits the elements up to the first that settles the quantifier, and
pays one unit and the body for each. -/
theorem quantLoop_triple {value : Binder → Value} {bound : List Binder} (sticky : meter.Sticky body)
    (typed : ∀ element ∈ bound, (value element).HasType kind.bodyType)
    (runs : ∀ element ∈ bound,
      meter.Triple (Holds element) body (value element) (bodyWork element) (Holds element))
    (tally : Tally) :
    meter.Triple (Holds .top) (quantLoop kind body (bound.map Binder.enter) tally)
      (Tally.run kind (bound.map value) tally)
      ((visited (fun element => kind.settledBy (some (value element))) bound).map
        fun element => 1 + bodyWork element).sum (Holds .top) := by
  induction bound generalizing tally with
  | nil => exact .pure tally
  | cons element rest ih =>
    have elementTyped := typed element List.mem_cons_self
    have follows := afterValue_eq body (rest.map Binder.enter) tally elementTyped
    have elementRuns := runs element List.mem_cons_self
    simp only [List.map_cons, visited, Tally.run]
    by_cases settled : kind.settledBy (some (value element)) = true
    · rw [if_pos settled] at follows
      have goesOn : meter.Triple (Holds element)
          (afterValue kind body (rest.map Binder.enter) tally (value element))
          (tally.entered kind (value element)).1 0 (Holds .top) := by
        rw [follows]
        exact (Meter.Triple.pure _).consequence (fun _ holds => holds) fun _ => .top
      have paid := element_triple sticky elementRuns goesOn
      simpa [settled] using paid
    · rw [if_neg settled] at follows
      have later := ih
        (fun other member => typed other (List.mem_cons_of_mem _ member))
        (fun other member => runs other (List.mem_cons_of_mem _ member))
        (tally.entered kind (value element)).1
      have goesOn := later.consequence (fun _ (holds : Holds element _) => holds.top)
        fun _ holds => holds
      rw [← follows] at goesOn
      have paid := element_triple sticky elementRuns goesOn
      simpa [settled] using paid

/-! ### The accumulators -/

theorem run_any (answers : List Bool) (tally : Tally) :
    (Tally.run .any (answers.map .bool) tally).any = (tally.any || answers.any id) := by
  induction answers generalizing tally with
  | nil => simp [Tally.run]
  | cons answer rest ih =>
    cases answer <;> simp [Tally.run, Tally.entered, QuantKind.settledBy, ih]

theorem run_all (answers : List Bool) (tally : Tally) :
    (Tally.run .all (answers.map .bool) tally).all = (tally.all && answers.all id) := by
  induction answers generalizing tally with
  | nil => simp [Tally.run]
  | cons answer rest ih =>
    cases answer <;> simp [Tally.run, Tally.entered, QuantKind.settledBy, ih]

theorem run_count (answers : List Bool) (tally : Tally) (before : Nat)
    (counted : tally.count = I128.ofLength before) :
    (Tally.run .count (answers.map .bool) tally).count =
      I128.ofLength (before + answers.count true) := by
  induction answers generalizing tally before with
  | nil => simpa [Tally.run] using counted
  | cons answer rest ih =>
    cases answer with
    | false =>
      simpa [Tally.run, Tally.entered, QuantKind.settledBy] using ih tally before counted
    | true =>
      have next : tally.count.saturatingAdd (.saturate 128 1) = I128.ofLength (before + 1) := by
        rw [counted]
        exact Signed.saturatingAdd_one
      have later := ih { tally with count := I128.ofLength (before + 1) } (before + 1) rfl
      have total : before + 1 + rest.count true = before + (true :: rest).count true := by
        rw [List.count_cons_self]
        omega
      rw [total] at later
      simpa [Tally.run, Tally.entered, QuantKind.settledBy, next] using later

theorem run_sum (amounts : List I128) (tally : Tally) :
    (Tally.run .sum (amounts.map .int) tally).sum =
      amounts.foldl Signed.saturatingAdd tally.sum := by
  induction amounts generalizing tally with
  | nil => simp [Tally.run]
  | cons amount rest ih =>
    simp [Tally.run, Tally.entered, QuantKind.settledBy, ih]

theorem exists_bools (typed : ∀ value ∈ values, value.HasType .bool) :
    values ∈ Set.range (List.map Value.bool) := by
  rw [Set.range_list_map]
  intro value member
  obtain ⟨answer, rfl⟩ := (typed value member).exists_bool
  exact ⟨answer, rfl⟩

theorem exists_ints (typed : ∀ value ∈ values, value.HasType .int) :
    values ∈ Set.range (List.map Value.int) := by
  rw [Set.range_list_map]
  intro value member
  obtain ⟨amount, rfl⟩ := (typed value member).exists_int
  exact ⟨amount, rfl⟩

/-- Reading back the values a list was built from. -/
theorem mapM_read {α : Type} (write : α → Value) (read : Value → Option α)
    (inverse : ∀ item, read (write item) = some item) (items : List α) :
    (items.map write).mapM read = some items := by
  induction items with
  | nil => rfl
  | cons item rest ih =>
    simp [List.mapM_cons, inverse, ih]

/-- The accumulators of the loop say what the quantifier says about all the
elements. -/
theorem quantMeaning_eq (typed : ∀ value ∈ values, value.HasType kind.bodyType) :
    quantMeaning kind values = some ((Tally.run kind values Tally.start).result kind) := by
  have readBools (answers : List Bool) : (answers.map Value.bool).mapM Value.bool? = some answers :=
    mapM_read Value.bool Value.bool? (fun _ => rfl) answers
  have readInts (amounts : List I128) : (amounts.map Value.int).mapM Value.int? = some amounts :=
    mapM_read Value.int Value.int? (fun _ => rfl) amounts
  cases kind with
  | any =>
    obtain ⟨answers, rfl⟩ := exists_bools typed
    simp only [quantMeaning, readBools, map_some, Tally.result, run_any, Tally.start, Bool.false_or]
  | all =>
    obtain ⟨answers, rfl⟩ := exists_bools typed
    simp only [quantMeaning, readBools, map_some, Tally.result, run_all, Tally.start, Bool.true_and]
  | count =>
    obtain ⟨answers, rfl⟩ := exists_bools typed
    have counted := run_count answers .start 0 rfl
    rw [zero_add] at counted
    simp only [quantMeaning, readBools, map_some, Tally.result, counted]
  | sum =>
    obtain ⟨amounts, rfl⟩ := exists_ints typed
    simp only [quantMeaning, readInts, map_some, Tally.result, run_sum, Tally.start]

/-- Visited elements do not depend on how the settling ones are recognised. -/
theorem visited_congr {α : Type} {first second : α → Bool} {items : List α}
    (same : ∀ item ∈ items, first item = second item) :
    visited first items = visited second items := by
  induction items with
  | nil => rfl
  | cons item rest ih =>
    rw [visited, visited, same item List.mem_cons_self,
      ih fun other member => same other (List.mem_cons_of_mem _ member)]

theorem quant_sticky : meter.Sticky (quant tx kind domain body) :=
  .bind (quantLoop_sticky) fun _ =>
    .bind (fun _ isExhausted => isExhausted) fun _ => .pure _

/-- A quantifier over a body that answers for every element. -/
theorem quant_triple {value : Binder → Value} (sticky : meter.Sticky body)
    (typed : ∀ element ∈ elements tx domain, (value element).HasType kind.bodyType)
    (runs : ∀ element ∈ elements tx domain,
      meter.Triple (Holds element) body (value element) (bodyWork element) (Holds element)) :
    meter.Triple (Holds .top) (quant tx kind domain body)
      ((Tally.run kind ((elements tx domain).map value) Tally.start).result kind)
      ((visited (fun element => kind.settledBy (some (value element))) (elements tx domain)).map
        fun element => 1 + bodyWork element).sum (Holds .top) := by
  have loop := quantLoop_triple sticky typed runs .start
  rw [← binders_eq] at loop
  have cleared : meter.Triple (Holds .top)
      (modify fun ev : Ev => { ev with curIn := none, curOut := none }) () 0 (Holds .top) :=
    .modify (fun _ => rfl) (fun _ => rfl) fun _ holds => ⟨holds.1, trivial⟩
  exact .bind_free loop (.bind_free cleared (.pure _) fun _ => .pure _) fun _ =>
    .bind (fun _ isExhausted => isExhausted) fun _ => .pure _

end Views

end Satd.Policy
