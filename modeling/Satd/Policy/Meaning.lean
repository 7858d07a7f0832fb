import Satd.Policy.Typeck
import Satd.Policy.Eval

/-!
# What an expression means

Two readings of an expression that know nothing of fuel, of the order of
evaluation or of a default. `Typed` says which expressions have which type.
`meaning` gives the value of an expression, and nothing where it has none: an
unknown attribute, an attribute of an element outside its quantifier, an operand
of the wrong kind. A quantifier is a statement about all the elements of its
domain. `work` is the fuel that finding the value takes.
-/

namespace Satd.Policy

open Rust
open Satd.Consensus (Bytes)

/-! ## Types -/

def Value.HasType : Value → Ty → Prop
  | .bool _, .bool => True
  | .int _, .int => True
  | .bytes _, .bytes _ => True
  | .enum value, .enum kind => value.kind = kind
  | _, _ => False

/-- The element a quantifier has bound, if any. -/
inductive Binder where
  | top
  | input (input : InputView)
  | output (output : OutputView)

def Binder.domain : Binder → Option Domain
  | .top => none
  | .input _ => some .inputs
  | .output _ => some .outputs

/-- An attribute of an element needs a quantifier over such elements. -/
def Root.Bound (domain : Option Domain) : Root → Prop
  | .input => domain = some .inputs
  | .output => domain = some .outputs
  | _ => True

def BinOp.isLogical : BinOp → Bool
  | .and | .or => true
  | _ => false

def BinOp.isEquality : BinOp → Bool
  | .eq | .ne => true
  | _ => false

/-- What an arithmetic operator computes. -/
def BinOp.arithmetic : BinOp → Option (I128 → I128 → I128)
  | .add => some fun left right => Signed.saturate 128 (left.toInt + right.toInt)
  | .sub => some fun left right => Signed.saturate 128 (left.toInt - right.toInt)
  | .mul => some fun left right => Signed.saturate 128 (left.toInt * right.toInt)
  | .div => some fun left right => Signed.saturate 128
      (if right.toInt = 0 then 0 else left.toInt.tdiv right.toInt)
  | .mod => some fun left right => Signed.saturate 128
      (if right.toInt = 0 then 0 else left.toInt.tmod right.toInt)
  | _ => none

/-- What an ordering comparison decides. -/
def BinOp.ordering : BinOp → Option (I128 → I128 → Bool)
  | .lt => some fun left right => left.toInt < right.toInt
  | .le => some fun left right => left.toInt ≤ right.toInt
  | .gt => some fun left right => left.toInt > right.toInt
  | .ge => some fun left right => left.toInt ≥ right.toInt
  | _ => none

/-- A call that reads its receiver as a script. -/
def MethodCall.readsScript : MethodCall → Bool
  | .containsOps _ | .wellFormed | .countOp _ | .maxPush => true
  | _ => false

def MethodCall.resultType : MethodCall → Ty
  | .len | .countOp _ | .maxPush => .int
  | _ => .bool

def QuantKind.bodyType : QuantKind → Ty
  | .sum => .int
  | _ => .bool

def QuantKind.resultType : QuantKind → Ty
  | .any | .all => .bool
  | _ => .int

/-- The typing rules. -/
inductive Typed : Option Domain → Expr → Ty → Prop where
  | bool {domain value span} : Typed domain (.bool value span) .bool
  | int {domain value span} : Typed domain (.int value span) .int
  | bytes {domain value span} : Typed domain (.bytes value span) (.bytes false)
  | enum {domain value span} : Typed domain (.enum value span) (.enum value.kind)
  | attr {domain root field span type} (bound : root.Bound domain)
      (known : attrTable root field = some type) : Typed domain (.attr root field span) type
  | not {domain expr span} (operand : Typed domain expr .bool) :
      Typed domain (.unary .not expr span) .bool
  | logical {domain op lhs rhs span} (isLogical : op.isLogical = true)
      (left : Typed domain lhs .bool) (right : Typed domain rhs .bool) :
      Typed domain (.binary op lhs rhs span) .bool
  | arithmetic {domain op operation lhs rhs span} (computes : op.arithmetic = some operation)
      (left : Typed domain lhs .int) (right : Typed domain rhs .int) :
      Typed domain (.binary op lhs rhs span) .int
  | ordering {domain op relation lhs rhs span} (decides : op.ordering = some relation)
      (left : Typed domain lhs .int) (right : Typed domain rhs .int) :
      Typed domain (.binary op lhs rhs span) .bool
  | equality {domain op lhs rhs leftType rightType span} (isEquality : op.isEquality = true)
      (alike : comparable leftType rightType = true)
      (left : Typed domain lhs leftType) (right : Typed domain rhs rightType) :
      Typed domain (.binary op lhs rhs span) .bool
  | method {domain recv call script span} (readable : call.readsScript = true → script = true)
      (receiver : Typed domain recv (.bytes script)) :
      Typed domain (.method recv call span) call.resultType
  | quant {kind domain body span} (inner : Typed (some domain) body kind.bodyType) :
      Typed none (.quant kind domain body span) kind.resultType

variable {got type : Ty} {span : Span} {what : String} {answer : Unit}

theorem expect_eq_ok {want : Ty} (accepted : expect got want span what = .ok answer) :
    got = want := by
  by_contra different
  simp [expect, different] at accepted

theorem require_eq_ok {ok : Bool} (accepted : require ok got span what = .ok answer) :
    ok = true := by
  by_contra refused
  simp [require, refused] at accepted

theorem requireScript_eq_ok {ok : Bool} (accepted : requireScript ok got span what = .ok answer) :
    ok = true := by
  by_contra refused
  simp [requireScript, refused] at accepted

/-- A checked sequence succeeded, so its parts did. -/
theorem Checked.bind_eq_ok {α β : Type} {first : Checked α} {next : α → Checked β} {result : β}
    (accepted : first >>= next = .ok result) : ∃ value, first = .ok value ∧
      next value = .ok result := by
  cases first with
  | error problem => cases accepted
  | ok value => exact ⟨value, rfl, accepted⟩

variable {domain : Option Domain}

theorem attrType_eq_ok {root : Root} {field : String}
    (accepted : attrType root field span domain = .ok type) :
    root.Bound domain ∧ attrTable root field = some type := by
  unfold attrType at accepted
  split_ifs at accepted with inputFree outputFree
  constructor
  · cases root with
    | tx => trivial
    | node => trivial
    | input => simpa [Root.Bound] using inputFree
    | output => simpa [Root.Bound] using outputFree
  · cases known : attrTable root field with
    | none => simp [known] at accepted
    | some found =>
      simp only [known, Except.ok.injEq] at accepted
      rw [accepted]

/-- Two operands were expected to have one type and both have it. -/
theorem expect_both {leftType rightType want result : Ty} {leftSpan rightSpan : Span}
    (accepted : (do
      expect leftType want leftSpan what
      expect rightType want rightSpan what
      .ok result : Checked Ty) = .ok type) :
    leftType = want ∧ rightType = want ∧ result = type := by
  obtain ⟨_, leftAccepted, accepted⟩ := Checked.bind_eq_ok accepted
  obtain ⟨_, rightAccepted, accepted⟩ := Checked.bind_eq_ok accepted
  exact ⟨expect_eq_ok leftAccepted, expect_eq_ok rightAccepted, Except.ok.inj accepted⟩

theorem checkBinary_typed {op : BinOp} {lhs rhs : Expr} {leftType rightType : Ty}
    (left : Typed domain lhs leftType) (right : Typed domain rhs rightType)
    (accepted : checkBinary op lhs rhs leftType rightType span = .ok type) :
    Typed domain (.binary op lhs rhs span) type := by
  cases op with
  | and | or =>
    obtain ⟨rfl, rfl, rfl⟩ := expect_both accepted
    exact .logical rfl left right
  | add | sub | mul | div | mod =>
    obtain ⟨rfl, rfl, rfl⟩ := expect_both accepted
    exact .arithmetic rfl left right
  | lt | le | gt | ge =>
    obtain ⟨rfl, rfl, rfl⟩ := expect_both accepted
    exact .ordering rfl left right
  | eq | ne =>
    simp only [checkBinary] at accepted
    split at accepted
    · rename_i alike
      cases accepted
      exact .equality rfl alike left right
    · cases accepted

theorem checkMethod_typed {call : MethodCall} {recv : Expr} {receiver : Ty}
    (typed : Typed domain recv receiver) (accepted : checkMethod call receiver span = .ok type) :
    Typed domain (.method recv call span) type := by
  cases call with
  | len | startsWith | endsWith | contains =>
    obtain ⟨_, isBytes, accepted⟩ := Checked.bind_eq_ok accepted
    have readable := require_eq_ok isBytes
    cases accepted
    obtain rfl | rfl := of_decide_eq_true readable
    all_goals exact .method nofun typed
  | containsOps | wellFormed | countOp | maxPush =>
    obtain ⟨_, isScript, accepted⟩ := Checked.bind_eq_ok accepted
    have readable := requireScript_eq_ok isScript
    cases accepted
    obtain rfl := of_decide_eq_true readable
    exact .method (fun _ => rfl) typed

theorem checkQuant_typed {kind : QuantKind} {bodyType : Ty}
    (accepted : checkQuant kind bodyType span = .ok type) :
    bodyType = kind.bodyType ∧ type = kind.resultType := by
  cases kind with
  | any | all | count | sum =>
    obtain ⟨_, expected, accepted⟩ := Checked.bind_eq_ok accepted
    exact ⟨expect_eq_ok expected, (Except.ok.inj accepted).symm⟩

/-- What the typechecker accepts, the typing rules derive. -/
theorem check_typed {expr : Expr} (accepted : check expr domain = .ok type) :
    Typed domain expr type := by
  induction expr generalizing domain type with
  | bool value span => cases accepted; exact .bool
  | int value span => cases accepted; exact .int
  | bytes value span => cases accepted; exact .bytes
  | enum value span => cases accepted; exact .enum
  | attr root field span =>
    obtain ⟨bound, known⟩ := attrType_eq_ok accepted
    exact .attr bound known
  | unary op expr span ih =>
    cases op
    obtain ⟨operandType, operand, accepted⟩ := Checked.bind_eq_ok accepted
    obtain ⟨_, expected, accepted⟩ := Checked.bind_eq_ok accepted
    cases expect_eq_ok expected
    cases accepted
    exact .not (ih operand)
  | binary op lhs rhs span leftIh rightIh =>
    obtain ⟨leftType, left, accepted⟩ := Checked.bind_eq_ok accepted
    obtain ⟨rightType, right, accepted⟩ := Checked.bind_eq_ok accepted
    exact checkBinary_typed (leftIh left) (rightIh right) accepted
  | method recv call span ih =>
    obtain ⟨receiver, receives, accepted⟩ := Checked.bind_eq_ok accepted
    exact checkMethod_typed (ih receives) accepted
  | quant kind range body span ih =>
    cases domain with
    | some outer => cases accepted
    | none =>
      obtain ⟨bodyType, inner, accepted⟩ := Checked.bind_eq_ok accepted
      obtain ⟨rfl, rfl⟩ := checkQuant_typed accepted
      exact .quant (ih inner)

/-! ## Meanings -/

def Value.bool? : Value → Option Bool
  | .bool value => some value
  | _ => none

def Value.int? : Value → Option I128
  | .int value => some value
  | _ => none

def Value.bytes? : Value → Option Bytes
  | .bytes value => some value
  | _ => none

/-- Equality of two values of one kind. -/
def equalValues : Value → Value → Option Bool
  | .bool first, .bool second => some (decide (first = second))
  | .int first, .int second => some (decide (first = second))
  | .bytes first, .bytes second => some (decide (first = second))
  | .enum first, .enum second => some (decide (first = second))
  | _, _ => none

/-- An operator applied to the values of both operands. -/
def strictMeaning (op : BinOp) (left right : Value) : Option Value :=
  match op.arithmetic, op.ordering with
  | some operation, _ => do
    let left ← left.int?
    let right ← right.int?
    some (.int (operation left right))
  | none, some relation => do
    let left ← left.int?
    let right ← right.int?
    some (.bool (relation left right))
  | none, none => do
    let same ← equalValues left right
    match op with
    | .eq => some (.bool same)
    | .ne => some (.bool !same)
    | _ => none

def binaryMeaning (op : BinOp) (left right : Option Value) : Option Value :=
  match op with
  | .and => do
    let left ← left.bind Value.bool?
    if left then (right.bind Value.bool?).map .bool else some (.bool false)
  | .or => do
    let left ← left.bind Value.bool?
    if left then some (.bool true) else (right.bind Value.bool?).map .bool
  | op => do
    let left ← left
    let right ← right
    strictMeaning op left right

def callMeaning (bytes : Bytes) : MethodCall → Value
  | .len => .int (I128.ofLength bytes.length)
  | .startsWith needle => .bool (decide (needle <+: bytes))
  | .endsWith needle => .bool (decide (needle <:+ bytes))
  | .contains needle => .bool (decide (needle <:+: bytes))
  | .containsOps pattern => .bool (pattern.containsIn (tokenize bytes).tokens)
  | .countOp op => .int (countOp (tokenize bytes).tokens op)
  | .maxPush => .int (maxPush (tokenize bytes).tokens)
  | .wellFormed => .bool (tokenize bytes).wellFormed

/-- A quantifier, given the values of its body for all the elements. -/
def quantMeaning (kind : QuantKind) (values : List Value) : Option Value :=
  match kind with
  | .any => (values.mapM Value.bool?).map fun answers => .bool (answers.any id)
  | .all => (values.mapM Value.bool?).map fun answers => .bool (answers.all id)
  | .count => (values.mapM Value.bool?).map fun answers => .int (I128.ofLength (answers.count true))
  | .sum => (values.mapM Value.int?).map fun amounts =>
      .int (amounts.foldl Signed.saturatingAdd (Signed.saturate 128 0))

section Views

variable (tx : TxView) (ctx : Ctx)

def attrMeaning (binder : Binder) (root : Root) (field : String) : Option Value :=
  match root, binder with
  | .tx, _ => txAttr tx field
  | .node, _ => nodeAttr ctx field
  | .input, .input input => inAttr input field
  | .output, .output output => outAttr output field
  | _, _ => none

def elements : Domain → List Binder
  | .inputs => tx.inputs.map .input
  | .outputs => tx.outputs.map .output

/-- The value of an expression with the given element bound. -/
def meaning : Expr → Binder → Option Value
  | .bool value _, _ => some (.bool value)
  | .int value _, _ => some (.int value)
  | .bytes value _, _ => some (.bytes value)
  | .enum value _, _ => some (.enum value)
  | .attr root field _, binder => attrMeaning tx ctx binder root field
  | .unary .not expr _, binder =>
    ((meaning expr binder).bind Value.bool?).map fun value => .bool !value
  | .binary op lhs rhs _, binder => binaryMeaning op (meaning lhs binder) (meaning rhs binder)
  | .method recv call _, binder =>
    ((meaning recv binder).bind Value.bytes?).map fun bytes => callMeaning bytes call
  | .quant kind domain body _, _ =>
    ((elements tx domain).mapM (meaning body)).bind (quantMeaning kind)

/-! ## Work -/

/-- The fuel a call takes. -/
def callWork (bytes : Bytes) : MethodCall → Nat
  | .len => 0
  | .startsWith needle | .endsWith needle => needle.length
  | .contains needle => saturatingProduct bytes.length needle.length
  | .countOp _ | .maxPush | .wellFormed => bytes.length
  | .containsOps pattern =>
    bytes.length + saturatingProduct (tokenize bytes).tokens.length (pattern.len + 2)

/-- The value of the left operand settles the operation. -/
def BinOp.settledBy : BinOp → Option Value → Bool
  | .and, some (.bool false) => true
  | .or, some (.bool true) => true
  | _, _ => false

/-- The value of one element settles the quantifier. -/
def QuantKind.settledBy : QuantKind → Option Value → Bool
  | .any, some (.bool true) => true
  | .all, some (.bool false) => true
  | _, _ => false

/-- The elements up to the first that settles the matter, that one included. -/
def visited {α : Type} (settles : α → Bool) : List α → List α
  | [] => []
  | element :: rest => if settles element then [element] else element :: visited settles rest

/-- The fuel an expression takes with the given element bound. -/
def work : Expr → Binder → Nat
  | .unary _ expr _, binder => 1 + work expr binder
  | .binary op lhs rhs _, binder =>
    1 + work lhs binder + (if op.settledBy (meaning tx ctx lhs binder) then 0 else work rhs binder)
  | .method recv call _, binder =>
    1 + work recv binder +
      ((meaning tx ctx recv binder).bind Value.bytes?).elim 0 fun bytes => callWork bytes call
  | .quant kind domain body _, _ =>
    1 + ((visited (fun element => kind.settledBy (meaning tx ctx body element))
      (elements tx domain)).map fun element => 1 + work body element).sum
  | _, _ => 1

end Views

end Satd.Policy
