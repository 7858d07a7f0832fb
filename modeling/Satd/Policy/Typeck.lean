import Satd.Policy.Syntax

/-!
# The typechecker

Types carry whether bytes may be read as a script. An attribute of an input or of
an output is accepted only inside a quantifier over the inputs or the outputs,
and quantifiers do not nest.
-/

namespace Satd.Policy

inductive Ty where
  | bool
  | int
  | bytes (script : Bool)
  | enum (kind : EnumKind)
  deriving DecidableEq, Repr

def Ty.display : Ty → String
  | .bool => "Bool"
  | .int => "Int"
  | .bytes true => "Bytes(script)"
  | .bytes false => "Bytes"
  | .enum kind => kind.name

instance : ToString Ty := ⟨Ty.display⟩

abbrev Checked := Except PolicyError

def expect (got want : Ty) (span : Span) (what : String) : Checked Unit :=
  if got = want then .ok ()
  else .error (.typ span s!"{what} must be {want}, but this is {got}")

def require (ok : Bool) (got : Ty) (span : Span) (what : String) : Checked Unit :=
  if ok then .ok ()
  else .error (.typ span s!"'{what}' applies to Bytes, but the receiver is {got}")

def requireScript (ok : Bool) (got : Ty) (span : Span) (what : String) : Checked Unit :=
  if ok then .ok ()
  else .error (.typ span (s!"'{what}' applies only to script-typed bytes " ++
    s!"(out.script, in.script_sig, in.leaf_script, in.prevout_script), but the receiver is {got}"))

/-- Whether values of the two types can be compared for equality. -/
def comparable : Ty → Ty → Bool
  | .int, .int => true
  | .bool, .bool => true
  | .bytes _, .bytes _ => true
  | .enum first, .enum second => first == second
  | _, _ => false

/-! ## Attributes -/

def txAttrType : String → Option Ty
  | "version" => some .int
  | "locktime" => some .int
  | "vsize" => some .int
  | "weight" => some .int
  | "input_count" => some .int
  | "output_count" => some .int
  | "signals_rbf" => some .bool
  | "total_witness_size" => some .int
  | "txid" => some (.bytes false)
  | "fee" => some .int
  | "fee_rate" => some .int
  | "sigops_cost" => some .int
  | "source" => some (.enum .source)
  | "from_whitelisted_peer" => some .bool
  | _ => none

def nodeAttrType : String → Option Ty
  | "network" => some (.enum .network)
  | "height" => some .int
  | "min_relay_fee" => some .int
  | "dust_relay_fee" => some .int
  | "mempool_bytes" => some .int
  | "mempool_min_fee" => some .int
  | _ => none

def outAttrType : String → Option Ty
  | "value" => some .int
  | "script_type" => some (.enum .scriptType)
  | "script" => some (.bytes true)
  | "op_return_size" => some .int
  | "is_dust" => some .bool
  | _ => none

def inAttrType : String → Option Ty
  | "prevout_txid" => some (.bytes false)
  | "prevout_vout" => some .int
  | "sequence" => some .int
  | "script_sig" => some (.bytes true)
  | "witness_items" => some .int
  | "witness_size" => some .int
  | "max_witness_item" => some .int
  | "has_annex" => some .bool
  | "prevout_value" => some .int
  | "prevout_script_type" => some (.enum .scriptType)
  | "prevout_script" => some (.bytes true)
  | "spends_coinbase" => some .bool
  | "leaf_script" => some (.bytes true)
  | _ => none

/-- The attribute table, by root. -/
def attrTable : Root → String → Option Ty
  | .tx => txAttrType
  | .node => nodeAttrType
  | .output => outAttrType
  | .input => inAttrType

/-- The type of an attribute. Whether its root is bound is looked at first, so
that the error names the real problem. -/
def attrType (root : Root) (field : String) (span : Span) (domain : Option Domain) : Checked Ty :=
  if root = .input ∧ domain ≠ some .inputs then
    .error (.typ span "'in' is only available inside an input quantifier, e.g. any inputs ( in.… )")
  else if root = .output ∧ domain ≠ some .outputs then
    .error (.typ span
      "'out' is only available inside an output quantifier, e.g. any outputs ( out.… )")
  else
    match attrTable root field with
    | some type => .ok type
    | none => .error (.typ span s!"unknown attribute '{root.asStr}.{field}'")

/-! ## Expressions -/

/-- The type of a binary operation on operands of the given types. -/
def checkBinary (op : BinOp) (lhs rhs : Expr) (leftType rightType : Ty) (span : Span) :
    Checked Ty :=
  match op with
  | .and | .or => do
    expect leftType .bool lhs.span "operand of a boolean operator"
    expect rightType .bool rhs.span "operand of a boolean operator"
    .ok .bool
  | .add | .sub | .mul | .div | .mod => do
    expect leftType .int lhs.span "operand of arithmetic"
    expect rightType .int rhs.span "operand of arithmetic"
    .ok .int
  | .lt | .le | .gt | .ge => do
    expect leftType .int lhs.span "operand of an ordering comparison"
    expect rightType .int rhs.span "operand of an ordering comparison"
    .ok .bool
  | .eq | .ne =>
    if comparable leftType rightType then .ok .bool
    else .error (.typ span s!"cannot compare {leftType} with {rightType}")

/-- The type of a call on a receiver of the given type. -/
def checkMethod (call : MethodCall) (receiver : Ty) (span : Span) : Checked Ty :=
  let isBytes := receiver = .bytes true ∨ receiver = .bytes false
  let isScript := receiver = .bytes true
  match call with
  | .len => do
    require isBytes receiver span "len"
    .ok .int
  | .startsWith _ | .endsWith _ | .contains _ => do
    require isBytes receiver span call.name
    .ok .bool
  | .containsOps _ | .wellFormed => do
    requireScript isScript receiver span call.name
    .ok .bool
  | .countOp _ | .maxPush => do
    requireScript isScript receiver span call.name
    .ok .int

/-- The type of a quantifier over a body of the given type. -/
def checkQuant (kind : QuantKind) (bodyType : Ty) (span : Span) : Checked Ty :=
  match kind with
  | .any | .all => do
    expect bodyType .bool span "a quantifier body (any/all)"
    .ok .bool
  | .count => do
    expect bodyType .bool span "a count quantifier body"
    .ok .int
  | .sum => do
    expect bodyType .int span "a sum quantifier body"
    .ok .int

def check : Expr → Option Domain → Checked Ty
  | .bool _ _, _ => .ok .bool
  | .int _ _, _ => .ok .int
  | .bytes _ _, _ => .ok (.bytes false)
  | .enum value _, _ => .ok (.enum value.kind)
  | .attr root field span, domain => attrType root field span domain
  | .unary .not expr span, domain => do
    let type ← check expr domain
    expect type .bool span "operand of 'not'"
    .ok .bool
  | .binary op lhs rhs span, domain => do
    let leftType ← check lhs domain
    let rightType ← check rhs domain
    checkBinary op lhs rhs leftType rightType span
  | .method recv call span, domain => do
    let receiver ← check recv domain
    checkMethod call receiver span
  | .quant kind domain body span, outer =>
    if outer.isSome then
      .error (.typ span "quantifiers cannot be nested (v1: no quantifier inside a quantifier body)")
    else do
      let bodyType ← check body (some domain)
      checkQuant kind bodyType body.span

def typecheck (expr : Expr) : Checked Ty := check expr none

end Satd.Policy
