import Satd.Policy.Script

/-!
# The evaluator

Evaluation cannot fail. It charges fuel for every node it visits and every byte it
scans, and once the fuel is gone every further expression answers `false` at once.
Where a well-typed expression cannot get to, the evaluator answers a default.

The state is the one the evaluator updates in place, with one entry the source
does not have: whether one of those defaults was taken. Nothing reads it.
-/

namespace Satd.Policy

open Rust
open Satd.Consensus (Bytes)

def defaultFuel : I64 := Signed.saturate 64 8_000_000

/-- A product of lengths, as the unsigned 64-bit number charged for it. -/
def saturatingProduct (first second : Nat) : Nat := min (first * second) (2 ^ 64 - 1)

structure Ev where
  fuel : I64
  exhausted : Bool
  curIn : Option InputView
  curOut : Option OutputView
  /-- One of the defaults for ill-typed expressions was taken. -/
  defaulted : Bool

abbrev Eval := StateM Ev

def Ev.burn (amount : Nat) (ev : Ev) : Ev :=
  let fuel := ev.fuel.saturatingSub (Signed.saturate 64 amount)
  { ev with fuel := fuel, exhausted := ev.exhausted || fuel.toInt ≤ 0 }

def burn (amount : Nat) : Eval Unit := modify (Ev.burn amount)

/-- The default an ill-typed expression gets. -/
def byDefault {α : Type} (value : α) : Eval α := fun ev => (value, { ev with defaulted := true })

def exhausted : Eval Bool := fun ev => (ev.exhausted, ev)

/-! ## Operators -/

def asBool : Value → Eval Bool
  | .bool value => pure value
  | _ => byDefault false

def asInt : Value → Eval I128
  | .int value => pure value
  | _ => byDefault (Signed.saturate 128 0)

def valueEq : Value → Value → Eval Bool
  | .bool first, .bool second => pure (first == second)
  | .int first, .int second => pure (decide (first = second))
  | .bytes first, .bytes second => pure (first == second)
  | .enum first, .enum second => pure (decide (first = second))
  | _, _ => byDefault false

/-- `x / 0` is zero. -/
def checkedDiv (left right : I128) : I128 :=
  if right.toInt = 0 then Signed.saturate 128 0
  else (left.checkedDiv right).getD (Signed.greatest 128)

/-- `x % 0` is zero. -/
def checkedRem (left right : I128) : I128 :=
  if right.toInt = 0 then Signed.saturate 128 0
  else (left.checkedRem right).getD (Signed.saturate 128 0)

/-- An operation on two integers. -/
def onInts (operation : I128 → I128 → Value) (left right : Value) : Eval Value := do
  let left ← asInt left
  let right ← asInt right
  pure (operation left right)

/-- An operator that needs both operands. -/
def strictBinary (op : BinOp) (left right : Value) : Eval Value :=
  match op with
  | .eq => do
    let same ← valueEq left right
    pure (.bool same)
  | .ne => do
    let same ← valueEq left right
    pure (.bool !same)
  | .lt => onInts (fun left right => .bool (left < right)) left right
  | .le => onInts (fun left right => .bool (left ≤ right)) left right
  | .gt => onInts (fun left right => .bool (right < left)) left right
  | .ge => onInts (fun left right => .bool (right ≤ left)) left right
  | .add => onInts (fun left right => .int (left.saturatingAdd right)) left right
  | .sub => onInts (fun left right => .int (left.saturatingSub right)) left right
  | .mul => onInts (fun left right => .int (left.saturatingMul right)) left right
  | .div => onInts (fun left right => .int (checkedDiv left right)) left right
  | .mod => onInts (fun left right => .int (checkedRem left right)) left right
  -- `binary` decides these two without coming here
  | .and | .or => byDefault (.bool false)

def binary (op : BinOp) (lhs rhs : Eval Value) : Eval Value :=
  match op with
  | .and => do
    let left ← lhs >>= asBool
    if left then do
      let right ← rhs >>= asBool
      pure (.bool right)
    else pure (.bool false)
  | .or => do
    let left ← lhs >>= asBool
    if left then pure (.bool true)
    else do
      let right ← rhs >>= asBool
      pure (.bool right)
  | op => do
    let left ← lhs
    let right ← rhs
    strictBinary op left right

/-! ## Methods -/

/-- Naive substring scan. -/
def containsSubslice (haystack needle : Bytes) : Bool :=
  if needle.isEmpty then true
  else if needle.length > haystack.length then false
  else
    (List.range (haystack.length - needle.length + 1)).any fun start =>
      (haystack.drop start).take needle.length == needle

/-- The tokens of a script, with the linear pass charged first. -/
def tokens (script : Bytes) : Eval (List ScriptToken) := do
  burn script.length
  if ← exhausted then pure [] else pure (tokenize script).tokens

/-- A call on a receiver that turned out to be bytes. -/
def callOn (bytes : Bytes) : MethodCall → Eval Value
  | .len => pure (.int (I128.ofLength bytes.length))
  | .startsWith needle => do
    burn needle.length
    pure (.bool (needle.isPrefixOf bytes))
  | .endsWith needle => do
    burn needle.length
    pure (.bool (needle.isSuffixOf bytes))
  | .contains needle => do
    burn (saturatingProduct bytes.length needle.length)
    if ← exhausted then pure (.bool false) else pure (.bool (containsSubslice bytes needle))
  | .countOp op => do
    let toks ← tokens bytes
    pure (.int (countOp toks op))
  | .maxPush => do
    let toks ← tokens bytes
    pure (.int (maxPush toks))
  | .wellFormed => do
    burn bytes.length
    if ← exhausted then pure (.bool false) else pure (.bool (tokenize bytes).wellFormed)
  | .containsOps pattern => do
    let toks ← tokens bytes
    burn (saturatingProduct toks.length (pattern.len + 2))
    if ← exhausted then pure (.bool false) else pure (.bool (pattern.containsIn toks))

def method (recv : Eval Value) (call : MethodCall) : Eval Value := do
  match ← recv with
  | .bytes bytes => callOn bytes call
  | _ => byDefault (.bool false)

/-! ## Attributes -/

def txAttr (tx : TxView) : String → Option Value
  | "version" => some (.int tx.version)
  | "locktime" => some (.int tx.locktime)
  | "vsize" => some (.int tx.vsize)
  | "weight" => some (.int tx.weight)
  | "input_count" => some (.int tx.inputCount)
  | "output_count" => some (.int tx.outputCount)
  | "signals_rbf" => some (.bool tx.signalsRbf)
  | "total_witness_size" => some (.int tx.totalWitnessSize)
  | "txid" => some (.bytes tx.txid)
  | "fee" => some (.int tx.fee)
  | "fee_rate" => some (.int tx.feeRate)
  | "sigops_cost" => some (.int tx.sigopsCost)
  | "source" => some (.enum tx.source.toEnumVal)
  | "from_whitelisted_peer" => some (.bool tx.fromWhitelistedPeer)
  | _ => none

def nodeAttr (ctx : Ctx) : String → Option Value
  | "network" => some (.enum ctx.network.toEnumVal)
  | "height" => some (.int ctx.height)
  | "min_relay_fee" => some (.int ctx.minRelayFee)
  | "dust_relay_fee" => some (.int ctx.dustRelayFee)
  | "mempool_bytes" => some (.int ctx.mempoolBytes)
  | "mempool_min_fee" => some (.int ctx.mempoolMinFee)
  | _ => none

def inAttr (input : InputView) : String → Option Value
  | "prevout_txid" => some (.bytes input.prevoutTxid)
  | "prevout_vout" => some (.int input.prevoutVout)
  | "sequence" => some (.int input.sequence)
  | "script_sig" => some (.bytes input.scriptSig)
  | "witness_items" => some (.int input.witnessItems)
  | "witness_size" => some (.int input.witnessSize)
  | "max_witness_item" => some (.int input.maxWitnessItem)
  | "has_annex" => some (.bool input.hasAnnex)
  | "prevout_value" => some (.int input.prevoutValue)
  | "prevout_script_type" => some (.enum input.prevoutScriptType.toEnumVal)
  | "prevout_script" => some (.bytes input.prevoutScript)
  | "spends_coinbase" => some (.bool input.spendsCoinbase)
  | "leaf_script" => some (.bytes input.leafScript)
  | _ => none

def outAttr (output : OutputView) : String → Option Value
  | "value" => some (.int output.value)
  | "script_type" => some (.enum output.scriptType.toEnumVal)
  | "script" => some (.bytes output.script)
  | "op_return_size" => some (.int output.opReturnSize)
  | "is_dust" => some (.bool output.isDust)
  | _ => none

/-- An attribute looked up in a table, or the default for one not in it. -/
def orDefault : Option Value → Eval Value
  | some value => pure value
  | none => byDefault (.bool false)

section Views

variable (tx : TxView) (ctx : Ctx)

def attr (root : Root) (field : String) : Eval Value :=
  match root with
  | .tx => orDefault (txAttr tx field)
  | .node => orDefault (nodeAttr ctx field)
  | .input => fun ev => orDefault (ev.curIn.bind fun input => inAttr input field) ev
  | .output => fun ev => orDefault (ev.curOut.bind fun output => outAttr output field) ev

/-! ## Quantifiers -/

/-- The accumulators of a quantifier. -/
structure Tally where
  count : I128
  sum : I128
  any : Bool
  all : Bool

def Tally.start : Tally := ⟨Signed.saturate 128 0, Signed.saturate 128 0, false, true⟩

def Tally.result (tally : Tally) : QuantKind → Value
  | .any => .bool tally.any
  | .all => .bool tally.all
  | .count => .int tally.count
  | .sum => .int tally.sum

/-- One element's value, entered in the accumulators; `true` ends the loop. -/
def Tally.enter (tally : Tally) (kind : QuantKind) (value : Value) : Eval (Tally × Bool) :=
  match kind with
  | .any => do
    let holds ← asBool value
    pure (if holds then ({ tally with any := true }, true) else (tally, false))
  | .all => do
    let holds ← asBool value
    pure (if holds then (tally, false) else ({ tally with all := false }, true))
  | .count => do
    let holds ← asBool value
    pure (if holds then { tally with count := tally.count.saturatingAdd (Signed.saturate 128 1) }
      else tally, false)
  | .sum => do
    let amount ← asInt value
    pure ({ tally with sum := tally.sum.saturatingAdd amount }, false)

/-- The loop over the elements, each given by how it is bound. -/
def quantLoop (kind : QuantKind) (body : Eval Value) : List (Ev → Ev) → Tally → Eval Tally
  | [], tally => pure tally
  | bind :: rest, tally => do
    if ← exhausted then pure tally
    else do
      burn 1
      modify bind
      let value ← body
      let (tally, stop) ← tally.enter kind value
      if stop then pure tally else quantLoop kind body rest tally

/-- How the elements of a domain are bound, in order. -/
def binders : Domain → List (Ev → Ev)
  | .inputs => tx.inputs.map fun input ev => { ev with curIn := some input }
  | .outputs => tx.outputs.map fun output ev => { ev with curOut := some output }

def quant (kind : QuantKind) (domain : Domain) (body : Eval Value) : Eval Value := do
  let tally ← quantLoop kind body (binders tx domain) Tally.start
  modify fun ev => { ev with curIn := none, curOut := none }
  pure (tally.result kind)

/-! ## Expressions -/

/-- The answer of a node: nothing is looked at once the fuel is gone, and the
visit itself costs one unit. -/
def visit (node : Eval Value) : Eval Value := do
  if ← exhausted then pure (.bool false)
  else do
    burn 1
    node

def eval : Expr → Eval Value
  | .bool value _ => visit (pure (.bool value))
  | .int value _ => visit (pure (.int value))
  | .bytes value _ => visit (pure (.bytes value))
  | .enum value _ => visit (pure (.enum value))
  | .attr root field _ => visit (attr tx ctx root field)
  | .unary .not expr _ => visit do
    let value ← eval expr >>= asBool
    pure (.bool !value)
  | .binary op lhs rhs _ => visit (binary op (eval lhs) (eval rhs))
  | .method recv call _ => visit (method (eval recv) call)
  | .quant kind domain body _ => visit (quant tx kind domain (eval body))

end Views

structure Outcome where
  value : Value
  fuelExhausted : Bool
  fuelRemaining : I64
  /-- One of the defaults for ill-typed expressions was taken. -/
  defaulted : Bool

def evalMetered (expr : Expr) (tx : TxView) (ctx : Ctx) (fuel : I64) : Outcome :=
  let (value, ev) := eval tx ctx expr ⟨fuel, false, none, none, false⟩
  ⟨value, ev.exhausted, if ev.fuel.toInt < 0 then Signed.saturate 64 0 else ev.fuel, ev.defaulted⟩

end Satd.Policy
