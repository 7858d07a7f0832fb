import Satd.Lib.Signed
import Satd.Consensus.Interface

/-!
# The policy language

The expressions of the policy language, the values they denote, and the views of
a transaction and of the node they are evaluated against. Attribute names are
text, as the parser leaves them: an expression can name an attribute that does
not exist until it has been typechecked.
-/

namespace Satd.Policy

open Rust
open Satd.Consensus (Bytes)

abbrev I128 := Signed 128
abbrev I64 := Signed 64

/-- A length, as the evaluator's integer type. -/
def I128.ofLength (length : Nat) : I128 := Signed.saturate 128 length

/-! ## Errors -/

/-- A half-open range of bytes of the source text. -/
structure Span where
  start : Nat
  stop : Nat
  deriving DecidableEq, Repr

inductive Stage where
  | lex | parse | type | cost | ruleset
  deriving DecidableEq, Repr

structure PolicyError where
  stage : Stage
  message : String
  span : Span
  deriving DecidableEq, Repr

def PolicyError.typ (span : Span) (message : String) : PolicyError := ⟨.type, message, span⟩

/-! ## Values -/

inductive ScriptType where
  | p2pk | p2pkh | p2sh | p2wpkh | p2wsh | p2tr | p2a | opReturn | bareMultisig
  | witnessUnknown | nonstandard
  deriving DecidableEq, Repr

inductive Network where
  | mainnet | testnet | testnet4 | signet | regtest
  deriving DecidableEq, Repr

/-- How a transaction reached the node. -/
inductive Source where
  | p2p | rpc | electrum | esplora | mcp | reload
  deriving DecidableEq, Repr

inductive EnumKind where
  | scriptType | network | source
  deriving DecidableEq, Repr

def EnumKind.name : EnumKind → String
  | .scriptType => "ScriptType"
  | .network => "Network"
  | .source => "Source"

/-- A literal of one of the three enumerations: which one, and the position of
the literal in it. -/
structure EnumVal where
  kind : EnumKind
  code : UInt8
  deriving DecidableEq, Repr

def ScriptType.toEnumVal (scriptType : ScriptType) : EnumVal :=
  ⟨.scriptType, UInt8.ofNat scriptType.ctorIdx⟩

def Network.toEnumVal (network : Network) : EnumVal := ⟨.network, UInt8.ofNat network.ctorIdx⟩

def Source.toEnumVal (source : Source) : EnumVal := ⟨.source, UInt8.ofNat source.ctorIdx⟩

inductive Value where
  | bool (value : Bool)
  | int (value : I128)
  | bytes (value : Bytes)
  | enum (value : EnumVal)
  deriving DecidableEq, Inhabited

/-! ## Views -/

structure InputView where
  prevoutTxid : Bytes
  prevoutVout : I128
  sequence : I128
  scriptSig : Bytes
  witnessItems : I128
  witnessSize : I128
  maxWitnessItem : I128
  hasAnnex : Bool
  prevoutValue : I128
  prevoutScriptType : ScriptType
  prevoutScript : Bytes
  spendsCoinbase : Bool
  leafScript : Bytes

structure OutputView where
  value : I128
  scriptType : ScriptType
  script : Bytes
  opReturnSize : I128
  isDust : Bool

structure TxView where
  version : I128
  locktime : I128
  vsize : I128
  weight : I128
  totalWitnessSize : I128
  signalsRbf : Bool
  txid : Bytes
  fee : I128
  feeRate : I128
  sigopsCost : I128
  source : Source
  fromWhitelistedPeer : Bool
  inputs : List InputView
  outputs : List OutputView

def TxView.inputCount (tx : TxView) : I128 := I128.ofLength tx.inputs.length
def TxView.outputCount (tx : TxView) : I128 := I128.ofLength tx.outputs.length

/-- The state of the node the transaction is judged in. -/
structure Ctx where
  network : Network
  height : I128
  minRelayFee : I128
  dustRelayFee : I128
  mempoolBytes : I128
  mempoolMinFee : I128

/-! ## Expressions -/

/-- The object an attribute belongs to. -/
inductive Root where
  | tx | node | input | output
  deriving DecidableEq, Repr

def Root.asStr : Root → String
  | .tx => "tx"
  | .node => "node"
  | .input => "in"
  | .output => "out"

inductive Domain where
  | inputs | outputs
  deriving DecidableEq, Repr

inductive QuantKind where
  | any | all | count | sum
  deriving DecidableEq, Repr

inductive UnOp where
  | not
  deriving DecidableEq, Repr

inductive BinOp where
  | or | and | eq | ne | lt | le | gt | ge | add | sub | mul | div | mod
  deriving DecidableEq, Repr

/-- One element of a script pattern. -/
inductive PatToken where
  | op (opcode : UInt8)
  | push
  | pushLen (length : UInt32)
  | pushRange (least greatest : UInt32)
  | pushExact (data : Bytes)
  | pushPrefix (data : Bytes)
  | anyOne
  | anyRun
  deriving DecidableEq, Repr

structure ScriptPattern where
  tokens : List PatToken
  deriving DecidableEq, Repr

def ScriptPattern.len (pattern : ScriptPattern) : Nat := pattern.tokens.length

inductive MethodCall where
  | len
  | startsWith (needle : Bytes)
  | endsWith (needle : Bytes)
  | contains (needle : Bytes)
  | containsOps (pattern : ScriptPattern)
  | countOp (opcode : UInt8)
  | maxPush
  | wellFormed
  deriving DecidableEq, Repr

def MethodCall.name : MethodCall → String
  | .len => "len"
  | .startsWith _ => "starts_with"
  | .endsWith _ => "ends_with"
  | .contains _ => "contains"
  | .containsOps _ => "contains_ops"
  | .countOp _ => "count_op"
  | .maxPush => "max_push"
  | .wellFormed => "well_formed"

inductive Expr where
  | bool (value : Bool) (span : Span)
  | int (value : I128) (span : Span)
  | bytes (value : Bytes) (span : Span)
  | enum (value : EnumVal) (span : Span)
  | attr (root : Root) (field : String) (span : Span)
  | unary (op : UnOp) (expr : Expr) (span : Span)
  | binary (op : BinOp) (lhs rhs : Expr) (span : Span)
  | method (recv : Expr) (call : MethodCall) (span : Span)
  | quant (kind : QuantKind) (domain : Domain) (body : Expr) (span : Span)

def Expr.span : Expr → Span
  | .bool _ span | .int _ span | .bytes _ span | .enum _ span | .attr _ _ span
  | .unary _ _ span | .binary _ _ _ span | .method _ _ span | .quant _ _ _ span => span

end Satd.Policy
