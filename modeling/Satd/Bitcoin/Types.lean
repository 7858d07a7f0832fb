import Satd.Lib.Wire
import Satd.Consensus.Interface

/-!
# Transactions and blocks

The types the node takes from its Bitcoin library, with the library's consensus
encoding. A transaction is written in the segregated-witness format when an
input has a witness, or when there is no input at all; its identifier is the
hash of the encoding without witnesses.

The hash functions come from another package. `Hashing` lists the ones the node
calls, taken as arbitrary functions of their argument.
-/

namespace Satd.Bitcoin

open Satd.Consensus (Bytes)
open Wire

/-- A 256-bit hash, in the byte order of the wire. -/
structure Hash256 where
  bytes : Bytes
  length_bytes : bytes.length = 32
  deriving DecidableEq

/-- The hash of 32 equal bytes. -/
def Hash256.repeated (byte : UInt8) : Hash256 := ⟨List.replicate 32 byte, by simp⟩

instance : Inhabited Hash256 := ⟨.repeated 0⟩

theorem Hash256.bytes_injective :
    Function.Injective fun hash : Hash256 => hash.bytes.map UInt8.toNat := by
  rintro ⟨first, firstLength⟩ ⟨second, secondLength⟩ same
  have bytes : first = second :=
    List.map_injective_iff.mpr (fun _ _ equal => UInt8.toNat_inj.mp equal) same
  subst bytes
  rfl

/-- By the bytes of the wire. -/
instance : LinearOrder Hash256 :=
  LinearOrder.lift' (fun hash => hash.bytes.map UInt8.toNat) Hash256.bytes_injective

/-- The number whose hexadecimal digits the hash is displayed as. -/
def Hash256.display (hash : Hash256) : Nat := leNat hash.bytes

/-- The hash that is displayed as the given number. -/
def Hash256.ofDisplay (number : Nat) : Hash256 := ⟨leBytes 32 number, leBytes_length 32 number⟩

abbrev Txid := Hash256
abbrev Wtxid := Hash256
abbrev BlockHash := Hash256

/-- An output of a transaction, named by its position. -/
structure OutPoint where
  txid : Txid
  vout : UInt32
  deriving DecidableEq, Inhabited

/-- The outpoint a coinbase input names. -/
def OutPoint.null : OutPoint := ⟨Hash256.repeated 0, 0xFFFFFFFF⟩

def OutPoint.isNull (outpoint : OutPoint) : Bool := outpoint = OutPoint.null

structure TxIn where
  previousOutput : OutPoint
  scriptSig : Bytes
  sequence : UInt32
  witness : List Bytes
  deriving DecidableEq

structure TxOut where
  value : UInt64
  scriptPubkey : Bytes
  deriving DecidableEq

/-- A transaction. The version is kept as the 32 bits of the wire. -/
structure Transaction where
  version : UInt32
  lockTime : UInt32
  input : List TxIn
  output : List TxOut
  deriving DecidableEq

/-- A block header. The version is kept as the 32 bits of the wire. -/
structure Header where
  version : UInt32
  prevBlockhash : BlockHash
  merkleRoot : Hash256
  time : UInt32
  bits : UInt32
  nonce : UInt32
  deriving DecidableEq

structure Block where
  header : Header
  txdata : List Transaction
  deriving DecidableEq

/-- A 32-bit word read as a signed number. -/
def asI32 (word : UInt32) : Int :=
  if word.toNat < 2 ^ 31 then word.toNat else word.toNat - ((2 ^ 32 : Nat) : Int)

variable (tx : Transaction)

/-- One input, which names the null outpoint. -/
def Transaction.isCoinbase : Bool :=
  match tx.input with
  | [input] => input.previousOutput.isNull
  | _ => false

/-- The script begins with `OP_RETURN`. -/
def isOpReturn (script : Bytes) : Bool := script.head? == some 0x6a

/-! ## Encoding -/

/-- A byte string after its length. -/
def varBytes (data : Bytes) : Bytes := compactSize data.length ++ data

def OutPoint.encode (outpoint : OutPoint) : Bytes :=
  outpoint.txid.bytes ++ leBytes 4 outpoint.vout.toNat

/-- An input without its witness. -/
def TxIn.encode (input : TxIn) : Bytes :=
  input.previousOutput.encode ++ varBytes input.scriptSig ++ leBytes 4 input.sequence.toNat

def TxOut.encode (output : TxOut) : Bytes :=
  leBytes 8 output.value.toNat ++ varBytes output.scriptPubkey

/-- The witness of one input: the number of items, then each item. -/
def encodeWitness (witness : List Bytes) : Bytes :=
  compactSize witness.length ++ (witness.map varBytes).flatten

/-- The inputs and the outputs, each list after its length. -/
def Transaction.encodeInputs : Bytes :=
  compactSize tx.input.length ++ (tx.input.map TxIn.encode).flatten

def Transaction.encodeOutputs : Bytes :=
  compactSize tx.output.length ++ (tx.output.map TxOut.encode).flatten

/-- The encoding without witnesses. -/
def Transaction.encodeBase : Bytes :=
  leBytes 4 tx.version.toNat ++ tx.encodeInputs ++ tx.encodeOutputs ++ leBytes 4 tx.lockTime.toNat

/-- The transaction is written with the marker, the flag and the witnesses. -/
def Transaction.usesSegwitSerialization : Bool :=
  tx.input.any (fun input => !input.witness.isEmpty) || tx.input.isEmpty

/-- The full encoding. -/
def Transaction.encode : Bytes :=
  if tx.usesSegwitSerialization then
    leBytes 4 tx.version.toNat ++ [0x00, 0x01] ++ tx.encodeInputs ++ tx.encodeOutputs ++
      (tx.input.map fun input => encodeWitness input.witness).flatten ++
      leBytes 4 tx.lockTime.toNat
  else tx.encodeBase

def Header.encode (header : Header) : Bytes :=
  leBytes 4 header.version.toNat ++ header.prevBlockhash.bytes ++ header.merkleRoot.bytes ++
    leBytes 4 header.time.toNat ++ leBytes 4 header.bits.toNat ++ leBytes 4 header.nonce.toNat

/-- The size of a transaction without witnesses. -/
def Transaction.baseSize : Nat := tx.encodeBase.length

/-- The size of a transaction with its witnesses. -/
def Transaction.totalSize : Nat := tx.encode.length

/-! ## Hashes -/

/-- The hash functions the node calls. -/
structure Hashing where
  sha256 : Bytes → Hash256
  sha256d : Bytes → Hash256

variable (hashing : Hashing)

/-- The identifier of a transaction: its witnesses do not count. -/
def computeTxid (tx : Transaction) : Txid := hashing.sha256d tx.encodeBase

/-- The witness identifier of a transaction. -/
def computeWtxid (tx : Transaction) : Wtxid := hashing.sha256d tx.encode

/-- The hash of a block: the hash of its header. -/
def blockHash (header : Header) : BlockHash := hashing.sha256d header.encode

end Satd.Bitcoin
