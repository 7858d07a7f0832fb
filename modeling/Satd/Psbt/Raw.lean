import Satd.Lib.Cursor
import Satd.Bitcoin.Types

/-!
# The raw layer of partially signed transactions

A PSBT is a magic number, a global map, and a map for every input and output. A map
is a list of pairs of a key and a value, ended by a key of length zero; a key is a
type and data. The raw layer keeps every pair as it arrived. How many maps follow
the global one is read from the global map: from the unsigned transaction in version
0, from two counts in version 2.

Decoding a transaction belongs to another package; it is a parameter here.
-/

namespace Satd.Psbt

open Rust Wire Outcome
open Satd.Bitcoin (Transaction)
open Satd.Consensus (Bytes)

/-! ## Keys and errors -/

def magic : Bytes := [0x70, 0x73, 0x62, 0x74, 0xff]

namespace Keys

def globalUnsignedTx : UInt64 := 0x00
def globalTxVersion : UInt64 := 0x02
def globalFallbackLocktime : UInt64 := 0x03
def globalInputCount : UInt64 := 0x04
def globalOutputCount : UInt64 := 0x05
def globalTxModifiable : UInt64 := 0x06
def globalVersion : UInt64 := 0xfb

/-- The global fields a version 0 PSBT must not carry. -/
def globalV2Only : List UInt64 :=
  [globalTxVersion, globalFallbackLocktime, globalInputCount, globalOutputCount, globalTxModifiable]

def inputPreviousTxid : UInt64 := 0x0e
def inputOutputIndex : UInt64 := 0x0f
def inputSequence : UInt64 := 0x10
def inputRequiredTimeLocktime : UInt64 := 0x11
def inputRequiredHeightLocktime : UInt64 := 0x12

/-- The input fields a version 0 PSBT must not carry. -/
def inputV2Only : List UInt64 :=
  [inputPreviousTxid, inputOutputIndex, inputSequence, inputRequiredTimeLocktime,
    inputRequiredHeightLocktime]

def outputAmount : UInt64 := 0x03
def outputScript : UInt64 := 0x04

/-- The output fields a version 0 PSBT must not carry. -/
def outputV2Only : List UInt64 := [outputAmount, outputScript]

end Keys

/-- Which map a problem was found in. -/
inductive MapId where
  | global
  | input (index : Nat)
  | output (index : Nat)
  deriving DecidableEq, Repr

inductive PsbtError where
  | badMagic
  | unexpectedEof (what : String)
  | nonMinimalCompactSize
  | lengthOverrun (declared remaining : Nat)
  | unterminatedMap (map : MapId)
  | duplicateKey (map : MapId) (keyType : UInt64)
  | trailingData (bytes : Nat)
  | unsupportedVersion (version : Nat)
  | badFieldLength (map : MapId) (keyType : UInt64) (len : Nat) (expected : String)
  | missingUnsignedTx
  | malformedUnsignedTx
  | unsignedTxInV2
  | v2FieldInV0 (keyType : UInt64)
  | v2FieldInV0Map (map : MapId) (keyType : UInt64)
  | missingGlobal (name : String)
  | implausibleCount (kind : String) (declared remaining : Nat)
  deriving DecidableEq, Repr

abbrev Result := Outcome PsbtError

/-! ## Maps -/

/-- One pair of a map, as it appeared. -/
structure RawPair where
  keyType : UInt64
  keyData : Bytes
  value : Bytes
  deriving DecidableEq, Repr

abbrev RawMap := List RawPair

structure RawPsbt where
  global : RawMap
  inputs : List RawMap
  outputs : List RawMap
  deriving DecidableEq, Repr

variable (pair : RawPair)

def RawPair.key : UInt64 × Bytes := (pair.keyType, pair.keyData)

namespace RawMap

variable (map : RawMap) (keyType : UInt64)

def get (keyData : Bytes) : Option Bytes :=
  (map.find? fun pair => pair.keyType == keyType && pair.keyData == keyData).map RawPair.value

def getSingle : Option Bytes := get map keyType []

def containsType : Bool := map.any fun pair => pair.keyType == keyType

end RawMap

/-! ## Writing -/

/-- The length of a key: its type and its data. -/
def RawPair.keyLength : Nat := compactSizeLength pair.keyType.toNat + pair.keyData.length

def RawPair.serialize : Bytes :=
  compactSize pair.keyLength ++ (compactSize pair.keyType.toNat ++ pair.keyData) ++
    (compactSize pair.value.length ++ pair.value)

def RawMap.serialize (map : RawMap) : Bytes := map.flatMap RawPair.serialize ++ [0x00]

def RawPsbt.serialize (psbt : RawPsbt) : Bytes :=
  magic ++ RawMap.serialize psbt.global ++ psbt.inputs.flatMap RawMap.serialize ++
    psbt.outputs.flatMap RawMap.serialize

/-! ## Reading -/

abbrev Reader := Cursor

namespace Reader

variable (r : Reader)

def expectMagic : Result Reader :=
  if r.remaining < magic.length then .err .badMagic
  else do
    let found ← slice r.buf r.pos (r.pos + magic.length)
    if found = magic then .ok { r with pos := r.pos + magic.length } else .err .badMagic

def take (count : Nat) (what : String) : Result (Bytes × Reader) :=
  if r.remaining < count then .err (.unexpectedEof what)
  else do
    let out ← slice r.buf r.pos (r.pos + count)
    .ok (out, { r with pos := r.pos + count })

def byte (what : String) : Result (UInt8 × Reader) := do
  let (out, r) ← take r 1 what
  let first ← index out 0
  .ok (first, r)

/-- The bytes at the first positions, read one by one. -/
def indices (bytes : Bytes) : Nat → Result Bytes
  | 0 => .ok []
  | count + 1 => do
    let before ← indices bytes count
    let last ← index bytes count
    .ok (before ++ [last])

/-- A number of the given width that the narrower encodings cannot hold. -/
def wideSize (width least : Nat) : Result (Nat × Reader) := do
  let (out, r) ← take r width "a compact size"
  let bytes ← indices out width
  if leNat bytes < least then .err .nonMinimalCompactSize else .ok (leNat bytes, r)

/-- The rest of a compact size, given its first byte. -/
def sizeAfter (first : UInt8) (r : Reader) : Result (Nat × Reader) :=
  if first ≤ 0xfc then .ok (first.toNat, r)
  else if first = 0xfd then wideSize r 2 0xfd
  else if first = 0xfe then wideSize r 4 (0xffff + 1)
  else wideSize r 8 (0xffff_ffff + 1)

/-- A minimally encoded compact size. -/
def compactSize : Result (Nat × Reader) := do
  let (first, r) ← byte r "a compact size"
  sizeAfter first r

def lengthPrefixed (what : String) : Result (Bytes × Reader) := do
  let (len, r) ← compactSize r
  if len > r.remaining then .err (.lengthOverrun len r.remaining) else take r len what

/-- A map being read, with the keys seen so far. -/
structure MapState where
  reader : Reader
  map : RawMap
  seen : List (UInt64 × Bytes)

/-- The key of a pair, of the given length, and its value. -/
def readPair (keyLen : Nat) : Result (RawPair × Reader) :=
  if keyLen > r.remaining then .err (.lengthOverrun keyLen r.remaining)
  else do
    let (key, r) ← take r keyLen "a PSBT key"
    let (keyType, kr) ← compactSize (Cursor.new key)
    let keyData ← slice key kr.pos key.length
    let (value, r) ← lengthPrefixed r "a PSBT value"
    .ok (⟨UInt64.ofNat keyType, keyData, value⟩, r)

/-- One round of the loop over a map. -/
def readMapStep (id : MapId) (state : MapState) :
    Result (Outcome.Flow MapState (RawMap × Reader)) :=
  if state.reader.remaining = 0 then .err (.unterminatedMap id)
  else do
    let (keyLen, r) ← compactSize state.reader
    if keyLen = 0 then .ok (.done (state.map, r))
    else do
      let (pair, r) ← readPair r keyLen
      if pair.key ∈ state.seen then .err (.duplicateKey id pair.keyType)
      else .ok (.next ⟨r, state.map ++ [pair], pair.key :: state.seen⟩)

/-- The pairs of a map up to its separator. Every round reads at least a byte. -/
def readMap (id : MapId) : Result (RawMap × Reader) :=
  loop (readMapStep id) (r.remaining + 1) ⟨r, [], []⟩

/-- The next maps, with the identifier of the first. -/
def readMaps (id : Nat → MapId) : Nat → Nat → Reader → Result (List RawMap × Reader)
  | 0, _, r => .ok ([], r)
  | count + 1, index, r => do
    let (map, r) ← readMap r (id index)
    let (rest, r) ← readMaps id count (index + 1) r
    .ok (map :: rest, r)

end Reader

/-! ## Parsing -/

inductive PsbtVersion where
  | v0 | v2
  deriving DecidableEq, Repr

def versionFromGlobal (global : RawMap) : Result PsbtVersion :=
  match RawMap.getSingle global Keys.globalVersion with
  | none => .ok .v0
  | some value =>
    if value.length = 4 then do
      let bytes ← Reader.indices value 4
      match leNat bytes with
      | 0 => .ok .v0
      | 2 => .ok .v2
      | other => .err (.unsupportedVersion other)
    else .err (.badFieldLength .global Keys.globalVersion value.length "4")

def readCount (global : RawMap) (keyType : UInt64) (name : String) : Result Nat := do
  let raw ← ofOption (.missingGlobal name) (RawMap.getSingle global keyType)
  let (count, r) ← Reader.compactSize (Cursor.new raw)
  if r.remaining ≠ 0 then
    .err (.badFieldLength .global keyType raw.length "a single compact size")
  else .ok count

/-- The first of the given types that the map contains is an error. -/
def refuseTypes (error : UInt64 → PsbtError) (types : List UInt64) (map : RawMap) : Result Unit :=
  match types.find? (RawMap.containsType map) with
  | some keyType => .err (error keyType)
  | none => .ok ()

/-- The same for a list of maps, in order. -/
def refuseTypesIn (id : Nat → MapId) (types : List UInt64) : Nat → List RawMap → Result Unit
  | _, [] => .ok ()
  | index, map :: rest => do
    refuseTypes (.v2FieldInV0Map (id index)) types map
    refuseTypesIn id types (index + 1) rest

section Parse

variable (deserialize : Bytes → Option Transaction)

def countsFromUnsignedTx (global : RawMap) : Result (Nat × Nat) := do
  let raw ← ofOption .missingUnsignedTx (RawMap.getSingle global Keys.globalUnsignedTx)
  let tx ← ofOption .malformedUnsignedTx (deserialize raw)
  .ok (tx.input.length, tx.output.length)

/-- How many input and output maps follow the global one. -/
def counts (version : PsbtVersion) (global : RawMap) : Result (Nat × Nat) :=
  match version with
  | .v0 => countsFromUnsignedTx deserialize global
  | .v2 =>
    if RawMap.containsType global Keys.globalUnsignedTx then .err .unsignedTxInV2
    else do
      let inputCount ← readCount global Keys.globalInputCount "PSBT_GLOBAL_INPUT_COUNT"
      let outputCount ← readCount global Keys.globalOutputCount "PSBT_GLOBAL_OUTPUT_COUNT"
      .ok (inputCount, outputCount)

/-- The maps after the global one, which take the rest of the buffer. -/
def parseMaps (global : RawMap) (inputCount outputCount : Nat) (r : Reader) : Result RawPsbt :=
  let total := min (inputCount + outputCount) (2 ^ 64 - 1)
  if total > r.remaining then .err (.implausibleCount "inputs and outputs" total r.remaining)
  else do
    let (inputs, r) ← Reader.readMaps .input inputCount 0 r
    let (outputs, r) ← Reader.readMaps .output outputCount 0 r
    if r.remaining ≠ 0 then .err (.trailingData r.remaining)
    else .ok ⟨global, inputs, outputs⟩

def RawPsbt.parse (bytes : Bytes) : Result RawPsbt := do
  let r ← Reader.expectMagic (Cursor.new bytes)
  let (global, r) ← Reader.readMap r .global
  let version ← versionFromGlobal global
  let (inputCount, outputCount) ← counts deserialize version global
  onlyIf (version = .v0) (refuseTypes .v2FieldInV0 Keys.globalV2Only global)
  let psbt ← parseMaps global inputCount outputCount r
  onlyIf (version = .v0) (refuseTypesIn .input Keys.inputV2Only 0 psbt.inputs)
  onlyIf (version = .v0) (refuseTypesIn .output Keys.outputV2Only 0 psbt.outputs)
  .ok psbt

end Parse

end Satd.Psbt
