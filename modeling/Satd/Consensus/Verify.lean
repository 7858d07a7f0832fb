import Satd.Consensus.Eval
import Satd.Lib.Wire

/-!
# Witness programs and whole scripts

`verifyScript` runs the input's script, the output's script, the script a P2SH
output commits to, and the witness program either of them names. Witness
programs are version 0 key and script hashes and version 1 taproot outputs;
other versions are left to future rules.
-/

namespace Satd.Consensus

open Rust Outcome
open Rust.Outcome (failWhen onlyIf)

/-- What a verification runs with, the flags apart. -/
structure Host where
  build : Build
  crypto : Crypto
  checker : SignatureChecker

variable (host : Host)

/-- The environment of one script. -/
def Host.env (sigVersion : SigVersion) (script : Bytes) : Env where
  build := host.build
  crypto := host.crypto
  checker := host.checker
  sigVersion := sigVersion
  script := script

/-! ## Witness scripts -/

/-- Opcodes that make a tapscript succeed. -/
def isOpSuccess (opcode : UInt8) : Bool :=
  opcode == 80 || opcode == 98 || (126 ≤ opcode && opcode ≤ 129) ||
    (131 ≤ opcode && opcode ≤ 134) || (137 ≤ opcode && opcode ≤ 138) ||
    (141 ≤ opcode && opcode ≤ 142) || (149 ≤ opcode && opcode ≤ 153) ||
    (187 ≤ opcode && opcode ≤ 254)

variable (script : Bytes)

/-- One pass of the scan for an opcode that makes a tapscript succeed. -/
def scanPass (pc : Nat) : Exec (Outcome.Flow Nat Bool) :=
  if pc < script.length then do
    let opcode ← index script pc
    let pc := pc + 1
    if opcode ≤ 75 then .ok (.next (pc + opcode.toNat))
    else if opcode == 0x4c then
      if pc ≥ script.length then .ok (.done false)
      else do
        let n ← index script pc
        .ok (.next (pc + 1 + n.toNat))
    else if opcode == 0x4d then
      if pc + 1 ≥ script.length then .ok (.done false)
      else do
        let n ← pushLength2 script pc
        .ok (.next (pc + 2 + n))
    else if opcode == 0x4e then
      if pc + 3 ≥ script.length then .ok (.done false)
      else do
        let n ← pushLength4 script pc
        .ok (.next (pc + 4 + n))
    else if isOpSuccess opcode then .ok (.done true)
    else .ok (.next pc)
  else .ok (.done false)

/-- The verdict of a tapscript that contains such an opcode. -/
def scanForOpSuccess (flags : UInt32) : Exec (Option (Exec Unit)) := do
  let found ← loop (scanPass script) (script.length + 1) 0
  .ok (if found then
      some (failWhen (hasFlag flags verifyDiscourageOpSuccess) .discourageOpSuccess)
    else none)

variable (flags : UInt32) (initialStack : Stack)

/-- Run a witness script, which must leave exactly one true element. -/
def runWitnessScript (execScript : Bytes) (sigVersion : SigVersion) (execData : ExecData) :
    Exec Unit := do
  failWhen (initialStack.any (fun item => decide (item.length > maxScriptElementSize))) .pushSize
  let (stack, _) ← evalScript (host.env sigVersion execScript) flags initialStack execData
  failWhen (stack.length != 1) .cleanStack
  let item ← index stack 0
  let value ← castToBool host.build item
  failWhen (!value) .evalFalse

/-- Execute a witness script, after the rules tapscripts have for themselves. -/
def executeWitnessScript (execScript : Bytes) (sigVersion : SigVersion) (execData : ExecData) :
    Exec Unit :=
  if sigVersion = .tapscript then do
    let scanned ← scanForOpSuccess execScript flags
    match scanned with
    | some result => result
    | none => do
      failWhen (initialStack.length > maxStackSize) .stackSize
      runWitnessScript host flags initialStack execScript sigVersion execData
  else runWitnessScript host flags initialStack execScript sigVersion execData

/-! ## Taproot -/

def taprootLeafMask : UInt8 := 0xfe
def taprootLeafTapscript : UInt8 := 0xc0
def taprootControlBaseSize : Nat := 33
def taprootControlNodeSize : Nat := 32
def taprootControlMaxSize : Nat := 33 + 32 * 128
def annexTag : UInt8 := 0x50
def validationWeightOffset : Int := 50

/-- The bytes of `TapLeaf`. -/
def tapLeafTag : Bytes := [0x54, 0x61, 0x70, 0x4c, 0x65, 0x61, 0x66]

/-- The bytes of `TapBranch`. -/
def tapBranchTag : Bytes := [0x54, 0x61, 0x70, 0x42, 0x72, 0x61, 0x6e, 0x63, 0x68]

/-- The bytes of `TapTweak`. -/
def tapTweakTag : Bytes := [0x54, 0x61, 0x70, 0x54, 0x77, 0x65, 0x61, 0x6b]

variable (crypto : Crypto)

/-- The SHA256 of a message under a tag. -/
def Crypto.tagged (tag message : Bytes) : Bytes :=
  let tagHash := crypto.sha256 tag
  crypto.sha256 (tagHash ++ tagHash ++ message)

def computeTapleafHash (leafVersion : UInt8) (script : Bytes) : Bytes :=
  crypto.tagged tapLeafTag (leafVersion :: Wire.compactSize script.length ++ script)

def computeTapbranchHash (a b : Bytes) : Bytes :=
  crypto.tagged tapBranchTag (if a < b then a ++ b else b ++ a)

def computeTapTweakHash (internalKey merkleRoot : Bytes) : Bytes :=
  crypto.tagged tapTweakTag (internalKey ++ merkleRoot)

/-- Hash up the path from position `i` of the control block. -/
def hashPath (control : Bytes) : List Nat → Bytes → Exec Bytes
  | [], k => .ok k
  | i :: rest, k => do
    let offset := taprootControlBaseSize + taprootControlNodeSize * i
    let node ← slice control offset (offset + 32)
    hashPath control rest (computeTapbranchHash crypto k node)

def computeTaprootMerkleRoot (control tapleafHash : Bytes) : Exec Bytes := do
  let path ← host.build.sub 64 control.length taprootControlBaseSize
  hashPath host.crypto control (List.range (path / taprootControlNodeSize)) tapleafHash

/-- The output key is the internal key tweaked by the root of the script tree. -/
def verifyTaprootCommitment (control program tapleafHash : Bytes) : Exec Bool := do
  let keyBytes ← slice control 1 33
  match host.crypto.xOnlyPublicKey keyBytes, host.crypto.xOnlyPublicKey program with
  | some internalKey, some outputKey => do
    let merkleRoot ← computeTaprootMerkleRoot host control tapleafHash
    let first ← index control 0
    let tweak := computeTapTweakHash host.crypto internalKey merkleRoot
    let expectedParity := if first &&& 1 == 1 then Parity.odd else Parity.even
    match host.crypto.addTweak internalKey tweak with
    | some (tweaked, tweakedParity) =>
      .ok (tweaked == outputKey && tweakedParity == expectedParity)
    | none => .ok false
  | _, _ => .ok false

/-- The size of a serialized witness stack. -/
def witnessSerializedSize (stack : Stack) : Nat :=
  Wire.compactSizeLength stack.length +
    (stack.map (fun item => Wire.compactSizeLength item.length + item.length)).sum

variable (witness : Stack)

/-- Take the annex off the witness, if there is one, and record its hash. -/
def takeAnnex (execData : ExecData) : Exec (Stack × ExecData) :=
  if witness.length ≥ 2 then do
    let last ← lastItem witness
    if last.isEmpty then .ok (witness, { execData with annexPresent := false, annexInit := true })
    else do
      let tag ← index last 0
      if tag == annexTag then do
        let (annex, stack) ← popLast witness
        .ok (stack,
          { execData with
            annexHash := crypto.sha256 (Wire.compactSize annex.length ++ annex)
            annexPresent := true
            annexInit := true })
      else .ok (witness, { execData with annexPresent := false, annexInit := true })
  else .ok (witness, { execData with annexPresent := false, annexInit := true })

/-- Spend by a leaf of the script tree; `stack` is the witness without its annex. -/
def verifyTaprootScriptPath (witness stack : Stack)
    (program : Bytes) (execData : ExecData) : Exec Unit := do
  let (control, stack) ← popLast stack
  let (script, stack) ← popLast stack
  failWhen (control.length < taprootControlBaseSize ||
    control.length > taprootControlMaxSize) .taprootWrongControlSize
  let path ← host.build.sub 64 control.length taprootControlBaseSize
  failWhen (path % taprootControlNodeSize != 0) .taprootWrongControlSize
  let first ← index control 0
  let leafVersion := first &&& taprootLeafMask
  let tapleafHash := computeTapleafHash host.crypto leafVersion script
  let committed ← verifyTaprootCommitment host control program tapleafHash
  failWhen (!committed) .witnessProgramMismatch
  let execData := { execData with tapleafHash, tapleafHashInit := true }
  if leafVersion = taprootLeafTapscript then do
    let weight ← host.build.signed 64
      (Build.toI64 (witnessSerializedSize witness) + validationWeightOffset)
    executeWitnessScript host flags stack script .tapscript
      { execData with validationWeightLeft := weight, validationWeightLeftInit := true }
  else
    failWhen (hasFlag flags verifyDiscourageUpgradableTaprootVersion)
      .discourageUpgradableTaprootVersion

variable (program : Bytes)

/-- Spend a taproot output by its key or by a script. -/
def verifyTaprootSpend : Exec Unit := do
  failWhen witness.isEmpty .witnessProgramWitnessEmpty
  let (stack, execData) ← takeAnnex host.crypto witness ExecData.new
  if stack.length = 1 then do
    let sig ← index stack 0
    let verified ← host.checker.checkSchnorrSignature sig program .taproot execData
    failWhen (!verified) .schnorrSig
  else verifyTaprootScriptPath host flags witness stack program execData

/-! ## Witness programs -/

/-- The witness script is the last element and hashes to the program. -/
def verifyScriptHash : Exec Unit := do
  failWhen witness.isEmpty .witnessProgramWitnessEmpty
  let last ← host.build.sub 64 witness.length 1
  let scriptBytes ← index witness last
  let stack ← slice witness 0 last
  failWhen (host.crypto.sha256 scriptBytes != program) .witnessProgramMismatch
  executeWitnessScript host flags stack scriptBytes .witnessV0 ExecData.new

/-- The script a key-hash program stands for. -/
def keyHashScript : Bytes := [0x76, 0xa9, 0x14] ++ program ++ [0x88, 0xac]

def verifyKeyHash : Exec Unit := do
  failWhen (witness.length != 2) .witnessProgramMismatch
  executeWitnessScript host flags witness (keyHashScript program) .witnessV0 ExecData.new

/-- The version 1 program that anyone can spend to add a fee. -/
def isPayToAnchor (version : Nat) (program : Bytes) : Bool :=
  version == 1 && program == [0x4e, 0x73]

/-- Verify a witness program of any version. -/
def verifyWitnessProgram (version : Nat) (program : Bytes) (isP2sh : Bool) : Exec Unit :=
  if version = 0 then
    if program.length = 32 then verifyScriptHash host flags witness program
    else if program.length = 20 then verifyKeyHash host flags witness program
    else .err .witnessProgramWrongLength
  else if version = 1 ∧ program.length = 32 ∧ isP2sh = false then
    onlyIf (hasFlag flags verifyTaproot) (verifyTaprootSpend host flags witness program)
  else if isP2sh = false ∧ isPayToAnchor version program then .ok ()
  else failWhen (hasFlag flags verifyDiscourageUpgradableWitnessProgram)
    .discourageUpgradableWitnessProgram

/-! ## Scripts of an input and its output -/

/-- One pass over a script that must contain only pushes. -/
def pushOnlyPass (pc : Nat) : Exec (Outcome.Flow Nat Bool) :=
  if pc < script.length then do
    let opcode ← index script pc
    if opcode > 0x60 then .ok (.done false) else do
    let pc := pc + 1
    if opcode ≤ 75 then .ok (.next (pc + opcode.toNat))
    else if opcode == 0x4c then
      if pc ≥ script.length then .ok (.done false)
      else do
        let n ← index script pc
        .ok (.next (pc + 1 + n.toNat))
    else if opcode == 0x4d then
      if pc + 1 ≥ script.length then .ok (.done false)
      else do
        let n ← pushLength2 script pc
        .ok (.next (pc + 2 + n))
    else if opcode == 0x4e then
      if pc + 3 ≥ script.length then .ok (.done false)
      else do
        let n ← pushLength4 script pc
        .ok (.next (pc + 4 + n))
    else .ok (.next pc)
  else .ok (.done true)

/-- Whether a script contains only pushes. -/
def isPushOnly : Exec Bool := loop (pushOnlyPass script) (script.length + 1) 0

/-- Whether a script pays to a script hash. -/
def isP2sh (script : Bytes) : Exec Bool :=
  if script.length = 23 then do
    let hash160 ← index script 0
    if hash160 != 0xa9 then .ok false else do
    let push ← index script 1
    if push != 0x14 then .ok false else do
    let equal ← index script 22
    .ok (equal == 0x87)
  else .ok false

/-- The version and program of a witness program. -/
def isWitnessProgram : Exec (Option (Nat × Bytes)) :=
  if script.length < 4 ∨ script.length > 42 then .ok none
  else do
    let versionOpcode ← index script 0
    let version :=
      if versionOpcode == 0x00 then some 0
      else if 0x51 ≤ versionOpcode && versionOpcode ≤ 0x60 then
        some (versionOpcode - 0x50).toNat
      else none
    match version with
    | none => .ok none
    | some version => do
      let programLen ← index script 1
      let programLen := programLen.toNat
      if programLen < 2 ∨ programLen > 40 then .ok none
      else if script.length ≠ 2 + programLen then .ok none
      else do
        let program ← slice script 2 script.length
        .ok (some (version, program))

/-- The script that pushes the data and does nothing else. -/
def buildSinglePush (data : Bytes) : Bytes :=
  let len := data.length
  if len ≤ 75 then UInt8.ofNat len :: data
  else if len ≤ 255 then 0x4c :: UInt8.ofNat len :: data
  else if len ≤ 65535 then 0x4d :: UInt8.ofNat len :: UInt8.ofNat (len >>> 8) :: data
  else 0x4e :: UInt8.ofNat len :: UInt8.ofNat (len >>> 8) :: UInt8.ofNat (len >>> 16) ::
    UInt8.ofNat (len >>> 24) :: data

/-- The evaluation left a true element on top. -/
def requireTrue (build : Build) (stack : Stack) : Exec Unit := do
  failWhen stack.isEmpty .evalFalse
  let top ← lastItem stack
  let value ← castToBool build top
  failWhen (!value) .evalFalse

/-- Cut or extend a stack to exactly one element. -/
def resizeToOne (stack : Stack) : Stack :=
  match stack with
  | [] => [[]]
  | item :: _ => [item]

/-- Run the witness program a script names, if it names one. Returns the stack
and whether the witness was used. -/
def runNamedProgram (script : Bytes)
    (stack : Stack) (spent : Exec Unit) (isP2sh : Bool) : Exec (Stack × Bool) :=
  if hasFlag flags verifyWitness then do
    let named ← isWitnessProgram script
    match named with
    | some (version, program) => do
      spent
      verifyWitnessProgram host flags witness version program isP2sh
      .ok (resizeToOne stack, true)
    | none => .ok (stack, false)
  else .ok (stack, false)

variable (scriptSig : Bytes)

/-- The script behind a script hash: evaluate it over the stack the input's
script left, and run the witness program it may name. -/
def verifyRedeemScript (witness : Stack) (stackCopy : Option Stack) (execData : ExecData) :
    Exec (Stack × Bool) := do
  let pushOnly ← isPushOnly scriptSig
  failWhen (!pushOnly) .sigPushOnly
  let stack ← unwrap stackCopy
  assert (!stack.isEmpty)
  let (redeemScript, stack) ← popLast stack
  let (stack, _) ← evalScript (host.env .base redeemScript) flags stack execData
  requireTrue host.build stack
  runNamedProgram host flags witness redeemScript stack
    (failWhen (scriptSig != buildSinglePush redeemScript) .witnessMalleatedP2sh) true

/-- With the flag, exactly one element may be left. -/
def checkCleanStack (stack : Stack) : Exec Unit :=
  failWhen (hasFlag flags verifyCleanstack && stack.length != 1) .cleanStack

variable (scriptPubkey : Bytes)

/-- What follows the evaluation of the output's script: the witness program it
may name, the script behind a script hash, and the rules on what is left. -/
def verifyPrograms (witness : Stack) (stackCopy : Option Stack) (stack : Stack)
    (execData : ExecData) :
    Exec Unit := do
  let (stack, bareWitness) ← runNamedProgram host flags witness scriptPubkey stack
    (failWhen (!scriptSig.isEmpty) .witnessMalleated) false
  let toScriptHash ← (if hasFlag flags verifyP2sh then isP2sh scriptPubkey else .ok false)
  let (stack, nestedWitness) ← (if toScriptHash then
      verifyRedeemScript host flags scriptSig witness stackCopy execData
    else .ok (stack, false))
  checkCleanStack flags stack
  failWhen (hasFlag flags verifyWitness && !(bareWitness || nestedWitness) &&
    !witness.isEmpty) .witnessUnexpected

/-- Verify that an input's script and witness satisfy the output's script. -/
def verifyScript (witness : Stack) : Exec Unit := do
  onlyIf (hasFlag flags verifySigpushonly) do
    let pushOnly ← isPushOnly scriptSig
    failWhen (!pushOnly) .sigPushOnly
  let (stack, execData) ← evalScript (host.env .base scriptSig) flags [] ExecData.new
  let stackCopy := if hasFlag flags verifyP2sh then some stack else none
  let (stack, execData) ← evalScript (host.env .base scriptPubkey) flags stack execData
  requireTrue host.build stack
  verifyPrograms host flags scriptSig scriptPubkey witness stackCopy stack execData

/-! ## A spend to run the definitions on -/

/-- Functions that agree with the real hashes on the one-byte script `OP_1` and
on its SHA256. -/
def trueScriptCrypto : Crypto where
  ripemd160 _ :=
    [0xda, 0x17, 0x45, 0xe9, 0xb5, 0x49, 0xbd, 0x0b, 0xfa, 0x1a, 0x56, 0x99, 0x71, 0xc7, 0x7e,
      0xba, 0x30, 0xcd, 0x5a, 0x4b]
  sha1 _ := []
  sha256 _ :=
    [0x4a, 0xe8, 0x15, 0x72, 0xf0, 0x6e, 0x1b, 0x88, 0xfd, 0x5c, 0xed, 0x7a, 0x1a, 0x00, 0x09,
      0x45, 0x43, 0x2e, 0x83, 0xe1, 0x55, 0x1e, 0x6f, 0x72, 0x1e, 0xe9, 0xc0, 0x0b, 0x8c, 0xc3,
      0x32, 0x60]
  normalizedDer _ := none
  xOnlyPublicKey _ := none
  addTweak _ _ := none

/-- The output script that pays to the hash of `OP_1`. -/
def trueScriptHashOutput : Bytes := [0xa9, 0x14] ++ trueScriptCrypto.ripemd160 [] ++ [0x87]

end Satd.Consensus
