import Satd.Consensus.ScriptNum

/-!
# Encodings of signatures, keys and pushes

The format checks of signatures and public keys, the minimal-push rule and
`FindAndDelete`. Each reads its argument by position, so each comes with a
lemma that no position is outside. The checks that depend on flags come with a
lemma that fewer flags accept at least as much.
-/

namespace Satd.Consensus

open Rust List Outcome
open Rust.Outcome (Safe Extends failWhen onlyIf ok_bind)

variable (build : Build) (crypto : Crypto)

/-! ## Signatures -/

variable (sig : Bytes)

/-- The format of a DER signature followed by a hash type. -/
def isValidSignatureEncoding : Exec Bool :=
  if sig.length < 9 ∨ sig.length > 73 then .ok false
  else do
    let compound ← index sig 0
    if compound != 0x30 then .ok false else do
    let total ← index sig 1
    let covered ← build.sub 64 sig.length 3
    if total.toNat != covered then .ok false else do
    let lenR ← index sig 3
    let lenR := lenR.toNat
    if 5 + lenR ≥ sig.length then .ok false else do
    let lenS ← index sig (5 + lenR)
    let lenS := lenS.toNat
    if lenR + lenS + 7 ≠ sig.length then .ok false else do
    let tagR ← index sig 2
    if tagR != 0x02 then .ok false else do
    if lenR = 0 then .ok false else do
    let firstR ← index sig 4
    if firstR &&& 0x80 != 0 then .ok false else do
    let paddedR ← paddedInteger sig lenR 4
    if paddedR then .ok false else do
    let tagS ← index sig (lenR + 4)
    if tagS != 0x02 then .ok false else do
    if lenS = 0 then .ok false else do
    let firstS ← index sig (lenR + 6)
    if firstS &&& 0x80 != 0 then .ok false else do
    let paddedS ← paddedInteger sig lenS (lenR + 6)
    .ok (!paddedS)
where
  /-- The integer of `length` bytes at `start` begins with a null byte that its
      sign does not need. -/
  paddedInteger (sig : Bytes) (length start : Nat) : Exec Bool :=
    if length > 1 then do
      let first ← index sig start
      if first == 0x00 then do
        let second ← index sig (start + 1)
        .ok (second &&& 0x80 == 0)
      else .ok false
    else .ok false

/-- A number that is not negative, in its shortest form: the sign bit is clear, and a null byte
stands in front only of a byte that would be read as the sign. -/
def DerInteger : Bytes → Prop
  | [] => False
  | [first] => first &&& 0x80 = 0
  | first :: second :: _ => first &&& 0x80 = 0 ∧ (first = 0 → second &&& 0x80 ≠ 0)

/-- A signature in strict DER: two numbers under a common tag, and the hash type behind them. -/
def StrictDer : Prop :=
  ∃ (total lenR lenS hashType : UInt8) (r s : Bytes),
    sig = 0x30 :: total :: 0x02 :: lenR :: (r ++ 0x02 :: lenS :: (s ++ [hashType])) ∧
    (9 ≤ sig.length ∧ sig.length ≤ 73) ∧ total.toNat = sig.length - 3 ∧
    lenR.toNat = r.length ∧ DerInteger r ∧ lenS.toNat = s.length ∧ DerInteger s

/-- The S value of a DER signature is in the lower half. -/
def isLowDerSignature : Exec Unit := do
  let valid ← isValidSignatureEncoding build sig
  failWhen (!valid) .sigDer
  let stop ← build.sub 64 sig.length 1
  let sigWithoutHashtype ← slice sig 0 stop
  match crypto.normalizedDer sigWithoutHashtype with
  | some normalized => failWhen (normalized != sigWithoutHashtype) .sigHighS
  | none => .err .sigDer

/-- The hash type of a signature is one of the three defined ones. -/
def isDefinedHashtypeSignature : Exec Bool :=
  if sig.isEmpty then .ok false
  else do
    let last ← build.sub 64 sig.length 1
    let hashType ← index sig last
    let hashType := hashType &&& 0x7f
    .ok (1 ≤ hashType && hashType ≤ 3)

/-- The signature encoding rules the flags ask for. -/
def checkSignatureEncoding (flags : UInt32) : Exec Unit :=
  if sig.isEmpty then .ok ()
  else do
    onlyIf (hasFlag flags (verifyDersig ||| verifyLowS ||| verifyStrictenc)) do
      let valid ← isValidSignatureEncoding build sig
      failWhen (!valid) .sigDer
    onlyIf (hasFlag flags verifyLowS) (isLowDerSignature build crypto sig)
    onlyIf (hasFlag flags verifyStrictenc) do
      let defined ← isDefinedHashtypeSignature build sig
      failWhen (!defined) .sigHashtype

/-! ## Public keys and pushes -/

variable (pubkey : Bytes)

def isCompressedOrUncompressedPubkey : Exec Bool :=
  if pubkey.length < 33 then .ok false
  else do
    let tag ← index pubkey 0
    if tag == 0x04 then .ok (pubkey.length == 65)
    else if tag == 0x02 || tag == 0x03 then .ok (pubkey.length == 33)
    else .ok false

def isCompressedPubkey : Exec Bool :=
  if pubkey.length = 33 then do
    let tag ← index pubkey 0
    .ok (tag == 0x02 || tag == 0x03)
  else .ok false

/-- The public key encoding rules the flags ask for. -/
def checkPubkeyEncoding (flags : UInt32) (sigVersion : SigVersion) : Exec Unit := do
  onlyIf (hasFlag flags verifyStrictenc) do
    let known ← isCompressedOrUncompressedPubkey pubkey
    failWhen (!known) .pubkeyType
  onlyIf (hasFlag flags verifyWitnessPubkeytype && sigVersion == .witnessV0) do
    let compressed ← isCompressedPubkey pubkey
    failWhen (!compressed) .witnessPubkeyType

/-- Whether a push used the shortest opcode for its data. -/
def checkMinimalPush (data : Bytes) (opcode : UInt8) : Exec Bool :=
  if data.isEmpty then .ok (opcode == 0x00)
  else if data.length = 1 then do
    let byte ← index data 0
    if 1 ≤ byte && byte ≤ 16 then .ok false
    else if byte == 0x81 then .ok false
    else .ok (opcode.toNat == data.length)
  else if data.length ≤ 75 then .ok (opcode.toNat == data.length)
  else if data.length ≤ 255 then .ok (opcode == 0x4c)
  else if data.length ≤ 65535 then .ok (opcode == 0x4d)
  else .ok true

/-! ## FindAndDelete -/

/-- The two length bytes of a `PUSHDATA2`, low byte first. -/
def pushLength2 (script : Bytes) (pc : Nat) : Exec Nat := do
  let byte0 ← index script pc
  let byte1 ← index script (pc + 1)
  .ok (byte0.toNat ||| byte1.toNat <<< 8)

/-- The four length bytes of a `PUSHDATA4`, low byte first. -/
def pushLength4 (script : Bytes) (pc : Nat) : Exec Nat := do
  let byte0 ← index script pc
  let byte1 ← index script (pc + 1)
  let byte2 ← index script (pc + 2)
  let byte3 ← index script (pc + 3)
  .ok (byte0.toNat ||| byte1.toNat <<< 8 ||| byte2.toNat <<< 16 ||| byte3.toNat <<< 24)

/-- Step over one instruction, stopping at the end of a truncated script. -/
def skipInstruction (script : Bytes) (pc : Nat) : Exec Nat := do
  let opcode ← index script pc
  let pc := pc + 1
  if opcode ≤ 75 then .ok (min (pc + opcode.toNat) script.length)
  else if opcode == 0x4c then
    if pc < script.length then do
      let n ← index script pc
      .ok (min (pc + 1 + n.toNat) script.length)
    else .ok pc
  else if opcode == 0x4d then
    if pc + 1 < script.length then do
      let n ← pushLength2 script pc
      .ok (min (pc + 2 + n) script.length)
    else .ok script.length
  else if opcode == 0x4e then
    if pc + 3 < script.length then do
      let n ← pushLength4 script pc
      .ok (min (pc + 4 + n) script.length)
    else .ok script.length
  else .ok pc

variable (script pattern : Bytes)

/-- One pass of the loop that steps over consecutive matches. -/
def skipMatchesPass (state : Nat × Nat) : Exec (Outcome.Flow (Nat × Nat) (Nat × Nat)) :=
  let (pc, count) := state
  if pc + pattern.length ≤ script.length then do
    let part ← slice script pc (pc + pattern.length)
    if part == pattern then .ok (.next (pc + pattern.length, count + 1))
    else .ok (.done (pc, count))
  else .ok (.done (pc, count))

/-- The state of the outer loop of `FindAndDelete`. -/
structure DeleteState where
  result : Bytes
  count : Nat
  pc : Nat
  pc2 : Nat

/-- One pass of the outer loop: copy what was stepped over, step over matches,
then step over one instruction. -/
def findAndDeletePass (state : DeleteState) : Exec (Outcome.Flow DeleteState DeleteState) := do
  let copied ← slice script state.pc2 state.pc
  let (pc, count) ← loop (skipMatchesPass script pattern) (script.length + 1)
    (state.pc, state.count)
  let matched : DeleteState := { result := state.result ++ copied, count, pc, pc2 := pc }
  if pc ≥ script.length then .ok (.done matched)
  else do
    let pc ← skipInstruction script pc
    .ok (.next { matched with pc })

/-- Remove every occurrence of the pattern at an instruction boundary, and count
the removals. -/
def findAndDelete : Exec (Bytes × Nat) :=
  if pattern.isEmpty ∨ script.length < pattern.length then .ok (script, 0)
  else do
    let last ← loop (findAndDeletePass script pattern) (script.length + 1)
      { result := [], count := 0, pc := 0, pc2 := 0 }
    if last.count > 0 then do
      let rest ← slice script last.pc2 script.length
      .ok (last.result ++ rest, last.count)
    else .ok (script, 0)

/-- The push of a signature that `FindAndDelete` looks for. A length above
65535 gets no opcode. -/
def signaturePattern : Bytes :=
  if sig.length ≤ 75 then UInt8.ofNat sig.length :: sig
  else if sig.length ≤ 255 then 0x4c :: UInt8.ofNat sig.length :: sig
  else if sig.length ≤ 65535 then
    0x4d :: UInt8.ofNat sig.length :: UInt8.ofNat (sig.length >>> 8) :: sig
  else sig

/-! ## No check reads outside its argument -/

section

variable {sig} {start : Nat}

private theorem drop_eq_cons {item : UInt8} (read : sig[start]? = some item) :
    sig.drop start = item :: sig.drop (start + 1) := by
  obtain ⟨inside, rfl⟩ := List.getElem?_eq_some_iff.mp read
  exact drop_eq_getElem_cons inside

private theorem exists_part (size : Nat) (inside : start + size ≤ sig.length) :
    ∃ part, size = part.length ∧ sig.drop start = part ++ sig.drop (start + size) := by
  refine ⟨(sig.drop start).take size, ?_, ?_⟩
  · rw [length_take, length_drop]
    omega
  · rw [← drop_drop, take_append_drop]

variable {value : Bytes}

/-- The tests on the number at a position ask for its form. -/
theorem derInteger_tests {back : Bytes} (whole : sig.drop start = value ++ back)
    (filled : value.length ≠ 0) :
    ∃ first padded, (index sig start : Exec UInt8) = .ok first ∧
      isValidSignatureEncoding.paddedInteger sig value.length start = .ok padded ∧
      (DerInteger value ↔ ¬(first &&& 0x80 != 0) = true ∧ ¬padded = true) := by
  have reads : ∀ position, (index sig (start + position) : Exec UInt8) =
      index (value ++ back) position := by simp [index, ← whole]
  unfold isValidSignatureEncoding.paddedInteger
  rw [← add_zero start, reads 0, add_zero, reads 1]
  rcases value with _ | ⟨one, _ | ⟨two, more⟩⟩
  · exact absurd rfl filled
  · exact ⟨one, false, rfl, by simp, by simp [DerInteger]⟩
  · refine ⟨one, one == 0 && two &&& 0x80 == 0, rfl, ?_, by simp [DerInteger]⟩
    by_cases null : one = 0 <;> simp [null]

/-- The two length bytes of a signature are checked against its size before
anything behind them is read. -/
theorem isValidSignatureEncoding_safe :
    Safe (isValidSignatureEncoding build sig) (fun valid => valid = true → StrictDer sig) := by
  refine .ite (fun _ => by simp) (fun sized => ?_)
  refine .read (by omega) fun compound readCompound => ?_
  refine .ite (fun _ => by simp) (fun isCompound => ?_)
  refine .read (by omega) fun total readTotal => ?_
  rw [Build.sub_of_le (by omega), ok_bind]
  refine .ite (fun _ => by simp) (fun covered => ?_)
  refine .read (by omega) fun lenR readLenR => ?_
  refine .ite (fun _ => by simp) (fun insideR => ?_)
  refine .read (by omega) fun lenS readLenS => ?_
  refine .ite (fun _ => by simp) (fun exactSum => ?_)
  obtain ⟨r, sizeR, behindR⟩ := exists_part lenR.toNat (by omega : 4 + _ ≤ sig.length)
  obtain ⟨s, sizeS, behindS⟩ := exists_part lenS.toNat (by omega : lenR.toNat + 6 + _ ≤ sig.length)
  rw [add_comm] at behindR readLenS
  simp only [sizeR, sizeS] at behindR behindS readLenS exactSum ⊢
  refine .read (by omega) fun tagR readTagR => ?_
  refine .ite (fun _ => by simp) (fun isTagR => ?_)
  refine .ite (fun _ => by simp) (fun positiveR => ?_)
  obtain ⟨firstR, paddedR, readR, testR, numberR⟩ := derInteger_tests behindR positiveR
  rw [readR, ok_bind]
  refine .ite (fun _ => by simp) (fun signR => ?_)
  rw [testR, ok_bind]
  refine .ite (fun _ => by simp) (fun shortR => ?_)
  refine .read (by omega) fun tagS readTagS => ?_
  refine .ite (fun _ => by simp) (fun isTagS => ?_)
  refine .ite (fun _ => by simp) (fun positiveS => ?_)
  obtain ⟨firstS, paddedS, readS, testS, numberS⟩ := derInteger_tests behindS positiveS
  rw [readS, ok_bind]
  refine .ite (fun _ => by simp) (fun signS => ?_)
  rw [testS, ok_bind]
  intro shortS
  simp only [bne_iff_ne, ne_eq, not_not] at isCompound isTagR isTagS covered
  subst isCompound isTagR isTagS
  obtain ⟨hashType, readLast⟩ : ∃ last, sig[r.length + 6 + s.length]? = some last :=
    ⟨_, getElem?_eq_getElem (by omega)⟩
  refine ⟨total, lenR, lenS, hashType, r, s, ?_, by omega, covered, sizeR,
    numberR.mpr ⟨signR, shortR⟩, sizeS, numberS.mpr ⟨signS, by simpa using shortS⟩⟩
  have ended : sig.drop (r.length + 6 + s.length + 1) = [] := drop_eq_nil_of_le (by omega)
  rw [drop_eq_cons readLast, ended] at behindS
  rw [drop_eq_cons readTagS, drop_eq_cons readLenS, behindS] at behindR
  calc sig = sig.drop 0 := rfl
    _ = _ := by
      rw [drop_eq_cons readCompound, drop_eq_cons readTotal, drop_eq_cons readTagR,
        drop_eq_cons readLenR, behindR]

theorem DerInteger.filled (number : DerInteger value) : value.length ≠ 0 := by
  rintro empty
  rw [length_eq_zero_iff.mp empty] at number
  exact number

/-- A signature in strict DER passes every check. -/
theorem isValidSignatureEncoding_of_strictDer (strict : StrictDer sig) :
    isValidSignatureEncoding build sig = .ok true := by
  obtain ⟨total, lenR, lenS, hashType, r, s, shape, sized, covered, sizeR, numberR, sizeS,
    numberS⟩ := strict
  have sum : sig.length = r.length + s.length + 7 := by
    simp only [shape, length_cons, length_append, length_nil]
    omega
  have atR : sig.drop 4 = r ++ 0x02 :: lenS :: (s ++ [hashType]) := by rw [shape]; rfl
  have atS : sig.drop (r.length + 6) = s ++ [hashType] := by simp [shape, drop_append]
  obtain ⟨firstR, paddedR, readR, testR, formR⟩ := derInteger_tests atR numberR.filled
  obtain ⟨firstS, paddedS, readS, testS, formS⟩ := derInteger_tests atS numberS.filled
  have reads : ∀ position item, sig[position]? = some item →
    (index sig position : Exec UInt8) = .ok item := fun _ _ => index_eq_ok_iff.mpr
  have readLenS := reads (5 + r.length) lenS (by simp [shape, add_comm 5])
  simp only [isValidSignatureEncoding, reads 0 0x30 (by simp [shape]),
    reads 1 total (by simp [shape]), reads 2 0x02 (by simp [shape]),
    reads 3 lenR (by simp [shape]), reads (r.length + 4) 0x02 (by simp [shape]), readLenS, readR,
    testR, readS, testS, Build.sub_of_le (by omega : 3 ≤ sig.length), ok_bind, sizeR,
    sizeS, numberR.filled, numberS.filled, formR.mp numberR, formS.mp numberS, covered, if_false]
  simp [show ¬(sig.length < 9 ∨ 73 < sig.length) by omega,
    show ¬sig.length ≤ 5 + r.length by omega, sum.symm]

/-- The check decides the grammar and never reads outside the signature. -/
theorem strict_der_decided : isValidSignatureEncoding build sig ≠ .panic ∧
    (isValidSignatureEncoding build sig = .ok true ↔ StrictDer sig) := by
  have safe : Safe (isValidSignatureEncoding build sig) _ := isValidSignatureEncoding_safe build
  exact ⟨safe.ne_panic, fun valid => safe.of_eq_ok valid rfl,
    isValidSignatureEncoding_of_strictDer build⟩

end

theorem isLowDerSignature_safe : Safe (isLowDerSignature build crypto sig) := by
  refine (isValidSignatureEncoding_safe build).bind fun valid strict => ?_
  refine .check fun passed => ?_
  obtain ⟨_, _, _, _, _, _, -, sized, -⟩ := strict (by simpa using passed)
  refine .sub (by omega) ?_
  refine (Safe.slice (by omega) (by omega)).bind fun stripped _ => ?_
  cases crypto.normalizedDer stripped with
  | some normalized => exact .refuse
  | none => trivial

theorem isDefinedHashtypeSignature_safe : Safe (isDefinedHashtypeSignature build sig) := by
  refine .ite (fun _ => trivial) (fun nonempty => ?_)
  have positive : 0 < sig.length := length_pos_iff.mpr (by simpa using nonempty)
  refine .sub (by omega) ?_
  exact .read (by omega) fun hashType _ => trivial

variable {flags : UInt32} {pubkey : Bytes} {sigVersion : SigVersion} {pc : Nat}

variable {build crypto sig} in
theorem checkSignatureEncoding_safe : Safe (checkSignatureEncoding build crypto sig flags) := by
  refine .ite (fun _ => trivial) (fun _ => ?_)
  refine (Safe.onlyIf (fun _ => ?_)).bind fun _ _ => ?_
  · exact (isValidSignatureEncoding_safe build).bind fun valid _ => .refuse
  refine (Safe.onlyIf (fun _ => isLowDerSignature_safe build crypto sig)).bind fun _ _ => ?_
  refine .onlyIf (fun _ => ?_)
  exact (isDefinedHashtypeSignature_safe build sig).bind fun defined _ => .refuse

theorem checkPubkeyEncoding_safe : Safe (checkPubkeyEncoding pubkey flags sigVersion) := by
  have known : Safe (isCompressedOrUncompressedPubkey pubkey) := by
    refine .ite (fun _ => trivial) (fun long => ?_)
    refine .read (by omega) fun tag _ => ?_
    refine .ite (fun _ => trivial) (fun _ => ?_)
    exact .ite (fun _ => trivial) (fun _ => trivial)
  have compressed : Safe (isCompressedPubkey pubkey) := by
    refine .ite (fun long => ?_) (fun _ => trivial)
    exact .read (by omega) fun tag _ => trivial
  refine (Safe.onlyIf (fun _ => ?_)).bind fun _ _ => ?_
  · exact .bind known (fun _ _ => .refuse)
  refine .onlyIf (fun _ => ?_)
  exact .bind compressed (fun _ _ => .refuse)

theorem checkMinimalPush_safe {data : Bytes} {opcode : UInt8} :
    Safe (checkMinimalPush data opcode) := by
  refine .ite (fun _ => trivial) (fun _ => ?_)
  refine .ite (fun single => ?_) (fun _ => ?_)
  · refine .read (by omega) fun byte _ => ?_
    refine .ite (fun _ => trivial) (fun _ => ?_)
    exact .ite (fun _ => trivial) (fun _ => trivial)
  · refine .ite (fun _ => trivial) (fun _ => ?_)
    refine .ite (fun _ => trivial) (fun _ => ?_)
    exact .ite (fun _ => trivial) (fun _ => trivial)

theorem pushLength2_safe {script : Bytes} (inside : pc + 1 < script.length) :
    Safe (pushLength2 script pc) (· < 2 ^ 16) := by
  refine .read (by omega) fun low _ => .read inside fun high _ => ?_
  have shifted : high.toNat <<< 8 < 2 ^ 16 := by
    have below := high.toNat_lt
    rw [Nat.shiftLeft_eq]
    omega
  exact Nat.or_lt_two_pow (low.toNat_lt.trans (by decide)) shifted

theorem pushLength4_safe {script : Bytes} (inside : pc + 3 < script.length) :
    Safe (pushLength4 script pc) := by
  refine .read (by omega) fun _ _ => ?_
  refine .read (by omega) fun _ _ => ?_
  refine .read (by omega) fun _ _ => ?_
  exact .read (by omega) fun _ _ => trivial

/-! ## Fewer flags accept at least as much -/

variable {fewer more : UInt32} (subset : FlagSubset fewer more)

include subset

theorem checkSignatureEncoding_extends {sig : Bytes} :
    Extends (checkSignatureEncoding build crypto sig fewer)
      (checkSignatureEncoding build crypto sig more) := by
  unfold checkSignatureEncoding
  split
  · exact .refl _
  · refine .bind (.onlyIf subset.hasFlag_imp (.refl _)) (fun _ => ?_)
    refine .bind (.onlyIf subset.hasFlag_imp (.refl _)) (fun _ => ?_)
    exact .onlyIf subset.hasFlag_imp (.refl _)

theorem checkPubkeyEncoding_extends :
    Extends (checkPubkeyEncoding pubkey fewer sigVersion)
      (checkPubkeyEncoding pubkey more sigVersion) := by
  have witnessKeys : (hasFlag fewer verifyWitnessPubkeytype && sigVersion == .witnessV0) = true →
      (hasFlag more verifyWitnessPubkeytype && sigVersion == .witnessV0) = true := by
    intro asked
    rw [Bool.and_eq_true] at asked ⊢
    exact ⟨subset.hasFlag_imp asked.1, asked.2⟩
  refine .bind (.onlyIf subset.hasFlag_imp (.refl _)) (fun _ => ?_)
  exact .onlyIf witnessKeys (.refl _)

end Satd.Consensus
