import Satd.Psbt.Lossless

/-!
# What the raw parser accepts

A parse that succeeds returns a well-formed value: no key twice in a map, as many maps as the
global map announces, and the fields that the version asks for and no field of the other one.
-/

namespace Satd.Psbt

open Rust Rust.Outcome Wire Cursor List
open Satd.Bitcoin (Transaction)
open Satd.Consensus (Bytes)

variable {r : Reader} {global map : RawMap} {types : List UInt64}

theorem Reader.readMaps_accepts (id : Nat → MapId) (count index : Nat) (valid : r.Valid) :
    (Reader.readMaps id count index r).Safe fun result => result.2.Valid ∧
      result.1.length = count ∧ ∀ map ∈ result.1, (map.map RawPair.key).Nodup := by
  induction count generalizing index r with
  | zero => exact ⟨valid, rfl, by simp⟩
  | succ count ih =>
    refine .bind (Reader.readMap_lossless valid (id index)) fun read holds => ?_
    obtain ⟨moved, distinct⟩ := holds
    refine .bind (ih (index + 1) moved.valid) fun others later => ?_
    obtain ⟨valid, length, rest⟩ := later
    exact ⟨valid, congrArg Nat.succ length, forall_mem_cons.mpr ⟨distinct, rest⟩⟩

theorem parseMaps_accepts {inputCount outputCount : Nat} (valid : r.Valid) :
    (parseMaps global inputCount outputCount r).Safe fun psbt => psbt.global = global ∧
      psbt.inputs.length = inputCount ∧ psbt.outputs.length = outputCount ∧
      ∀ map ∈ psbt.inputs ++ psbt.outputs, (map.map RawPair.key).Nodup := by
  refine .ite (fun _ => trivial) fun _ => ?_
  refine Safe.bind (Reader.readMaps_accepts .input inputCount 0 valid) fun ins first => ?_
  refine Safe.bind (Reader.readMaps_accepts .output outputCount 0 first.1) fun outs second => ?_
  exact .ite (fun _ => trivial) fun _ => ⟨rfl, first.2.1, second.2.1,
    forall_mem_append.mpr ⟨first.2.2, second.2.2⟩⟩

/-- None of the types is in the map. -/
def Free (types : List UInt64) (map : RawMap) : Prop :=
  ∀ keyType ∈ types, RawMap.containsType map keyType = false

theorem free_of_refuseTypes {error : UInt64 → PsbtError}
    (ran : refuseTypes error types map = .ok ()) : Free types map := by
  intro keyType member
  unfold refuseTypes at ran
  split at ran
  · cases ran
  · next absent => simpa using find?_eq_none.mp absent keyType member

theorem free_of_refuseTypesIn {id : Nat → MapId} {index : Nat} {maps : List RawMap}
    (ran : refuseTypesIn id types index maps = .ok ()) : ∀ map ∈ maps, Free types map := by
  induction maps generalizing index with
  | nil => simp
  | cons map rest ih =>
    simp only [refuseTypesIn, bind_eq_ok] at ran
    obtain ⟨_, here, later⟩ := ran
    exact forall_mem_cons.mpr ⟨free_of_refuseTypes here, ih later⟩

/-- A count that is read is the whole field, in its shortest form. -/
theorem readCount_accepts {keyType : UInt64} {name : String} {count : Nat}
    (ran : readCount global keyType name = .ok count) :
    RawMap.getSingle global keyType = some (Wire.compactSize count) := by
  simp only [readCount, bind_eq_ok, ofOption_eq_ok] at ran
  obtain ⟨raw, found, ⟨number, after⟩, read, ran⟩ := ran
  split_ifs at ran with whole
  cases ran
  have passed := ((Reader.compactSize_lossless new_valid).of_eq_ok read).1.passed
  rw [Cursor.new_rest, rest_eq_nil (not_not.mp whole), append_nil] at passed
  rw [found, passed]

/-- A file of version 0: it carries the unsigned transaction, has a map for each of its inputs
and outputs, none with a duplicate key, and no field of version 2. -/
structure WellFormedV0 (deserialize : Bytes → Option Transaction) (psbt : RawPsbt) : Prop where
  version : versionFromGlobal psbt.global = .ok .v0
  distinct : ∀ map ∈ psbt.maps, (map.map RawPair.key).Nodup
  unsignedTx : ∃ raw tx, RawMap.getSingle psbt.global Keys.globalUnsignedTx = some raw ∧
    deserialize raw = some tx ∧ psbt.inputs.length = tx.input.length ∧
    psbt.outputs.length = tx.output.length
  global : Free Keys.globalV2Only psbt.global
  inputs : ∀ map ∈ psbt.inputs, Free Keys.inputV2Only map
  outputs : ∀ map ∈ psbt.outputs, Free Keys.outputV2Only map

/-- What is accepted is a well-formed file of one of the two versions. -/
theorem parse_accepts_wellFormed (deserialize : Bytes → Option Transaction) (bytes : Bytes)
    (psbt : RawPsbt) (parsed : RawPsbt.parse deserialize bytes = .ok psbt) :
    WellFormedV0 deserialize psbt ∨ WellFormedV2 psbt := by
  simp only [RawPsbt.parse, bind_eq_ok] at parsed
  obtain ⟨start, magicRead, ⟨global, middle⟩, globalRead, version, isVersion, ⟨ins, outs⟩, counted,
    _, refused, found, mapsRead, _, refusedIn, _, refusedOut, same⟩ := parsed
  cases same
  have magicPassed := (Reader.expectMagic_lossless new_valid).of_eq_ok magicRead
  obtain ⟨globalPassed, distinct⟩ :=
    (Reader.readMap_lossless magicPassed.valid .global).of_eq_ok globalRead
  obtain ⟨rfl, inputs, outputs, others⟩ :=
    (parseMaps_accepts globalPassed.valid).of_eq_ok mapsRead
  have allDistinct : ∀ map ∈ psbt.maps, (map.map RawPair.key).Nodup :=
    forall_mem_cons.mpr ⟨distinct, others⟩
  cases version with
  | v0 =>
    simp only [counts, countsFromUnsignedTx, bind_eq_ok, ofOption_eq_ok] at counted
    obtain ⟨raw, present, tx, decoded, same⟩ := counted
    cases same
    exact .inl ⟨isVersion, allDistinct, ⟨raw, tx, present, decoded, inputs, outputs⟩,
      free_of_refuseTypes refused, free_of_refuseTypesIn refusedIn,
      free_of_refuseTypesIn refusedOut⟩
  | v2 =>
    simp only [counts] at counted
    split_ifs at counted with unsigned
    simp only [bind_eq_ok] at counted
    obtain ⟨inputCount, readInputs, outputCount, readOutputs, same⟩ := counted
    cases same
    refine .inr ⟨isVersion, allDistinct, ?_, ?_, by simpa using unsigned⟩
    · rw [inputs, readCount_accepts readInputs]
    · rw [outputs, readCount_accepts readOutputs]

theorem parse_accepts_sample : WellFormedV0 (fun _ => none) samplePsbt ∨ WellFormedV2 samplePsbt :=
  parse_accepts_wellFormed (fun _ => none) samplePsbt.serialize samplePsbt (by decide +kernel)

end Satd.Psbt
