import Satd.Psbt.Raw

/-!
# Nothing is lost in the raw layer

Every reader passes exactly the bytes that its writer writes for what it returned,
and reads back what the writer writes. A compact size has one accepted encoding, so
the two hold at every level: sizes, keys and values, pairs, maps, and the whole.
-/

namespace Satd.Psbt

open Rust Wire Rust.Cursor List Outcome
open Rust.Outcome (Safe ok_bind)
open Satd.Bitcoin (Transaction)
open Satd.Consensus (Bytes)

variable {r : Reader} (pair : RawPair)

namespace Reader

/-! ## Bytes -/

theorem take_lossless (valid : r.Valid) (count : Nat) (what : String) :
    (take r count what).Safe fun result =>
      result.1.length = count ∧ Moved r result.1 result.2 := by
  unfold take
  split
  · trivial
  · rename_i enough
    obtain ⟨cut, moved⟩ := slice_next (ε := PsbtError) valid (Nat.le_of_not_lt enough)
    rw [cut]
    refine ⟨?_, moved⟩
    rw [length_take, length_rest]
    omega

variable {tail : Bytes} {state : MapState}

theorem take_complete (valid : r.Valid) (bytes : Bytes) (what : String)
    (next : r.rest = bytes ++ tail) :
    ∃ after, take r bytes.length what = .ok (bytes, after) ∧ Moved r bytes after := by
  obtain ⟨same, enough⟩ := take_rest next
  obtain ⟨cut, moved⟩ := slice_next (ε := PsbtError) valid enough
  rw [same] at cut moved
  refine ⟨_, ?_, moved⟩
  unfold take
  rw [if_neg (not_lt.mpr enough), cut]
  rfl

theorem byte_lossless (valid : r.Valid) (what : String) :
    (byte r what).Safe fun result => Moved r [result.1] result.2 := by
  refine .bind (take_lossless valid 1 what) fun taken holds => ?_
  obtain ⟨out, after⟩ := taken
  obtain ⟨single, moved⟩ := holds
  obtain ⟨first, rfl⟩ := length_eq_one_iff.mp single
  exact moved

theorem byte_complete (valid : r.Valid) {first : UInt8} (what : String)
    (next : r.rest = first :: tail) :
    ∃ after, byte r what = .ok (first, after) ∧ Moved r [first] after := by
  obtain ⟨after, taken, moved⟩ := take_complete valid [first] what next
  refine ⟨after, ?_, moved⟩
  change take r 1 what = _ at taken
  simp only [byte, taken, ok_bind, index_cons_zero]

theorem indices_eq (bytes : Bytes) {count : Nat} (enough : count ≤ bytes.length) :
    indices bytes count = .ok (bytes.take count) := by
  induction count with
  | zero => rfl
  | succ count ih =>
    have before := ih (by omega)
    have last : (.index bytes count : Result UInt8) = .ok bytes[count] := index_eq_ok (by omega)
    simp only [indices, before, last, ok_bind, take_append_getElem]

/-! ## Compact sizes -/

section

variable (valid : r.Valid)
include valid

/-- A wide size: the bytes after the marker, and a number that needs them. -/
theorem wideSize_lossless (width least : Nat) :
    (wideSize r width least).Safe fun result =>
      Moved r (leBytes width result.1) result.2 ∧ least ≤ result.1 ∧ result.1 < 256 ^ width := by
  refine .bind (take_lossless valid width "a compact size") fun taken holds => ?_
  obtain ⟨out, after⟩ := taken
  obtain ⟨length, moved⟩ := holds
  simp only at length moved ⊢
  rw [indices_eq out length.ge, ← length, take_length, ok_bind]
  split
  · trivial
  · rename_i wide
    refine ⟨?_, Nat.le_of_not_lt wide, leNat_lt⟩
    simp only [leBytes_leNat]
    exact moved

variable {least value width : Nat}

theorem wideSize_complete (next : r.rest = leBytes width value ++ tail) (wide : least ≤ value)
    (fits : value < 256 ^ width) :
    ∃ after, wideSize r width least = .ok (value, after) ∧ Moved r (leBytes width value) after := by
  obtain ⟨after, taken, moved⟩ := take_complete valid _ "a compact size" next
  rw [leBytes_length] at taken
  have bytes : indices (leBytes width value) width = .ok (leBytes width value) := by
    rw [indices_eq _ (leBytes_length width value).ge, take_of_length_le (by simp)]
  refine ⟨after, ?_, moved⟩
  simp only [wideSize, taken, bytes, ok_bind, leNat_leBytes fits]
  rw [if_neg (not_lt.mpr wide)]

/-- The one accepted encoding of a size. -/
theorem compactSize_lossless :
    (compactSize r).Safe fun result =>
      Moved r (Wire.compactSize result.1) result.2 ∧ result.1 < 2 ^ 64 := by
  refine .bind (byte_lossless valid "a compact size") fun read marked => ?_
  obtain ⟨first, after⟩ := read
  simp only at marked ⊢
  have wide (width least : Nat) (marker : UInt8) (isFirst : first = marker)
      (encoded : ∀ value, least ≤ value → value < 256 ^ width →
        Wire.compactSize value = marker :: leBytes width value ∧ value < 2 ^ 64) :
      (wideSize after width least).Safe fun result =>
        Moved r (Wire.compactSize result.1) result.2 ∧ result.1 < 2 ^ 64 := by
    refine (wideSize_lossless marked.valid width least).mono fun result holds => ?_
    obtain ⟨moved, large, fits⟩ := holds
    obtain ⟨encoding, small⟩ := encoded result.1 large fits
    refine ⟨?_, small⟩
    rw [encoding, ← isFirst]
    exact marked.trans moved
  unfold sizeAfter
  split_ifs with small isTwo isFour
  · have narrow : first.toNat < 0xfd := Nat.lt_succ_of_le (UInt8.le_iff_toNat_le.mp small)
    refine ⟨?_, lt_trans narrow (by decide)⟩
    simp only [Wire.compactSize, if_pos narrow, UInt8.ofNat_toNat]
    exact marked
  · refine wide 2 0xfd 0xfd isTwo fun value large fits => ?_
    rw [Wire.compactSize, if_neg (by omega), if_pos (by omega)]
    exact ⟨rfl, by omega⟩
  · refine wide 4 (0xffff + 1) 0xfe isFour fun value large fits => ?_
    rw [Wire.compactSize, if_neg (by omega), if_neg (by omega), if_pos (by omega)]
    exact ⟨rfl, by omega⟩
  · have isEight : first = 0xff := by
      rw [UInt8.le_iff_toNat_le] at small
      rw [← UInt8.toNat_inj] at isTwo isFour ⊢
      have below := first.toNat_lt
      simp only [UInt8.reduceToNat] at small isTwo isFour ⊢
      omega
    refine wide 8 (0xffff_ffff + 1) 0xff isEight fun value large fits => ?_
    rw [Wire.compactSize, if_neg (by omega), if_neg (by omega), if_neg (by omega)]
    exact ⟨rfl, by omega⟩

/-- A size after its marker. -/
theorem markedSize_complete {marker : UInt8}
    (reads : ∀ r, sizeAfter marker r = wideSize r width least)
    (next : r.rest = marker :: leBytes width value ++ tail) (wide : least ≤ value)
    (fits : value < 256 ^ width) :
    ∃ after, compactSize r = .ok (value, after) ∧
      Moved r (marker :: leBytes width value) after := by
  obtain ⟨middle, marked, first⟩ := byte_complete valid "a compact size" next
  obtain ⟨after, sized, second⟩ := wideSize_complete first.valid (first.rest_eq next) wide fits
  refine ⟨after, ?_, first.trans second⟩
  simp only [compactSize, marked, ok_bind, reads, sized]

theorem compactSize_complete (value : Nat)
    (next : r.rest = Wire.compactSize value ++ tail) (fits : value < 2 ^ 64) :
    ∃ after, compactSize r = .ok (value, after) ∧ Moved r (Wire.compactSize value) after := by
  unfold Wire.compactSize at next ⊢
  split_ifs at next ⊢ with small two four
  · obtain ⟨after, marked, moved⟩ := byte_complete valid "a compact size" next
    have exact : (UInt8.ofNat value).toNat = value := by
      rw [UInt8.toNat_ofNat']
      omega
    have narrow : UInt8.ofNat value ≤ 0xfc := by
      rw [UInt8.le_iff_toNat_le, exact]
      exact Nat.le_of_lt_succ small
    refine ⟨after, ?_, moved⟩
    simp only [compactSize, marked, ok_bind, sizeAfter, if_pos narrow, exact]
  · exact markedSize_complete valid (fun _ => rfl) next (by omega) (by omega)
  · exact markedSize_complete valid (fun _ => rfl) next (by omega) (by omega)
  · exact markedSize_complete valid (fun _ => rfl) next (by omega) (by omega)

/-! ## Values and pairs -/

theorem lengthPrefixed_lossless (what : String) :
    (lengthPrefixed r what).Safe fun result =>
      Moved r (Wire.compactSize result.1.length ++ result.1) result.2 := by
  refine .bind (compactSize_lossless valid) fun sized holds => ?_
  obtain ⟨length, middle⟩ := sized
  obtain ⟨moved, -⟩ := holds
  simp only at moved ⊢
  split
  · trivial
  · refine (take_lossless moved.valid length what).mono fun result taken => ?_
    rw [taken.1]
    exact moved.trans taken.2

theorem lengthPrefixed_complete {value : Bytes} (what : String)
    (next : r.rest = Wire.compactSize value.length ++ value ++ tail)
    (fits : value.length < 2 ^ 64) :
    ∃ after, lengthPrefixed r what = .ok (value, after) ∧
      Moved r (Wire.compactSize value.length ++ value) after := by
  rw [append_assoc] at next
  obtain ⟨middle, sized, first⟩ := compactSize_complete valid _ next fits
  have left := first.rest_eq next
  obtain ⟨after, taken, second⟩ := take_complete first.valid value what left
  have enough := (take_rest left).2
  refine ⟨after, ?_, first.trans second⟩
  simp only [lengthPrefixed, sized, ok_bind]
  rw [if_neg (not_lt.mpr enough), taken]

end

/-- The bytes of a key. -/
def keyBytes : Bytes := Wire.compactSize pair.keyType.toNat ++ pair.keyData

theorem length_keyBytes : (keyBytes pair).length = pair.keyLength := by
  simp [keyBytes, RawPair.keyLength]

/-- The bytes of a pair after the length of its key. -/
def pairBytes : Bytes := keyBytes pair ++ (Wire.compactSize pair.value.length ++ pair.value)

theorem serialize_eq : pair.serialize = Wire.compactSize pair.keyLength ++ pairBytes pair := by
  simp [RawPair.serialize, pairBytes, keyBytes]

/-- A key is a type in its accepted encoding and whatever follows it. -/
theorem readKey_lossless (key : Bytes) :
    (compactSize (Cursor.new key)).Safe fun result =>
      result.1 < 2 ^ 64 ∧
        (slice key result.2.pos key.length : Result Bytes) = .ok result.2.rest ∧
        key = Wire.compactSize result.1 ++ result.2.rest := by
  refine (compactSize_lossless (new_valid)).mono fun result holds => ?_
  obtain ⟨moved, fits⟩ := holds
  exact ⟨fits, moved.slice_rest, moved.passed⟩

theorem readPair_lossless (valid : r.Valid) (keyLen : Nat) :
    (readPair r keyLen).Safe fun result =>
      result.1.keyLength = keyLen ∧ Moved r (pairBytes result.1) result.2 := by
  unfold readPair
  split
  · trivial
  · refine .bind (take_lossless valid keyLen "a PSBT key") fun taken holds => ?_
    obtain ⟨key, middle⟩ := taken
    obtain ⟨length, first⟩ := holds
    refine .bind (readKey_lossless key) fun typed known => ?_
    obtain ⟨keyType, kr⟩ := typed
    obtain ⟨fits, cut, split⟩ := known
    simp only at fits cut split ⊢
    rw [cut, ok_bind]
    refine .bind (lengthPrefixed_lossless first.valid "a PSBT value") fun read second => ?_
    obtain ⟨value, after⟩ := read
    have exact : (UInt64.ofNat keyType).toNat = keyType := by
      rw [UInt64.toNat_ofNat']
      exact Nat.mod_eq_of_lt fits
    have isKey : keyBytes ⟨.ofNat keyType, kr.rest, value⟩ = key := by
      simp only [keyBytes, exact]
      exact split.symm
    refine ⟨?_, ?_⟩
    · rw [← length_keyBytes, isKey, length]
    · rw [pairBytes, isKey]
      exact first.trans second

theorem readPair_complete (valid : r.Valid) {pair : RawPair}
    (next : r.rest = pairBytes pair ++ tail) (fits : pair.value.length < 2 ^ 64) :
    ∃ after, readPair r pair.keyLength = .ok (pair, after) ∧ Moved r (pairBytes pair) after := by
  rw [pairBytes, append_assoc] at next
  obtain ⟨middle, taken, first⟩ := take_complete valid _ "a PSBT key" next
  obtain ⟨after, read, second⟩ :=
    lengthPrefixed_complete first.valid "a PSBT value" (first.rest_eq next) fits
  obtain ⟨kr, typed, moved⟩ := compactSize_complete (new_valid) _
    (show (Cursor.new (keyBytes pair)).rest = _ from rfl) pair.keyType.toNat_lt
  have enough := (take_rest next).2
  rw [length_keyBytes] at taken enough
  have keyRest : kr.rest = pair.keyData := moved.rest_eq rfl
  have cut : (.slice (keyBytes pair) kr.pos (keyBytes pair).length : Result Bytes) =
      .ok pair.keyData := by
    rw [← keyRest]
    exact moved.slice_rest
  refine ⟨after, ?_, first.trans second⟩
  rw [readPair, if_neg (not_lt.mpr enough)]
  simp only [taken, typed, cut, read, ok_bind, UInt64.ofNat_toNat]

/-! ## Maps -/

/-- The pairs of a map without its separator. -/
def pairsBytes (pairs : RawMap) : Bytes := pairs.flatMap RawPair.serialize

theorem pairsBytes_append (pairs : RawMap) (pair : RawPair) :
    pairsBytes (pairs ++ [pair]) = pairsBytes pairs ++ pair.serialize := by
  simp [pairsBytes]

theorem keyLength_pos : 0 < pair.keyLength := by
  have positive : 0 < compactSizeLength pair.keyType.toNat := by
    unfold compactSizeLength
    split_ifs <;> decide
  exact Nat.add_pos_left positive _

/-- A map being read: what was passed are the pairs so far, no two with one key. -/
structure Reading (start : Reader) (state : MapState) : Prop where
  moved : Moved start (pairsBytes state.map) state.reader
  seen : state.seen = (state.map.map RawPair.key).reverse
  distinct : (state.map.map RawPair.key).Nodup

/-- A round passes a pair with a new key, or the separator. -/
theorem readMapStep_lossless {id : MapId} {start : Reader} (reading : Reading start state) :
    (readMapStep id state).Safe (Safe.Pass (Reading start)
      (fun result => Moved start (RawMap.serialize result.1) result.2 ∧
        (result.1.map RawPair.key).Nodup)
      (fun state => state.reader.remaining) state) := by
  unfold readMapStep
  split
  · trivial
  · refine .bind (compactSize_lossless reading.moved.valid) fun sized holds => ?_
    obtain ⟨keyLen, middle⟩ := sized
    obtain ⟨first, -⟩ := holds
    simp only at first ⊢
    split
    · rename_i ends
      subst ends
      exact ⟨reading.moved.trans first, reading.distinct⟩
    · refine .bind (readPair_lossless first.valid keyLen) fun read known => ?_
      obtain ⟨pair, after⟩ := read
      obtain ⟨length, second⟩ := known
      split
      · trivial
      · rename_i fresh
        have passed : Moved state.reader pair.serialize after := by
          rw [serialize_eq, length]
          exact first.trans second
        have shorter := passed.remaining
        have positive : 0 < pair.serialize.length := by
          have sizeLength := compactSize_length keyLen
          have some : 0 < compactSizeLength keyLen := by
            unfold compactSizeLength
            split_ifs <;> decide
          rw [serialize_eq, length, length_append]
          omega
        refine ⟨⟨?_, ?_, ?_⟩, ?_⟩
        · rw [pairsBytes_append]
          exact reading.moved.trans passed
        · simp [reading.seen]
        · rw [reading.seen, mem_reverse] at fresh
          have absent : ∀ other ∈ state.map, other.key ≠ pair.key :=
            fun other member same => fresh (mem_map.mpr ⟨other, member, same⟩)
          simpa [nodup_append] using ⟨reading.distinct, absent⟩
        · simp only
          omega

/-- Reading a map passes what writing it writes. -/
theorem readMap_lossless (valid : r.Valid) (id : MapId) :
    (readMap r id).Safe fun result =>
      Moved r (RawMap.serialize result.1) result.2 ∧ (result.1.map RawPair.key).Nodup := by
  refine .loop (Reading r) (fun state => state.reader.remaining)
    (fun state reading => readMapStep_lossless reading) _ _ ?_ (Nat.lt_succ_self _)
  exact ⟨.refl valid, rfl, nodup_nil⟩

/-- The lengths of a key and a value fit the 64-bit numbers they are written as. -/
def Fits : Prop := pair.keyLength < 2 ^ 64 ∧ pair.value.length < 2 ^ 64

variable (id : MapId)

/-- A round reads the next pair, if its key is new. -/
theorem readMapStep_pair (valid : state.reader.Valid) {pair : RawPair}
    (next : state.reader.rest = pair.serialize ++ tail) (fits : Fits pair)
    (fresh : pair.key ∉ state.seen) :
    ∃ after, readMapStep id state =
        .ok (.next ⟨after, state.map ++ [pair], pair.key :: state.seen⟩) ∧
      Moved state.reader pair.serialize after := by
  rw [serialize_eq, append_assoc] at next
  obtain ⟨middle, sized, first⟩ := compactSize_complete valid _ next fits.1
  obtain ⟨after, read, second⟩ := readPair_complete first.valid (first.rest_eq next) fits.2
  have some : state.reader.remaining ≠ 0 := by
    have positive := keyLength_pos pair
    have length := first.remaining
    have passed := second.remaining
    rw [pairBytes, length_append, length_keyBytes] at passed
    omega
  refine ⟨after, ?_, serialize_eq pair ▸ first.trans second⟩
  rw [readMapStep, if_neg some]
  simp only [sized, ok_bind, if_neg (keyLength_pos pair).ne', read, if_neg fresh]

/-- A round ends at the separator. -/
theorem readMapStep_separator (valid : state.reader.Valid)
    (next : state.reader.rest = 0x00 :: tail) :
    ∃ after, readMapStep id state = .ok (.done (state.map, after)) ∧
      Moved state.reader [0x00] after := by
  obtain ⟨after, sized, moved⟩ := compactSize_complete valid 0 next (by decide)
  have some : state.reader.remaining ≠ 0 := by
    rw [← length_rest, next]
    simp
  refine ⟨after, ?_, moved⟩
  rw [readMapStep, if_neg some]
  simp only [sized, ok_bind, if_true]

/-- The loop reads the pairs that are left, if their keys are new, and ends. -/
theorem readMapLoop_complete (pairs : RawMap) (state : MapState) (fuel : Nat)
    (valid : state.reader.Valid) (next : state.reader.rest = RawMap.serialize pairs ++ tail)
    (fits : ∀ pair ∈ pairs, Fits pair) (distinct : (pairs.map RawPair.key).Nodup)
    (fresh : ∀ pair ∈ pairs, pair.key ∉ state.seen) (enough : state.reader.remaining < fuel) :
    ∃ after, loop (readMapStep id) fuel state = .ok (state.map ++ pairs, after) ∧
      Moved state.reader (RawMap.serialize pairs) after := by
  induction pairs generalizing state fuel with
  | nil =>
    obtain ⟨after, ended, moved⟩ := readMapStep_separator id valid next
    cases fuel with
    | zero => omega
    | succ fuel => exact ⟨after, by simp only [loop, ended, append_nil], moved⟩
  | cons pair rest ih =>
    have whole : RawMap.serialize (pair :: rest) = pair.serialize ++ RawMap.serialize rest := by
      simp [RawMap.serialize]
    rw [whole, append_assoc] at next
    obtain ⟨middle, stepped, first⟩ := readMapStep_pair id valid next
      (fits pair mem_cons_self) (fresh pair mem_cons_self)
    obtain ⟨notAgain, restDistinct⟩ := nodup_cons.mp distinct
    have shorter : middle.remaining < state.reader.remaining := by
      have length := first.remaining
      have positive := keyLength_pos pair
      rw [serialize_eq, pairBytes, length_append, length_append, length_keyBytes] at length
      omega
    cases fuel with
    | zero => omega
    | succ fuel =>
      obtain ⟨after, read, second⟩ := ih
        ⟨middle, state.map ++ [pair], pair.key :: state.seen⟩ fuel first.valid (first.rest_eq next)
        (fun other member => fits other (mem_cons_of_mem _ member)) restDistinct
        (fun other member => by
          simp only [mem_cons, not_or]
          refine ⟨fun same => notAgain ?_, fresh other (mem_cons_of_mem _ member)⟩
          exact mem_map.mpr ⟨other, member, same⟩)
        (by simp only; omega)
      refine ⟨after, ?_, whole ▸ first.trans second⟩
      simp only [loop, stepped]
      rw [read, append_assoc]
      rfl

theorem readMap_complete (valid : r.Valid) (id : MapId) {map : RawMap}
    (next : r.rest = RawMap.serialize map ++ tail) (fits : ∀ pair ∈ map, Fits pair)
    (distinct : (map.map RawPair.key).Nodup) :
    ∃ after, readMap r id = .ok (map, after) ∧ Moved r (RawMap.serialize map) after := by
  obtain ⟨after, read, moved⟩ := readMapLoop_complete id map ⟨r, [], []⟩ _ valid next fits
    distinct (fun _ _ => not_mem_nil) (Nat.lt_succ_self _)
  exact ⟨after, read, moved⟩

theorem readMaps_lossless (id : Nat → MapId) (count index : Nat) (valid : r.Valid) :
    (readMaps id count index r).Safe fun result =>
      Moved r (result.1.flatMap RawMap.serialize) result.2 := by
  induction count generalizing index r with
  | zero => exact .refl valid
  | succ count ih =>
    refine .bind (readMap_lossless valid (id index)) fun read holds => ?_
    obtain ⟨first, -⟩ := holds
    refine .bind (ih (index + 1) first.valid) fun later second => ?_
    exact first.trans second

theorem readMaps_complete (id : Nat → MapId) (index : Nat) {maps : List RawMap} (valid : r.Valid)
    (next : r.rest = maps.flatMap RawMap.serialize ++ tail)
    (fits : ∀ map ∈ maps, ∀ pair ∈ map, Fits pair)
    (distinct : ∀ map ∈ maps, (map.map RawPair.key).Nodup) :
    ∃ after, readMaps id maps.length index r = .ok (maps, after) ∧
      Moved r (maps.flatMap RawMap.serialize) after := by
  induction maps generalizing index r with
  | nil => exact ⟨r, rfl, .refl valid⟩
  | cons map rest ih =>
    rw [flatMap_cons, append_assoc] at next
    obtain ⟨middle, read, first⟩ := readMap_complete valid (id index) next
      (fits map mem_cons_self) (distinct map mem_cons_self)
    obtain ⟨after, others, second⟩ := ih (index + 1) first.valid
      (first.rest_eq next) (fun other member => fits other (mem_cons_of_mem _ member))
      (fun other member => distinct other (mem_cons_of_mem _ member))
    refine ⟨after, ?_, ?_⟩
    · simp only [length_cons, readMaps, read, others, ok_bind]
    · rw [flatMap_cons]
      exact first.trans second

/-! ## The magic number -/

theorem expectMagic_lossless (valid : r.Valid) :
    (expectMagic r).Safe fun after => Moved r magic after := by
  unfold expectMagic
  split
  · trivial
  · rename_i enough
    obtain ⟨cut, moved⟩ := slice_next (ε := PsbtError) valid (Nat.le_of_not_lt enough)
    rw [cut, ok_bind]
    split
    · rename_i isMagic
      rw [isMagic] at moved
      exact moved
    · trivial

theorem expectMagic_complete (valid : r.Valid) (next : r.rest = magic ++ tail) :
    ∃ after, expectMagic r = .ok after ∧ Moved r magic after := by
  obtain ⟨same, enough⟩ := take_rest next
  obtain ⟨cut, moved⟩ := slice_next (ε := PsbtError) valid enough
  rw [same] at cut moved
  refine ⟨_, ?_, moved⟩
  rw [expectMagic, if_neg (not_lt.mpr enough), cut]
  rfl

end Reader

/-! ## Whole files -/

variable {global : RawMap}

theorem versionFromGlobal_safe : (versionFromGlobal global).Safe := by
  unfold versionFromGlobal
  split
  · trivial
  · split
    · rename_i length
      rw [Reader.indices_eq _ length.ge, ok_bind]
      split <;> trivial
    · trivial

theorem readCount_safe {keyType : UInt64} {name : String} :
    (readCount global keyType name).Safe := by
  refine .bind (.ofOption _ _) fun raw _ => ?_
  refine Safe.bind (Reader.compactSize_lossless (Cursor.new_valid)) fun read _ => ?_
  exact .ite (fun _ => trivial) fun _ => trivial

section Parse

variable (deserialize : Bytes → Option Transaction)

variable {global : RawMap} {psbt : RawPsbt}

theorem counts_safe {version : PsbtVersion} : (counts deserialize version global).Safe := by
  cases version with
  | v0 =>
    exact .bind (.ofOption _ _) fun _ _ =>
      .bind (.ofOption _ _) fun _ _ => trivial
  | v2 =>
    refine .ite (fun _ => trivial) fun _ => ?_
    exact .bind (readCount_safe) fun _ _ =>
      .bind (readCount_safe) fun _ _ => trivial

theorem refuseTypes_safe (error : UInt64 → PsbtError) (types : List UInt64) (map : RawMap) :
    (refuseTypes error types map).Safe := by
  unfold refuseTypes
  split <;> trivial

theorem refuseTypesIn_safe (id : Nat → MapId) (types : List UInt64) (index : Nat)
    (maps : List RawMap) : (refuseTypesIn id types index maps).Safe := by
  induction maps generalizing index with
  | nil => trivial
  | cons map rest ih =>
    exact .bind (refuseTypes_safe _ types map) fun _ _ => ih (index + 1)

theorem parseMaps_lossless {inputCount outputCount : Nat} (valid : r.Valid) :
    (parseMaps global inputCount outputCount r).Safe fun psbt => psbt.global = global ∧
      r.rest = psbt.inputs.flatMap RawMap.serialize ++ psbt.outputs.flatMap RawMap.serialize := by
  refine .ite (fun _ => trivial) fun _ => ?_
  refine Safe.bind (Reader.readMaps_lossless .input inputCount 0 valid) fun ins first => ?_
  refine Safe.bind (Reader.readMaps_lossless .output outputCount 0 first.valid)
    fun outs second => ?_
  refine .ite (fun _ => trivial) fun finished => ⟨rfl, ?_⟩
  have passed := (first.trans second).passed
  rw [Cursor.rest_eq_nil (not_not.mp finished), append_nil] at passed
  exact passed

/-- Parsing never panics, and what it returns is written back as the same bytes. -/
theorem parse_lossless {bytes : Bytes} :
    (RawPsbt.parse deserialize bytes).Safe fun psbt => psbt.serialize = bytes := by
  refine Safe.bind (Reader.expectMagic_lossless (Cursor.new_valid)) fun start magicPassed => ?_
  refine Safe.bind (Reader.readMap_lossless magicPassed.valid .global) fun read holds => ?_
  obtain ⟨global, middle⟩ := read
  obtain ⟨globalPassed, -⟩ := holds
  refine .bind (versionFromGlobal_safe) fun version _ => ?_
  refine .bind (counts_safe deserialize) fun count _ => ?_
  refine .bind (.onlyIf fun _ => refuseTypes_safe _ _ global) fun _ _ => ?_
  refine .bind (parseMaps_lossless globalPassed.valid) fun psbt known => ?_
  refine .bind (.onlyIf fun _ => refuseTypesIn_safe _ _ _ _) fun _ _ => ?_
  refine .bind (.onlyIf fun _ => refuseTypesIn_safe _ _ _ _) fun _ _ => ?_
  obtain ⟨sameGlobal, rest⟩ := known
  have passed := (magicPassed.trans globalPassed).passed
  rw [Cursor.new_rest, rest] at passed
  simp only [Safe.ok_iff, RawPsbt.serialize, sameGlobal, passed, append_assoc]

/-- All the maps of a file. -/
def RawPsbt.maps (psbt : RawPsbt) : List RawMap := psbt.global :: (psbt.inputs ++ psbt.outputs)

/-- Every vector has fewer elements than half the address space, as all vectors in
memory do. -/
structure InMemory (psbt : RawPsbt) : Prop where
  keys : ∀ map ∈ psbt.maps, ∀ pair ∈ map, pair.keyData.length < 2 ^ 63
  values : ∀ map ∈ psbt.maps, ∀ pair ∈ map, pair.value.length < 2 ^ 63
  inputs : psbt.inputs.length < 2 ^ 63
  outputs : psbt.outputs.length < 2 ^ 63

/-- A file that declares version 2, whose maps have no duplicate keys, whose counts are
those of its maps, and that carries no unsigned transaction. -/
structure WellFormedV2 (psbt : RawPsbt) : Prop where
  version : versionFromGlobal psbt.global = .ok .v2
  distinct : ∀ map ∈ psbt.maps, (map.map RawPair.key).Nodup
  inputCount : RawMap.getSingle psbt.global Keys.globalInputCount =
    some (Wire.compactSize psbt.inputs.length)
  outputCount : RawMap.getSingle psbt.global Keys.globalOutputCount =
    some (Wire.compactSize psbt.outputs.length)
  noUnsignedTx : RawMap.containsType psbt.global Keys.globalUnsignedTx = false

theorem InMemory.fits (inMemory : InMemory psbt) {map : RawMap} (member : map ∈ psbt.maps) :
    ∀ pair ∈ map, Reader.Fits pair := by
  intro pair inside
  have key := inMemory.keys map member pair inside
  have value := inMemory.values map member pair inside
  have typeLength := compactSizeLength_le pair.keyType.toNat
  constructor
  · simp only [RawPair.keyLength]
    omega
  · omega

theorem readCount_complete {keyType : UInt64} {count : Nat} (name : String)
    (present : RawMap.getSingle global keyType = some (Wire.compactSize count))
    (fits : count < 2 ^ 64) : readCount global keyType name = .ok count := by
  obtain ⟨after, read, moved⟩ := Reader.compactSize_complete
    (Cursor.new_valid) count
    (show (Cursor.new (Wire.compactSize count)).rest = Wire.compactSize count ++ [] by simp) fits
  have nothing : after.remaining = 0 := by
    have length := moved.remaining
    rw [← Cursor.length_rest, Cursor.new_rest] at length
    omega
  rw [readCount, present]
  simp only [Outcome.ofOption, ok_bind, read, nothing]
  rfl

/-- A map takes at least the byte of its separator. -/
theorem length_le_serialize (maps : List RawMap) :
    maps.length ≤ (maps.flatMap RawMap.serialize).length := by
  induction maps with
  | nil => exact le_rfl
  | cons map rest ih =>
    simp only [flatMap_cons, length_append, length_cons, RawMap.serialize, length_nil]
    omega

theorem parseMaps_complete (valid : r.Valid)
    (next : r.rest = psbt.inputs.flatMap RawMap.serialize ++ psbt.outputs.flatMap RawMap.serialize)
    (inMemory : InMemory psbt) (distinct : ∀ map ∈ psbt.maps, (map.map RawPair.key).Nodup) :
    parseMaps psbt.global psbt.inputs.length psbt.outputs.length r = .ok psbt := by
  have isInput : ∀ map ∈ psbt.inputs, map ∈ psbt.maps := fun map member => by
    simp [RawPsbt.maps, member]
  have isOutput : ∀ map ∈ psbt.outputs, map ∈ psbt.maps := fun map member => by
    simp [RawPsbt.maps, member]
  obtain ⟨middle, ins, first⟩ := Reader.readMaps_complete .input 0 valid next
    (fun map member => inMemory.fits (isInput map member))
    (fun map member => distinct map (isInput map member))
  have left : middle.rest = psbt.outputs.flatMap RawMap.serialize ++ [] := by
    rw [first.rest_eq next, append_nil]
  obtain ⟨after, outs, second⟩ := Reader.readMaps_complete .output 0 first.valid left
    (fun map member => inMemory.fits (isOutput map member))
    (fun map member => distinct map (isOutput map member))
  have believable : ¬min (psbt.inputs.length + psbt.outputs.length) (2 ^ 64 - 1) > r.remaining := by
    have inputsLength := length_le_serialize psbt.inputs
    have outputsLength := length_le_serialize psbt.outputs
    have length := congrArg length next
    rw [Cursor.length_rest, length_append] at length
    omega
  have finished : after.remaining = 0 := by
    have length := second.remaining
    rw [← Cursor.length_rest, left, append_nil] at length
    omega
  simp only [parseMaps, if_neg believable, ins, outs, ok_bind, finished, ne_eq,
    not_true_eq_false, if_false]

theorem parse_complete (inMemory : InMemory psbt) (wellFormed : WellFormedV2 psbt) :
    RawPsbt.parse deserialize psbt.serialize = .ok psbt := by
  have isGlobal : psbt.global ∈ psbt.maps := mem_cons_self
  have whole : (Cursor.new psbt.serialize).rest = magic ++ (RawMap.serialize psbt.global ++
      (psbt.inputs.flatMap RawMap.serialize ++ psbt.outputs.flatMap RawMap.serialize)) := by
    simp [RawPsbt.serialize]
  obtain ⟨start, magicRead, magicPassed⟩ := Reader.expectMagic_complete (Cursor.new_valid) whole
  obtain ⟨middle, globalRead, globalPassed⟩ := Reader.readMap_complete magicPassed.valid .global
    (magicPassed.rest_eq whole) (inMemory.fits isGlobal) (wellFormed.distinct _ isGlobal)
  have left := globalPassed.rest_eq (magicPassed.rest_eq whole)
  have inputCount := readCount_complete "PSBT_GLOBAL_INPUT_COUNT" wellFormed.inputCount
    (lt_trans inMemory.inputs (by decide))
  have outputCount := readCount_complete "PSBT_GLOBAL_OUTPUT_COUNT" wellFormed.outputCount
    (lt_trans inMemory.outputs (by decide))
  have counted : counts deserialize .v2 psbt.global =
      .ok (psbt.inputs.length, psbt.outputs.length) := by
    simp only [counts, wellFormed.noUnsignedTx, inputCount, outputCount, ok_bind,
      Bool.false_eq_true, if_false]
  have maps := parseMaps_complete globalPassed.valid left inMemory wellFormed.distinct
  simp only [RawPsbt.parse, magicRead, globalRead, wellFormed.version, counted, maps,
    ok_bind, reduceCtorEq, decide_false, onlyIf_false]

/-- The raw layer is lossless: it never panics, what it parses it writes back as the
same bytes, and it parses every well-formed file of version 2 that it writes. -/
theorem raw_layer_lossless :
    (∀ bytes, RawPsbt.parse deserialize bytes ≠ .panic) ∧
    (∀ bytes psbt, RawPsbt.parse deserialize bytes = .ok psbt → psbt.serialize = bytes) ∧
    ∀ psbt, InMemory psbt → WellFormedV2 psbt →
      RawPsbt.parse deserialize psbt.serialize = .ok psbt := by
  refine ⟨fun bytes => (parse_lossless deserialize).ne_panic, fun bytes psbt parsed => ?_,
    fun psbt inMemory wellFormed => parse_complete deserialize inMemory wellFormed⟩
  exact (parse_lossless deserialize).of_eq_ok parsed

end Parse

/-- Version 2, one input with one field, no outputs. -/
def samplePsbt : RawPsbt where
  global := [⟨Keys.globalVersion, [], [2, 0, 0, 0]⟩, ⟨Keys.globalInputCount, [], [1]⟩,
    ⟨Keys.globalOutputCount, [], [0]⟩]
  inputs := [[⟨Keys.inputOutputIndex, [], [7, 0, 0, 0]⟩]]
  outputs := []

theorem raw_layer_lossless_sample :
    InMemory samplePsbt ∧ WellFormedV2 samplePsbt ∧
      RawPsbt.parse (fun _ => none) samplePsbt.serialize = .ok samplePsbt := by
  have inMemory : InMemory samplePsbt := ⟨by decide, by decide, by decide, by decide⟩
  have wellFormed : WellFormedV2 samplePsbt := ⟨rfl, by decide, rfl, rfl, rfl⟩
  exact ⟨inMemory, wellFormed, (raw_layer_lossless _).2.2 samplePsbt inMemory wellFormed⟩

end Satd.Psbt
