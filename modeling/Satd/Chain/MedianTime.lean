import Satd.Chain.Connect
import Satd.Chain.Headers

/-!
# The median time past

The median time past of a block is the median of its timestamp and those of its ten nearest
ancestors. It is found by parent links where a header is checked, and by the height index where
a block is connected. A header is only taken if its timestamp is above the median time past of
its parent, so the median never decreases along a chain.
-/

namespace Satd.Chain

open Rust Satd.Bitcoin Satd.Storage Satd.Validation List

/-! ## Medians -/

variable {bound : Nat} {times : List Nat}

/-- An element of a sorted list is at least a bound if no more elements are below the bound than
there are before it. -/
theorem le_getD_sorted {sorted : List Nat} (order : sorted.Pairwise (· ≤ ·)) {position : Nat}
    (inside : position < sorted.length) :
    bound ≤ sorted.getD position 0 ↔ sorted.countP (· < bound) ≤ position := by
  induction sorted generalizing position with
  | nil => simp at inside
  | cons first rest ih =>
    obtain ⟨least, order⟩ := pairwise_cons.mp order
    by_cases below : first < bound
    · cases position with
      | zero => simp [below]
      | succ position =>
        have later := ih order (by simpa using inside)
        simpa [below] using later
    · -- Nothing is below the bound.
      have none : (first :: rest).countP (· < bound) = 0 := by
        rw [countP_eq_zero]
        intro element member
        rcases mem_cons.mp member with rfl | member
        · simpa using below
        · have := least element member
          simp only [decide_eq_true_eq]
          omega
      have above : first ≤ (first :: rest).getD position 0 := by
        cases position with
        | zero => exact le_rfl
        | succ position =>
          have inside : position < rest.length := by simpa using inside
          rw [getD_cons_succ, getD_eq_getElem?_getD, getElem?_eq_getElem inside]
          exact least _ (getElem_mem inside)
      omega

theorem le_medianOf (some : times ≠ []) :
    bound ≤ medianOf times ↔ times.countP (· < bound) ≤ times.length / 2 := by
  have positive : 0 < times.length := length_pos_of_ne_nil some
  rw [medianOf, if_neg some, le_getD_sorted (pairwise_insertionSort _ times),
    (perm_insertionSort _ times).countP_eq]
  rw [length_insertionSort]
  omega

/-- The median is the element at half the length of the sorted window. -/
theorem sorted_getElem?_half (some : times ≠ []) :
    (times.insertionSort (· ≤ ·))[times.length / 2]? = .some (medianOf times) := by
  have positive : 0 < times.length := length_pos_of_ne_nil some
  have inside : times.length / 2 < (times.insertionSort (· ≤ ·)).length := by
    rw [length_insertionSort]
    omega
  rw [medianOf, if_neg some, getD_eq_getElem?_getD, getElem?_eq_getElem inside, Option.getD_some]

theorem medianOf_perm {left right : List Nat} (same : left.Perm right) :
    medianOf left = medianOf right := by
  have sorted : left.insertionSort (· ≤ ·) = right.insertionSort (· ≤ ·) :=
    (((perm_insertionSort _ left).trans same).trans
      (perm_insertionSort _ right).symm).eq_of_pairwise'
        (pairwise_insertionSort _ left) (pairwise_insertionSort _ right)
  have empty : left = [] ↔ right = [] := ⟨fun no => (no ▸ same).nil_eq.symm, fun no =>
    (no ▸ same).eq_nil⟩
  simp only [medianOf, sorted, same.length_eq, empty]

/-- A time above the median that comes into a window, with an old one going out of a full window,
does not lower the median. -/
theorem medianOf_le_cons (some : times ≠ []) {time size : Nat} (fits : times.length ≤ size + 1)
    (later : medianOf times < time) :
    medianOf times ≤ medianOf (time :: times.take size) := by
  rw [le_medianOf (cons_ne_nil _ _), countP_cons_of_neg (by simpa using later.le)]
  have held : times.countP (· < medianOf times) ≤ times.length / 2 := (le_medianOf some).mp le_rfl
  have fewer : (times.take size).countP (· < medianOf times) ≤ times.countP (· < medianOf times) :=
    (take_sublist size times).countP_le
  rw [length_cons, length_take]
  omega

/-! ## By parent links -/

/-- The timestamps of a block and its ancestors, as many as given at most. -/
def ancestorTimes (getByHash : IndexLookup) : Nat → BlockIndexEntry → List Nat
  | 0, _ => []
  | count + 1, entry =>
    entry.header.time.toNat ::
      if entry.height = 0 then []
      else match getByHash entry.header.prevBlockhash with
        | none => []
        | some parent => ancestorTimes getByHash count parent

def medianTimePastOf (prev : BlockIndexEntry) (getByHash : IndexLookup) : Nat :=
  let timestamps := (ancestorTimes getByHash medianTimeSpan prev).insertionSort (· ≤ ·)
  timestamps.getD (timestamps.length / 2) 0

theorem ancestorTimes_ne_nil (prev : BlockIndexEntry) (getByHash : IndexLookup) :
    ancestorTimes getByHash medianTimeSpan prev ≠ [] := by
  simp [medianTimeSpan, ancestorTimes]

theorem medianTimePastOf_eq {prev : BlockIndexEntry} {getByHash : IndexLookup} :
    medianTimePastOf prev getByHash = medianOf (ancestorTimes getByHash medianTimeSpan prev) := by
  rw [medianTimePastOf, medianOf, if_neg (ancestorTimes_ne_nil prev getByHash),
    length_insertionSort]

def checkTimestamp (header : Header) (prev : BlockIndexEntry) (getByHash : IndexLookup) :
    Except ValidationError Unit :=
  if header.time.toNat ≤ medianTimePastOf prev getByHash then .error .timeTooOld else .ok ()

/-- The blocks from genesis to the tip, by height, each with its parent in the index and a
timestamp that passed the check. -/
structure HeaderChain (getByHash : IndexLookup) (tip : Nat) (chain : Nat → BlockIndexEntry) :
    Prop where
  height : ∀ height ≤ tip, (chain height).height = height
  link : ∀ height < tip, getByHash (chain (height + 1)).header.prevBlockhash = some (chain height)
  timely : ∀ height < tip,
    checkTimestamp (chain (height + 1)).header (chain height) getByHash = .ok ()

namespace HeaderChain

variable {getByHash : IndexLookup} {tip : Nat} {chain : Nat → BlockIndexEntry}

theorem ancestorTimes_succ (linked : HeaderChain getByHash tip chain) {height : Nat}
    (below : height < tip) (count : Nat) :
    ancestorTimes getByHash (count + 1) (chain (height + 1)) =
      (chain (height + 1)).header.time.toNat :: ancestorTimes getByHash count (chain height) := by
  rw [ancestorTimes, linked.height _ below, if_neg (Nat.succ_ne_zero _), linked.link height below]

/-- A smaller window is the beginning of a larger one. -/
theorem ancestorTimes_take (getByHash : IndexLookup) (count : Nat) (entry : BlockIndexEntry) :
    ancestorTimes getByHash count entry =
      (ancestorTimes getByHash (count + 1) entry).take count := by
  induction count generalizing entry with
  | zero => simp [ancestorTimes]
  | succ count ih =>
    rw [ancestorTimes, ancestorTimes, take_succ_cons]
    split_ifs
    · simp
    · cases getByHash entry.header.prevBlockhash with
      | none => simp
      | some parent => simp only [ih parent]

theorem ancestorTimes_length_le (getByHash : IndexLookup) (count : Nat) (entry : BlockIndexEntry) :
    (ancestorTimes getByHash count entry).length ≤ count := by
  induction count generalizing entry with
  | zero => simp [ancestorTimes]
  | succ count ih =>
    rw [ancestorTimes]
    split_ifs
    · simp
    · cases getByHash entry.header.prevBlockhash with
      | none => simp
      | some parent => simpa using ih parent

section

variable (linked : HeaderChain getByHash tip chain)
include linked

variable {height : Nat}

/-- One block does not lower the median. -/
theorem medianTimePastOf_le_succ (below : height < tip) :
    medianTimePastOf (chain height) getByHash ≤
      medianTimePastOf (chain (height + 1)) getByHash := by
  have later : medianTimePastOf (chain height) getByHash <
      (chain (height + 1)).header.time.toNat := by
    have timely := linked.timely height below
    rw [checkTimestamp] at timely
    split_ifs at timely with early
    omega
  have window : ancestorTimes getByHash medianTimeSpan (chain (height + 1)) =
      (chain (height + 1)).header.time.toNat ::
        (ancestorTimes getByHash medianTimeSpan (chain height)).take 10 := by
    rw [medianTimeSpan, linked.ancestorTimes_succ below, ancestorTimes_take]
  rw [medianTimePastOf_eq] at later
  rw [medianTimePastOf_eq, medianTimePastOf_eq, window]
  exact medianOf_le_cons (ancestorTimes_ne_nil _ _) (ancestorTimes_length_le _ _ _) later

theorem medianTimePastOf_mono {lower higher : Nat} (le : lower ≤ higher) (within : higher ≤ tip) :
    medianTimePastOf (chain lower) getByHash ≤ medianTimePastOf (chain higher) getByHash := by
  induction higher, le using Nat.le_induction with
  | base => exact le_rfl
  | succ higher _ ih =>
    exact (ih (by omega)).trans (linked.medianTimePastOf_le_succ within)

/-! ## By height -/

/-- The window by parent links is the window by height, read backwards. -/
theorem ancestorTimes_eq (count : Nat) (within : height ≤ tip) :
    (ancestorTimes getByHash (count + 1) (chain height)).reverse =
      (List.range' (height - count) (height + 1 - (height - count))).map
        fun position => (chain position).header.time.toNat := by
  induction count generalizing height with
  | zero =>
    have one : height + 1 - (height - 0) = 1 := by omega
    rw [one, ancestorTimes]
    split_ifs
    · simp
    · cases getByHash (chain height).header.prevBlockhash <;> simp [ancestorTimes]
  | succ count ih =>
    cases height with
    | zero =>
      rw [ancestorTimes, linked.height 0 within, if_pos rfl]
      simp
    | succ height =>
      have start : height + 1 - (count + 1) = height - count := by omega
      have size : height + 1 + 1 - (height - count) = height + 1 - (height - count) + 1 := by omega
      have last : height - count + 1 * (height + 1 - (height - count)) = height + 1 := by omega
      rw [linked.ancestorTimes_succ within, reverse_cons,
        ih (Nat.le_of_succ_le within), start, size, range'_concat,
        map_append, last]
      rfl

end

end HeaderChain

/-- Where the height rows name the blocks of a chain, all of a window is found. -/
theorem windowTimes_eq {store : Store} {hashAt : Nat → Option BlockHash} {height : Nat}
    {positions : List Nat} {chain : Nat → BlockIndexEntry}
    (rows : ∀ position ∈ positions,
      (hashAt position).bind store.getBlockIndex = some (chain position)) :
    windowTimes store hashAt height positions =
      .ok (positions.map fun position => (chain position).header.time.toNat) := by
  induction positions with
  | nil => rfl
  | cons position rest ih =>
    obtain ⟨here, others⟩ := forall_mem_cons.mp rows
    rw [windowTimes, here, ih others]
    rfl

def getMedianTimePast (store : Store) (height : Nat) : Connecting Nat :=
  medianTimePastWithPlan store none height

/-- The median time past never decreases along a chain, the height index gives the same median as
the parent links, and the median is the element at half the length of the sorted window. -/
theorem median_time_past_monotone {getByHash : IndexLookup} {tip : Nat}
    {chain : Nat → BlockIndexEntry} (linked : HeaderChain getByHash tip chain) :
    (∀ lower higher, lower ≤ higher → higher ≤ tip →
      medianTimePastOf (chain lower) getByHash ≤ medianTimePastOf (chain higher) getByHash) ∧
    (∀ (store : Store) (height : Nat), 0 < height → height ≤ tip + 1 →
      (∀ position < height, (store.getBlockHashByHeight position).bind store.getBlockIndex =
        some (chain position)) →
      getMedianTimePast store height = .ok (medianTimePastOf (chain (height - 1)) getByHash)) ∧
    ∀ prev, ((ancestorTimes getByHash medianTimeSpan prev).insertionSort (· ≤ ·))[
      (ancestorTimes getByHash medianTimeSpan prev).length / 2]? =
        some (medianTimePastOf prev getByHash) := by
  refine ⟨fun lower higher => linked.medianTimePastOf_mono, ?_, fun prev => by
    rw [medianTimePastOf_eq, sorted_getElem?_half (ancestorTimes_ne_nil prev getByHash)]⟩
  intro store height positive within rows
  obtain ⟨below, rfl⟩ := Nat.exists_eq_succ_of_ne_zero (Nat.pos_iff_ne_zero.mp positive)
  have start : below + 1 - medianTimeSpan = below - 10 := by
    rw [medianTimeSpan]
    omega
  have inside : below ≤ tip := by omega
  have window := linked.ancestorTimes_eq 10 inside
  have named : ∀ position ∈ range' (below - 10) (below + 1 - (below - 10)),
      (store.getBlockHashByHeight position).bind store.getBlockIndex = some (chain position) := by
    intro position member
    obtain ⟨i, small, rfl⟩ := mem_range'.mp member
    exact rows _ (by omega)
  rw [getMedianTimePast, medianTimePastWithPlan, start, Option.getD_none, windowTimes_eq named,
    ← window, medianTimePastOf_eq]
  exact congrArg Outcome.ok (medianOf_perm (reverse_perm _))

/-- Blocks whose hash is their height. The timestamp of the eighth is below that of its parent. -/
def dip (height : Nat) : BlockIndexEntry :=
  ⟨⟨1, Hash256.repeated (UInt8.ofNat (height - 1)), Hash256.repeated 0,
    UInt32.ofNat (if height = 8 then 1500 else 1000 + 100 * height), 0x207fffff, 0⟩,
    height, .valid, 1, 0, 0, 0⟩

def dipIndex (hash : BlockHash) : Option BlockIndexEntry :=
  ((List.range 14).find? fun height => Hash256.repeated (UInt8.ofNat height) = hash).map dip

theorem median_time_past_monotone_of_dip :
    HeaderChain dipIndex 13 dip ∧ (dip 8).header.time < (dip 7).header.time ∧
      medianTimePastOf (dip 2) dipIndex ≤ medianTimePastOf (dip 13) dipIndex := by
  have linked : HeaderChain dipIndex 13 dip :=
    ⟨fun _ _ => rfl, by decide +kernel, by decide +kernel⟩
  exact ⟨linked, by decide +kernel,
    (median_time_past_monotone linked).1 2 13 (by decide) (by decide)⟩

end Satd.Chain
