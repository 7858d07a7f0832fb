import Satd.Lib.Run
import Mathlib.Data.List.Rotate
import Mathlib.Tactic

/-!
# The window of recent heights

Coins are counted by the height they were created at, for the most recent heights only. The
window slides up when a coin is created above it and never down; heights that leave it are
forgotten. What it counts is exact, whatever the order of the coins (`window_exact`).
-/

namespace Satd.Storage

open List Function

def recentWindow : Nat := 4320

def recentWindowReorgMargin : Nat := 144

def recentWindowLen : Nat := recentWindow + recentWindowReorgMargin

structure RecentHeightWindow where
  /-- The height of the first count. -/
  base : Nat
  counts : List Nat

namespace RecentHeightWindow

def empty : RecentHeightWindow := ⟨0, replicate recentWindowLen 0⟩

variable (window : RecentHeightWindow)

def top : Nat := window.base + (recentWindowLen - 1)

def countAt (height : Nat) : Option Nat :=
  if height < window.base then none else some (window.counts[height - window.base]?.getD 0)

def coversRecentRange (tip : Nat) : Bool := window.base ≤ tip - (recentWindow - 1)

/-- The counts are rotated, and those that enter at the end are zeroed. -/
def shiftOut (counts : List Nat) (shift : Nat) : List Nat :=
  if counts.length ≤ shift then counts.map fun _ => 0
  else (counts.rotate shift).take (counts.length - shift) ++ replicate shift 0

/-- Slide up to a height. -/
def slideTo (height : Nat) : RecentHeightWindow :=
  if height ≤ window.top then window
  else
    let newBase := height - (recentWindowLen - 1)
    ⟨newBase, shiftOut window.counts (newBase - window.base)⟩

def addOne (height : Nat) : RecentHeightWindow :=
  let slid := window.slideTo height
  if height < slid.base then slid
  else { slid with counts := slid.counts.modify (height - slid.base) (· + 1) }

/-- Apply one delta. A count that would be negative is zero (as `toNat` is), and its height
noted. -/
def applyDelta (state : RecentHeightWindow × List Nat) (row : Nat × Int) :
    RecentHeightWindow × List Nat :=
  let window := state.1
  if row.2 = 0 ∨ row.1 < window.base then state
  else match window.counts[row.1 - window.base]? with
    | none => state
    | some slot =>
      let next := (slot : Int) + row.2
      let counts := window.counts.set (row.1 - window.base) next.toNat
      ({ window with counts }, if next < 0 then state.2 ++ [row.1] else state.2)

/-- The heights with a delta that is not zero. -/
def touched (deltas : List (Nat × Int)) : List Nat :=
  (deltas.filter fun row => row.2 ≠ 0).map Prod.fst

/-- Apply the deltas, in the order their map gives them, and return the heights that were
clamped. -/
def apply (deltas : List (Nat × Int)) : RecentHeightWindow × List Nat :=
  let slid := (touched deltas).max?.elim window window.slideTo
  let applied := deltas.foldl applyDelta (slid, [])
  (applied.1, applied.2.mergeSort)

/-! ## What the window counts -/

variable {window : RecentHeightWindow} {coins : Nat → Nat} {height highest : Nat}

/-- The window holds the heights up to the highest one, and counts the coins there. -/
structure Counts (window : RecentHeightWindow) (coins : Nat → Nat) (highest : Nat) : Prop where
  length : window.counts.length = recentWindowLen
  base : window.base = highest - (recentWindowLen - 1)
  exact : ∀ height, window.base ≤ height →
    window.counts[height - window.base]?.getD 0 = coins height

theorem counts_empty : Counts empty (fun _ => 0) 0 where
  length := length_replicate
  base := rfl
  exact height _ := by
    rw [empty, getElem?_replicate]
    split_ifs <;> rfl

theorem length_shiftOut (counts : List Nat) (shift : Nat) :
    (shiftOut counts shift).length = counts.length := by
  rw [shiftOut]
  split_ifs <;> simp
  omega

/-- The counts after a slide, by their place before it. -/
theorem getD_shiftOut (counts : List Nat) (shift place : Nat) :
    (shiftOut counts shift)[place]?.getD 0 = counts[place + shift]?.getD 0 := by
  rw [shiftOut]
  split_ifs with far
  · rw [getElem?_map, getElem?_eq_none (by omega : counts.length ≤ place + shift)]
    cases counts[place]? <;> rfl
  · rw [rotate_eq_drop_append_take (by omega), take_left' (length_drop ..)]
    rcases Nat.lt_or_ge place (counts.drop shift).length with early | late
    · rw [getElem?_append_left early, getElem?_drop, add_comm]
    · rw [getElem?_append_right late, getElem?_replicate,
        getElem?_eq_none (by rw [length_drop] at late; omega)]
      split_ifs <;> rfl

theorem Counts.slid (holds : Counts window coins highest) (height : Nat) :
    Counts (window.slideTo height) coins (max highest height) := by
  have base := holds.base
  rw [slideTo]
  split_ifs with inside <;> rw [top] at inside
  · exact { holds with base := by omega }
  · refine ⟨(length_shiftOut ..).trans holds.length, by simp only; omega, fun other above => ?_⟩
    simp only at above ⊢
    rw [getD_shiftOut, ← holds.exact other (by omega)]
    congr 2
    omega

theorem Counts.place_lt (holds : Counts window coins highest) (inside : height ≤ highest) :
    height - window.base < window.counts.length := by
  have positive : 0 < recentWindowLen := by decide
  rw [holds.length, holds.base]
  omega

theorem Counts.slot (holds : Counts window coins highest) (low : window.base ≤ height)
    (inside : height ≤ highest) :
    window.counts[height - window.base]? = some (coins height) := by
  rw [← holds.exact height low, getElem?_eq_getElem (holds.place_lt inside), Option.getD_some]

/-- The counts fit the `i64` they are cast to while every height has fewer than `2 ^ 63` coins. -/
theorem Counts.fits (holds : Counts window coins highest) (few : ∀ height, coins height < 2 ^ 63) :
    ∀ count ∈ window.counts, count < 2 ^ 63 := by
  intro count member
  obtain ⟨place, found⟩ := mem_iff_getElem?.mp member
  have exact := holds.exact (window.base + place) (Nat.le_add_right ..)
  rw [Nat.add_sub_cancel_left, found, Option.getD_some] at exact
  exact exact ▸ few _

/-- A count that is in the window is changed there. -/
theorem Counts.set (holds : Counts window coins highest) (low : window.base ≤ height)
    (inside : height ≤ highest) (count : Nat) :
    Counts { window with counts := window.counts.set (height - window.base) count }
      (update coins height count) highest where
  length := by simp [holds.length]
  base := holds.base
  exact other above := by
    simp only at above ⊢
    by_cases same : other = height
    · subst same
      rw [getElem?_set_self (holds.place_lt inside), update_self, Option.getD_some]
    · rw [getElem?_set_ne (by omega), update_of_ne same, holds.exact other above]

/-- A height below the window is not counted. -/
theorem Counts.below (holds : Counts window coins highest) (low : height < window.base)
    (count : Nat) : Counts window (update coins height count) highest :=
  { holds with
    exact := fun other above => by rw [update_of_ne (by omega), holds.exact other above] }

theorem Counts.added (holds : Counts window coins highest) (height : Nat) :
    Counts (window.addOne height) (update coins height (coins height + 1))
      (max highest height) := by
  have slid := holds.slid height
  have inside : height ≤ max highest height := le_max_right ..
  simp only [addOne]
  split_ifs with low
  · exact slid.below low _
  · rw [modify_eq_set_getElem?, slid.slot (not_lt.mp low) inside]
    exact slid.set (not_lt.mp low) inside _

variable {state : RecentHeightWindow × List Nat} {row : Nat × Int} {deltas : List (Nat × Int)}

/-- One row of the deltas, at a height the window has slid to. -/
theorem Counts.changed (holds : Counts state.1 coins highest)
    (inside : row.2 ≠ 0 → row.1 ≤ highest) (covered : 0 ≤ (coins row.1 : Int) + row.2) :
    Counts (applyDelta state row).1 (update coins row.1 ((coins row.1 : Int) + row.2).toNat)
      highest ∧ (applyDelta state row).2 = state.2 := by
  simp only [applyDelta]
  split_ifs with skipped
  · refine ⟨?_, rfl⟩
    rcases skipped with zero | low
    · rw [zero, Int.add_zero, Int.toNat_natCast, update_eq_self]
      exact holds
    · exact holds.below low _
  · obtain ⟨moved, low⟩ := not_or.mp skipped
    rw [holds.slot (not_lt.mp low) (inside moved)]
    exact ⟨holds.set (not_lt.mp low) (inside moved) _, if_neg (not_lt.mpr covered)⟩

/-- The coins after deltas, row by row. -/
def coinsAfter (coins : Nat → Nat) (deltas : List (Nat × Int)) : Nat → Nat :=
  deltas.foldl (fun coins row => update coins row.1 ((coins row.1 : Int) + row.2).toNat) coins

theorem Counts.changedBy (holds : Counts state.1 coins highest)
    (inside : ∀ row ∈ deltas, row.2 ≠ 0 → row.1 ≤ highest) (distinct : (deltas.map Prod.fst).Nodup)
    (covered : ∀ row ∈ deltas, 0 ≤ (coins row.1 : Int) + row.2) :
    Counts (deltas.foldl applyDelta state).1 (coinsAfter coins deltas) highest ∧
      (deltas.foldl applyDelta state).2 = state.2 := by
  induction deltas generalizing state coins with
  | nil => exact ⟨holds, rfl⟩
  | cons row rest ih =>
    rw [forall_mem_cons] at inside covered
    rw [map_cons, nodup_cons] at distinct
    obtain ⟨counted, clamped⟩ := holds.changed inside.1 covered.1
    rw [foldl_cons, ← clamped]
    refine ih counted inside.2 distinct.2 fun other mem => ?_
    -- the other rows are at other heights, where the coins are those of before
    have apart : other.1 ≠ row.1 := fun same => distinct.1 (same ▸ mem_map_of_mem mem)
    simpa only [update_of_ne apart] using covered.2 other mem

/-- The highest height after deltas. -/
def highestAfter (highest : Nat) (deltas : List (Nat × Int)) : Nat :=
  (touched deltas).max?.elim highest (max highest)

theorem le_highestAfter (mem : row ∈ deltas) (moved : row.2 ≠ 0) :
    row.1 ≤ highestAfter highest deltas := by
  have isTouched : row.1 ∈ touched deltas :=
    mem_map_of_mem (mem_filter.mpr ⟨mem, by simpa using moved⟩)
  rw [highestAfter]
  cases found : (touched deltas).max? with
  | none => simp [max?_eq_none_iff.mp found] at isTouched
  | some height => exact le_max_of_le_right ((max?_eq_some_iff.mp found).2 _ isTouched)

theorem Counts.applied (holds : Counts window coins highest)
    (distinct : (deltas.map Prod.fst).Nodup)
    (covered : ∀ row ∈ deltas, 0 ≤ (coins row.1 : Int) + row.2) :
    Counts (window.apply deltas).1 (coinsAfter coins deltas) (highestAfter highest deltas) ∧
      (window.apply deltas).2 = [] := by
  have slid : Counts ((touched deltas).max?.elim window window.slideTo, ([] : List Nat)).1 coins
      (highestAfter highest deltas) := by
    rw [highestAfter]
    cases (touched deltas).max? with
    | none => exact holds
    | some height => exact holds.slid height
  obtain ⟨counted, clamped⟩ := slid.changedBy (fun row => le_highestAfter) distinct covered
  exact ⟨counted, by rw [apply, clamped, mergeSort_nil]⟩

/-- The window of a coin set. -/
def ofCoins (coins : Nat → Nat) (base : Nat) : RecentHeightWindow :=
  ⟨base, (range recentWindowLen).map fun place => coins (base + place)⟩

theorem Counts.eq_ofCoins (holds : Counts window coins highest) :
    window = ofCoins coins window.base := by
  have counts :
      window.counts = (range recentWindowLen).map fun place => coins (window.base + place) := by
    refine ext_getElem (by simpa using holds.length) fun place inside _ => ?_
    have count := holds.exact _ (Nat.le_add_right _ place)
    simpa [inside] using count
  rw [ofCoins, ← counts]

/-! ## Runs -/

/-- What the index does to its window. -/
inductive Call where
  | created (height : Nat)
  | applied (deltas : List (Nat × Int))

/-- The window with all heights clamped so far, the coins it should count, and the highest
height of a call. -/
structure Ledger where
  window : RecentHeightWindow
  clamped : List Nat
  coins : Nat → Nat
  highest : Nat

def Ledger.opened : Ledger := ⟨empty, [], fun _ => 0, 0⟩

def Ledger.step (ledger : Ledger) : Call → Ledger
  | .created height =>
    ⟨ledger.window.addOne height, ledger.clamped,
      update ledger.coins height (ledger.coins height + 1), max ledger.highest height⟩
  | .applied deltas =>
    let (window, clamped) := ledger.window.apply deltas
    ⟨window, ledger.clamped ++ clamped, coinsAfter ledger.coins deltas,
      highestAfter ledger.highest deltas⟩

/-- The rows of a map, none of which spends a coin that is not there. -/
def Call.Allowed (ledger : Ledger) : Call → Prop
  | .created _ => True
  | .applied deltas => (deltas.map Prod.fst).Nodup ∧
      ∀ row ∈ deltas, 0 ≤ (ledger.coins row.1 : Int) + row.2

def Ledger.Sound (ledger : Ledger) : Prop :=
  Counts ledger.window ledger.coins ledger.highest ∧ ledger.clamped = []

theorem Ledger.Sound.step {ledger : Ledger} (sound : ledger.Sound) {call : Call}
    (allowed : call.Allowed ledger) : (ledger.step call).Sound := by
  obtain ⟨holds, unclamped⟩ := sound
  cases call with
  | created height => exact ⟨holds.added height, unclamped⟩
  | applied deltas =>
    obtain ⟨counted, none⟩ := holds.applied allowed.1 allowed.2
    exact ⟨counted, by simp only [Ledger.step, unclamped, none, append_nil]⟩

/-- At all times, from an empty coin set on, the window is that of the coins that are there,
whatever the order they came in, and no count was ever clamped. It reaches as far below the highest
height as it is long, and so holds the whole recent range of a tip up to the margin below it. -/
theorem window_exact (calls : List Call)
    (allowed : Run.EachStep Ledger.step (fun ledger call => call.Allowed ledger) .opened calls) :
    Run.Throughout Ledger.step (fun ledger =>
      ledger.window = ofCoins ledger.coins (ledger.highest - (recentWindowLen - 1)) ∧
      (∀ height, ledger.window.countAt height =
        if height + (recentWindowLen - 1) < ledger.highest then none
        else some (ledger.coins height)) ∧
      ledger.clamped = [] ∧
      ∀ tip, ledger.highest ≤ tip + recentWindowReorgMargin →
        ledger.window.coversRecentRange tip = true) .opened calls := by
  have sound : Run.Throughout Ledger.step Ledger.Sound .opened calls :=
    Run.throughout_of_eachStep (fun _ sound _ _ allowed => sound.step allowed)
      ⟨counts_empty, rfl⟩ allowed
  refine sound.imp fun ledger ⟨counts, unclamped⟩ =>
    ⟨counts.base ▸ counts.eq_ofCoins, fun height => ?_, unclamped, fun tip near => ?_⟩
  all_goals have base := counts.base
  · rw [countAt]
    split_ifs with low forgotten forgotten
    · rfl
    · omega
    · omega
    · rw [counts.exact height (by omega)]
  · rw [coversRecentRange, decide_eq_true_iff, base]
    simp only [recentWindowLen, recentWindow, recentWindowReorgMargin] at near ⊢
    omega

/-- Two blocks, the second of which is far above the first and spends its coin. -/
theorem window_exact_slid :
    let ledger := [Call.created 5000, .applied [(5000, -1), (9464, 2)]].foldl Ledger.step .opened
    ledger.window.countAt 5000 = none ∧ ledger.window.countAt 9464 = some 2 := by
  have throughout := window_exact [Call.created 5000, .applied [(5000, -1), (9464, 2)]] (by
    simp [Run.EachStep, Call.Allowed, Ledger.step, Ledger.opened])
  obtain ⟨-, counted, -⟩ := throughout.2.2
  exact ⟨(counted 5000).trans (by decide), (counted 9464).trans (by decide)⟩

end RecentHeightWindow
end Satd.Storage
