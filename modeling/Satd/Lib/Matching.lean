import Mathlib.Tactic

/-!
# Matching two lists in order

Each item of one list is to be paired with an item of another, later items with later
ones. Scanning both lists once and pairing whenever the two current items fit is
enough: the scan succeeds exactly when such a pairing exists.
-/

namespace Matching

open List

universe u v

variable {σ : Type u} {κ : Type v} (fits : σ → κ → Bool)

/-- The items are assigned to strictly increasing places where they fit. -/
def InOrder (items : List σ) (places : List κ) : Prop :=
  ∃ place : Fin items.length → Fin places.length, StrictMono place ∧
    ∀ index, fits (items.get index) (places.get (place index)) = true

/-- Pair the current item with the current place if they fit, and go to the next place. -/
def greedy : List σ → List κ → Bool
  | [], _ => true
  | _ :: _, [] => false
  | item :: items, place :: places =>
    if fits item place then greedy items places else greedy (item :: items) places

variable {fits}

@[simp] theorem greedy_nil (places : List κ) : greedy fits [] places = true := by
  cases places <;> rfl

section

variable {items : List σ} {places : List κ}

/-- The places that were used, in order. -/
theorem inOrder_iff_sublist :
    InOrder fits items places ↔
      ∃ used, used.Sublist places ∧ List.Forall₂ (fun item place => fits item place = true)
        items used := by
  constructor
  · rintro ⟨place, increasing, pairs⟩
    refine ⟨.ofFn fun index => places.get (place index), ?_, ?_⟩
    · refine sublist_iff_exists_fin_orderEmbedding_get_eq.mpr ⟨OrderEmbedding.ofStrictMono
        (fun index => place (.cast (by simp) index)) ?_, ?_⟩
      · exact fun first second less => increasing less
      · intro index
        simp
        rfl
    · rw [forall₂_iff_get]
      refine ⟨by simp, fun index inItems inUsed => ?_⟩
      simpa using pairs ⟨index, inItems⟩
  · rintro ⟨used, within, pairs⟩
    obtain ⟨place, same⟩ := sublist_iff_exists_fin_orderEmbedding_get_eq.mp within
    have lengths := pairs.length_eq
    refine ⟨fun index => place (.cast lengths index), ?_, fun index => ?_⟩
    · exact fun first second less => place.strictMono less
    · rw [← same]
      exact (forall₂_iff_get.mp pairs).2 index index.isLt (by omega)

/-- An order can be read from either end. -/
theorem inOrder_reverse :
    InOrder fits items.reverse places.reverse ↔ InOrder fits items places := by
  have turn : ∀ {items : List σ} {places : List κ}, InOrder fits items places →
      InOrder fits items.reverse places.reverse := by
    intro items places ordered
    obtain ⟨used, within, pairs⟩ := inOrder_iff_sublist.mp ordered
    exact inOrder_iff_sublist.mpr ⟨used.reverse, within.reverse, rel_reverse pairs⟩
  refine ⟨fun ordered => ?_, turn⟩
  simpa using turn ordered

/-- More items than places cannot be assigned. -/
theorem length_le_of_inOrder (ordered : InOrder fits items places) :
    items.length ≤ places.length := by
  obtain ⟨used, within, pairs⟩ := inOrder_iff_sublist.mp ordered
  exact pairs.length_eq ▸ within.length_le

/-- The scan finds a matching whenever there is one. -/
theorem greedy_iff : greedy fits items places = true ↔ InOrder fits items places := by
  rw [inOrder_iff_sublist]
  induction places generalizing items with
  | nil =>
    cases items with
    | nil => simp
    | cons item items => simp [greedy]
  | cons place places ih =>
    cases items with
    | nil => simp
    | cons item items =>
      rw [greedy]
      constructor
      · intro scanned
        by_cases fit : fits item place = true
        · rw [if_pos fit] at scanned
          obtain ⟨used, within, pairs⟩ := ih.mp scanned
          exact ⟨place :: used, within.cons_cons place, .cons fit pairs⟩
        · rw [if_neg fit] at scanned
          obtain ⟨used, within, pairs⟩ := ih.mp scanned
          exact ⟨used, within.cons place, pairs⟩
      · rintro ⟨used, within, pairs⟩
        by_cases fit : fits item place = true
        · -- Whatever place the first item had, this one is not later.
          rw [if_pos fit, ih]
          obtain ⟨first, rest, _, others, rfl⟩ := forall₂_cons_left_iff.mp pairs
          exact ⟨rest, within.tail, others⟩
        · rw [if_neg fit, ih]
          obtain ⟨first, rest, fitsFirst, others, rfl⟩ := forall₂_cons_left_iff.mp pairs
          refine ⟨first :: rest, ?_, pairs⟩
          cases within with
          | cons _ later => exact later
          | cons_cons _ _ => exact absurd fitsFirst fit

end

end Matching
