import Satd.Lib.KeyedMap

/-!
# Inverted indexes

A map from keys to the items filed under them. A key without items is not in the
map. `Exact` says which items an index files under which keys, and the rules say
how it follows when an item is filed under or taken from a key, or several.
-/

namespace InvertedIndex

open KeyedMap

universe u v

abbrev Index (κ : Type u) (ω : Type v) := Map κ (Finset ω)

variable {κ : Type u} {ω : Type v} [DecidableEq κ] [DecidableEq ω] (item : ω)

/-- File an item under a key. -/
def add (index : Index κ ω) (key : κ) : Index κ ω :=
  index.insert key (insert item ((index.lookup key).getD ∅))

/-- Take an item from a key, and the key with its last item. -/
def drop (index : Index κ ω) (key : κ) : Index κ ω :=
  match index.lookup key with
  | none => index
  | some items =>
    if items.erase item = ∅ then index.erase key else index.insert key (items.erase item)

/-- File an item under several keys. -/
def addAll (keys : List κ) (index : Index κ ω) : Index κ ω := keys.foldl (add item) index

/-- Take an item from several keys. -/
def dropAll (keys : List κ) (index : Index κ ω) : Index κ ω := keys.foldl (drop item) index

/-- The index files exactly the items a relation says, and no key without items. -/
structure Exact (holds : κ → ω → Prop) (index : Index κ ω) : Prop where
  mem : ∀ key item, item ∈ (index.lookup key).getD ∅ ↔ holds key item
  nonempty : ∀ key items, index.lookup key = some items → items ≠ ∅

namespace Exact

variable {holds other : κ → ω → Prop} {index : Index κ ω}

omit [DecidableEq ω] in
theorem congr (exact : Exact holds index) (same : ∀ key item, other key item ↔ holds key item) :
    Exact other index :=
  ⟨fun key item => (exact.mem key item).trans (same key item).symm, exact.nonempty⟩

omit [DecidableEq ω] in
theorem empty : Exact (fun _ _ => False) (∅ : Index κ ω) := by
  constructor
  · intro key item
    simp
  · intro key items found
    simp at found

section

variable (exact : Exact holds index)
include exact

theorem add (key : κ) (item : ω) :
    Exact (fun other filed => (other = key ∧ filed = item) ∨ holds other filed)
      (add item index key) := by
  constructor
  · intro other filed
    rw [InvertedIndex.add, lookup_insert]
    by_cases same : key = other
    · subst same
      rw [if_pos rfl, Option.getD_some, Finset.mem_insert, exact.mem]
      simp
    · rw [if_neg same, exact.mem]
      simp [Ne.symm same]
  · intro other items found
    rw [InvertedIndex.add, lookup_insert] at found
    split at found
    · cases found
      exact Finset.insert_ne_empty _ _
    · exact exact.nonempty other items found

theorem drop (key : κ) (item : ω) :
    Exact (fun other filed => ¬ (other = key ∧ filed = item) ∧ holds other filed)
      (drop item index key) := by
  have filedAt : ∀ filed, holds key filed ↔ filed ∈ (index.lookup key).getD ∅ :=
    fun filed => (exact.mem key filed).symm
  rw [InvertedIndex.drop]
  cases found : index.lookup key with
  | none =>
    refine exact.congr fun other filed => ?_
    rw [and_iff_right_iff_imp]
    rintro filedThere ⟨rfl, rfl⟩
    rw [filedAt, found] at filedThere
    simp at filedThere
  | some items =>
    rw [found, Option.getD_some] at filedAt
    -- the row of the key afterwards, whether it is kept or erased
    have row : ∀ other, ((if items.erase item = ∅ then index.erase key
        else index.insert key (items.erase item)).lookup other).getD ∅ =
          if key = other then items.erase item else (index.lookup other).getD ∅ := by
      intro other
      split
      · next emptied =>
        rw [lookup_erase, emptied]
        split <;> rfl
      · rw [lookup_insert]
        split <;> rfl
    constructor
    · intro other filed
      rw [row]
      by_cases same : key = other
      · subst same
        rw [if_pos rfl, Finset.mem_erase, filedAt]
        simp
      · rw [if_neg same, exact.mem]
        simp [Ne.symm same]
    · intro other kept isKept
      dsimp only at isKept
      split at isKept
      · rw [lookup_erase] at isKept
        split at isKept
        · cases isKept
        · exact exact.nonempty other kept isKept
      · next notEmptied =>
        rw [lookup_insert] at isKept
        split at isKept
        · cases isKept
          exact notEmptied
        · exact exact.nonempty other kept isKept

theorem addAll (keys : List κ) (item : ω) :
    Exact (fun other filed => (other ∈ keys ∧ filed = item) ∨ holds other filed)
      (addAll item keys index) := by
  induction keys generalizing index holds with
  | nil => exact exact.congr (by simp)
  | cons key rest ih =>
    refine (ih (exact.add key item)).congr fun other filed => ?_
    simp only [List.mem_cons]
    tauto

theorem dropAll (keys : List κ) (item : ω) :
    Exact (fun other filed => ¬ (other ∈ keys ∧ filed = item) ∧ holds other filed)
      (dropAll item keys index) := by
  induction keys generalizing index holds with
  | nil => exact exact.congr (by simp)
  | cons key rest ih =>
    refine (ih (exact.drop key item)).congr fun other filed => ?_
    simp only [List.mem_cons]
    tauto

end

end Exact

end InvertedIndex
