import Mathlib.Data.Finmap
import Mathlib.Tactic

/-!
# Keyed maps written in batches

A finite map from keys to rows, written by lists of puts and lists of removes.
The rules say what a lookup sees after a list has been applied, and how the
total of a weight over all rows changes when one row is added or taken away.
-/

namespace KeyedMap

open List Option Finset Finmap

universe u v

/-- A finite map with one kind of row. -/
abbrev Map (κ : Type u) (ν : Type v) := Finmap fun _ : κ => ν

variable {κ : Type u} {ν : Type v} [DecidableEq κ]

/-- Insert every row of a list, in order. -/
def putAll (map : Map κ ν) (rows : List (κ × ν)) : Map κ ν :=
  rows.foldl (fun current row => current.insert row.1 row.2) map

/-- Remove every key of a list. -/
def removeAll (map : Map κ ν) (keys : List κ) : Map κ ν :=
  keys.foldl (fun current key => current.erase key) map

/-- The last row a list of puts holds for a key. -/
def lastPut (key : κ) : List (κ × ν) → Option ν
  | [] => none
  | row :: rest => (lastPut key rest).or (if row.1 = key then some row.2 else none)

/-! ## Lookups -/

section

variable (map : Map κ ν)
include map

/-- A lookup after one insertion. -/
theorem lookup_insert (key other : κ) (row : ν) :
    (map.insert key row).lookup other = if key = other then some row else map.lookup other := by
  by_cases same : key = other
  · subst same
    simp
  · simp [lookup_insert_of_ne _ (Ne.symm same), same]

/-- A lookup after one removal. -/
theorem lookup_erase {key other : κ} :
    (map.erase key).lookup other = if key = other then none else map.lookup other := by
  by_cases same : key = other
  · subst same
    simp
  · simp [lookup_erase_ne (Ne.symm same), same]

theorem lookup_insert_eq_update (key : κ) (row : ν) :
    (map.insert key row).lookup = Function.update map.lookup key (some row) := by
  funext other
  simp only [lookup_insert, Function.update_apply, eq_comm]

theorem lookup_erase_eq_update (key : κ) :
    (map.erase key).lookup = Function.update map.lookup key none := by
  funext other
  simp only [lookup_erase, Function.update_apply, eq_comm]

theorem keys_insert (key : κ) (row : ν) : (map.insert key row).keys = insert key map.keys := by
  ext other
  rw [Finmap.mem_keys, Finmap.mem_insert, Finset.mem_insert, Finmap.mem_keys]

@[simp] theorem putAll_nil : putAll map [] = map := rfl

@[simp] theorem putAll_cons (row : κ × ν) (rest : List (κ × ν)) :
    putAll map (row :: rest) = putAll (map.insert row.1 row.2) rest := rfl

theorem putAll_append (first second : List (κ × ν)) :
    putAll map (first ++ second) = putAll (putAll map first) second := by
  simp [putAll]

@[simp] theorem removeAll_nil : removeAll map [] = map := rfl

@[simp] theorem removeAll_cons (key : κ) (rest : List κ) :
    removeAll map (key :: rest) = removeAll (map.erase key) rest := rfl

theorem removeAll_append (first second : List κ) :
    removeAll map (first ++ second) = removeAll (removeAll map first) second := by
  simp [removeAll]

/-- After a list of puts a key holds its last put, or else what it held before. -/
theorem lookup_putAll (rows : List (κ × ν)) (key : κ) :
    (putAll map rows).lookup key = (lastPut key rows).or (map.lookup key) := by
  induction rows generalizing map with
  | nil => rfl
  | cons row rest ih =>
    rw [putAll_cons, ih, lookup_insert, lastPut]
    by_cases same : row.1 = key
    · simp [same]
    · simp [same]

/-- After a list of removes exactly the listed keys are gone. -/
theorem lookup_removeAll (keys : List κ) (key : κ) :
    (removeAll map keys).lookup key = if key ∈ keys then none else map.lookup key := by
  induction keys generalizing map with
  | nil => simp
  | cons first rest ih =>
    rw [removeAll_cons, ih, lookup_erase]
    by_cases listed : key ∈ rest
    · simp [listed]
    · simp [listed, eq_comm]

/-- Only which keys are listed matters for a removal. -/
theorem removeAll_congr {first second : List κ}
    (same : ∀ key, key ∈ first ↔ key ∈ second) : removeAll map first = removeAll map second := by
  apply ext_lookup
  intro key
  simp [lookup_removeAll, same key]

end

variable {keys : List κ} {key : κ} {row : ν} {map : Map κ ν}

variable {other : κ}

theorem lookup_insert_eq_some {found : ν} :
    (map.insert key row).lookup other = some found ↔
      (other = key ∧ found = row) ∨ (other ≠ key ∧ map.lookup other = some found) := by
  rw [lookup_insert]
  by_cases same : key = other
  · simp [same, eq_comm]
  · simp [same, Ne.symm same]

theorem lookup_erase_eq_some {found : ν} : (map.erase key).lookup other = some found ↔
    other ≠ key ∧ map.lookup other = some found := by
  rw [lookup_erase]
  by_cases same : key = other
  · simp [same]
  · simp [same, Ne.symm same]

/-- Removing keys that hold no row changes nothing. -/
theorem removeAll_of_absent (map : Map κ ν) (absent : ∀ key ∈ keys, map.lookup key = none) :
    removeAll map keys = map := by
  apply ext_lookup
  intro key
  rw [lookup_removeAll]
  split
  · next listed => exact (absent key listed).symm
  · rfl

/-- A list puts nothing at a key exactly when no row of it has that key. -/
theorem lastPut_eq_none {rows : List (κ × ν)} :
    lastPut key rows = none ↔ key ∉ rows.map Prod.fst := by
  induction rows with
  | nil => simp [lastPut]
  | cons row rest ih =>
    by_cases same : row.1 = key
    · simp [lastPut, same]
    · simp [lastPut, same, Ne.symm same, ih]

/-- The last put of a key is one of the rows. -/
theorem mem_of_lastPut {rows : List (κ × ν)} (last : lastPut key rows = some row) :
    (key, row) ∈ rows := by
  induction rows with
  | nil => simp [lastPut] at last
  | cons head rest ih =>
    rcases or_eq_some_iff.mp last with later | ⟨-, here⟩
    · exact mem_cons_of_mem _ (ih later)
    · obtain ⟨rfl, equal⟩ := ite_none_right_eq_some.mp here
      cases equal
      exact mem_cons_self

/-- Appending one put decides the last put of its key. -/
theorem lastPut_append (key : κ) (first second : List (κ × ν)) :
    lastPut key (first ++ second) = (lastPut key second).or (lastPut key first) := by
  induction first with
  | nil => simp [lastPut]
  | cons row rest ih =>
    simp [lastPut, ih, Option.or_assoc]

/-- The rows some keys have, each computed from its key. -/
def rowsOf (row : κ → Option ν) (keys : List κ) : List (κ × ν) :=
  keys.filterMap fun key => (row key).map (key, ·)

theorem lastPut_rowsOf (row : κ → Option ν) (keys : List κ) (key : κ) :
    lastPut key (rowsOf row keys) = if key ∈ keys then row key else none := by
  induction keys with
  | nil => rfl
  | cons head rest ih =>
    have step : lastPut key (rowsOf row (head :: rest)) =
        (lastPut key (rowsOf row rest)).or (if head = key then row head else none) := by
      cases here : row head <;> simp [rowsOf, here, lastPut]
    rw [step, ih]
    by_cases same : head = key
    · subst same
      split <;> simp
    · simp [same, Ne.symm same]

omit [DecidableEq κ] in
theorem mem_rowsOf {row : κ → Option ν} {value : ν} :
    (key, value) ∈ rowsOf row keys ↔ key ∈ keys ∧ row key = some value := by
  simp [rowsOf]

omit [DecidableEq κ] in
theorem nodup_rowsOf {row : κ → Option ν} (nodup : keys.Nodup) :
    ((rowsOf row keys).map Prod.fst).Nodup := by
  rw [rowsOf, List.map_filterMap]
  apply nodup.filterMap
  intro first second key isFirst isSecond
  simp at isFirst isSecond
  rw [isFirst.2, isSecond.2]

/-- Rows of other keys may be left out. -/
theorem lastPut_filter {keep : κ × ν → Bool} {rows : List (κ × ν)}
    (kept : ∀ row, keep (key, row) = true) : lastPut key (rows.filter keep) = lastPut key rows := by
  induction rows with
  | nil => rfl
  | cons head rest ih =>
    obtain ⟨other, row⟩ := head
    by_cases same : other = key
    · subst same
      simp [kept row, lastPut, ih]
    · cases kept' : keep (other, row) <;> simp [kept', lastPut, same, ih]

/-- The first row a list of puts holds for a key. -/
def firstPut (key : κ) : List (κ × ν) → Option ν
  | [] => none
  | row :: rest => if row.1 = key then some row.2 else firstPut key rest

theorem firstPut_append (key : κ) (first second : List (κ × ν)) :
    firstPut key (first ++ second) = (firstPut key first).or (firstPut key second) := by
  induction first with
  | nil => rfl
  | cons row rest ih =>
    by_cases same : row.1 = key <;> simp [firstPut, same, ih]

theorem firstPut_eq_none {rows : List (κ × ν)} :
    firstPut key rows = none ↔ key ∉ rows.map Prod.fst := by
  induction rows with
  | nil => simp [firstPut]
  | cons row rest ih =>
    by_cases same : row.1 = key
    · simp [firstPut, same]
    · simp [firstPut, same, Ne.symm same, ih]

theorem mem_of_firstPut {rows : List (κ × ν)} (first : firstPut key rows = some row) :
    (key, row) ∈ rows := by
  induction rows with
  | nil => cases first
  | cons head rest ih =>
    rw [firstPut] at first
    split at first
    · next same =>
      cases first
      exact same ▸ mem_cons_self
    · exact mem_cons_of_mem _ (ih first)

/-- Rows rewritten under their own keys are found there. -/
theorem firstPut_map {μ : Type v} {key : κ} (rewrite : κ × ν → μ) (rows : List (κ × ν)) :
    firstPut key (rows.map fun row => (row.1, rewrite row)) =
      (firstPut key rows).map fun row => rewrite (key, row) := by
  induction rows with
  | nil => rfl
  | cons row rest ih =>
    obtain ⟨other, value⟩ := row
    by_cases same : other = key
    · subst same
      simp [firstPut]
    · simp [firstPut, same, ih]

/-- Where no two rows share a key, the first row of a key is the last. -/
theorem firstPut_eq_lastPut {rows : List (κ × ν)} (distinct : (rows.map Prod.fst).Nodup) :
    firstPut key rows = lastPut key rows := by
  induction rows with
  | nil => rfl
  | cons row rest ih =>
    obtain ⟨unlisted, restDistinct⟩ := nodup_cons.mp distinct
    by_cases same : row.1 = key
    · have absent : lastPut key rest = none := lastPut_eq_none.mpr (same ▸ unlisted)
      simp [firstPut, lastPut, same, absent]
    · simp [firstPut, lastPut, same, ih restDistinct]

/-- Where no two rows share a key, every row is the last of its key. -/
theorem lastPut_eq_some_iff {rows : List (κ × ν)} (distinct : (rows.map Prod.fst).Nodup) :
    lastPut key rows = some row ↔ (key, row) ∈ rows := by
  constructor
  · exact mem_of_lastPut
  · intro listed
    induction rows with
    | nil => cases listed
    | cons head rest ih =>
      obtain ⟨unlisted, restDistinct⟩ := nodup_cons.mp distinct
      rcases mem_cons.mp listed with same | later
      · have absent : lastPut key rest = none :=
          lastPut_eq_none.mpr (fun present => unlisted (same ▸ present))
        simp [lastPut, absent, ← same]
      · simp [lastPut, ih restDistinct later]

/-! ## Puts and removes of one family -/

/-- The writes of one family of rows in a batch: all puts, then all removes. -/
structure Writes (κ : Type u) (ν : Type v) where
  puts : List (κ × ν) := []
  removes : List κ := []

variable (writes : Writes κ ν)

namespace Writes

/-- Write the puts and then the removes. -/
def apply (map : Map κ ν) : Map κ ν := removeAll (putAll map writes.puts) writes.removes

variable (earlier : Writes κ ν)

/-- One batch for two: an earlier put gives way to a later remove of its key, an
earlier remove to a later put. -/
def merge (later : Writes κ ν) : Writes κ ν where
  puts := earlier.puts.filter (fun row => row.1 ∉ later.removes) ++ later.puts
  removes := earlier.removes.filter (fun key => key ∉ later.puts.map Prod.fst) ++ later.removes

theorem lookup_apply (map : Map κ ν) (key : κ) :
    (writes.apply map).lookup key =
      if key ∈ writes.removes then none
      else (lastPut key writes.puts).or (map.lookup key) := by
  rw [apply, lookup_removeAll, lookup_putAll]

/-- Puts that are all removed again leave the map without the removed keys. -/
theorem apply_removes_apply_puts (map : Map κ ν) {puts : List (κ × ν)} {removes : List κ}
    (covered : ∀ row ∈ puts, row.1 ∈ removes) :
    apply ⟨[], removes⟩ (apply ⟨puts, []⟩ map) = removeAll map removes := by
  apply ext_lookup
  intro key
  rw [lookup_apply, lookup_apply, lookup_removeAll]
  by_cases listed : key ∈ removes
  · simp [listed]
  · have unput : lastPut key puts = none := by
      apply lastPut_eq_none.mpr
      intro member
      obtain ⟨row, inPuts, rfl⟩ := mem_map.mp member
      exact listed (covered row inPuts)
    simp [listed, unput, lastPut]

/-- Merged writes do what the two batches did one after the other. -/
theorem apply_merge (later : Writes κ ν) (map : Map κ ν) :
    (merge earlier later).apply map = later.apply (earlier.apply map) := by
  apply ext_lookup
  intro key
  simp only [lookup_apply, merge, mem_append, mem_filter, decide_eq_true_eq, lastPut_append]
  by_cases removed : key ∈ later.removes
  · simp [removed]
  · have kept : lastPut key (earlier.puts.filter fun row => row.1 ∉ later.removes) =
        lastPut key earlier.puts := by
      apply lastPut_filter
      intro row
      exact decide_eq_true removed
    cases put : lastPut key later.puts with
    | some row =>
      have listed : key ∈ later.puts.map Prod.fst := mem_map_of_mem (mem_of_lastPut put)
      simp [removed, listed]
    | none =>
      have unlisted : key ∉ later.puts.map Prod.fst := lastPut_eq_none.mp put
      simp only [removed, unlisted, not_false_eq_true, and_true, or_false, if_false, kept, none_or]

omit [DecidableEq κ] in
theorem eq_empty {writes : Writes κ ν} (noPuts : writes.puts = [])
    (noRemoves : writes.removes = []) : writes = {} := by
  cases writes
  subst noPuts noRemoves
  rfl

@[simp] theorem merge_empty : merge writes {} = writes := by
  simp [merge]

/-- Rows that agree with a larger map still do after the same writes. -/
theorem apply_mono {small large : Map κ ν}
    (agree : ∀ key row, small.lookup key = some row → large.lookup key = some row)
    (found : (writes.apply small).lookup key = some row) :
    (writes.apply large).lookup key = some row := by
  rw [lookup_apply] at found ⊢
  split at found
  · cases found
  · next kept =>
    rw [if_neg kept]
    rcases or_eq_some_iff.mp found with put | ⟨unput, held⟩
    · simp [put]
    · simp [unput, agree key row held]

/-- No key is put twice, or both put and removed. -/
structure Tidy (writes : Writes κ ν) : Prop where
  distinct : (writes.puts.map Prod.fst).Nodup
  disjoint : ∀ key ∈ writes.puts.map Prod.fst, key ∉ writes.removes

omit [DecidableEq κ] in
theorem Tidy.empty : Tidy ({} : Writes κ ν) := by
  constructor <;> simp

/-- Tidy writes may be read puts first. -/
theorem Tidy.lookup_apply {writes : Writes κ ν} (tidy : Tidy writes) (map : Map κ ν) (key : κ) :
    (writes.apply map).lookup key =
      (lastPut key writes.puts).or (if key ∈ writes.removes then none else map.lookup key) := by
  rw [Writes.lookup_apply]
  cases put : lastPut key writes.puts with
  | none => simp
  | some row =>
    have kept := tidy.disjoint key (mem_map_of_mem (mem_of_lastPut put))
    simp [kept]

variable {earlier later : Writes κ ν}

/-- Later puts of new keys keep writes tidy. -/
theorem Tidy.merge_puts (tidy : Tidy earlier) (onlyPuts : later.removes = [])
    (distinct : (later.puts.map Prod.fst).Nodup)
    (fresh : ∀ key ∈ later.puts.map Prod.fst, key ∉ earlier.puts.map Prod.fst) :
    Tidy (merge earlier later) := by
  have kept : (merge earlier later).puts = earlier.puts ++ later.puts := by
    simp [merge, onlyPuts]
  constructor
  · rw [kept, map_append]
    exact .append tidy.distinct distinct fun key old new => fresh key new old
  · intro key put removed
    rw [kept, map_append, mem_append] at put
    simp only [merge, onlyPuts, append_nil, mem_filter, decide_eq_true_eq] at removed
    rcases put with old | new
    · exact tidy.disjoint key old removed.1
    · exact removed.2 new

/-- Later removes keep writes tidy. -/
theorem Tidy.merge_removes (tidy : Tidy earlier) (onlyRemoves : later.puts = []) :
    Tidy (merge earlier later) := by
  have kept : (merge earlier later).puts.Sublist earlier.puts := by
    simp [merge, onlyRemoves]
  constructor
  · exact (kept.map Prod.fst).nodup tidy.distinct
  · intro key put removed
    simp only [merge, onlyRemoves, List.append_nil, List.mem_map, List.mem_filter,
      decide_eq_true_eq] at put
    obtain ⟨row, ⟨old, unremoved⟩, rfl⟩ := put
    simp only [merge, onlyRemoves, map_nil, not_mem_nil, not_false_eq_true,
      decide_true, List.filter_true, List.mem_append] at removed
    rcases removed with older | newer
    · exact tidy.disjoint row.1 (List.mem_map_of_mem old) older
    · exact unremoved newer

end Writes

/-! ## Tables

A table is a map whose rows can be listed. -/

/-- A map with a list of its rows, no two of which share a key. -/
abbrev Table (κ : Type u) (ν : Type v) := AList fun _ : κ => ν

namespace Table

variable (table : Table κ ν)

/-- The rows of a table. -/
def rows : List (κ × ν) := table.entries.map fun entry => (entry.1, entry.2)

theorem mem_rows {table : Table κ ν} {row : κ × ν} :
    row ∈ table.rows ↔ table.lookup row.1 = some row.2 := by
  rw [rows, List.mem_map]
  constructor
  · rintro ⟨entry, listed, rfl⟩
    exact AList.mem_lookup_iff.mpr listed
  · intro found
    exact ⟨⟨row.1, row.2⟩, AList.mem_lookup_iff.mp found, rfl⟩

/-- A lookup after one insertion. -/
theorem lookup_insert (key other : κ) (row : ν) :
    (table.insert key row).lookup other = if key = other then some row else table.lookup other := by
  by_cases same : key = other
  · subst same
    simp
  · simp [AList.lookup_insert_ne (Ne.symm same), same]

variable {μ : Type v} (keep : ν → Option μ)

omit [DecidableEq κ] in
/-- What is kept of a table's rows has distinct keys. -/
theorem nodup_filterMap_rows :
    ((table.rows.filterMap fun row => (keep row.2).map fun kept => (row.1, kept)).map
      Prod.fst).Nodup := by
  have distinct : table.rows.Pairwise fun row other => row.1 ≠ other.1 := by
    rw [rows, List.pairwise_map]
    exact pairwise_map.mp table.keys_nodup
  rw [List.Nodup, List.pairwise_map, List.pairwise_filterMap]
  apply distinct.imp
  intro row other different kept isKept kept' isKept'
  obtain ⟨_, -, rfl⟩ := map_eq_some_iff.mp isKept
  obtain ⟨_, -, rfl⟩ := map_eq_some_iff.mp isKept'
  exact different

/-- What is kept of a table's rows is found under their own keys. -/
theorem lastPut_filterMap_rows (key : κ) :
    lastPut key (table.rows.filterMap fun row => (keep row.2).map fun kept => (row.1, kept)) =
      (table.lookup key).bind keep := by
  ext kept
  rw [lastPut_eq_some_iff (nodup_filterMap_rows table keep), List.mem_filterMap, bind_eq_some_iff]
  constructor
  · rintro ⟨row, listed, isKept⟩
    obtain ⟨value, found, equal⟩ := map_eq_some_iff.mp isKept
    cases equal
    exact ⟨row.2, mem_rows.mp listed, found⟩
  · rintro ⟨row, found, isKept⟩
    exact ⟨(key, row), mem_rows.mpr found, by rw [isKept]; rfl⟩

/-- A key is kept exactly when its row is. -/
theorem mem_filterMap_rows (key : κ) :
    key ∈ (table.rows.filterMap fun row => (keep row.2).map fun kept => (row.1, kept)).map
      Prod.fst ↔ ∃ row, (table.lookup key).bind keep = some row := by
  rw [← isSome_iff_exists, ← lastPut_filterMap_rows, isSome_iff_ne_none, ne_eq,
    lastPut_eq_none, not_not]

end Table

/-- A sum over the kept rows is a sum over all rows in which the others count for
nothing. -/
theorem sum_map_filterMap {α β : Type*} (rows : List α) (keep : α → Option β) (value : β → Int) :
    ((rows.filterMap keep).map value).sum =
      (rows.map fun row => ((keep row).map value).getD 0).sum := by
  induction rows with
  | nil => rfl
  | cons row rest ih =>
    cases kept : keep row with
    | none => simp [kept, ih]
    | some result => simp [kept, ih]

theorem sum_map_sub {α : Type*} (rows : List α) (first second : α → Int) :
    (rows.map fun row => first row - second row).sum =
      (rows.map first).sum - (rows.map second).sum := by
  induction rows with
  | nil => rfl
  | cons row rest ih =>
    simp only [List.map_cons, List.sum_cons, ih]
    omega

/-! ## Totals -/

/-- The weight of the row at a key, zero when there is none. -/
def weightAt (weight : κ → ν → Nat) (map : Map κ ν) (key : κ) : Nat :=
  ((map.lookup key).map (weight key)).getD 0

/-- The sum of a weight over all rows. -/
def total (weight : κ → ν → Nat) (map : Map κ ν) : Nat := ∑ key ∈ map.keys, weightAt weight map key

variable {weight : κ → ν → Nat}

theorem weightAt_of_lookup (found : map.lookup key = some row) :
    weightAt weight map key = weight key row := by
  simp [weightAt, found]

theorem weightAt_of_notMem (absent : key ∉ map) : weightAt weight map key = 0 := by
  simp [weightAt, lookup_eq_none.mpr absent]

@[simp] theorem total_empty : total weight (∅ : Map κ ν) = 0 := by
  simp [total]

theorem weightAt_erase_of_ne (different : key ≠ other) :
    weightAt weight (map.erase key) other = weightAt weight map other := by
  rw [weightAt, lookup_erase, if_neg different, weightAt]

/-- Taking away a row takes away its weight. -/
theorem total_erase (weight : κ → ν → Nat) (map : Map κ ν) (key : κ) :
    total weight map = weightAt weight map key + total weight (map.erase key) := by
  have rest : total weight (map.erase key) = ∑ other ∈ map.keys.erase key,
      weightAt weight map other := by
    rw [total, keys_erase]
    apply sum_congr rfl
    intro other present
    rw [weightAt_erase_of_ne (mem_erase.mp present).1.symm]
  rw [rest, total]
  by_cases present : key ∈ map.keys
  · exact (add_sum_erase _ _ present).symm
  · rw [weightAt_of_notMem (fun held => present (mem_keys.mpr held)),
      erase_eq_of_notMem present, zero_add]

/-- Inserting a row replaces the weight of the row that was there. -/
theorem total_insert (weight : κ → ν → Nat) (map : Map κ ν) (key : κ) (row : ν) :
    total weight (map.insert key row) + weightAt weight map key =
      weight key row + total weight map := by
  have same : (map.insert key row).erase key = map.erase key := by
    apply ext_lookup
    intro other
    rw [lookup_erase, lookup_erase, lookup_insert]
    split_ifs <;> rfl
  have inserted := total_erase weight (map.insert key row) key
  rw [same, weightAt_of_lookup (Finmap.lookup_insert map)] at inserted
  have before := total_erase weight map key
  omega

/-- Replacing a row by one of the same weight. -/
theorem total_insert_same {row changed : ν} (found : map.lookup key = some row)
    (same : weight key changed = weight key row) :
    total weight map = total weight (map.insert key changed) := by
  have moved := total_insert weight map key changed
  rw [weightAt_of_lookup found] at moved
  omega

theorem weightAt_insert_of_ne (different : key ≠ other) :
    weightAt weight (map.insert key row) other = weightAt weight map other := by
  rw [weightAt, lookup_insert, if_neg different, weightAt]

/-- Puts of distinct keys replace the weights of the rows that were there. -/
theorem total_putAll (weight : κ → ν → Nat) (map : Map κ ν) {rows : List (κ × ν)}
    (distinct : (rows.map Prod.fst).Nodup) :
    total weight (putAll map rows) + (rows.map fun row => weightAt weight map row.1).sum =
      total weight map + (rows.map fun row => weight row.1 row.2).sum := by
  induction rows generalizing map with
  | nil => rfl
  | cons row rest ih =>
    obtain ⟨unlisted, restDistinct⟩ := nodup_cons.mp distinct
    have others : (rest.map fun other => weightAt weight (map.insert row.1 row.2) other.1) =
        rest.map fun other => weightAt weight map other.1 := by
      apply map_congr_left
      intro other listed
      apply weightAt_insert_of_ne
      exact fun same => unlisted (same ▸ mem_map_of_mem listed)
    have later := ih (map.insert row.1 row.2) restDistinct
    have first := total_insert weight map row.1 row.2
    rw [others] at later
    simp only [putAll_cons, List.map_cons, List.sum_cons]
    omega

/-- Removes of distinct keys take away the weights of their rows. -/
theorem total_removeAll (weight : κ → ν → Nat) (map : Map κ ν) (distinct : keys.Nodup) :
    total weight (removeAll map keys) + (keys.map (weightAt weight map)).sum =
      total weight map := by
  induction keys generalizing map with
  | nil => rfl
  | cons key rest ih =>
    obtain ⟨unlisted, restDistinct⟩ := nodup_cons.mp distinct
    have others : rest.map (weightAt weight (map.erase key)) = rest.map (weightAt weight map) := by
      apply map_congr_left
      intro other listed
      exact weightAt_erase_of_ne fun same => unlisted (same ▸ listed)
    have later := ih (map.erase key) restDistinct
    have first := total_erase weight map key
    rw [others] at later
    simp only [removeAll_cons, List.map_cons, List.sum_cons]
    omega

/-- The total of a sum of weights is the sum of their totals. -/
theorem total_add (first second : κ → ν → Nat) (map : Map κ ν) :
    total (fun key row => first key row + second key row) map =
      total first map + total second map := by
  rw [total, total, total, ← sum_add_distrib]
  apply sum_congr rfl
  intro key _
  cases found : map.lookup key <;> simp [weightAt, found]

/-- The total of a finite sum of weights is the sum of their totals. -/
theorem total_sum {ι : Type*} (indices : Finset ι) (weights : ι → κ → ν → Nat) (map : Map κ ν) :
    total (fun key row => ∑ index ∈ indices, weights index key row) map =
      ∑ index ∈ indices, total (weights index) map := by
  simp only [total]
  rw [sum_comm]
  apply sum_congr rfl
  intro key _
  cases found : map.lookup key <;> simp [weightAt, found]

/-- A weight that is at most another on every row has at most its total. -/
theorem total_le_total {first second : κ → ν → Nat}
    (below : ∀ key row, map.lookup key = some row → first key row ≤ second key row) :
    total first map ≤ total second map := by
  apply Finset.sum_le_sum
  intro key member
  obtain ⟨row, found⟩ := mem_iff.mp (mem_keys.mp member)
  rw [weightAt_of_lookup found, weightAt_of_lookup found]
  exact below key row found

/-- A map whose every row comes from one of two maps weighs no more than both. -/
theorem total_le_add {first second : Map κ ν} (covered : ∀ key row, map.lookup key = some row →
      first.lookup key = some row ∨ second.lookup key = some row) :
    total weight map ≤ total weight first + total weight second := by
  have pointwise : ∀ key ∈ map.keys, weightAt weight map key ≤
      weightAt weight first key + weightAt weight second key := by
    intro key present
    obtain ⟨row, found⟩ := mem_iff.mp (mem_keys.mp present)
    rw [weightAt_of_lookup found]
    rcases covered key row found with fromFirst | fromSecond
    · rw [weightAt_of_lookup fromFirst]
      exact Nat.le_add_right _ _
    · rw [weightAt_of_lookup fromSecond]
      exact Nat.le_add_left _ _
  have bounded : ∀ other : Map κ ν,
      ∑ key ∈ map.keys, weightAt weight other key ≤ total weight other := by
    intro other
    calc ∑ key ∈ map.keys, weightAt weight other key
        ≤ ∑ key ∈ map.keys ∪ other.keys, weightAt weight other key :=
          sum_le_sum_of_subset subset_union_left
      _ = total weight other := by
          symm
          apply sum_subset subset_union_right
          intro key _ absent
          exact weightAt_of_notMem (fun held => absent (mem_keys.mpr held))
  calc total weight map
      ≤ ∑ key ∈ map.keys, (weightAt weight first key + weightAt weight second key) :=
        sum_le_sum pointwise
    _ = ∑ key ∈ map.keys, weightAt weight first key +
          ∑ key ∈ map.keys, weightAt weight second key := sum_add_distrib
    _ ≤ total weight first + total weight second := add_le_add (bounded first) (bounded second)

/-! ## Keys in order -/

section Ascending

variable {κ : Type u} [LinearOrder κ]

/-- The keys of a finite set in order, inserted one after the other. -/
def ascending (keys : Finset κ) : List κ :=
  Quot.liftOn keys.val (fun listed => listed.insertionSort (· ≤ ·)) fun first second same => by
    have shuffled : (first.insertionSort (· ≤ ·)).Perm (second.insertionSort (· ≤ ·)) :=
      ((perm_insertionSort _ first).trans same).trans (perm_insertionSort _ second).symm
    exact shuffled.eq_of_pairwise' (pairwise_insertionSort _ first)
      (pairwise_insertionSort _ second)

theorem coe_ascending (keys : Finset κ) : (ascending keys : Multiset κ) = keys.val := by
  obtain ⟨listed, nodup⟩ := keys
  induction listed using Quot.inductionOn with
  | h listed => exact Quot.sound (perm_insertionSort _ listed)

theorem mem_ascending {key : κ} {keys : Finset κ} : key ∈ ascending keys ↔ key ∈ keys := by
  rw [← Multiset.mem_coe, coe_ascending, mem_val]

theorem nodup_ascending {keys : Finset κ} : (ascending keys).Nodup := by
  rw [← Multiset.coe_nodup, coe_ascending]
  exact keys.nodup

end Ascending

end KeyedMap
