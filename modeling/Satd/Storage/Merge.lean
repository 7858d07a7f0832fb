import Satd.Storage.Store

/-!
# Merged batches

Batches that wait for a flush are merged into one. A key-value store that applies the
merged batch should hold what it holds after the two batches one after the other. For
every family with removes of its own it does. Filters and filter headers share one list
of removes, and a later batch takes a key off that list when it puts a filter, whether or
not it puts a header.
-/

namespace Satd.Storage

open KeyedMap Satd.Bitcoin List Prod
open Satd.Consensus (Bytes)

/-- The rows of a family as a key-value store takes them. -/
def RowWrites.keyed {κ ρ ν : Type} (key : ρ → κ) (value : ρ → ν) (writes : RowWrites κ ρ) :
    Writes κ ν where
  puts := writes.puts.map fun row => (key row, value row)
  removes := writes.removes

/-- The keyed families of a store, coins apart. -/
structure KeyedRows where
  heightHash : Map Nat BlockHash := ∅
  txLoc : Map Txid Nat := ∅
  txseqTxid : Map Nat Txid := ∅
  txseqBlock : Map Nat Nat := ∅
  addrFunding : Map AddrFundingKey Nat := ∅
  addrSpending : Map AddrSpendingKey (Nat × UInt32) := ∅
  spent : Map SpentKey SpentBy := ∅
  filter : Map FilterKey Bytes := ∅
  filterHeader : Map FilterKey Hash256 := ∅
  spTweak : Map Nat Bytes := ∅
  opreturnStrip : Map BlockHash Bytes := ∅

namespace StoreBatch

variable (batch : StoreBatch)

def addrFundingWrites : Writes AddrFundingKey Nat :=
  batch.addrFunding.keyed AddrFundingRow.key AddrFundingRow.amountSat

def addrSpendingWrites : Writes AddrSpendingKey (Nat × UInt32) :=
  batch.addrSpending.keyed AddrSpendingRow.key fun row => (row.fundingTxseq, row.fundingVout)

def filterWrites : Writes FilterKey Bytes := ⟨batch.filterPuts, batch.filterRemoves⟩

def filterHeaderWrites : Writes FilterKey Hash256 := ⟨batch.filterHeaderPuts, batch.filterRemoves⟩

end StoreBatch

/-- Write a batch: in each family its puts, then its removes. -/
def KeyedRows.writeBatch (rows : KeyedRows) (batch : StoreBatch) : KeyedRows where
  heightHash := batch.heightHash.apply rows.heightHash
  txLoc := batch.txLoc.apply rows.txLoc
  txseqTxid := batch.txseqTxid.apply rows.txseqTxid
  txseqBlock := batch.txseqBlock.apply rows.txseqBlock
  addrFunding := batch.addrFundingWrites.apply rows.addrFunding
  addrSpending := batch.addrSpendingWrites.apply rows.addrSpending
  spent := batch.spent.apply rows.spent
  filter := batch.filterWrites.apply rows.filter
  filterHeader := batch.filterHeaderWrites.apply rows.filterHeader
  spTweak := batch.spTweak.apply rows.spTweak
  opreturnStrip := batch.opreturnStrip.apply rows.opreturnStrip

theorem RowWrites.keyed_merge {κ ρ ν : Type} [DecidableEq κ] (key : ρ → κ) (value : ρ → ν)
    (earlier later : RowWrites κ ρ) : (earlier.merge key later).keyed key value =
      (earlier.keyed key value).merge (later.keyed key value) := by
  simp only [RowWrites.merge, RowWrites.keyed, Writes.merge, filter_map, map_append,
    List.map_map, Function.comp_def]
  rfl

variable (earlier later : StoreBatch)

/-- In every family but the filter headers a merged batch does what the two did. -/
theorem KeyedRows.writeBatch_merge (rows : KeyedRows) : rows.writeBatch (earlier.merge later) =
    { (rows.writeBatch earlier).writeBatch later with
      filterHeader := (earlier.merge later).filterHeaderWrites.apply rows.filterHeader } := by
  have filters : (earlier.merge later).filterWrites =
      earlier.filterWrites.merge later.filterWrites := rfl
  have funding : (earlier.merge later).addrFundingWrites =
      earlier.addrFundingWrites.merge later.addrFundingWrites := RowWrites.keyed_merge ..
  have spending : (earlier.merge later).addrSpendingWrites =
      earlier.addrSpendingWrites.merge later.addrSpendingWrites := RowWrites.keyed_merge ..
  simp only [writeBatch, filters, funding, spending, Writes.apply_merge]
  simp [StoreBatch.merge, Writes.apply_merge]

/-- The header of a key after a merged batch. -/
theorem lookup_merged_header (headers : Map FilterKey Hash256) (key : FilterKey) :
    ((earlier.merge later).filterHeaderWrites.apply headers).lookup key =
      if key ∈ later.filterRemoves ∨
          key ∈ earlier.filterRemoves ∧ key ∉ later.filterPuts.map fst then none
      else (lastPut key later.filterHeaderPuts).or
        ((lastPut key earlier.filterHeaderPuts).or (headers.lookup key)) := by
  rw [Writes.lookup_apply]
  simp only [StoreBatch.filterHeaderWrites, StoreBatch.merge, lastPut_append, mem_append,
    mem_filter, decide_eq_true_eq]
  by_cases removed : key ∈ later.filterRemoves
  · simp [removed]
  · have kept : lastPut key (earlier.filterHeaderPuts.filter fun row =>
        row.1 ∉ later.filterRemoves) = lastPut key earlier.filterHeaderPuts :=
      lastPut_filter fun _ => decide_eq_true removed
    simp only [removed, or_false, false_or, kept, Option.or_assoc]

/-- A later batch that puts a header for each filter and a filter for each header, at the keys
an earlier one removes. -/
def StoreBatch.PairsHeaders : Prop :=
  ∀ key ∈ earlier.filterRemoves, key ∉ later.filterRemoves →
    (key ∈ later.filterPuts.map fst ↔ key ∈ later.filterHeaderPuts.map fst)

/-- A merged batch does in every store what the two did one after the other exactly if
filters and headers are put together where the earlier one removes them. -/
theorem writeBatch_merge_iff :
    (∀ rows : KeyedRows, rows.writeBatch (earlier.merge later) =
      (rows.writeBatch earlier).writeBatch later) ↔ earlier.PairsHeaders later := by
  have inTurn : ∀ (headers : Map FilterKey Hash256) key,
      (later.filterHeaderWrites.apply (earlier.filterHeaderWrites.apply headers)).lookup key =
        if key ∈ later.filterRemoves then none
        else (lastPut key later.filterHeaderPuts).or (if key ∈ earlier.filterRemoves then none
          else (lastPut key earlier.filterHeaderPuts).or (headers.lookup key)) := by
    intro headers key
    rw [Writes.lookup_apply, Writes.lookup_apply]
    rfl
  constructor
  · intro composes key removed kept
    -- A store that holds a header at the key tells the two apart.
    have same := congrArg (fun rows => rows.filterHeader.lookup key)
      (composes { filterHeader := Finmap.singleton key (.repeated 0) })
    rw [KeyedRows.writeBatch_merge] at same
    replace same := (lookup_merged_header ..).symm.trans (same.trans (inTurn ..))
    rw [if_neg kept, if_pos removed, Finmap.lookup_singleton_eq, Option.or_none] at same
    by_cases put : key ∈ later.filterPuts.map fst
    · rw [if_neg (by simp [kept, put])] at same
      rw [← not_not (a := key ∈ later.filterHeaderPuts.map fst), ← lastPut_eq_none, ← same]
      simp [put]
    · rw [if_pos (.inr ⟨removed, put⟩)] at same
      exact iff_of_false put (lastPut_eq_none.mp same.symm)
  · intro paired rows
    rw [KeyedRows.writeBatch_merge]
    have headers : (earlier.merge later).filterHeaderWrites.apply rows.filterHeader =
        later.filterHeaderWrites.apply (earlier.filterHeaderWrites.apply rows.filterHeader) := by
      apply Finmap.ext_lookup
      intro key
      rw [lookup_merged_header, inTurn]
      by_cases kept : key ∈ later.filterRemoves
      · simp [kept]
      by_cases removed : key ∈ earlier.filterRemoves
      · by_cases put : key ∈ later.filterPuts.map fst
        · have header := (paired key removed kept).mp put
          rw [← not_not (a := key ∈ _), ← lastPut_eq_none] at header
          obtain ⟨row, found⟩ := Option.ne_none_iff_exists'.mp header
          simp [removed, kept, put, found]
        · have headerless := lastPut_eq_none.mpr ((paired key removed kept).not.mp put)
          simp [removed, kept, put, headerless]
      · simp [removed, kept]
    rw [headers]
    rfl

/-- The header a later batch puts where an earlier one removed its filter is lost. -/
theorem merge_loses_header :
    let earlier : StoreBatch := { filterRemoves := [⟨0, 5⟩] }
    let later : StoreBatch := { filterHeaderPuts := [(⟨0, 5⟩, Hash256.repeated 1)] }
    let rows : KeyedRows := {}
    ((rows.writeBatch earlier).writeBatch later).filterHeader.lookup ⟨0, 5⟩ = some (.repeated 1) ∧
      (rows.writeBatch (earlier.merge later)).filterHeader.lookup ⟨0, 5⟩ = none := by
  constructor <;> rfl

end Satd.Storage
