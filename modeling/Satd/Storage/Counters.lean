import Satd.Storage.Refinement

/-!
# The running coin counters

The database keeps the number of coins, the sum of their amounts and a histogram
of their heights beside the coin rows, and changes them by what a batch says it
puts, removes and overwrites. It never recounts them. The cache in front adds
the changes that wait for the flush.

The counters stay exact in runs in which no flush drains a coin that was
restored after a failed flush and spent since: such a coin has no row, and the
store counts out one that it never counted in.
-/

namespace Satd.Storage

open KeyedMap Satd.Bitcoin List Prod

/-- A signed 64-bit value read as an unsigned one. -/
def asU64 (value : Int) : Nat := (value % 2 ^ 64).toNat

/-- What a coin of an amount and a height contributes to a counter. -/
abbrev Measure := Nat → Nat → Nat

namespace Measure

/-- Coins themselves. -/
def one : Measure := fun _ _ => 1

def amount : Measure := fun amount _ => amount

/-- The number of heights in a bucket of the histogram. -/
def heightHistBucket : Nat := 1_000

/-- Coins in one bucket of heights. -/
def bucket (bucket : Nat) : Measure := fun _ height =>
  if height / heightHistBucket = bucket then 1 else 0

def ofCoin (measure : Measure) (coin : Coin) : Nat := measure coin.amount coin.height

def ofRow (measure : Measure) (row : Nat × Nat) : Nat := measure row.1 row.2

/-- A counter recounted over all coins. -/
def tally (measure : Measure) (coins : Map OutPoint Coin) : Nat :=
  total (fun _ coin => measure.ofCoin coin) coins

end Measure

open Satd.Storage.Measure (one amount)

variable (batch : StoreBatch)

namespace StoreBatch

/-- The change of a counter by a batch: puts count in, removes and the rows that
puts overwrite count out. -/
def change (measure : Measure) (batch : StoreBatch) : Int :=
  (batch.coinPuts.map fun row => (measure.ofCoin row.2 : Int)).sum -
    (batch.coinRemoves.map fun row => (measure.ofRow row.2 : Int)).sum -
    (batch.coinOverwrites.map fun row => (measure.ofRow row.2 : Int)).sum

def countDelta : Int := wrapI64 (batch.change .one)

def amountDelta : Int := wrapI64 (batch.change .amount)

def histDelta (bucket : Nat) : Int := wrapI64 (batch.change (.bucket bucket))

/-- The buckets a batch touches. -/
def touchedBuckets : List Nat :=
  (batch.coinPuts.map (fun row => row.2.height / Measure.heightHistBucket) ++
    batch.coinRemoves.map (fun row => row.2.2 / Measure.heightHistBucket) ++
    batch.coinOverwrites.map (fun row => row.2.2 / Measure.heightHistBucket)).dedup

end StoreBatch

/-! ## The database -/

/-- The coin rows of the database and the counters beside them. -/
structure RocksDbStore where
  coins : Map OutPoint Coin := ∅
  utxoCount : Nat := 0
  totalAmount : Nat := 0
  utxoHeightHist : List Nat := []
  txindex : Bool := false

namespace RocksDbStore

/-- Change one bucket of the histogram, which grows as needed. A negative count
becomes zero. -/
def bumpBucket (hist : List Nat) (bucket : Nat) (delta : Int) : List Nat :=
  let resized := hist ++ List.replicate (bucket + 1 - hist.length) 0
  resized.set bucket (asU64 (max 0 (wrapI64 (wrapI64 (resized.getD bucket 0) + delta))))

/-- The histogram after a batch. Every touched bucket is changed once, so their
order does not matter. -/
def writeHist (hist : List Nat) : List Nat :=
  batch.touchedBuckets.foldl (fun hist bucket => bumpBucket hist bucket (batch.histDelta bucket))
    hist

/-- Write a batch: its coin rows and, if they change, the counters. -/
def writeBatch (store : RocksDbStore) (batch : StoreBatch) : RocksDbStore :=
  let counted :=
    if batch.countDelta ≠ 0 ∨ batch.amountDelta ≠ 0 then
      (asU64 (wrapI64 (wrapI64 store.utxoCount + batch.countDelta)),
        asU64 (wrapI64 (wrapI64 store.totalAmount + batch.amountDelta)))
    else (store.utxoCount, store.totalAmount)
  { store with
    coins := batch.applyCoins store.coins
    utxoCount := counted.1
    totalAmount := counted.2
    utxoHeightHist := writeHist batch store.utxoHeightHist }

instance : Backing RocksDbStore where
  coins := RocksDbStore.coins
  writeBatch := RocksDbStore.writeBatch
  hasTxindex := RocksDbStore.txindex
  coins_writeBatch _ _ := rfl

/-- The counters are what a recount gives. -/
structure Exact (store : RocksDbStore) : Prop where
  count : store.utxoCount = one.tally store.coins
  amount : store.totalAmount = amount.tally store.coins
  hist : ∀ bucket, store.utxoHeightHist.getD bucket 0 = (Measure.bucket bucket).tally store.coins

end RocksDbStore

namespace CoinCache

/-- The number of coins, with the changes that wait for the flush. -/
def coinCount (cache : CoinCache RocksDbStore) : Nat :=
  asU64 (max 0 (wrapI64 (wrapI64 cache.inner.utxoCount + cache.countDelta)))

def coinTotalAmount (cache : CoinCache RocksDbStore) : Nat :=
  asU64 (max 0 (wrapI64 (wrapI64 cache.inner.totalAmount + cache.amountDelta)))

end CoinCache

/-! ## Machine words -/

/-- A count that fits in a signed 64-bit word. -/
def FitsI64 (value : Nat) : Prop := value < 2 ^ 63

theorem wrapI64_of_range {value : Int} (low : -2 ^ 63 ≤ value) (high : value < 2 ^ 63) :
    wrapI64 value = value := by
  apply Int.bmod_eq_of_le <;> omega

variable {value : Nat}

theorem wrapI64_natCast (fits : FitsI64 value) : wrapI64 value = value :=
  wrapI64_of_range (by omega) (by exact_mod_cast fits)

theorem asU64_natCast (fits : FitsI64 value) : asU64 value = value := by
  unfold FitsI64 at fits
  unfold asU64
  omega

/-- A counter that moves from one value to another by its exact change. -/
theorem asU64_moved {before after : Nat} {delta : Int} (fitsBefore : FitsI64 before)
    (fitsAfter : FitsI64 after) (moved : (after : Int) = before + delta) :
    wrapI64 delta = delta ∧ wrapI64 (wrapI64 before + delta) = after ∧
      asU64 (wrapI64 (wrapI64 before + delta)) = after ∧
      asU64 (max 0 (wrapI64 (wrapI64 before + delta))) = after := by
  have exact : wrapI64 (wrapI64 before + delta) = after := by
    rw [wrapI64_natCast fitsBefore, ← moved, wrapI64_natCast fitsAfter]
  have small : wrapI64 delta = delta := by
    unfold FitsI64 at fitsBefore fitsAfter
    exact wrapI64_of_range (by omega) (by omega)
  refine ⟨small, exact, ?_, ?_⟩
  · rw [exact, asU64_natCast fitsAfter]
  · rw [exact, max_eq_right (by omega), asU64_natCast fitsAfter]

/-! ## The histogram -/

namespace RocksDbStore

theorem getD_bumpBucket (hist : List Nat) (bucket other : Nat) (delta : Int) :
    (bumpBucket hist bucket delta).getD other 0 =
      if bucket = other then asU64 (max 0 (wrapI64 (wrapI64 (hist.getD bucket 0) + delta)))
      else hist.getD other 0 := by
  have grown : ∀ position, (hist ++ replicate (bucket + 1 - hist.length) 0).getD position 0 =
      hist.getD position 0 := by
    intro position
    rw [getD_eq_getElem?_getD, getD_eq_getElem?_getD]
    by_cases inside : position < hist.length
    · rw [getElem?_append_left inside]
    · rw [getElem?_append_right (by omega), getElem?_replicate, getElem?_eq_none (by omega)]
      split <;> rfl
  have reaches : bucket < (hist ++ replicate (bucket + 1 - hist.length) 0).length := by
    rw [length_append, length_replicate]
    omega
  rw [bumpBucket, grown]
  by_cases same : bucket = other
  · subst same
    rw [getD_eq_getElem?_getD, getElem?_set_self reaches, if_pos rfl, Option.getD_some]
  · rw [getD_eq_getElem?_getD, getElem?_set_ne same, ← getD_eq_getElem?_getD, grown, if_neg same]

/-- Distinct buckets are each changed by their own delta. -/
theorem getD_bumpBuckets {buckets : List Nat} (distinct : buckets.Nodup) (delta : Nat → Int)
    (hist : List Nat) (bucket : Nat) :
    (buckets.foldl (fun hist bucket => bumpBucket hist bucket (delta bucket)) hist).getD bucket 0 =
      if bucket ∈ buckets then
        asU64 (max 0 (wrapI64 (wrapI64 (hist.getD bucket 0) + delta bucket)))
      else hist.getD bucket 0 := by
  induction buckets generalizing hist with
  | nil => simp
  | cons first rest ih =>
    obtain ⟨unlisted, restDistinct⟩ := nodup_cons.mp distinct
    rw [foldl_cons, ih restDistinct, getD_bumpBucket]
    by_cases same : first = bucket
    · subst same
      simp [unlisted]
    · simp [same, Ne.symm same]

end RocksDbStore

/-- A bucket the batch does not touch is not changed. -/
theorem StoreBatch.change_of_untouched {batch : StoreBatch} {bucket : Nat}
    (untouched : bucket ∉ batch.touchedBuckets) : batch.change (.bucket bucket) = 0 := by
  rw [touchedBuckets, mem_dedup, mem_append, mem_append, not_or, not_or] at untouched
  obtain ⟨⟨unput, unremoved⟩, unreplaced⟩ := untouched
  have puts : ∀ value ∈ batch.coinPuts.map fun row =>
      ((Measure.bucket bucket).ofCoin row.2 : Int), value = 0 := by
    intro value listed
    obtain ⟨row, member, rfl⟩ := mem_map.mp listed
    have elsewhere : row.2.height / Measure.heightHistBucket ≠ bucket := fun same =>
      unput (mem_map.mpr ⟨row, member, same⟩)
    simp [Measure.ofCoin, Measure.bucket, elsewhere]
  have stored : ∀ rows : List (OutPoint × Nat × Nat),
      bucket ∉ rows.map (fun row => row.2.2 / Measure.heightHistBucket) →
      (rows.map fun row => ((Measure.bucket bucket).ofRow row.2 : Int)).sum = 0 := by
    intro rows unlisted
    apply sum_eq_zero
    intro value listed
    obtain ⟨row, member, rfl⟩ := mem_map.mp listed
    have elsewhere : row.2.2 / Measure.heightHistBucket ≠ bucket := fun same =>
      unlisted (mem_map.mpr ⟨row, member, same⟩)
    simp [Measure.ofRow, Measure.bucket, elsewhere]
  rw [change, sum_eq_zero puts, stored _ unremoved, stored _ unreplaced]
  rfl

/-! ## Exact counters -/

/-- Counts and amounts of a set of coins that fit in signed words. -/
structure Fits (coins : Map OutPoint Coin) : Prop where
  count : FitsI64 (one.tally coins)
  amount : FitsI64 (amount.tally coins)

theorem Measure.tally_bucket_le {bucket : Nat} {coins : Map OutPoint Coin} :
    (Measure.bucket bucket).tally coins ≤ one.tally coins := by
  apply Finset.sum_le_sum
  intro outpoint _
  cases found : coins.lookup outpoint with
  | none => simp [weightAt, found]
  | some coin =>
    simp only [weightAt, found, Option.map_some, Option.getD_some, Measure.ofCoin, Measure.bucket,
      one]
    split <;> omega

theorem Fits.bucket {coins : Map OutPoint Coin} (fits : Fits coins) (bucket : Nat) :
    FitsI64 ((Measure.bucket bucket).tally coins) :=
  lt_of_le_of_lt (Measure.tally_bucket_le) fits.count

/-- A batch tells the truth about a set of coins if every counter changes by what
the batch says. -/
def StoreBatch.Truthful (coins : Map OutPoint Coin) : Prop :=
  ∀ measure : Measure,
    (measure.tally (batch.applyCoins coins) : Int) = measure.tally coins + batch.change measure

namespace RocksDbStore

variable {store : RocksDbStore} {batch : StoreBatch}

section

variable (exact : store.Exact) (fits : Fits store.coins)
  (fitsAfter : Fits (batch.applyCoins store.coins)) (truthful : batch.Truthful store.coins)
include exact fits fitsAfter truthful

/-- Exact counters stay exact under a truthful batch. -/
theorem Exact.writeBatch : (store.writeBatch batch).Exact := by
  obtain ⟨smallCount, -, newCount, -⟩ := asU64_moved fits.count fitsAfter.count (truthful .one)
  obtain ⟨smallAmount, -, newAmount, -⟩ :=
    asU64_moved fits.amount fitsAfter.amount (truthful .amount)
  constructor
  · rw [RocksDbStore.writeBatch]
    simp only [StoreBatch.countDelta, StoreBatch.amountDelta, smallCount, smallAmount, exact.count]
    split
    · rw [newCount]
    · next unchanged =>
      have moved := truthful .one
      omega
  · rw [RocksDbStore.writeBatch]
    simp only [StoreBatch.countDelta, StoreBatch.amountDelta, smallCount, smallAmount, exact.amount]
    split
    · rw [newAmount]
    · next unchanged =>
      have moved := truthful .amount
      omega
  · intro bucket
    obtain ⟨small, -, -, newBucket⟩ :=
      asU64_moved (fits.bucket bucket) (fitsAfter.bucket bucket) (truthful (.bucket bucket))
    have distinct : batch.touchedBuckets.Nodup := nodup_dedup _
    rw [RocksDbStore.writeBatch]
    simp only [writeHist]
    rw [getD_bumpBuckets distinct, exact.hist, StoreBatch.histDelta, small]
    split
    · rw [newBucket]
    · next untouched =>
      have moved := truthful (.bucket bucket)
      rw [StoreBatch.change_of_untouched untouched] at moved
      omega

/-- No bucket is clamped by a truthful batch. -/
theorem Exact.unclamped (bucket : Nat) :
    0 ≤ wrapI64 (store.utxoHeightHist.getD bucket 0) + batch.histDelta bucket := by
  have moved := truthful (.bucket bucket)
  obtain ⟨small, -, -, -⟩ := asU64_moved (fits.bucket bucket) (fitsAfter.bucket bucket) moved
  rw [StoreBatch.histDelta, small, exact.hist, wrapI64_natCast (fits.bucket bucket)]
  omega

end

/-- A batch without coins leaves rows and counters alone. -/
theorem writeBatch_nonCoin {store : RocksDbStore} {batch : StoreBatch} :
    store.writeBatch batch.nonCoin = store := by
  simp [RocksDbStore.writeBatch, StoreBatch.countDelta, StoreBatch.amountDelta, StoreBatch.change,
    StoreBatch.nonCoin, writeHist, StoreBatch.touchedBuckets, StoreBatch.applyCoins, wrapI64]

end RocksDbStore

/-! ## What a dirty entry knows of the stored row -/

/-- A stored row with an amount and a height. -/
def RowIs (row : Option Coin) (stored : Nat × Nat) : Prop :=
  ∃ coin, row = some coin ∧ (coin.amount, coin.height) = stored

/-- The entry agrees with the row below it. A restored coin has none: the write
that would have created it failed. -/
def DirtyEntry.Describes (row : Option Coin) : DirtyEntry → Prop
  | present _ _ none => row = none
  | present _ fresh (some stored) => fresh = false ∧ RowIs row stored
  | spent _ _ true _ => row = none
  | spent _ _ false true => row = none
  | spent amount height false false => RowIs row (amount, height)

theorem RowIs.weightAt {coins : Map OutPoint Coin} {outpoint : OutPoint} {stored : Nat × Nat}
    (row : RowIs (coins.lookup outpoint) stored) (measure : Measure) :
    KeyedMap.weightAt (fun _ coin => measure.ofCoin coin) coins outpoint =
      measure.ofRow stored := by
  obtain ⟨coin, found, rfl⟩ := row
  rw [weightAt_of_lookup found]
  rfl

namespace CoinCache

/-- Every entry of a dirty table agrees with the row below it. -/
def RowsKnown (dirty : Table OutPoint DirtyEntry) (coins : Map OutPoint Coin) : Prop :=
  ∀ outpoint entry, dirty.lookup outpoint = some entry → entry.Describes (coins.lookup outpoint)

section Rows

variable {dirty : Table OutPoint DirtyEntry} {coins : Map OutPoint Coin}

section

variable (known : RowsKnown dirty coins)
include known

theorem RowsKnown.insert {outpoint : OutPoint} {entry : DirtyEntry}
    (described : entry.Describes (coins.lookup outpoint)) :
    RowsKnown (dirty.insert outpoint entry) coins := by
  intro other found lookup
  rw [Table.lookup_insert] at lookup
  split at lookup
  · next same =>
    cases lookup
    exact same ▸ described
  · exact known other found lookup

/-- A coin that is absent is put. -/
theorem RowsKnown.absorbPut {row : OutPoint × Coin}
    (absent : overlay dirty coins row.1 = none) : RowsKnown (absorbPut dirty row) coins := by
  apply known.insert
  rw [overlay] at absent
  cases found : dirty.lookup row.1 with
  | none =>
    rw [found] at absent
    exact absent
  | some entry =>
    rw [found] at absent
    have described := known row.1 entry found
    cases entry with
    | present coin fresh replaces => cases absent
    | spent amount height fresh rowUnknown =>
      cases fresh with
      | true => exact described
      | false =>
        cases rowUnknown with
        | true => exact described
        | false => exact ⟨rfl, described⟩

/-- A coin that is present is removed with its amount and height. -/
theorem RowsKnown.absorbRemove {row : OutPoint × Nat × Nat}
    (present : RowIs (overlay dirty coins row.1) row.2) :
    RowsKnown (absorbRemove dirty row) coins := by
  apply known.insert
  obtain ⟨coin, shown, same⟩ := present
  rw [overlay] at shown
  cases found : dirty.lookup row.1 with
  | none =>
    rw [found] at shown
    exact ⟨coin, shown, same⟩
  | some entry =>
    rw [found] at shown
    have described := known row.1 entry found
    cases entry with
    | present held fresh replaces =>
      cases fresh with
      | true =>
        cases replaces with
        | none => exact described
        | some stored => cases described.1
      | false =>
        cases replaces with
        | none => exact described
        | some stored => exact described.2
    | spent amount height fresh rowUnknown => cases shown

theorem RowsKnown.absorbPuts {puts : List (OutPoint × Coin)} (distinct : (puts.map fst).Nodup)
    (absent : ∀ row ∈ puts, overlay dirty coins row.1 = none) :
    RowsKnown (puts.foldl CoinCache.absorbPut dirty) coins := by
  induction puts generalizing dirty with
  | nil => exact known
  | cons row rest ih =>
    obtain ⟨unlisted, restDistinct⟩ := nodup_cons.mp distinct
    apply ih (known.absorbPut (absent row mem_cons_self)) restDistinct
    intro other listed
    have different : row.1 ≠ other.1 := fun same =>
      unlisted (same ▸ mem_map_of_mem listed)
    rw [CoinCache.absorbPut, overlay_insert, if_neg different]
    exact absent other (mem_cons_of_mem _ listed)

theorem RowsKnown.absorbRemoves {removes : List (OutPoint × Nat × Nat)}
    (distinct : (removes.map fst).Nodup)
    (present : ∀ row ∈ removes, RowIs (overlay dirty coins row.1) row.2) :
    RowsKnown (removes.foldl CoinCache.absorbRemove dirty) coins := by
  induction removes generalizing dirty with
  | nil => exact known
  | cons row rest ih =>
    obtain ⟨unlisted, restDistinct⟩ := nodup_cons.mp distinct
    apply ih (known.absorbRemove (present row mem_cons_self)) restDistinct
    intro other listed
    have different : row.1 ≠ other.1 := fun same =>
      unlisted (same ▸ mem_map_of_mem listed)
    rw [CoinCache.absorbRemove, overlay_insert, if_neg different]
    exact present other (mem_cons_of_mem _ listed)

end

end Rows

end CoinCache

theorem sum_natCast {α : Type} {rows : List α} (value : α → Nat) :
    (rows.map fun row => (value row : Int)).sum = ((rows.map value).sum : Nat) := by
  rw [Nat.cast_list_sum, List.map_map]
  rfl

/-! ## Batches that create absent coins and delete present ones -/

/-- Each put creates an absent coin, and each remove then deletes a present one
with its amount and height. -/
structure Moves (batch : StoreBatch) (plain : Map OutPoint Coin) : Prop where
  putsDistinct : (batch.coinPuts.map fst).Nodup
  absent : ∀ row ∈ batch.coinPuts, plain.lookup row.1 = none
  removesDistinct : (batch.coinRemoves.map fst).Nodup
  present : ∀ row ∈ batch.coinRemoves, RowIs ((putAll plain batch.coinPuts).lookup row.1) row.2

/-- The change of a counter by the puts and removes of a batch alone. -/
def StoreBatch.netChange (measure : Measure) (batch : StoreBatch) : Int :=
  (batch.coinPuts.map fun row => (measure.ofCoin row.2 : Int)).sum -
    (batch.coinRemoves.map fun row => (measure.ofRow row.2 : Int)).sum

/-- A counter recounted after such a batch. -/
theorem Moves.tally_applyCoins {batch : StoreBatch} {plain : Map OutPoint Coin}
    (moves : Moves batch plain) (measure : Measure) :
    (measure.tally (batch.applyCoins plain) : Int) =
      measure.tally plain + batch.netChange measure := by
  have puts := total_putAll (fun _ coin => measure.ofCoin coin) plain moves.putsDistinct
  have unweighted : (batch.coinPuts.map fun row =>
      weightAt (fun _ coin => measure.ofCoin coin) plain row.1) =
        batch.coinPuts.map fun _ => 0 := by
    apply map_congr_left
    intro row listed
    exact weightAt_of_notMem (Finmap.lookup_eq_none.mp (moves.absent row listed))
  have removes := total_removeAll (fun _ coin => measure.ofCoin coin)
    (putAll plain batch.coinPuts) moves.removesDistinct
  have weighted : (batch.coinRemoves.map fst).map
      (weightAt (fun _ coin => measure.ofCoin coin) (putAll plain batch.coinPuts)) =
      batch.coinRemoves.map fun row => measure.ofRow row.2 := by
    rw [List.map_map]
    apply map_congr_left
    intro row listed
    exact (moves.present row listed).weightAt measure
  rw [unweighted, map_const', sum_replicate, smul_zero, add_zero] at puts
  rw [weighted, puts] at removes
  rw [StoreBatch.netChange, sum_natCast, sum_natCast, Measure.tally, Measure.tally,
    StoreBatch.applyCoins]
  omega

/-! ## Draining -/

namespace CoinCache

section Drain

variable {cache : CoinCache RocksDbStore}

/-- No entry is a restored coin that was spent since. -/
def NoRowless (cache : CoinCache RocksDbStore) : Prop :=
  ∀ outpoint entry, cache.dirty.lookup outpoint = some entry → entry.isRowless = false

section

variable (bare : NoPendingCoins cache)
include bare

/-- The drained removes and puts are of different outpoints. -/
theorem unput_of_removed {outpoint : OutPoint}
    (removed : outpoint ∈ cache.startFlush.2.batch.coinRemoves.map fst) :
    lastPut outpoint cache.startFlush.2.batch.coinPuts = none := by
  rw [startFlush_coinRemoves bare, Table.mem_filterMap_rows] at removed
  rw [startFlush_coinPuts bare, Table.lastPut_filterMap_rows]
  obtain ⟨stored, found⟩ := removed
  obtain ⟨entry, held, drained⟩ := Option.bind_eq_some_iff.mp found
  rw [held, Option.bind_some]
  cases entry with
  | present coin fresh replaces => cases drained
  | spent amount height fresh rowUnknown => rfl

section

variable (known : RowsKnown cache.dirty cache.inner.coins)
include known

/-- The rows under drained puts are the rows the batch says it overwrites. -/
theorem sum_overwritten (measure : Measure) :
    (cache.startFlush.2.batch.coinPuts.map fun row =>
      (weightAt (fun _ coin => measure.ofCoin coin) cache.inner.coins row.1 : Int)).sum =
    (cache.startFlush.2.batch.coinOverwrites.map fun row =>
      (measure.ofRow row.2 : Int)).sum := by
  rw [startFlush_coinPuts bare, startFlush_coinOverwrites bare, sum_map_filterMap,
    sum_map_filterMap]
  congr 1
  apply map_congr_left
  intro row listed
  have described := known row.1 row.2 (Table.mem_rows.mp listed)
  cases entry : row.2 with
  | spent amount height fresh rowUnknown => rfl
  | present coin fresh replaces =>
    rw [entry] at described
    cases replaces with
    | none =>
      have unweighted : weightAt (fun _ coin => measure.ofCoin coin) cache.inner.coins row.1 = 0 :=
        weightAt_of_notMem (Finmap.lookup_eq_none.mp described)
      simp [DirtyEntry.flushedPut, DirtyEntry.flushedOverwrite, unweighted]
    | some stored =>
      simp [DirtyEntry.flushedPut, DirtyEntry.flushedOverwrite, described.2.weightAt measure]

/-- The rows under drained removes are the rows the batch says it removes. -/
theorem weight_removed (noRowless : cache.NoRowless)
    (measure : Measure) {row : OutPoint × Nat × Nat}
    (listed : row ∈ cache.startFlush.2.batch.coinRemoves) :
    weightAt (fun _ coin => measure.ofCoin coin) cache.inner.coins row.1 = measure.ofRow row.2 := by
  rw [startFlush_coinRemoves bare, mem_filterMap] at listed
  obtain ⟨drained, inTable, flushed⟩ := listed
  obtain ⟨stored, removed, rfl⟩ := Option.map_eq_some_iff.mp flushed
  have found := Table.mem_rows.mp inTable
  have described := known drained.1 drained.2 found
  have rowKnown := noRowless drained.1 drained.2 found
  cases entry : drained.2 with
  | present coin fresh replaces =>
    rw [entry] at removed
    cases removed
  | spent amount height fresh rowUnknown =>
    rw [entry] at removed described rowKnown
    cases fresh with
    | true => cases removed
    | false =>
      cases rowKnown
      cases removed
      exact described.weightAt measure

/-- A drained batch tells the truth unless it removes a coin without a row. -/
theorem drained_truthful (noRowless : cache.NoRowless) :
    cache.startFlush.2.batch.Truthful cache.inner.coins := by
  intro measure
  have putsDistinct : (cache.startFlush.2.batch.coinPuts.map fst).Nodup := by
    rw [startFlush_coinPuts bare]
    exact Table.nodup_filterMap_rows _ _
  have removesDistinct : (cache.startFlush.2.batch.coinRemoves.map fst).Nodup := by
    rw [startFlush_coinRemoves bare]
    exact Table.nodup_filterMap_rows _ _
  have puts := total_putAll (fun _ coin => measure.ofCoin coin) cache.inner.coins putsDistinct
  have removes := total_removeAll (fun _ coin => measure.ofCoin coin)
    (putAll cache.inner.coins cache.startFlush.2.batch.coinPuts) removesDistinct
  have removedWeights : (cache.startFlush.2.batch.coinRemoves.map fst).map
      (weightAt (fun _ coin => measure.ofCoin coin)
        (putAll cache.inner.coins cache.startFlush.2.batch.coinPuts)) =
      cache.startFlush.2.batch.coinRemoves.map fun row => measure.ofRow row.2 := by
    rw [List.map_map]
    apply map_congr_left
    intro row listed
    have unput := unput_of_removed bare (mem_map_of_mem listed)
    rw [Function.comp_apply, ← weight_removed bare known noRowless measure listed, weightAt,
      lookup_putAll, unput, Option.none_or, weightAt]
  have overwritten := sum_overwritten bare known measure
  rw [removedWeights] at removes
  rw [sum_natCast, sum_natCast] at overwritten
  rw [StoreBatch.change, sum_natCast, sum_natCast, sum_natCast, Measure.tally, Measure.tally,
    StoreBatch.applyCoins]
  omega

end

/-- A restored put counts for its coin less the row it overwrites. -/
theorem sum_restored (measure : Measure) :
    (cache.startFlush.2.batch.coinPuts.map fun row => (measure.ofCoin row.2 : Int) -
      ((lastPut row.1 cache.startFlush.2.batch.coinOverwrites).map fun stored =>
        (measure.ofRow stored : Int)).getD 0).sum -
      (cache.startFlush.2.batch.coinRemoves.map fun row => (measure.ofRow row.2 : Int)).sum =
    cache.startFlush.2.batch.change measure := by
  have overwrites : (cache.startFlush.2.batch.coinPuts.map fun row =>
      ((lastPut row.1 cache.startFlush.2.batch.coinOverwrites).map fun stored =>
        (measure.ofRow stored : Int)).getD 0).sum =
      (cache.startFlush.2.batch.coinOverwrites.map fun row =>
        (measure.ofRow row.2 : Int)).sum := by
    rw [startFlush_coinPuts bare, startFlush_coinOverwrites bare, sum_map_filterMap,
      sum_map_filterMap]
    congr 1
    apply map_congr_left
    intro row listed
    have found := Table.mem_rows.mp listed
    simp only [Table.lastPut_filterMap_rows]
    cases entry : row.2 with
    | spent amount height fresh rowUnknown => rfl
    | present coin fresh replaces =>
      rw [entry] at found
      simp [DirtyEntry.flushedPut, DirtyEntry.flushedOverwrite, found, Function.comp_def]
  rw [sum_map_sub, overwrites, StoreBatch.change]
  omega

/-- The deltas of a restored cache are what the drained batch changes. -/
theorem restored_deltas :
    (cache.startFlush.1.restoreAfterFailedFlush cache.startFlush.2).countDelta =
        wrapI64 (cache.startFlush.2.batch.change .one) ∧
      (cache.startFlush.1.restoreAfterFailedFlush cache.startFlush.2).amountDelta =
        wrapI64 (cache.startFlush.2.batch.change .amount) := by
  have counts : ∀ row, restoredCount cache.startFlush.2 row = (one.ofCoin row.2 : Int) -
      ((lastPut row.1 cache.startFlush.2.batch.coinOverwrites).map fun stored =>
        (one.ofRow stored : Int)).getD 0 := by
    intro row
    rw [restoredCount]
    cases lastPut row.1 cache.startFlush.2.batch.coinOverwrites <;> rfl
  have amounts : ∀ row, restoredAmount cache.startFlush.2 row =
      (amount.ofCoin row.2 : Int) -
      ((lastPut row.1 cache.startFlush.2.batch.coinOverwrites).map fun stored =>
        (amount.ofRow stored : Int)).getD 0 := by
    intro row
    rw [restoredAmount]
    cases lastPut row.1 cache.startFlush.2.batch.coinOverwrites with
    | none => exact (Int.sub_zero _).symm
    | some stored => rfl
  have removed : (cache.startFlush.2.batch.coinRemoves.map fun row =>
      (one.ofRow row.2 : Int)).sum = cache.startFlush.2.batch.coinRemoves.length := by
    simp [Measure.ofRow, one]
  have started : cache.startFlush.1.countDelta = 0 ∧ cache.startFlush.1.amountDelta = 0 :=
    ⟨rfl, rfl⟩
  constructor
  · rw [← sum_restored bare, removed]
    simp [restoreAfterFailedFlush, funext counts, started]
  · rw [← sum_restored bare, sum_natCast]
    simp only [restoreAfterFailedFlush, funext amounts, started, Int.zero_add]
    rfl

end

end Drain

/-! ## Runs -/

/-- The caches reached from an empty one over a database with exact counters, by
batches that create absent coins and delete present ones, and by flushes
that drain no restored coin spent since. -/
inductive Audited : CoinCache RocksDbStore → Map OutPoint Coin → Prop where
  | start {inner : RocksDbStore} (exact : inner.Exact) (fits : Fits inner.coins) :
      Audited { inner } inner.coins
  | absorb {cache : CoinCache RocksDbStore} {plain : Map OutPoint Coin} (written : Bool)
      (batch : StoreBatch) (before : Audited cache plain) (moves : Moves batch plain)
      (fits : Fits (batch.applyCoins plain)) :
      Audited (cache.absorbBatch written batch) (batch.applyCoins plain)
  | flush {cache : CoinCache RocksDbStore} {plain : Map OutPoint Coin} (outcome : WriteOutcome)
      (kept : outcome ≠ .lost) (before : Audited cache plain) (noRowless : cache.NoRowless) :
      Audited (cache.flushInner outcome).1 plain
  | evict {cache : CoinCache RocksDbStore} {plain : Map OutPoint Coin} (outpoint : OutPoint)
      (before : Audited cache plain) : Audited (cache.evictClean outpoint) plain
  | getCoin {cache : CoinCache RocksDbStore} {plain : Map OutPoint Coin} (outpoint : OutPoint)
      (before : Audited cache plain) : Audited (cache.getCoin outpoint).2 plain
  | getCoinsBatch {cache : CoinCache RocksDbStore} {plain : Map OutPoint Coin}
      (outpoints : List OutPoint) (before : Audited cache plain) :
      Audited (cache.getCoinsBatch outpoints).2 plain

/-- What the books say in an audited run. -/
structure Books (cache : CoinCache RocksDbStore) (plain : Map OutPoint Coin) : Prop where
  coherent : Coherent cache
  stands : ∀ outpoint, cache.logical outpoint = plain.lookup outpoint
  known : RowsKnown cache.dirty cache.inner.coins
  exact : cache.inner.Exact
  fitsStored : Fits cache.inner.coins
  fits : Fits plain
  countDelta : cache.countDelta = (one.tally plain : Int) - one.tally cache.inner.coins
  amountDelta : cache.amountDelta = (amount.tally plain : Int) - amount.tally cache.inner.coins

theorem absorbBatch_inner (written : Bool) (batch : StoreBatch) (cache : CoinCache RocksDbStore) :
    (cache.absorbBatch written batch).inner = cache.inner := by
  have absorbed : (cache.absorbCoins batch).inner = cache.inner := by
    unfold absorbCoins
    split <;> rfl
  simp only [absorbBatch]
  split
  · split
    · unfold passThrough
      cases written with
      | false => exact absorbed
      | true =>
        rw [← absorbed]
        exact RocksDbStore.writeBatch_nonCoin
    · exact absorbed
  · exact absorbed

/-- A restored entry knows the row that the drained one knew. -/
theorem described_restored {drained entry : DirtyEntry} {row : Option Coin}
    (restored : restoredEntry drained = some entry) (described : drained.Describes row) :
    entry.Describes row := by
  cases drained with
  | present coin fresh replaces =>
    cases restored
    cases replaces with
    | none => exact described
    | some stored => exact ⟨rfl, described.2⟩
  | spent amount height fresh rowUnknown =>
    cases fresh with
    | true => cases restored
    | false =>
      cases restored
      exact described

namespace Books

variable {cache : CoinCache RocksDbStore} {plain : Map OutPoint Coin} {batch : StoreBatch}

/-- The outpoint's coin over the dirty table is the plain map's. -/
theorem overlay_eq (books : Books cache plain) (outpoint : OutPoint) :
    overlay cache.dirty cache.inner.coins outpoint = plain.lookup outpoint :=
  books.stands outpoint

theorem putsAbsent (books : Books cache plain) (moves : Moves batch plain) :
    PutsAbsent batch cache.dirty (Backing.coins cache.inner) := by
  intro row listed undirty
  have absent := moves.absent row listed
  rw [← books.overlay_eq, overlay, undirty] at absent
  exact absent

/-- The dirty table after a batch still knows the rows below it. -/
theorem known_absorbDirty (books : Books cache plain) (moves : Moves batch plain) :
    RowsKnown (absorbDirty batch cache.dirty) cache.inner.coins := by
  have put : RowsKnown (batch.coinPuts.foldl absorbPut cache.dirty) cache.inner.coins := by
    apply books.known.absorbPuts moves.putsDistinct
    intro row listed
    rw [books.overlay_eq]
    exact moves.absent row listed
  apply put.absorbRemoves moves.removesDistinct
  intro row listed
  rw [overlay_absorbPuts, books.overlay_eq, ← lookup_putAll]
  exact moves.present row listed

/-- A counter's delta after a batch that moves coins. -/
theorem wrap_delta {measure : Measure} (moves : Moves batch plain)
    {stored : Nat} (fitsStored : FitsI64 stored)
    (fitsAfter : FitsI64 (measure.tally (batch.applyCoins plain))) :
    wrapI64 ((measure.tally plain : Int) - stored + batch.netChange measure) =
      (measure.tally (batch.applyCoins plain) : Int) - stored := by
  have moved := moves.tally_applyCoins measure
  unfold FitsI64 at fitsStored fitsAfter
  rw [wrapI64_of_range (by omega) (by omega)]
  omega

/-- The books after the coins of a batch were absorbed. -/
theorem absorbed_fields (books : Books cache plain) (moves : Moves batch plain)
    (fits : Fits (batch.applyCoins plain)) :
    (cache.absorbCoins batch).dirty = absorbDirty batch cache.dirty ∧
      (cache.absorbCoins batch).countDelta =
        (one.tally (batch.applyCoins plain) : Int) - one.tally cache.inner.coins ∧
      (cache.absorbCoins batch).amountDelta =
        (amount.tally (batch.applyCoins plain) : Int) - amount.tally cache.inner.coins := by
  by_cases quiet : batch.coinDirty = 0
  · obtain ⟨noPuts, noRemoves⟩ := Nat.add_eq_zero_iff.mp quiet
    have puts := length_eq_zero_iff.mp noPuts
    have removes := length_eq_zero_iff.mp noRemoves
    have same : batch.applyCoins plain = plain := by
      rw [StoreBatch.applyCoins, puts, removes]
      rfl
    rw [absorbCoins, if_pos quiet, same, absorbDirty, puts, removes]
    exact ⟨rfl, books.countDelta, books.amountDelta⟩
  · have counted : (cache.countDelta + batch.coinPuts.length - batch.coinRemoves.length : Int) =
        (one.tally plain : Int) - one.tally cache.inner.coins + batch.netChange .one := by
      rw [StoreBatch.netChange, sum_natCast, sum_natCast, books.countDelta]
      simp [Measure.ofCoin, Measure.ofRow, one]
      omega
    have weighed : (cache.amountDelta + (batch.coinPuts.map (·.2.amount)).sum -
        (batch.coinRemoves.map (·.2.1)).sum : Int) =
        (amount.tally plain : Int) - amount.tally cache.inner.coins + batch.netChange .amount := by
      rw [StoreBatch.netChange, sum_natCast, sum_natCast, books.amountDelta]
      simp only [Measure.ofCoin, Measure.ofRow, amount]
      omega
    rw [absorbCoins, if_neg quiet, counted, weighed]
    exact ⟨rfl, wrap_delta moves books.fitsStored.count fits.count,
      wrap_delta moves books.fitsStored.amount fits.amount⟩

theorem absorb (books : Books cache plain) (written : Bool) (moves : Moves batch plain)
    (fits : Fits (batch.applyCoins plain)) :
    Books (cache.absorbBatch written batch) (batch.applyCoins plain) := by
  obtain ⟨dirty, countDelta, amountDelta⟩ := books.absorbed_fields moves fits
  have same := absorbBatch_sameCoins written batch cache
  have inner := absorbBatch_inner written batch cache
  constructor
  · exact books.coherent.absorbBatch written (books.putsAbsent moves)
  · intro outpoint
    rw [same.logical, logical_absorbCoins books.stands]
  · rw [same.dirty, dirty, inner]
    exact books.known_absorbDirty moves
  · rw [inner]
    exact books.exact
  · rw [inner]
    exact books.fitsStored
  · exact fits
  · rw [same.countDelta, countDelta, inner]
  · rw [same.amountDelta, amountDelta, inner]

/-- What a written flush leaves in the database is the plain map. -/
theorem drained_eq_plain (books : Books cache plain) :
    cache.startFlush.2.batch.applyCoins cache.inner.coins = plain := by
  apply Finmap.ext_lookup
  intro outpoint
  rw [← books.stands]
  exact books.coherent.coins_written outpoint

/-- Books over a database that holds the plain map and nothing else to write. -/
theorem settled {started : CoinCache RocksDbStore} (coherent : Coherent started)
    (dirty : started.dirty = ∅) (exact : started.inner.Exact) (stored : started.inner.coins = plain)
    (fits : Fits plain) (countDelta : started.countDelta = 0)
    (amountDelta : started.amountDelta = 0) : Books started plain := by
  constructor
  · exact coherent
  · intro outpoint
    rw [logical, dirty, overlay_empty, ← stored]
    rfl
  · intro outpoint entry found
    rw [dirty] at found
    cases found
  · exact exact
  · rw [stored]
    exact fits
  · exact fits
  · rw [countDelta, stored, Int.sub_self]
  · rw [amountDelta, stored, Int.sub_self]

section

variable (books : Books cache plain)
include books

theorem flushWritten (noRowless : cache.NoRowless) : Books (cache.flushInner .written).1 plain := by
  have coherent := books.coherent.flushInner (show WriteOutcome.written ≠ .lost by decide)
  have truthful := drained_truthful books.coherent.bare books.known noRowless
  have stored := books.drained_eq_plain
  have exact : (cache.inner.writeBatch cache.startFlush.2.batch).Exact := by
    apply books.exact.writeBatch books.fitsStored _ truthful
    rw [stored]
    exact books.fits
  revert coherent
  simp only [flushInner]
  split <;> simp only [promote, startFlush_fields, if_true] <;> intro coherent
  · exact settled coherent rfl exact stored books.fits rfl rfl
  · next bare =>
    have unwritten : cache.inner.coins = plain := by
      rw [← stored, applyCoins_of_no_data (Bool.eq_false_of_not_eq_true bare)]
    exact settled coherent rfl books.exact unwritten books.fits rfl rfl

/-- A handed-back batch is restored with the same books. -/
theorem restored (noRowless : cache.NoRowless) :
    Books (cache.startFlush.1.restoreAfterFailedFlush cache.startFlush.2) plain := by
  have bare := books.coherent.bare
  have truthful := drained_truthful bare books.known noRowless
  obtain ⟨countDelta, amountDelta⟩ := restored_deltas bare
  have stored := books.drained_eq_plain
  have inner : (cache.startFlush.1.restoreAfterFailedFlush cache.startFlush.2).inner =
      cache.inner := rfl
  have moved : ∀ measure : Measure, FitsI64 (measure.tally cache.inner.coins) →
      FitsI64 (measure.tally plain) → wrapI64 (cache.startFlush.2.batch.change measure) =
        (measure.tally plain : Int) - measure.tally cache.inner.coins := by
    intro measure fitsStored fitsPlain
    have changed := truthful measure
    rw [stored] at changed
    obtain ⟨small, -, -, -⟩ := asU64_moved fitsStored fitsPlain changed
    omega
  constructor
  · exact books.coherent.restored
  · intro outpoint
    rw [books.coherent.logical_restored, books.stands]
  · intro outpoint entry found
    simp only [restoreAfterFailedFlush, lookup_restoreEntries, startFlush_fields,
      AList.lookup_empty, Option.none_or, firstPut_restoredEntries bare] at found
    obtain ⟨drained, held, restored⟩ := Option.bind_eq_some_iff.mp found
    have described := books.known outpoint drained held
    rw [inner]
    exact described_restored restored described
  · rw [inner]
    exact books.exact
  · rw [inner]
    exact books.fitsStored
  · exact books.fits
  · rw [countDelta, inner, moved .one books.fitsStored.count books.fits.count]
  · rw [amountDelta, inner, moved .amount books.fitsStored.amount books.fits.amount]

theorem flush {outcome : WriteOutcome} (kept : outcome ≠ .lost)
    (noRowless : cache.NoRowless) : Books (cache.flushInner outcome).1 plain := by
  by_cases succeeded : (cache.flushInner outcome).2 = true
  · rw [flushInner_of_success succeeded]
    exact books.flushWritten noRowless
  · cases outcome with
    | lost => exact absurd rfl kept
    | written =>
      simp only [flushInner] at succeeded
      split at succeeded <;> exact absurd rfl succeeded
    | handedBack =>
      have handedBack : (cache.flushInner .handedBack).1 =
          cache.startFlush.1.restoreAfterFailedFlush cache.startFlush.2 := by
        simp only [flushInner] at succeeded ⊢
        split at succeeded
        · next data => rw [if_pos data]
        · exact absurd rfl succeeded
      rw [handedBack]
      exact books.restored noRowless

/-- Only the clean cache differs. -/
theorem of_clean {clean : Map OutPoint Coin}
    (coherent : Coherent { cache with clean }) : Books { cache with clean } plain :=
  { books with coherent := coherent }

/-- The number of coins the cache reports. -/
theorem coinCount_eq : cache.coinCount = one.tally plain := by
  have moved : (one.tally plain : Int) = one.tally cache.inner.coins + cache.countDelta := by
    rw [books.countDelta]
    omega
  obtain ⟨-, -, -, reported⟩ := asU64_moved books.fitsStored.count books.fits.count moved
  rw [coinCount, books.exact.count, reported]

theorem coinTotalAmount_eq : cache.coinTotalAmount = amount.tally plain := by
  have moved : (amount.tally plain : Int) = amount.tally cache.inner.coins + cache.amountDelta := by
    rw [books.amountDelta]
    omega
  obtain ⟨-, -, -, reported⟩ := asU64_moved books.fitsStored.amount books.fits.amount moved
  rw [coinTotalAmount, books.exact.amount, reported]

end

end Books

/-- A read changes the clean cache only. -/
theorem getCoin_eq_clean {cache : CoinCache RocksDbStore} {outpoint : OutPoint} :
    ∃ clean, (cache.getCoin outpoint).2 = { cache with clean } := by
  rw [CoinCache.getCoin]
  cases cache.dirty.lookup outpoint with
  | some entry => exact ⟨cache.clean, rfl⟩
  | none =>
    cases cache.clean.lookup outpoint with
    | some coin => exact ⟨cache.clean, rfl⟩
    | none =>
      cases (Backing.coins cache.inner).lookup outpoint with
      | none => exact ⟨cache.clean, rfl⟩
      | some coin => exact ⟨cache.clean.insert outpoint coin, rfl⟩

/-- An audited run keeps the books. -/
theorem Audited.books {cache : CoinCache RocksDbStore} {plain : Map OutPoint Coin}
    (run : Audited cache plain) : Books cache plain := by
  induction run with
  | @start inner exact fits =>
    exact .settled (.initial inner) rfl exact rfl fits rfl rfl
  | absorb written batch _ moves fits ih =>
    exact ih.absorb written moves fits
  | flush outcome kept _ noRowless ih =>
    exact ih.flush kept noRowless
  | evict outpoint _ ih =>
    exact ih.of_clean (ih.coherent.evictClean outpoint)
  | @getCoin cache plain outpoint _ ih =>
    have coherent := ih.coherent.afterGetCoin outpoint
    obtain ⟨clean, same⟩ := getCoin_eq_clean
    rw [same] at coherent ⊢
    exact ih.of_clean coherent
  | getCoinsBatch outpoints _ ih =>
    exact ih.of_clean (ih.coherent.afterGetCoinsBatch)

/-- In an audited run the database's counters are exact and the cache reports the
count and amount of the plain map; a flush that drains no restored coin spent
since clamps no bucket and leaves the plain map's rows with exact counters. -/
theorem counters_exact {cache : CoinCache RocksDbStore} {plain : Map OutPoint Coin}
    (run : Audited cache plain) :
    cache.inner.Exact ∧ cache.coinCount = one.tally plain ∧
    cache.coinTotalAmount = amount.tally plain ∧
    (cache.NoRowless →
      (∀ bucket, 0 ≤ wrapI64 (cache.inner.utxoHeightHist.getD bucket 0) +
        cache.startFlush.2.batch.histDelta bucket) ∧
      (cache.flushInner .written).1.inner.coins = plain ∧
      (cache.flushInner .written).1.inner.Exact) := by
  have books := run.books
  refine ⟨books.exact, books.coinCount_eq, books.coinTotalAmount_eq, fun noRowless => ?_⟩
  have truthful := drained_truthful books.coherent.bare books.known noRowless
  have written := books.flushWritten noRowless
  refine ⟨fun bucket => ?_, ?_, written.exact⟩
  · apply books.exact.unclamped books.fitsStored _ truthful
    rw [books.drained_eq_plain]
    exact books.fits
  · apply Finmap.ext_lookup
    intro outpoint
    rw [← written.stands, logical, dirty_flushInner_written, overlay_empty]
    rfl

namespace CountersSample

def outpoint : OutPoint := ⟨Hash256.repeated 1, 0⟩

def coin : Coin := ⟨5_000, [0x51], 100, false, 7⟩

def creating : StoreBatch where
  coinPuts := [(outpoint, coin)]

def spending : StoreBatch where
  coinRemoves := [(outpoint, 5_000, 100)]

/-- The coin was created, and the flush failed. -/
def restored : CoinCache RocksDbStore :=
  ((({ inner := {} } : CoinCache RocksDbStore).absorbBatch true creating).flushInner .handedBack).1

/-- The restored coin was spent, and the flush succeeded. -/
def drained : CoinCache RocksDbStore := ((restored.absorbBatch true spending).flushInner .written).1

theorem moves_creating : Moves creating ∅ := by
  constructor <;> simp [creating]

theorem moves_spending : Moves spending (creating.applyCoins ∅) := by
  constructor
  · simp [spending]
  · simp [spending]
  · simp [spending]
  · intro row listed
    rw [mem_singleton.mp listed]
    exact ⟨coin, by decide +kernel, rfl⟩

theorem empty_exact : ({} : RocksDbStore).Exact := by
  constructor <;> simp [Measure.tally]

theorem fits_empty : Fits ∅ := by
  constructor <;> simp [Measure.tally, FitsI64]

theorem fits_created : Fits (creating.applyCoins ∅) := by
  constructor <;> unfold FitsI64 <;> decide +kernel

end CountersSample

open CountersSample

/-- A coin that waits for the flush after a failed one is counted. -/
theorem counters_exact_restored : restored.coinCount = 1 ∧ restored.coinTotalAmount = 5_000 := by
  have created : Audited (({ inner := {} } : CoinCache RocksDbStore).absorbBatch true
      creating) (creating.applyCoins ∅) :=
    .absorb true _ (.start empty_exact fits_empty) moves_creating fits_created
  have noRowless : (({ inner := {} } : CoinCache RocksDbStore).absorbBatch true
      creating).NoRowless := by
    have rows : ∀ row ∈ (({ inner := {} } : CoinCache RocksDbStore).absorbBatch true
        creating).dirty.rows, row.2.isRowless = false := by decide +kernel
    intro outpoint entry found
    exact rows (outpoint, entry) (Table.mem_rows.mpr found)
  have run : Audited restored (creating.applyCoins ∅) :=
    .flush .handedBack (by decide) created noRowless
  obtain ⟨-, count, amount, -⟩ := counters_exact run
  rw [count, amount]
  decide +kernel

/-- A coin is created, the flush fails, the restored coin is spent and the next
flush succeeds: no coin is stored, and the counters have wrapped around. -/
theorem restored_spend_miscounted :
    Moves creating ∅ ∧
    Moves spending (creating.applyCoins ∅) ∧
    drained.inner.coins = ∅ ∧
    drained.inner.utxoCount = 2 ^ 64 - 1 ∧
    drained.inner.totalAmount = 2 ^ 64 - 5_000 := by
  refine ⟨moves_creating, moves_spending, ?_, ?_, ?_⟩
  · decide +kernel
  · decide +kernel
  · decide +kernel

end CoinCache

end Satd.Storage
