import Satd.Storage.Refinement

/-!
# Readers against flushes

Readers, absorbed batches and one flush at a time interleave; a step of the
`World` is what one thread does under one acquisition of a lock. A read that
misses both the dirty table and the clean cache fetches from the backing store
and then fills the clean cache, provided no batch was absorbed since it started.

A flush drains the dirty table before it writes, and the write absorbs no batch:
an outpoint that is in flight is in neither table while the backing store still
holds its old row, and a reader that misses it then caches that row for good. A
run in which no reader misses an outpoint in flight is safe: the clean cache
agrees with the coins the batches describe, and every answer was right at some
moment of the read.
-/

namespace Satd.Storage.CoinCache

open KeyedMap Satd.Bitcoin List Option Function Prod

/-! ## The machine -/

/-- How far a read has come. The generation is the one the read started at. -/
inductive Reader where
  | idle
  | started (generation : Nat) (outpoints : List OutPoint)
  /-- A read of one coin that has seen the dirty table. -/
  | missedDirty (generation : Nat) (outpoint : OutPoint)
  /-- All these outpoints were in neither table. -/
  | missed (generation : Nat) (outpoints : List OutPoint)
  | fetched (generation : Nat) (found : List (OutPoint × Option Coin))

/-- How far the flush has come. -/
inductive Flight where
  | none
  | writing (drained : Drained)
  | promoting (drained : Drained)

/-- An answer to a read, with the generations at which the read started and the
answer was given. -/
structure Answer where
  outpoint : OutPoint
  coin : Option Coin
  started : Nat
  answered : Nat
  deriving DecidableEq

/-- The cache, the flush and the readers. For the specification, `maps` records
the coins after each absorbed batch and `log` the answers given. -/
structure World (σ ι : Type) where
  cache : CoinCache σ
  flight : Flight := .none
  readers : ι → Reader := fun _ => .idle
  maps : Nat → Map OutPoint Coin
  log : List Answer := []

inductive Action (ι : Type) where
  | absorb (batch : StoreBatch)
  | startFlush | writeFlush | promoteFlush | restoreFlush
  | evict (outpoint : OutPoint)
  | start (reader : ι) (outpoints : List OutPoint)
  /-- The dirty table and then the clean cache, for a read of one coin. -/
  | checkDirty (reader : ι)
  | checkClean (reader : ι)
  /-- Both at once, for a read of several coins. -/
  | checkBoth (reader : ι)
  | fetch (reader : ι)
  | populate (reader : ι)

/-- The outpoint is part of a flush that is being written. -/
def Flight.Holds (flight : Flight) (outpoint : OutPoint) : Prop :=
  match flight with
  | .writing drained => outpoint ∈ drained.batch.coinPuts.map fst ∨
      outpoint ∈ drained.batch.coinRemoves.map fst
  | _ => False

variable (world : World σ ι)

namespace World

variable {σ ι : Type} [Backing σ] [DecidableEq ι]

/-- The number of batches absorbed. -/
abbrev generation : Nat := world.cache.cleanGen

/-- The coins after all absorbed batches. -/
def plain : Map OutPoint Coin := world.maps world.generation

/-- The rows of the backing store. -/
abbrev stored (world : World σ ι) : Map OutPoint Coin := Backing.coins world.cache.inner

/-- The world after a reader moved on. -/
def setReader (world : World σ ι) (reader : ι) (state : Reader) : World σ ι :=
  { world with readers := update world.readers reader state }

/-- The world after answers to a read that started at a generation. -/
def answer (world : World σ ι) (started : Nat) (answers : List (OutPoint × Option Coin)) :
    World σ ι :=
  { world with log := world.log ++ answers.map fun found =>
      ⟨found.1, found.2, started, world.generation⟩ }

variable (outpoints : List OutPoint)

/-- The answers the two tables give to a list of outpoints. -/
def hits : List (OutPoint × Option Coin) :=
  outpoints.filterMap fun outpoint =>
    (world.cache.cachedCoin outpoint).map fun known => (outpoint, known)

def misses : List OutPoint :=
  outpoints.filter fun outpoint => (world.cache.cachedCoin outpoint).isNone

/-- One step of one thread, if it can be taken. -/
def step (world : World σ ι) : Action ι → Option (World σ ι)
  | .absorb batch =>
    if batch.coinDirty = 0 then none
    else some { world with
      cache := world.cache.absorbCoins batch
      maps := update world.maps (world.generation + 1) (batch.applyCoins world.plain) }
  | .startFlush =>
    match world.flight with
    | .none => some { world with
        cache := world.cache.startFlush.1, flight := .writing world.cache.startFlush.2 }
    | _ => none
  | .writeFlush =>
    match world.flight with
    | .writing drained =>
      let inner :=
        if drained.batch.hasData then Backing.writeBatch world.cache.inner drained.batch
        else world.cache.inner
      some { world with cache := { world.cache with inner }, flight := .promoting drained }
    | _ => none
  | .promoteFlush =>
    match world.flight with
    | .promoting drained =>
      some { world with cache := world.cache.promote drained, flight := .none }
    | _ => none
  | .restoreFlush =>
    match world.flight with
    | .writing drained =>
      if drained.batch.hasData then
        some { world with cache := world.cache.restoreAfterFailedFlush drained, flight := .none }
      else none
    | _ => none
  | .evict outpoint => some { world with cache := world.cache.evictClean outpoint }
  | .start reader outpoints =>
    match world.readers reader with
    | .idle => some (world.setReader reader (.started world.generation outpoints))
    | _ => none
  | .checkDirty reader =>
    match world.readers reader with
    | .started generation [outpoint] =>
      match world.cache.dirty.lookup outpoint with
      | some entry =>
        some ((world.answer generation [(outpoint, entry.coin?)]).setReader reader .idle)
      | none => some (world.setReader reader (.missedDirty generation outpoint))
    | _ => none
  | .checkClean reader =>
    match world.readers reader with
    | .missedDirty generation outpoint =>
      match world.cache.clean.lookup outpoint with
      | some coin =>
        some ((world.answer generation [(outpoint, some coin)]).setReader reader .idle)
      | none => some (world.setReader reader (.missed generation [outpoint]))
    | _ => none
  | .checkBoth reader =>
    match world.readers reader with
    | .started generation outpoints =>
      some ((world.answer generation (world.hits outpoints)).setReader reader
        (.missed generation (world.misses outpoints)))
    | _ => none
  | .fetch reader =>
    match world.readers reader with
    | .missed generation outpoints =>
      some (world.setReader reader (.fetched generation
        (outpoints.map fun outpoint => (outpoint, world.stored.lookup outpoint))))
    | _ => none
  | .populate reader =>
    match world.readers reader with
    | .fetched generation found =>
      let rows := found.filterMap fun row => row.2.map fun coin => (row.1, coin)
      let cache :=
        if world.generation = generation then
          { world.cache with clean := putAll world.cache.clean rows }
        else world.cache
      some (({ world with cache }.answer generation found).setReader reader .idle)
    | _ => none

/-- The world before the first step. -/
def initial (inner : σ) : World σ ι := { cache := { inner }, maps := fun _ => Backing.coins inner }

/-- The worlds reached by steps that each satisfy a condition. -/
inductive Reach (permits : World σ ι → Action ι → Prop) : World σ ι → Prop where
  | initial (inner : σ) : Reach permits (initial inner)
  | step {world next : World σ ι} (action : Action ι) (reached : Reach permits world)
      (permitted : permits world action) (taken : world.step action = some next) :
      Reach permits next

end World

/-! ## Safe steps -/

variable {σ ι : Type} [Backing σ]

/-- The coins below the dirty table once the flush in flight has landed. -/
def World.settled (world : World σ ι) : Map OutPoint Coin :=
  match world.flight with
  | .writing drained => drained.batch.applyCoins world.stored
  | _ => world.stored

/-- What callers promise: a coin is put for an outpoint without an entry only if
the outpoint has no row, now and once the flush in flight has landed. -/
def Promised (world : World σ ι) : Action ι → Prop
  | .absorb batch => PutsAbsent batch world.cache.dirty world.stored ∧
      PutsAbsent batch world.cache.dirty world.settled
  | _ => True

/-- A reader that misses the dirty table does not miss an outpoint in flight. -/
def MissesLanded (world : World σ ι) : Action ι → Prop
  | .checkDirty reader | .checkBoth reader => ∀ since outpoints,
      world.readers reader = .started since outpoints → ∀ outpoint ∈ outpoints,
        world.cache.dirty.lookup outpoint = none → ¬world.flight.Holds outpoint
  | _ => True

/-- What keeps a run safe. -/
def Careful (world : World σ ι) (action : Action ι) : Prop :=
  Promised world action ∧ MissesLanded world action

namespace World

/-- An outpoint is untouched when no table and no flush holds it. -/
structure Untouched (world : World σ ι) (outpoint : OutPoint) : Prop where
  clear : world.cache.dirty.lookup outpoint = none
  landed : ¬world.flight.Holds outpoint

/-- A value an outpoint had between a generation and now. -/
def Seen (since : Nat) (outpoint : OutPoint) (coin : Option Coin) : Prop :=
  ∃ moment, since ≤ moment ∧ moment ≤ world.generation ∧ (world.maps moment).lookup outpoint = coin

/-- What holds of a drained batch while it is written. -/
structure InFlight (world : World σ ι) (drained : Drained) : Prop where
  past : drained.generation ≤ world.generation
  target : ∀ outpoint, (drained.batch.applyCoins world.stored).lookup outpoint =
    (world.maps drained.generation).lookup outpoint
  promoted : ∀ row ∈ drained.promote, ∀ base,
    (drained.batch.applyCoins base).lookup row.1 = some row.2
  distinct : (drained.batch.coinPuts.map fst).Nodup
  disjoint : ∀ outpoint ∈ drained.batch.coinPuts.map fst,
    outpoint ∉ drained.batch.coinRemoves.map fst
  alone : world.generation = drained.generation → world.cache.dirty = ∅

/-- What holds of a drained batch that was written. -/
structure Landed (world : World σ ι) (drained : Drained) : Prop where
  past : drained.generation ≤ world.generation
  alone : world.generation = drained.generation → world.cache.dirty = ∅
  promoted : world.generation = drained.generation → ∀ row ∈ drained.promote,
    world.stored.lookup row.1 = some row.2

def FlightOk (world : World σ ι) : Prop :=
  match world.flight with
  | .none => True
  | .writing drained => InFlight world drained
  | .promoting drained => Landed world drained

/-- What holds of an outpoint that a read has missed. -/
structure Missed (world : World σ ι) (since : Nat) (outpoint : OutPoint) : Prop where
  untouched : since = world.generation → Untouched world outpoint
  seen : Seen world since outpoint (world.stored.lookup outpoint)
  later : ∀ drained, world.flight = .writing drained → world.flight.Holds outpoint →
    since ≤ drained.generation

/-- What holds of a row that a read has fetched. -/
structure Fetched (world : World σ ι) (since : Nat) (outpoint : OutPoint) (coin : Option Coin) :
    Prop where
  untouched : since = world.generation →
    Untouched world outpoint ∧ world.stored.lookup outpoint = coin
  seen : Seen world since outpoint coin

def ReaderOk (world : World σ ι) : Reader → Prop
  | .idle => True
  | .started generation _ => generation ≤ world.generation
  | .missedDirty generation outpoint => Missed world generation outpoint
  | .missed generation outpoints => ∀ outpoint ∈ outpoints, Missed world generation outpoint
  | .fetched generation found => ∀ row ∈ found, Fetched world generation row.1 row.2

theorem readerOk_idle {world : World σ ι} : ReaderOk world .idle := trivial

/-- What holds in every world of a careful run. -/
structure Sound (world : World σ ι) : Prop where
  logical : ∀ outpoint, overlay world.cache.dirty world.settled outpoint =
    world.plain.lookup outpoint
  fresh : FreshAbsent world.cache.dirty world.stored
  freshSettled : FreshAbsent world.cache.dirty world.settled
  clean : ∀ outpoint coin, world.cache.clean.lookup outpoint = some coin →
    Untouched world outpoint ∧ world.stored.lookup outpoint = some coin
  bare : NoPendingCoins world.cache
  flight : FlightOk world
  readers : ∀ reader, ReaderOk world (world.readers reader)
  log : ∀ answer ∈ world.log, ∃ moment, answer.started ≤ moment ∧ moment ≤ answer.answered ∧
    answer.answered ≤ world.generation ∧ (world.maps moment).lookup answer.outpoint = answer.coin

/-! ### What a step keeps -/

/-- What every step does to the parts of the world that readers rely on. -/
structure Keeps (world next : World σ ι) : Prop where
  generation : world.generation ≤ next.generation
  maps : ∀ moment ≤ world.generation, next.maps moment = world.maps moment
  untouched : next.generation = world.generation → ∀ outpoint, Untouched world outpoint →
    Untouched next outpoint ∧ next.stored.lookup outpoint = world.stored.lookup outpoint
  stored : ∀ outpoint, next.stored.lookup outpoint = world.stored.lookup outpoint ∨
    ∃ drained, world.flight = .writing drained ∧ world.flight.Holds outpoint ∧
      drained.generation ≤ world.generation ∧
      next.stored.lookup outpoint = (world.maps drained.generation).lookup outpoint
  flight : ∀ drained, next.flight = .writing drained →
    world.flight = .writing drained ∨ world.generation ≤ drained.generation

section Keeps

variable {world next : World σ ι} {since : Nat} {outpoint : OutPoint} {coin : Option Coin}

theorem Seen.keep (seen : Seen world since outpoint coin) (keeps : Keeps world next) :
    Seen next since outpoint coin := by
  obtain ⟨moment, after, before, value⟩ := seen
  refine ⟨moment, after, le_trans before keeps.generation, ?_⟩
  rw [keeps.maps moment before]
  exact value

omit [Backing σ] in
theorem Seen.since_le (seen : Seen world since outpoint coin) : since ≤ world.generation := by
  obtain ⟨moment, after, before, -⟩ := seen
  exact le_trans after before

/-- A read that started at the current generation of the next world saw no batch. -/
theorem Keeps.same_generation (keeps : Keeps world next) (bound : since ≤ world.generation)
    (current : since = next.generation) :
    next.generation = world.generation ∧ since = world.generation := by
  have grows := keeps.generation
  omega

theorem Missed.keep (missed : Missed world since outpoint) (keeps : Keeps world next) :
    Missed next since outpoint := by
  have bound := missed.seen.since_le
  constructor
  · intro current
    obtain ⟨same, here⟩ := keeps.same_generation bound current
    exact (keeps.untouched same outpoint (missed.untouched here)).1
  · rcases keeps.stored outpoint with same | ⟨drained, writing, holds, past, target⟩
    · rw [same]
      exact missed.seen.keep keeps
    · refine ⟨drained.generation, missed.later drained writing holds,
        le_trans past keeps.generation, ?_⟩
      rw [keeps.maps _ past, target]
  · intro drained writing holds
    rcases keeps.flight drained writing with same | newer
    · rw [writing, ← same] at holds
      exact missed.later drained same holds
    · exact le_trans bound newer

theorem Fetched.keep (fetched : Fetched world since outpoint coin) (keeps : Keeps world next) :
    Fetched next since outpoint coin := by
  constructor
  · intro current
    obtain ⟨same, here⟩ := keeps.same_generation fetched.seen.since_le current
    obtain ⟨untouched, row⟩ := fetched.untouched here
    obtain ⟨still, sameRow⟩ := keeps.untouched same outpoint untouched
    exact ⟨still, sameRow.trans row⟩
  · exact fetched.seen.keep keeps

theorem ReaderOk.keep {reader : Reader} (ok : ReaderOk world reader) (keeps : Keeps world next) :
    ReaderOk next reader := by
  cases reader with
  | idle => trivial
  | started generation outpoints => exact le_trans ok keeps.generation
  | missedDirty generation outpoint => exact Missed.keep ok keeps
  | missed generation outpoints =>
    intro outpoint listed
    exact (ok outpoint listed).keep keeps
  | fetched generation found =>
    intro row listed
    exact (ok row listed).keep keeps

/-- The log stays right. -/
theorem Sound.keepLog (sound : Sound world) (keeps : Keeps world next) :
    ∀ answer ∈ world.log, ∃ moment, answer.started ≤ moment ∧ moment ≤ answer.answered ∧
      answer.answered ≤ next.generation ∧
        (next.maps moment).lookup answer.outpoint = answer.coin := by
  intro answer listed
  obtain ⟨moment, after, before, past, value⟩ := sound.log answer listed
  refine ⟨moment, after, before, le_trans past keeps.generation, ?_⟩
  rw [keeps.maps moment (le_trans before past)]
  exact value

end Keeps

section Steps

variable {world : World σ ι}

variable {outpoint : OutPoint} {drained : Drained} {since : Nat} {reader : ι} {next : World σ ι}

/-- Outside the flight the settled coins are the stored ones. -/
theorem lookup_settled (landed : ¬world.flight.Holds outpoint) :
    world.settled.lookup outpoint = world.stored.lookup outpoint := by
  unfold settled
  cases flight : world.flight with
  | none => rfl
  | promoting drained => rfl
  | writing drained =>
    simp only [flight, Flight.Holds, not_or] at landed
    simp only [StoreBatch.lookup_applyCoins, if_neg landed.2, lastPut_eq_none.mpr landed.1, none_or]

/-- An untouched outpoint has its stored coin. -/
theorem Sound.plain_of_untouched (sound : Sound world) (untouched : Untouched world outpoint) :
    world.plain.lookup outpoint = world.stored.lookup outpoint := by
  rw [← sound.logical, overlay, untouched.clear]
  exact lookup_settled untouched.landed

/-- What the two tables answer is the current coin. -/
theorem Sound.plain_of_cached (sound : Sound world) {known : Option Coin}
    (cached : world.cache.cachedCoin outpoint = some known) :
    world.plain.lookup outpoint = known := by
  rw [cachedCoin] at cached
  cases found : world.cache.dirty.lookup outpoint with
  | some entry =>
    rw [found] at cached
    rw [← sound.logical, overlay, found]
    exact some.inj cached
  | none =>
    rw [found] at cached
    obtain ⟨coin, held, rfl⟩ := map_eq_some_iff.mp cached
    obtain ⟨untouched, row⟩ := sound.clean outpoint coin held
    rw [sound.plain_of_untouched untouched, row]

/-- The world before the first step is sound. -/
theorem Sound.initial (inner : σ) : Sound (initial inner : World σ ι) := by
  constructor
  · intro outpoint
    rfl
  · intro outpoint entry found
    cases found
  · intro outpoint entry found
    cases found
  · intro outpoint coin held
    simp [World.initial] at held
  · exact ⟨rfl, rfl, rfl⟩
  · trivial
  · intro reader
    trivial
  · intro answer listed
    cases listed

/-! ### Absorbing a batch -/

variable {batch : StoreBatch}

theorem Sound.absorb (sound : Sound world) (coins : batch.coinDirty ≠ 0)
    (careful : Careful world (.absorb batch)) :
    Sound { world with
      cache := world.cache.absorbCoins batch
      maps := update world.maps (world.generation + 1) (batch.applyCoins world.plain) } := by
  obtain ⟨⟨promised, promisedSettled⟩, -⟩ := careful
  have keeps : Keeps world { world with
      cache := world.cache.absorbCoins batch
      maps := update world.maps (world.generation + 1) (batch.applyCoins world.plain) } := by
    constructor
    · simp [generation, absorbCoins, coins]
    · intro moment past
      have different : moment ≠ world.generation + 1 := by omega
      exact update_of_ne different _ _
    · intro same
      simp [generation, absorbCoins, coins] at same
    · intro outpoint
      left
      simp [stored, absorbCoins, coins]
    · intro drained writing
      exact .inl writing
  refine ⟨?_, ?_, ?_, ?_, sound.bare.absorbCoins batch, ?_,
    fun reader => (sound.readers reader).keep keeps, sound.keepLog keeps⟩
  · intro outpoint
    have absorbed : overlay (absorbDirty batch world.cache.dirty) world.settled outpoint =
        (batch.applyCoins world.plain).lookup outpoint := overlay_absorbDirty sound.logical
    simpa [plain, generation, settled, stored, absorbCoins, coins] using absorbed
  · have absent := sound.fresh.absorbDirty promised
    simpa [stored, absorbCoins, coins] using absent
  · have absent := sound.freshSettled.absorbDirty promisedSettled
    simpa [settled, stored, absorbCoins, coins] using absent
  · intro outpoint coin held
    simp only [absorbCoins, coins, if_false, lookup_removeAll] at held
    split at held
    · cases held
    · next unremoved =>
      split at held
      · cases held
      · next unput =>
        obtain ⟨untouched, row⟩ := sound.clean outpoint coin held
        refine ⟨⟨?_, untouched.landed⟩, ?_⟩
        · simpa [absorbCoins, coins, lookup_absorbDirty_of_untouched unput unremoved] using
            untouched.clear
        · simpa [stored, absorbCoins, coins] using row
  · have before := sound.flight
    unfold FlightOk at before ⊢
    cases flight : world.flight with
    | none => trivial
    | writing drained =>
      rw [flight] at before
      have older : drained.generation ≠ world.generation + 1 := by
        have past := before.past
        omega
      refine { before with past := ?_, target := ?_, alone := ?_ }
      · exact le_trans before.past keeps.generation
      · intro outpoint
        rw [keeps.maps _ before.past]
        simpa [stored, absorbCoins, coins] using before.target outpoint
      · intro same
        simp only [generation, absorbCoins, coins, if_false] at same
        exact absurd same.symm older
    | promoting drained =>
      rw [flight] at before
      have older : drained.generation ≠ world.generation + 1 := by
        have past := before.past
        omega
      refine ⟨le_trans before.past keeps.generation, ?_, ?_⟩
      · intro same
        simp only [generation, absorbCoins, coins, if_false] at same
        exact absurd same.symm older
      · intro same
        simp only [generation, absorbCoins, coins, if_false] at same
        exact absurd same.symm older

/-! ### The flush -/

omit [Backing σ] in
/-- A drained outpoint had an entry. -/
theorem lookup_of_drained (bare : NoPendingCoins world.cache)
    (holds : (Flight.writing world.cache.startFlush.2).Holds outpoint) :
    ∃ entry, world.cache.dirty.lookup outpoint = some entry := by
  simp only [Flight.Holds, startFlush_coinPuts bare, startFlush_coinRemoves bare,
    Table.mem_filterMap_rows] at holds
  rcases holds with ⟨coin, kept⟩ | ⟨stored, kept⟩
  · obtain ⟨entry, found, -⟩ := bind_eq_some_iff.mp kept
    exact ⟨entry, found⟩
  · obtain ⟨entry, found, -⟩ := bind_eq_some_iff.mp kept
    exact ⟨entry, found⟩

omit [Backing σ] in
/-- A drained coin is what the batch writes at its outpoint, whatever is there. -/
theorem drained_promoted (bare : NoPendingCoins world.cache) {row : OutPoint × Coin}
    (listed : row ∈ world.cache.startFlush.2.promote) {base : Map OutPoint Coin} :
    (world.cache.startFlush.2.batch.applyCoins base).lookup row.1 = some row.2 := by
  obtain ⟨entry, found, coin⟩ := mem_promote listed
  rw [lookup_drained bare, found]
  cases entry with
  | present kept fresh replaces =>
    have same : kept = row.2 := some.inj coin
    simp [DirtyEntry.flushedRemove, DirtyEntry.flushedPut, same]
  | spent amount height fresh rowUnknown => cases coin

omit [Backing σ] in
/-- No outpoint is both put and removed by a drained batch. -/
theorem drained_disjoint (bare : NoPendingCoins world.cache)
    (put : outpoint ∈ world.cache.startFlush.2.batch.coinPuts.map fst) :
    outpoint ∉ world.cache.startFlush.2.batch.coinRemoves.map fst := by
  intro removed
  rw [startFlush_coinPuts bare, Table.mem_filterMap_rows] at put
  rw [startFlush_coinRemoves bare, Table.mem_filterMap_rows] at removed
  obtain ⟨coin, kept⟩ := put
  obtain ⟨stored, dropped⟩ := removed
  obtain ⟨entry, found, isPut⟩ := bind_eq_some_iff.mp kept
  rw [found] at dropped
  cases entry with
  | present kept fresh replaces => cases dropped
  | spent amount height fresh rowUnknown => cases isPut

theorem Sound.startFlush (sound : Sound world) (grounded : world.flight = .none) :
    Sound { world with
      cache := world.cache.startFlush.1, flight := .writing world.cache.startFlush.2 } := by
  have bare := sound.bare
  have sameSettled : world.settled = world.stored := by
    rw [settled, grounded]
  have target : ∀ outpoint, (world.cache.startFlush.2.batch.applyCoins world.stored).lookup
      outpoint = world.plain.lookup outpoint := by
    intro outpoint
    rw [lookup_drained_eq_overlay bare sound.fresh, ← sound.logical, sameSettled]
  have untouched : ∀ outpoint, world.cache.dirty.lookup outpoint = none →
      ¬(Flight.writing world.cache.startFlush.2).Holds outpoint := by
    intro outpoint clear holds
    obtain ⟨entry, found⟩ := lookup_of_drained bare holds
    rw [clear] at found
    cases found
  have keeps : Keeps world { world with
      cache := world.cache.startFlush.1, flight := .writing world.cache.startFlush.2 } := by
    constructor
    · exact le_refl _
    · intro moment past
      rfl
    · intro _ outpoint before
      exact ⟨⟨rfl, untouched outpoint before.clear⟩, rfl⟩
    · intro outpoint
      exact .inl rfl
    · intro drained writing
      cases writing
      exact .inr (le_refl _)
  refine ⟨target, ?_, ?_, ?_, ⟨rfl, rfl, rfl⟩, ?_, fun reader => (sound.readers reader).keep keeps,
    sound.keepLog keeps⟩
  · intro outpoint entry found
    cases found
  · intro outpoint entry found
    cases found
  · intro outpoint coin held
    obtain ⟨before, row⟩ := sound.clean outpoint coin held
    exact ⟨⟨rfl, untouched outpoint before.clear⟩, row⟩
  · refine ⟨le_refl _, target, fun row listed base => drained_promoted bare listed, ?_,
      fun outpoint put => drained_disjoint bare put, fun _ => rfl⟩
    rw [startFlush_coinPuts bare]
    exact Table.nodup_filterMap_rows _ _

/-- The coins after the write, which is left out when there is nothing to write. -/
theorem coins_write_if_data {inner : σ} :
    Backing.coins (if batch.hasData then Backing.writeBatch inner batch else inner) =
      batch.applyCoins (Backing.coins inner) := by
  cases data : batch.hasData with
  | true => simp [Backing.coins_writeBatch]
  | false => simp [applyCoins_of_no_data data]

theorem Sound.writeFlush (sound : Sound world) {inner : σ}
    (writing : world.flight = .writing drained)
    (written : Backing.coins inner = drained.batch.applyCoins world.stored) :
    Sound { world with cache := { world.cache with inner }, flight := .promoting drained } := by
  have inFlight : InFlight world drained := by
    have ok := sound.flight
    rw [FlightOk, writing] at ok
    exact ok
  have sameSettled : world.settled = Backing.coins inner := by
    rw [settled, writing, written]
  have sameRow : ∀ outpoint, ¬world.flight.Holds outpoint →
      (Backing.coins inner).lookup outpoint = world.stored.lookup outpoint := by
    intro outpoint landed
    rw [← sameSettled, lookup_settled landed]
  have keeps : Keeps world { world with
      cache := { world.cache with inner }, flight := .promoting drained } := by
    constructor
    · exact le_refl _
    · intro moment past
      rfl
    · intro _ outpoint before
      exact ⟨⟨before.clear, id⟩, sameRow outpoint before.landed⟩
    · intro outpoint
      by_cases holds : world.flight.Holds outpoint
      · right
        refine ⟨drained, writing, holds, inFlight.past, ?_⟩
        rw [← inFlight.target, ← written]
      · exact .inl (sameRow outpoint holds)
    · intro other promoting
      cases promoting
  refine ⟨?_, ?_, ?_, ?_, ⟨sound.bare.puts, sound.bare.removes, sound.bare.overwrites⟩, ?_,
    fun reader => (sound.readers reader).keep keeps, sound.keepLog keeps⟩
  · intro outpoint
    have before := sound.logical outpoint
    rw [sameSettled] at before
    exact before
  · have before := sound.freshSettled
    rw [sameSettled] at before
    exact before
  · have before := sound.freshSettled
    rw [sameSettled] at before
    exact before
  · intro outpoint coin held
    obtain ⟨before, row⟩ := sound.clean outpoint coin held
    exact ⟨⟨before.clear, id⟩, (sameRow outpoint before.landed).trans row⟩
  · refine ⟨inFlight.past, inFlight.alone, ?_⟩
    intro _ row listed
    have coin := inFlight.promoted row listed world.stored
    rw [← written] at coin
    exact coin

/-! ### The clean cache -/

theorem keeps_clean (world : World σ ι) (clean : Map OutPoint Coin) :
    Keeps world { world with cache := { world.cache with clean } } := by
  constructor
  · exact le_refl _
  · intro moment past
    rfl
  · intro _ outpoint before
    exact ⟨⟨before.clear, before.landed⟩, rfl⟩
  · intro outpoint
    exact .inl rfl
  · intro drained writing
    exact .inl writing

section

variable (sound : Sound world)
include sound

/-- The clean cache may hold any stored rows that no table and no flush holds. -/
theorem Sound.setClean {clean : Map OutPoint Coin}
    (held : ∀ outpoint coin, clean.lookup outpoint = some coin →
      Untouched world outpoint ∧ world.stored.lookup outpoint = some coin) :
    Sound { world with cache := { world.cache with clean } } := by
  have keeps := keeps_clean world clean
  refine ⟨sound.logical, sound.fresh, sound.freshSettled, ?_,
    ⟨sound.bare.puts, sound.bare.removes, sound.bare.overwrites⟩, ?_,
    fun reader => (sound.readers reader).keep keeps, sound.keepLog keeps⟩
  · intro outpoint coin found
    obtain ⟨untouched, row⟩ := held outpoint coin found
    exact ⟨⟨untouched.clear, untouched.landed⟩, row⟩
  · have before := sound.flight
    unfold FlightOk at before ⊢
    cases flight : world.flight with
    | none => trivial
    | writing drained =>
      rw [flight] at before
      exact { before with }
    | promoting drained =>
      rw [flight] at before
      exact { before with }

theorem Sound.putClean {rows : List (OutPoint × Coin)}
    (stored : ∀ row ∈ rows, Untouched world row.1 ∧ world.stored.lookup row.1 = some row.2) :
    Sound { world with cache := { world.cache with clean := putAll world.cache.clean rows } } := by
  apply sound.setClean
  intro outpoint coin held
  rw [lookup_putAll] at held
  rcases or_eq_some_iff.mp held with added | ⟨-, before⟩
  · exact stored (outpoint, coin) (mem_of_lastPut added)
  · exact sound.clean outpoint coin before

theorem Sound.evict (outpoint : OutPoint) :
    Sound { world with cache := world.cache.evictClean outpoint } := by
  apply sound.setClean
  intro other coin held
  rw [lookup_erase] at held
  split at held
  · cases held
  · exact sound.clean other coin held

/-! ### The end of a flush -/

/-- A flush may end once its rows are known to have landed. -/
theorem Sound.land (promoting : world.flight = .promoting drained) :
    Sound { world with flight := .none } := by
  have sameSettled : world.settled = world.stored := by
    rw [settled, promoting]
  have keeps : Keeps world { world with flight := .none } := by
    constructor
    · exact le_refl _
    · intro moment past
      rfl
    · intro _ outpoint before
      exact ⟨⟨before.clear, id⟩, rfl⟩
    · intro outpoint
      exact .inl rfl
    · intro other writing
      cases writing
  refine ⟨?_, sound.fresh, sound.fresh, ?_, sound.bare, trivial,
    fun reader => (sound.readers reader).keep keeps, sound.keepLog keeps⟩
  · intro outpoint
    have before := sound.logical outpoint
    rw [sameSettled] at before
    exact before
  · intro outpoint coin held
    obtain ⟨before, row⟩ := sound.clean outpoint coin held
    exact ⟨⟨before.clear, id⟩, row⟩

theorem Sound.promoteFlush (promoting : world.flight = .promoting drained) :
    Sound { world with cache := world.cache.promote drained, flight := .none } := by
  have landed : Landed world drained := by
    have ok := sound.flight
    rw [FlightOk, promoting] at ok
    exact ok
  have grounded := sound.land promoting
  unfold promote
  split
  · next same =>
    apply grounded.putClean
    intro row listed
    refine ⟨⟨?_, id⟩, landed.promoted same row listed⟩
    simp [landed.alone same]
  · exact grounded

end

/-- A restored outpoint gets the entry of the batch in flight unless it has one. -/
theorem lookup_restored (inFlight : InFlight world drained) {outpoint : OutPoint} :
    overlay ((restoredEntries drained).foldl restoreEntry world.cache.dirty) world.stored outpoint =
      overlay world.cache.dirty (drained.batch.applyCoins world.stored) outpoint := by
  rw [overlay, overlay, lookup_restoreEntries]
  cases found : world.cache.dirty.lookup outpoint with
  | some entry => rfl
  | none =>
    rw [restoredEntries, firstPut_append, firstPut_map
      (fun row : OutPoint × Coin =>
        DirtyEntry.present row.2 false (lastPut row.1 drained.batch.coinOverwrites)),
      firstPut_map (fun row : OutPoint × Nat × Nat =>
        DirtyEntry.spent row.2.1 row.2.2 false (row.1 ∈ drained.rowlessRemoves)),
      StoreBatch.lookup_applyCoins, firstPut_eq_lastPut inFlight.distinct]
    cases put : lastPut outpoint drained.batch.coinPuts with
    | some coin =>
      have unremoved := inFlight.disjoint outpoint (mem_map_of_mem (mem_of_lastPut put))
      simp [unremoved, DirtyEntry.coin?]
    | none =>
      cases removed : firstPut outpoint drained.batch.coinRemoves with
      | some stored =>
        have listed : outpoint ∈ drained.batch.coinRemoves.map fst := by
          by_contra unlisted
          rw [firstPut_eq_none.mpr unlisted] at removed
          cases removed
        simp [listed, DirtyEntry.coin?]
      | none =>
        have unlisted := firstPut_eq_none.mp removed
        simp [unlisted]

omit [Backing σ] in
/-- Only outpoints in flight are restored. -/
theorem restored_clear (writing : world.flight = .writing drained)
    (untouched : Untouched world outpoint) :
    ((restoredEntries drained).foldl restoreEntry world.cache.dirty).lookup outpoint = none := by
  have landed := untouched.landed
  rw [writing, Flight.Holds, not_or] at landed
  rw [lookup_restoreEntries, untouched.clear, none_or, firstPut_eq_none, restoredEntries]
  simpa using landed

theorem Sound.restoreFlush (sound : Sound world) (writing : world.flight = .writing drained) :
    Sound { world with
      cache := world.cache.restoreAfterFailedFlush drained, flight := .none } := by
  have inFlight : InFlight world drained := by
    have ok := sound.flight
    rw [FlightOk, writing] at ok
    exact ok
  have fresh : FreshAbsent ((restoredEntries drained).foldl restoreEntry world.cache.dirty)
      world.stored := by
    intro outpoint entry found isFresh
    rw [lookup_restoreEntries] at found
    rcases or_eq_some_iff.mp found with newer | ⟨-, restored⟩
    · exact sound.fresh outpoint entry newer isFresh
    · have listed := mem_of_firstPut restored
      simp only [restoredEntries, List.mem_append, List.mem_map, Prod.mk.injEq] at listed
      rcases listed with ⟨row, -, -, rfl⟩ | ⟨row, -, -, rfl⟩ <;> cases isFresh
  have keeps : Keeps world { world with
      cache := world.cache.restoreAfterFailedFlush drained, flight := .none } := by
    constructor
    · exact le_refl _
    · intro moment past
      rfl
    · intro _ outpoint before
      exact ⟨⟨restored_clear writing before, id⟩, rfl⟩
    · intro outpoint
      exact .inl rfl
    · intro other landed
      cases landed
  refine ⟨?_, fresh, fresh, ?_, ?_, trivial, fun reader => (sound.readers reader).keep keeps,
    sound.keepLog keeps⟩
  · intro outpoint
    have before := sound.logical outpoint
    rw [settled, writing] at before
    exact (lookup_restored inFlight).trans before
  · intro outpoint coin held
    obtain ⟨before, row⟩ := sound.clean outpoint coin held
    exact ⟨⟨restored_clear writing before, id⟩, row⟩
  · constructor <;>
      simp [restoreAfterFailedFlush, StoreBatch.merge, StoreBatch.nonCoin, sound.bare.puts,
        sound.bare.removes, sound.bare.overwrites]

/-! ### Readers -/

omit [Backing σ] in
/-- The current coin was seen during a read. -/
theorem seen_plain (bound : since ≤ world.generation) :
    Seen world since outpoint (world.plain.lookup outpoint) :=
  ⟨world.generation, bound, le_refl _, rfl⟩

/-- A careful reader's miss leaves the outpoint to the backing store. -/
theorem Sound.missed (sound : Sound world) (bound : since ≤ world.generation)
    (clear : world.cache.dirty.lookup outpoint = none) (landed : ¬world.flight.Holds outpoint) :
    Missed world since outpoint := by
  have untouched : Untouched world outpoint := ⟨clear, landed⟩
  constructor
  · intro _
    exact untouched
  · rw [← sound.plain_of_untouched untouched]
    exact seen_plain bound
  · intro drained _ holds
    exact absurd holds landed

theorem Sound.started_le (sound : Sound world) {outpoints : List OutPoint}
    (started : world.readers reader = .started since outpoints) :
    since ≤ world.generation := by
  have ok := sound.readers reader
  rw [started] at ok
  exact ok

variable [DecidableEq ι]

section

variable (sound : Sound world)
include sound

variable {state : Reader}

/-- A reader may move on to a state that is right, giving answers that are right. -/
theorem Sound.read {started : Nat} {answers : List (OutPoint × Option Coin)}
    (ok : ReaderOk world state) (right : ∀ found ∈ answers, Seen world started found.1 found.2) :
    Sound ((world.answer started answers).setReader reader state) := by
  have keeps : Keeps world ((world.answer started answers).setReader reader state) := by
    constructor
    · exact le_refl _
    · intro moment past
      rfl
    · intro _ outpoint before
      exact ⟨⟨before.clear, before.landed⟩, rfl⟩
    · intro outpoint
      exact .inl rfl
    · intro drained writing
      exact .inl writing
  refine { sound with clean := ?_, flight := ?_, readers := ?_, log := ?_ }
  · intro outpoint coin held
    obtain ⟨before, row⟩ := sound.clean outpoint coin held
    exact ⟨⟨before.clear, before.landed⟩, row⟩
  · have before := sound.flight
    unfold FlightOk at before ⊢
    simp only [setReader, answer]
    cases flight : world.flight with
    | none => trivial
    | writing drained =>
      rw [flight] at before
      exact { before with }
    | promoting drained =>
      rw [flight] at before
      exact { before with }
  · intro other
    by_cases same : other = reader
    · subst same
      simp only [setReader, update_self]
      exact ok.keep keeps
    · simp only [setReader, update_of_ne same]
      exact (sound.readers other).keep keeps
  · intro given listed
    rcases mem_append.mp listed with before | added
    · exact sound.keepLog keeps given before
    · obtain ⟨found, inAnswers, rfl⟩ := mem_map.mp added
      obtain ⟨moment, after, past, value⟩ := right found inAnswers
      exact ⟨moment, after, past, le_refl _, value⟩

/-- A reader that gives no answer only moves on. -/
theorem Sound.moveReader (ok : ReaderOk world state) : Sound (world.setReader reader state) := by
  have moved : Sound ((world.answer 0 []).setReader reader state) := by
    apply sound.read ok
    intro found listed
    cases listed
  simpa [answer] using moved

theorem Sound.checkDirty (careful : Careful world (.checkDirty reader))
    (taken : world.step (.checkDirty reader) = some next) : Sound next := by
  simp only [World.step] at taken
  split at taken
  · next since outpoint started =>
    have bound := sound.started_le started
    split at taken
    · next entry found =>
      cases taken
      apply sound.read (readerOk_idle)
      intro answer listed
      rw [mem_singleton.mp listed]
      have current : world.plain.lookup outpoint = entry.coin? := by
        rw [← sound.logical, overlay, found]
      exact current ▸ seen_plain bound
    · next clear =>
      cases taken
      exact sound.moveReader (sound.missed bound clear
        (careful.2 since [outpoint] started outpoint (mem_singleton_self outpoint) clear))
  · cases taken

theorem Sound.checkClean (taken : world.step (.checkClean reader) = some next) : Sound next := by
  simp only [World.step] at taken
  split at taken
  · next since outpoint missed =>
    have ok : Missed world since outpoint := by
      have before := sound.readers reader
      rw [missed] at before
      exact before
    split at taken
    · next coin held =>
      cases taken
      obtain ⟨untouched, row⟩ := sound.clean outpoint coin held
      apply sound.read (readerOk_idle)
      intro answer listed
      rw [mem_singleton.mp listed]
      have current : world.plain.lookup outpoint = some coin := by
        rw [sound.plain_of_untouched untouched, row]
      exact current ▸ seen_plain ok.seen.since_le
    · cases taken
      apply sound.moveReader
      intro other listed
      rw [mem_singleton.mp listed]
      exact ok
  · cases taken

theorem Sound.checkBoth (careful : Careful world (.checkBoth reader))
    (taken : world.step (.checkBoth reader) = some next) : Sound next := by
  simp only [World.step] at taken
  split at taken
  · next since outpoints started =>
    cases taken
    have bound := sound.started_le started
    apply sound.read
    · intro outpoint listed
      obtain ⟨asked, missed⟩ := mem_filter.mp listed
      have clear := (logical_of_miss (isNone_iff_eq_none.mp missed)).2
      exact sound.missed bound clear (careful.2 since outpoints started outpoint asked clear)
    · intro answer listed
      obtain ⟨outpoint, -, hit⟩ := mem_filterMap.mp listed
      obtain ⟨known, cached, rfl⟩ := map_eq_some_iff.mp hit
      exact sound.plain_of_cached cached ▸ seen_plain bound
  · cases taken

theorem Sound.fetch (taken : world.step (.fetch reader) = some next) : Sound next := by
  simp only [World.step] at taken
  split at taken
  · next since outpoints missed =>
    cases taken
    have ok := sound.readers reader
    rw [missed] at ok
    apply sound.moveReader
    intro row listed
    obtain ⟨outpoint, asked, rfl⟩ := mem_map.mp listed
    have miss := ok outpoint asked
    exact ⟨fun current => ⟨miss.untouched current, rfl⟩, miss.seen⟩
  · cases taken

theorem Sound.populate (taken : world.step (.populate reader) = some next) : Sound next := by
  simp only [World.step] at taken
  split at taken
  · next since found fetched =>
    have ok := sound.readers reader
    rw [fetched] at ok
    cases taken
    split
    · next current =>
      -- No batch came in between, so every fetched row is still the current one.
      have filled : Sound { world with cache := { world.cache with
          clean := putAll world.cache.clean
            (found.filterMap fun row => row.2.map fun coin => (row.1, coin)) } } := by
        apply sound.putClean
        intro row listed
        obtain ⟨given, inFound, kept⟩ := mem_filterMap.mp listed
        obtain ⟨coin, present, rfl⟩ := map_eq_some_iff.mp kept
        obtain ⟨untouched, stored⟩ := (ok given inFound).untouched current.symm
        exact ⟨untouched, stored.trans present⟩
      apply filled.read (readerOk_idle)
      intro answer listed
      exact (ok answer listed).seen
    · apply sound.read (readerOk_idle)
      intro answer listed
      exact (ok answer listed).seen
  · cases taken

/-- Every careful step keeps the world sound. -/
theorem Sound.step {action : Action ι} (careful : Careful world action)
    (taken : world.step action = some next) : Sound next := by
  cases action with
  | absorb batch =>
    simp only [World.step] at taken
    split at taken
    · cases taken
    · next coins =>
      cases taken
      exact sound.absorb coins careful
  | startFlush =>
    simp only [World.step] at taken
    split at taken
    · next grounded =>
      cases taken
      exact sound.startFlush grounded
    · cases taken
  | writeFlush =>
    simp only [World.step] at taken
    split at taken
    · next drained writing =>
      cases taken
      exact sound.writeFlush writing (coins_write_if_data)
    · cases taken
  | promoteFlush =>
    simp only [World.step] at taken
    split at taken
    · next drained promoting =>
      cases taken
      exact sound.promoteFlush promoting
    · cases taken
  | restoreFlush =>
    simp only [World.step] at taken
    split at taken
    · next drained writing =>
      split at taken
      · cases taken
        exact sound.restoreFlush writing
      · cases taken
    · cases taken
  | evict outpoint =>
    cases taken
    exact sound.evict outpoint
  | start reader outpoints =>
    simp only [World.step] at taken
    split at taken
    · cases taken
      exact sound.moveReader (le_refl world.generation)
    · cases taken
  | checkDirty reader => exact sound.checkDirty careful taken
  | checkClean reader => exact sound.checkClean taken
  | checkBoth reader => exact sound.checkBoth careful taken
  | fetch reader => exact sound.fetch taken
  | populate reader => exact sound.populate taken

end

/-- Every world of a careful run is sound. -/
theorem Reach.sound (reached : Reach Careful world) : Sound world := by
  induction reached with
  | initial inner => exact Sound.initial inner
  | step action reached careful taken ih =>
    exact ih.step careful taken

end Steps

end World

/-- In every world of a careful run, with any number of readers, a clean entry
that no dirty entry and no flush hides is the coin the absorbed batches leave,
and every answer given is the coin they left at some moment between the start
of the read and the answer. -/
theorem careful_readers_never_resurrect [DecidableEq ι] {world : World σ ι}
    (reached : World.Reach Careful world) :
    (∀ outpoint coin, world.cache.clean.lookup outpoint = some coin →
      world.cache.dirty.lookup outpoint = none → ¬world.flight.Holds outpoint →
        world.plain.lookup outpoint = some coin) ∧
    ∀ answer ∈ world.log, ∃ moment, answer.started ≤ moment ∧ moment ≤ answer.answered ∧
      (world.maps moment).lookup answer.outpoint = answer.coin := by
  have sound := reached.sound
  constructor
  · intro outpoint coin held _ _
    obtain ⟨untouched, row⟩ := sound.clean outpoint coin held
    rw [sound.plain_of_untouched untouched, row]
  · intro answer listed
    obtain ⟨moment, after, before, -, value⟩ := sound.log answer listed
    exact ⟨moment, after, before, value⟩

namespace Sample

/-- A batch that spends the stored coin. -/
def removal : StoreBatch where
  coinRemoves := [(firstOutpoint, 5_000, 100)]

def start : World InMemoryStore Unit := .initial store

/-- Take steps one after the other, staying put when one cannot be taken. -/
def after (world : World InMemoryStore Unit) : List (Action Unit) → World InMemoryStore Unit
  | [] => world
  | action :: rest => after ((world.step action).getD world) rest

/-- A read that misses and fills the clean cache, and then a spend and its flush. -/
def readThenFlush : List (Action Unit) :=
  [.start () [firstOutpoint], .checkDirty (), .checkClean (), .fetch (), .populate (),
    .absorb removal, .startFlush, .writeFlush, .promoteFlush]

/-- The same read, started while the spend is in flight. -/
def readInFlight : List (Action Unit) :=
  [.absorb removal, .startFlush, .start () [firstOutpoint], .checkDirty (), .checkClean (),
    .fetch (), .writeFlush, .populate (), .promoteFlush]

/-- Permitted steps reach the world they lead to. -/
theorem reach_after {permits : World InMemoryStore Unit → Action Unit → Prop}
    {world : World InMemoryStore Unit} {actions : List (Action Unit)}
    (reached : World.Reach permits world)
    (permitted : ∀ count action, actions[count]? = some action →
      permits (after world (actions.take count)) action) :
    World.Reach permits (after world actions) := by
  induction actions generalizing world with
  | nil => exact reached
  | cons action rest ih =>
    apply ih
    · cases taken : world.step action with
      | none => exact reached
      | some next => exact reached.step action (permitted 0 action rfl) taken
    · intro count later present
      exact permitted (count + 1) later present

variable {action : Action Unit}

/-- Between flushes every miss is of an outpoint that is not in flight. -/
theorem missesLanded_of_grounded {world : World InMemoryStore Unit}
    (grounded : world.flight = .none) : MissesLanded world action := by
  unfold MissesLanded
  split
  · intro _ _ _ _ _ _ holds
    rw [grounded] at holds
    exact holds
  · intro _ _ _ _ _ _ holds
    rw [grounded] at holds
    exact holds
  · trivial

/-- The sample's only batch puts no coins. -/
theorem promised_of_mem {world : World InMemoryStore Unit}
    (listed : action ∈ readThenFlush ++ readInFlight) : Promised world action := by
  unfold Promised
  split
  · next batch =>
    have same : batch = removal := by simpa [readThenFlush, readInFlight] using listed
    rw [same]
    constructor <;> intro row put <;> cases put
  · trivial

theorem reach_readThenFlush : World.Reach Careful (after start readThenFlush) := by
  apply reach_after (World.Reach.initial store)
  have grounded : ∀ count < 6, (after start (readThenFlush.take count)).flight = .none := by
    intro count small
    interval_cases count <;> rfl
  intro count action present
  refine ⟨promised_of_mem (mem_append_left _ (mem_of_getElem? present)), ?_⟩
  by_cases early : count < 6
  · exact missesLanded_of_grounded (grounded count early)
  · -- What follows the sixth step is the flush.
    have bound : count < 9 := (List.getElem?_eq_some_iff.mp present).1
    interval_cases count <;> cases present <;> trivial

theorem reach_readInFlight : World.Reach Promised (after start readInFlight) := by
  apply reach_after (World.Reach.initial store)
  intro count action present
  exact promised_of_mem (mem_append_right _ (mem_of_getElem? present))

end Sample

open Sample

/-- The read answered with the coin, which the later spend took out of the clean
cache. -/
theorem careful_readers_never_resurrect_sample :
    (∃ moment, moment ≤ 0 ∧ ((after start readThenFlush).maps moment).lookup
      firstOutpoint = some firstCoin) ∧
    (after start readThenFlush).cache.clean.lookup firstOutpoint =
      none := by
  obtain ⟨clean, answers⟩ := careful_readers_never_resurrect reach_readThenFlush
  constructor
  · obtain ⟨moment, -, before, value⟩ := answers
      ⟨firstOutpoint, some firstCoin, 0, 0⟩ (by
        apply mem_of_getElem? (i := 0)
        decide +kernel)
    exact ⟨moment, before, value⟩
  · cases held : (after start readThenFlush).cache.clean.lookup firstOutpoint with
    | none => rfl
    | some coin =>
      have current := clean firstOutpoint coin held (by decide +kernel) (fun holds => holds)
      have spent : (after start readThenFlush).plain.lookup
          firstOutpoint = none := by decide +kernel
      rw [spent] at current
      cases current

/-- A read that misses an outpoint in flight returns a coin that a batch absorbed
before the read removed, and leaves it in the clean cache for good. -/
theorem miss_in_flight_resurrects :
    World.Reach Promised (after start readInFlight) ∧
    (after start readInFlight).cache.clean.lookup firstOutpoint = some firstCoin ∧
    (after start readInFlight).cache.dirty.lookup firstOutpoint = none ∧
    (after start readInFlight).flight = .none ∧
    (after start readInFlight).plain.lookup firstOutpoint = none ∧
    (after start readInFlight).log = [⟨firstOutpoint, some firstCoin, 1, 1⟩] ∧
    ((after start readInFlight).maps 1).lookup firstOutpoint =
      none := by
  refine ⟨reach_readInFlight, ?_, ?_, rfl, ?_, ?_, ?_⟩ <;> decide +kernel

end Satd.Storage.CoinCache
