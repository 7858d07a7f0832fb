import Satd.Net.TxRequest

/-!
# The block download scheduler

During the initial block download every height above the last connected block waits in a
pool, is in flight to a peer, or is downloaded. The scheduler hands heights to peers, the
lowest first, and takes them back when a peer leaves, stalls, does not have the block or
takes too long. A block is heard of twice, when it arrives and when it is stored. When the
best header moves to another branch the rows of the heights above change.

Points of time and durations are numbers of ticks, and every call is given the time it is
made at. Where the source walks a hash table the call is given the order it is walked in.
Heights are naturals, taken to stay below `2 ^ 32 - 256`.
-/

namespace Satd.Net

open KeyedMap

/-- The heights a peer was asked for, and how well it delivers. -/
structure PeerSlots where
  assigned : List Nat
  blocksReceived : Nat
  lastActivity : Nat
  consecutiveFailures : Nat
  lastFailureAt : Option Nat
  lastDelivery : Option Nat
  quietSince : Nat
  timedOutSinceDelivery : Bool

variable (now : Nat)

/-- A peer that was just registered. -/
def PeerSlots.new : PeerSlots where
  assigned := []
  blocksReceived := 0
  lastActivity := now
  consecutiveFailures := 0
  lastFailureAt := none
  lastDelivery := none
  quietSince := now
  timedOutSinceDelivery := false

/-- The scheduler. Blocks are named by hashes of any type. -/
structure IbdScheduler (β : Type) where
  targetHeight : Nat
  /-- The heights still to be handed out, the lowest first. -/
  pending : List Nat
  inFlight : Map Nat PeerId := ∅
  inFlightAt : Map Nat Nat := ∅
  requestedAt : Map Nat Nat := ∅
  /-- The heights in flight whose block has arrived, with its hash and the number of copies. -/
  arrived : Map Nat (β × Nat) := ∅
  stallTimeout : Nat
  downloaded : Finset Nat := ∅
  peerSlots : Map PeerId PeerSlots := ∅
  perPeerLimit : Nat := 16
  maxAhead : Nat
  connectCursor : Nat
  heightToHash : Map Nat β
  heightPeerCooldown : Map Nat (Map PeerId Nat) := ∅

/-! ## Constants -/

/-- The number of ticks in a second. -/
def ticksPerSecond : Nat := 1_000_000_000

def stallTimeoutBase : Nat := 15 * ticksPerSecond

def stallTimeoutMax : Nat := 64 * ticksPerSecond

def quietDownloadTimeout : Nat := 600 * ticksPerSecond

def peerHeightCooldown : Nat := 60 * ticksPerSecond

def failureDedupWindow : Nat := 20 * ticksPerSecond

def priorityZone : Nat := 256

/-- Take a height off a peer's list. -/
def PeerSlots.without (height : Nat) (slots : PeerSlots) : PeerSlots :=
  { slots with assigned := slots.assigned.filter fun other => other ≠ height }

/-- The peer delivered what it was asked for. -/
def PeerSlots.creditDelivery (slots : PeerSlots) : PeerSlots :=
  { slots with
    lastActivity := now
    lastDelivery := some now
    quietSince := now
    timedOutSinceDelivery := false
    consecutiveFailures := 0
    lastFailureAt := none }

/-- A block it was asked for is stored. It may have been credited when it arrived. -/
def PeerSlots.received (credited : Bool) (slots : PeerSlots) : PeerSlots :=
  let counted := { slots with blocksReceived := slots.blocksReceived + 1 }
  if credited then counted else counted.creditDelivery now

/-- Failures within a short time count once. -/
def PeerSlots.countFailure (slots : PeerSlots) : PeerSlots :=
  if slots.lastFailureAt.all fun earlier => failureDedupWindow ≤ now - earlier then
    { slots with
      consecutiveFailures := min (slots.consecutiveFailures + 1) (2 ^ 32 - 1)
      lastFailureAt := some now }
  else slots

/-- The heights from one up to another, both included. -/
def heightsUpTo (first last : Nat) : List Nat := List.range' first (last + 1 - first)

/-- The rows the height index has for some heights. -/
def readRows {β : Type} (rows : Nat → Option β) (heights : List Nat) (map : Map Nat β) :
    Map Nat β :=
  putAll map (rowsOf rows heights)

namespace IbdScheduler

variable {β : Type} [DecidableEq β]

/-- A scheduler for the heights above the tip up to the target. -/
def new (targetHeight currentTip : Nat) (rows : Nat → Option β) (maxAhead : Nat) : IbdScheduler β :=
  let heights := heightsUpTo (currentTip + 1) targetHeight
  { targetHeight, pending := heights, stallTimeout := stallTimeoutBase, maxAhead
    connectCursor := currentTip, heightToHash := readRows rows heights ∅ }

variable (scheduler : IbdScheduler β)

/-! ## Peers -/

/-- Change the slots of a peer, if it is registered. -/
def withSlots (peer : PeerId) (change : PeerSlots → PeerSlots) : IbdScheduler β :=
  match scheduler.peerSlots.lookup peer with
  | none => scheduler
  | some slots => { scheduler with peerSlots := scheduler.peerSlots.insert peer (change slots) }

variable (now : Nat) (peer : PeerId)

/-- Bar a peer from a height it did not deliver. -/
def barFromHeight (height : Nat) : IbdScheduler β :=
  let barred := ((scheduler.heightPeerCooldown.lookup height).getD ∅).insert peer
    (now + peerHeightCooldown)
  { scheduler with heightPeerCooldown := scheduler.heightPeerCooldown.insert height barred }

/-- Count a failure of a peer, once for all those of a short time. -/
def recordFailure (height : Nat) : IbdScheduler β :=
  (scheduler.barFromHeight now peer height).withSlots peer (PeerSlots.countFailure now)

/-- The peer is barred from the height, unless there is no other peer. -/
def isPeerOnCooldown (height : Nat) (peer : PeerId) (now : Nat) : Bool :=
  1 < scheduler.peerSlots.keys.card ∧
    ((scheduler.heightPeerCooldown.lookup height).bind fun barred => barred.lookup peer).any
      fun expiry => now < expiry

def anotherPeerDeliveredWithin (order : List PeerId) (peer : PeerId) (now window : Nat) : Bool :=
  order.any fun other => other ≠ peer ∧
    ((scheduler.peerSlots.lookup other).bind PeerSlots.lastDelivery).any fun delivery =>
      now - delivery ≤ window

def setMaxAhead (maxAhead : Nat) : IbdScheduler β := { scheduler with maxAhead }

/-! ## Handing out -/

/-- Put a height in flight to a peer. -/
def request (height : Nat) : IbdScheduler β :=
  { scheduler with
    inFlight := scheduler.inFlight.insert height peer
    inFlightAt := if height ∈ scheduler.inFlightAt then scheduler.inFlightAt
      else scheduler.inFlightAt.insert height now
    requestedAt := scheduler.requestedAt.insert height now }

end IbdScheduler

/-- What a call has handed out so far: the heights with the hashes asked for, in order. -/
structure Handout (β : Type) where
  scheduler : IbdScheduler β
  taken : List (Nat × β) := []

namespace Handout

variable {β : Type}

def take (now : Nat) (peer : PeerId) (height : Nat) (hash : β) (handout : Handout β) :
    Handout β where
  scheduler := handout.scheduler.request now peer height
  taken := handout.taken ++ [(height, hash)]

/-- The heights just above the cursor, whatever the window says. -/
def fromZone (now : Nat) (peer : PeerId) (budget : Nat) : List Nat → Handout β → Handout β
  | [], handout => handout
  | height :: rest, handout =>
    if budget ≤ handout.taken.length then handout
    else if height ∈ handout.scheduler.downloaded ∨ height ∈ handout.scheduler.inFlight then
      fromZone now peer budget rest handout
    else if handout.scheduler.isPeerOnCooldown height peer now then
      fromZone now peer budget rest handout
    else match handout.scheduler.heightToHash.lookup height with
      | some hash => fromZone now peer budget rest (handout.take now peer height hash)
      | none => fromZone now peer budget rest handout

/-- The pool from its front, no higher than the window. What is left of the pool, the heights
put aside for other peers first. -/
def fromPool (now : Nat) (peer : PeerId) (budget maxHeight : Nat) :
    Nat → List Nat → List Nat → Handout β → Handout β × List Nat
  | _, deferred, [], handout => (handout, deferred)
  | attempts, deferred, height :: rest, handout =>
    let scheduler := handout.scheduler
    if budget ≤ handout.taken.length then (handout, deferred ++ height :: rest)
    else if (height :: rest).length + budget < attempts + 1 then
      (handout, deferred ++ height :: rest)
    else if scheduler.maxAhead ≤
        scheduler.downloaded.card + scheduler.inFlight.keys.card + handout.taken.length then
      (handout, deferred ++ height :: rest)
    else if scheduler.connectCursor + scheduler.maxAhead < height then
      (handout, deferred ++ height :: rest)
    else if height ≤ scheduler.connectCursor ∨ height ∈ scheduler.downloaded then
      fromPool now peer budget maxHeight (attempts + 1) deferred rest handout
    else if height ∈ scheduler.inFlight then
      fromPool now peer budget maxHeight (attempts + 1) deferred rest handout
    else if maxHeight < height ∨ scheduler.isPeerOnCooldown height peer now then
      fromPool now peer budget maxHeight (attempts + 1) (deferred ++ [height]) rest handout
    else match scheduler.heightToHash.lookup height with
      | some hash =>
        fromPool now peer budget maxHeight (attempts + 1) deferred rest
          (handout.take now peer height hash)
      | none => fromPool now peer budget maxHeight (attempts + 1) deferred rest handout

end Handout

/-- More heights for a peer. One that owed nothing starts its clocks. -/
def PeerSlots.assign (now : Nat) (heights : List Nat) (slots : PeerSlots) : PeerSlots :=
  let started := if slots.assigned = [] then
      { slots with
        lastActivity := now
        quietSince := if slots.timedOutSinceDelivery then slots.quietSince else now }
    else slots
  { started with assigned := slots.assigned ++ heights }

namespace IbdScheduler

variable {β : Type} [DecidableEq β] (scheduler : IbdScheduler β) (now : Nat) (peer : PeerId)

/-- Register a peer that is not known yet. -/
def registerPeer : IbdScheduler β :=
  if peer ∈ scheduler.peerSlots then scheduler
  else { scheduler with peerSlots := scheduler.peerSlots.insert peer (.new now) }

/-- The heights for a peer, first from the zone above the cursor and then from the pool, and
what is left of the pool. -/
def handOut (budget maxHeight : Nat) : Handout β × List Nat :=
  let zoneEnd := min (min (scheduler.connectCursor + priorityZone) scheduler.targetHeight) maxHeight
  let zone := Handout.fromZone now peer budget
    (heightsUpTo (scheduler.connectCursor + 1) zoneEnd) { scheduler }
  Handout.fromPool now peer budget maxHeight 0 [] scheduler.pending zone

/-- Hand out heights to a peer, none above the given one: the hashes to ask for. -/
def assignBlocksUpTo (maxHeight : Nat) : IbdScheduler β × List β :=
  let registered := scheduler.registerPeer now peer
  let held := ((registered.peerSlots.lookup peer).elim [] PeerSlots.assigned).length
  if registered.perPeerLimit ≤ held then (registered, [])
  else
    let filled := registered.handOut now peer (registered.perPeerLimit - held) maxHeight
    let handed : IbdScheduler β := { filled.1.scheduler with pending := filled.2 }
    let heights := filled.1.taken.map Prod.fst
    (if heights = [] then handed else handed.withSlots peer (PeerSlots.assign now heights),
      filled.1.taken.map Prod.snd)

/-! ## Deliveries -/

variable (height : Nat)

/-- Take a height out of flight and off the list of the peer that holds it. -/
def takeFromFlight (holder : PeerId) : IbdScheduler β :=
  let landed : IbdScheduler β :=
    { scheduler with
      inFlight := scheduler.inFlight.erase height
      inFlightAt := scheduler.inFlightAt.erase height
      requestedAt := scheduler.requestedAt.erase height }
  landed.withSlots holder (PeerSlots.without height)

/-- The block wanted at the height arrived from the peer it was asked of. -/
def blockArrived (peer : PeerId) (height : Nat) (hash : β) : IbdScheduler β × Bool :=
  if scheduler.heightToHash.lookup height ≠ some hash ∨ scheduler.inFlight.lookup height ≠ some peer
  then (scheduler, false)
  else
    let copies := match scheduler.arrived.lookup height with
      | some (recorded, copies) => if recorded = hash then copies + 1 else 1
      | none => 1
    ({ scheduler with arrived := scheduler.arrived.insert height (hash, copies) }.withSlots peer
      (PeerSlots.creditDelivery now), true)

variable (hash : β)

/-- A copy that arrived could not be stored. -/
def blockStoreFailed : IbdScheduler β :=
  match scheduler.arrived.lookup height with
  | some (recorded, copies) =>
    if recorded = hash then
      { scheduler with arrived :=
          if copies - 1 = 0 then scheduler.arrived.erase height
          else scheduler.arrived.insert height (recorded, copies - 1) }
    else scheduler
  | none => scheduler

/-- Forget the arrival of a block that is stored, and say whether it was recorded. -/
def takeArrival : IbdScheduler β × Bool :=
  if (scheduler.arrived.lookup height).any fun arrival => arrival.1 = hash then
    ({ scheduler with arrived := scheduler.arrived.erase height }, true)
  else (scheduler, false)

/-- The wanted block of a height in flight is stored, whichever peer sent it. -/
def settleHeight (holder : PeerId) : IbdScheduler β :=
  let landed := scheduler.takeFromFlight height holder
  { landed with
    downloaded := if landed.connectCursor < height then insert height landed.downloaded
      else landed.downloaded
    heightPeerCooldown := landed.heightPeerCooldown.erase height }

/-- A block was stored. It counts for the height only if it is the one wanted there and the
height is in flight. -/
def blockReceived (peer : PeerId) (height : Nat) (hash : β) : IbdScheduler β × Bool :=
  let taken := scheduler.takeArrival height hash
  let holder := if taken.1.heightToHash.lookup height = some hash then
      taken.1.inFlight.lookup height
    else none
  let settled := holder.elim taken.1 (taken.1.settleHeight height)
  let credited := if holder = some peer then
      settled.withSlots peer (PeerSlots.received now taken.2)
    else settled
  (credited, (credited.peerSlots.lookup peer).any fun slots =>
    slots.assigned.length < credited.perPeerLimit / 2)

/-! ## Taking back -/

/-- One of the heights a departing peer held. A block in hand stays in flight. -/
def returnHeight : IbdScheduler β :=
  if height ∈ scheduler.arrived then scheduler
  else
    { scheduler with
      inFlight := scheduler.inFlight.erase height
      requestedAt := scheduler.requestedAt.erase height
      pending := height :: scheduler.pending }

/-- Drop a peer from every table of barred peers, and the tables it leaves empty. -/
def forgetBarred (peer : PeerId) (cooldown : Map Nat (Map PeerId Nat)) : Map Nat (Map PeerId Nat) :=
  putAll ∅ (rowsOf (fun height => (cooldown.lookup height).bind fun barred =>
    if barred.erase peer = ∅ then none else some (barred.erase peer)) (ascending cooldown.keys))

def peerDisconnected : IbdScheduler β :=
  let returned := match scheduler.peerSlots.lookup peer with
    | none => scheduler
    | some slots =>
      slots.assigned.foldl returnHeight
        { scheduler with peerSlots := scheduler.peerSlots.erase peer }
  { returned with heightPeerCooldown := forgetBarred peer returned.heightPeerCooldown }

/-- The peer that has gone longest without delivering, past its time. -/
def takeStalledPeer (order : List PeerId) : IbdScheduler β × Option PeerId :=
  let stalled := order.filter fun peer => (scheduler.peerSlots.lookup peer).any fun slots =>
    (slots.assigned.any fun height => height ∉ scheduler.arrived) ∧
      (quietDownloadTimeout < now - slots.quietSince ∨
        scheduler.stallTimeout < now - slots.lastActivity ∧
          scheduler.anotherPeerDeliveredWithin order peer now scheduler.stallTimeout)
  match stalled.argmin fun peer =>
      (scheduler.peerSlots.lookup peer).elim 0 PeerSlots.lastActivity with
  | none => (scheduler, none)
  | some peer =>
    let left := scheduler.peerDisconnected peer
    ({ left with stallTimeout := min (left.stallTimeout * 2) stallTimeoutMax }, some peer)

/-- A height that is taken back from its holder: whether the holder's own time ran out, and
whether that is counted against it. -/
structure Stale where
  height : Nat
  holder : PeerId
  timedOut : Bool
  failed : Bool

/-- The heights in flight that wait too long. -/
def staleHeights (timeout nearCursorTimeout : Nat) (order : List Nat) (peers : List PeerId) :
    List Stale :=
  order.filterMap fun height => (scheduler.inFlight.lookup height).bind fun holder =>
    if height ∈ scheduler.arrived then none
    else
      let limit := if scheduler.connectCursor < height ∧ height ≤ scheduler.connectCursor + 10 then
          nearCursorTimeout
        else timeout
      let past (since : Option Nat) (limit : Nat) : Bool := since.any fun start =>
        limit < now - start
      let timedOut := past (scheduler.requestedAt.lookup height) limit
      let failed := timedOut && scheduler.anotherPeerDeliveredWithin peers holder now limit
      if timedOut || past (scheduler.inFlightAt.lookup height) timeout then
        some ⟨height, holder, timedOut, failed⟩
      else none

/-- Take one of them back. -/
def releaseStale (scheduler : IbdScheduler β) (stale : Stale) : IbdScheduler β :=
  let landed := scheduler.takeFromFlight stale.height stale.holder
  let pooled : IbdScheduler β := { landed with pending := stale.height :: landed.pending }
  let judged := if stale.failed then pooled.recordFailure now stale.holder stale.height
    else if stale.timedOut then pooled.barFromHeight now stale.holder stale.height
    else pooled
  if stale.timedOut then
    judged.withSlots stale.holder fun slots => { slots with timedOutSinceDelivery := true }
  else judged

def releaseStaleInflight (timeout nearCursorTimeout : Nat) (order : List Nat)
    (peers : List PeerId) : IbdScheduler β × Nat :=
  let stale := scheduler.staleHeights now timeout nearCursorTimeout order peers
  (stale.foldl (releaseStale now) scheduler, stale.length)

/-- The peer does not have the block. -/
def releaseHeight (height : Nat) (owner : PeerId) : IbdScheduler β × Bool :=
  if scheduler.inFlight.lookup height ≠ some owner ∨ height ∈ scheduler.arrived then
    (scheduler, false)
  else
    let landed := scheduler.takeFromFlight height owner
    ({ landed with pending := height :: landed.pending }.recordFailure now owner height, true)

/-! ## The cursor, the target and the rows -/

/-- Blocks up to the new tip are connected. The stall timeout relaxes by the given function. -/
def connectCursorAdvanced (relax : Nat → Nat) (newTip : Nat) : IbdScheduler β :=
  { scheduler with
    stallTimeout := if scheduler.connectCursor < newTip then
        max (relax scheduler.stallTimeout) stallTimeoutBase
      else scheduler.stallTimeout
    connectCursor := newTip
    downloaded := scheduler.downloaded.filter fun height => newTip < height
    heightPeerCooldown := putAll ∅ (rowsOf (fun height =>
      if newTip < height then scheduler.heightPeerCooldown.lookup height else none)
      (ascending scheduler.heightPeerCooldown.keys)) }

/-- A block found stored at the start. -/
def markDownloaded : IbdScheduler β :=
  { scheduler with
    downloaded := insert height scheduler.downloaded
    inFlight := scheduler.inFlight.erase height
    arrived := scheduler.arrived.erase height
    inFlightAt := scheduler.inFlightAt.erase height
    requestedAt := scheduler.requestedAt.erase height
    heightPeerCooldown := scheduler.heightPeerCooldown.erase height }

/-- Take a height out of flight without judging the peer that held it, and say whether it was
in flight. -/
def releaseFromFlight : IbdScheduler β × Bool :=
  match scheduler.inFlight.lookup height with
  | none => (scheduler, false)
  | some holder =>
    ({ scheduler.takeFromFlight height holder with arrived := scheduler.arrived.erase height },
      true)

/-- What a change of the rows has done so far: the heights put back in the pool and the rows
dropped are counted. -/
structure RowChanges (β : Type) where
  scheduler : IbdScheduler β
  requeued : Nat := 0
  dropped : Nat := 0

/-- The row of a height names another block. What was asked for or stored is not it. -/
def rekeyRow : IbdScheduler β × Bool :=
  let rekeyed : IbdScheduler β :=
    { scheduler with
      heightToHash := scheduler.heightToHash.insert height hash
      downloaded := scheduler.downloaded.erase height }
  let released := rekeyed.releaseFromFlight height
  let cooled : IbdScheduler β :=
    { released.1 with heightPeerCooldown := released.1.heightPeerCooldown.erase height }
  if (height ∈ scheduler.downloaded ∨ released.2) ∧ height ≤ cooled.targetHeight then
    ({ cooled with pending := height :: cooled.pending }, true)
  else (cooled, false)

/-- A height has no row any more. -/
def dropRow : IbdScheduler β :=
  let dropped : IbdScheduler β :=
    { scheduler with
      heightToHash := scheduler.heightToHash.erase height
      downloaded := scheduler.downloaded.erase height }
  let released := (dropped.releaseFromFlight height).1
  { released with heightPeerCooldown := released.heightPeerCooldown.erase height }

/-- One row above the cursor changed. -/
def changeRow (changes : RowChanges β) : Nat × Option β → RowChanges β
  | (height, row) =>
    if height ≤ changes.scheduler.connectCursor then changes
    else match row with
      | some hash =>
        if changes.scheduler.heightToHash.lookup height = some hash then changes
        else
          let rekeyed := changes.scheduler.rekeyRow height hash
          { changes with
            scheduler := rekeyed.1
            requeued := if rekeyed.2 then changes.requeued + 1 else changes.requeued }
      | none =>
        { changes with
          scheduler := changes.scheduler.dropRow height
          dropped := if height ∈ changes.scheduler.heightToHash then changes.dropped + 1
            else changes.dropped }

/-- Follow a change of the rows. The target falls with the best header. -/
def headerRowsChanged (changes : List (Nat × Option β)) (bestHeaderHeight : Nat) :
    IbdScheduler β × Nat × Nat :=
  let changed := changes.foldl changeRow { scheduler }
  let lowered : IbdScheduler β :=
    { changed.scheduler with
      targetHeight := if bestHeaderHeight < changed.scheduler.targetHeight then
          max bestHeaderHeight changed.scheduler.connectCursor
        else changed.scheduler.targetHeight }
  (lowered, changed.requeued, changed.dropped)

/-- More headers arrived. -/
def extendTarget (newTarget : Nat) (rows : Nat → Option β) : IbdScheduler β :=
  if newTarget ≤ scheduler.targetHeight then scheduler
  else
    let heights := heightsUpTo (scheduler.targetHeight + 1) newTarget
    { scheduler with
      targetHeight := newTarget
      heightToHash := readRows rows heights scheduler.heightToHash
      pending := scheduler.pending ++ heights }

end IbdScheduler

/-! ## Calls -/

/-- The calls of the scheduler that change it. Those that read the clock come with the time,
those that walk a table with the order they walk it in. -/
inductive SchedulerCall (β : Type) where
  | registerPeer (now : Nat) (peer : PeerId)
  | assignBlocksUpTo (now : Nat) (peer : PeerId) (maxHeight : Nat)
  | blockArrived (now : Nat) (peer : PeerId) (height : Nat) (hash : β)
  | blockReceived (now : Nat) (peer : PeerId) (height : Nat) (hash : β)
  | blockStoreFailed (height : Nat) (hash : β)
  | peerDisconnected (peer : PeerId)
  | takeStalledPeer (now : Nat) (order : List PeerId)
  | releaseStaleInflight (now timeout nearCursorTimeout : Nat) (order : List Nat)
      (peers : List PeerId)
  | releaseHeight (now height : Nat) (owner : PeerId)
  | connectCursorAdvanced (relax : Nat → Nat) (newTip : Nat)
  | setMaxAhead (maxAhead : Nat)
  | markDownloaded (height : Nat)
  | headerRowsChanged (changes : List (Nat × Option β)) (bestHeaderHeight : Nat)
  | extendTarget (newTarget : Nat) (rows : Nat → Option β)

/-- Make a call. -/
def IbdScheduler.step {β : Type} [DecidableEq β] (scheduler : IbdScheduler β) :
    SchedulerCall β → IbdScheduler β
  | .registerPeer now peer => scheduler.registerPeer now peer
  | .assignBlocksUpTo now peer maxHeight => (scheduler.assignBlocksUpTo now peer maxHeight).1
  | .blockArrived now peer height hash => (scheduler.blockArrived now peer height hash).1
  | .blockReceived now peer height hash => (scheduler.blockReceived now peer height hash).1
  | .blockStoreFailed height hash => scheduler.blockStoreFailed height hash
  | .peerDisconnected peer => scheduler.peerDisconnected peer
  | .takeStalledPeer now order => (scheduler.takeStalledPeer now order).1
  | .releaseStaleInflight now timeout nearCursorTimeout order peers =>
    (scheduler.releaseStaleInflight now timeout nearCursorTimeout order peers).1
  | .releaseHeight now height owner => (scheduler.releaseHeight now height owner).1
  | .connectCursorAdvanced relax newTip => scheduler.connectCursorAdvanced relax newTip
  | .setMaxAhead maxAhead => scheduler.setMaxAhead maxAhead
  | .markDownloaded height => scheduler.markDownloaded height
  | .headerRowsChanged changes bestHeaderHeight =>
    (scheduler.headerRowsChanged changes bestHeaderHeight).1
  | .extendTarget newTarget rows => scheduler.extendTarget newTarget rows

end Satd.Net
