import Satd.Lib.KeyedMap

/-!
# Transaction download scheduling

`TxRequestTracker` records which peer announced which transaction and decides
whom to ask for it. Every announcement, one for a peer and a transaction hash,
is a candidate that waits for its request time, the one candidate that would be
asked now, a request that waits for its expiry, or completed. Beside the
announcements the tracker keeps indexes by time and by peer.

A counter that would drop below zero and an announcement whose peer is not
indexed are panics in the source; an operation that panics returns nothing here.
The hash type is a variable, since nothing of it matters but its order, and so
is the salted hash from which the tracker computes priorities.
-/

namespace Satd.Net

open KeyedMap

abbrev PeerId := Nat

/-- A transaction identifier as announced: by txid or by wtxid. -/
inductive GenTxid (τ : Type) where
  | txid (hash : τ)
  | wtxid (hash : τ)
  deriving DecidableEq, Repr

/-- The hash the tracker keys on. -/
def GenTxid.hash {τ : Type} : GenTxid τ → τ
  | txid hash => hash
  | wtxid hash => hash

def GenTxid.isWtxid {τ : Type} : GenTxid τ → Bool
  | txid _ => false
  | wtxid _ => true

/-- What the announcement policy needs to know about the announcing peer. -/
structure AnnouncerInfo where
  preferred : Bool := false
  relayPermission : Bool := false

inductive RequestState where
  | delayed | ready | best | requested | completed
  deriving DecidableEq, Repr

namespace RequestState

def isCandidate : RequestState → Bool
  | delayed | ready | best => true
  | requested | completed => false

/-- The states indexed by a time that is still to come. -/
def isTimed : RequestState → Bool
  | delayed | requested => true
  | ready | best | completed => false

/-- The states of a candidate whose time has come. -/
def isDue : RequestState → Bool
  | ready | best => true
  | delayed | requested | completed => false

end RequestState

structure Announcement (τ : Type) where
  peer : PeerId
  gtxid : GenTxid τ
  /-- Request time of a candidate, expiry of a request. -/
  time : Nat
  priority : Nat
  /-- Announcement order. -/
  seq : Nat
  state : RequestState
  deriving DecidableEq

/-- The announcements of one peer. -/
structure PeerAnnouncements (τ : Type) where
  all : Map Nat τ := ∅
  /-- Its best announcements: what may be requested from it now. -/
  best : Map Nat τ := ∅
  /-- How many are requested. -/
  requested : Nat := 0

/-- A place in an index by time. -/
structure Deadline (τ : Type) where
  time : Nat
  hash : τ
  peer : PeerId
  deriving DecidableEq

section Order

variable {τ : Type} [LinearOrder τ]

omit [LinearOrder τ] in
theorem Deadline.toLex_injective : Function.Injective fun deadline : Deadline τ =>
    toLex (deadline.time, toLex (deadline.hash, deadline.peer)) := by
  rintro ⟨time, hash, peer⟩ ⟨time', hash', peer'⟩ same
  have parts := toLex.injective same
  obtain ⟨sameTime, sameRest⟩ := Prod.mk.inj parts
  obtain ⟨sameHash, samePeer⟩ := Prod.mk.inj (toLex.injective sameRest)
  cases sameTime
  cases sameHash
  cases samePeer
  rfl

/-- By time, then by hash, then by peer. -/
instance : LinearOrder (Deadline τ) :=
  .lift' (fun deadline => toLex (deadline.time, toLex (deadline.hash, deadline.peer)))
    Deadline.toLex_injective

theorem Deadline.time_le_of_le {first second : Deadline τ} (before : first ≤ second) :
    first.time ≤ second.time :=
  Prod.Lex.monotone_fst _ _ before

end Order

structure TxRequestTracker (τ : Type) where
  txs : Map τ (List (Announcement τ)) := ∅
  peers : Map PeerId (PeerAnnouncements τ) := ∅
  /-- Delayed candidates by request time and requests by expiry. -/
  timeline : Finset (Deadline τ) := ∅
  /-- Ready and best candidates by request time. -/
  ready : Finset (Deadline τ) := ∅
  nextSeq : Nat := 0
  /-- The salted hash of a transaction hash and a peer. -/
  siphash : τ → PeerId → UInt64

/-! ## Limits and delays -/

def second : Nat := 1_000_000

def maxPeerTxRequestInFlight : Nat := 100

def maxPeerTxAnnouncements : Nat := 5_000

def txidRelayDelay : Nat := 2 * second

def nonprefPeerTxDelay : Nat := 2 * second

def overloadedPeerTxDelay : Nat := 2 * second

def maxTime : Nat := 2 ^ 64 - 1

/-- An addition of times that stops at the greatest one. -/
def saturatingAdd (time delay : Nat) : Nat := min (time + delay) maxTime

namespace PeerAnnouncements

variable {τ : Type}

/-- One request less; a panic if there is none. -/
def release (announcements : PeerAnnouncements τ) : Option (PeerAnnouncements τ) :=
  if announcements.requested = 0 then none
  else some { announcements with requested := announcements.requested - 1 }

/-- One request less if the announcement was requested. -/
def releaseIf (state : RequestState) (announcements : PeerAnnouncements τ) :
    Option (PeerAnnouncements τ) :=
  if state = .requested then announcements.release else some announcements

/-- The hashes of a map by sequence, in order. -/
def inOrder (hashes : Map Nat τ) : List τ := (hashes.keys.sort (· ≤ ·)).filterMap hashes.lookup

end PeerAnnouncements

/-- Change the announcements of a peer, if it is indexed. -/
def editPeer {τ : Type} (peer : PeerId)
    (edit : PeerAnnouncements τ → Option (PeerAnnouncements τ))
    (peers : Map PeerId (PeerAnnouncements τ)) : Option (Map PeerId (PeerAnnouncements τ)) :=
  match peers.lookup peer with
  | none => some peers
  | some announcements => (edit announcements).map fun edited => peers.insert peer edited

/-- Change the announcements of a peer, if it is indexed, in a way that cannot
fail. -/
def touchPeer {τ : Type} (peer : PeerId) (edit : PeerAnnouncements τ → PeerAnnouncements τ)
    (peers : Map PeerId (PeerAnnouncements τ)) : Map PeerId (PeerAnnouncements τ) :=
  match peers.lookup peer with
  | none => peers
  | some announcements => peers.insert peer (edit announcements)

variable (tracker : TxRequestTracker τ)

namespace TxRequestTracker

variable {τ : Type} [LinearOrder τ]

/-- A preferred peer in the top bit, the salted hash below it. -/
def priority (tracker : TxRequestTracker τ) (hash : τ) (peer : PeerId) (preferred : Bool) : Nat :=
  ((tracker.siphash hash peer >>> 1) ||| (if preferred then (1 : UInt64) <<< 63 else 0)).toNat

variable (peer : PeerId)

/-- Requests outstanding to a peer. -/
def countInFlight : Nat := ((tracker.peers.lookup peer).map PeerAnnouncements.requested).getD 0

/-- Announcements of a peer in any state. -/
def count : Nat :=
  ((tracker.peers.lookup peer).map fun announcements => announcements.all.keys.card).getD 0

/-! ## Indexes and the choice of the best candidate -/

variable (hash : τ)

/-- Remove an announcement from whichever time index holds it. -/
def unindex (announcement : Announcement τ) (tracker : TxRequestTracker τ) : TxRequestTracker τ :=
  let deadline : Deadline τ := ⟨announcement.time, hash, announcement.peer⟩
  match announcement.state with
  | .delayed | .requested => { tracker with timeline := tracker.timeline.erase deadline }
  | .ready | .best => { tracker with ready := tracker.ready.erase deadline }
  | .completed => tracker

/-- Drop an announcement of a forgotten hash from the indexes. A peer without
announcements is dropped too. -/
def forgetAnnouncement (tracker : TxRequestTracker τ) (announcement : Announcement τ) :
    Option (TxRequestTracker τ) :=
  let unindexed := tracker.unindex hash announcement
  match unindexed.peers.lookup announcement.peer with
  | none => some unindexed
  | some announcements =>
    let remaining := { announcements with
      all := announcements.all.erase announcement.seq
      best := announcements.best.erase announcement.seq }
    (remaining.releaseIf announcement.state).map fun released =>
      { unindexed with peers :=
          if released.all.keys = ∅ then unindexed.peers.erase announcement.peer
          else unindexed.peers.insert announcement.peer released }

/-- Drop every announcement of a hash. -/
def forgetTxHash (tracker : TxRequestTracker τ) : Option (TxRequestTracker τ) :=
  match tracker.txs.lookup hash with
  | none => some tracker
  | some announcements =>
    announcements.foldlM (forgetAnnouncement hash) { tracker with txs := tracker.txs.erase hash }

/-- The first of two due candidates is preferred: by priority, and among equals
the one announced earlier. -/
def outranks (first other : Announcement τ) : Bool :=
  other.priority < first.priority || (first.priority == other.priority && first.seq < other.seq)

/-- The due candidate that outranks the others, with its position. -/
def highest : List (Announcement τ × Nat) → Option (Announcement τ × Nat)
  | [] => none
  | first :: rest =>
    match highest rest with
    | none => some first
    | some other => if outranks first.1 other.1 then some first else some other

/-- The position of the candidate to be requested, if no request is outstanding. -/
def winner (announcements : List (Announcement τ)) : Option Nat :=
  if announcements.any fun announcement => announcement.state == .requested then none
  else (highest (announcements.zipIdx.filter fun placed => placed.1.state.isDue)).map Prod.snd

/-- Make the winner best and any other best candidate ready. -/
def selectAll (hash : τ) (winner : Option Nat) :
    List (Announcement τ × Nat) → Map PeerId (PeerAnnouncements τ) →
      List (Announcement τ) × Map PeerId (PeerAnnouncements τ)
  | [], peers => ([], peers)
  | (announcement, position) :: rest, peers =>
    let (selected, edited) :=
      if winner = some position then
        if announcement.state = .best then (announcement, peers)
        else ({ announcement with state := .best },
          touchPeer announcement.peer (fun known =>
            { known with best := known.best.insert announcement.seq hash }) peers)
      else if announcement.state = .best then
        ({ announcement with state := .ready },
          touchPeer announcement.peer (fun known =>
            { known with best := known.best.erase announcement.seq }) peers)
      else (announcement, peers)
    let (others, after) := selectAll hash winner rest edited
    (selected :: others, after)

/-- Choose the best candidate of a hash anew, and forget a hash that has only
completed announcements. -/
def reselect (tracker : TxRequestTracker τ) : Option (TxRequestTracker τ) :=
  match tracker.txs.lookup hash with
  | none => some tracker
  | some announcements =>
    if announcements.all fun announcement => announcement.state == .completed then
      tracker.forgetTxHash hash
    else
      let (selected, peers) :=
        selectAll hash (winner announcements) announcements.zipIdx tracker.peers
      some { tracker with txs := tracker.txs.insert hash selected, peers }

/-! ## Announcements -/

/-- The delay of a new announcement. -/
def announcementDelay (byTxid : Bool) (info : AnnouncerInfo) (wtxidPeers : Nat) : Nat :=
  (if !info.preferred then nonprefPeerTxDelay else 0) +
    (if byTxid && 0 < wtxidPeers then txidRelayDelay else 0) +
    (if !info.relayPermission && maxPeerTxRequestInFlight ≤ tracker.countInFlight peer then
      overloadedPeerTxDelay
    else 0)

/-- A new delayed candidate, unless the peer already has an announcement for the
hash in any state. The second component says whether it was recorded. -/
def receivedInv (gtxid : GenTxid τ) (preferred : Bool) (reqtime : Nat)
    (tracker : TxRequestTracker τ) : TxRequestTracker τ × Bool :=
  let hash := gtxid.hash
  let announcements := (tracker.txs.lookup hash).getD []
  if announcements.any fun announcement => announcement.peer == peer then (tracker, false)
  else
    let seq := tracker.nextSeq
    let announcement : Announcement τ :=
      ⟨peer, gtxid, reqtime, tracker.priority hash peer preferred, seq, .delayed⟩
    let known := (tracker.peers.lookup peer).getD {}
    ({ tracker with
        nextSeq := seq + 1
        txs := tracker.txs.insert hash (announcements ++ [announcement])
        peers := tracker.peers.insert peer { known with all := known.all.insert seq hash }
        timeline := insert ⟨reqtime, hash, peer⟩ tracker.timeline },
      true)

/-- Record an announcement with the delays that apply, unless the peer has too
many. -/
def addAnnouncement (gtxid : GenTxid τ) (info : AnnouncerInfo) (wtxidPeers : Nat) (now : Nat)
    (tracker : TxRequestTracker τ) : TxRequestTracker τ × Bool :=
  if !info.relayPermission && maxPeerTxAnnouncements ≤ tracker.count peer then (tracker, false)
  else
    let delay := tracker.announcementDelay peer (!gtxid.isWtxid) info wtxidPeers
    tracker.receivedInv peer gtxid info.preferred (saturatingAdd now delay)

/-- Treat a peer as having announced every missing parent of an orphan, by txid. -/
def addOrphanResolutionCandidate (parents : List τ) (info : AnnouncerInfo) (wtxidPeers : Nat)
    (now : Nat) (tracker : TxRequestTracker τ) : TxRequestTracker τ × Bool :=
  if !info.relayPermission && maxPeerTxAnnouncements < tracker.count peer + parents.length then
    (tracker, false)
  else
    let delay := tracker.announcementDelay peer true info wtxidPeers
    (parents.foldl (fun tracker parent =>
      (tracker.receivedInv peer (.txid parent) info.preferred (saturatingAdd now delay)).1) tracker,
      true)

/-! ## Requests and replies -/

/-- Complete every outstanding request but the one at a position. -/
def completeOthers (hash : τ) (position : Nat) :
    List (Announcement τ × Nat) → TxRequestTracker τ →
      Option (List (Announcement τ) × TxRequestTracker τ)
  | [], tracker => some ([], tracker)
  | (announcement, place) :: rest, tracker =>
    if place ≠ position ∧ announcement.state = .requested then do
      let unindexed := tracker.unindex hash announcement
      let peers ← editPeer announcement.peer PeerAnnouncements.release unindexed.peers
      let (others, after) ← completeOthers hash position rest { unindexed with peers }
      some ({ announcement with state := .completed } :: others, after)
    else do
      let (others, after) ← completeOthers hash position rest tracker
      some (announcement :: others, after)

/-- The candidate of a peer is requested until an expiry. Any other outstanding
request for the hash is completed. -/
def requestedTx (hash : τ) (expiry : Nat) (tracker : TxRequestTracker τ) :
    Option (TxRequestTracker τ) :=
  match tracker.txs.lookup hash with
  | none => some tracker
  | some announcements =>
    match announcements.findIdx? fun announcement =>
      announcement.peer == peer && announcement.state.isCandidate with
    | none => some tracker
    | some position => do
      let (others, completed) ← completeOthers hash position announcements.zipIdx tracker
      let announcement ← others[position]?
      let unindexed := completed.unindex hash announcement
      let known ← unindexed.peers.lookup peer
      reselect hash { unindexed with
        peers := unindexed.peers.insert peer { known with
          best := known.best.erase announcement.seq
          requested := known.requested + 1 }
        txs := unindexed.txs.insert hash
          (others.set position { announcement with state := .requested, time := expiry })
        timeline := insert ⟨expiry, hash, peer⟩ unindexed.timeline }

/-- A peer answered for a hash: its candidate or request is completed. -/
def receivedResponse (hash : τ) (tracker : TxRequestTracker τ) : Option (TxRequestTracker τ) :=
  match tracker.txs.lookup hash with
  | none => some tracker
  | some announcements =>
    match announcements.findIdx? fun announcement =>
      announcement.peer == peer && announcement.state != .completed with
    | none => some tracker
    | some position => do
      let announcement ← announcements[position]?
      let unindexed := tracker.unindex hash announcement
      let peers ← editPeer peer (fun known =>
        { known with best := known.best.erase announcement.seq }.releaseIf announcement.state)
        unindexed.peers
      reselect hash { unindexed with
        peers
        txs := unindexed.txs.insert hash
          (announcements.set position { announcement with state := .completed }) }

/-- A list without the element at a position, whose place the last one takes. -/
def swapRemove {α : Type} (items : List α) (position : Nat) : List α :=
  match items.getLast? with
  | none => items
  | some last => (items.set position last).dropLast

/-- Drop the announcement of a disconnected peer for one hash. -/
def dropAnnouncement (tracker : TxRequestTracker τ) (hash : τ) : Option (TxRequestTracker τ) :=
  match tracker.txs.lookup hash with
  | none => some tracker
  | some announcements =>
    match announcements.findIdx? fun announcement => announcement.peer == peer with
    | none => tracker.reselect hash
    | some position => do
      let announcement ← announcements[position]?
      reselect hash { tracker.unindex hash announcement with
        txs := tracker.txs.insert hash (swapRemove announcements position) }

/-- Forget every announcement of a peer. -/
def disconnectedPeer (tracker : TxRequestTracker τ) : Option (TxRequestTracker τ) :=
  match tracker.peers.lookup peer with
  | none => some tracker
  | some known =>
    (PeerAnnouncements.inOrder known.all).foldlM (dropAnnouncement peer)
      { tracker with peers := tracker.peers.erase peer }

/-! ## Time -/

/-- The announcement of a peer in a list takes a state. -/
def setState (state : RequestState) (announcements : List (Announcement τ)) :
    List (Announcement τ) :=
  match announcements.findIdx? fun announcement => announcement.peer == peer with
  | none => announcements
  | some position => announcements.modify position fun announcement => { announcement with state }

/-- Promote candidates whose time came and complete requests whose time ran out.
The loop ends when the first deadline is still to come; it takes a step more
than there are deadlines. -/
def passTime : Nat → Nat → TxRequestTracker τ → List (PeerId × GenTxid τ) →
    Option (TxRequestTracker τ × List (PeerId × GenTxid τ))
  | 0, _, _, _ => none
  | steps + 1, now, tracker, expired =>
    match tracker.timeline.min with
    | none => some (tracker, expired)
    | some deadline =>
      if now < deadline.time then some (tracker, expired)
      else
        let popped := { tracker with timeline := tracker.timeline.erase deadline }
        let announcements := (popped.txs.lookup deadline.hash).getD []
        match announcements.find? fun announcement => announcement.peer == deadline.peer with
        | none => passTime steps now popped expired
        | some announcement =>
          match announcement.state with
          | .delayed => do
            let promoted ← reselect deadline.hash { popped with
              txs := popped.txs.insert deadline.hash (setState deadline.peer .ready announcements)
              ready := insert deadline popped.ready }
            passTime steps now promoted expired
          | .requested => do
            let peers ← editPeer deadline.peer PeerAnnouncements.release popped.peers
            let completed ← reselect deadline.hash { popped with
              txs := popped.txs.insert deadline.hash
                (setState deadline.peer .completed announcements)
              peers }
            passTime steps now completed (expired ++ [(deadline.peer, announcement.gtxid)])
          | _ => passTime steps now popped expired

/-- Delay again the candidates that are no longer due. -/
def turnBack : Nat → Nat → TxRequestTracker τ → Option (TxRequestTracker τ)
  | 0, _, _ => none
  | steps + 1, now, tracker =>
    match tracker.ready.max with
    | none => some tracker
    | some deadline =>
      if deadline.time ≤ now then some tracker
      else
        let popped := { tracker with ready := tracker.ready.erase deadline }
        let announcements := (popped.txs.lookup deadline.hash).getD []
        match announcements.find? fun announcement => announcement.peer == deadline.peer with
        | none => turnBack steps now popped
        | some announcement => do
          let peers := if announcement.state = .best then
              touchPeer deadline.peer (fun known =>
                { known with best := known.best.erase announcement.seq }) popped.peers
            else popped.peers
          let delayed ← reselect deadline.hash { popped with
            txs := popped.txs.insert deadline.hash (setState deadline.peer .delayed announcements)
            peers
            timeline := insert deadline popped.timeline }
          turnBack steps now delayed

def setTimePoint (now : Nat) (tracker : TxRequestTracker τ) :
    Option (TxRequestTracker τ × List (PeerId × GenTxid τ)) := do
  let (passed, expired) ← passTime (tracker.timeline.card + 1) now tracker []
  let turned ← turnBack (passed.ready.card + 1) now passed
  some (turned, expired)

/-- Advance to a time, then say what to ask a peer for, in announcement order. -/
def getRequestable (now : Nat) (tracker : TxRequestTracker τ) :
    Option (TxRequestTracker τ × List (GenTxid τ) × List (PeerId × GenTxid τ)) := do
  let (timed, expired) ← tracker.setTimePoint now
  match timed.peers.lookup peer with
  | none => some (timed, [], expired)
  | some known =>
    let selected := (PeerAnnouncements.inOrder known.best).filterMap fun hash => do
      let announcements ← timed.txs.lookup hash
      let announcement ← announcements.find? fun announcement => announcement.peer == peer
      some announcement.gtxid
    some (timed, selected, expired)

end TxRequestTracker

end Satd.Net
