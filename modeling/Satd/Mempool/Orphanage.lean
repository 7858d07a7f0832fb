import Satd.Bitcoin.Types
import Satd.Lib.InvertedIndex

/-!
# The orphan pool

`TxOrphanage` holds transactions whose parents are not known yet, each with the
peers that sent or announced it. Beside the orphans it keeps indexes by txid, by
missing parent and by spent outpoint, and what every peer's announcements cost.
Past either of two global limits the peer with the highest score loses its oldest
announcements.

A running total that would drop below zero is a panic in the source; a call that
panics returns nothing here. Trimming also says which announcements it dropped,
with what the peer's announcements cost at that moment: the source keeps no such
record, and nothing reads it here either. Totals are naturals: they, and the peers times
`reserved_peer_usage`, are taken to stay below `2 ^ 64`.
-/

namespace Satd.Bitcoin

/-- The weight of a transaction: a byte outside the witnesses counts four times. -/
def Transaction.weight (tx : Transaction) : Nat := 3 * tx.baseSize + tx.totalSize

end Satd.Bitcoin

namespace Satd.Mempool

open KeyedMap InvertedIndex Satd.Bitcoin

abbrev PeerId := Nat

def maxStandardTxWeight : Nat := 400_000

structure OrphanageConfig where
  maxGlobalLatencyScore : Nat := 3_000
  reservedPeerUsage : Nat := 404_000

inductive OrphanReject where
  | tooLarge | noMissingParents
  deriving DecidableEq, Repr

inductive AddOutcome where
  | added | duplicate
  deriving DecidableEq, Repr

structure OrphanEntry where
  tx : Transaction
  txid : Txid
  wtxid : Wtxid
  /-- The parents it still waits for. -/
  missingParents : Finset Txid
  /-- Each peer that sent or announced it, with the number of that announcement. -/
  announcers : Map PeerId Nat
  bytes : Nat
  weight : Nat

/-- One for every ten inputs. -/
def inputScore (tx : Transaction) : Nat := tx.input.length / 10

/-- What each announcement of an orphan counts for. -/
def OrphanEntry.latencyScore (entry : OrphanEntry) : Nat := 1 + inputScore entry.tx

/-- The outpoints an orphan spends, in the order of its inputs. -/
def OrphanEntry.outpoints (entry : OrphanEntry) : List OutPoint :=
  entry.tx.input.map TxIn.previousOutput

/-- What the announcements of one peer cost, and the announcements by number. -/
structure PeerUsage where
  weight : Nat := 0
  latencyScore : Nat := 0
  announcements : Map Nat Wtxid := ∅

/-- A ratio ordered by value, and between equal values the one with the smaller
denominator is greater. -/
structure DosScore where
  num : Nat
  den : Nat
  deriving DecidableEq, Repr

namespace DosScore

def one : DosScore := ⟨1, 1⟩

/-- Strictly greater by value alone. -/
def exceeds (score other : DosScore) : Bool := other.num * score.den < score.num * other.den

/-- Greater in the order of scores. -/
def above (score other : DosScore) : Bool :=
  other.num * score.den < score.num * other.den ||
    (score.num * other.den == other.num * score.den && score.den < other.den)

/-- The greater of two scores. -/
def max (first second : DosScore) : DosScore := if first.above second then first else second

end DosScore

structure OrphanageInner where
  byWtxid : Map Wtxid OrphanEntry := ∅
  byTxid : Index Txid Wtxid := ∅
  byParent : Index Txid Wtxid := ∅
  byOutpoint : Index OutPoint Wtxid := ∅
  /-- Every peer with an announcement. -/
  peers : Map PeerId PeerUsage := ∅
  announcements : Nat := 0
  /-- The weight of the orphans, each counted once. -/
  uniqueWeight : Nat := 0
  uniqueBytes : Nat := 0
  uniqueInputScore : Nat := 0
  nextSeq : Nat := 0

/-- A difference of running totals; a panic below zero. -/
def takeAway (amount total : Nat) : Option Nat :=
  if amount ≤ total then some (total - amount) else none

variable (config : OrphanageConfig) (inner : OrphanageInner)

namespace OrphanageInner

/-! ## Announcements -/

variable (wtxid : Wtxid)

/-- Add an announcement. The second component is false when the orphan is not held
or the announcement exists. -/
def announce (peer : PeerId) (inner : OrphanageInner) : OrphanageInner × Bool :=
  match inner.byWtxid.lookup wtxid with
  | none => (inner, false)
  | some entry =>
    if peer ∈ entry.announcers then (inner, false)
    else
      let seq := inner.nextSeq
      let usage := (inner.peers.lookup peer).getD {}
      ({ inner with
          byWtxid := inner.byWtxid.insert wtxid
            { entry with announcers := entry.announcers.insert peer seq }
          nextSeq := inner.nextSeq + 1
          announcements := inner.announcements + 1
          peers := inner.peers.insert peer
            { weight := usage.weight + entry.weight
              latencyScore := usage.latencyScore + entry.latencyScore
              announcements := usage.announcements.insert seq wtxid } },
        true)

/-- Take out an orphan whose last announcement has gone. -/
def removeUnannounced (inner : OrphanageInner) : Option OrphanageInner :=
  match inner.byWtxid.lookup wtxid with
  | none => some inner
  | some entry => do
    let uniqueWeight ← takeAway entry.weight inner.uniqueWeight
    let uniqueBytes ← takeAway entry.bytes inner.uniqueBytes
    let uniqueInputScore ← takeAway (inputScore entry.tx) inner.uniqueInputScore
    some { inner with
      byWtxid := inner.byWtxid.erase wtxid
      uniqueWeight
      uniqueBytes
      uniqueInputScore
      byTxid := drop wtxid inner.byTxid entry.txid
      byParent := dropAll wtxid (entry.missingParents.sort (· ≤ ·)) inner.byParent
      byOutpoint := dropAll wtxid entry.outpoints inner.byOutpoint }

/-- What is left of a peer's usage after it lost an announcement. A peer with no
announcement is not tracked. -/
def dropUsage (entry : OrphanEntry) (seq : Nat) (peer : PeerId) (peers : Map PeerId PeerUsage) :
    Option (Map PeerId PeerUsage) :=
  match peers.lookup peer with
  | none => some peers
  | some usage => do
    let weight ← takeAway entry.weight usage.weight
    let latencyScore ← takeAway entry.latencyScore usage.latencyScore
    let announcements := usage.announcements.erase seq
    some (if announcements.keys = ∅ then peers.erase peer
      else peers.insert peer { weight, latencyScore, announcements })

/-- Remove an announcement, and the orphan with it if it was the last. The second
component is true when the orphan went. -/
def dropAnnouncement (peer : PeerId) (inner : OrphanageInner) : Option (OrphanageInner × Bool) :=
  match inner.byWtxid.lookup wtxid with
  | none => some (inner, false)
  | some entry =>
    match entry.announcers.lookup peer with
    | none => some (inner, false)
    | some seq => do
      let announcers := entry.announcers.erase peer
      let announcements ← takeAway 1 inner.announcements
      let peers ← dropUsage entry seq peer inner.peers
      let dropped := { inner with
        byWtxid := inner.byWtxid.insert wtxid { entry with announcers }
        announcements
        peers }
      if announcers.keys = ∅ then (removeUnannounced wtxid dropped).map (·, true)
      else some (dropped, false)

/-- Remove every announcement of an orphan, and so the orphan. The second component
is true when it was held. -/
def erase (inner : OrphanageInner) : Option (OrphanageInner × Bool) :=
  match inner.byWtxid.lookup wtxid with
  | none => some (inner, false)
  | some entry =>
    ((entry.announcers.keys.sort (· ≤ ·)).foldlM (fun current peer =>
      (dropAnnouncement wtxid peer current).map Prod.fst) inner).map (·, true)

/-! ## Limits -/

def totalLatencyScore : Nat := inner.uniqueInputScore + inner.announcements

def peerCount : Nat := max inner.peers.keys.card 1

def maxGlobalUsage : Nat := config.reservedPeerUsage * inner.peerCount

/-- The latency limit shared equally between the peers; never zero. -/
def maxPeerLatencyScore : Nat := max (config.maxGlobalLatencyScore / inner.peerCount) 1

def needsTrim : Bool :=
  config.maxGlobalLatencyScore < inner.totalLatencyScore ||
    inner.maxGlobalUsage config < inner.uniqueWeight

end OrphanageInner

/-- The larger of a peer's share of its latency limit and of its weight reservation. -/
def PeerUsage.dosScore (maxLatency maxWeight : Nat) (usage : PeerUsage) : DosScore :=
  DosScore.max ⟨usage.latencyScore, maxLatency⟩ ⟨usage.weight, max maxWeight 1⟩

/-- The announcement a peer made first. -/
def PeerUsage.oldest (usage : PeerUsage) : Option Wtxid :=
  match usage.announcements.keys.min with
  | none => none
  | some seq => usage.announcements.lookup seq

/-! ## Trimming -/

/-- An announcement that trimming dropped: whose it was, and what the announcements
of that peer cost just before. -/
structure Trimmed where
  peer : PeerId
  latencyScore : Nat
  weight : Nat

/-- A peer with its score, as the heap holds it. -/
abbrev Ranked := DosScore × PeerId

/-- Greater in the order of the heap: by score, then by peer. -/
def Ranked.above (first second : Ranked) : Bool :=
  first.1.above second.1 || (!second.1.above first.1 && second.2 < first.2)

/-- The greatest element of the heap. -/
def peek : List Ranked → Option Ranked
  | [] => none
  | first :: rest =>
    match peek rest with
    | none => some first
    | some other => if Ranked.above first other then some first else some other

section Trimming

variable (config : OrphanageConfig) (maxLatency : Nat)

/-- Drop the oldest announcements of a peer until the orphanage is within its limits
or the peer's score is no longer above a threshold. -/
def trimPeer (worst : PeerId) (threshold : DosScore) :
    Nat → OrphanageInner → List Trimmed → Option (OrphanageInner × List Trimmed)
  | 0, _, _ => none
  | steps + 1, inner, log =>
    if inner.needsTrim config then
      match inner.peers.lookup worst with
      | none => some (inner, log)
      | some usage =>
        match usage.oldest with
        | none => some (inner, log)
        | some wtxid => do
          let (dropped, _) ← inner.dropAnnouncement wtxid worst
          let logged := log ++ [⟨worst, usage.latencyScore, usage.weight⟩]
          match dropped.peers.lookup worst with
          | none => some (dropped, logged)
          | some remaining =>
            if (remaining.dosScore maxLatency config.reservedPeerUsage).above threshold then
              trimPeer worst threshold steps dropped logged
            else some (dropped, logged)
    else some (inner, log)

/-- Trim the worst peer of the heap, put it back with its new score, and go on while
the orphanage is past a limit. -/
def trimHeap : Nat → List Ranked → OrphanageInner → List Trimmed →
    Option (OrphanageInner × List Trimmed)
  | 0, _, _, _ => none
  | steps + 1, heap, inner, log =>
    match peek heap with
    | none => some (inner, log)
    | some worst => do
      let rest := heap.erase worst
      let threshold := ((peek rest).map Prod.fst).getD DosScore.one
      let (trimmed, logged) ←
        trimPeer config maxLatency worst.2 threshold (inner.announcements + 1) inner log
      if trimmed.needsTrim config then
        match trimmed.peers.lookup worst.2 with
        | none => trimHeap steps rest trimmed logged
        | some usage =>
          trimHeap steps
            ((usage.dosScore maxLatency config.reservedPeerUsage, worst.2) :: rest) trimmed logged
      else some (trimmed, logged)

/-- The peers whose score exceeds one. -/
def overLimit (inner : OrphanageInner) : List Ranked :=
  ((inner.peers.keys.sort (· ≤ ·)).filterMap fun peer =>
    (inner.peers.lookup peer).map fun usage =>
      (usage.dosScore maxLatency config.reservedPeerUsage, peer)).filter
    fun ranked => ranked.1.exceeds DosScore.one

end Trimming

/-- Drop announcements of the worst peers while the orphanage is past a limit. The
limits of a peer stay those of the start. -/
def limitOrphans (inner : OrphanageInner) : Option (OrphanageInner × List Trimmed) :=
  if inner.needsTrim config then
    let maxLatency := inner.maxPeerLatencyScore config
    trimHeap config maxLatency (inner.announcements + 1)
      (overLimit config maxLatency inner) inner []
  else some (inner, [])

/-! ## Calls -/

/-- What a call leaves behind: the orphanage, the announcements dropped by trimming
and the peers there were when trimming began, and the value returned. -/
structure Called (α : Type) where
  inner : OrphanageInner
  trimmed : List Trimmed
  peersAtTrim : Nat
  value : α

/-- A call that ends by trimming. -/
def thenLimit {α : Type} (config : OrphanageConfig) (inner : OrphanageInner) (value : α) :
    Option (Called α) :=
  (limitOrphans config inner).map fun (limited, trimmed) =>
    ⟨limited, trimmed, inner.peerCount, value⟩

/-- A call that ends without trimming. -/
def withoutLimit {α : Type} (inner : OrphanageInner) (value : α) : Option (Called α) :=
  some ⟨inner, [], inner.peerCount, value⟩

section Calls

variable (hashing : Hashing) (config : OrphanageConfig)

/-- The orphanage that holds an orphan nobody has announced yet. -/
def hold (tx : Transaction) (missingParents : Finset Txid) (inner : OrphanageInner) :
    OrphanageInner :=
  let entry : OrphanEntry :=
    { tx
      txid := computeTxid hashing tx
      wtxid := computeWtxid hashing tx
      missingParents
      announcers := ∅
      bytes := tx.totalSize
      weight := tx.weight }
  { inner with
    uniqueWeight := inner.uniqueWeight + entry.weight
    uniqueBytes := inner.uniqueBytes + entry.bytes
    uniqueInputScore := inner.uniqueInputScore + inputScore tx
    byTxid := InvertedIndex.add entry.wtxid inner.byTxid entry.txid
    byParent := addAll entry.wtxid (missingParents.sort (· ≤ ·)) inner.byParent
    byOutpoint := addAll entry.wtxid entry.outpoints inner.byOutpoint
    byWtxid := inner.byWtxid.insert entry.wtxid entry }

/-- Hold a transaction as an orphan a peer sent. -/
def add (tx : Transaction) (fromPeer : PeerId) (missingParents : Finset Txid)
    (inner : OrphanageInner) : Option (Called (Except OrphanReject AddOutcome)) :=
  if missingParents = ∅ then withoutLimit inner (.error .noMissingParents)
  else if maxStandardTxWeight < tx.weight then withoutLimit inner (.error .tooLarge)
  else
    let wtxid := computeWtxid hashing tx
    if wtxid ∈ inner.byWtxid then
      let (announced, isNew) := inner.announce wtxid fromPeer
      if isNew then thenLimit config announced (.ok .duplicate)
      else withoutLimit announced (.ok .duplicate)
    else
      thenLimit config ((hold hashing tx missingParents inner).announce wtxid fromPeer).1
        (.ok .added)

/-- Record that a peer announced an orphan too. -/
def addAnnouncer (wtxid : Wtxid) (peer : PeerId) (inner : OrphanageInner) : Option (Called Bool) :=
  let (announced, isNew) := inner.announce wtxid peer
  if isNew then thenLimit config announced true else withoutLimit announced false

/-- The orphan goes, whoever announced it. -/
def erase (wtxid : Wtxid) (inner : OrphanageInner) : Option (Called Bool) := do
  let (erased, held) ← inner.erase wtxid
  thenLimit config erased held

/-- Drop the announcements of a peer for a list of orphans; the orphans that went. -/
def dropEach (peer : PeerId) : List Wtxid → OrphanageInner → Option (OrphanageInner × List Wtxid)
  | [], inner => some (inner, [])
  | wtxid :: rest, inner => do
    let (dropped, went) ← inner.dropAnnouncement wtxid peer
    let (final, removed) ← dropEach peer rest dropped
    some (final, if went then wtxid :: removed else removed)

/-- The announcements of a peer, in the order they were made. -/
def PeerUsage.inOrder (usage : PeerUsage) : List Wtxid :=
  (usage.announcements.keys.sort (· ≤ ·)).filterMap usage.announcements.lookup

/-- A peer is no longer an announcer of anything. -/
def eraseForPeer (peer : PeerId) (inner : OrphanageInner) : Option (Called (List Wtxid)) := do
  let wtxids := ((inner.peers.lookup peer).map PeerUsage.inOrder).getD []
  let (dropped, removed) ← dropEach peer wtxids inner
  thenLimit config dropped removed

/-- Erase a list of orphans; those that were held. -/
def eraseEach : List Wtxid → OrphanageInner → Option (OrphanageInner × List Wtxid)
  | [], inner => some (inner, [])
  | wtxid :: rest, inner => do
    let (erased, held) ← inner.erase wtxid
    let (final, removed) ← eraseEach rest erased
    some (final, if held then wtxid :: removed else removed)

/-- The orphans that spend an outpoint a transaction of a block spends. -/
def doomed (block : Block) (inner : OrphanageInner) : Finset Wtxid :=
  (block.txdata.flatMap Transaction.input).foldl (fun found input =>
    found ∪ (inner.byOutpoint.lookup input.previousOutput).getD ∅) ∅

/-- Every orphan that spends an outpoint a transaction of a block spends goes. -/
def eraseForBlock (block : Block) (inner : OrphanageInner) : Option (Called (List Wtxid)) :=
  if inner.byWtxid.keys = ∅ then withoutLimit inner []
  else do
    let (erased, removed) ← eraseEach ((doomed block inner).sort (· ≤ ·)) inner
    thenLimit config erased removed

/-- Record the parents an orphan still waits for. One left with none goes instead. -/
def setMissingParents (wtxid : Wtxid) (missingParents : Finset Txid) (inner : OrphanageInner) :
    Option (Called Bool) :=
  if missingParents = ∅ then do
    let (erased, _) ← inner.erase wtxid
    thenLimit config erased false
  else
    match inner.byWtxid.lookup wtxid with
    | none => withoutLimit inner false
    | some entry =>
      let old := entry.missingParents
      withoutLimit { inner with
        byWtxid := inner.byWtxid.insert wtxid { entry with missingParents }
        byParent := addAll wtxid ((missingParents \ old).sort (· ≤ ·))
          (dropAll wtxid ((old \ missingParents).sort (· ≤ ·)) inner.byParent) } true

end Calls

end Satd.Mempool
