import Satd.Mempool.Orphanage
import Satd.Lib.Run

/-!
# The orphan pool keeps its indexes and totals

`Exact` says that every index and running total of the orphanage is what the
orphans it holds call for. Every change keeps it, and so no running total is ever
taken below zero.
-/

namespace Satd.Bitcoin

/-- Every transaction has some weight: its version alone is four bytes. -/
theorem Transaction.two_le_weight (tx : Transaction) : 2 ≤ tx.weight := by
  have base : 4 ≤ tx.baseSize := by
    simp only [Transaction.baseSize, Transaction.encodeBase, List.length_append,
      Wire.leBytes_length]
    omega
  rw [Transaction.weight]
  omega

end Satd.Bitcoin

namespace Satd.Mempool

open KeyedMap InvertedIndex Satd.Bitcoin Option Finset
open Finmap (mem_iff mem_keys lookup_eq_none)

abbrev Orphans := Map Wtxid OrphanEntry

/-- What the announcement of a peer counts for, zero for an orphan it has not
announced. -/
def share (peer : PeerId) (cost : OrphanEntry → Nat) (_ : Wtxid) (entry : OrphanEntry) : Nat :=
  if peer ∈ entry.announcers then cost entry else 0

/-- An orphan is filed under the keys it has. -/
def Filed {κ : Type} (keys : OrphanEntry → κ → Prop) (orphans : Orphans) (key : κ)
    (wtxid : Wtxid) : Prop :=
  ∃ entry, orphans.lookup wtxid = some entry ∧ keys entry key

/-- The usage of a peer as the orphans call for it. -/
structure UsageExact (orphans : Orphans) (peer : PeerId) (usage : PeerUsage) : Prop where
  weight : usage.weight = total (share peer OrphanEntry.weight) orphans
  latencyScore : usage.latencyScore = total (share peer OrphanEntry.latencyScore) orphans
  announcements : ∀ seq wtxid, usage.announcements.lookup seq = some wtxid ↔
    ∃ entry, orphans.lookup wtxid = some entry ∧ entry.announcers.lookup peer = some seq

/-- Every index and running total is what the orphans call for, and every orphan
that is not pending has an announcer. -/
structure Exact (pending : Wtxid → Prop) (inner : OrphanageInner) : Prop where
  announced : ∀ wtxid entry, inner.byWtxid.lookup wtxid = some entry → ¬ pending wtxid →
    entry.announcers.keys ≠ ∅
  weighed : ∀ wtxid entry, inner.byWtxid.lookup wtxid = some entry → 2 ≤ entry.weight
  numbered : ∀ wtxid entry peer seq, inner.byWtxid.lookup wtxid = some entry →
    entry.announcers.lookup peer = some seq → seq < inner.nextSeq
  byTxid : InvertedIndex.Exact
    (Filed (fun entry txid => entry.txid = txid) inner.byWtxid) inner.byTxid
  byParent : InvertedIndex.Exact
    (Filed (fun entry parent => parent ∈ entry.missingParents) inner.byWtxid) inner.byParent
  byOutpoint : InvertedIndex.Exact
    (Filed (fun entry outpoint => outpoint ∈ entry.outpoints) inner.byWtxid) inner.byOutpoint
  known : ∀ peer usage, inner.peers.lookup peer = some usage →
    UsageExact inner.byWtxid peer usage ∧ usage.announcements.keys ≠ ∅
  unknown : ∀ peer, inner.peers.lookup peer = none →
    ∀ wtxid entry, inner.byWtxid.lookup wtxid = some entry → peer ∉ entry.announcers
  announcements : inner.announcements =
    total (fun _ entry => entry.announcers.keys.card) inner.byWtxid
  uniqueWeight : inner.uniqueWeight = total (fun _ entry => entry.weight) inner.byWtxid
  uniqueBytes : inner.uniqueBytes = total (fun _ entry => entry.bytes) inner.byWtxid
  uniqueInputScore : inner.uniqueInputScore =
    total (fun _ entry => inputScore entry.tx) inner.byWtxid

/-! ## Filed orphans -/

namespace Filed

variable {κ : Type} {keys : OrphanEntry → κ → Prop} {orphans : Orphans} {wtxid : Wtxid}
  {entry changed : OrphanEntry}

theorem insert_new (absent : orphans.lookup wtxid = none) {key : κ} {other : Wtxid} :
    Filed keys (orphans.insert wtxid entry) key other ↔
      (keys entry key ∧ other = wtxid) ∨ Filed keys orphans key other := by
  rw [Filed, lookup_insert, Filed]
  by_cases own : wtxid = other
  · subst own
    simp [absent]
  · simp [own, Ne.symm own]

theorem insert_same (here : orphans.lookup wtxid = some entry)
    (same : ∀ key, keys changed key ↔ keys entry key) (key : κ) (other : Wtxid) :
    Filed keys (orphans.insert wtxid changed) key other ↔ Filed keys orphans key other := by
  rw [Filed, lookup_insert, Filed]
  by_cases own : wtxid = other
  · subst own
    simp [here, same]
  · rw [if_neg own]

theorem erase (here : orphans.lookup wtxid = some entry) (key : κ) (other : Wtxid) :
    Filed keys (orphans.erase wtxid) key other ↔
      ¬ (keys entry key ∧ other = wtxid) ∧ Filed keys orphans key other := by
  rw [Filed, lookup_erase, Filed]
  by_cases own : wtxid = other
  · subst own
    simp [here]
  · simp [own, Ne.symm own]

end Filed

/-! ## The usage of a peer -/

namespace UsageExact

variable {orphans : Orphans} {peer : PeerId} {usage : PeerUsage} {wtxid : Wtxid}
  {entry changed : OrphanEntry}

section

variable (exact : UsageExact orphans peer usage)
include exact

/-- Announcements of a peer have different numbers. -/
theorem wtxid_unique {other : Wtxid} {found : OrphanEntry}
    {seq : Nat} (here : orphans.lookup wtxid = some entry)
    (announced : entry.announcers.lookup peer = some seq)
    (there : orphans.lookup other = some found)
    (announcedToo : found.announcers.lookup peer = some seq) : other = wtxid := by
  have first := (exact.announcements seq wtxid).mpr ⟨entry, here, announced⟩
  have second := (exact.announcements seq other).mpr ⟨found, there, announcedToo⟩
  rw [first] at second
  exact (some.inj second).symm

/-- The usage of a peer whose announcement of a changed orphan stays. -/
theorem keep (here : orphans.lookup wtxid = some entry)
    (same : changed.announcers.lookup peer = entry.announcers.lookup peer)
    (weight : changed.weight = entry.weight) (tx : changed.tx = entry.tx) :
    UsageExact (orphans.insert wtxid changed) peer usage := by
  have member : peer ∈ changed.announcers ↔ peer ∈ entry.announcers := by
    rw [mem_iff, mem_iff, same]
  have stays : ∀ cost : OrphanEntry → Nat, cost changed = cost entry →
      total (share peer cost) orphans = total (share peer cost) (orphans.insert wtxid changed) := by
    intro cost equal
    exact total_insert_same here (by simp only [share, member, equal])
  constructor
  · rw [exact.weight, stays _ weight]
  · rw [exact.latencyScore, stays _ (by simp only [OrphanEntry.latencyScore, tx])]
  · intro seq other
    rw [exact.announcements, lookup_insert]
    by_cases own : wtxid = other
    · subst own
      simp [here, same]
    · rw [if_neg own]

/-- The usage of a peer that has not announced an orphan that goes. -/
theorem erase (here : orphans.lookup wtxid = some entry)
    (absent : peer ∉ entry.announcers) : UsageExact (orphans.erase wtxid) peer usage := by
  have stays : ∀ cost, total (share peer cost) orphans =
      total (share peer cost) (orphans.erase wtxid) := by
    intro cost
    have moved := total_erase (share peer cost) orphans wtxid
    rwa [weightAt_of_lookup here, share, if_neg absent, zero_add] at moved
  constructor
  · rw [exact.weight, stays]
  · rw [exact.latencyScore, stays]
  · intro seq other
    rw [exact.announcements, lookup_erase]
    by_cases own : wtxid = other
    · subst own
      simp [here, lookup_eq_none.mpr absent]
    · rw [if_neg own]

/-- The usage of a peer that has not announced a new orphan. -/
theorem hold (absent : orphans.lookup wtxid = none)
    (nobody : peer ∉ entry.announcers) : UsageExact (orphans.insert wtxid entry) peer usage := by
  have stays : ∀ cost, total (share peer cost) (orphans.insert wtxid entry) =
      total (share peer cost) orphans := by
    intro cost
    have moved := total_insert (share peer cost) orphans wtxid entry
    rw [weightAt_of_notMem (lookup_eq_none.mp absent), share, if_neg nobody] at moved
    omega
  constructor
  · rw [exact.weight, stays]
  · rw [exact.latencyScore, stays]
  · intro seq other
    rw [exact.announcements, lookup_insert]
    by_cases own : wtxid = other
    · subst own
      simp [absent, lookup_eq_none.mpr nobody]
    · rw [if_neg own]

end

/-- A peer that has announced nothing has used nothing. -/
theorem nothing (absent : ∀ wtxid entry, orphans.lookup wtxid = some entry →
    peer ∉ entry.announcers) : UsageExact orphans peer {} := by
  have zero : ∀ cost, total (share peer cost) orphans = 0 := by
    intro cost
    apply sum_eq_zero
    intro wtxid member
    obtain ⟨entry, found⟩ := mem_iff.mp (mem_keys.mp member)
    rw [weightAt_of_lookup found, share, if_neg (absent wtxid entry found)]
  constructor
  · rw [zero]
  · rw [zero]
  · intro seq wtxid
    refine iff_of_false (by simp) ?_
    rintro ⟨entry, found, announced⟩
    exact absent wtxid entry found (mem_iff.mpr ⟨seq, announced⟩)

/-- The usage of a peer after it announced an orphan. -/
theorem announce (exact : UsageExact orphans peer usage) {seq : Nat}
    (here : orphans.lookup wtxid = some entry) (absent : peer ∉ entry.announcers)
    (fresh : ∀ other found, orphans.lookup other = some found →
      found.announcers.lookup peer ≠ some seq) :
    UsageExact (orphans.insert wtxid { entry with announcers := entry.announcers.insert peer seq })
      peer
      { weight := usage.weight + entry.weight
        latencyScore := usage.latencyScore + entry.latencyScore
        announcements := usage.announcements.insert seq wtxid } := by
  have grows : ∀ cost : OrphanEntry → Nat, total (share peer cost) (orphans.insert wtxid
      { entry with announcers := entry.announcers.insert peer seq }) =
      total (share peer cost) orphans +
        cost { entry with announcers := entry.announcers.insert peer seq } := by
    intro cost
    have moved := total_insert (share peer cost) orphans wtxid
      { entry with announcers := entry.announcers.insert peer seq }
    rw [weightAt_of_lookup here, share, share, if_neg absent,
      if_pos (Finmap.mem_insert.mpr (.inl rfl))] at moved
    omega
  constructor
  · rw [grows, exact.weight]
  · rw [grows, exact.latencyScore]
    rfl
  · intro number other
    rw [lookup_insert, lookup_insert]
    by_cases own : wtxid = other
    · subst own
      rw [if_pos rfl]
      by_cases sameSeq : seq = number
      · subst sameSeq
        simp
      · rw [if_neg sameSeq, exact.announcements]
        simp [here, lookup_eq_none.mpr absent, sameSeq]
    · rw [if_neg own]
      by_cases sameSeq : seq = number
      · subst sameSeq
        rw [if_pos rfl]
        refine iff_of_false (fun same => own (some.inj same)) ?_
        rintro ⟨found, isFound, announced⟩
        exact fresh other found isFound announced
      · rw [if_neg sameSeq, exact.announcements]

/-- The usage of a peer after it lost an announcement. -/
theorem withdraw (exact : UsageExact orphans peer usage) {seq : Nat}
    (here : orphans.lookup wtxid = some entry)
    (announced : entry.announcers.lookup peer = some seq) :
    entry.weight ≤ usage.weight ∧ entry.latencyScore ≤ usage.latencyScore ∧
      UsageExact (orphans.insert wtxid { entry with announcers := entry.announcers.erase peer })
        peer
        { weight := usage.weight - entry.weight
          latencyScore := usage.latencyScore - entry.latencyScore
          announcements := usage.announcements.erase seq } := by
  have present : peer ∈ entry.announcers := mem_iff.mpr ⟨seq, announced⟩
  have gone : peer ∉ entry.announcers.erase peer := by simp
  have shrinks : ∀ cost : OrphanEntry → Nat, total (share peer cost) orphans = cost entry +
      total (share peer cost)
        (orphans.insert wtxid { entry with announcers := entry.announcers.erase peer }) := by
    intro cost
    have moved := total_insert (share peer cost) orphans wtxid
      { entry with announcers := entry.announcers.erase peer }
    rw [weightAt_of_lookup here, share, share, if_pos present, if_neg gone] at moved
    omega
  have weight := exact.weight.trans (shrinks _)
  have latencyScore := exact.latencyScore.trans (shrinks _)
  refine ⟨by omega, by omega, ?_, ?_, ?_⟩
  · dsimp only
    omega
  · dsimp only
    omega
  · intro number other
    rw [lookup_erase, lookup_insert]
    by_cases own : wtxid = other
    · subst own
      rw [if_pos rfl]
      by_cases sameSeq : seq = number
      · simp [sameSeq]
      · rw [if_neg sameSeq, exact.announcements]
        simp [here, announced, sameSeq]
    · rw [if_neg own]
      by_cases sameSeq : seq = number
      · subst sameSeq
        rw [if_pos rfl]
        refine iff_of_false nofun ?_
        rintro ⟨found, isFound, announcedToo⟩
        exact own (exact.wtxid_unique here announced isFound announcedToo).symm
      · rw [if_neg sameSeq, exact.announcements]

end UsageExact

/-! ## Changes of the orphanage -/

theorem takeAway_eq_some {amount total : Nat} (enough : amount ≤ total) :
    takeAway amount total = some (total - amount) :=
  if_pos enough

/-- What dropping an announcement of a peer does to the others and to the count. -/
structure Drops (peer : PeerId) (before after : OrphanageInner) : Prop where
  others : ∀ other, other ≠ peer → after.peers.lookup other = before.peers.lookup other
  peers : after.peers.keys ⊆ before.peers.keys
  announcements : after.announcements ≤ before.announcements

theorem Drops.refl (peer : PeerId) (inner : OrphanageInner) : Drops peer inner inner :=
  ⟨fun _ _ => rfl, fun _ member => member, le_rfl⟩

namespace Exact

variable {pending : Wtxid → Prop} {inner : OrphanageInner}

theorem empty : Exact (fun _ => False) {} := by
  have nobody : ∀ wtxid entry, (∅ : Orphans).lookup wtxid ≠ some entry := by simp
  have unfiled : ∀ {κ : Type} (keys : OrphanEntry → κ → Prop) key wtxid,
      Filed keys ∅ key wtxid ↔ False := by
    rintro κ keys key wtxid
    refine iff_of_false ?_ id
    rintro ⟨entry, found, -⟩
    exact nobody wtxid entry found
  constructor
  · exact fun wtxid entry found => absurd found (nobody wtxid entry)
  · exact fun wtxid entry found => absurd found (nobody wtxid entry)
  · exact fun wtxid entry _ _ found => absurd found (nobody wtxid entry)
  · exact InvertedIndex.Exact.empty.congr (unfiled _)
  · exact InvertedIndex.Exact.empty.congr (unfiled _)
  · exact InvertedIndex.Exact.empty.congr (unfiled _)
  · intro peer usage found
    simp at found
  · exact fun _ _ wtxid entry found => absurd found (nobody wtxid entry)
  · exact total_empty.symm
  · exact total_empty.symm
  · exact total_empty.symm
  · exact total_empty.symm

/-- The orphanage that holds a new orphan, which nobody has announced yet. -/
theorem hold (exact : Exact (fun _ => False) inner) (hashing : Hashing) (tx : Transaction)
    (missingParents : Finset Txid) (absent : computeWtxid hashing tx ∉ inner.byWtxid) :
    Exact (· = computeWtxid hashing tx) (hold hashing tx missingParents inner) := by
  have missing := lookup_eq_none.mpr absent
  have row : ∀ wtxid entry,
      (Mempool.hold hashing tx missingParents inner).byWtxid.lookup wtxid = some entry →
      (wtxid = computeWtxid hashing tx ∧ entry.announcers = ∅ ∧ entry.weight = tx.weight) ∨
        inner.byWtxid.lookup wtxid = some entry := by
    intro wtxid entry found
    rcases lookup_insert_eq_some.mp found with ⟨own, rfl⟩ | ⟨-, before⟩
    · exact .inl ⟨own, rfl, rfl⟩
    · exact .inr before
  have grows : ∀ (weight : Wtxid → OrphanEntry → Nat) (entry : OrphanEntry),
      total weight (inner.byWtxid.insert (computeWtxid hashing tx) entry) =
        total weight inner.byWtxid + weight (computeWtxid hashing tx) entry := by
    intro weight entry
    have moved := total_insert weight inner.byWtxid (computeWtxid hashing tx) entry
    rw [weightAt_of_notMem absent] at moved
    omega
  constructor
  · intro wtxid entry found notPending
    rcases row wtxid entry found with ⟨own, -⟩ | before
    · exact absurd own notPending
    · exact exact.announced wtxid entry before id
  · intro wtxid entry found
    rcases row wtxid entry found with ⟨-, -, weight⟩ | before
    · rw [weight]
      exact tx.two_le_weight
    · exact exact.weighed wtxid entry before
  · intro wtxid entry peer seq found announced
    rcases row wtxid entry found with ⟨-, none, -⟩ | before
    · rw [none] at announced
      simp at announced
    · exact exact.numbered wtxid entry peer seq before announced
  · refine (exact.byTxid.add _ _).congr fun key wtxid => ?_
    rw [Mempool.hold, Filed.insert_new missing]
    simp only [eq_comm]
  · refine (exact.byParent.addAll _ _).congr fun key wtxid => ?_
    rw [Mempool.hold, Filed.insert_new missing, mem_sort]
  · exact (exact.byOutpoint.addAll _ _).congr fun key wtxid => Filed.insert_new missing
  · intro peer usage found
    obtain ⟨usageExact, nonempty⟩ := exact.known peer usage found
    exact ⟨usageExact.hold missing Finmap.notMem_empty, nonempty⟩
  · intro peer isUnknown wtxid entry found
    rcases row wtxid entry found with ⟨-, none, -⟩ | before
    · rw [none]
      exact Finmap.notMem_empty
    · exact exact.unknown peer isUnknown wtxid entry before
  · rw [Mempool.hold, grows, exact.announcements]
    simp
  · rw [Mempool.hold, grows, exact.uniqueWeight]
  · rw [Mempool.hold, grows, exact.uniqueBytes]
  · rw [Mempool.hold, grows, exact.uniqueInputScore]

/-- The orphanage after the announcers of one orphan changed. -/
theorem reannounce {pendingAfter : Wtxid → Prop} {wtxid : Wtxid} {entry : OrphanEntry}
    {announcers : Map PeerId Nat} {peers : Map PeerId PeerUsage} {announcements nextSeq : Nat}
    (exact : Exact pending inner) (here : inner.byWtxid.lookup wtxid = some entry)
    (announced : ¬ pendingAfter wtxid → announcers.keys ≠ ∅)
    (others : ∀ other, other ≠ wtxid → pending other → pendingAfter other)
    (grows : inner.nextSeq ≤ nextSeq)
    (numbered : ∀ peer seq, announcers.lookup peer = some seq → seq < nextSeq)
    (known : ∀ peer usage, peers.lookup peer = some usage →
      UsageExact (inner.byWtxid.insert wtxid { entry with announcers }) peer usage ∧
        usage.announcements.keys ≠ ∅)
    (unknown : ∀ peer, peers.lookup peer = none → ∀ other found,
      (inner.byWtxid.insert wtxid { entry with announcers }).lookup other = some found →
        peer ∉ found.announcers)
    (count : announcements + entry.announcers.keys.card =
      inner.announcements + announcers.keys.card) :
    Exact pendingAfter { inner with
      byWtxid := inner.byWtxid.insert wtxid { entry with announcers }
      peers
      announcements
      nextSeq } := by
  constructor
  · intro other found isFound notPending
    rcases lookup_insert_eq_some.mp isFound with ⟨rfl, rfl⟩ | ⟨different, before⟩
    · exact announced notPending
    · exact exact.announced other found before fun was =>
        notPending (others other different was)
  · intro other found isFound
    rcases lookup_insert_eq_some.mp isFound with ⟨rfl, rfl⟩ | ⟨-, before⟩
    · exact exact.weighed other entry here
    · exact exact.weighed other found before
  · intro other found peer seq isFound isAnnounced
    rcases lookup_insert_eq_some.mp isFound with ⟨rfl, rfl⟩ | ⟨-, before⟩
    · exact numbered peer seq isAnnounced
    · exact (exact.numbered other found peer seq before isAnnounced).trans_le grows
  · exact exact.byTxid.congr (Filed.insert_same here fun _ => Iff.rfl)
  · exact exact.byParent.congr (Filed.insert_same here fun _ => Iff.rfl)
  · exact exact.byOutpoint.congr (Filed.insert_same here fun _ => Iff.rfl)
  · exact known
  · exact unknown
  · have moved := total_insert (fun _ entry => entry.announcers.keys.card) inner.byWtxid wtxid
      { entry with announcers }
    rw [weightAt_of_lookup here] at moved
    have before := exact.announcements
    dsimp only at moved ⊢
    omega
  · exact exact.uniqueWeight.trans (total_insert_same here (by rfl))
  · exact exact.uniqueBytes.trans (total_insert_same here (by rfl))
  · exact exact.uniqueInputScore.trans (total_insert_same here (by rfl))

/-- An announcement settles an orphan that had none. -/
theorem announce {wtxid : Wtxid} (exact : Exact pending inner)
    (only : ∀ other, pending other → other = wtxid) (peer : PeerId)
    (recorded : (inner.announce wtxid peer).2 = true) :
    Exact (fun _ => False) (inner.announce wtxid peer).1 := by
  rw [OrphanageInner.announce] at recorded ⊢
  cases here : inner.byWtxid.lookup wtxid with
  | none =>
    rw [here] at recorded
    cases recorded
  | some entry =>
    rw [here] at recorded
    by_cases already : peer ∈ entry.announcers
    · simp only [already, if_true] at recorded
      cases recorded
    · simp only [already, if_false]
      have usageExact : UsageExact inner.byWtxid peer ((inner.peers.lookup peer).getD {}) := by
        cases isKnown : inner.peers.lookup peer with
        | none => exact .nothing (exact.unknown peer isKnown)
        | some usage => exact (exact.known peer usage isKnown).1
      refine exact.reannounce here ?_ (fun other different was => different (only other was))
        (Nat.le_succ _) ?_ ?_ ?_ ?_
      · intro _
        rw [keys_insert]
        exact insert_ne_empty _ _
      · intro other seq found
        rcases lookup_insert_eq_some.mp found with ⟨-, rfl⟩ | ⟨-, before⟩
        · exact Nat.lt_succ_self _
        · exact (exact.numbered wtxid entry other seq here before).trans (Nat.lt_succ_self _)
      · intro other usage found
        rcases lookup_insert_eq_some.mp found with ⟨rfl, rfl⟩ | ⟨different, found⟩
        · refine ⟨usageExact.announce here already ?_, ?_⟩
          · intro wtxid found isFound announced
            exact (exact.numbered wtxid found other _ isFound announced).ne rfl
          · rw [keys_insert]
            exact insert_ne_empty _ _
        · obtain ⟨before, nonempty⟩ := exact.known other usage found
          exact ⟨before.keep here (Finmap.lookup_insert_of_ne _ different) rfl rfl, nonempty⟩
      · intro other isUnknown someWtxid found isFound
        rw [lookup_insert] at isUnknown
        split at isUnknown
        · cases isUnknown
        · next different =>
          rcases lookup_insert_eq_some.mp isFound with ⟨rfl, rfl⟩ | ⟨-, before⟩
          · rw [Finmap.mem_insert, not_or]
            exact ⟨Ne.symm different, exact.unknown other isUnknown _ entry here⟩
          · exact exact.unknown other isUnknown someWtxid found before
      · have grown : (entry.announcers.insert peer inner.nextSeq).keys.card =
            entry.announcers.keys.card + 1 := by
          rw [keys_insert]
          exact card_insert_of_notMem fun member => already (mem_keys.mp member)
        omega

/-- The usage of every peer after one of them lost an announcement. -/
theorem dropUsage {wtxid : Wtxid} {entry : OrphanEntry} {peer : PeerId} {seq : Nat}
    (exact : Exact pending inner) (here : inner.byWtxid.lookup wtxid = some entry)
    (announced : entry.announcers.lookup peer = some seq) :
    ∃ peers, OrphanageInner.dropUsage entry seq peer inner.peers = some peers ∧
      (∀ other, other ≠ peer → peers.lookup other = inner.peers.lookup other) ∧
      (∀ usage, peers.lookup peer = some usage →
        UsageExact (inner.byWtxid.insert wtxid
          { entry with announcers := entry.announcers.erase peer }) peer usage ∧
          usage.announcements.keys ≠ ∅) ∧
      (peers.lookup peer = none → ∀ other found,
        (inner.byWtxid.insert wtxid { entry with announcers := entry.announcers.erase peer }).lookup
          other = some found → peer ∉ found.announcers) := by
  have present : peer ∈ entry.announcers := mem_iff.mpr ⟨seq, announced⟩
  rw [OrphanageInner.dropUsage]
  cases isKnown : inner.peers.lookup peer with
  | none => exact absurd present (exact.unknown peer isKnown wtxid entry here)
  | some usage =>
    obtain ⟨enoughWeight, enoughScore, left⟩ :=
      (exact.known peer usage isKnown).1.withdraw here announced
    simp only [takeAway_eq_some enoughWeight, takeAway_eq_some enoughScore, bind_eq_bind, bind_some]
    refine ⟨_, rfl, ?_, ?_, ?_⟩
    · intro other different
      split
      · exact Finmap.lookup_erase_ne different
      · exact Finmap.lookup_insert_of_ne _ different
    · intro remaining found
      split at found
      · rw [Finmap.lookup_erase] at found
        cases found
      · next nonempty =>
        rw [Finmap.lookup_insert] at found
        cases found
        exact ⟨left, nonempty⟩
    · intro isUnknown other found isFound member
      split at isUnknown
      · next emptied =>
        obtain ⟨number, isAnnounced⟩ := mem_iff.mp member
        have isListed := (left.announcements number other).mpr ⟨found, isFound, isAnnounced⟩
        have listed : number ∈ (usage.announcements.erase seq).keys :=
          mem_keys.mpr (mem_iff.mpr ⟨other, isListed⟩)
        rw [emptied] at listed
        cases listed
      · rw [Finmap.lookup_insert] at isUnknown
        cases isUnknown

/-- An orphan without announcers is taken out. -/
theorem removeUnannounced {wtxid : Wtxid} {entry : OrphanEntry} (exact : Exact (· = wtxid) inner)
    (here : inner.byWtxid.lookup wtxid = some entry) (nobody : entry.announcers.keys = ∅) :
    ∃ after, inner.removeUnannounced wtxid = some after ∧ Exact (fun _ => False) after ∧
      after.peers = inner.peers ∧ after.announcements = inner.announcements ∧
      after.byWtxid = inner.byWtxid.erase wtxid ∧ after.nextSeq = inner.nextSeq := by
  have shrinks : ∀ weight : Wtxid → OrphanEntry → Nat, total weight inner.byWtxid =
      weight wtxid entry + total weight (inner.byWtxid.erase wtxid) := by
    intro weight
    have moved := total_erase weight inner.byWtxid wtxid
    rwa [weightAt_of_lookup here] at moved
  have weight := shrinks fun _ entry => entry.weight
  have bytes := shrinks fun _ entry => entry.bytes
  have score := shrinks fun _ entry => inputScore entry.tx
  have count := shrinks fun _ entry => entry.announcers.keys.card
  rw [← exact.uniqueWeight] at weight
  rw [← exact.uniqueBytes] at bytes
  rw [← exact.uniqueInputScore] at score
  rw [← exact.announcements, nobody, card_empty, zero_add] at count
  have absent : ∀ peer, peer ∉ entry.announcers := by
    intro peer member
    have isKey := mem_keys.mpr member
    rw [nobody] at isKey
    cases isKey
  rw [OrphanageInner.removeUnannounced, here]
  simp only [takeAway_eq_some (Nat.le.intro weight.symm),
    takeAway_eq_some (Nat.le.intro bytes.symm),
    takeAway_eq_some (Nat.le.intro score.symm), bind_eq_bind, bind_some]
  refine ⟨_, rfl, ?_, rfl, rfl, rfl, rfl⟩
  constructor
  · intro other found isFound _
    obtain ⟨different, before⟩ := lookup_erase_eq_some.mp isFound
    exact exact.announced other found before different
  · intro other found isFound
    exact exact.weighed other found (lookup_erase_eq_some.mp isFound).2
  · intro other found peer seq isFound
    exact exact.numbered other found peer seq (lookup_erase_eq_some.mp isFound).2
  · refine (exact.byTxid.drop _ _).congr fun key other => ?_
    rw [Filed.erase here]
    simp only [eq_comm]
  · refine (exact.byParent.dropAll _ _).congr fun key other => ?_
    rw [Filed.erase here, mem_sort]
  · exact (exact.byOutpoint.dropAll _ _).congr (Filed.erase here)
  · intro peer usage found
    obtain ⟨before, nonempty⟩ := exact.known peer usage found
    exact ⟨before.erase here (absent peer), nonempty⟩
  · intro peer isUnknown other found isFound
    exact exact.unknown peer isUnknown other found (lookup_erase_eq_some.mp isFound).2
  · exact count
  · dsimp only
    omega
  · dsimp only
    omega
  · dsimp only
    omega

section

variable (exact : Exact (fun _ => False) inner)
include exact

theorem dropAnnouncement (wtxid : Wtxid) (peer : PeerId) :
    ∃ after went, inner.dropAnnouncement wtxid peer = some (after, went) ∧
      Exact (fun _ => False) after ∧ Drops peer inner after ∧
      ∀ entry, inner.byWtxid.lookup wtxid = some entry → peer ∈ entry.announcers →
        after.announcements + 1 = inner.announcements := by
  rw [OrphanageInner.dropAnnouncement]
  cases here : inner.byWtxid.lookup wtxid with
  | none =>
    refine ⟨inner, false, rfl, exact, .refl peer inner, ?_⟩
    intro entry found
    cases found
  | some entry =>
    dsimp only
    cases announced : entry.announcers.lookup peer with
    | none =>
      refine ⟨inner, false, rfl, exact, .refl peer inner, ?_⟩
      intro found isFound member
      cases isFound
      exact absurd member (lookup_eq_none.mp announced)
    | some seq =>
      have present : peer ∈ entry.announcers := mem_iff.mpr ⟨seq, announced⟩
      have card : (entry.announcers.erase peer).keys.card + 1 = entry.announcers.keys.card := by
        rw [Finmap.keys_erase]
        exact card_erase_add_one (mem_keys.mpr present)
      have some : 1 ≤ inner.announcements := by
        have moved := total_erase (fun _ entry => entry.announcers.keys.card) inner.byWtxid wtxid
        rw [weightAt_of_lookup here, ← exact.announcements] at moved
        omega
      obtain ⟨peers, result, others, known, unknown⟩ := exact.dropUsage here announced
      have changed : ∀ pendingAfter : Wtxid → Prop,
          (¬ pendingAfter wtxid → (entry.announcers.erase peer).keys ≠ ∅) →
          Exact pendingAfter { inner with
            byWtxid := inner.byWtxid.insert wtxid
              { entry with announcers := entry.announcers.erase peer }
            announcements := inner.announcements - 1
            peers } := by
        intro pendingAfter settled
        refine exact.reannounce here settled (fun _ _ => False.elim) le_rfl ?_ ?_ ?_ ?_
        · intro other number found
          exact exact.numbered wtxid entry other number here (lookup_erase_eq_some.mp found).2
        · intro other usage found
          by_cases own : other = peer
          · subst own
            exact known usage found
          · rw [others other own] at found
            obtain ⟨before, nonempty⟩ := exact.known other usage found
            exact ⟨before.keep here (Finmap.lookup_erase_ne own) rfl rfl, nonempty⟩
        · intro other isUnknown someWtxid found isFound
          by_cases own : other = peer
          · subst own
            exact unknown isUnknown someWtxid found isFound
          · rw [others other own] at isUnknown
            rcases lookup_insert_eq_some.mp isFound with ⟨-, rfl⟩ | ⟨-, before⟩
            · intro member
              exact exact.unknown other isUnknown wtxid entry here (Finmap.mem_erase.mp member).2
            · exact exact.unknown other isUnknown someWtxid found before
        · omega
      have drops : ∀ after : OrphanageInner, after.peers = peers →
          after.announcements = inner.announcements - 1 → Drops peer inner after := by
        intro after samePeers fewer
        refine ⟨by rw [samePeers]; exact others, ?_, by omega⟩
        intro other member
        rw [samePeers] at member
        by_cases own : other = peer
        · subst own
          by_contra missing
          have isUnknown := lookup_eq_none.mpr fun held =>
            missing (mem_keys.mpr held)
          exact exact.unknown other isUnknown wtxid entry here present
        · obtain ⟨usage, found⟩ := mem_iff.mp (mem_keys.mp member)
          rw [others other own] at found
          exact mem_keys.mpr (mem_iff.mpr ⟨usage, found⟩)
      simp only [takeAway_eq_some some, result, bind_eq_bind, bind_some]
      by_cases last : (entry.announcers.erase peer).keys = ∅
      · obtain ⟨after, removed, exactAfter, samePeers, sameCount, -⟩ :=
          (changed (· = wtxid) fun settled => absurd rfl settled).removeUnannounced
            (Finmap.lookup_insert _) last
        rw [if_pos last, removed]
        refine ⟨after, true, rfl, exactAfter, drops after samePeers sameCount, ?_⟩
        intro _ _ _
        rw [sameCount]
        exact Nat.sub_add_cancel some
      · rw [if_neg last]
        refine ⟨_, false, rfl, changed (fun _ => False) fun _ => last, drops _ rfl rfl, ?_⟩
        intro _ _ _
        exact Nat.sub_add_cancel some

theorem erase (wtxid : Wtxid) :
    ∃ after held, inner.erase wtxid = some (after, held) ∧ Exact (fun _ => False) after := by
  have one : ∀ inner, Exact (fun _ => False) inner → ∀ peer, ∃ after,
      (OrphanageInner.dropAnnouncement wtxid peer inner).map Prod.fst = some after ∧
        Exact (fun _ => False) after := by
    intro inner exact peer
    obtain ⟨next, went, result, exactNext, -⟩ := exact.dropAnnouncement wtxid peer
    exact ⟨next, by rw [result]; rfl, exactNext⟩
  rw [OrphanageInner.erase]
  cases here : inner.byWtxid.lookup wtxid with
  | none => exact ⟨inner, false, rfl, exact⟩
  | some entry =>
    obtain ⟨after, result, exactAfter⟩ :=
      Run.foldlM_succeeds one (entry.announcers.keys.sort (· ≤ ·)) exact
    exact ⟨after, true, by simp only [result, map_some], exactAfter⟩

theorem dropEach (peer : PeerId) (wtxids : List Wtxid) :
    ∃ after removed, dropEach peer wtxids inner = some (after, removed) ∧
      Exact (fun _ => False) after := by
  induction wtxids generalizing inner with
  | nil => exact ⟨inner, [], rfl, exact⟩
  | cons wtxid rest ih =>
    obtain ⟨next, went, result, exactNext, -⟩ := exact.dropAnnouncement wtxid peer
    obtain ⟨after, removed, resultAfter, exactAfter⟩ := ih exactNext
    refine ⟨after, if went then wtxid :: removed else removed, ?_, exactAfter⟩
    simp [Mempool.dropEach, result, resultAfter]

theorem eraseEach (wtxids : List Wtxid) :
    ∃ after removed, eraseEach wtxids inner = some (after, removed) ∧
      Exact (fun _ => False) after := by
  induction wtxids generalizing inner with
  | nil => exact ⟨inner, [], rfl, exact⟩
  | cons wtxid rest ih =>
    obtain ⟨next, held, result, exactNext⟩ := exact.erase wtxid
    obtain ⟨after, removed, resultAfter, exactAfter⟩ := ih exactNext
    refine ⟨after, if held then wtxid :: removed else removed, ?_, exactAfter⟩
    simp [Mempool.eraseEach, result, resultAfter]

/-- The orphanage after an orphan waits for other parents. -/
theorem setParents {wtxid : Wtxid} {entry : OrphanEntry}
    (here : inner.byWtxid.lookup wtxid = some entry) {missingParents : Finset Txid} :
    Exact (fun _ => False) { inner with
      byWtxid := inner.byWtxid.insert wtxid { entry with missingParents }
      byParent := addAll wtxid ((missingParents \ entry.missingParents).sort (· ≤ ·))
        (dropAll wtxid ((entry.missingParents \ missingParents).sort (· ≤ ·))
          inner.byParent) } := by
  have row : ∀ other found,
      (inner.byWtxid.insert wtxid { entry with missingParents }).lookup other = some found →
      ∃ before, inner.byWtxid.lookup other = some before ∧
        found.announcers = before.announcers ∧ found.weight = before.weight := by
    intro other found isFound
    rcases lookup_insert_eq_some.mp isFound with ⟨rfl, rfl⟩ | ⟨-, before⟩
    · exact ⟨entry, here, rfl, rfl⟩
    · exact ⟨found, before, rfl, rfl⟩
  constructor
  · intro other found isFound settled
    obtain ⟨before, isBefore, announcers, -⟩ := row other found isFound
    rw [announcers]
    exact exact.announced other before isBefore settled
  · intro other found isFound
    obtain ⟨before, isBefore, -, weight⟩ := row other found isFound
    rw [weight]
    exact exact.weighed other before isBefore
  · intro other found peer seq isFound announced
    obtain ⟨before, isBefore, announcers, -⟩ := row other found isFound
    rw [announcers] at announced
    exact exact.numbered other before peer seq isBefore announced
  · exact exact.byTxid.congr (Filed.insert_same here fun _ => Iff.rfl)
  · refine ((exact.byParent.dropAll _ _).addAll _ _).congr fun parent other => ?_
    rw [Filed, lookup_insert, Filed]
    by_cases own : wtxid = other
    · subst own
      simp only [if_true, some.injEq, exists_eq_left', here, mem_sort, mem_sdiff, and_true]
      tauto
    · simp [own, Ne.symm own]
  · exact exact.byOutpoint.congr (Filed.insert_same here fun _ => Iff.rfl)
  · intro peer usage found
    obtain ⟨before, nonempty⟩ := exact.known peer usage found
    exact ⟨before.keep here rfl rfl rfl, nonempty⟩
  · intro peer isUnknown other found isFound
    obtain ⟨before, isBefore, announcers, -⟩ := row other found isFound
    rw [announcers]
    exact exact.unknown peer isUnknown other before isBefore
  · exact exact.announcements.trans (total_insert_same here (by rfl))
  · exact exact.uniqueWeight.trans (total_insert_same here (by rfl))
  · exact exact.uniqueBytes.trans (total_insert_same here (by rfl))
  · exact exact.uniqueInputScore.trans (total_insert_same here (by rfl))

end

end Exact

end Satd.Mempool
