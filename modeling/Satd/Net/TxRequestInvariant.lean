import Satd.Net.TxRequest

/-!
# The request tracker keeps its indexes and its choice

Every operation of the tracker changes announcements one at a time and corrects
the indexes by time and by peer for each. `Indexed` says what the indexes hold
for a view of the announcements, and one lemma for each kind of change says how
an index follows it. `Settled` says what holds of the announcements of one hash
once its best candidate has been chosen.
-/

namespace Satd.Net

open KeyedMap Option Finset

variable {τ : Type} [LinearOrder τ]

/-! ## Views -/

/-- The announcement of a peer for a hash. -/
abbrev View (τ : Type) := τ → PeerId → Option (Announcement τ)

/-- The view after the announcement of one peer for one hash changed. -/
def View.set (view : View τ) (hash : τ) (peer : PeerId) (changed : Option (Announcement τ)) :
    View τ :=
  fun other announcer => if other = hash ∧ announcer = peer then changed else view other announcer

@[simp] theorem View.set_same (view : View τ) (hash : τ) (peer : PeerId)
    (changed : Option (Announcement τ)) : view.set hash peer changed hash peer = changed := by
  simp [View.set]

variable {hash other : τ} {peer : PeerId} {changed : Option (Announcement τ)} {view : View τ}
  {old : Announcement τ} {holds : RequestState → Bool} {before after : Finset (Deadline τ)}

variable {announcer : PeerId}

theorem View.set_peer_ne {view : View τ} (different : announcer ≠ peer) :
    view.set hash peer changed other announcer = view other announcer := by
  simp [View.set, different]

theorem View.set_hash_ne {view : View τ} (different : other ≠ hash) :
    view.set hash peer changed other announcer = view other announcer := by
  simp [View.set, different]

/-! ## The announcements of one peer -/

/-- What the indexes of a peer hold. -/
structure PeerIndexed (view : View τ) (peer : PeerId) (known : PeerAnnouncements τ) : Prop where
  all : ∀ seq hash, known.all.lookup seq = some hash ↔
    ∃ announcement, view hash peer = some announcement ∧ announcement.seq = seq
  best : ∀ seq hash, known.best.lookup seq = some hash ↔
    ∃ announcement, view hash peer = some announcement ∧ announcement.seq = seq ∧
      announcement.state = .best
  requested : ∃ hashes : Finset τ, hashes.card = known.requested ∧ ∀ hash, hash ∈ hashes ↔
    ∃ announcement, view hash peer = some announcement ∧ announcement.state = .requested

namespace PeerIndexed

variable {known edited : PeerAnnouncements τ} {new : Announcement τ}

section

variable (indexed : PeerIndexed view peer known)
include indexed

omit [LinearOrder τ] in
/-- Only the announcements of the peer matter. -/
theorem congr {other : View τ}
    (same : ∀ hash, other hash peer = view hash peer) : PeerIndexed other peer known := by
  obtain ⟨all, best, requested⟩ := indexed
  constructor
  · simpa only [same] using all
  · simpa only [same] using best
  · simpa only [same] using requested

omit [LinearOrder τ] in
/-- A peer's announcements have different sequence numbers. -/
theorem hash_unique {announcement : Announcement τ}
    (first : view hash peer = some old) (second : view other peer = some announcement)
    (same : announcement.seq = old.seq) :
    other = hash := by
  have here := (indexed.all old.seq hash).mpr ⟨old, first, rfl⟩
  have there := (indexed.all old.seq other).mpr ⟨announcement, second, same⟩
  rw [here] at there
  exact (some.inj there).symm

/-- The requests of a peer after one announcement changed. -/
theorem requested_set (before : view hash peer = some old) (after : Option (Announcement τ))
    (balanced : edited.requested + (if old.state = .requested then 1 else 0) =
      known.requested + (if after.any (·.state == .requested) then 1 else 0)) :
    ∃ hashes : Finset τ, hashes.card = edited.requested ∧ ∀ other, other ∈ hashes ↔
      ∃ announcement, view.set hash peer after other peer = some announcement ∧
        announcement.state = .requested := by
  obtain ⟨hashes, card, members⟩ := indexed.requested
  have wasRequested : hash ∈ hashes ↔ old.state = .requested := by
    rw [members]
    constructor
    · rintro ⟨announcement, found, requested⟩
      rw [before] at found
      cases found
      exact requested
    · intro requested
      exact ⟨old, before, requested⟩
  have isRequested : (after.any (·.state == .requested) = true) ↔
      ∃ announcement, after = some announcement ∧ announcement.state = .requested := by
    cases after <;> simp
  have others : (hashes.erase hash).card + (if old.state = .requested then 1 else 0) =
      known.requested := by
    rw [← card]
    split
    · next was => exact card_erase_add_one (wasRequested.mpr was)
    · next was => rw [erase_eq_of_notMem (wasRequested.not.mpr was), add_zero]
  by_cases requested : after.any (·.state == .requested) = true
  · refine ⟨insert hash (hashes.erase hash), ?_, ?_⟩
    · rw [if_pos requested] at balanced
      rw [card_insert_of_notMem (notMem_erase _ _)]
      omega
    · intro other
      by_cases same : other = hash
      · subst same
        rw [View.set_same]
        exact iff_of_true (mem_insert_self _ _) (isRequested.mp requested)
      · rw [View.set_hash_ne same, ← members]
        simp [same]
  · refine ⟨hashes.erase hash, ?_, ?_⟩
    · rw [if_neg requested] at balanced
      omega
    · intro other
      by_cases same : other = hash
      · subst same
        rw [View.set_same]
        exact iff_of_false (notMem_erase _ _) fun found => requested (isRequested.mpr found)
      · rw [View.set_hash_ne same, ← members]
        simp [same]

/-- The indexes of a peer after an announcement took another state or time. -/
theorem change (before : view hash peer = some old)
    (seq : new.seq = old.seq) (all : edited.all = known.all)
    (best : ∀ other, edited.best.lookup other = if old.seq = other then
      (if new.state = .best then some hash else none) else known.best.lookup other)
    (balanced : edited.requested + (if old.state = .requested then 1 else 0) =
      known.requested + (if new.state = .requested then 1 else 0)) :
    PeerIndexed (view.set hash peer (some new)) peer edited := by
  constructor
  · intro other announced
    rw [all, indexed.all]
    by_cases same : announced = hash
    · subst same
      rw [View.set_same, before]
      simp [seq]
    · rw [View.set_hash_ne same]
  · intro other announced
    rw [best]
    by_cases same : announced = hash
    · subst same
      rw [View.set_same]
      by_cases own : old.seq = other
      · subst own
        simp [seq]
      · rw [if_neg own, indexed.best]
        simp [before, seq, own]
    · rw [View.set_hash_ne same]
      by_cases own : old.seq = other
      · subst own
        have elsewhere : ∀ announcement, view announced peer = some announcement →
            announcement.seq ≠ old.seq := fun announcement found sameSeq =>
          same (indexed.hash_unique before found sameSeq)
        rw [if_pos rfl]
        constructor
        · intro found
          split at found
          · exact absurd (some.inj found).symm same
          · cases found
        · rintro ⟨announcement, found, sameSeq, -⟩
          exact absurd sameSeq (elsewhere announcement found)
      · rw [if_neg own, indexed.best]
  · apply indexed.requested_set before
    simpa using balanced

/-- The indexes of a peer after an announcement was dropped. -/
theorem drop (before : view hash peer = some old)
    (all : edited.all = known.all.erase old.seq) (best : edited.best = known.best.erase old.seq)
    (balanced : edited.requested + (if old.state = .requested then 1 else 0) = known.requested) :
    PeerIndexed (view.set hash peer none) peer edited := by
  have unique : ∀ other announcement, other ≠ hash → view other peer = some announcement →
      announcement.seq ≠ old.seq := fun other announcement different found same =>
    different (indexed.hash_unique before found same)
  constructor
  · intro other announced
    rw [all, lookup_erase]
    by_cases same : announced = hash
    · subst same
      split
      · simp
      · next different =>
        rw [indexed.all]
        simp [before, different]
    · rw [View.set_hash_ne same]
      split
      · next own =>
        subst own
        refine iff_of_false nofun ?_
        rintro ⟨announcement, found, sameSeq⟩
        exact unique announced announcement same found sameSeq
      · exact indexed.all other announced
  · intro other announced
    rw [best, lookup_erase]
    by_cases same : announced = hash
    · subst same
      split
      · simp
      · next different =>
        rw [indexed.best]
        simp [before, different]
    · rw [View.set_hash_ne same]
      split
      · next own =>
        subst own
        refine iff_of_false nofun ?_
        rintro ⟨announcement, found, sameSeq, -⟩
        exact unique announced announcement same found sameSeq
      · exact indexed.best other announced
  · apply indexed.requested_set before
    simpa using balanced

/-- The indexes of a peer after a new delayed announcement. -/
theorem add (absent : view hash peer = none) (delayed : new.state = .delayed)
    (fresh : ∀ other announcement, view other peer = some announcement →
      announcement.seq ≠ new.seq) :
    PeerIndexed (view.set hash peer (some new)) peer
      { known with all := known.all.insert new.seq hash } := by
  constructor
  · intro seq announced
    rw [lookup_insert]
    by_cases same : announced = hash
    · subst same
      split
      · next own => simp [own]
      · next different =>
        rw [indexed.all]
        simp [absent, different]
    · rw [View.set_hash_ne same]
      split
      · next own =>
        subst own
        refine iff_of_false (fun found => same (some.inj found).symm) ?_
        rintro ⟨announcement, found, sameSeq⟩
        exact fresh announced announcement found sameSeq
      · exact indexed.all seq announced
  · intro seq announced
    rw [indexed.best]
    by_cases same : announced = hash
    · subst same
      simp [absent, delayed]
    · rw [View.set_hash_ne same]
  · obtain ⟨hashes, card, members⟩ := indexed.requested
    refine ⟨hashes, card, ?_⟩
    intro announced
    rw [members]
    by_cases same : announced = hash
    · subst same
      simp [absent, delayed]
    · rw [View.set_hash_ne same]

end

omit [LinearOrder τ] in
/-- A peer without announcements has empty indexes. -/
theorem nothing (absent : ∀ hash, view hash peer = none) : PeerIndexed view peer {} := by
  constructor
  · simp [absent]
  · simp [absent]
  · exact ⟨∅, rfl, by simp [absent]⟩

omit [LinearOrder τ] in
/-- An announcement that is not best is not in the index of best ones. -/
theorem best_none (indexed : PeerIndexed view peer known) (present : view hash peer = some old)
    (other : old.state ≠ .best) : known.best.lookup old.seq = none := by
  by_contra listed
  obtain ⟨announced, found⟩ := ne_none_iff_exists'.mp listed
  obtain ⟨announcement, there, sameSeq, best⟩ := (indexed.best _ _).mp found
  have same := indexed.hash_unique present there sameSeq
  rw [same, present] at there
  cases there
  exact other best

omit [LinearOrder τ] in
/-- A requested announcement is counted. -/
theorem requested_ne_zero (indexed : PeerIndexed view peer known)
    (present : view hash peer = some old) (requested : old.state = .requested) :
    known.requested ≠ 0 := by
  obtain ⟨hashes, card, members⟩ := indexed.requested
  rw [← card]
  exact card_ne_zero_of_mem ((members hash).mpr ⟨old, present, requested⟩)

end PeerIndexed

namespace PeerAnnouncements

omit [LinearOrder τ] in
/-- Releasing an announcement of an indexed peer never fails. -/
theorem releaseIf_eq_some {known : PeerAnnouncements τ} (edited : PeerAnnouncements τ)
    (indexed : PeerIndexed view peer known) (present : view hash peer = some old)
    (same : edited.requested = known.requested) :
    ∃ released, edited.releaseIf old.state = some released ∧ released.all = edited.all ∧
      released.best = edited.best ∧
      released.requested + (if old.state = .requested then 1 else 0) = known.requested := by
  rw [releaseIf]
  by_cases requested : old.state = .requested
  · have counted := indexed.requested_ne_zero present requested
    rw [← same] at counted
    rw [if_pos requested, release, if_neg counted]
    refine ⟨_, rfl, rfl, rfl, ?_⟩
    rw [if_pos requested, ← same]
    exact Nat.sub_add_cancel (Nat.pos_of_ne_zero counted)
  · rw [if_neg requested]
    exact ⟨edited, rfl, rfl, rfl, by rw [if_neg requested, same, add_zero]⟩

end PeerAnnouncements

/-- An edit of a peer's announcements that follows a change of state or time. -/
def EditFollows (view : View τ) (hash : τ) (peer : PeerId) (old new : Announcement τ)
    (edit : PeerAnnouncements τ → Option (PeerAnnouncements τ)) : Prop :=
  ∀ known, PeerIndexed view peer known → ∃ edited, edit known = some edited ∧
    edited.all = known.all ∧
    (∀ other, edited.best.lookup other = if old.seq = other then
      (if new.state = .best then some hash else none) else known.best.lookup other) ∧
    edited.requested + (if old.state = .requested then 1 else 0) =
      known.requested + (if new.state = .requested then 1 else 0)

namespace EditFollows

variable {new : Announcement τ}

omit [LinearOrder τ] in
/-- Nothing to follow for an announcement that is neither best nor requested. -/
theorem refl (present : view hash peer = some old) (wasBest : old.state ≠ .best)
    (wasRequested : old.state ≠ .requested) (best : new.state ≠ .best)
    (requested : new.state ≠ .requested) : EditFollows view hash peer old new some := by
  intro known indexed
  refine ⟨known, rfl, rfl, ?_, by rw [if_neg wasRequested, if_neg requested]⟩
  intro other
  by_cases same : old.seq = other
  · rw [if_pos same, if_neg best, ← same]
    exact indexed.best_none present wasBest
  · rw [if_neg same]

omit [LinearOrder τ] in
/-- A request that is over is no longer counted. -/
theorem release (present : view hash peer = some old) (was : old.state = .requested)
    (best : new.state ≠ .best) (requested : new.state ≠ .requested) :
    EditFollows view hash peer old new PeerAnnouncements.release := by
  intro known indexed
  have counted := indexed.requested_ne_zero present was
  refine ⟨{ known with requested := known.requested - 1 }, if_neg counted, rfl, ?_, ?_⟩
  · intro other
    by_cases same : old.seq = other
    · rw [if_pos same, if_neg best, ← same]
      exact indexed.best_none present (by rw [was]; decide)
    · rw [if_neg same]
  · rw [if_pos was, if_neg requested]
    exact Nat.sub_add_cancel (Nat.pos_of_ne_zero counted)

omit [LinearOrder τ] in
/-- An announcement that is over is neither best nor counted. -/
theorem complete (present : view hash peer = some old) (best : new.state ≠ .best)
    (requested : new.state ≠ .requested) : EditFollows view hash peer old new fun known =>
      { known with best := known.best.erase old.seq }.releaseIf old.state := by
  intro known indexed
  obtain ⟨released, result, all, bests, balanced⟩ := PeerAnnouncements.releaseIf_eq_some
    { known with best := known.best.erase old.seq } indexed present rfl
  refine ⟨released, result, all, ?_, by rw [if_neg requested]; exact balanced⟩
  intro other
  rw [bests, lookup_erase, if_neg best]

omit [LinearOrder τ] in
/-- A candidate that is chosen enters the index of best ones. -/
theorem choose (was : old.state ≠ .requested) (best : new.state = .best) :
    EditFollows view hash peer old new fun known =>
      some { known with best := known.best.insert old.seq hash } := by
  intro known _
  refine ⟨_, rfl, rfl, ?_, by rw [if_neg was, if_neg (by rw [best]; decide)]⟩
  intro other
  rw [if_pos best]
  exact lookup_insert known.best old.seq other hash

omit [LinearOrder τ] in
/-- A candidate that is passed over leaves the index of best ones. -/
theorem passOver (was : old.state ≠ .requested) (best : new.state ≠ .best)
    (requested : new.state ≠ .requested) : EditFollows view hash peer old new fun known =>
      some { known with best := known.best.erase old.seq } := by
  intro known _
  refine ⟨_, rfl, rfl, ?_, by rw [if_neg was, if_neg requested]⟩
  intro other
  rw [if_neg best]
  exact lookup_erase known.best

omit [LinearOrder τ] in
/-- A candidate that is requested leaves the index of best ones and is counted. -/
theorem request (was : old.state ≠ .requested) (requested : new.state = .requested) :
    EditFollows view hash peer old new fun known =>
      some { known with
        best := known.best.erase old.seq
        requested := known.requested + 1 } := by
  intro known _
  refine ⟨_, rfl, rfl, ?_, by rw [if_neg was, if_pos requested]⟩
  intro other
  have best : new.state ≠ .best := by
    rw [requested]
    decide
  rw [if_neg best]
  exact lookup_erase known.best

end EditFollows

/-! ## All indexes -/

/-- What the indexes of a tracker hold for a view of the announcements. Peers that
are gone are no longer indexed although some of their announcements may
still be there. -/
structure Indexed (gone : PeerId → Prop) (view : View τ) (tracker : TxRequestTracker τ) :
    Prop where
  named : ∀ hash peer announcement, view hash peer = some announcement → announcement.peer = peer
  timeline : ∀ deadline, deadline ∈ tracker.timeline ↔
    ∃ announcement, view deadline.hash deadline.peer = some announcement ∧
      announcement.time = deadline.time ∧ announcement.state.isTimed = true
  ready : ∀ deadline, deadline ∈ tracker.ready ↔
    ∃ announcement, view deadline.hash deadline.peer = some announcement ∧
      announcement.time = deadline.time ∧ announcement.state.isDue = true
  known : ∀ peer known, tracker.peers.lookup peer = some known →
    ¬ gone peer ∧ PeerIndexed view peer known ∧
      ∃ hash announcement, view hash peer = some announcement
  unknown : ∀ peer, tracker.peers.lookup peer = none → gone peer ∨ ∀ hash, view hash peer = none

/-- A time index follows the change of one announcement. -/
def Follows (holds : RequestState → Bool) (hash : τ) (peer : PeerId)
    (changed : Option (Announcement τ)) (before after : Finset (Deadline τ)) : Prop :=
  ∀ deadline, deadline ∈ after ↔
    if deadline.hash = hash ∧ deadline.peer = peer then
      ∃ announcement, changed = some announcement ∧ announcement.time = deadline.time ∧
        holds announcement.state = true
    else deadline ∈ before

section

variable (mirrors : ∀ deadline, deadline ∈ before ↔
  ∃ announcement, view deadline.hash deadline.peer = some announcement ∧
    announcement.time = deadline.time ∧ holds announcement.state = true)

include mirrors

/-- A time index that held what the view says holds what the changed view says. -/
theorem Follows.exact (follows : Follows holds hash peer changed before after)
    (deadline : Deadline τ) :
    deadline ∈ after ↔
      ∃ announcement, view.set hash peer changed deadline.hash deadline.peer = some announcement ∧
        announcement.time = deadline.time ∧ holds announcement.state = true := by
  rw [follows]
  by_cases own : deadline.hash = hash ∧ deadline.peer = peer
  · simp [own, View.set_same]
  · rw [if_neg own, mirrors]
    simp only [View.set, own, if_false]

/-- A time index from which the place of an announcement was erased. -/
theorem follows_erase (present : view hash peer = some old) (named : old.peer = peer)
    (erased : ∀ deadline, deadline ∈ after ↔
      deadline ∈ before ∧ (holds old.state = true → deadline ≠ ⟨old.time, hash, old.peer⟩)) :
    Follows holds hash peer none before after := by
  intro deadline
  rw [erased]
  by_cases own : deadline.hash = hash ∧ deadline.peer = peer
  · rw [if_pos own]
    refine iff_of_false ?_ (by simp)
    rintro ⟨member, kept⟩
    obtain ⟨announcement, found, time, state⟩ := (mirrors deadline).mp member
    rw [own.1, own.2, present] at found
    cases found
    apply kept state
    rw [time, ← own.1, named, ← own.2]
  · rw [if_neg own, and_iff_left]
    rintro - rfl
    exact own ⟨rfl, named⟩

/-- A time index that need not follow a change of state within those it lists or
within those it leaves out. -/
theorem follows_same {new : Announcement τ} (present : view hash peer = some old)
    (time : new.time = old.time) (state : holds new.state = holds old.state) :
    Follows holds hash peer (some new) before before := by
  intro deadline
  by_cases own : deadline.hash = hash ∧ deadline.peer = peer
  · rw [if_pos own, mirrors, own.1, own.2, present]
    simp [time, state]
  · rw [if_neg own]

end

/-- A time index into which the place of a changed announcement was inserted, if
its state calls for one. -/
theorem Follows.insert {new : Announcement τ} {cleared : Finset (Deadline τ)}
    (follows : Follows holds hash peer none before cleared)
    (inserted : ∀ deadline, deadline ∈ after ↔
      deadline ∈ cleared ∨ (holds new.state = true ∧ deadline = ⟨new.time, hash, peer⟩)) :
    Follows holds hash peer (some new) before after := by
  intro deadline
  rw [inserted, follows]
  by_cases own : deadline.hash = hash ∧ deadline.peer = peer
  · obtain ⟨rfl, rfl⟩ := own
    simp only [and_self, if_true, reduceCtorEq, false_and, exists_false, false_or,
      some.injEq, exists_eq_left']
    constructor
    · rintro ⟨state, same⟩
      exact ⟨(congrArg Deadline.time same).symm, state⟩
    · rintro ⟨time, state⟩
      refine ⟨state, ?_⟩
      rw [time]
  · rw [if_neg own, if_neg own, or_iff_left]
    rintro ⟨-, rfl⟩
    exact own ⟨rfl, rfl⟩

namespace Indexed

variable {gone : PeerId → Prop} {before after : TxRequestTracker τ} {new : Announcement τ}

/-- The indexes after one announcement changed. -/
theorem edit (indexed : Indexed gone view before)
    (named : ∀ announcement, changed = some announcement → announcement.peer = peer)
    (timeline : Follows RequestState.isTimed hash peer changed before.timeline after.timeline)
    (ready : Follows RequestState.isDue hash peer changed before.ready after.ready)
    (others : ∀ other, other ≠ peer → after.peers.lookup other = before.peers.lookup other)
    (known : ∀ known, after.peers.lookup peer = some known →
      ¬ gone peer ∧ PeerIndexed (view.set hash peer changed) peer known ∧
        ∃ other announcement, view.set hash peer changed other peer = some announcement)
    (unknown : after.peers.lookup peer = none →
      gone peer ∨ ∀ other, view.set hash peer changed other peer = none) :
    Indexed gone (view.set hash peer changed) after := by
  constructor
  · intro other announcer announcement found
    by_cases own : other = hash ∧ announcer = peer
    · obtain ⟨rfl, rfl⟩ := own
      rw [View.set_same] at found
      exact named announcement found
    · simp only [View.set, own, if_false] at found
      exact indexed.named other announcer announcement found
  · exact timeline.exact indexed.timeline
  · exact ready.exact indexed.ready
  · intro announcer found lookup
    by_cases same : announcer = peer
    · subst same
      exact known found lookup
    · rw [others announcer same] at lookup
      obtain ⟨here, peerIndexed, other, announcement, present⟩ :=
        indexed.known announcer found lookup
      refine ⟨here, peerIndexed.congr fun _ => View.set_peer_ne same, other, announcement, ?_⟩
      rwa [View.set_peer_ne same]
  · intro announcer lookup
    by_cases same : announcer = peer
    · subst same
      exact unknown lookup
    · rw [others announcer same] at lookup
      rcases indexed.unknown announcer lookup with isGone | absent
      · exact .inl isGone
      · right
        intro other
        rw [View.set_peer_ne same]
        exact absent other

/-- An announcement taken out of the time indexes leaves no place behind. -/
theorem follows_unindex (indexed : Indexed gone view before) (present : view hash peer = some old) :
    Follows RequestState.isTimed hash peer none before.timeline (before.unindex hash old).timeline ∧
      Follows RequestState.isDue hash peer none before.ready (before.unindex hash old).ready := by
  have named := indexed.named hash peer old present
  constructor
  · apply follows_erase indexed.timeline present named
    intro deadline
    rw [TxRequestTracker.unindex]
    cases old.state <;> simp [RequestState.isTimed, and_comm]
  · apply follows_erase indexed.ready present named
    intro deadline
    rw [TxRequestTracker.unindex]
    cases old.state <;> simp [RequestState.isDue, and_comm]

/-- The indexes after an announcement took another state or time. -/
theorem restate (new : Announcement τ) (after : TxRequestTracker τ)
    (indexed : Indexed gone view before) (present : view hash peer = some old)
    (named : new.peer = peer) (seq : new.seq = old.seq)
    (timeline : Follows RequestState.isTimed hash peer (some new) before.timeline after.timeline)
    (ready : Follows RequestState.isDue hash peer (some new) before.ready after.ready)
    {edit : PeerAnnouncements τ → Option (PeerAnnouncements τ)}
    (edits : EditFollows view hash peer old new edit) :
    ∃ peers, editPeer peer edit before.peers = some peers ∧
      Indexed gone (view.set hash peer (some new)) { after with peers } := by
  have isNamed : ∀ announcement, some new = some announcement → announcement.peer = peer := by
    rintro announcement same
    cases same
    exact named
  rw [editPeer]
  cases lookup : before.peers.lookup peer with
  | none =>
    refine ⟨before.peers, rfl, indexed.edit isNamed timeline ready ?_ ?_ ?_⟩
    · exact fun _ _ => rfl
    · intro known found
      rw [lookup] at found
      cases found
    · intro _
      rcases indexed.unknown peer lookup with isGone | absent
      · exact .inl isGone
      · rw [absent] at present
        cases present
  | some known =>
    obtain ⟨here, peerIndexed, -⟩ := indexed.known peer known lookup
    obtain ⟨edited, result, all, best, balanced⟩ := edits known peerIndexed
    refine ⟨before.peers.insert peer edited, by simp only [result, map_some],
      indexed.edit isNamed timeline ready ?_ ?_ ?_⟩
    · intro other different
      exact Finmap.lookup_insert_of_ne _ different
    · intro found lookupAfter
      rw [Finmap.lookup_insert] at lookupAfter
      cases lookupAfter
      exact ⟨here, peerIndexed.change present seq all best balanced, hash, new, View.set_same ..⟩
    · intro missing
      rw [Finmap.lookup_insert] at missing
      cases missing

/-- The indexes after a new delayed announcement. -/
theorem add (indexed : Indexed gone view before) (absent : view hash new.peer = none)
    (here : ¬ gone new.peer) (delayed : new.state = .delayed)
    (fresh : ∀ other announcement, view other new.peer = some announcement →
      announcement.seq ≠ new.seq)
    (timeline : after.timeline = insert ⟨new.time, hash, new.peer⟩ before.timeline)
    (ready : after.ready = before.ready)
    (peers : after.peers = before.peers.insert new.peer
      { (before.peers.lookup new.peer).getD {} with
        all := ((before.peers.lookup new.peer).getD {}).all.insert new.seq hash }) :
    Indexed gone (view.set hash new.peer (some new)) after := by
  have known : PeerIndexed view new.peer ((before.peers.lookup new.peer).getD {}) := by
    cases lookup : before.peers.lookup new.peer with
    | none => exact .nothing ((indexed.unknown _ lookup).resolve_left here)
    | some known => exact (indexed.known _ known lookup).2.1
  refine indexed.edit ?_ ?_ ?_ ?_ ?_ ?_
  · rintro announcement same
    cases same
    rfl
  · intro deadline
    rw [timeline, Finset.mem_insert]
    by_cases own : deadline.hash = hash ∧ deadline.peer = new.peer
    · obtain ⟨rfl, samePeer⟩ := own
      have missing : deadline ∉ before.timeline := by
        rw [indexed.timeline, samePeer, absent]
        simp
      simp only [samePeer, and_self, if_true, missing, or_false, some.injEq,
        exists_eq_left', delayed, RequestState.isTimed, and_true]
      constructor
      · intro same
        exact (congrArg Deadline.time same).symm
      · intro same
        rw [same, ← samePeer]
    · rw [if_neg own, or_iff_right]
      rintro rfl
      exact own ⟨rfl, rfl⟩
  · intro deadline
    rw [ready]
    by_cases own : deadline.hash = hash ∧ deadline.peer = new.peer
    · rw [if_pos own, indexed.ready, own.1, own.2, absent]
      simp [delayed, RequestState.isDue]
    · rw [if_neg own]
  · intro other different
    rw [peers, Finmap.lookup_insert_of_ne _ different]
  · intro found lookup
    rw [peers, Finmap.lookup_insert] at lookup
    cases lookup
    exact ⟨here, known.add absent delayed fresh, hash, new, View.set_same ..⟩
  · intro missing
    rw [peers, Finmap.lookup_insert] at missing
    cases missing

end Indexed

/-- What operations that only drop or reorder leave alone. -/
structure Shrinks (before after : TxRequestTracker τ) : Prop where
  timeline : after.timeline ⊆ before.timeline
  ready : after.ready ⊆ before.ready
  nextSeq : after.nextSeq = before.nextSeq
  siphash : after.siphash = before.siphash

omit [LinearOrder τ] in
theorem Shrinks.refl (tracker : TxRequestTracker τ) : Shrinks tracker tracker :=
  ⟨fun _ member => member, fun _ member => member, rfl, rfl⟩

omit [LinearOrder τ] in
theorem Shrinks.trans {first second third : TxRequestTracker τ} (before : Shrinks first second)
    (after : Shrinks second third) : Shrinks first third :=
  ⟨after.timeline.trans before.timeline, after.ready.trans before.ready,
    after.nextSeq.trans before.nextSeq, after.siphash.trans before.siphash⟩

theorem shrinks_unindex (hash : τ) (announcement : Announcement τ) (tracker : TxRequestTracker τ) :
    Shrinks tracker (tracker.unindex hash announcement) ∧
      (tracker.unindex hash announcement).txs = tracker.txs ∧
      (tracker.unindex hash announcement).peers = tracker.peers := by
  rw [TxRequestTracker.unindex]
  cases announcement.state with
  | delayed => exact ⟨⟨erase_subset _ _, fun _ member => member, rfl, rfl⟩, rfl, rfl⟩
  | requested => exact ⟨⟨erase_subset _ _, fun _ member => member, rfl, rfl⟩, rfl, rfl⟩
  | ready => exact ⟨⟨fun _ member => member, erase_subset _ _, rfl, rfl⟩, rfl, rfl⟩
  | best => exact ⟨⟨fun _ member => member, erase_subset _ _, rfl, rfl⟩, rfl, rfl⟩
  | completed => exact ⟨.refl tracker, rfl, rfl⟩

/-- Forgetting one announcement. -/
theorem Indexed.forgetAnnouncement {gone : PeerId → Prop} {tracker : TxRequestTracker τ}
    {announcement : Announcement τ} (indexed : Indexed gone view tracker)
    (present : view hash announcement.peer = some announcement) :
    ∃ after, tracker.forgetAnnouncement hash announcement = some after ∧
      Indexed gone (view.set hash announcement.peer none) after ∧ Shrinks tracker after ∧
      after.txs = tracker.txs := by
  obtain ⟨shrinks, txs, peers⟩ := shrinks_unindex hash announcement tracker
  obtain ⟨timeline, ready⟩ := indexed.follows_unindex present
  rw [TxRequestTracker.forgetAnnouncement, peers]
  cases lookup : tracker.peers.lookup announcement.peer with
  | none =>
    refine ⟨_, rfl, indexed.edit nofun timeline ready ?_ ?_ ?_, shrinks, txs⟩
    · exact fun _ _ => by rw [peers]
    · intro known found
      rw [peers, lookup] at found
      cases found
    · intro _
      rcases indexed.unknown _ lookup with isGone | absent
      · exact .inl isGone
      · rw [absent] at present
        cases present
  | some known =>
    obtain ⟨here, peerIndexed, -⟩ := indexed.known _ known lookup
    obtain ⟨released, result, all, best, balanced⟩ :=
      PeerAnnouncements.releaseIf_eq_some { known with
        all := known.all.erase announcement.seq
        best := known.best.erase announcement.seq } peerIndexed present rfl
    have remaining := peerIndexed.drop present all best balanced
    have listed : released.all.keys = ∅ ↔
        ∀ other, view.set hash announcement.peer none other announcement.peer = none := by
      rw [eq_empty_iff_forall_notMem]
      constructor
      · intro empty other
        by_contra there
        obtain ⟨found, isFound⟩ := ne_none_iff_exists'.mp there
        exact empty found.seq (Finmap.mem_keys.mpr (Finmap.mem_iff.mpr
          ⟨other, (remaining.all _ _).mpr ⟨found, isFound, rfl⟩⟩))
      · intro none seq member
        obtain ⟨other, isListed⟩ := Finmap.mem_iff.mp (Finmap.mem_keys.mp member)
        obtain ⟨found, isFound, -⟩ := (remaining.all _ _).mp isListed
        rw [none] at isFound
        cases isFound
    simp only [result, map_some]
    refine ⟨_, rfl, ?_, { shrinks with }, txs⟩
    refine indexed.edit nofun timeline ready ?_ ?_ ?_
    · intro other different
      split
      · exact Finmap.lookup_erase_ne different
      · exact Finmap.lookup_insert_of_ne _ different
    · intro found lookupAfter
      split at lookupAfter
      · rw [Finmap.lookup_erase] at lookupAfter
        cases lookupAfter
      · next nonempty =>
        rw [Finmap.lookup_insert] at lookupAfter
        cases lookupAfter
        refine ⟨here, remaining, ?_⟩
        rw [listed] at nonempty
        push Not at nonempty
        obtain ⟨other, there⟩ := nonempty
        exact ⟨other, ne_none_iff_exists'.mp there⟩
    · intro missing
      split at missing
      · next empty => exact .inr (listed.mp empty)
      · rw [Finmap.lookup_insert] at missing
        cases missing

end Satd.Net
