import Satd.Net.TxRequestCalls
import Satd.Lib.Run

/-!
# Runs of the request tracker

Time points and new announcements keep a tracker consistent as the other calls
do, so every run does. A run also remembers its last time point and how many
announcements had been recorded by then: of those recorded before, exactly the
candidates whose time had come are ready or best.
-/

namespace Satd.Net

open KeyedMap List Option Finset

variable {τ : Type}

/-! ## Time -/

theorem editPeer_refl (peer : PeerId) (peers : Map PeerId (PeerAnnouncements τ)) :
    editPeer peer some peers = some peers := by
  rw [editPeer]
  cases isKnown : peers.lookup peer with
  | none => rfl
  | some known =>
    have same : peers.insert peer known = peers := by
      apply Finmap.ext_lookup
      intro other
      rw [lookup_insert]
      split
      · next own => rw [← own, isKnown]
      · rfl
    simp [same]

variable [LinearOrder τ]

variable {announcements : List (Announcement τ)} {new : Announcement τ}

omit [LinearOrder τ] in
/-- A list in which the announcement of a peer takes a state. -/
theorem setState_split {peer : PeerId} {old : Announcement τ} (distinct : OnePerPeer announcements)
    (found : seen announcements peer = some old) :
    ∃ earlier later, announcements = earlier ++ old :: later ∧ old.peer = peer ∧
      ∀ state, TxRequestTracker.setState peer state announcements =
        earlier ++ { old with state } :: later := by
  obtain ⟨member, rfl⟩ := (seen_eq_some_iff distinct).mp found
  cases place : announcements.findIdx? fun announcement => announcement.peer == old.peer with
  | none => simpa using findIdx?_eq_none_iff.mp place old member
  | some position =>
    obtain ⟨earlier, first, later, rfl, rfl, matching⟩ := split_at place
    have isFirst : first ∈ earlier ++ first :: later := by simp
    obtain rfl := distinct.eq_of_peer member isFirst (by simpa using matching)
    refine ⟨earlier, later, rfl, rfl, ?_⟩
    intro state
    rw [TxRequestTracker.setState, place]
    exact modify_split earlier later first

/-- Consistent with no peer gone and no hash unsettled. -/
abbrev Steady (tracker : TxRequestTracker τ) : Prop :=
  Consistent (fun _ => False) (fun _ => False) tracker

namespace Consistent

variable {tracker : TxRequestTracker τ}

variable {deadline : Deadline τ} {steps : Nat}

/-- The announcement behind a place in an index by time. -/
theorem behind {pending : τ → Prop} {gone : PeerId → Prop} {old : Announcement τ}
    (consistent : Consistent gone pending tracker)
    (found : viewOf tracker.txs deadline.hash deadline.peer = some old) :
    ∃ earlier later, tracker.txs.lookup deadline.hash = some (earlier ++ old :: later) ∧
      old.peer = deadline.peer ∧ ∀ state, TxRequestTracker.setState deadline.peer state
        (earlier ++ old :: later) = earlier ++ { old with state } :: later := by
  rw [viewOf] at found
  cases isListed : tracker.txs.lookup deadline.hash with
  | none =>
    rw [isListed] at found
    cases found
  | some announcements =>
    rw [isListed, getD_some] at found
    obtain ⟨earlier, later, rfl, samePeer, set⟩ :=
      setState_split (consistent.distinct _ _ isListed) found
    exact ⟨earlier, later, rfl, samePeer, set⟩

/-- The deadline that was popped first is the place of a candidate or a request. -/
theorem passOne (consistent : Steady tracker) (member : deadline ∈ tracker.timeline) :
    ∃ old, viewOf tracker.txs deadline.hash deadline.peer = some old ∧
      ((old.state = .delayed ∧ ∃ after, TxRequestTracker.reselect deadline.hash
          { tracker with
            timeline := tracker.timeline.erase deadline
            txs := tracker.txs.insert deadline.hash (TxRequestTracker.setState deadline.peer .ready
              ((tracker.txs.lookup deadline.hash).getD []))
            ready := insert deadline tracker.ready } = some after ∧
          Steady after ∧
          after.timeline ⊆ tracker.timeline.erase deadline) ∨
        (old.state = .requested ∧ ∃ peers after,
          editPeer deadline.peer PeerAnnouncements.release tracker.peers = some peers ∧
          TxRequestTracker.reselect deadline.hash
            { tracker with
              timeline := tracker.timeline.erase deadline
              txs := tracker.txs.insert deadline.hash
                (TxRequestTracker.setState deadline.peer .completed
                  ((tracker.txs.lookup deadline.hash).getD []))
              peers } = some after ∧
          Steady after ∧
          after.timeline ⊆ tracker.timeline.erase deadline)) := by
  obtain ⟨old, found, time, timed⟩ := (consistent.indexed.timeline deadline).mp member
  obtain ⟨earlier, later, isListed, samePeer, set⟩ := consistent.behind found
  have isDeadline : deadline = ⟨old.time, deadline.hash, old.peer⟩ := by
    rw [time, samePeer]
  rw [← samePeer] at found
  obtain ⟨timeline, ready⟩ := consistent.indexed.follows_unindex found
  have unindexed : tracker.unindex deadline.hash old =
      { tracker with timeline := tracker.timeline.erase deadline } := by
    rw [TxRequestTracker.unindex, ← isDeadline]
    cases state : old.state <;> rw [state] at timed <;> first | rfl | cases timed
  rw [unindexed] at timeline ready
  refine ⟨old, by rw [← samePeer]; exact found, ?_⟩
  rw [isListed, getD_some, set, set]
  cases state : old.state with
  | delayed =>
    left
    refine ⟨rfl, ?_⟩
    obtain ⟨peers, edited, changed⟩ := replace { old with state := .ready }
      { tracker with
        timeline := tracker.timeline.erase deadline
        ready := insert deadline tracker.ready }
      consistent isListed rfl rfl ((consistent.oneRequest _ _ isListed).replace (by simp))
      (timeline.insert fun other => by simp [RequestState.isTimed])
      (ready.insert fun other => by
        simp only [mem_insert, or_comm, RequestState.isDue, true_and, ← isDeadline]) rfl
      (.refl found (by rw [state]; decide) (by rw [state]; decide) (by simp) (by simp))
    rw [editPeer_refl] at edited
    cases edited
    obtain ⟨after, result, consistentAfter, shrinks, -⟩ := changed.reselect
    exact ⟨after, result, consistentAfter, shrinks.timeline⟩
  | requested =>
    right
    refine ⟨rfl, ?_⟩
    obtain ⟨peers, edited, changed⟩ := replace { old with state := .completed }
      { tracker with timeline := tracker.timeline.erase deadline }
      consistent isListed rfl rfl ((consistent.oneRequest _ _ isListed).replace (by simp))
      (timeline.insert fun other => by simp [RequestState.isTimed])
      (ready.insert fun other => by simp [RequestState.isDue]) rfl
      (.release found state (by simp) (by simp))
    obtain ⟨after, result, consistentAfter, shrinks, -⟩ := changed.reselect
    rw [samePeer] at edited
    exact ⟨peers, after, edited, result, consistentAfter, shrinks.timeline⟩
  | ready | best | completed =>
    rw [state] at timed
    cases timed

/-- Passing time never fails and leaves only deadlines to come. -/
theorem passTime (now : Nat) (expired : List (PeerId × GenTxid τ)) (consistent : Steady tracker)
    (enough : tracker.timeline.card < steps) :
    ∃ after expiredAfter, tracker.passTime steps now expired = some (after, expiredAfter) ∧
      Steady after ∧
      ∀ deadline ∈ after.timeline, now < deadline.time := by
  induction steps generalizing tracker expired with
  | zero => exact absurd enough (Nat.not_lt_zero _)
  | succ steps ih =>
    rw [TxRequestTracker.passTime]
    cases first : tracker.timeline.min with
    | top =>
      refine ⟨tracker, expired, rfl, consistent, ?_⟩
      rw [min_eq_top.mp first]
      simp
    | coe deadline =>
      have member := mem_of_min first
      by_cases toCome : now < deadline.time
      · refine ⟨tracker, expired, if_pos toCome, consistent, ?_⟩
        intro other isOther
        exact toCome.trans_le (Deadline.time_le_of_le (min_le_of_eq isOther first))
      · have fewer : ∀ after : TxRequestTracker τ,
            after.timeline ⊆ tracker.timeline.erase deadline → after.timeline.card < steps := by
          intro after subset
          have popped := card_erase_lt_of_mem member
          have bound := card_le_card subset
          omega
        obtain ⟨old, found, cases⟩ := consistent.passOne member
        have isFound : ((tracker.txs.lookup deadline.hash).getD []).find?
            (fun announcement => announcement.peer == deadline.peer) = some old := found
        rcases cases with ⟨state, next, result, consistentNext, subset⟩ |
          ⟨state, peers, next, edited, result, consistentNext, subset⟩
        · obtain ⟨after, expiredAfter, resultAfter, rest⟩ :=
            ih expired consistentNext (fewer next subset)
          refine ⟨after, expiredAfter, ?_, rest⟩
          simp [if_neg toCome, isFound, state, result, bind_eq_bind, bind_some, resultAfter]
        · obtain ⟨after, expiredAfter, resultAfter, rest⟩ :=
            ih (expired ++ [(deadline.peer, old.gtxid)]) consistentNext (fewer next subset)
          refine ⟨after, expiredAfter, ?_, rest⟩
          simp [if_neg toCome, isFound, state, edited, result, bind_eq_bind, bind_some, resultAfter]

/-- The place that was popped last is that of a candidate that is no longer due. -/
theorem turnOne (consistent : Steady tracker) (member : deadline ∈ tracker.ready) :
    ∃ old after, viewOf tracker.txs deadline.hash deadline.peer = some old ∧
      TxRequestTracker.reselect deadline.hash
        { tracker with
          ready := tracker.ready.erase deadline
          txs := tracker.txs.insert deadline.hash (TxRequestTracker.setState deadline.peer .delayed
            ((tracker.txs.lookup deadline.hash).getD []))
          peers := if old.state = .best then
              touchPeer deadline.peer (fun known =>
                { known with best := known.best.erase old.seq }) tracker.peers
            else tracker.peers
          timeline := insert deadline tracker.timeline } = some after ∧
      Steady after ∧
      after.ready ⊆ tracker.ready.erase deadline ∧
      after.timeline ⊆ insert deadline tracker.timeline := by
  obtain ⟨old, found, time, due⟩ := (consistent.indexed.ready deadline).mp member
  obtain ⟨earlier, later, isListed, samePeer, set⟩ := consistent.behind found
  have isDeadline : deadline = ⟨old.time, deadline.hash, old.peer⟩ := by
    rw [time, samePeer]
  rw [← samePeer] at found
  obtain ⟨timeline, ready⟩ := consistent.indexed.follows_unindex found
  have unindexed : tracker.unindex deadline.hash old =
      { tracker with ready := tracker.ready.erase deadline } := by
    rw [TxRequestTracker.unindex]
    cases state : old.state with
    | ready | best => rw [← isDeadline]
    | delayed | requested | completed =>
      rw [state] at due
      cases due
  rw [unindexed] at timeline ready
  have wasCandidate : old.state ≠ .requested := fun was => by
    rw [was] at due
    cases due
  have changes : ∀ edit : PeerAnnouncements τ → Option (PeerAnnouncements τ),
      EditFollows (viewOf tracker.txs) deadline.hash old.peer old { old with state := .delayed }
        edit → _ :=
    fun edit => replace { old with state := .delayed }
      { tracker with
        ready := tracker.ready.erase deadline
        timeline := insert deadline tracker.timeline }
      consistent isListed rfl rfl ((consistent.oneRequest _ _ isListed).replace (by simp))
      (timeline.insert fun other => by
        simp only [mem_insert, or_comm, RequestState.isTimed, true_and, ← isDeadline])
      (ready.insert fun other => by simp [RequestState.isDue]) rfl
  have changed : Consistent (fun _ => False) (· = deadline.hash)
      { tracker with
        ready := tracker.ready.erase deadline
        txs := tracker.txs.insert deadline.hash (earlier ++ { old with state := .delayed } :: later)
        peers := if old.state = .best then
            touchPeer deadline.peer (fun known =>
              { known with best := known.best.erase old.seq }) tracker.peers
          else tracker.peers
        timeline := insert deadline tracker.timeline } := by
    by_cases wasBest : old.state = .best
    · obtain ⟨peers, edited, changed⟩ := changes _ (.passOver wasCandidate (by simp) (by simp))
      rw [editPeer_some, samePeer] at edited
      cases edited
      rw [if_pos wasBest]
      exact changed
    · obtain ⟨peers, edited, changed⟩ :=
        changes _ (.refl found wasBest wasCandidate (by simp) (by simp))
      rw [editPeer_refl] at edited
      cases edited
      rw [if_neg wasBest]
      exact changed
  obtain ⟨after, result, consistentAfter, shrinks, -⟩ := changed.reselect
  refine ⟨old, after, by rw [← samePeer]; exact found, ?_, consistentAfter, shrinks.ready,
    shrinks.timeline⟩
  rw [isListed, getD_some, set]
  exact result

/-- Turning back never fails and leaves only candidates that are due. -/
theorem turnBack {now : Nat} (consistent : Steady tracker) (enough : tracker.ready.card < steps)
    (toCome : ∀ deadline ∈ tracker.timeline, now < deadline.time) :
    ∃ after, tracker.turnBack steps now = some after ∧
      Steady after ∧
      (∀ deadline ∈ after.timeline, now < deadline.time) ∧
      ∀ deadline ∈ after.ready, deadline.time ≤ now := by
  induction steps generalizing tracker with
  | zero => exact absurd enough (Nat.not_lt_zero _)
  | succ steps ih =>
    rw [TxRequestTracker.turnBack]
    cases last : tracker.ready.max with
    | bot =>
      refine ⟨tracker, rfl, consistent, toCome, ?_⟩
      rw [max_eq_bot.mp last]
      simp
    | coe deadline =>
      have member := mem_of_max last
      by_cases due : deadline.time ≤ now
      · refine ⟨tracker, if_pos due, consistent, toCome, ?_⟩
        intro other isOther
        exact (Deadline.time_le_of_le (le_max_of_eq isOther last)).trans due
      · obtain ⟨old, next, found, result, consistentNext, ready, timeline⟩ :=
          consistent.turnOne member
        have isFound : ((tracker.txs.lookup deadline.hash).getD []).find?
            (fun announcement => announcement.peer == deadline.peer) = some old := found
        have popped := card_erase_lt_of_mem member
        have fewer := card_le_card ready
        obtain ⟨after, resultAfter, rest⟩ := ih consistentNext (by omega) (by
          intro other isOther
          rcases mem_insert.mp (timeline isOther) with rfl | before
          · exact Nat.lt_of_not_le due
          · exact toCome other before)
        refine ⟨after, ?_, rest⟩
        simp [if_neg due, isFound, result, bind_eq_bind, bind_some, resultAfter]

theorem setTimePoint (consistent : Steady tracker)
    (now : Nat) : ∃ after expired, tracker.setTimePoint now = some (after, expired) ∧
      Steady after ∧
      (∀ deadline ∈ after.timeline, now < deadline.time) ∧
      ∀ deadline ∈ after.ready, deadline.time ≤ now := by
  obtain ⟨passed, expired, result, consistentPassed, toCome⟩ :=
    consistent.passTime now [] (Nat.lt_succ_self _)
  obtain ⟨after, resultAfter, rest⟩ := consistentPassed.turnBack (Nat.lt_succ_self _) toCome
  refine ⟨after, expired, ?_, rest⟩
  simp [TxRequestTracker.setTimePoint, result, resultAfter]

end Consistent

/-! ## New announcements -/

omit [LinearOrder τ] in
/-- A new delayed announcement leaves the choice as it is. -/
theorem Settled.add (settled : announcements = [] ∨ Settled announcements)
    (delayed : new.state = .delayed) :
    Settled (announcements ++ [new]) := by
  have among : ∀ announcement ∈ announcements ++ [new], announcement.state ≠ .delayed →
      announcement ∈ announcements := by
    intro announcement member other
    rcases mem_append.mp member with before | isNew
    · exact before
    · rw [List.mem_singleton.mp isNew] at other
      exact absurd delayed other
  have notDelayed : ∀ state : RequestState,
      (state.isHeld = true ∨ state.isDue = true) → state ≠ .delayed := by
    rintro _ kind rfl
    rcases kind with held | due
    · cases held
    · cases due
  constructor
  · intro first firstMember second secondMember firstHeld secondHeld
    have firstAmong := among first firstMember (notDelayed _ (.inl firstHeld))
    have secondAmong := among second secondMember (notDelayed _ (.inl secondHeld))
    rcases settled with rfl | settled
    · cases firstAmong
    · exact settled.held first firstAmong second secondAmong firstHeld secondHeld
  · intro noRequest due member isDue
    have dueAmong := among due member (notDelayed _ (.inr isDue))
    rcases settled with rfl | settled
    · cases dueAmong
    · obtain ⟨chosen, chosenAmong, best, above⟩ := settled.best
        (fun announcement before => noRequest announcement (mem_append_left _ before))
        due dueAmong isDue
      refine ⟨chosen, mem_append_left _ chosenAmong, best, ?_⟩
      intro other isOther otherDue
      exact above other (among other isOther (notDelayed _ (.inr otherDue))) otherDue
  · exact ⟨new, by simp, by rw [delayed]; exact nofun⟩

/-- A view after an announcement was appended for a peer that had none. -/
theorem viewOf_append {txs : Map τ (List (Announcement τ))} {hash : τ}
    (absent : viewOf txs hash new.peer = none) :
    viewOf (txs.insert hash ((txs.lookup hash).getD [] ++ [new])) =
      (viewOf txs).set hash new.peer (some new) := by
  rw [viewOf_insert]
  funext other peer
  by_cases own : other = hash
  · subst own
    rw [View.row_same, seen, find?_append]
    by_cases samePeer : peer = new.peer
    · subst samePeer
      rw [View.set_same]
      have none : find? (fun announcement => announcement.peer == new.peer)
          ((txs.lookup other).getD []) = none := absent
      rw [none]
      simp
    · rw [View.set_peer_ne samePeer]
      have isNot : (new.peer == peer) = false := by simpa using Ne.symm samePeer
      simp only [find?_singleton, isNot, Bool.false_eq_true, if_false, or_none]
      rfl
  · rw [View.set_hash_ne own, View.row_hash_ne own]

/-- What an operation that may record delayed announcements does: every
announcement was there before or is a recorded one. -/
structure Records (before after : TxRequestTracker τ) : Prop where
  consistent : Steady after
  nextSeq : before.nextSeq ≤ after.nextSeq
  origin : ∀ hash announcements, after.txs.lookup hash = some announcements →
    ∀ new ∈ announcements,
      (∃ earlier, before.txs.lookup hash = some earlier ∧ new ∈ earlier) ∨
        (before.nextSeq ≤ new.seq ∧ new.state = .delayed)

namespace Records

variable {first second third tracker : TxRequestTracker τ}

theorem refl (consistent : Steady tracker) : Records tracker tracker :=
  ⟨consistent, le_rfl, fun _ announcements found _ member => .inl ⟨announcements, found, member⟩⟩

theorem trans (before : Records first second) (after : Records second third) :
    Records first third := by
  refine ⟨after.consistent, before.nextSeq.trans after.nextSeq, ?_⟩
  intro hash announcements found new member
  rcases after.origin hash announcements found new member with ⟨earlier, there, among⟩ | recorded
  · exact before.origin hash earlier there new among
  · exact .inr ⟨before.nextSeq.trans recorded.1, recorded.2⟩

theorem receivedInv (consistent : Steady tracker)
    (peer : PeerId) (gtxid : GenTxid τ) (preferred : Bool) (reqtime : Nat) :
    Records tracker (tracker.receivedInv peer gtxid preferred reqtime).1 := by
  rw [TxRequestTracker.receivedInv]
  by_cases announced : (((tracker.txs.lookup gtxid.hash).getD []).any fun announcement =>
      announcement.peer == peer) = true
  · simp only [announced, if_true]
    exact .refl consistent
  · simp only [announced, Bool.false_eq_true, if_false]
    simp only [List.any_eq_true, beq_iff_eq, not_exists, not_and] at announced
    have rows : ∀ announcement ∈ (tracker.txs.lookup gtxid.hash).getD [],
        tracker.txs.lookup gtxid.hash = some ((tracker.txs.lookup gtxid.hash).getD []) := by
      intro announcement member
      cases found : tracker.txs.lookup gtxid.hash with
      | none =>
        rw [found] at member
        cases member
      | some announcements => rfl
    have absent : viewOf tracker.txs gtxid.hash peer = none := by
      apply find?_eq_none.mpr
      intro announcement member
      simpa using announced announcement member
    have fresh : ∀ other announcement, viewOf tracker.txs other peer = some announcement →
        announcement.seq ≠ tracker.nextSeq := by
      intro other announcement found
      rw [viewOf] at found
      cases isListed : tracker.txs.lookup other with
      | none =>
        rw [isListed] at found
        cases found
      | some announcements =>
        rw [isListed] at found
        exact (consistent.numbered other announcements isListed announcement
          (mem_of_find?_eq_some found)).ne
    have settled : (tracker.txs.lookup gtxid.hash).getD [] = [] ∨
        Settled ((tracker.txs.lookup gtxid.hash).getD []) := by
      cases found : tracker.txs.lookup gtxid.hash with
      | none => exact .inl rfl
      | some announcements => exact .inr (consistent.settled _ announcements found id)
    have distinct : OnePerPeer ((tracker.txs.lookup gtxid.hash).getD []) := by
      cases found : tracker.txs.lookup gtxid.hash with
      | none => exact nodup_nil
      | some announcements => exact consistent.distinct _ announcements found
    constructor
    · refine consistent.put rfl (Nat.le_succ _) ?_ ?_ ?_ (Settled.add settled rfl).oneRequest
        (fun _ => .add settled rfl) fun _ _ => id
      · dsimp only
        rw [viewOf_append absent]
        exact consistent.indexed.add absent id rfl fresh rfl rfl rfl
      · rw [OnePerPeer, map_append, nodup_append]
        refine ⟨distinct, nodup_singleton _, ?_⟩
        intro before isBefore last isLast same
        obtain ⟨announcement, member, rfl⟩ := mem_map.mp isBefore
        rw [List.map_singleton, List.mem_singleton] at isLast
        exact announced announcement member (same.trans isLast)
      · intro announcement member
        rcases mem_append.mp member with before | isNew
        · exact (consistent.numbered _ _ (rows announcement before) announcement before).trans
            (Nat.lt_succ_self _)
        · rw [List.mem_singleton.mp isNew]
          exact Nat.lt_succ_self _
    · exact Nat.le_succ _
    · intro hash announcements found new member
      rw [lookup_insert] at found
      split at found
      · next own =>
        cases found
        rcases mem_append.mp member with before | isNew
        · rw [← own]
          exact .inl ⟨_, rows new before, before⟩
        · rw [List.mem_singleton.mp isNew]
          exact .inr ⟨le_rfl, rfl⟩
      · exact .inl ⟨announcements, found, member⟩

theorem addAnnouncement (consistent : Steady tracker)
    (peer : PeerId) (gtxid : GenTxid τ) (info : AnnouncerInfo) (wtxidPeers now : Nat) :
    Records tracker (tracker.addAnnouncement peer gtxid info wtxidPeers now).1 := by
  rw [TxRequestTracker.addAnnouncement]
  split
  · exact .refl consistent
  · exact receivedInv consistent peer gtxid info.preferred _

theorem receivedAll {peer : PeerId} {parents : List τ} {preferred : Bool} {reqtime : Nat}
    (consistent : Steady tracker) :
    Records tracker (parents.foldl (fun tracker parent =>
      (tracker.receivedInv peer (.txid parent) preferred reqtime).1) tracker) := by
  induction parents generalizing tracker with
  | nil => exact .refl consistent
  | cons parent rest ih =>
    rw [foldl_cons]
    have one := receivedInv consistent peer (.txid parent) preferred reqtime
    exact one.trans (ih one.consistent)

theorem addOrphanResolutionCandidate (consistent : Steady tracker) (peer : PeerId)
    (parents : List τ) (info : AnnouncerInfo) (wtxidPeers now : Nat) :
    Records tracker (tracker.addOrphanResolutionCandidate peer parents info wtxidPeers now).1 := by
  rw [TxRequestTracker.addOrphanResolutionCandidate]
  split
  · exact .refl consistent
  · exact receivedAll consistent

end Records

/-! ## Runs -/

/-- A call of the tracker. -/
inductive TrackerCall (τ : Type) where
  | receivedInv (peer : PeerId) (gtxid : GenTxid τ) (preferred : Bool) (reqtime : Nat)
  | addAnnouncement (peer : PeerId) (gtxid : GenTxid τ) (info : AnnouncerInfo)
      (wtxidPeers now : Nat)
  | addOrphanResolutionCandidate (peer : PeerId) (parents : List τ) (info : AnnouncerInfo)
      (wtxidPeers now : Nat)
  | getRequestable (peer : PeerId) (now : Nat)
  | requestedTx (peer : PeerId) (hash : τ) (expiry : Nat)
  | receivedResponse (peer : PeerId) (hash : τ)
  | forgetTxHash (hash : τ)
  | disconnectedPeer (peer : PeerId)

/-- A tracker with the last time point it was asked at and how many announcements
it had recorded by then. -/
structure TrackerRun (τ : Type) where
  tracker : TxRequestTracker τ
  lastTime : Nat := 0
  recorded : Nat := 0

namespace TrackerRun

/-- One call. -/
def step (run : TrackerRun τ) : TrackerCall τ → Option (TrackerRun τ)
  | .receivedInv peer gtxid preferred reqtime =>
    some { run with tracker := (run.tracker.receivedInv peer gtxid preferred reqtime).1 }
  | .addAnnouncement peer gtxid info wtxidPeers now =>
    some { run with tracker := (run.tracker.addAnnouncement peer gtxid info wtxidPeers now).1 }
  | .addOrphanResolutionCandidate peer parents info wtxidPeers now =>
    some { run with tracker :=
      (run.tracker.addOrphanResolutionCandidate peer parents info wtxidPeers now).1 }
  | .getRequestable peer now =>
    (run.tracker.getRequestable peer now).map fun (tracker, _, _) =>
      ⟨tracker, now, tracker.nextSeq⟩
  | .requestedTx peer hash expiry =>
    (run.tracker.requestedTx peer hash expiry).map fun tracker => { run with tracker }
  | .receivedResponse peer hash =>
    (run.tracker.receivedResponse peer hash).map fun tracker => { run with tracker }
  | .forgetTxHash hash =>
    (run.tracker.forgetTxHash hash).map fun tracker => { run with tracker }
  | .disconnectedPeer peer =>
    (run.tracker.disconnectedPeer peer).map fun tracker => { run with tracker }

variable (siphash : τ → PeerId → UInt64) (calls : List (TrackerCall τ))

/-- The calls one after another, from an empty tracker. -/
def after : Option (TrackerRun τ) := calls.foldlM step ⟨{ siphash }, 0, 0⟩

/-- What every call keeps: the tracker is consistent, a candidate recorded before
the last time point is ready or best exactly if its time had come, and one
recorded since is neither. -/
structure Sound (run : TrackerRun τ) : Prop where
  consistent : Steady run.tracker
  recorded : run.recorded ≤ run.tracker.nextSeq
  due : ∀ hash announcements, run.tracker.txs.lookup hash = some announcements →
    ∀ announcement ∈ announcements, announcement.seq < run.recorded →
      announcement.state.isCandidate = true →
        (announcement.state.isDue = true ↔ announcement.time ≤ run.lastTime)
  fresh : ∀ hash announcements, run.tracker.txs.lookup hash = some announcements →
    ∀ announcement ∈ announcements, run.recorded ≤ announcement.seq →
      announcement.state.isDue = false

theorem isCandidate_of_isDue {state : RequestState} (due : state.isDue = true) :
    state.isCandidate = true := by
  cases state <;> first | rfl | cases due

namespace Sound

variable {run : TrackerRun τ}

theorem empty (siphash : τ → PeerId → UInt64) : Sound ⟨{ siphash }, 0, 0⟩ := by
  have none : ∀ hash, (∅ : Map τ (List (Announcement τ))).lookup hash = none :=
    fun hash => Finmap.lookup_empty hash
  constructor
  · constructor
    · constructor
      · intro hash peer announcement found
        simp [viewOf, none, seen] at found
      · intro deadline
        simp [viewOf, none, seen]
      · intro deadline
        simp [viewOf, none, seen]
      · intro peer known found
        simp at found
      · intro peer _
        right
        intro hash
        simp [viewOf, none, seen]
    all_goals
      intro hash announcements found
      simp at found
  · exact le_rfl
  · intro hash announcements found
    simp at found
  · intro hash announcements found
    simp at found

/-- A call that records nothing. -/
theorem keeps {result : Option (TxRequestTracker τ)} (sound : Sound run)
    (kept : Consistent.Keeps (fun _ => False) run.tracker result) :
    ∃ next, result.map (fun tracker => { run with tracker }) = some next ∧ Sound next := by
  obtain ⟨tracker, rfl, consistent, nextSeq, descends⟩ := kept
  refine ⟨_, rfl, consistent, sound.recorded.trans nextSeq.ge, ?_, ?_⟩
  · intro hash announcements found announcement member before candidate
    obtain ⟨earlier, foundBefore, stems⟩ := descends hash announcements found
    obtain ⟨origin, among, stem⟩ := stems announcement member
    obtain ⟨wasCandidate, time, due⟩ := stem.candidate candidate
    rw [due, time]
    rw [stem.seq] at before
    exact sound.due hash earlier foundBefore origin among before wasCandidate
  · intro hash announcements found announcement member since
    obtain ⟨earlier, foundBefore, stems⟩ := descends hash announcements found
    obtain ⟨origin, among, stem⟩ := stems announcement member
    rw [stem.seq] at since
    have wasNotDue := sound.fresh hash earlier foundBefore origin among since
    by_contra due
    have isDue : announcement.state.isDue = true := by simpa using due
    obtain ⟨-, -, same⟩ := stem.candidate (isCandidate_of_isDue isDue)
    rw [same, wasNotDue] at isDue
    cases isDue

/-- A call that may record announcements. -/
theorem records {tracker : TxRequestTracker τ} (sound : Sound run)
    (recording : Records run.tracker tracker) : Sound { run with tracker } := by
  refine ⟨recording.consistent, sound.recorded.trans recording.nextSeq, ?_, ?_⟩
  · intro hash announcements found announcement member before candidate
    rcases recording.origin hash announcements found announcement member with
      ⟨earlier, there, among⟩ | ⟨since, -⟩
    · exact sound.due hash earlier there announcement among before candidate
    · have bound := sound.recorded
      dsimp only at before
      omega
  · intro hash announcements found announcement member since
    rcases recording.origin hash announcements found announcement member with
      ⟨earlier, there, among⟩ | ⟨-, delayed⟩
    · exact sound.fresh hash earlier there announcement among since
    · rw [delayed]
      rfl

/-- At a time point every candidate is judged by its time. -/
theorem timePoint {tracker : TxRequestTracker τ} {now : Nat} (consistent : Steady tracker)
    (toCome : ∀ deadline ∈ tracker.timeline, now < deadline.time)
    (due : ∀ deadline ∈ tracker.ready, deadline.time ≤ now) :
    Sound ⟨tracker, now, tracker.nextSeq⟩ := by
  refine ⟨consistent, le_rfl, ?_, ?_⟩
  · intro hash announcements found announcement member _ candidate
    have present : viewOf tracker.txs hash announcement.peer = some announcement := by
      rw [← viewOf_row found]
      exact View.row_member _ _ (consistent.distinct hash announcements found) member
    constructor
    · intro isDue
      exact due ⟨announcement.time, hash, announcement.peer⟩
        ((consistent.indexed.ready _).mpr ⟨announcement, present, rfl, isDue⟩)
    · intro passed
      by_contra notDue
      have timed : announcement.state.isTimed = true := by
        cases state : announcement.state with
        | delayed | requested => rfl
        | ready | best =>
          rw [state] at notDue
          exact absurd rfl notDue
        | completed =>
          rw [state] at candidate
          cases candidate
      have later := toCome ⟨announcement.time, hash, announcement.peer⟩
        ((consistent.indexed.timeline _).mpr ⟨announcement, present, rfl, timed⟩)
      exact absurd passed (Nat.not_le_of_lt later)
  · intro hash announcements found announcement member since
    exact absurd (consistent.numbered hash announcements found announcement member)
      (Nat.not_lt_of_le since)

/-- Every call succeeds and keeps the run sound. -/
theorem step (sound : Sound run) (call : TrackerCall τ) :
    ∃ next, run.step call = some next ∧ Sound next := by
  cases call with
  | receivedInv peer gtxid preferred reqtime =>
    exact ⟨_, rfl, sound.records (.receivedInv sound.consistent peer gtxid preferred reqtime)⟩
  | addAnnouncement peer gtxid info wtxidPeers now =>
    exact ⟨_, rfl, sound.records (.addAnnouncement sound.consistent peer gtxid info wtxidPeers now)⟩
  | addOrphanResolutionCandidate peer parents info wtxidPeers now =>
    exact ⟨_, rfl, sound.records
      (.addOrphanResolutionCandidate sound.consistent peer parents info wtxidPeers now)⟩
  | getRequestable peer now =>
    obtain ⟨after, expired, result, consistent, toCome, due⟩ := sound.consistent.setTimePoint now
    refine ⟨⟨after, now, after.nextSeq⟩, ?_, timePoint consistent toCome due⟩
    simp only [TrackerRun.step, TxRequestTracker.getRequestable, result, bind_eq_bind, bind_some]
    cases after.peers.lookup peer <;> rfl
  | requestedTx peer hash expiry =>
    exact sound.keeps (sound.consistent.requestedTx peer hash expiry)
  | receivedResponse peer hash =>
    exact sound.keeps (sound.consistent.receivedResponse peer hash)
  | forgetTxHash hash =>
    obtain ⟨after, result, consistent, shrinks, descends⟩ := sound.consistent.forgetTxHash hash
    refine sound.keeps ⟨after, result, { consistent with settled := ?_ }, shrinks.nextSeq, descends⟩
    intro other announcements found _
    exact consistent.settled other announcements found fun both => both.2
  | disconnectedPeer peer =>
    exact sound.keeps (sound.consistent.disconnectedPeer peer)

end Sound

/-- After every sequence of calls, none of which can fail: a peer has at most one
announcement for a hash, at most one announcement of a hash is best or
requested, some announcement of it is not completed, and if none is requested
and some candidate recorded before the last time point had its time come by
then, exactly one is best, of the highest priority among those due; and every
index holds exactly the announcements whose states call for it. -/
theorem run_invariant :
    ∃ run, after siphash calls = some run ∧
      (∀ hash announcements, run.tracker.txs.lookup hash = some announcements →
        OnePerPeer announcements ∧
        (∀ first ∈ announcements, ∀ second ∈ announcements, first.state.isHeld = true →
          second.state.isHeld = true → first = second) ∧
        (∃ announcement ∈ announcements, announcement.state ≠ .completed) ∧
        ((∀ announcement ∈ announcements, announcement.state ≠ .requested) →
          ∀ candidate ∈ announcements, candidate.state.isCandidate = true →
            candidate.seq < run.recorded → candidate.time ≤ run.lastTime →
              ∃ best ∈ announcements, best.state = .best ∧
                (∀ other ∈ announcements, other.state = .best → other = best) ∧
                ∀ other ∈ announcements, other.state.isDue = true →
                  other.priority ≤ best.priority)) ∧
      Indexed (fun _ => False) (viewOf run.tracker.txs) run.tracker := by
  obtain ⟨run, result, sound⟩ :=
    Run.foldlM_succeeds (fun _ sound => Sound.step sound) calls (Sound.empty siphash)
  refine ⟨run, result, ?_, sound.consistent.indexed⟩
  intro hash announcements found
  have settled := sound.consistent.settled hash announcements found id
  refine ⟨sound.consistent.distinct hash announcements found, settled.held, settled.unfinished, ?_⟩
  intro noRequest candidate member isCandidate before passed
  have due := (sound.due hash announcements found candidate member before isCandidate).mpr passed
  obtain ⟨best, bestMember, isBest, above⟩ := settled.best noRequest candidate member due
  refine ⟨best, bestMember, isBest, ?_, above⟩
  intro other isOther otherBest
  apply settled.held other isOther best bestMember
  · rw [otherBest]
    rfl
  · rw [isBest]
    rfl

/-- A candidate recorded after the last time point waits for the next one even if
its time is past: nothing is requested and nothing is best. -/
theorem late_candidate_waits : ∃ run candidate,
    after (fun (_ : Nat) _ => 0) [.getRequestable 1 100, .receivedInv 1 (.wtxid 7) true 50] =
        some run ∧
      run.tracker.txs.lookup 7 = some [candidate] ∧ candidate.state = .delayed ∧
      candidate.time ≤ run.lastTime := by
  refine ⟨_, _, rfl, rfl, rfl, ?_⟩
  decide

end TrackerRun

end Satd.Net
