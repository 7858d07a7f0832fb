import Satd.Net.TxRequestChoice

/-!
# Requests, replies and disconnections

Each of these calls changes announcements that are there, chooses the best
candidate anew and records nothing: it takes a consistent tracker to a consistent
one whose announcements stem from those before, and it never fails.
-/

namespace Satd.Net

open KeyedMap List Option

variable {τ : Type}

/-! ## One announcement changes -/

/-- The list around the place of the first announcement of a kind. -/
theorem split_at {announcements : List (Announcement τ)} {kind : Announcement τ → Bool}
    {position : Nat} (place : announcements.findIdx? kind = some position) :
    ∃ earlier old later, announcements = earlier ++ old :: later ∧ earlier.length = position ∧
      kind old = true := by
  obtain ⟨bound, matching, -⟩ := findIdx?_eq_some_iff_getElem.mp place
  refine ⟨announcements.take position, announcements[position],
    announcements.drop (position + 1), ?_, ?_, matching⟩
  · rw [getElem_cons_drop, take_append_drop]
  · rw [length_take, min_eq_left bound.le]

variable (earlier later : List (Announcement τ)) (old : Announcement τ)

theorem get_split : (earlier ++ old :: later)[earlier.length]? = some old := by
  simp

theorem set_split (old new : Announcement τ) :
    (earlier ++ old :: later).set earlier.length new = earlier ++ new :: later := by
  simp

theorem modify_split {change : Announcement τ → Announcement τ} :
    (earlier ++ old :: later).modify earlier.length change = earlier ++ change old :: later := by
  induction earlier with
  | nil => simp
  | cons first rest ih => simpa using ih

theorem OneRequest.replace {earlier later : List (Announcement τ)} {old new : Announcement τ}
    (oneRequest : OneRequest (earlier ++ old :: later)) (other : new.state ≠ .requested) :
    OneRequest (earlier ++ new :: later) := by
  have was : ∀ announcement ∈ earlier ++ new :: later, announcement.state = .requested →
      announcement ∈ earlier ++ old :: later := by
    intro announcement member requested
    have different : announcement ≠ new := fun same => other (same ▸ requested)
    simp only [mem_append, mem_cons, different, false_or] at member
    simp only [mem_append, mem_cons]
    exact member.imp_right .inr
  intro first firstMember second secondMember firstRequested secondRequested
  exact oneRequest first (was first firstMember firstRequested) second
    (was second secondMember secondRequested) firstRequested secondRequested

variable [LinearOrder τ]

namespace Consistent

variable {gone : PeerId → Prop} {tracker after : TxRequestTracker τ} {hash : τ}
  {earlier later : List (Announcement τ)} {old new : Announcement τ}

/-- An announcement of a list is in the view. -/
theorem present {pending : τ → Prop} (consistent : Consistent gone pending tracker)
    (found : tracker.txs.lookup hash = some (earlier ++ old :: later)) :
    viewOf tracker.txs hash old.peer = some old := by
  rw [← viewOf_row found]
  exact View.row_member _ _ (consistent.distinct hash _ found) (by simp)

/-- A tracker in which one announcement took another state or time. -/
theorem replace (new : Announcement τ) (after : TxRequestTracker τ)
    (consistent : Consistent gone (fun _ => False) tracker)
    (found : tracker.txs.lookup hash = some (earlier ++ old :: later))
    (named : new.peer = old.peer) (seq : new.seq = old.seq)
    (oneRequest : OneRequest (earlier ++ new :: later))
    (timeline : Follows RequestState.isTimed hash old.peer (some new) tracker.timeline
      after.timeline)
    (ready : Follows RequestState.isDue hash old.peer (some new) tracker.ready after.ready)
    (nextSeq : after.nextSeq = tracker.nextSeq)
    {edit : PeerAnnouncements τ → Option (PeerAnnouncements τ)}
    (edits : EditFollows (viewOf tracker.txs) hash old.peer old new edit) :
    ∃ peers, editPeer old.peer edit tracker.peers = some peers ∧
      Consistent gone (· = hash)
        { after with peers, txs := tracker.txs.insert hash (earlier ++ new :: later) } := by
  have distinct := consistent.distinct hash _ found
  obtain ⟨peers, edited, indexed⟩ :=
    Indexed.restate new after consistent.indexed (consistent.present found) named seq timeline ready
      edits
  rw [← viewOf_row found, ← View.row_replace new distinct named, ← viewOf_insert] at indexed
  refine ⟨peers, edited, consistent.put rfl nextSeq.ge { indexed with }
    (distinct.replace named) ?_ oneRequest (fun notPending => absurd rfl notPending)
    fun _ _ => False.elim⟩
  intro announcement member
  rw [nextSeq]
  have numbered := consistent.numbered hash _ found
  simp only [mem_append, mem_cons] at member numbered
  rcases member with before | rfl | behind
  · exact numbered announcement (.inl before)
  · rw [seq]
    exact numbered old (.inr (.inl rfl))
  · exact numbered announcement (.inr (.inr behind))

end Consistent

omit [LinearOrder τ] in
/-- The list of a hash after one announcement changed stems from the list before. -/
theorem stems_replace {earlier later : List (Announcement τ)} {old new : Announcement τ}
    (stem : StemsFrom old new) : ∀ announcement ∈ earlier ++ new :: later,
      ∃ origin ∈ earlier ++ old :: later, StemsFrom origin announcement := by
  intro announcement member
  simp only [mem_append, mem_cons] at member ⊢
  rcases member with before | rfl | behind
  · exact ⟨announcement, .inl before, .refl announcement⟩
  · exact ⟨old, .inr (.inl rfl), stem⟩
  · exact ⟨announcement, .inr (.inr behind), .refl announcement⟩

omit [LinearOrder τ] in
/-- An announcement that is no candidate any more stems from what it was. -/
theorem StemsFrom.finished {old new : Announcement τ} (peer : new.peer = old.peer)
    (seq : new.seq = old.seq) (finished : new.state.isCandidate = false) : StemsFrom old new :=
  ⟨peer, seq, fun candidate => by rw [finished] at candidate; cases candidate⟩

namespace Consistent

variable {gone : PeerId → Prop} {tracker : TxRequestTracker τ}

/-- What an operation that records nothing does. -/
def Keeps (gone : PeerId → Prop) (tracker : TxRequestTracker τ)
    (result : Option (TxRequestTracker τ)) : Prop :=
  ∃ after, result = some after ∧ Consistent gone (fun _ => False) after ∧
    after.nextSeq = tracker.nextSeq ∧ Descends tracker.txs after.txs

theorem keeps_self (consistent : Consistent gone (fun _ => False) tracker) :
    Keeps gone tracker (some tracker) :=
  ⟨tracker, rfl, consistent, rfl, .refl tracker.txs⟩

/-- Choosing anew after a change from which the new announcements stem. -/
theorem keeps_reselect {changed : TxRequestTracker τ} {hash : τ}
    (consistent : Consistent gone (· = hash) changed) (nextSeq : changed.nextSeq = tracker.nextSeq)
    (descends : Descends tracker.txs changed.txs) :
    Keeps gone tracker (changed.reselect hash) := by
  obtain ⟨after, result, consistentAfter, shrinks, descendsAfter⟩ := consistent.reselect
  exact ⟨after, result, consistentAfter, shrinks.nextSeq.trans nextSeq,
    descends.trans descendsAfter⟩

theorem receivedResponse (consistent : Consistent gone (fun _ => False) tracker) (peer : PeerId)
    (hash : τ) : Keeps gone tracker (tracker.receivedResponse peer hash) := by
  rw [TxRequestTracker.receivedResponse]
  cases found : tracker.txs.lookup hash with
  | none => exact consistent.keeps_self
  | some announcements =>
    dsimp only
    cases place : announcements.findIdx? fun announcement =>
        announcement.peer == peer && announcement.state != .completed with
    | none => exact consistent.keeps_self
    | some position =>
      obtain ⟨earlier, old, later, rfl, rfl, matching⟩ := split_at place
      have isPeer : old.peer = peer := by
        simp only [Bool.and_eq_true, beq_iff_eq] at matching
        exact matching.1
      subst isPeer
      obtain ⟨timeline, ready⟩ := consistent.indexed.follows_unindex (consistent.present found)
      obtain ⟨shrinks, txs, samePeers⟩ := shrinks_unindex hash old tracker
      obtain ⟨peers, edited, changed⟩ := replace { old with state := .completed }
        (tracker.unindex hash old) consistent found rfl rfl
        ((consistent.oneRequest hash _ found).replace nofun)
        (timeline.insert fun deadline => by simp [RequestState.isTimed])
        (ready.insert fun deadline => by simp [RequestState.isDue])
        shrinks.nextSeq (.complete (consistent.present found) nofun nofun)
      dsimp only
      rw [get_split]
      simp only [bind_eq_bind, bind_some, set_split, samePeers, edited, txs]
      exact keeps_reselect changed shrinks.nextSeq
        (.insert found (stems_replace (.finished rfl rfl rfl)))

/-! ## Requests -/

end Consistent

/-- An announcement after the other requests for its hash were completed. -/
def completedUnless (position : Nat) (placed : Announcement τ × Nat) : Announcement τ :=
  if placed.2 ≠ position ∧ placed.1.state = .requested then
    { placed.1 with state := .completed }
  else placed.1

omit [LinearOrder τ] in
theorem completedUnless_stems (position : Nat) (placed : Announcement τ × Nat) :
    StemsFrom placed.1 (completedUnless position placed) := by
  rw [completedUnless]
  split
  · exact .finished rfl rfl rfl
  · exact .refl placed.1

/-- The indexes after the other requests for a hash were completed. -/
theorem Indexed.completeOthers {gone : PeerId → Prop} {view : View τ} {hash : τ} {position : Nat}
    {earlier : List (Announcement τ)} {rest : List (Announcement τ × Nat)}
    {tracker : TxRequestTracker τ}
    (indexed : Indexed gone (view.row hash (earlier ++ rest.map Prod.fst)) tracker)
    (distinct : OnePerPeer (earlier ++ rest.map Prod.fst)) :
    ∃ after, TxRequestTracker.completeOthers hash position rest tracker =
        some (rest.map (completedUnless position), after) ∧
      Indexed gone (view.row hash (earlier ++ rest.map (completedUnless position))) after ∧
      Shrinks tracker after ∧ after.txs = tracker.txs := by
  induction rest generalizing earlier tracker with
  | nil => exact ⟨tracker, rfl, indexed, .refl tracker, rfl⟩
  | cons placed rest ih =>
    obtain ⟨old, place⟩ := placed
    have next := @ih (earlier ++ [completedUnless position (old, place)])
    simp only [append_assoc, singleton_append] at next
    rw [TxRequestTracker.completeOthers]
    rw [map_cons] at indexed distinct
    by_cases other : place ≠ position ∧ old.state = .requested
    · have completed : completedUnless position (old, place) = { old with state := .completed } :=
        if_pos other
      have state : (completedUnless position (old, place)).state = .completed := by
        rw [completed]
      have stem := completedUnless_stems position (old, place)
      have present := View.row_member view hash distinct (mem_append_right earlier mem_cons_self)
      obtain ⟨timeline, ready⟩ := indexed.follows_unindex present
      obtain ⟨shrinks, txs, samePeers⟩ := shrinks_unindex hash old tracker
      obtain ⟨peers, edited, changed⟩ := Indexed.restate (completedUnless position (old, place))
        (tracker.unindex hash old) indexed present stem.peer stem.seq
        (timeline.insert fun deadline => by simp [state, RequestState.isTimed])
        (ready.insert fun deadline => by simp [state, RequestState.isDue])
        (.release present other.2 (by rw [state]; decide) (by rw [state]; decide))
      rw [← View.row_replace _ distinct stem.peer] at changed
      obtain ⟨after, result, indexedAfter, shrinksAfter, txsAfter⟩ :=
        next changed (distinct.replace stem.peer)
      refine ⟨after, ?_, indexedAfter, ?_, txsAfter.trans txs⟩
      · rw [if_pos other]
        simp [samePeers, edited, result, completed]
      · exact shrinks.trans { shrinksAfter with }
    · have same : completedUnless position (old, place) = old := if_neg other
      rw [same] at next
      obtain ⟨after, result, indexedAfter, shrinksAfter, txsAfter⟩ := next indexed distinct
      refine ⟨after, ?_, ?_, shrinksAfter, txsAfter⟩
      · rw [if_neg other]
        simp [result, same]
      · rw [map_cons, same]
        exact indexedAfter

omit [LinearOrder τ] in
/-- The list of a hash after every request but the one at a place was completed. -/
theorem completedUnless_split :
    ∃ before behind, (earlier ++ old :: later).zipIdx.map (completedUnless earlier.length) =
        before ++ old :: behind ∧ before.length = earlier.length ∧
      (∀ other ∈ before ++ behind, other.state ≠ .requested) ∧
      ∀ other ∈ before ++ behind, ∃ origin ∈ earlier ++ later, StemsFrom origin other := by
  have kept : completedUnless earlier.length (old, earlier.length) = old :=
    if_neg fun moved => moved.1 rfl
  refine ⟨earlier.zipIdx.map (completedUnless earlier.length),
    (later.zipIdx (earlier.length + 1)).map (completedUnless earlier.length), ?_, ?_, ?_, ?_⟩
  · rw [zipIdx_append, map_append, zipIdx_cons, map_cons, zero_add, kept]
  · rw [length_map, length_zipIdx]
  · have completed : ∀ placed : Announcement τ × Nat, placed.2 ≠ earlier.length →
        (completedUnless earlier.length placed).state ≠ .requested := by
      intro placed elsewhere
      rw [completedUnless]
      split
      · exact nofun
      · next notRequested => exact fun requested => notRequested ⟨elsewhere, requested⟩
    intro other member
    rcases mem_append.mp member with inEarlier | inLater
    · obtain ⟨placed, isPlaced, rfl⟩ := mem_map.mp inEarlier
      exact completed placed (snd_lt_of_mem_zipIdx isPlaced).ne
    · obtain ⟨placed, isPlaced, rfl⟩ := mem_map.mp inLater
      exact completed placed (Nat.lt_of_succ_le (le_snd_of_mem_zipIdx isPlaced)).ne'
  · intro other member
    rcases mem_append.mp member with inEarlier | inLater
    · obtain ⟨placed, isPlaced, rfl⟩ := mem_map.mp inEarlier
      exact ⟨placed.1, mem_append_left _ (fst_mem_of_mem_zipIdx isPlaced),
        completedUnless_stems _ placed⟩
    · obtain ⟨placed, isPlaced, rfl⟩ := mem_map.mp inLater
      exact ⟨placed.1, mem_append_right _ (fst_mem_of_mem_zipIdx isPlaced),
        completedUnless_stems _ placed⟩

/-- A candidate once it is requested until an expiry. -/
def requestOf (expiry : Nat) : Announcement τ := { old with state := .requested, time := expiry }

namespace Consistent

variable {tracker : TxRequestTracker τ}

theorem requestedTx (consistent : Consistent (fun _ => False) (fun _ => False) tracker)
    (peer : PeerId) (hash : τ) (expiry : Nat) :
    Keeps (fun _ => False) tracker (tracker.requestedTx peer hash expiry) := by
  rw [TxRequestTracker.requestedTx]
  cases found : tracker.txs.lookup hash with
  | none => exact consistent.keeps_self
  | some announcements =>
    dsimp only
    cases place : announcements.findIdx? fun announcement =>
        announcement.peer == peer && announcement.state.isCandidate with
    | none => exact consistent.keeps_self
    | some position =>
      obtain ⟨earlier, old, later, rfl, rfl, matching⟩ := split_at place
      simp only [Bool.and_eq_true, beq_iff_eq] at matching
      obtain ⟨rfl, candidate⟩ := matching
      have distinct := consistent.distinct hash _ found
      have indexed := consistent.indexed
      rw [← viewOf_row found] at indexed
      obtain ⟨before, behind, split, length, noRequest, stems⟩ :=
        completedUnless_split earlier later old
      have listed : (earlier ++ old :: later).zipIdx.map Prod.fst = earlier ++ old :: later := by
        simp
      obtain ⟨completed, result, indexedNext, shrinks, txs⟩ := @Indexed.completeOthers τ _ _
        (viewOf tracker.txs) hash earlier.length [] (earlier ++ old :: later).zipIdx tracker
        (by rw [nil_append, listed]; exact indexed)
        (by rw [nil_append, listed]; exact distinct)
      rw [nil_append, split] at indexedNext
      rw [split] at result
      have distinctNext : OnePerPeer (before ++ old :: behind) := by
        rw [← split]
        exact distinct.mapIdx fun placed => (completedUnless_stems _ placed).peer
      have present := View.row_member (viewOf tracker.txs) hash distinctNext
        (mem_append_right before mem_cons_self)
      -- the peer is indexed, so the source's expect cannot fail
      obtain ⟨known, isKnown⟩ : ∃ known, completed.peers.lookup old.peer = some known := by
        by_contra missing
        rcases indexedNext.unknown old.peer (eq_none_iff_forall_ne_some.mpr fun known found =>
          missing ⟨known, found⟩) with isGone | absent
        · exact isGone
        · rw [absent] at present
          cases present
      obtain ⟨timeline, ready⟩ := indexedNext.follows_unindex present
      obtain ⟨shrinksNext, txsNext, samePeers⟩ := shrinks_unindex hash old completed
      have wasCandidate : old.state ≠ .requested := fun was => by
        rw [was] at candidate
        cases candidate
      obtain ⟨peers, edited, changed⟩ := Indexed.restate (requestOf old expiry)
        { completed.unindex hash old with
          timeline := insert ⟨expiry, hash, old.peer⟩ (completed.unindex hash old).timeline }
        indexedNext present rfl rfl
        (timeline.insert fun deadline => by simp [requestOf, RequestState.isTimed, or_comm])
        (ready.insert fun deadline => by simp [requestOf, RequestState.isDue])
        (.request wasCandidate rfl)
      rw [← View.row_replace (requestOf old expiry) distinctNext rfl, ← viewOf_insert] at changed
      rw [editPeer, isKnown] at edited
      cases edited
      have requests : ∀ other ∈ before ++ requestOf old expiry :: behind,
          other.state = .requested → other = requestOf old expiry := by
        intro other member requested
        by_contra different
        have among : other ∈ before ++ behind := by
          simpa [different] using member
        exact noRequest other among requested
      have origins : ∀ new ∈ before ++ requestOf old expiry :: behind,
          ∃ origin ∈ earlier ++ old :: later, StemsFrom origin new := by
        intro new member
        by_cases own : new = requestOf old expiry
        · exact ⟨old, by simp, own ▸ .finished rfl rfl rfl⟩
        · obtain ⟨origin, among, stem⟩ := stems new (by simpa [own] using member)
          exact ⟨origin, by simp only [mem_append, mem_cons] at among ⊢; tauto, stem⟩
      simp only [result, bind_eq_bind, bind_some]
      simp only [← length, get_split, set_split, bind_some, samePeers, isKnown, txsNext, txs]
      have nextSeq := shrinksNext.nextSeq.trans shrinks.nextSeq
      refine keeps_reselect (consistent.put rfl nextSeq.ge { changed with }
        (distinctNext.replace rfl) ?_ ?_ (fun notPending => absurd rfl notPending)
        fun _ _ => False.elim) nextSeq (.insert found origins)
      · intro new member
        obtain ⟨origin, among, stem⟩ := origins new member
        rw [stem.seq]
        exact (consistent.numbered hash _ found origin among).trans_eq nextSeq.symm
      · intro first firstMember second secondMember firstRequested secondRequested
        rw [requests first firstMember firstRequested, requests second secondMember secondRequested]

end Consistent

/-! ## Disconnections -/

omit [LinearOrder τ] in
theorem swapRemove_perm :
    (TxRequestTracker.swapRemove (earlier ++ old :: later) earlier.length).Perm
      (earlier ++ later) := by
  rw [TxRequestTracker.swapRemove]
  rcases eq_nil_or_concat later with rfl | ⟨rest, last, rfl⟩
  · simp
  · have isLast : (earlier ++ old :: rest.concat last).getLast? = some last := by
      rw [concat_eq_append, ← cons_append, ← append_assoc, getLast?_concat]
    rw [isLast]
    simp only [set_split]
    have dropped : (earlier ++ last :: rest.concat last).dropLast = earlier ++ last :: rest := by
      rw [concat_eq_append, ← cons_append, ← append_assoc, dropLast_concat]
    rw [dropped, concat_eq_append]
    exact .append_left earlier (perm_append_singleton last rest).symm

/-- The announcement of a gone peer is taken out of the indexes by time. -/
theorem Indexed.depart {gone : PeerId → Prop} {view : View τ} {tracker : TxRequestTracker τ}
    {hash : τ} {old : Announcement τ} (indexed : Indexed gone view tracker)
    (isGone : gone old.peer) (present : view hash old.peer = some old) :
    Indexed gone (view.set hash old.peer none) (tracker.unindex hash old) := by
  obtain ⟨timeline, ready⟩ := indexed.follows_unindex present
  obtain ⟨-, -, samePeers⟩ := shrinks_unindex hash old tracker
  refine indexed.edit nofun timeline ready ?_ ?_ ?_
  · exact fun _ _ => by rw [samePeers]
  · intro known isKnown
    rw [samePeers] at isKnown
    exact absurd isGone (indexed.known _ _ isKnown).1
  · exact fun _ => .inl isGone

namespace Consistent

variable {gone : PeerId → Prop} {tracker : TxRequestTracker τ} {peer : PeerId}

/-- Dropping the announcement of a gone peer for one hash. -/
theorem dropAnnouncement (consistent : Consistent (· = peer) (fun _ => False) tracker) (hash : τ) :
    ∃ after, tracker.dropAnnouncement peer hash = some after ∧
      Consistent (· = peer) (fun _ => False) after ∧ after.nextSeq = tracker.nextSeq ∧
      Descends tracker.txs after.txs ∧ ∀ announcements, after.txs.lookup hash = some announcements →
        ∀ announcement ∈ announcements, announcement.peer ≠ peer := by
  rw [TxRequestTracker.dropAnnouncement]
  cases found : tracker.txs.lookup hash with
  | none =>
    refine ⟨tracker, rfl, consistent, rfl, .refl tracker.txs, ?_⟩
    intro announcements foundAgain
    rw [found] at foundAgain
    cases foundAgain
  | some announcements =>
    dsimp only
    cases place : announcements.findIdx? fun announcement => announcement.peer == peer with
    | none =>
      have absent := findIdx?_eq_none_iff.mp place
      have pending : Consistent (· = peer) (· = hash) tracker :=
        { consistent with
          settled := fun other others foundOther _ =>
            consistent.settled other others foundOther id }
      obtain ⟨after, result, consistentAfter, nextSeq, descends⟩ :=
        pending.keeps_reselect rfl (.refl tracker.txs)
      refine ⟨after, result, consistentAfter, nextSeq, descends, ?_⟩
      intro others foundOther announcement member
      obtain ⟨before, foundBefore, stems⟩ := descends hash others foundOther
      rw [found] at foundBefore
      cases foundBefore
      obtain ⟨origin, among, stem⟩ := stems announcement member
      rw [stem.peer]
      simpa using absent origin among
    | some position =>
      obtain ⟨earlier, old, later, rfl, rfl, matching⟩ := split_at place
      obtain rfl : old.peer = peer := by simpa using matching
      have distinct := consistent.distinct hash _ found
      have same := swapRemove_perm earlier later old
      have subset : ∀ announcement ∈ TxRequestTracker.swapRemove (earlier ++ old :: later)
          earlier.length, announcement ∈ earlier ++ old :: later := by
        intro announcement member
        have among := same.mem_iff.mp member
        simp only [mem_append, mem_cons] at among ⊢
        exact among.imp_right .inr
      obtain ⟨shrinks, txs, -⟩ := shrinks_unindex hash old tracker
      have indexed := consistent.indexed.depart rfl (consistent.present found)
      rw [← viewOf_row found, ← View.row_remove distinct same, ← viewOf_insert] at indexed
      have others : ∀ announcement ∈ TxRequestTracker.swapRemove (earlier ++ old :: later)
          earlier.length, announcement.peer ≠ old.peer := by
        intro announcement member samePeer
        have isOld := distinct.eq_of_peer (by simp) (subset announcement member) samePeer
        subst isOld
        have apart : OnePerPeer (announcement :: (earlier ++ later)) :=
          distinct.perm perm_middle.symm
        exact (nodup_cons.mp apart).1 (mem_map_of_mem (same.mem_iff.mp member))
      have changed : Consistent (· = old.peer) (· = hash) { tracker.unindex hash old with
          txs := tracker.txs.insert hash
            (TxRequestTracker.swapRemove (earlier ++ old :: later) earlier.length) } := by
        refine consistent.put rfl shrinks.nextSeq.ge { indexed with }
          (distinct.remove.perm same) ?_ ?_ (fun notPending => absurd rfl notPending)
          fun _ _ => False.elim
        · intro announcement member
          exact (consistent.numbered hash _ found announcement
            (subset announcement member)).trans_eq shrinks.nextSeq.symm
        · intro first firstMember second secondMember
          exact consistent.oneRequest hash _ found first (subset first firstMember) second
            (subset second secondMember)
      obtain ⟨after, result, consistentAfter, shrinksAfter, descends⟩ := changed.reselect
      simp only [get_split, bind_eq_bind, bind_some]
      refine ⟨after, result, consistentAfter, shrinksAfter.nextSeq.trans shrinks.nextSeq, ?_, ?_⟩
      · refine .trans (.insert found ?_) descends
        intro announcement member
        exact ⟨announcement, subset announcement member, .refl announcement⟩
      · intro remaining foundAfter announcement member
        obtain ⟨before, foundBefore, stems⟩ := descends hash remaining foundAfter
        rw [Finmap.lookup_insert] at foundBefore
        cases foundBefore
        obtain ⟨origin, among, stem⟩ := stems announcement member
        rw [stem.peer]
        exact others origin among

/-- Dropping the announcements of a gone peer for every hash that has one. -/
theorem dropAll (hashes : List τ) (consistent : Consistent (· = peer) (fun _ => False) tracker)
    (listed : ∀ hash announcements, tracker.txs.lookup hash = some announcements →
      ∀ announcement ∈ announcements, announcement.peer = peer → hash ∈ hashes) :
    Keeps (fun _ => False) tracker
      (hashes.foldlM (TxRequestTracker.dropAnnouncement peer) tracker) := by
  induction hashes generalizing tracker with
  | nil =>
    have absent : ∀ hash, viewOf tracker.txs hash peer = none := by
      intro hash
      rw [viewOf]
      cases found : tracker.txs.lookup hash with
      | none => rfl
      | some announcements =>
        apply find?_eq_none.mpr
        intro announcement member isPeer
        simpa using listed hash announcements found announcement member (by simpa using isPeer)
    refine keeps_self { consistent with indexed :=
      ⟨consistent.indexed.named, consistent.indexed.timeline, consistent.indexed.ready, ?_, ?_⟩ }
    · intro other known isKnown
      exact ⟨id, (consistent.indexed.known other known isKnown).2⟩
    · intro other isUnknown
      rcases consistent.indexed.unknown other isUnknown with rfl | none
      · exact .inr absent
      · exact .inr none
  | cons hash rest ih =>
    obtain ⟨dropped, result, consistentNext, nextSeq, descends, without⟩ :=
      consistent.dropAnnouncement hash
    obtain ⟨after, resultAfter, consistentAfter, nextSeqAfter, descendsAfter⟩ :=
      ih consistentNext (by
        intro other announcements found announcement member isPeer
        obtain ⟨before, foundBefore, stems⟩ := descends other announcements found
        obtain ⟨origin, among, stem⟩ := stems announcement member
        have inList := listed other before foundBefore origin among (stem.peer.symm.trans isPeer)
        rcases mem_cons.mp inList with rfl | later
        · exact absurd isPeer (without announcements found announcement member)
        · exact later)
    refine ⟨after, ?_, consistentAfter, nextSeqAfter.trans nextSeq, descends.trans descendsAfter⟩
    rw [foldlM_cons, result]
    exact resultAfter

theorem disconnectedPeer (consistent : Consistent (fun _ => False) (fun _ => False) tracker)
    (peer : PeerId) : Keeps (fun _ => False) tracker (tracker.disconnectedPeer peer) := by
  rw [TxRequestTracker.disconnectedPeer]
  cases isKnown : tracker.peers.lookup peer with
  | none => exact consistent.keeps_self
  | some known =>
    obtain ⟨-, peerIndexed, -⟩ := consistent.indexed.known peer known isKnown
    have indexed := consistent.indexed
    have departed : Consistent (· = peer) (fun _ => False)
        { tracker with peers := tracker.peers.erase peer } := by
      refine { consistent with indexed := { indexed with known := ?_, unknown := ?_ } }
      · intro other found isFound
        rw [lookup_erase] at isFound
        split at isFound
        · cases isFound
        · next different =>
          exact ⟨Ne.symm different, (indexed.known other found isFound).2⟩
      · intro other isUnknown
        rw [lookup_erase] at isUnknown
        split at isUnknown
        · next own => exact .inl own.symm
        · exact .inr ((indexed.unknown other isUnknown).resolve_left id)
    obtain ⟨after, result, rest⟩ := departed.dropAll (PeerAnnouncements.inOrder known.all) (by
      intro hash announcements found announcement member isPeer
      have present : viewOf tracker.txs hash peer = some announcement := by
        rw [← viewOf_row found, ← isPeer]
        exact View.row_member _ _ (consistent.distinct hash announcements found) member
      have isListed := (peerIndexed.all announcement.seq hash).mpr ⟨announcement, present, rfl⟩
      rw [PeerAnnouncements.inOrder, mem_filterMap]
      refine ⟨announcement.seq, ?_, isListed⟩
      rw [Finset.mem_sort, Finmap.mem_keys, Finmap.mem_iff]
      exact ⟨hash, isListed⟩)
    exact ⟨after, result, rest⟩

end Consistent

end Satd.Net
