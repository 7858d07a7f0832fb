import Satd.Net.TxRequestInvariant

/-!
# The best candidate of a transaction

The announcements of a hash are a list with one announcement for each peer. Its
best candidate is chosen anew after every change: `Settled` says what then holds
of the list, and `Consistent.reselect` that choosing anew reaches it from any list with
at most one request, keeps the indexes, and never fails.
-/

namespace Satd.Net

open KeyedMap List

variable {τ : Type}

/-! ## Lists of announcements -/

/-- The announcement of a peer in a list. -/
def seen (announcements : List (Announcement τ)) (peer : PeerId) : Option (Announcement τ) :=
  announcements.find? fun announcement => announcement.peer == peer

/-- Every peer has at most one announcement. -/
def OnePerPeer (announcements : List (Announcement τ)) : Prop :=
  (announcements.map Announcement.peer).Nodup

namespace OnePerPeer

variable {announcements before after : List (Announcement τ)} {old new : Announcement τ}

theorem eq_of_peer (distinct : OnePerPeer announcements) (first : old ∈ announcements)
    (second : new ∈ announcements) (same : new.peer = old.peer) : new = old :=
  List.inj_on_of_nodup_map distinct second first same

theorem replace (distinct : OnePerPeer (before ++ old :: after)) (named : new.peer = old.peer) :
    OnePerPeer (before ++ new :: after) := by
  simpa only [OnePerPeer, map_append, map_cons, named] using distinct

theorem remove (distinct : OnePerPeer (before ++ old :: after)) : OnePerPeer (before ++ after) :=
  .sublist ((List.sublist_cons_self old after).append_left before |>.map _) distinct

theorem perm (distinct : OnePerPeer before) (same : after.Perm before) : OnePerPeer after :=
  (same.map _).nodup_iff.mpr distinct

/-- A list whose announcements all changed in place. -/
theorem mapIdx (distinct : OnePerPeer announcements)
    {change : Announcement τ × Nat → Announcement τ}
    (named : ∀ placed, (change placed).peer = placed.1.peer) :
    OnePerPeer (announcements.zipIdx.map change) := by
  have peers : (announcements.zipIdx.map change).map Announcement.peer =
      announcements.map Announcement.peer := by
    calc (announcements.zipIdx.map change).map Announcement.peer
        = (announcements.zipIdx.map Prod.fst).map Announcement.peer := by
          simp only [map_map]
          exact map_congr_left fun placed _ => named placed
      _ = announcements.map Announcement.peer := by simp
  rw [OnePerPeer, peers]
  exact distinct

end OnePerPeer

variable {announcements : List (Announcement τ)} {position : Nat}

theorem seen_eq_some_iff {peer : PeerId} {announcement : Announcement τ}
    (distinct : OnePerPeer announcements) :
    seen announcements peer = some announcement ↔
      announcement ∈ announcements ∧ announcement.peer = peer := by
  constructor
  · intro found
    exact ⟨mem_of_find?_eq_some found, by simpa using find?_some found⟩
  · rintro ⟨member, rfl⟩
    rw [seen]
    cases found : announcements.find? fun other => other.peer == announcement.peer with
    | none => simpa using find?_eq_none.mp found announcement member
    | some other =>
      have samePeer : other.peer = announcement.peer := by simpa using find?_some found
      rw [distinct.eq_of_peer member (mem_of_find?_eq_some found) samePeer]

section Rows

variable [LinearOrder τ]

/-- The view in which a hash has the announcements of a list. -/
def View.row (view : View τ) (hash : τ) (announcements : List (Announcement τ)) : View τ :=
  fun other peer => if other = hash then seen announcements peer else view other peer

variable (txs : Map τ (List (Announcement τ)))

/-- The view of the announcements of a tracker. -/
def viewOf : View τ :=
  fun hash => seen ((txs.lookup hash).getD [])

variable {view : View τ} {hash : τ} {before after : List (Announcement τ)}
  {old new : Announcement τ} {txs : Map τ (List (Announcement τ))}

theorem View.row_same (peer : PeerId) :
    view.row hash announcements hash peer = seen announcements peer :=
  if_pos rfl

theorem View.row_hash_ne {other : τ} {peer : PeerId} (different : other ≠ hash) :
    view.row hash announcements other peer = view other peer :=
  if_neg different

theorem View.row_member (view : View τ) (hash : τ) (distinct : OnePerPeer announcements)
    (member : old ∈ announcements) :
    view.row hash announcements hash old.peer = some old := by
  rw [View.row_same]
  exact (seen_eq_some_iff distinct).mpr ⟨member, rfl⟩

/-- A view after one announcement of a list changed. -/
theorem View.row_replace (new : Announcement τ) (distinct : OnePerPeer (before ++ old :: after))
    (named : new.peer = old.peer) : view.row hash (before ++ new :: after) =
      (view.row hash (before ++ old :: after)).set hash old.peer (some new) := by
  funext other peer
  by_cases own : other = hash
  · subst own
    rw [View.row_same]
    by_cases same : peer = old.peer
    · subst same
      rw [View.set_same]
      exact (seen_eq_some_iff (distinct.replace named)).mpr ⟨by simp, named⟩
    · rw [View.set_peer_ne same, View.row_same]
      ext announcement
      rw [seen_eq_some_iff (distinct.replace named), seen_eq_some_iff distinct]
      constructor
      · rintro ⟨member, rfl⟩
        have other : announcement ≠ new := fun isNew => same (isNew ▸ named)
        exact ⟨by simpa [other] using .imp_right .inr (by simpa [other] using member), rfl⟩
      · rintro ⟨member, rfl⟩
        have other : announcement ≠ old := fun isOld => same (isOld ▸ rfl)
        exact ⟨by simpa using .imp_right .inr (by simpa [other] using member), rfl⟩
  · rw [View.set_hash_ne own, View.row_hash_ne own, View.row_hash_ne own]

/-- A view after one announcement of a list was taken out. -/
theorem View.row_remove (distinct : OnePerPeer (before ++ old :: after))
    (same : announcements.Perm (before ++ after)) : view.row hash announcements =
      (view.row hash (before ++ old :: after)).set hash old.peer none := by
  have remaining : OnePerPeer announcements := distinct.remove.perm same
  have gone : ∀ announcement ∈ before ++ after, announcement.peer ≠ old.peer := by
    intro announcement member samePeer
    have moved : (before ++ old :: after).Perm (old :: (before ++ after)) := perm_middle
    have apart := (moved.map Announcement.peer).nodup_iff.mp distinct
    rw [map_cons, nodup_cons] at apart
    exact apart.1 (mem_map.mpr ⟨announcement, member, samePeer⟩)
  funext other peer
  by_cases own : other = hash
  · subst own
    rw [View.row_same]
    by_cases samePeer : peer = old.peer
    · subst samePeer
      rw [View.set_same]
      by_contra there
      obtain ⟨announcement, found⟩ := Option.ne_none_iff_exists'.mp there
      obtain ⟨member, samePeer⟩ := (seen_eq_some_iff remaining).mp found
      exact gone announcement (same.mem_iff.mp member) samePeer
    · rw [View.set_peer_ne samePeer, View.row_same]
      ext announcement
      rw [seen_eq_some_iff remaining, seen_eq_some_iff distinct, same.mem_iff]
      refine and_congr_left ?_
      rintro rfl
      have other : announcement ≠ old := fun isOld => samePeer (isOld ▸ rfl)
      simp [other]
  · rw [View.set_hash_ne own, View.row_hash_ne own, View.row_hash_ne own]

theorem viewOf_insert : viewOf (txs.insert hash announcements) =
    (viewOf txs).row hash announcements := by
  funext other peer
  rw [viewOf, lookup_insert, View.row]
  by_cases own : other = hash
  · rw [if_pos own, if_pos own.symm]
    rfl
  · rw [if_neg own, if_neg (Ne.symm own)]
    rfl

theorem viewOf_erase : viewOf (txs.erase hash) = (viewOf txs).row hash [] := by
  funext other peer
  rw [viewOf, lookup_erase, View.row]
  by_cases own : other = hash
  · rw [if_pos own, if_pos own.symm]
    rfl
  · rw [if_neg own, if_neg (Ne.symm own)]
    rfl

theorem viewOf_row (found : txs.lookup hash = some announcements) :
    (viewOf txs).row hash announcements = viewOf txs := by
  funext other peer
  rw [View.row]
  split
  · next own => rw [own, viewOf, found, Option.getD_some]
  · rfl

end Rows

/-! ## The choice -/

/-- The state of an announcement that is asked for or would be asked for next. -/
def RequestState.isHeld : RequestState → Bool
  | best | requested => true
  | delayed | ready | completed => false

theorem RequestState.best_or_requested {state : RequestState} (held : state.isHeld = true) :
    state = .best ∨ state = .requested := by
  cases state <;> simp_all [isHeld]

theorem RequestState.isTimed_of_isDue {state : RequestState} (due : state.isDue = true) :
    state.isTimed = false := by
  cases state <;> first | rfl | cases due

/-- At most one announcement of a list is requested. -/
def OneRequest (announcements : List (Announcement τ)) : Prop :=
  ∀ first ∈ announcements, ∀ second ∈ announcements,
    first.state = .requested → second.state = .requested → first = second

/-- What holds of the announcements of a hash once the best candidate has been
chosen. -/
structure Settled (announcements : List (Announcement τ)) : Prop where
  held : ∀ first ∈ announcements, ∀ second ∈ announcements,
    first.state.isHeld = true → second.state.isHeld = true → first = second
  best : (∀ announcement ∈ announcements, announcement.state ≠ .requested) →
    ∀ due ∈ announcements, due.state.isDue = true →
      ∃ chosen ∈ announcements, chosen.state = .best ∧
        ∀ other ∈ announcements, other.state.isDue = true → other.priority ≤ chosen.priority
  unfinished : ∃ announcement ∈ announcements, announcement.state ≠ .completed

theorem Settled.oneRequest (settled : Settled announcements) : OneRequest announcements := by
  intro first firstMember second secondMember firstRequested secondRequested
  apply settled.held first firstMember second secondMember
  · rw [firstRequested]
    rfl
  · rw [secondRequested]
    rfl

namespace TxRequestTracker

variable {placed : List (Announcement τ × Nat)}

theorem highest_eq_none (found : highest placed = none) : placed = [] := by
  cases placed with
  | nil => rfl
  | cons first rest =>
    rw [highest] at found
    split at found
    · cases found
    · split at found <;> cases found

/-- The highest of a list is one of its members and none outranks it. -/
theorem highest_eq_some {top : Announcement τ × Nat} (found : highest placed = some top) :
    top ∈ placed ∧ ∀ other ∈ placed, other.1.priority ≤ top.1.priority := by
  induction placed generalizing top with
  | nil => cases found
  | cons first rest ih =>
    rw [highest] at found
    cases highestRest : highest rest with
    | none =>
      rw [highestRest] at found
      cases found
      rw [highest_eq_none highestRest]
      simp
    | some other =>
      obtain ⟨member, above⟩ := ih highestRest
      rw [highestRest] at found
      dsimp only at found
      split at found
      · next outranked =>
        cases found
        have lower : other.1.priority ≤ first.1.priority := by
          rw [outranks] at outranked
          simp only [Bool.or_eq_true, decide_eq_true_eq, Bool.and_eq_true, beq_iff_eq] at outranked
          omega
        refine ⟨mem_cons_self, ?_⟩
        intro placed isPlaced
        rcases mem_cons.mp isPlaced with rfl | later
        · exact le_rfl
        · exact (above placed later).trans lower
      · next notOutranked =>
        have lower : first.1.priority ≤ other.1.priority := by
          rw [outranks] at notOutranked
          simp only [Bool.or_eq_true, decide_eq_true_eq, Bool.and_eq_true,
            beq_iff_eq] at notOutranked
          omega
        cases found
        refine ⟨mem_cons_of_mem _ member, ?_⟩
        intro placed isPlaced
        rcases mem_cons.mp isPlaced with rfl | later
        · exact lower
        · exact above placed later

/-- The winner is a due candidate of the greatest priority, and no request is
outstanding. -/
theorem winner_eq_some (found : winner announcements = some position) :
    (∀ announcement ∈ announcements, announcement.state ≠ .requested) ∧
      ∃ chosen, announcements[position]? = some chosen ∧ chosen.state.isDue = true ∧
        ∀ other ∈ announcements, other.state.isDue = true → other.priority ≤ chosen.priority := by
  rw [winner] at found
  split at found
  · cases found
  · next none =>
    simp only [any_eq_true, beq_iff_eq, not_exists, not_and] at none
    obtain ⟨⟨chosen, place⟩, isHighest, rfl⟩ := Option.map_eq_some_iff.mp found
    obtain ⟨member, above⟩ := highest_eq_some isHighest
    obtain ⟨placed, due⟩ := mem_filter.mp member
    refine ⟨none, chosen, mem_zipIdx_iff_getElem?.mp placed, due, ?_⟩
    intro other isOther otherDue
    obtain ⟨otherPlace, bound, rfl⟩ := getElem_of_mem isOther
    apply above (announcements[otherPlace], otherPlace)
    rw [mem_filter]
    exact ⟨mem_zipIdx_iff_getElem?.mpr (getElem?_eq_getElem bound), otherDue⟩

/-- Without a winner a request is outstanding or nothing is due. -/
theorem winner_eq_none (missing : winner announcements = none) :
    (∃ announcement ∈ announcements, announcement.state = .requested) ∨
      ∀ announcement ∈ announcements, announcement.state.isDue = false := by
  rw [winner] at missing
  split at missing
  · next some => exact .inl (by simpa using some)
  · right
    intro announcement member
    have empty := highest_eq_none (Option.map_eq_none_iff.mp missing)
    obtain ⟨place, bound, rfl⟩ := getElem_of_mem member
    have notDue := filter_eq_nil_iff.mp empty (announcements[place], place)
      (mem_zipIdx_iff_getElem?.mpr (getElem?_eq_getElem bound))
    simpa using notDue

/-- An announcement after the choice. -/
def chosen (winner : Option Nat) (placed : Announcement τ × Nat) : Announcement τ :=
  if winner = some placed.2 then { placed.1 with state := .best }
  else if placed.1.state = .best then { placed.1 with state := .ready }
  else placed.1

theorem chosen_peer (winner : Option Nat) (placed : Announcement τ × Nat) :
    (chosen winner placed).peer = placed.1.peer := by
  rw [chosen]
  split
  · rfl
  · split <;> rfl

/-- The indexes by peer after the choice for one announcement. -/
def chosenPeers (hash : τ) (winner : Option Nat) (placed : Announcement τ × Nat)
    (peers : Map PeerId (PeerAnnouncements τ)) : Map PeerId (PeerAnnouncements τ) :=
  if winner = some placed.2 then
    if placed.1.state = .best then peers
    else touchPeer placed.1.peer (fun known =>
      { known with best := known.best.insert placed.1.seq hash }) peers
  else if placed.1.state = .best then
    touchPeer placed.1.peer (fun known =>
      { known with best := known.best.erase placed.1.seq }) peers
  else peers

theorem selectAll_cons (hash : τ) (winner : Option Nat) (placed : Announcement τ × Nat)
    (rest : List (Announcement τ × Nat)) (peers : Map PeerId (PeerAnnouncements τ)) :
    selectAll hash winner (placed :: rest) peers =
      (chosen winner placed ::
        (selectAll hash winner rest (chosenPeers hash winner placed peers)).1,
        (selectAll hash winner rest (chosenPeers hash winner placed peers)).2) := by
  obtain ⟨announcement, position⟩ := placed
  rw [selectAll, chosen, chosenPeers]
  by_cases isWinner : winner = some position
  · by_cases wasBest : announcement.state = .best
    · simp only [isWinner, wasBest, if_true]
      rw [← wasBest]
    · simp only [isWinner, wasBest, if_true, if_false]
  · by_cases wasBest : announcement.state = .best
    · simp only [isWinner, wasBest, if_true, if_false]
    · simp only [isWinner, wasBest, if_false]

/-- Exactly the winner is best after the choice. -/
theorem chosen_best {winner : Option Nat} {placed : Announcement τ × Nat} :
    (chosen winner placed).state = .best ↔ winner = some placed.2 := by
  rw [chosen]
  split
  · next isWinner => exact iff_of_true rfl isWinner
  · next isNot =>
    refine iff_of_false ?_ isNot
    split
    · exact nofun
    · next wasNot => exact wasNot

/-- The announcements of a hash after the choice. -/
theorem mem_chosen {new : Announcement τ} :
    new ∈ announcements.zipIdx.map (chosen (winner announcements)) ↔
      ∃ position old, announcements[position]? = some old ∧
        chosen (winner announcements) (old, position) = new := by
  rw [mem_map]
  constructor
  · rintro ⟨⟨old, position⟩, member, rfl⟩
    exact ⟨position, old, mem_zipIdx_iff_getElem?.mp member, rfl⟩
  · rintro ⟨position, old, found, rfl⟩
    exact ⟨(old, position), mem_zipIdx_iff_getElem?.mpr found, rfl⟩

theorem winner_isDue {old : Announcement τ} (found : announcements[position]? = some old)
    (isWinner : winner announcements = some position) : old.state.isDue = true := by
  obtain ⟨-, chosen, placed, due, -⟩ := winner_eq_some isWinner
  rw [found] at placed
  cases placed
  exact due

/-- The choice changes the state of a due candidate only, and it stays due. -/
theorem chosen_refreshes {old new : Announcement τ} (found : announcements[position]? = some old)
    (isChosen : chosen (winner announcements) (old, position) = new) :
    new.seq = old.seq ∧ new.time = old.time ∧ new.priority = old.priority ∧
      new.state.isDue = old.state.isDue ∧ (new.state.isDue = false → new.state = old.state) := by
  subst isChosen
  rw [chosen]
  split
  · next isWinner =>
    rw [winner_isDue found isWinner]
    simp [RequestState.isDue]
  · split
    · next wasBest =>
      dsimp only at wasBest
      simp [wasBest, RequestState.isDue]
    · simp

/-- A request stays a request, and nothing becomes one. -/
theorem chosen_requested {old : Announcement τ} (found : announcements[position]? = some old) :
    (chosen (winner announcements) (old, position)).state = .requested ↔
      old.state = .requested := by
  obtain ⟨-, -, -, due, unchanged⟩ := chosen_refreshes found rfl
  have notDue : ∀ state : RequestState, state = .requested → state.isDue = false := by
    rintro _ rfl
    rfl
  constructor
  · intro requested
    rw [← unchanged (notDue _ requested), requested]
  · intro requested
    rw [unchanged (due.trans (notDue _ requested)), requested]

/-- After the choice the announcements of a hash are settled. -/
theorem settled_chosen (oneRequest : OneRequest announcements)
    (unfinished : ∃ announcement ∈ announcements, announcement.state ≠ .completed) :
    Settled (announcements.zipIdx.map (chosen (winner announcements))) := by
  constructor
  · intro first firstMember second secondMember firstHeld secondHeld
    obtain ⟨place, old, found, rfl⟩ := mem_chosen.mp firstMember
    obtain ⟨place', old', found', rfl⟩ := mem_chosen.mp secondMember
    cases isWinner : winner announcements with
    | some position =>
      -- no request is outstanding, so both are best and stand at the winner's place
      obtain ⟨noRequest, -⟩ := winner_eq_some isWinner
      have atWinner : ∀ place old, announcements[place]? = some old →
          (chosen (winner announcements) (old, place)).state.isHeld = true → place = position := by
        intro place old found held
        have notRequested : (chosen (winner announcements) (old, place)).state ≠ .requested := by
          rw [Ne, chosen_requested found]
          exact noRequest old (mem_of_getElem? found)
        have best := (RequestState.best_or_requested held).resolve_right notRequested
        rw [chosen_best, isWinner] at best
        exact (Option.some.inj best).symm
      have samePlace : place = place' :=
        (atWinner place old found firstHeld).trans (atWinner place' old' found' secondHeld).symm
      subst samePlace
      rw [found] at found'
      cases found'
      rfl
    | none =>
      have isRequest : ∀ place old, announcements[place]? = some old →
          (chosen (winner announcements) (old, place)).state.isHeld = true →
            old.state = .requested ∧ chosen none (old, place) = old := by
        intro place old found held
        have notBest : (chosen (winner announcements) (old, place)).state ≠ .best := by
          rw [Ne, chosen_best, isWinner]
          exact nofun
        have requested : old.state = .requested := by
          rw [← chosen_requested found]
          exact (RequestState.best_or_requested held).resolve_left notBest
        refine ⟨requested, ?_⟩
        rw [chosen, if_neg nofun, if_neg (by rw [requested]; exact nofun)]
      obtain ⟨requested, same⟩ := isRequest place old found firstHeld
      obtain ⟨requested', same'⟩ := isRequest place' old' found' secondHeld
      rw [same, same']
      exact oneRequest old (mem_of_getElem? found) old' (mem_of_getElem? found')
        requested requested'
  · intro noRequest due member isDue
    obtain ⟨place, old, found, rfl⟩ := mem_chosen.mp member
    obtain ⟨-, -, -, sameDue, -⟩ := chosen_refreshes found rfl
    cases isWinner : winner announcements with
    | none =>
      exfalso
      rcases winner_eq_none isWinner with ⟨request, isRequest, requested⟩ | noneDue
      · obtain ⟨place', bound, rfl⟩ := getElem_of_mem isRequest
        have found' : announcements[place']? = some announcements[place'] :=
          getElem?_eq_getElem bound
        exact noRequest _ (mem_chosen.mpr ⟨place', _, found', rfl⟩)
          ((chosen_requested found').mpr requested)
      · rw [sameDue, noneDue old (mem_of_getElem? found)] at isDue
        cases isDue
    | some position =>
      obtain ⟨-, top, foundTop, topDue, above⟩ := winner_eq_some isWinner
      refine ⟨chosen (winner announcements) (top, position), ?_, ?_, ?_⟩
      · rw [← isWinner]
        exact mem_chosen.mpr ⟨position, top, foundTop, rfl⟩
      · exact (chosen_best).mpr isWinner
      · intro other otherMember otherDue
        rw [← isWinner] at otherMember
        obtain ⟨place', old', found', rfl⟩ := mem_chosen.mp otherMember
        obtain ⟨-, -, priority, sameDue', -⟩ := chosen_refreshes found' rfl
        obtain ⟨-, -, topPriority, -⟩ := chosen_refreshes foundTop rfl
        rw [sameDue'] at otherDue
        rw [priority, topPriority]
        exact above old' (mem_of_getElem? found') otherDue
  · obtain ⟨announcement, member, open'⟩ := unfinished
    obtain ⟨place, bound, rfl⟩ := getElem_of_mem member
    have found : announcements[place]? = some announcements[place] := getElem?_eq_getElem bound
    refine ⟨_, mem_chosen.mpr ⟨place, _, found, rfl⟩, ?_⟩
    obtain ⟨-, -, -, -, unchanged⟩ := chosen_refreshes found rfl
    intro completed
    rw [unchanged (by rw [completed]; rfl)] at completed
    exact open' completed

end TxRequestTracker

theorem editPeer_some (peer : PeerId) (edit : PeerAnnouncements τ → PeerAnnouncements τ)
    (peers : Map PeerId (PeerAnnouncements τ)) :
    editPeer peer (fun known => some (edit known)) peers = some (touchPeer peer edit peers) := by
  rw [editPeer, touchPeer]
  cases peers.lookup peer <;> rfl

variable [LinearOrder τ] (txs : Map τ (List (Announcement τ)))

namespace Indexed

open TxRequestTracker (chosen chosenPeers chosen_peer selectAll_cons)

variable {gone : PeerId → Prop} {view : View τ} {before after tracker : TxRequestTracker τ}
  {hash : τ} {earlier later : List (Announcement τ)} {old new : Announcement τ}

/-- The indexes after a due candidate was chosen or passed over. -/
theorem refresh (new : Announcement τ)
    (indexed : Indexed gone (view.row hash (earlier ++ old :: later)) before)
    (distinct : OnePerPeer (earlier ++ old :: later)) (named : new.peer = old.peer)
    (seq : new.seq = old.seq) (time : new.time = old.time) (wasDue : old.state.isDue = true)
    (due : new.state.isDue = true) (edit : PeerAnnouncements τ → PeerAnnouncements τ)
    (edits : EditFollows (view.row hash (earlier ++ old :: later)) hash old.peer old new
      fun known => some (edit known)) :
    Indexed gone (view.row hash (earlier ++ new :: later))
      { before with peers := touchPeer old.peer edit before.peers } := by
  have present := View.row_member view hash distinct (mem_append_right earlier mem_cons_self)
  have timed : new.state.isTimed = old.state.isTimed :=
    (RequestState.isTimed_of_isDue due).trans (RequestState.isTimed_of_isDue wasDue).symm
  obtain ⟨peers, edited, indexedAfter⟩ := restate new before indexed present named seq
    (follows_same indexed.timeline present time timed)
    (follows_same indexed.ready present time (due.trans wasDue.symm)) edits
  rw [editPeer_some] at edited
  cases edited
  rw [View.row_replace new distinct named]
  exact indexedAfter

variable {winner : Option Nat}

/-- The indexes after the choice for one announcement. -/
theorem chooseOne (indexed : Indexed gone (view.row hash (earlier ++ old :: later)) before)
    (distinct : OnePerPeer (earlier ++ old :: later))
    (due : winner = some position → old.state.isDue = true) :
    Indexed gone (view.row hash (earlier ++ chosen winner (old, position) :: later))
      { before with peers := chosenPeers hash winner (old, position) before.peers } := by
  rw [chosen, chosenPeers]
  by_cases isWinner : winner = some position
  · have wasDue := due isWinner
    rw [if_pos isWinner, if_pos isWinner]
    by_cases wasBest : old.state = .best
    · rw [if_pos wasBest, ← wasBest]
      exact indexed
    · rw [if_neg wasBest]
      have wasCandidate : old.state ≠ .requested := fun was => by
        rw [was] at wasDue
        cases wasDue
      exact refresh { old with state := .best } indexed distinct rfl rfl rfl wasDue rfl _
        (.choose wasCandidate rfl)
  · rw [if_neg isWinner, if_neg isWinner]
    by_cases wasBest : old.state = .best
    · rw [if_pos wasBest, if_pos wasBest]
      have wasCandidate : old.state ≠ .requested := by
        rw [wasBest]
        decide
      have wasDue : old.state.isDue = true := by
        rw [wasBest]
        rfl
      exact refresh { old with state := .ready } indexed distinct rfl rfl rfl wasDue rfl _
        (.passOver wasCandidate nofun nofun)
    · rw [if_neg wasBest, if_neg wasBest]
      exact indexed

/-- The indexes after the choice. -/
theorem selectAll {rest : List (Announcement τ × Nat)} {peers : Map PeerId (PeerAnnouncements τ)}
    (indexed : Indexed gone (view.row hash (earlier ++ rest.map Prod.fst)) { tracker with peers })
    (distinct : OnePerPeer (earlier ++ rest.map Prod.fst))
    (due : ∀ placed ∈ rest, winner = some placed.2 → placed.1.state.isDue = true) :
    (TxRequestTracker.selectAll hash winner rest peers).1 = rest.map (chosen winner) ∧
      Indexed gone (view.row hash (earlier ++ rest.map (chosen winner)))
        { tracker with peers := (TxRequestTracker.selectAll hash winner rest peers).2 } := by
  induction rest generalizing earlier peers with
  | nil => exact ⟨rfl, indexed⟩
  | cons placed rest ih =>
    rw [selectAll_cons]
    have one := indexed.chooseOne distinct (due placed mem_cons_self)
    have next := @ih (earlier ++ [chosen winner placed]) (chosenPeers hash winner placed peers)
    simp only [append_assoc, singleton_append] at next
    obtain ⟨selected, indexedAfter⟩ := next one (distinct.replace (chosen_peer winner placed))
      fun other member => due other (mem_cons_of_mem _ member)
    exact ⟨by rw [selected, map_cons], indexedAfter⟩

/-- The indexes after every announcement of a hash was forgotten. -/
theorem forgetAll (indexed : Indexed gone (view.row hash announcements) before)
    (distinct : OnePerPeer announcements) :
    ∃ after, announcements.foldlM (TxRequestTracker.forgetAnnouncement hash) before = some after ∧
      Indexed gone (view.row hash []) after ∧ Shrinks before after ∧ after.txs = before.txs := by
  induction announcements generalizing before with
  | nil => exact ⟨before, rfl, indexed, .refl before, rfl⟩
  | cons announcement rest ih =>
    obtain ⟨forgotten, isForgotten, indexedNext, shrinks, txs⟩ := indexed.forgetAnnouncement
      (View.row_member view hash distinct mem_cons_self)
    have removed : view.row hash rest =
        (view.row hash (announcement :: rest)).set hash announcement.peer none :=
      View.row_remove distinct (List.Perm.refl ([] ++ rest))
    rw [← removed] at indexedNext
    obtain ⟨after, result, indexedAfter, shrinksAfter, txsAfter⟩ :=
      ih indexedNext (nodup_cons.mp distinct).2
    refine ⟨after, ?_, indexedAfter, shrinks.trans shrinksAfter, txsAfter.trans txs⟩
    rw [foldlM_cons, isForgotten]
    exact result

end Indexed

/-! ## Consistent trackers -/

/-- A tracker whose indexes are exact and whose hashes are settled, but for those
for which the choice is still to be made. -/
structure Consistent (gone : PeerId → Prop) (pending : τ → Prop) (tracker : TxRequestTracker τ) :
    Prop where
  indexed : Indexed gone (viewOf tracker.txs) tracker
  distinct : ∀ hash announcements, tracker.txs.lookup hash = some announcements →
    OnePerPeer announcements
  numbered : ∀ hash announcements, tracker.txs.lookup hash = some announcements →
    ∀ announcement ∈ announcements, announcement.seq < tracker.nextSeq
  oneRequest : ∀ hash announcements, tracker.txs.lookup hash = some announcements →
    OneRequest announcements
  settled : ∀ hash announcements, tracker.txs.lookup hash = some announcements →
    ¬ pending hash → Settled announcements

/-- An announcement that stems from another: a candidate from a candidate of the
same time that was due if it is due. -/
structure StemsFrom (old new : Announcement τ) : Prop where
  peer : new.peer = old.peer
  seq : new.seq = old.seq
  candidate : new.state.isCandidate = true → old.state.isCandidate = true ∧
    new.time = old.time ∧ new.state.isDue = old.state.isDue

omit [LinearOrder τ] in
theorem StemsFrom.refl (announcement : Announcement τ) : StemsFrom announcement announcement :=
  ⟨rfl, rfl, fun candidate => ⟨candidate, rfl, rfl⟩⟩

omit [LinearOrder τ] in
theorem StemsFrom.trans {first second third : Announcement τ} (earlier : StemsFrom first second)
    (later : StemsFrom second third) : StemsFrom first third := by
  refine ⟨later.peer.trans earlier.peer, later.seq.trans earlier.seq, ?_⟩
  intro candidate
  obtain ⟨wasCandidate, time, due⟩ := later.candidate candidate
  obtain ⟨wasCandidateFirst, timeFirst, dueFirst⟩ := earlier.candidate wasCandidate
  exact ⟨wasCandidateFirst, time.trans timeFirst, due.trans dueFirst⟩

/-- Every announcement stems from one of the same hash. -/
def Descends (before after : Map τ (List (Announcement τ))) : Prop :=
  ∀ hash announcements, after.lookup hash = some announcements →
    ∃ earlier, before.lookup hash = some earlier ∧
      ∀ new ∈ announcements, ∃ old ∈ earlier, StemsFrom old new

theorem Descends.refl : Descends txs txs :=
  fun _ announcements found => ⟨announcements, found, fun announcement member =>
    ⟨announcement, member, .refl announcement⟩⟩

theorem Descends.trans {first second third : Map τ (List (Announcement τ))}
    (earlier : Descends first second) (later : Descends second third) : Descends first third := by
  intro hash announcements found
  obtain ⟨middle, foundMiddle, stems⟩ := later hash announcements found
  obtain ⟨old, foundOld, stemsMiddle⟩ := earlier hash middle foundMiddle
  refine ⟨old, foundOld, ?_⟩
  intro new member
  obtain ⟨between, memberBetween, stem⟩ := stems new member
  obtain ⟨origin, memberOrigin, stemBetween⟩ := stemsMiddle between memberBetween
  exact ⟨origin, memberOrigin, stemBetween.trans stem⟩

theorem Descends.erase (hash : τ) : Descends txs (txs.erase hash) := by
  intro other announcements found
  rw [lookup_erase] at found
  split at found
  · cases found
  · exact Descends.refl txs other announcements found

theorem Descends.insert {txs : Map τ (List (Announcement τ))} {hash : τ}
    {earlier : List (Announcement τ)} (found : txs.lookup hash = some earlier)
    (stems : ∀ new ∈ announcements, ∃ old ∈ earlier, StemsFrom old new) :
    Descends txs (txs.insert hash announcements) := by
  intro other others foundOther
  rw [lookup_insert] at foundOther
  split at foundOther
  · next own =>
    cases foundOther
    rw [← own]
    exact ⟨earlier, found, stems⟩
  · exact Descends.refl txs other others foundOther

namespace Consistent

variable {gone : PeerId → Prop} {pending : τ → Prop} {tracker : TxRequestTracker τ} {hash : τ}

/-- A tracker in which the announcements of one hash changed. -/
theorem put {after : TxRequestTracker τ} {goneAfter : PeerId → Prop} {pendingAfter : τ → Prop}
    (consistent : Consistent gone pending tracker)
    (txs : after.txs = tracker.txs.insert hash announcements)
    (nextSeq : tracker.nextSeq ≤ after.nextSeq)
    (indexed : Indexed goneAfter (viewOf after.txs) after) (distinct : OnePerPeer announcements)
    (numbered : ∀ announcement ∈ announcements, announcement.seq < after.nextSeq)
    (oneRequest : OneRequest announcements) (settled : ¬ pendingAfter hash → Settled announcements)
    (others : ∀ other, other ≠ hash → pending other → pendingAfter other) :
    Consistent goneAfter pendingAfter after := by
  have row : ∀ other found, after.txs.lookup other = some found →
      (other = hash ∧ found = announcements) ∨
        (other ≠ hash ∧ tracker.txs.lookup other = some found) := by
    intro other found isFound
    rw [txs, lookup_insert] at isFound
    split at isFound
    · next own => exact .inl ⟨own.symm, (Option.some.inj isFound).symm⟩
    · next different => exact .inr ⟨.symm different, isFound⟩
  constructor
  · exact indexed
  · intro other found isFound
    rcases row other found isFound with ⟨rfl, rfl⟩ | ⟨-, before⟩
    · exact distinct
    · exact consistent.distinct other found before
  · intro other found isFound
    rcases row other found isFound with ⟨rfl, rfl⟩ | ⟨-, before⟩
    · exact numbered
    · intro announcement member
      exact (consistent.numbered other found before announcement member).trans_le nextSeq
  · intro other found isFound
    rcases row other found isFound with ⟨rfl, rfl⟩ | ⟨-, before⟩
    · exact oneRequest
    · exact consistent.oneRequest other found before
  · intro other found isFound notPending
    rcases row other found isFound with ⟨rfl, rfl⟩ | ⟨different, before⟩
    · exact settled notPending
    · exact consistent.settled other found before fun was =>
        notPending (others other different was)

/-- A tracker from which a hash was forgotten. -/
theorem forgetTxHash (consistent : Consistent gone pending tracker) (hash : τ) :
    ∃ after, tracker.forgetTxHash hash = some after ∧
      Consistent gone (fun other => other ≠ hash ∧ pending other) after ∧
      Shrinks tracker after ∧ Descends tracker.txs after.txs := by
  rw [TxRequestTracker.forgetTxHash]
  cases found : tracker.txs.lookup hash with
  | none =>
    refine ⟨tracker, rfl, { consistent with settled := ?_ }, .refl tracker, .refl tracker.txs⟩
    intro other announcements foundOther settled
    apply consistent.settled other announcements foundOther
    intro isPending
    refine settled ⟨?_, isPending⟩
    rintro rfl
    rw [found] at foundOther
    cases foundOther
  | some announcements =>
    have indexed := consistent.indexed
    rw [← viewOf_row found] at indexed
    have erased : Indexed gone ((viewOf tracker.txs).row hash announcements)
        { tracker with txs := tracker.txs.erase hash } := { indexed with }
    obtain ⟨after, result, indexedAfter, shrinks, txs⟩ :=
      erased.forgetAll (consistent.distinct hash announcements found)
    rw [← viewOf_erase] at indexedAfter
    have stays : ∀ other others, after.txs.lookup other = some others →
        other ≠ hash ∧ tracker.txs.lookup other = some others := by
      intro other others foundOther
      rw [txs, lookup_erase] at foundOther
      split at foundOther
      · cases foundOther
      · next different => exact ⟨.symm different, foundOther⟩
    refine ⟨after, result, ⟨by rw [txs]; exact indexedAfter, ?_, ?_, ?_, ?_⟩,
      { shrinks with },
      by rw [txs]; exact .erase tracker.txs hash⟩
    · exact fun other others foundOther =>
        consistent.distinct other others (stays other others foundOther).2
    · intro other others foundOther
      rw [shrinks.nextSeq]
      exact consistent.numbered other others (stays other others foundOther).2
    · exact fun other others foundOther =>
        consistent.oneRequest other others (stays other others foundOther).2
    · intro other others foundOther settled
      obtain ⟨different, foundBefore⟩ := stays other others foundOther
      exact consistent.settled other others foundBefore fun isPending =>
        settled ⟨different, isPending⟩

open TxRequestTracker (winner chosen chosen_peer mem_chosen winner_isDue chosen_refreshes
  chosen_requested settled_chosen)

/-- Choosing anew settles the one hash for which the choice was still to be made. -/
theorem reselect (consistent : Consistent gone (· = hash) tracker) :
    ∃ after, tracker.reselect hash = some after ∧ Consistent gone (fun _ => False) after ∧
      Shrinks tracker after ∧ Descends tracker.txs after.txs := by
  obtain ⟨forgotten, forgets, kept, changes⟩ := consistent.forgetTxHash hash
  have settled : Consistent gone (fun _ => False) forgotten := by
    refine { kept with settled := ?_ }
    intro other others foundOther _
    exact kept.settled other others foundOther fun both => both.1 both.2
  rw [TxRequestTracker.reselect]
  cases found : tracker.txs.lookup hash with
  | none =>
    rw [TxRequestTracker.forgetTxHash, found] at forgets
    exact ⟨forgotten, forgets, settled, changes⟩
  | some announcements =>
    by_cases finished : (announcements.all fun announcement => announcement.state == .completed) =
        true
    · exact ⟨forgotten, (if_pos finished).trans forgets, settled, changes⟩
    · have distinct := consistent.distinct hash announcements found
      have indexed := consistent.indexed
      rw [← viewOf_row found] at indexed
      have listed : announcements.zipIdx.map Prod.fst = announcements := by simp
      obtain ⟨selected, indexedAfter⟩ := @Indexed.selectAll τ _ gone (viewOf tracker.txs) tracker
        hash [] (winner announcements) announcements.zipIdx tracker.peers
        (by rw [nil_append, listed]; exact indexed)
        (by rw [nil_append, listed]; exact distinct)
        (fun placed member => winner_isDue (mem_zipIdx_iff_getElem?.mp member))
      rw [nil_append, ← viewOf_insert] at indexedAfter
      refine ⟨_, if_neg finished, ?_, ⟨fun _ member => member, fun _ member => member, rfl, rfl⟩,
        ?_⟩
      · rw [selected]
        have unfinished : ∃ announcement ∈ announcements, announcement.state ≠ .completed := by
          simpa using finished
        have settled := settled_chosen (consistent.oneRequest hash announcements found) unfinished
        refine consistent.put rfl le_rfl { indexedAfter with }
          (distinct.mapIdx (chosen_peer _)) ?_ settled.oneRequest (fun _ => settled)
          fun _ different isPending => different isPending
        intro new member
        obtain ⟨place, old, foundOld, isChosen⟩ := mem_chosen.mp member
        rw [(chosen_refreshes foundOld isChosen).1]
        exact consistent.numbered hash announcements found old (mem_of_getElem? foundOld)
      · rw [selected]
        apply Descends.insert found
        intro new member
        obtain ⟨place, old, foundOld, isChosen⟩ := mem_chosen.mp member
        obtain ⟨seq, time, -, due, unchanged⟩ := chosen_refreshes foundOld isChosen
        have named : new.peer = old.peer := by
          rw [← isChosen]
          exact chosen_peer _ (old, place)
        refine ⟨old, mem_of_getElem? foundOld, named, seq, ?_⟩
        intro candidate
        refine ⟨?_, time, due⟩
        cases isDue : new.state.isDue with
        | false => rwa [← unchanged isDue]
        | true =>
          rw [due] at isDue
          cases state : old.state <;> rw [state] at isDue <;> first | rfl | cases isDue

end Consistent

end Satd.Net
