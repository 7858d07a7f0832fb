import Satd.Lib.Dispatch
import Satd.Lib.Run
import Satd.Net.IbdScheduler

/-!
# No height is lost or handed out twice

What the scheduler is for, apart from its clocks and counts: every height above the cursor and
up to the target waits, is out to a peer, or is done, and the table of what is out agrees with
the lists of the peers. Every call keeps this, and so does every run.

A peer that leaves takes back its heights, except those whose block has arrived: they stay out
under a peer that is gone. A run is watched for these.
-/

namespace Satd.Net

open KeyedMap Dispatch List Function

/-- Where every height is. -/
structure Places (β : Type) where
  cursor : Nat
  target : Nat
  limit : Nat
  waiting : Set Nat
  out : Nat → Option PeerId
  done : Set Nat
  lists : PeerId → Option (List Nat)
  row : Nat → Option β

variable {others waiting : Set Nat} {height target : Nat}

namespace Places

variable {β : Type}

/-- No height is lost and none is in two places, except that excused heights are on no list. -/
structure Accounted (places : Places β) (excused : Set Nat) : Prop where
  covered : ∀ height, places.cursor < height → height ≤ places.target →
    height ∈ places.waiting ∨ (places.out height).isSome ∨ height ∈ places.done
  apart : ∀ height, (places.out height).isSome → height ∉ places.done
  held : Held places.out places.lists 16 excused
  rowed : ∀ height, places.cursor < height → height ≤ places.target → (places.row height).isSome
  limit : places.limit = 16

/-- Nothing goes out. -/
def Shrunk (before after : Places β) : Prop :=
  ∀ height peer, after.out height = some peer → before.out height = some peer

theorem Shrunk.refl (places : Places β) : Shrunk places places := fun _ _ out => out

theorem Shrunk.trans {first second third : Places β} (before : Shrunk first second)
    (after : Shrunk second third) : Shrunk first third :=
  fun height peer out => before height peer (after height peer out)

variable {places : Places β} {excused : Set Nat}

theorem Accounted.excuse (accounted : places.Accounted excused)
    (covers : ∀ height ∈ excused, (places.out height).isSome → height ∈ others) :
    places.Accounted others :=
  { accounted with held := accounted.held.excuse covers }

/-- A height comes back from the peer that has it, if one has, to wait or to be done. -/
def land (places : Places β) (height : Nat) (holder : PeerId) : Places β :=
  { places with
    out := update places.out height none
    lists := strike places.lists holder height }

theorem shrunk_back {after : Places β} (back : after.out = update places.out height none) :
    Shrunk places after := by
  intro other peer out
  rw [back] at out
  by_cases same : other = height
  · subst same
    simp at out
  · rwa [update_of_ne same] at out

variable {done : Set Nat}

/-- A height that comes back, and then waits or is done if it is wanted, is accounted for. -/
theorem Accounted.back (accounted : places.Accounted excused) {lists : PeerId → Option (List Nat)}
    (held : Held (update places.out height none) lists 16 others)
    (covered : places.cursor < height → height ≤ places.target → height ∈ waiting ∨ height ∈ done)
    (keptWaiting : ∀ other ≠ height, other ∈ places.waiting → other ∈ waiting)
    (keptDone : ∀ other ≠ height, other ∈ done ↔ other ∈ places.done) :
    ({ places with out := update places.out height none, lists, waiting, done } :
      Places β).Accounted others where
  covered := by
    intro other above below
    by_cases same : other = height
    · subst same
      exact (covered above below).imp_right .inr
    · simp only [update_of_ne same, keptDone other same]
      exact (accounted.covered other above below).imp_left (keptWaiting other same)
  apart := by
    intro other isOut isDone
    by_cases same : other = height
    · subst same
      simp at isOut
    · simp only [update_of_ne same] at isOut
      exact accounted.apart other isOut ((keptDone other same).mp isDone)
  held := held
  rowed := accounted.rowed
  limit := accounted.limit

/-- Nothing but what waits and what is done may change if nothing goes out or comes back. -/
theorem Accounted.resettle (accounted : places.Accounted excused) {cursor : Nat}
    {row : Nat → Option β}
    (covered : ∀ height, cursor < height → height ≤ target → height ∈ waiting ∨
      (places.out height).isSome ∨ height ∈ done)
    (apart : ∀ height, (places.out height).isSome → height ∉ done)
    (rowed : ∀ height, cursor < height → height ≤ target → (row height).isSome) :
    ({ places with cursor, target, waiting, done, row } : Places β).Accounted excused :=
  ⟨covered, apart, accounted.held, rowed, accounted.limit⟩

end Places

namespace IbdScheduler

variable {β : Type}

/-- Where the heights of a scheduler are. -/
def places (scheduler : IbdScheduler β) : Places β where
  cursor := scheduler.connectCursor
  target := scheduler.targetHeight
  limit := scheduler.perPeerLimit
  waiting := {height | height ∈ scheduler.pending}
  out := scheduler.inFlight.lookup
  done := {height | height ∈ scheduler.downloaded}
  lists peer := (scheduler.peerSlots.lookup peer).map PeerSlots.assigned
  row := scheduler.heightToHash.lookup

variable (scheduler : IbdScheduler β)

/-! ## What the parts of a call do to the places -/

variable {change : PeerSlots → PeerSlots} {after : IbdScheduler β} {peer : PeerId}

theorem places_withSlots (rewrite : List Nat → List Nat)
    (assigned : ∀ slots, (change slots).assigned = rewrite slots.assigned) (peer : PeerId) :
    (scheduler.withSlots peer change).places =
      { scheduler.places with
        lists := update scheduler.places.lists peer
          ((scheduler.places.lists peer).map rewrite) } := by
  cases known : scheduler.peerSlots.lookup peer with
  | none => simp [withSlots, places, known]
  | some slots =>
    simp only [withSlots, places, known, Places.mk.injEq, true_and, and_true, Option.map_some]
    funext other
    by_cases same : other = peer
    · subst same
      simp [assigned]
    · rw [update_of_ne same, KeyedMap.lookup_insert, if_neg (Ne.symm same)]

theorem withSlots_eq (peer : PeerId) (change : PeerSlots → PeerSlots) :
    ∃ peerSlots, scheduler.withSlots peer change = { scheduler with peerSlots } := by
  rw [withSlots]
  split
  · exact ⟨_, rfl⟩
  · exact ⟨_, rfl⟩

/-- What does not touch the list of a peer leaves every height where it is. -/
theorem places_withSlots_same (assigned : ∀ slots, (change slots).assigned = slots.assigned)
    (peer : PeerId) :
    (scheduler.withSlots peer change).places = scheduler.places := by
  rw [places_withSlots scheduler id assigned]
  simp

theorem places_recordFailure (now : Nat) (peer : PeerId) (height : Nat) :
    (scheduler.recordFailure now peer height).places = scheduler.places := by
  refine places_withSlots_same (scheduler.barFromHeight now peer height) ?_ peer
  intro slots
  rw [PeerSlots.countFailure]
  split_ifs <;> rfl

theorem lookup_inFlight_erase (height : Nat) :
    (scheduler.inFlight.erase height).lookup = update scheduler.places.out height none :=
  lookup_erase_eq_update ..

theorem mem_pushFront (height : Nat) :
    {other | other ∈ height :: scheduler.pending} = insert height scheduler.places.waiting := by
  ext other
  exact mem_cons

theorem places_takeFromFlight (height : Nat) (holder : PeerId) :
    (scheduler.takeFromFlight height holder).places = scheduler.places.land height holder := by
  rw [takeFromFlight, places_withSlots _ (fun jobs => jobs.filter fun other => other ≠ height)
    fun _ => rfl]
  simp only [Places.land, strike, Places.mk.injEq]
  exact ⟨rfl, rfl, rfl, rfl, lookup_inFlight_erase .., rfl, rfl, rfl⟩

theorem places_pushFront (height : Nat) :
    ({ scheduler with pending := height :: scheduler.pending } : IbdScheduler β).places =
      { scheduler.places with waiting := insert height scheduler.places.waiting } := by
  rw [← mem_pushFront]
  rfl

variable {scheduler} {excused : Set Nat}

/-- Every height is accounted for afterwards, and nothing went out. -/
structure Kept (before after : IbdScheduler β) (excused : Set Nat) : Prop where
  accounted : after.places.Accounted excused
  shrunk : Places.Shrunk before.places after.places

theorem Kept.of_same (accounted : scheduler.places.Accounted excused)
    (same : after.places = scheduler.places) : Kept scheduler after excused :=
  ⟨same ▸ accounted, by rw [same]; exact .refl _⟩

theorem Kept.excuse (kept : Kept scheduler after excused) (covers : excused ⊆ others) :
    Kept scheduler after others :=
  ⟨kept.accounted.excuse fun _ member _ => covers member, kept.shrunk⟩

/-! ## Calls -/

section

variable (accounted : scheduler.places.Accounted excused)
include accounted

variable {holder : PeerId}

/-- A height that is stored is done, unless it is connected already. -/
theorem settleHeight_kept (isHolder : scheduler.places.out height = some holder) :
    Kept scheduler (scheduler.settleHeight height holder) (excused \ {height}) := by
  have placed := places_takeFromFlight scheduler height holder
  have downloaded : (scheduler.takeFromFlight height holder).downloaded = scheduler.downloaded := by
    rw [takeFromFlight]
    obtain ⟨peerSlots, equal⟩ := withSlots_eq _ holder (.without height)
    rw [equal]
  have cursor : (scheduler.takeFromFlight height holder).connectCursor = scheduler.connectCursor :=
    congrArg Places.cursor placed
  have settled : (scheduler.settleHeight height holder).places =
      { scheduler.places.land height holder with
        done := {other | other ∈ if scheduler.connectCursor < height then
          insert height scheduler.downloaded else scheduler.downloaded} } := by
    rw [← placed]
    simp [settleHeight, places, downloaded, cursor]
  constructor
  · rw [settled]
    have held := accounted.held.land fun other out => Option.some.inj (out.symm.trans isHolder)
    refine accounted.back held (fun above _ => ?_) (fun _ _ waits => waits) ?_
    · have wanted : scheduler.connectCursor < height := above
      exact .inr (by simp [wanted])
    · intro other different
      split_ifs <;> simp [places, different]
  · rw [settled]
    exact Places.shrunk_back rfl

/-- A height taken back waits again. -/
theorem waitAgain_kept
    (isHolder : ∀ other, scheduler.places.out height = some other → other = holder)
    {after : IbdScheduler β}
    (placed : after.places = { scheduler.places.land height holder with
      waiting := insert height scheduler.places.waiting }) :
    Kept scheduler after (excused \ {height}) := by
  constructor
  · rw [placed]
    exact accounted.back (accounted.held.land isHolder) (fun _ _ => .inl (.inl rfl))
      (fun _ _ waits => .inr waits) fun _ _ => .rfl
  · rw [placed]
    exact Places.shrunk_back rfl

theorem releaseHeight_kept {now height : Nat}
    {owner : PeerId} : Kept scheduler (scheduler.releaseHeight now height owner).1 excused := by
  rw [releaseHeight]
  split_ifs with refused
  · exact .of_same accounted rfl
  · push Not at refused
    have isHolder : ∀ other, scheduler.places.out height = some other → other = owner :=
      fun other out => Option.some.inj (out.symm.trans refused.1)
    refine (waitAgain_kept accounted isHolder ?_).excuse Set.sdiff_subset
    rw [places_recordFailure, places_pushFront, places_takeFromFlight]
    rfl

end

theorem places_releaseStale (now : Nat) (stale : Stale) :
    (releaseStale now scheduler stale).places =
      { scheduler.places.land stale.height stale.holder with
        waiting := insert stale.height scheduler.places.waiting } := by
  have pooled : ({ scheduler.takeFromFlight stale.height stale.holder with
      pending := stale.height :: (scheduler.takeFromFlight stale.height stale.holder).pending } :
      IbdScheduler β).places = { scheduler.places.land stale.height stale.holder with
        waiting := insert stale.height scheduler.places.waiting } := by
    rw [places_pushFront, places_takeFromFlight]
    rfl
  have judged : ∀ judge : IbdScheduler β,
      (if stale.timedOut then judge.withSlots stale.holder fun slots =>
          { slots with timedOutSinceDelivery := true }
        else judge).places = judge.places := by
    intro judge
    split_ifs
    · refine places_withSlots_same judge ?_ _
      exact fun _ => rfl
    · rfl
  rw [← pooled, releaseStale, judged]
  split_ifs
  · exact places_recordFailure ..
  · rfl
  · rfl

/-- The heights that are taken back wait again, whatever the order. -/
theorem foldl_releaseStale_kept {now : Nat} {stale : List Stale}
    (accounted : scheduler.places.Accounted excused)
    (holders : ∀ one ∈ stale, ∀ other, scheduler.places.out one.height = some other →
      other = one.holder) :
    Kept scheduler (stale.foldl (releaseStale now) scheduler) excused := by
  induction stale generalizing scheduler with
  | nil => exact .of_same accounted rfl
  | cons one rest ih =>
    have first := (waitAgain_kept accounted (holders one mem_cons_self)
      (places_releaseStale now one)).excuse Set.sdiff_subset
    have others := ih first.accounted fun other member holder out =>
      holders other (mem_cons_of_mem _ member) holder (first.shrunk _ _ out)
    exact ⟨others.accounted, first.shrunk.trans others.shrunk⟩

theorem releaseStaleInflight_kept (accounted : scheduler.places.Accounted excused)
    {now timeout nearCursorTimeout : Nat} {order : List Nat} {peers : List PeerId} :
    Kept scheduler (scheduler.releaseStaleInflight now timeout nearCursorTimeout order peers).1
      excused := by
  refine foldl_releaseStale_kept accounted ?_
  intro one member other out
  obtain ⟨height, -, found⟩ := mem_filterMap.mp member
  obtain ⟨holder, isHolder, kept⟩ := Option.bind_eq_some_iff.mp found
  dsimp only at kept
  split_ifs at kept
  all_goals
    cases kept
    exact Option.some.inj (out.symm.trans isHolder)

/-! ## Peers -/

theorem places_registerPeer (now : Nat) (unknown : peer ∉ scheduler.peerSlots) :
    (scheduler.registerPeer now peer).places =
      { scheduler.places with
        lists := update scheduler.places.lists peer (some []) } := by
  rw [registerPeer, if_neg unknown]
  simp only [places, Places.mk.injEq, true_and, and_true]
  funext other
  by_cases same : other = peer
  · subst same
    simp [PeerSlots.new]
  · rw [update_of_ne same, KeyedMap.lookup_insert, if_neg (Ne.symm same)]

theorem registerPeer_kept (accounted : scheduler.places.Accounted excused) {now : Nat} :
    Kept scheduler (scheduler.registerPeer now peer) excused := by
  by_cases known : peer ∈ scheduler.peerSlots
  · exact .of_same accounted (by rw [registerPeer, if_pos known])
  · have unlisted : scheduler.places.lists peer = none := by
      simp [places, Finmap.lookup_eq_none.mpr known]
    have placed := places_registerPeer now known
    constructor
    · rw [placed]
      exact { accounted with held := accounted.held.register unlisted }
    · rw [placed]
      exact .refl _

/-- What a departing peer had comes back, except what has arrived. -/
theorem foldl_returnHeight_kept {heights : List Nat}
    (accounted : scheduler.places.Accounted excused)
    (offLists : ∀ height ∈ heights, ∀ {peer list}, scheduler.places.lists peer = some list →
      height ∉ list) :
    Kept scheduler (heights.foldl returnHeight scheduler)
      (excused \ {height | height ∈ heights ∧ height ∉ scheduler.arrived}) ∧
    (heights.foldl returnHeight scheduler).peerSlots = scheduler.peerSlots := by
  induction heights generalizing scheduler excused with
  | nil => exact ⟨(Kept.of_same accounted rfl).excuse (by simp), rfl⟩
  | cons height rest ih =>
    have restOff : ∀ other ∈ rest, ∀ {peer list}, scheduler.places.lists peer = some list →
        other ∉ list := fun other member => offLists other (mem_cons_of_mem _ member)
    by_cases arrived : height ∈ scheduler.arrived
    · have same : returnHeight scheduler height = scheduler := if_pos arrived
      rw [foldl_cons, same]
      obtain ⟨kept, slots⟩ := ih accounted restOff
      refine ⟨kept.excuse ?_, slots⟩
      rintro other ⟨excuse, notReturned⟩
      refine ⟨excuse, ?_⟩
      rintro ⟨member, inHand⟩
      obtain rfl | member := mem_cons.mp member
      · exact inHand arrived
      · exact notReturned ⟨member, inHand⟩
    · have returned : returnHeight scheduler height =
          { scheduler with
            inFlight := scheduler.inFlight.erase height
            requestedAt := scheduler.requestedAt.erase height
            pending := height :: scheduler.pending } := if_neg arrived
      have placed : (returnHeight scheduler height).places =
          { scheduler.places with
            out := update scheduler.places.out height none
            waiting := insert height scheduler.places.waiting } := by
        rw [returned, ← lookup_inFlight_erase, ← mem_pushFront]
        rfl
      have recalled : (returnHeight scheduler height).places.Accounted (excused \ {height}) := by
        rw [placed]
        exact accounted.back (accounted.held.revoke (offLists height mem_cons_self))
          (fun _ _ => .inl (.inl rfl)) (fun _ _ waits => .inr waits) fun _ _ => .rfl
      have shrunk := Places.shrunk_back (congrArg Places.out placed)
      have arrivedSame := congrArg IbdScheduler.arrived returned
      have slotsSame := congrArg IbdScheduler.peerSlots returned
      have listsSame := congrArg Places.lists placed
      obtain ⟨kept, slots⟩ := ih recalled (by rw [listsSame]; exact restOff)
      refine ⟨⟨(kept.excuse ?_).accounted, shrunk.trans kept.shrunk⟩, slots.trans slotsSame⟩
      rw [arrivedSame]
      rintro other ⟨⟨excuse, different⟩, notReturned⟩
      refine ⟨excuse, ?_⟩
      rintro ⟨member, inHand⟩
      obtain rfl | member := mem_cons.mp member
      · exact different rfl
      · exact notReturned ⟨member, inHand⟩

/-- A height is under a peer that left while its block had arrived. -/
def LeftBehind (before after : IbdScheduler β) (height : Nat) : Prop :=
  height ∈ before.arrived ∧
    ∃ peer, before.places.out height = some peer ∧ peer ∈ before.peerSlots ∧ peer ∉ after.peerSlots

section

variable (accounted : scheduler.places.Accounted excused)
include accounted

theorem peerDisconnected_kept (peer : PeerId) :
    Kept scheduler (scheduler.peerDisconnected peer)
      (excused ∪ {height | LeftBehind scheduler (scheduler.peerDisconnected peer) height}) := by
  cases known : scheduler.peerSlots.lookup peer with
  | none =>
    have same : (scheduler.peerDisconnected peer).places = scheduler.places := by
      simp only [peerDisconnected, known]
      rfl
    exact (Kept.of_same accounted same).excuse Set.subset_union_left
  | some slots =>
    let removed : IbdScheduler β := { scheduler with peerSlots := scheduler.peerSlots.erase peer }
    have listed : scheduler.places.lists peer = some slots.assigned := by simp [places, known]
    have lists : removed.places.lists = update scheduler.places.lists peer none := by
      funext other
      by_cases same : other = peer
      · subst same
        simp [removed, places]
      · rw [update_of_ne same]
        simp [removed, places, KeyedMap.lookup_erase, Ne.symm same]
    have dismissed : removed.places.Accounted (excused ∪ {height | height ∈ slots.assigned}) :=
      { accounted with held := lists ▸ accounted.held.dismiss listed }
    have offLists : ∀ height ∈ slots.assigned, ∀ {other list},
        removed.places.lists other = some list → height ∉ list := by
      intro height member other list known onList
      rw [lists] at known
      by_cases same : other = peer
      · subst same
        simp at known
      · rw [update_of_ne same] at known
        have out := accounted.held.holding listed height member
        rw [accounted.held.holding known height onList] at out
        exact same (Option.some.inj out)
    obtain ⟨kept, slotsSame⟩ := foldl_returnHeight_kept dismissed offLists
    have gone : peer ∉ (scheduler.peerDisconnected peer).peerSlots := by
      simp only [peerDisconnected, known]
      rw [slotsSame]
      exact Finmap.notMem_erase_self
    have same : (scheduler.peerDisconnected peer).places =
        (slots.assigned.foldl returnHeight removed).places := by
      simp only [peerDisconnected, known]
      rfl
    have present : peer ∈ scheduler.peerSlots := Finmap.mem_of_lookup_eq_some known
    constructor
    · rw [same]
      refine kept.accounted.excuse ?_
      rintro height ⟨excuse | member, notReturned⟩ -
      · exact .inl excuse
      · have arrived : height ∈ scheduler.arrived := by
          by_contra absent
          exact notReturned ⟨member, absent⟩
        exact .inr ⟨arrived, peer, accounted.held.holding listed height member, present, gone⟩
    · rw [same]
      exact kept.shrunk

theorem takeStalledPeer_kept {now : Nat} {order : List PeerId} :
    Kept scheduler (scheduler.takeStalledPeer now order).1
      (excused ∪
        {height | LeftBehind scheduler (scheduler.takeStalledPeer now order).1 height}) := by
  rw [takeStalledPeer]
  split
  · exact (Kept.of_same accounted rfl).excuse Set.subset_union_left
  · have kept := peerDisconnected_kept accounted ‹PeerId›
    exact ⟨kept.accounted, kept.shrunk⟩

/-! ## The cursor, the target and the rows -/

theorem connectCursorAdvanced_kept
    {relax : Nat → Nat} {newTip : Nat} (upward : scheduler.connectCursor ≤ newTip) :
    Kept scheduler (scheduler.connectCursorAdvanced relax newTip) excused := by
  refine ⟨accounted.resettle ?_ ?_ ?_, .refl _⟩
  · intro height above below
    obtain waits | isOut | isDone := accounted.covered height (lt_of_le_of_lt upward above) below
    · exact .inl waits
    · exact .inr (.inl isOut)
    · exact .inr (.inr (Finset.mem_filter.mpr ⟨isDone, above⟩))
  · intro height isOut isDone
    exact accounted.apart height isOut (Finset.mem_filter.mp isDone).1
  · intro height above below
    exact accounted.rowed height (lt_of_le_of_lt upward above) below

/-- A block found stored while its height is not out. -/
theorem markDownloaded_kept (free : scheduler.places.out height = none) :
    Kept scheduler (scheduler.markDownloaded height) excused := by
  have placed : (scheduler.markDownloaded height).places =
      { scheduler.places with
        out := update scheduler.places.out height none
        done := insert height scheduler.places.done } := by
    have done : {other | other ∈ insert height scheduler.downloaded} =
        insert height scheduler.places.done := by
      ext other
      exact Finset.mem_insert
    rw [← lookup_inFlight_erase, ← done]
    rfl
  constructor
  · rw [placed]
    have held := accounted.held.revoke (accounted.held.unlisted free)
    refine (accounted.back held (fun _ _ => .inr (.inl rfl)) (fun _ _ waits => waits) ?_).excuse ?_
    · intro other different
      simp [different]
    · exact fun other excuse _ => excuse.1
  · rw [placed]
    exact Places.shrunk_back rfl

end

/-- A height whose row changed is out no more. -/
theorem releaseFromFlight_held (held : Held scheduler.places.out scheduler.places.lists 16 excused)
    {height : Nat} :
    ∃ lists, (scheduler.releaseFromFlight height).1.places =
        { scheduler.places with
          out := update scheduler.places.out height none, lists } ∧
      Held (update scheduler.places.out height none) lists 16 excused ∧
      (scheduler.releaseFromFlight height).2 = (scheduler.places.out height).isSome := by
  cases known : scheduler.inFlight.lookup height with
  | none =>
    have free : scheduler.places.out height = none := known
    have released : scheduler.releaseFromFlight height = (scheduler, false) := by
      simp only [releaseFromFlight, known]
    have same : update scheduler.places.out height none = scheduler.places.out := by
      rw [← free, update_eq_self]
    rw [released, same, free]
    exact ⟨_, rfl, held, rfl⟩
  | some holder =>
    have isHolder : scheduler.places.out height = some holder := known
    have released : scheduler.releaseFromFlight height =
        ({ scheduler.takeFromFlight height holder with
          arrived := scheduler.arrived.erase height }, true) := by
      simp only [releaseFromFlight, known]
    rw [released, isHolder]
    refine ⟨strike scheduler.places.lists holder height, places_takeFromFlight .., ?_, rfl⟩
    have landed := held.land fun other out => Option.some.inj (out.symm.trans isHolder)
    exact landed.excuse fun other member _ => member.1

/-- The same places with another target. -/
def retarget (scheduler : IbdScheduler β) (target : Nat) : Places β :=
  { scheduler.places with target }

theorem accounted_retarget {places : Places β} (placed : after.places = places)
    (changed : ({ places with target } : Places β).Accounted excused) :
    (after.retarget target).Accounted excused := by
  subst placed
  exact changed

/-- A height whose row changed comes back: what was out or done under the old row is not what
is wanted. It waits, unless it is above the target. -/
theorem accounted_of_changedRow (accounted : (scheduler.retarget target).Accounted excused)
    {row : Option β} (rowed : height ≤ target → row.isSome) {lists : PeerId → Option (List Nat)}
    (held : Held (update scheduler.places.out height none) lists 16 excused)
    (keptWaiting : scheduler.places.waiting ⊆ waiting)
    (waits : scheduler.connectCursor < height → height ≤ target → height ∈ waiting) :
    ({ scheduler.places with
        target, lists, waiting
        out := update scheduler.places.out height none
        done := {other | other ∈ scheduler.downloaded.erase height}
        row := update scheduler.places.row height row } : Places β).Accounted excused := by
  have back : ({ scheduler.retarget target with
      out := update scheduler.places.out height none, lists, waiting
      done := {other | other ∈ scheduler.downloaded.erase height} } :
        Places β).Accounted excused := by
    refine accounted.back held (fun above below => .inl (waits above below))
      (fun other _ member => keptWaiting member) ?_
    intro other different
    simp [retarget, places, different]
  refine back.resettle back.covered back.apart ?_
  intro other above below
  by_cases same : other = height
  · subst same
    simpa using rowed below
  · rw [update_of_ne same]
    exact accounted.rowed other above below

/-- What a change of one row keeps, for a target that the change will end at. -/
structure RowKept (before after : IbdScheduler β) (target : Nat) (excused : Set Nat) : Prop where
  accounted : (after.retarget target).Accounted excused
  shrunk : Places.Shrunk before.places after.places
  sameTarget : after.targetHeight = before.targetHeight
  sameCursor : after.connectCursor = before.connectCursor

/-- A row that names another block puts its height back in the pool. -/
theorem rekeyRow_kept (accounted : (scheduler.retarget target).Accounted excused)
    (lower : target ≤ max scheduler.targetHeight scheduler.connectCursor) {height : Nat}
    {hash : β} :
    RowKept scheduler (scheduler.rekeyRow height hash).1 target excused := by
  let rekeyed : IbdScheduler β :=
    { scheduler with
      heightToHash := scheduler.heightToHash.insert height hash
      downloaded := scheduler.downloaded.erase height }
  have rows : rekeyed.places.row = update scheduler.places.row height (some hash) :=
    lookup_insert_eq_update ..
  have isHeld : Held rekeyed.places.out rekeyed.places.lists 16 excused := accounted.held
  obtain ⟨lists, placed, held, wasOut⟩ := releaseFromFlight_held isHeld
  have sameTarget : (rekeyed.releaseFromFlight height).1.targetHeight = scheduler.targetHeight :=
    congrArg Places.target placed
  have sameCursor : (rekeyed.releaseFromFlight height).1.connectCursor = scheduler.connectCursor :=
    congrArg Places.cursor placed
  have shrunk := Places.shrunk_back (congrArg Places.out placed)
  have rowed : height ≤ target → (some hash).isSome := fun _ => rfl
  rw [rekeyRow]
  split_ifs with requeued
  · have waiting : scheduler.places.waiting ⊆ insert height scheduler.places.waiting :=
      Set.subset_insert ..
    have changed := accounted_of_changedRow accounted rowed held waiting fun _ _ => .inl rfl
    refine ⟨?_, shrunk, sameTarget, sameCursor⟩
    rw [← rows] at changed
    have pushed := places_pushFront (rekeyed.releaseFromFlight height).1 height
    rw [placed] at pushed
    exact accounted_retarget pushed changed
  · have waits : scheduler.connectCursor < height → height ≤ target →
        height ∈ scheduler.places.waiting := by
      intro above below
      have free : ¬ (height ∈ scheduler.downloaded ∨
          (rekeyed.releaseFromFlight height).2 = true) := by
        intro taken
        have wanted : height ≤ scheduler.targetHeight := by omega
        exact requeued ⟨taken, wanted.trans_eq sameTarget.symm⟩
      rw [wasOut] at free
      push Not at free
      obtain waits | isOut | isDone := accounted.covered height above below
      · exact waits
      · exact absurd isOut free.2
      · exact absurd isDone free.1
    have changed := accounted_of_changedRow accounted rowed held (.refl _) waits
    refine ⟨?_, shrunk, sameTarget, sameCursor⟩
    rw [← rows] at changed
    exact accounted_retarget placed changed

/-- A height above the target may lose its row. -/
theorem dropRow_kept (accounted : (scheduler.retarget target).Accounted excused)
    (above : target < height) :
    RowKept scheduler (scheduler.dropRow height) target excused := by
  let dropped : IbdScheduler β :=
    { scheduler with
      heightToHash := scheduler.heightToHash.erase height
      downloaded := scheduler.downloaded.erase height }
  have rows : dropped.places.row = update scheduler.places.row height none :=
    lookup_erase_eq_update ..
  have isHeld : Held dropped.places.out dropped.places.lists 16 excused := accounted.held
  obtain ⟨lists, placed, held, -⟩ := releaseFromFlight_held isHeld
  have rowed : height ≤ target → (none : Option β).isSome := fun below => by omega
  have changed := accounted_of_changedRow accounted rowed held (.refl _) fun _ below => by omega
  rw [← rows] at changed
  refine ⟨?_, ?_, congrArg Places.target placed, congrArg Places.cursor placed⟩
  · exact accounted_retarget placed changed
  · exact Places.shrunk_back (congrArg Places.out placed)

theorem extendTarget_kept (accounted : scheduler.places.Accounted excused) {newTarget : Nat}
    {rows : Nat → Option β}
    (rowed : ∀ height ∈ heightsUpTo (scheduler.targetHeight + 1) newTarget, (rows height).isSome) :
    Kept scheduler (scheduler.extendTarget newTarget rows) excused := by
  rw [extendTarget]
  split_ifs with lower
  · exact .of_same accounted rfl
  · have inRange : ∀ height, height ≤ newTarget → ¬ height ≤ scheduler.targetHeight →
        height ∈ heightsUpTo (scheduler.targetHeight + 1) newTarget := by
      intro height below above
      rw [heightsUpTo, mem_range'_1]
      omega
    refine ⟨accounted.resettle ?_ accounted.apart ?_, .refl _⟩
    · intro height above below
      by_cases old : height ≤ scheduler.targetHeight
      · refine (accounted.covered height above old).imp_left fun waits => ?_
        exact mem_append_left _ waits
      · exact .inl (mem_append_right _ (inRange height below old))
    · intro height above below
      change ((putAll scheduler.heightToHash (rowsOf rows _)).lookup height).isSome
      rw [KeyedMap.lookup_putAll, KeyedMap.lastPut_rowsOf]
      by_cases old : height ≤ scheduler.targetHeight
      · have row : (scheduler.heightToHash.lookup height).isSome := accounted.rowed height above old
        split_ifs with new
        · simp [rowed height new]
        · simpa using row
      · have new := inRange height below old
        simp [new, rowed height new]

section Calls

variable [DecidableEq β]

theorem changeRow_kept {changes : RowChanges β}
    (accounted : (changes.scheduler.retarget target).Accounted excused)
    (lower : target ≤ max changes.scheduler.targetHeight changes.scheduler.connectCursor)
    {change : Nat × Option β}
    (dropsAbove : change.2 = none → changes.scheduler.connectCursor < change.1 →
      target < change.1) :
    RowKept changes.scheduler (changeRow changes change).scheduler target excused := by
  obtain ⟨height, row⟩ := change
  have same : RowKept changes.scheduler changes.scheduler target excused :=
    ⟨accounted, .refl _, rfl, rfl⟩
  cases row with
  | none =>
    rw [changeRow]
    split_ifs with connected
    · exact same
    all_goals exact dropRow_kept accounted (dropsAbove rfl (Nat.lt_of_not_le connected))
  | some hash =>
    rw [changeRow]
    split_ifs
    · exact same
    · exact same
    · exact rekeyRow_kept accounted lower

theorem foldl_changeRow_kept {rows : List (Nat × Option β)} (changes : RowChanges β)
    (accounted : (changes.scheduler.retarget target).Accounted excused)
    (lower : target ≤ max changes.scheduler.targetHeight changes.scheduler.connectCursor)
    (dropsAbove : ∀ change ∈ rows, change.2 = none → changes.scheduler.connectCursor < change.1 →
      target < change.1) :
    RowKept changes.scheduler (rows.foldl changeRow changes).scheduler target excused := by
  induction rows generalizing changes with
  | nil => exact ⟨accounted, .refl _, rfl, rfl⟩
  | cons change rest ih =>
    have first := changeRow_kept accounted lower (dropsAbove change mem_cons_self)
    have sameBound : max changes.scheduler.targetHeight changes.scheduler.connectCursor =
        max (changeRow changes change).scheduler.targetHeight
          (changeRow changes change).scheduler.connectCursor := by
      rw [first.sameTarget, first.sameCursor]
    have others := ih _ first.accounted (lower.trans_eq sameBound)
      fun other member => first.sameCursor ▸ dropsAbove other (mem_cons_of_mem _ member)
    exact ⟨others.accounted, first.shrunk.trans others.shrunk,
      others.sameTarget.trans first.sameTarget, others.sameCursor.trans first.sameCursor⟩

section

variable (accounted : scheduler.places.Accounted excused)
include accounted

/-- The rows may change in any way, if none is dropped up to the best header's height. -/
theorem headerRowsChanged_kept {changes : List (Nat × Option β)} {bestHeaderHeight : Nat}
    (dropsAbove : ∀ change ∈ changes, change.2 = none → bestHeaderHeight < change.1) :
    Kept scheduler (scheduler.headerRowsChanged changes bestHeaderHeight).1 excused := by
  let target := if bestHeaderHeight < scheduler.targetHeight then
    max bestHeaderHeight scheduler.connectCursor else scheduler.targetHeight
  have lower : target ≤ max scheduler.targetHeight scheduler.connectCursor := by
    simp only [target]
    split_ifs <;> omega
  -- The heights above the cursor up to the target to come are all wanted now.
  have narrowed : (scheduler.retarget target).Accounted excused := by
    have wanted : ∀ height, scheduler.connectCursor < height → height ≤ target →
        height ≤ scheduler.targetHeight := by
      intro height above below
      omega
    exact accounted.resettle (fun height above below =>
        accounted.covered height above (wanted height above below)) accounted.apart
      fun height above below => accounted.rowed height above (wanted height above below)
  have dropped : ∀ change ∈ changes, change.2 = none → scheduler.connectCursor < change.1 →
      target < change.1 := by
    intro change member none above
    have := dropsAbove change member none
    simp only [target]
    split_ifs <;> omega
  have kept := foldl_changeRow_kept { scheduler } narrowed lower dropped
  have lowered : (scheduler.headerRowsChanged changes bestHeaderHeight).1.places =
      (changes.foldl changeRow { scheduler }).scheduler.retarget target := by
    simp [headerRowsChanged, places, retarget, kept.sameTarget, kept.sameCursor, target]
  constructor
  · rw [lowered]
    exact kept.accounted
  · rw [lowered]
    exact kept.shrunk

theorem blockArrived_kept {now : Nat} {peer : PeerId} {height : Nat} {hash : β} :
    Kept scheduler (scheduler.blockArrived now peer height hash).1 excused := by
  rw [blockArrived]
  split_ifs
  · exact .of_same accounted rfl
  · refine .of_same accounted ?_
    have credited : ∀ slots : PeerSlots, (slots.creditDelivery now).assigned = slots.assigned :=
      fun _ => rfl
    exact places_withSlots_same _ credited peer

theorem blockStoreFailed_kept {height : Nat}
    {hash : β} : Kept scheduler (scheduler.blockStoreFailed height hash) excused := by
  refine .of_same accounted ?_
  rw [blockStoreFailed]
  split
  · split_ifs <;> rfl
  · rfl

end

variable (scheduler) in
theorem places_takeArrival (height : Nat) (hash : β) :
    (scheduler.takeArrival height hash).1.places = scheduler.places := by
  rw [takeArrival]
  split_ifs <;> rfl

theorem blockReceived_kept (accounted : scheduler.places.Accounted excused) {now : Nat}
    {peer : PeerId} {height : Nat} {hash : β} :
    Kept scheduler (scheduler.blockReceived now peer height hash).1 excused := by
  have credit : ∀ (settled : IbdScheduler β) (credited : Bool) (holder : Option PeerId),
      (if holder = some peer then settled.withSlots peer (.received now credited)
        else settled).places = settled.places := by
    intro settled credited holder
    split_ifs
    · refine places_withSlots_same settled (fun slots => ?_) peer
      cases credited <;> rfl
    · rfl
  have before := places_takeArrival scheduler height hash
  simp only [blockReceived]
  generalize scheduler.takeArrival height hash = taken at before ⊢
  generalize found : (if taken.1.heightToHash.lookup height = some hash then
    taken.1.inFlight.lookup height else none) = holder
  cases holder with
  | none => exact .of_same accounted ((credit _ _ _).trans before)
  | some holder =>
    have isHolder : taken.1.places.out height = some holder := by
      split_ifs at found
      exact found
    have kept := settleHeight_kept (before ▸ accounted) isHolder
    constructor
    · rw [credit]
      exact (kept.excuse Set.sdiff_subset).accounted
    · rw [credit, ← before]
      exact kept.shrunk

end Calls

end IbdScheduler

end Satd.Net
