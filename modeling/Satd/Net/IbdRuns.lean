import Satd.Net.IbdHeights

/-!
# Runs of the download scheduler

Handing out heights, and with it every run of the scheduler's calls, keeps every height
accounted for: none is lost, and none is handed out while it is out.
-/

namespace Satd.Net

open KeyedMap Dispatch List

variable {β : Type}

namespace Handout

/-- The heights handed out so far. -/
def heights (handout : Handout β) : List Nat := handout.taken.map Prod.fst

/-- The places after the heights went out to the peer. -/
def claim (start : Places β) (peer : PeerId) (heights : List Nat) : Places β :=
  { start with out := fun height => if height ∈ heights then some peer else start.out height }

section

variable (start : Places β) (maxAhead budget maxHeight : Nat) (peer : PeerId)

/-- A height that may go out, with its row. -/
structure Eligible (height : Nat) (hash : β) : Prop where
  free : start.out height = none
  undone : height ∉ start.done
  row : start.row height = some hash
  above : start.cursor < height
  below : height ≤ maxHeight
  near : height ≤ start.cursor + max maxAhead priorityZone

/-- What was handed out is eligible and distinct, and nothing else changed. -/
structure Handing (handout : Handout β) : Prop where
  placed : handout.scheduler.places = claim start peer handout.heights
  ahead : handout.scheduler.maxAhead = maxAhead
  distinct : handout.heights.Nodup
  size : handout.taken.length ≤ budget
  eligible : ∀ one ∈ handout.taken, Eligible start maxAhead maxHeight one.1 one.2

end

variable {start : Places β} {maxAhead budget maxHeight : Nat} {peer : PeerId} {handout : Handout β}

variable {height : Nat} {deferred pool : List Nat} {result : Handout β × List Nat}

theorem mem_inFlight {scheduler : IbdScheduler β} :
    height ∈ scheduler.inFlight ↔ (scheduler.places.out height).isSome := by
  rw [IbdScheduler.places, Finmap.lookup_isSome]

namespace Handing

section

variable (handing : Handing start maxAhead budget maxHeight peer handout)
include handing

theorem cursor : handout.scheduler.connectCursor = start.cursor :=
  congrArg Places.cursor handing.placed

theorem done : handout.scheduler.places.done = start.done := by
  rw [handing.placed]
  rfl

theorem rows : handout.scheduler.places.row = start.row := by
  rw [handing.placed]
  rfl

/-- A height that is neither out nor done yet, with its row in the window, may go out. -/
theorem take (room : ¬ budget ≤ handout.taken.length) {height : Nat} {hash : β}
    (free : height ∉ handout.scheduler.inFlight) (undone : height ∉ handout.scheduler.downloaded)
    (row : handout.scheduler.heightToHash.lookup height = some hash)
    (above : start.cursor < height) (below : height ≤ maxHeight)
    (near : height ≤ start.cursor + max maxAhead priorityZone) (now : Nat) :
    Handing start maxAhead budget maxHeight peer (handout.take now peer height hash) := by
  have placed := handing.placed
  have isFree : (claim start peer handout.heights).out height = none := by
    rw [← placed]
    rw [mem_inFlight] at free
    simpa using free
  have fresh : height ∉ handout.heights := by
    intro claimed
    simp [claim, claimed] at isFree
  have heights : (handout.take now peer height hash).heights = handout.heights ++ [height] := by
    simp [Handout.heights, Handout.take]
  constructor
  · have out : (handout.take now peer height hash).scheduler.places.out =
        (claim start peer (handout.take now peer height hash).heights).out := by
      funext other
      have before : handout.scheduler.inFlight.lookup other =
          (claim start peer handout.heights).out other :=
            congrFun (congrArg Places.out placed) other
      rw [heights]
      change (handout.scheduler.inFlight.insert height peer).lookup other = _
      rw [KeyedMap.lookup_insert, before]
      by_cases same : height = other
      · simp [claim, same]
      · simp [claim, same, Ne.symm same]
    have others : (handout.take now peer height hash).scheduler.places =
        { handout.scheduler.places with
          out := (handout.take now peer height hash).scheduler.places.out } := rfl
    rw [others, out, placed]
    rfl
  · exact handing.ahead
  · rw [heights]
    exact handing.distinct.append (nodup_singleton _) (by simpa using fresh)
  · simp only [Handout.take, length_append, length_singleton]
    omega
  · intro one member
    obtain old | new := mem_append.mp member
    · exact handing.eligible one old
    · obtain rfl := mem_singleton.mp new
      refine ⟨?_, ?_, ?_, above, below, near⟩
      · simpa [claim, fresh] using isFree
      · rw [← handing.done]
        exact undone
      · rw [← handing.rows]
        exact row

end

end Handing

/-- The zone just above the cursor is handed out within the budget. -/
theorem fromZone_handing {now : Nat} {zone : List Nat}
    (inZone : ∀ height ∈ zone, start.cursor < height ∧ height ≤ maxHeight ∧
      height ≤ start.cursor + priorityZone)
    (handing : Handing start maxAhead budget maxHeight peer handout) :
    Handing start maxAhead budget maxHeight peer (fromZone now peer budget zone handout) := by
  induction zone generalizing handout with
  | nil => exact handing
  | cons height rest ih =>
    have restIn := fun other member => inZone other (mem_cons_of_mem height member)
    obtain ⟨above, below, near⟩ := inZone height mem_cons_self
    rw [fromZone]
    split_ifs with full taken barred
    · exact handing
    · exact ih restIn handing
    · exact ih restIn handing
    · push Not at taken
      split
      · rename_i hash row
        exact ih restIn (handing.take full taken.2 taken.1 row above below (by omega) now)
      · exact ih restIn handing

/-- What a pass over the pool does: heights go out, and what was in the pool stays there or is
out, done, connected or without a row. -/
structure Filled (start : Places β) (maxAhead budget maxHeight : Nat) (peer : PeerId)
    (handout : Handout β) (deferred pool : List Nat) (result : Handout β × List Nat) : Prop where
  handing : Handing start maxAhead budget maxHeight peer result.1
  grown : ∀ height ∈ handout.heights, height ∈ result.1.heights
  deferred : ∀ height ∈ deferred, height ∈ result.2
  pool : ∀ height ∈ pool, start.cursor < height → (start.row height).isSome →
    height ∈ result.2 ∨ (result.1.scheduler.places.out height).isSome ∨ height ∈ start.done

/-- The pass may stop at any height. -/
theorem Filled.stop (handing : Handing start maxAhead budget maxHeight peer handout)
    (deferred pool : List Nat) :
    Filled start maxAhead budget maxHeight peer handout deferred pool
      (handout, deferred ++ pool) where
  handing := handing
  grown := fun _ member => member
  deferred := fun _ member => List.mem_append_left _ member
  pool := fun _ member _ _ => .inl (List.mem_append_right _ member)

/-- A height taken off the pool is settled, and the pass goes on. -/
theorem Filled.cons {later : Handout β} {aside : List Nat}
    (filled : Filled start maxAhead budget maxHeight peer later aside pool result)
    (grown : ∀ other ∈ handout.heights, other ∈ later.heights)
    (aside : ∀ other ∈ deferred, other ∈ aside)
    (settled : start.cursor < height → (start.row height).isSome → height ∈ result.2 ∨
      (result.1.scheduler.places.out height).isSome ∨ height ∈ start.done) :
    Filled start maxAhead budget maxHeight peer handout deferred (height :: pool) result where
  handing := filled.handing
  grown := fun other member => filled.grown other (grown other member)
  deferred := fun other member => filled.deferred other (aside other member)
  pool := by
    intro other member above row
    obtain rfl | member := mem_cons.mp member
    · exact settled above row
    · exact filled.pool other member above row

/-- What was out stays out. -/
theorem Filled.stays
    (filled : Filled start maxAhead budget maxHeight peer handout deferred pool result)
    (handing : Handing start maxAhead budget maxHeight peer handout)
    (isOut : (handout.scheduler.places.out height).isSome) :
    (result.1.scheduler.places.out height).isSome := by
  rw [filled.handing.placed]
  rw [handing.placed] at isOut
  by_cases claimed : height ∈ result.1.heights
  · simp [claim, claimed]
  · have before : height ∉ handout.heights := fun member => claimed (filled.grown height member)
    simpa [claim, claimed, before] using isOut

theorem fromPool_filled (now : Nat) (attempts : Nat) (deferred pool : List Nat)
    (handing : Handing start maxAhead budget maxHeight peer handout) :
    Filled start maxAhead budget maxHeight peer handout deferred pool
      (fromPool now peer budget maxHeight attempts deferred pool handout) := by
  induction pool generalizing attempts deferred handout with
  | nil =>
    have stopped := Filled.stop handing deferred []
    rw [append_nil] at stopped
    exact stopped
  | cons height rest ih =>
    have cursor := handing.cursor
    rw [fromPool]
    split_ifs with full tired ahead beyond skipped inFlight unserved
    · exact .stop handing ..
    · exact .stop handing ..
    · exact .stop handing ..
    · exact .stop handing ..
    · refine (ih _ _ handing).cons (fun _ member => member)
        (fun _ member => member) fun above _ => ?_
      obtain connected | isDone := skipped
      · omega
      · rw [← handing.done]
        exact .inr (.inr isDone)
    · have later := ih (attempts + 1) deferred handing
      exact later.cons (fun _ member => member) (fun _ member => member) fun _ _ =>
        .inr (.inl (later.stays handing (mem_inFlight.mp inFlight)))
    · have later := ih (attempts + 1) (deferred ++ [height]) handing
      exact later.cons (fun _ member => member) (fun _ member => mem_append_left _ member)
        fun _ _ => .inl (later.deferred height (by simp))
    · push Not at skipped unserved
      have near : height ≤ start.cursor + max maxAhead priorityZone := by
        have := handing.ahead
        omega
      split
      · rename_i hash row
        have taken :=
          handing.take full inFlight skipped.2 row (cursor ▸ skipped.1) unserved.1 near now
        have later := ih (attempts + 1) deferred taken
        have claimed : height ∈ (handout.take now peer height hash).heights := by
          simp [Handout.heights, Handout.take]
        have isOut : ((handout.take now peer height hash).scheduler.places.out height).isSome := by
          rw [taken.placed]
          simp [claim, claimed]
        refine later.cons (fun other member => ?_) (fun _ member => member) fun _ _ =>
          .inr (.inl (later.stays taken isOut))
        simp only [Handout.heights, Handout.take, map_append, mem_append]
        exact .inl member
      · rename_i noRow
        refine (ih _ _ handing).cons (fun _ member => member)
          (fun _ member => member) fun _ row => ?_
        have noRow : handout.scheduler.places.row height = none := noRow
        rw [← handing.rows, noRow] at row
        cases row

end Handout

namespace IbdScheduler

variable {scheduler : IbdScheduler β} {excused : Set Nat}

open Handout

/-- The zone of an assignment is above the cursor, within reach of the peer. -/
theorem mem_zone {cursor target maxHeight height : Nat}
    (member : height ∈ heightsUpTo (cursor + 1)
      (min (min (cursor + priorityZone) target) maxHeight)) :
    cursor < height ∧ height ≤ maxHeight ∧ height ≤ cursor + priorityZone := by
  rw [heightsUpTo, mem_range'_1] at member
  omega

/-- What an assignment hands out, and what it leaves in the pool. -/
structure Assigned (start : Places β) (maxAhead maxHeight : Nat) (peer : PeerId)
    (jobs : List Nat) (taken : List (Nat × β)) (after : Places β) : Prop where
  distinct : (taken.map Prod.fst).Nodup
  eligible : ∀ one ∈ taken, Eligible start maxAhead maxHeight one.1 one.2
  room : jobs.length + taken.length ≤ start.limit ∨ taken = []
  placed : after = { claim start peer (taken.map Prod.fst) with
    waiting := after.waiting
    lists := Function.update start.lists peer (some (jobs ++ taken.map Prod.fst)) }
  waiting : ∀ height ∈ start.waiting, start.cursor < height → (start.row height).isSome →
    height ∈ after.waiting ∨ (after.out height).isSome ∨ height ∈ start.done

theorem handOut_filled {now : Nat} {peer : PeerId} {budget maxHeight : Nat}
    {scheduler : IbdScheduler β} :
    ∃ zone, Filled scheduler.places scheduler.maxAhead budget maxHeight peer zone []
      scheduler.pending (scheduler.handOut now peer budget maxHeight) := by
  have start : Handing scheduler.places scheduler.maxAhead budget maxHeight peer { scheduler } :=
    ⟨by simp [claim, heights], rfl, nodup_nil, zero_le, by simp⟩
  exact ⟨_, fromPool_filled now 0 [] scheduler.pending
    (fromZone_handing (fun _ member => mem_zone member) start)⟩

theorem registered_lists {scheduler : IbdScheduler β} {now : Nat} {peer : PeerId} :
    ∃ slots, (scheduler.registerPeer now peer).peerSlots.lookup peer = some slots := by
  rw [registerPeer]
  split_ifs with known
  · exact Finmap.mem_iff.mp known
  · exact ⟨_, Finmap.lookup_insert _⟩

variable {jobs : List Nat}

theorem places_assign {scheduler : IbdScheduler β} {now : Nat} {peer : PeerId}
    (listed : scheduler.places.lists peer = some jobs) (heights : List Nat) :
    (if heights = [] then scheduler
      else scheduler.withSlots peer (PeerSlots.assign now heights)).places =
      { scheduler.places with
        lists := Function.update scheduler.places.lists peer (some (jobs ++ heights)) } := by
  split_ifs with none
  · simp [none, ← listed]
  · rw [places_withSlots scheduler (fun jobs => jobs ++ heights) fun _ => rfl, listed]
    rfl

theorem registerPeer_eq (scheduler : IbdScheduler β) (now : Nat) (peer : PeerId) :
    ∃ peerSlots, scheduler.registerPeer now peer = { scheduler with peerSlots } := by
  rw [registerPeer]
  split_ifs
  · exact ⟨_, rfl⟩
  · exact ⟨_, rfl⟩

theorem assignBlocksUpTo_assigned (scheduler : IbdScheduler β) (now : Nat) (peer : PeerId)
    (maxHeight : Nat) :
    ∃ jobs taken, (scheduler.registerPeer now peer).places.lists peer = some jobs ∧
      (scheduler.assignBlocksUpTo now peer maxHeight).2 = taken.map Prod.snd ∧
      Assigned (scheduler.registerPeer now peer).places scheduler.maxAhead maxHeight peer jobs taken
        (scheduler.assignBlocksUpTo now peer maxHeight).1.places := by
  have ahead : (scheduler.registerPeer now peer).maxAhead = scheduler.maxAhead := by
    obtain ⟨peerSlots, registered⟩ := registerPeer_eq scheduler now peer
    rw [registered]
  obtain ⟨slots, known⟩ := registered_lists
  rw [assignBlocksUpTo]
  generalize scheduler.registerPeer now peer = registered at ahead known ⊢
  have listed : registered.places.lists peer = some slots.assigned := by simp [places, known]
  simp only [known, Option.elim_some]
  by_cases full : registered.perPeerLimit ≤ slots.assigned.length
  · rw [if_pos full]
    refine ⟨slots.assigned, [], listed, rfl, nodup_nil, by simp, .inr rfl, ?_,
      fun _ waits _ _ => .inl waits⟩
    simp [claim, ← listed]
  · rw [if_neg full]
    obtain ⟨zone, filled⟩ := handOut_filled
    rw [ahead] at filled
    generalize registered.handOut now peer _ maxHeight = result at filled ⊢
    have placed := filled.handing.placed
    have room := filled.handing.size
    have handedLists :
      ({ result.1.scheduler with pending := result.2 } : IbdScheduler β).places.lists
        peer = some slots.assigned := by
      rw [← listed]
      exact congrFun (congrArg Places.lists placed) peer
    refine ⟨slots.assigned, result.1.taken, listed, rfl, filled.handing.distinct,
      filled.handing.eligible, ?_, ?_, ?_⟩
    · left
      change slots.assigned.length + result.1.taken.length ≤ registered.perPeerLimit
      omega
    · rw [places_assign handedLists]
      have handed : ({ result.1.scheduler with pending := result.2 } : IbdScheduler β).places =
          { claim registered.places peer (result.1.taken.map Prod.fst) with
            waiting := {height | height ∈ result.2} } :=
        congrArg (fun places : Places β =>
          ({ places with waiting := {height | height ∈ result.2} } : Places β)) placed
      rw [handed]
      rfl
    · intro height waits above row
      rw [places_assign handedLists]
      exact filled.pool height waits above row

/-- An assignment keeps every height accounted for. -/
theorem Assigned.accounted {start after : Places β} {maxAhead maxHeight : Nat} {peer : PeerId}
    {taken : List (Nat × β)} (assigned : Assigned start maxAhead maxHeight peer jobs taken after)
    (listed : start.lists peer = some jobs) (accounted : start.Accounted excused) :
    after.Accounted excused := by
  have eligible : ∀ height ∈ taken.map Prod.fst,
      ∃ hash, Eligible start maxAhead maxHeight height hash := by
    intro height member
    obtain ⟨one, taken, rfl⟩ := mem_map.mp member
    exact ⟨one.2, assigned.eligible one taken⟩
  have free : ∀ height ∈ taken.map Prod.fst, start.out height = none := by
    intro height member
    obtain ⟨hash, eligible⟩ := eligible height member
    exact eligible.free
  have room : jobs.length + (taken.map Prod.fst).length ≤ 16 := by
    rw [length_map]
    obtain room | rfl := assigned.room
    · exact room.trans_eq accounted.limit
    · exact accounted.held.limited listed
  have held := ((accounted.held.claim free peer).enlist listed assigned.distinct
    (fun height member => if_pos member)
    (fun height member => accounted.held.unlisted (free height member) listed) room).excuse
    fun height member _ => member.1.resolve_right member.2
  have waiting := assigned.waiting
  rw [assigned.placed] at waiting ⊢
  generalize after.waiting = remaining at waiting
  constructor
  · intro height above below
    obtain waits | isOut | isDone := accounted.covered height above below
    · exact waiting height waits above (accounted.rowed height above below)
    · refine .inr (.inl ?_)
      simp only [claim]
      split_ifs
      · rfl
      · exact isOut
    · exact .inr (.inr isDone)
  · intro height isOut
    simp only [claim] at isOut
    split_ifs at isOut with claimed
    · obtain ⟨hash, eligible⟩ := eligible height claimed
      exact eligible.undone
    · exact accounted.apart height isOut
  · exact held
  · exact accounted.rowed
  · exact accounted.limit

theorem assignBlocksUpTo_accounted (accounted : scheduler.places.Accounted excused) (now : Nat)
    (peer : PeerId) (maxHeight : Nat) :
    (scheduler.assignBlocksUpTo now peer maxHeight).1.places.Accounted excused := by
  obtain ⟨jobs, taken, listed, -, assigned⟩ :=
    assignBlocksUpTo_assigned scheduler now peer maxHeight
  exact assigned.accounted listed (registerPeer_kept accounted).accounted

/-! ## What holds in every state -/

/-- No height is lost or in two places. The heights under peers that are gone are given. -/
structure Scheduled (scheduler : IbdScheduler β) (gone : Finset Nat) : Prop where
  covered : ∀ height, scheduler.connectCursor < height → height ≤ scheduler.targetHeight →
    height ∈ scheduler.pending ∨ height ∈ scheduler.inFlight ∨ height ∈ scheduler.downloaded
  apart : ∀ height ∈ scheduler.inFlight, height ∉ scheduler.downloaded
  distinct : ∀ peer slots, scheduler.peerSlots.lookup peer = some slots → slots.assigned.Nodup
  limited : ∀ peer slots, scheduler.peerSlots.lookup peer = some slots → slots.assigned.length ≤ 16
  holding : ∀ peer slots, scheduler.peerSlots.lookup peer = some slots →
    ∀ height ∈ slots.assigned, scheduler.inFlight.lookup height = some peer
  listed : ∀ height peer, scheduler.inFlight.lookup height = some peer → height ∉ gone →
    ∃ slots, scheduler.peerSlots.lookup peer = some slots ∧ height ∈ slots.assigned

theorem scheduled_of_accounted {gone : Finset Nat}
    (accounted : scheduler.places.Accounted {height | height ∈ gone}) :
    Scheduled scheduler gone where
  covered := by
    intro height above below
    rw [mem_inFlight]
    exact accounted.covered height above below
  apart := by
    intro height isOut
    rw [mem_inFlight] at isOut
    exact accounted.apart height isOut
  distinct := fun peer slots known => accounted.held.distinct (congrArg (Option.map _) known)
  limited := fun peer slots known => accounted.held.limited (congrArg (Option.map _) known)
  holding := fun peer slots known => accounted.held.holding (congrArg (Option.map _) known)
  listed := by
    intro height peer isOut here
    obtain excuse | ⟨jobs, list, member⟩ := accounted.held.listed isOut
    · exact absurd excuse here
    · obtain ⟨slots, known, rfl⟩ := Option.map_eq_some_iff.mp list
      exact ⟨slots, known, member⟩

/-- An assignment returns the hashes that the rows have for distinct heights, none of them in
flight before and all in flight to the peer after, above the cursor, no higher than the peer
can serve and near enough. -/
def HandsOut (scheduler : IbdScheduler β) (now : Nat) (peer : PeerId) (maxHeight : Nat) : Prop :=
  ∃ heights : List Nat, heights.Nodup ∧
    (scheduler.assignBlocksUpTo now peer maxHeight).2.map some =
      heights.map scheduler.heightToHash.lookup ∧
    ∀ height ∈ heights,
      scheduler.connectCursor < height ∧ height ≤ maxHeight ∧
      height ≤ scheduler.connectCursor + max scheduler.maxAhead 256 ∧
      height ∉ scheduler.inFlight ∧
      (scheduler.assignBlocksUpTo now peer maxHeight).1.inFlight.lookup height = some peer

theorem handsOut (scheduler : IbdScheduler β) (now : Nat) (peer : PeerId) (maxHeight : Nat) :
    HandsOut scheduler now peer maxHeight := by
  obtain ⟨jobs, taken, -, returned, assigned⟩ :=
    assignBlocksUpTo_assigned scheduler now peer maxHeight
  obtain ⟨peerSlots, registered⟩ := registerPeer_eq scheduler now peer
  rw [registered] at assigned
  refine ⟨taken.map Prod.fst, assigned.distinct, ?_, ?_⟩
  · rw [returned, map_map, map_map]
    exact map_congr_left fun one member => (assigned.eligible one member).row.symm
  · intro height member
    obtain ⟨one, isTaken, rfl⟩ := mem_map.mp member
    have eligible := assigned.eligible one isTaken
    have claimed : (scheduler.assignBlocksUpTo now peer maxHeight).1.places.out one.1 =
        some peer := by
      rw [assigned.placed]
      exact if_pos member
    refine ⟨eligible.above, eligible.below, eligible.near, ?_, claimed⟩
    exact Finmap.lookup_eq_none.mp eligible.free

end IbdScheduler

/-! ## Runs -/

def SchedulerCall.isAssignment : SchedulerCall β → Bool
  | .assignBlocksUpTo .. => true
  | _ => false

/-- A scheduler with what a run did: the heights in flight under peers that left after their
blocks had arrived, and whether heights were handed out. -/
structure Watched (β : Type) where
  scheduler : IbdScheduler β
  gone : Finset Nat := ∅
  assigning : Bool := false

namespace Watched

variable [DecidableEq β]

/-- The height was in flight with its block arrived, under a peer that the call made leave. -/
def leaves (before after : IbdScheduler β) (height : Nat) : Bool :=
  height ∈ before.arrived ∧ (before.inFlight.lookup height).any fun holder =>
    holder ∈ before.peerSlots ∧ holder ∉ after.peerSlots

def step (watched : Watched β) (call : SchedulerCall β) : Watched β where
  scheduler := watched.scheduler.step call
  gone := (watched.scheduler.step call).inFlight.keys.filter fun height =>
    height ∈ watched.gone ∨ leaves watched.scheduler (watched.scheduler.step call) height
  assigning := watched.assigning || call.isAssignment

/-- The cursor never goes down, rows are dropped only above the best header's height, the
heights up to a new target have rows, and blocks are found stored only before anything is handed
out. -/
def Allowed (watched : Watched β) : SchedulerCall β → Prop
  | .connectCursorAdvanced _ newTip => watched.scheduler.connectCursor ≤ newTip
  | .markDownloaded _ => watched.assigning = false
  | .headerRowsChanged changes bestHeaderHeight =>
    ∀ change ∈ changes, change.2 = none → bestHeaderHeight < change.1
  | .extendTarget newTarget rows =>
    ∀ height ∈ heightsUpTo (watched.scheduler.targetHeight + 1) newTarget, (rows height).isSome
  | _ => True

instance (watched : Watched β) : DecidablePred (Allowed watched)
  | .connectCursorAdvanced _ newTip =>
    inferInstanceAs (Decidable (watched.scheduler.connectCursor ≤ newTip))
  | .markDownloaded _ => inferInstanceAs (Decidable (watched.assigning = false))
  | .headerRowsChanged changes bestHeaderHeight =>
    inferInstanceAs (Decidable (∀ change ∈ changes, change.2 = none → bestHeaderHeight < change.1))
  | .extendTarget newTarget rows =>
    inferInstanceAs (Decidable (∀ height ∈
      heightsUpTo (watched.scheduler.targetHeight + 1) newTarget, (rows height).isSome))
  | .registerPeer .. | .assignBlocksUpTo .. | .blockArrived .. | .blockReceived ..
  | .blockStoreFailed .. | .peerDisconnected .. | .takeStalledPeer .. | .releaseStaleInflight ..
  | .releaseHeight .. | .setMaxAhead .. => inferInstanceAs (Decidable True)

/-- What every allowed call keeps. -/
structure Sound (watched : Watched β) : Prop where
  accounted : watched.scheduler.places.Accounted {height | height ∈ watched.gone}
  fresh : watched.assigning = false → ∀ height, watched.scheduler.places.out height = none

variable {watched : Watched β}

open IbdScheduler

variable {call : SchedulerCall β}

/-- What a call other than an assignment keeps. -/
theorem kept (sound : Sound watched) (notAssignment : ¬ call.isAssignment)
    (allowed : Allowed watched call) :
    Kept watched.scheduler (watched.scheduler.step call)
      ({height | height ∈ watched.gone} ∪
        {height | LeftBehind watched.scheduler (watched.scheduler.step call) height}) := by
  have accounted := sound.accounted
  have widen : ∀ {after : IbdScheduler β} {others : Set Nat},
      Kept watched.scheduler after {height | height ∈ watched.gone} →
      Kept watched.scheduler after ({height | height ∈ watched.gone} ∪ others) :=
    fun kept => kept.excuse Set.subset_union_left
  cases call with
  | registerPeer now peer => exact widen (registerPeer_kept accounted)
  | assignBlocksUpTo now peer maxHeight => exact absurd rfl notAssignment
  | blockArrived now peer height hash => exact widen (blockArrived_kept accounted)
  | blockReceived now peer height hash =>
    exact widen (blockReceived_kept accounted)
  | blockStoreFailed height hash => exact widen (blockStoreFailed_kept accounted)
  | peerDisconnected peer => exact peerDisconnected_kept accounted peer
  | takeStalledPeer now order => exact takeStalledPeer_kept accounted
  | releaseStaleInflight now timeout nearCursorTimeout order peers =>
    exact widen (releaseStaleInflight_kept accounted)
  | releaseHeight now height owner => exact widen (releaseHeight_kept accounted)
  | connectCursorAdvanced relax newTip =>
    exact widen (connectCursorAdvanced_kept accounted allowed)
  | setMaxAhead maxAhead => exact widen (.of_same accounted rfl)
  | markDownloaded height =>
    exact widen (markDownloaded_kept accounted (sound.fresh allowed height))
  | headerRowsChanged changes bestHeaderHeight =>
    exact widen (headerRowsChanged_kept accounted allowed)
  | extendTarget newTarget rows => exact widen (extendTarget_kept accounted allowed)

/-- The heights that a call excuses and that are still out are those the run has watched. -/
theorem accounted_step
    (accounted : (watched.scheduler.step call).places.Accounted ({height | height ∈ watched.gone} ∪
      {height | LeftBehind watched.scheduler (watched.scheduler.step call) height})) :
    (watched.step call).scheduler.places.Accounted
      {height | height ∈ (watched.step call).gone} := by
  refine accounted.excuse ?_
  intro height excuse isOut
  have inFlight : height ∈ (watched.scheduler.step call).inFlight.keys :=
    Finmap.mem_keys.mpr (Handout.mem_inFlight.mpr isOut)
  refine Finset.mem_filter.mpr ⟨inFlight, ?_⟩
  obtain gone | ⟨arrived, holder, isHolder, known, left⟩ := excuse
  · exact .inl gone
  · have isHolder : watched.scheduler.inFlight.lookup height = some holder := isHolder
    exact .inr (by simp [leaves, arrived, isHolder, known, left])

theorem step_sound (sound : Sound watched) (allowed : Allowed watched call) :
    Sound (watched.step call) := by
  by_cases assignment : call.isAssignment
  · cases call with
    | assignBlocksUpTo now peer maxHeight =>
      have accounted := assignBlocksUpTo_accounted sound.accounted now peer maxHeight
      refine ⟨accounted_step (accounted.excuse fun _ gone _ => .inl gone), ?_⟩
      simp [step, SchedulerCall.isAssignment]
    | _ => cases assignment
  · have kept := kept sound assignment allowed
    refine ⟨accounted_step kept.accounted, ?_⟩
    intro fresh height
    have before : watched.assigning = false := by
      simp only [step, Bool.or_eq_false_iff] at fresh
      exact fresh.1
    have free := sound.fresh before height
    cases isOut : (watched.step call).scheduler.places.out height with
    | none => rfl
    | some peer =>
      have out := kept.shrunk height peer isOut
      rw [free] at out
      cases out

omit [DecidableEq β] in
theorem new_sound (rows : Nat → Option β) (targetHeight currentTip maxAhead : Nat)
    (rowed : ∀ height ∈ heightsUpTo (currentTip + 1) targetHeight, (rows height).isSome) :
    Sound { scheduler := IbdScheduler.new targetHeight currentTip rows maxAhead } := by
  have wanted : ∀ height, currentTip < height → height ≤ targetHeight →
      height ∈ heightsUpTo (currentTip + 1) targetHeight := by
    intro height above below
    rw [heightsUpTo, mem_range'_1]
    omega
  refine ⟨⟨?_, ?_, ?_, ?_, rfl⟩, fun _ _ => rfl⟩
  · exact fun height above below => .inl (wanted height above below)
  · intro height isOut
    cases isOut
  · exact held_empty.excuse fun _ member _ => by cases member
  · intro height above below
    have member := wanted height above below
    change ((putAll ∅ (rowsOf rows _)).lookup height).isSome
    rw [KeyedMap.lookup_putAll, KeyedMap.lastPut_rowsOf, if_pos member]
    simp [rowed height member]

/-- The scheduler never loses or doubles a height, in any state of any run of allowed calls, and
what it hands out is always what the rows name near the cursor. -/
theorem no_height_lost_or_doubled (rows : Nat → Option β) (targetHeight currentTip maxAhead : Nat)
    (rowed : ∀ height ∈ heightsUpTo (currentTip + 1) targetHeight, (rows height).isSome)
    (calls : List (SchedulerCall β))
    (allowed : Run.EachStep step Allowed
      { scheduler := IbdScheduler.new targetHeight currentTip rows maxAhead } calls) :
    Run.Throughout step (fun watched => Scheduled watched.scheduler watched.gone ∧
        ∀ now peer maxHeight, HandsOut watched.scheduler now peer maxHeight)
      { scheduler := IbdScheduler.new targetHeight currentTip rows maxAhead } calls := by
  have initial := new_sound rows targetHeight currentTip maxAhead rowed
  have sound : Run.Throughout step Sound _ calls := Run.throughout_of_eachStep
    (fun _ sound _ _ allowed => step_sound sound allowed) initial allowed
  exact sound.imp fun watched sound =>
    ⟨scheduled_of_accounted sound.accounted, handsOut watched.scheduler⟩

/-- A block found stored, one that arrives from a peer that then leaves, a row that changes and
one that goes, and a target that rises again. -/
theorem no_height_lost_or_doubled_departed :
    Run.Throughout step (fun watched => Scheduled watched.scheduler watched.gone ∧
        ∀ now peer maxHeight, HandsOut watched.scheduler now peer maxHeight)
      { scheduler := IbdScheduler.new 4 0 (fun height => some height) 8 }
      [.markDownloaded 2, .assignBlocksUpTo 1 7 3, .blockArrived 2 7 1 1, .peerDisconnected 7,
        .headerRowsChanged [(3, some 9), (4, none)] 3, .extendTarget 5 (fun height => some height),
        .blockReceived 4 7 1 1, .connectCursorAdvanced id 1] :=
  no_height_lost_or_doubled (fun height => some height) 4 0 8 (by decide) _ (by decide +kernel)

end Watched

end Satd.Net
