import Satd.Mempool.OrphanageExact

/-!
# The orphan pool is trimmed fairly and back within its limits

While the orphanage is past a limit, the announcements of some peer cost more than
that peer's share, since every orphan has an announcer and the shares of all peers
stay within the limits. So the peer that trimming takes is always past its share,
and trimming goes on until the orphanage is within its limits.
-/

namespace Satd.Mempool

open KeyedMap Satd.Bitcoin List Option Finset Finmap

/-! ## Scores -/

namespace DosScore

/-- At most another score by value. -/
def AtMost (first second : DosScore) : Prop := first.num * second.den ≤ second.num * first.den

variable {first second : DosScore}

theorem atMost_of_not_above (below : first.above second = false) : first.AtMost second := by
  simp only [above, Bool.or_eq_false_iff, decide_eq_false_iff_not, not_lt] at below
  exact below.1

theorem atMost_of_above (isAbove : first.above second = true) : second.AtMost first := by
  simp only [above, Bool.or_eq_true, decide_eq_true_eq, Bool.and_eq_true, beq_iff_eq] at isAbove
  rcases isAbove with greater | equal
  · exact greater.le
  · exact equal.1.ge

theorem AtMost.trans {third : DosScore} (positive : 0 < second.den) (before : first.AtMost second)
    (after : second.AtMost third) : first.AtMost third := by
  rw [AtMost] at before after ⊢
  have scaled : second.den * (first.num * third.den) ≤ second.den * (third.num * first.den) := by
    calc second.den * (first.num * third.den) = first.num * second.den * third.den := by ring
      _ ≤ second.num * first.den * third.den := Nat.mul_le_mul_right _ before
      _ = second.num * third.den * first.den := by ring
      _ ≤ third.num * second.den * first.den := Nat.mul_le_mul_right _ after
      _ = second.den * (third.num * first.den) := by ring
  exact Nat.le_of_mul_le_mul_left scaled positive

/-- The score is above one by value. -/
def Over (score : DosScore) : Prop := score.den < score.num

theorem exceeds_one (score : DosScore) : score.exceeds one = true ↔ score.Over := by
  simp [exceeds, one, Over]

theorem Over.of_atMost (isOver : first.Over) (positive : 0 < second.den)
    (atMost : first.AtMost second) : second.Over := by
  rw [Over] at isOver ⊢
  rw [AtMost] at atMost
  have scaled : second.den * first.den < second.num * first.den := by
    calc second.den * first.den = first.den * second.den := mul_comm _ _
      _ < first.num * second.den := Nat.mul_lt_mul_of_pos_right isOver positive
      _ ≤ second.num * first.den := atMost
  exact Nat.lt_of_mul_lt_mul_right scaled

theorem max_eq
    {first second : DosScore} : max first second = first ∨ max first second = second := by
  rw [max]
  split
  · exact .inl rfl
  · exact .inr rfl

/-- The greater of two scores is above one exactly if one of them is. -/
theorem max_over (firstPositive : 0 < first.den) (secondPositive : 0 < second.den) :
    (max first second).Over ↔ first.Over ∨ second.Over := by
  rw [max]
  split
  · next isAbove =>
    refine ⟨.inl, ?_⟩
    rintro (isOver | isOver)
    · exact isOver
    · exact isOver.of_atMost firstPositive (atMost_of_above isAbove)
  · next notAbove =>
    refine ⟨.inr, ?_⟩
    rintro (isOver | isOver)
    · exact isOver.of_atMost secondPositive (atMost_of_not_above (by simpa using notAbove))
    · exact isOver

end DosScore

/-- A peer's announcements cost more than its limits allow. -/
def PeerUsage.Over (maxLatency maxWeight : Nat) (usage : PeerUsage) : Prop :=
  maxLatency < usage.latencyScore ∨ max maxWeight 1 < usage.weight

variable {maxLatency : Nat} {wtxid : Wtxid} {peer : PeerId} {usage : PeerUsage}

variable {maxWeight : Nat}

theorem PeerUsage.dosScore_over (positive : 0 < maxLatency) (usage : PeerUsage) :
    (usage.dosScore maxLatency maxWeight).Over ↔ usage.Over maxLatency maxWeight := by
  rw [dosScore, DosScore.max_over positive (lt_max_of_lt_right Nat.one_pos)]
  rfl

theorem PeerUsage.dosScore_den (positive : 0 < maxLatency) (usage : PeerUsage) :
    0 < (usage.dosScore maxLatency maxWeight).den := by
  rw [dosScore]
  rcases DosScore.max_eq with
    isFirst | isSecond
  · rw [isFirst]
    exact positive
  · rw [isSecond]
    exact lt_max_of_lt_right Nat.one_pos

/-! ## The heap -/

theorem peek_eq_none {heap : List Ranked} (found : peek heap = none) : heap = [] := by
  cases heap with
  | nil => rfl
  | cons first rest =>
    rw [peek] at found
    split at found
    · cases found
    · split at found <;> cases found

/-- The peek of a heap is one of its members and none has a greater score. -/
theorem peek_eq_some {heap : List Ranked} {top : Ranked}
    (positive : ∀ ranked ∈ heap, 0 < ranked.1.den) (found : peek heap = some top) :
    top ∈ heap ∧ ∀ ranked ∈ heap, ranked.1.AtMost top.1 := by
  induction heap generalizing top with
  | nil => cases found
  | cons first rest ih =>
    have self : ∀ score : DosScore, score.AtMost score := fun score => le_rfl
    rw [peek] at found
    cases peekRest : peek rest with
    | none =>
      rw [peekRest] at found
      cases found
      rw [peek_eq_none peekRest]
      simp [self]
    | some other =>
      obtain ⟨member, above⟩ := ih
        (fun ranked isRest => positive ranked (mem_cons_of_mem _ isRest)) peekRest
      rw [peekRest] at found
      dsimp only at found
      split at found
      · next isAbove =>
        have lower : other.1.AtMost first.1 := by
          simp only [Ranked.above, Bool.or_eq_true, Bool.and_eq_true, Bool.not_eq_true'] at isAbove
          rcases isAbove with greater | equal
          · exact DosScore.atMost_of_above greater
          · exact DosScore.atMost_of_not_above equal.1
        cases found
        refine ⟨mem_cons_self, ?_⟩
        intro ranked isRanked
        rcases mem_cons.mp isRanked with rfl | later
        · exact self _
        · exact (above ranked later).trans (positive other (mem_cons_of_mem _ member)) lower
      · next notAbove =>
        have lower : first.1.AtMost other.1 := by
          simp only [Ranked.above, Bool.or_eq_true, not_or, Bool.not_eq_true] at notAbove
          exact DosScore.atMost_of_not_above notAbove.1
        cases found
        refine ⟨mem_cons_of_mem _ member, ?_⟩
        intro ranked isRanked
        rcases mem_cons.mp isRanked with rfl | later
        · exact lower
        · exact above ranked later

/-! ## Some peer is past its share -/

section Pigeonhole

variable {inner : OrphanageInner}

/-- What a peer's announcements cost, zero for a peer without any. -/
def usageOf (inner : OrphanageInner) (peer : PeerId) : PeerUsage :=
  (inner.peers.lookup peer).getD {}

section

variable (exact : Exact (fun _ => False) inner)
include exact

theorem Exact.usageOf (peer : PeerId) : UsageExact inner.byWtxid peer (usageOf inner peer) := by
  rw [Mempool.usageOf]
  cases isKnown : inner.peers.lookup peer with
  | none => exact .nothing (exact.unknown peer isKnown)
  | some usage => exact (exact.known peer usage isKnown).1

/-- Every announcer of an orphan is tracked. -/
theorem Exact.announcers_subset {entry : OrphanEntry}
    (here : inner.byWtxid.lookup wtxid = some entry) :
    entry.announcers.keys ⊆ inner.peers.keys := by
  intro peer member
  by_contra missing
  have isUnknown := lookup_eq_none.mpr fun held => missing (mem_keys.mpr held)
  exact exact.unknown peer isUnknown wtxid entry here (mem_keys.mp member)

/-- The orphans weigh no more than what all peers are charged. -/
theorem Exact.uniqueWeight_le :
    inner.uniqueWeight ≤ ∑ peer ∈ inner.peers.keys, (Mempool.usageOf inner peer).weight := by
  have charged : ∀ peer ∈ inner.peers.keys, (Mempool.usageOf inner peer).weight =
      total (share peer OrphanEntry.weight) inner.byWtxid :=
    fun peer _ => (exact.usageOf peer).weight
  rw [exact.uniqueWeight, sum_congr rfl charged, ← total_sum]
  apply total_le_total
  intro wtxid entry here
  obtain ⟨peer, isAnnouncer⟩ := nonempty_iff_ne_empty.mpr (exact.announced wtxid entry here id)
  calc entry.weight
      = share peer OrphanEntry.weight wtxid entry := (if_pos (mem_keys.mp isAnnouncer)).symm
    _ ≤ ∑ peer ∈ inner.peers.keys, share peer OrphanEntry.weight wtxid entry :=
        single_le_sum (f := fun peer => share peer OrphanEntry.weight wtxid entry)
          (fun _ _ => zero_le) (exact.announcers_subset here isAnnouncer)

/-- The latency score is no more than what all peers are charged. -/
theorem Exact.totalLatencyScore_le :
    inner.totalLatencyScore ≤
      ∑ peer ∈ inner.peers.keys, (Mempool.usageOf inner peer).latencyScore := by
  have charged : ∀ peer ∈ inner.peers.keys, (Mempool.usageOf inner peer).latencyScore =
      total (share peer OrphanEntry.latencyScore) inner.byWtxid :=
    fun peer _ => (exact.usageOf peer).latencyScore
  rw [OrphanageInner.totalLatencyScore, exact.uniqueInputScore, exact.announcements,
    sum_congr rfl charged, ← total_sum, ← total_add]
  apply total_le_total
  intro wtxid entry here
  have some : 1 ≤ entry.announcers.keys.card :=
    card_pos.mpr (nonempty_iff_ne_empty.mpr (exact.announced wtxid entry here id))
  have each : ∀ peer ∈ entry.announcers.keys,
      share peer OrphanEntry.latencyScore wtxid entry = entry.latencyScore :=
    fun peer isAnnouncer => if_pos (mem_keys.mp isAnnouncer)
  calc inputScore entry.tx + entry.announcers.keys.card
      ≤ entry.announcers.keys.card * (1 + inputScore entry.tx) := by nlinarith
    _ = ∑ peer ∈ entry.announcers.keys, share peer OrphanEntry.latencyScore wtxid entry := by
        rw [sum_congr rfl each, sum_const, smul_eq_mul, OrphanEntry.latencyScore]
    _ ≤ ∑ peer ∈ inner.peers.keys, share peer OrphanEntry.latencyScore wtxid entry :=
        sum_le_sum_of_subset (exact.announcers_subset here)

/-- The announcements of a tracked peer cost something. -/
theorem Exact.usage_pos (isKnown : inner.peers.lookup peer = some usage) :
    0 < usage.latencyScore ∧ 2 ≤ usage.weight := by
  obtain ⟨usageExact, nonempty⟩ := exact.known peer usage isKnown
  obtain ⟨seq, isListed⟩ := nonempty_iff_ne_empty.mpr nonempty
  obtain ⟨wtxid, found⟩ := mem_iff.mp (mem_keys.mp isListed)
  obtain ⟨entry, here, announced⟩ := (usageExact.announcements seq wtxid).mp found
  obtain ⟨enoughWeight, enoughScore, -⟩ := usageExact.withdraw here announced
  have weighed := exact.weighed wtxid entry here
  rw [OrphanEntry.latencyScore] at enoughScore
  omega

/-- Past a limit, some peer is past its share as long as the shares of all peers
together stay within the latency limit. -/
theorem Exact.someone_over {config : OrphanageConfig}
    (shared : inner.peers.keys.card * maxLatency ≤ config.maxGlobalLatencyScore)
    (past : inner.needsTrim config = true) :
    ∃ peer usage, inner.peers.lookup peer = some usage ∧
      usage.Over maxLatency config.reservedPeerUsage := by
  by_contra nobody
  have within : ∀ peer ∈ inner.peers.keys,
      (Mempool.usageOf inner peer).latencyScore ≤ maxLatency ∧
        (Mempool.usageOf inner peer).weight ≤ max config.reservedPeerUsage 1 ∧
        2 ≤ (Mempool.usageOf inner peer).weight := by
    intro peer member
    obtain ⟨usage, found⟩ := mem_iff.mp (mem_keys.mp member)
    have notOver : ¬ usage.Over maxLatency config.reservedPeerUsage :=
      fun isOver => nobody ⟨peer, usage, found, isOver⟩
    rw [PeerUsage.Over, not_or, not_lt, not_lt] at notOver
    rw [Mempool.usageOf, found, getD_some]
    exact ⟨notOver.1, notOver.2, (exact.usage_pos found).2⟩
  simp only [OrphanageInner.needsTrim, Bool.or_eq_true, decide_eq_true_eq] at past
  rcases past with late | heavy
  · have bound : inner.totalLatencyScore ≤ inner.peers.keys.card * maxLatency := by
      refine exact.totalLatencyScore_le.trans ?_
      exact (sum_le_card_nsmul _ _ _ fun peer member => (within peer member).1).trans_eq
        (smul_eq_mul _ _)
    omega
  · -- without a reservation a tracked peer is past its share at once
    rcases Nat.eq_zero_or_pos inner.peers.keys.card with none | some
    · have bound := exact.uniqueWeight_le
      rw [card_eq_zero.mp none, sum_empty] at bound
      omega
    · obtain ⟨peer, member⟩ := card_pos.mp some
      have reserved : 1 ≤ config.reservedPeerUsage := by
        obtain ⟨-, atMost, atLeast⟩ := within peer member
        by_contra small
        omega
      have bound : inner.uniqueWeight ≤ inner.peers.keys.card * config.reservedPeerUsage := by
        refine exact.uniqueWeight_le.trans ?_
        refine (sum_le_card_nsmul _ _ _ fun peer member => ?_).trans_eq (smul_eq_mul _ _)
        exact (within peer member).2.1.trans_eq (max_eq_left reserved)
      rw [OrphanageInner.maxGlobalUsage, OrphanageInner.peerCount, max_eq_left some,
        mul_comm] at heavy
      omega

/-- The announcement a tracked peer made first is that of an orphan it announced. -/
theorem Exact.oldest (isKnown : inner.peers.lookup peer = some usage) :
    ∃ wtxid entry, usage.oldest = some wtxid ∧ inner.byWtxid.lookup wtxid = some entry ∧
      peer ∈ entry.announcers := by
  obtain ⟨usageExact, nonempty⟩ := exact.known peer usage isKnown
  rw [PeerUsage.oldest]
  cases first : usage.announcements.keys.min with
  | top => exact absurd (min_eq_top.mp first) nonempty
  | coe seq =>
    obtain ⟨wtxid, found⟩ := mem_iff.mp (mem_keys.mp (mem_of_min first))
    obtain ⟨entry, here, announced⟩ := (usageExact.announcements seq wtxid).mp found
    exact ⟨wtxid, entry, found, here, mem_iff.mpr ⟨seq, announced⟩⟩

end

end Pigeonhole

/-! ## Trimming -/

/-- The limits a trimming goes by: the share of a peer, the least of the latency
scores it may use, and how many peers there are at most. -/
structure Limits where
  config : OrphanageConfig
  maxLatency : Nat
  floor : Nat
  peers : Nat
  positive : 0 < maxLatency
  floor_le : floor ≤ maxLatency
  /-- The shares of all peers stay within the limit, or there are too many for any
      share at all. -/
  shared : ∀ count, count ≤ peers → count * maxLatency ≤ config.maxGlobalLatencyScore ∨ floor = 0

/-- A usage past the share of a peer. -/
def Limits.PastShare (limits : Limits) (latencyScore weight : Nat) : Prop :=
  limits.floor < latencyScore ∨ limits.config.reservedPeerUsage < weight

/-- The score of a usage under the limits. -/
def Limits.score (limits : Limits) (usage : PeerUsage) : DosScore :=
  usage.dosScore limits.maxLatency limits.config.reservedPeerUsage

section Trimming

variable {limits : Limits} {inner : OrphanageInner} {heap : List Ranked} {worst : PeerId}

theorem Limits.pastShare_of_over
    (isOver : usage.Over limits.maxLatency limits.config.reservedPeerUsage) :
    limits.PastShare usage.latencyScore usage.weight := by
  rcases isOver with late | heavy
  · exact .inl (limits.floor_le.trans_lt late)
  · exact .inr ((le_max_left _ _).trans_lt heavy)

/-- The heap holds every peer past its share, with its score. -/
def Covers (limits : Limits) (inner : OrphanageInner) (heap : List Ranked) : Prop :=
  ∀ peer usage, inner.peers.lookup peer = some usage →
    usage.Over limits.maxLatency limits.config.reservedPeerUsage → (limits.score usage, peer) ∈ heap

/-- The heap holds every other peer past its share. -/
def CoversBut (limits : Limits) (worst : PeerId) (inner : OrphanageInner) (heap : List Ranked) :
    Prop :=
  ∀ peer usage, peer ≠ worst → inner.peers.lookup peer = some usage →
    usage.Over limits.maxLatency limits.config.reservedPeerUsage → (limits.score usage, peer) ∈ heap

/-- Past a limit, a peer whose score is at least that of every other peer past its
share is past its own. -/
theorem pastShare_of_highest (exact : Exact (fun _ => False) inner)
    (few : inner.peers.keys.card ≤ limits.peers) (past : inner.needsTrim limits.config = true)
    (isKnown : inner.peers.lookup worst = some usage)
    (highest : ∀ peer other, peer ≠ worst → inner.peers.lookup peer = some other →
      other.Over limits.maxLatency limits.config.reservedPeerUsage →
        (limits.score other).AtMost (limits.score usage)) :
    limits.PastShare usage.latencyScore usage.weight := by
  rcases limits.shared _ few with shared | none
  · obtain ⟨peer, other, found, isOver⟩ := exact.someone_over shared past
    apply limits.pastShare_of_over
    by_cases same : peer = worst
    · subst same
      rw [isKnown] at found
      cases found
      exact isOver
    · rw [← usage.dosScore_over limits.positive]
      exact ((other.dosScore_over limits.positive).mpr isOver).of_atMost
        (usage.dosScore_den limits.positive) (highest peer other same found isOver)
  · left
    rw [none]
    exact (exact.usage_pos isKnown).1

/-- What trimming one peer does. -/
structure TrimsPeer (limits : Limits) (worst : PeerId) (before after : OrphanageInner)
    (trimmed : List Trimmed) : Prop where
  exact : Exact (fun _ => False) after
  drops : Drops worst before after
  pastShare : ∀ trim ∈ trimmed, limits.PastShare trim.latencyScore trim.weight

theorem Drops.trans {first second third : OrphanageInner} (before : Drops peer first second)
    (after : Drops peer second third) :
    Drops peer first third :=
  ⟨fun other different => (after.others other different).trans (before.others other different),
    after.peers.trans before.peers, after.announcements.trans before.announcements⟩

variable {steps : Nat}

/-- Trimming one peer never fails, drops only announcements of a peer past its share,
and drops one if the orphanage is past a limit. -/
theorem trimPeer_spec (rest : List Ranked) (worst : PeerId) (log : List Trimmed)
    (exact : Exact (fun _ => False) inner) (enough : inner.announcements < steps)
    (few : inner.peers.keys.card ≤ limits.peers) (positive : ∀ ranked ∈ rest, 0 < ranked.1.den)
    (covers : CoversBut limits worst inner rest)
    (start : inner.needsTrim limits.config = true → ∀ usage,
      inner.peers.lookup worst = some usage → limits.PastShare usage.latencyScore usage.weight) :
    ∃ after trimmed, trimPeer limits.config limits.maxLatency worst
        (((peek rest).map Prod.fst).getD DosScore.one) steps inner log =
          some (after, log ++ trimmed) ∧
      TrimsPeer limits worst inner after trimmed ∧
      (inner.needsTrim limits.config = true → worst ∈ inner.peers →
        after.announcements < inner.announcements) := by
  induction steps generalizing inner log with
  | zero => exact absurd enough (Nat.not_lt_zero _)
  | succ steps ih =>
    rw [trimPeer]
    by_cases past : inner.needsTrim limits.config = true
    · rw [if_pos past]
      cases isKnown : inner.peers.lookup worst with
      | none =>
        refine ⟨inner, [], by simp, ⟨exact, .refl worst inner, by simp⟩, ?_⟩
        intro _ held
        exact absurd held (lookup_eq_none.mp isKnown)
      | some usage =>
        obtain ⟨wtxid, entry, oldest, here, announced⟩ := exact.oldest isKnown
        obtain ⟨dropped, went, result, exactNext, drops, fewer⟩ :=
          exact.dropAnnouncement wtxid worst
        have count := fewer entry here announced
        have wasOver := start past usage isKnown
        simp only [oldest, result, bind_eq_bind, bind_some]
        cases stillKnown : dropped.peers.lookup worst with
        | none =>
          refine ⟨dropped, [⟨worst, usage.latencyScore, usage.weight⟩], rfl,
            ⟨exactNext, drops, by simpa using wasOver⟩, fun _ _ => by omega⟩
        | some remaining =>
          dsimp only
          split
          · next isAbove =>
            have fewNext : dropped.peers.keys.card ≤ limits.peers :=
              (card_le_card drops.peers).trans few
            have coversNext : CoversBut limits worst dropped rest := by
              intro peer other different found
              rw [drops.others peer different] at found
              exact covers peer other different found
            obtain ⟨after, trimmed, resultAfter, trims, -⟩ := ih
              (log ++ [⟨worst, usage.latencyScore, usage.weight⟩]) exactNext (by omega) fewNext
              coversNext (by
                intro pastNext usageNext found
                apply pastShare_of_highest exactNext fewNext pastNext found
                intro peer other different foundOther isOver
                have inHeap := coversNext peer other different foundOther isOver
                rw [stillKnown] at found
                cases found
                -- the threshold is the greatest score of the heap
                cases top : peek rest with
                | none =>
                  rw [peek_eq_none top] at inHeap
                  cases inHeap
                | some highest =>
                  obtain ⟨member, above⟩ := peek_eq_some positive top
                  rw [top] at isAbove
                  exact (above _ inHeap).trans (positive highest member)
                    (DosScore.atMost_of_above isAbove))
            refine ⟨after, ⟨worst, usage.latencyScore, usage.weight⟩ :: trimmed, ?_,
              ⟨trims.exact, drops.trans trims.drops, ?_⟩, ?_⟩
            · rw [resultAfter, append_assoc, singleton_append]
            · intro trim member
              rcases mem_cons.mp member with rfl | later
              · exact wasOver
              · exact trims.pastShare trim later
            · intro _ _
              have later := trims.drops.announcements
              omega
          · refine ⟨dropped, [⟨worst, usage.latencyScore, usage.weight⟩], rfl,
              ⟨exactNext, drops, by simpa using wasOver⟩, fun _ _ => by omega⟩
    · rw [if_neg past]
      refine ⟨inner, [], by simp, ⟨exact, .refl worst inner, by simp⟩, ?_⟩
      intro isPast
      exact absurd isPast past

/-- The heap holds peers with their scores, each once, and every peer past its
share. -/
structure HeapExact (limits : Limits) (inner : OrphanageInner) (heap : List Ranked) : Prop where
  current : ∀ ranked ∈ heap, ∃ usage, inner.peers.lookup ranked.2 = some usage ∧
    ranked.1 = limits.score usage
  distinct : (heap.map Prod.snd).Nodup
  covers : Covers limits inner heap

theorem HeapExact.positive (exact : HeapExact limits inner heap) :
    ∀ ranked ∈ heap, 0 < ranked.1.den := by
  intro ranked member
  obtain ⟨usage, -, score⟩ := exact.current ranked member
  rw [score]
  exact usage.dosScore_den limits.positive

/-- The heap after its worst peer was trimmed and put back. -/
theorem HeapExact.putBack (exact : HeapExact limits inner heap) {top : Ranked}
    {after : OrphanageInner} (isTop : top ∈ heap) (drops : Drops top.2 inner after) :
    (∀ ranked ∈ heap.erase top, ranked.2 ≠ top.2) ∧
      (after.peers.lookup top.2 = none → HeapExact limits after (heap.erase top)) ∧
      ∀ usage, after.peers.lookup top.2 = some usage →
        HeapExact limits after ((limits.score usage, top.2) :: heap.erase top) := by
  have split : heap.Perm (top :: heap.erase top) := perm_cons_erase isTop
  have apart := (split.map Prod.snd).nodup_iff.mp exact.distinct
  rw [List.map_cons, List.nodup_cons] at apart
  have others : ∀ ranked ∈ heap.erase top, ranked.2 ≠ top.2 := by
    intro ranked member same
    exact apart.1 (same ▸ mem_map_of_mem member)
  have current : ∀ ranked ∈ heap.erase top, ∃ usage,
      after.peers.lookup ranked.2 = some usage ∧ ranked.1 = limits.score usage := by
    intro ranked member
    rw [drops.others ranked.2 (others ranked member)]
    exact exact.current ranked (mem_of_mem_erase member)
  have covers : CoversBut limits top.2 after (heap.erase top) := by
    intro peer usage different found isOver
    rw [drops.others peer different] at found
    have member := exact.covers peer usage found isOver
    exact (mem_erase_of_ne fun same => different (congrArg Prod.snd same)).mpr member
  refine ⟨others, ?_, ?_⟩
  · intro isGone
    refine ⟨current, apart.2, ?_⟩
    intro peer usage found
    apply covers peer usage _ found
    rintro rfl
    rw [isGone] at found
    cases found
  · intro usage isKnown
    refine ⟨?_, nodup_cons.mpr apart, ?_⟩
    · intro ranked member
      rcases mem_cons.mp member with rfl | later
      · exact ⟨usage, isKnown, rfl⟩
      · exact current ranked later
    · intro peer other found isOver
      by_cases same : peer = top.2
      · rw [same, isKnown] at found
        cases found
        rw [same]
        exact mem_cons_self
      · exact mem_cons_of_mem _ (covers peer other same found isOver)

/-- What trimming does: it drops only announcements of peers past their shares, and ends within the
limits unless there are too many peers. -/
structure TrimsHeap (limits : Limits) (before after : OrphanageInner) (trimmed : List Trimmed) :
    Prop where
  exact : Exact (fun _ => False) after
  peers : after.peers.keys ⊆ before.peers.keys
  pastShare : ∀ trim ∈ trimmed, limits.PastShare trim.latencyScore trim.weight
  within : after.peers.keys.card * limits.maxLatency ≤ limits.config.maxGlobalLatencyScore →
    after.needsTrim limits.config = false

/-- Trimming never fails. -/
theorem trimHeap_spec (log : List Trimmed) (exact : Exact (fun _ => False) inner)
    (past : inner.needsTrim limits.config = true) (enough : inner.announcements < steps)
    (few : inner.peers.keys.card ≤ limits.peers) (heapExact : HeapExact limits inner heap) :
    ∃ after trimmed, trimHeap limits.config limits.maxLatency steps heap inner log =
        some (after, log ++ trimmed) ∧ TrimsHeap limits inner after trimmed := by
  induction steps generalizing inner heap log with
  | zero => exact absurd enough (Nat.not_lt_zero _)
  | succ steps ih =>
    rw [trimHeap]
    cases isTop : peek heap with
    | none =>
      refine ⟨inner, [], by simp, exact, fun _ member => member, by simp, fun shared => ?_⟩
      obtain ⟨peer, usage, found, isOver⟩ := exact.someone_over shared past
      have member := heapExact.covers peer usage found isOver
      rw [peek_eq_none isTop] at member
      cases member
    | some top =>
      obtain ⟨member, above⟩ := peek_eq_some heapExact.positive isTop
      obtain ⟨usage, isKnown, score⟩ := heapExact.current top member
      obtain ⟨trimmed, firstTrims, result, trims, fewer⟩ := trimPeer_spec
        (heap.erase top) top.2 log exact (Nat.lt_succ_self _) few
        (fun ranked isRest => heapExact.positive ranked (mem_of_mem_erase isRest)) (by
          intro peer other different found isOver
          exact (mem_erase_of_ne fun same => different (congrArg Prod.snd same)).mpr
            (heapExact.covers peer other found isOver))
        (by
          intro _ found isFound
          apply pastShare_of_highest exact few past isFound
          intro peer other _ foundOther isOver
          rw [isKnown] at isFound
          cases isFound
          rw [← score]
          exact above _ (heapExact.covers peer other foundOther isOver))
      have count := fewer past (mem_iff.mpr ⟨usage, isKnown⟩)
      obtain ⟨-, gone, kept⟩ := heapExact.putBack member trims.drops
      have fewNext : trimmed.peers.keys.card ≤ limits.peers :=
        (card_le_card trims.drops.peers).trans few
      simp only [result, bind_eq_bind, bind_some]
      by_cases stillPast : trimmed.needsTrim limits.config = true
      · rw [if_pos stillPast]
        -- the rest of the run, whether or not the peer went back into the heap
        have proceed : ∀ next, HeapExact limits trimmed next →
            ∃ after more, trimHeap limits.config limits.maxLatency steps next trimmed
                (log ++ firstTrims) = some (after, log ++ more) ∧
              TrimsHeap limits inner after more := by
          intro next nextExact
          obtain ⟨after, more, resultAfter, exactAfter, subset, pastShare, within⟩ :=
            ih (log ++ firstTrims) trims.exact stillPast (by omega) fewNext nextExact
          refine ⟨after, firstTrims ++ more, ?_, exactAfter, subset.trans trims.drops.peers, ?_,
            within⟩
          · rw [resultAfter, append_assoc]
          · intro trim isTrim
            rcases mem_append.mp isTrim with first | later
            · exact trims.pastShare trim first
            · exact pastShare trim later
        cases stillKnown : trimmed.peers.lookup top.2 with
        | none => exact proceed _ (gone stillKnown)
        | some remaining => exact proceed _ (kept remaining stillKnown)
      · rw [if_neg stillPast]
        exact ⟨trimmed, firstTrims, rfl, trims.exact, trims.drops.peers, trims.pastShare,
          fun _ => by simpa using stillPast⟩

end Trimming

/-- The limits of a trimming that begins now. -/
def limitsOf (config : OrphanageConfig) (inner : OrphanageInner) : Limits where
  config
  maxLatency := inner.maxPeerLatencyScore config
  floor := config.maxGlobalLatencyScore / inner.peerCount
  peers := inner.peerCount
  positive := lt_max_of_lt_right Nat.one_pos
  floor_le := le_max_left _ _
  shared := by
    intro count few
    rcases Nat.eq_zero_or_pos (config.maxGlobalLatencyScore / inner.peerCount) with none | some
    · exact .inr none
    · left
      rw [OrphanageInner.maxPeerLatencyScore, max_eq_left some]
      calc count * (config.maxGlobalLatencyScore / inner.peerCount)
          ≤ inner.peerCount * (config.maxGlobalLatencyScore / inner.peerCount) :=
            Nat.mul_le_mul_right _ few
        _ ≤ config.maxGlobalLatencyScore := Nat.mul_div_le _ _

/-- The heap a trimming starts with. -/
theorem heapExact_overLimit {config : OrphanageConfig} {inner : OrphanageInner} :
    HeapExact (limitsOf config inner) inner
      (overLimit config (inner.maxPeerLatencyScore config) inner) := by
  have ranked : ∀ entry, entry ∈ overLimit config (inner.maxPeerLatencyScore config) inner ↔
      ∃ usage, inner.peers.lookup entry.2 = some usage ∧
        entry.1 = (limitsOf config inner).score usage ∧ entry.1.exceeds .one = true := by
    rintro ⟨score, peer⟩
    rw [overLimit, List.mem_filter, List.mem_filterMap]
    constructor
    · rintro ⟨⟨candidate, -, found⟩, exceeds⟩
      obtain ⟨usage, isKnown, same⟩ := map_eq_some_iff.mp found
      cases same
      exact ⟨usage, isKnown, rfl, exceeds⟩
    · rintro ⟨usage, isKnown, rfl, exceeds⟩
      refine ⟨⟨peer, ?_, by rw [isKnown]; rfl⟩, exceeds⟩
      rw [mem_sort]
      exact mem_keys.mpr (mem_iff.mpr ⟨usage, isKnown⟩)
  constructor
  · intro entry member
    obtain ⟨usage, isKnown, score, -⟩ := (ranked entry).mp member
    exact ⟨usage, isKnown, score⟩
  · rw [overLimit]
    have listed : ((inner.peers.keys.sort (· ≤ ·)).filterMap fun peer =>
        (inner.peers.lookup peer).map fun usage =>
          (usage.dosScore (inner.maxPeerLatencyScore config) config.reservedPeerUsage, peer)).map
        Prod.snd = inner.peers.keys.sort (· ≤ ·) := by
      rw [map_filterMap]
      refine (filterMap_congr fun peer member => ?_).trans (filterMap_some)
      rw [mem_sort] at member
      obtain ⟨usage, isKnown⟩ := mem_iff.mp (mem_keys.mp member)
      simp [isKnown]
    refine .sublist (filter_sublist.map _) ?_
    rw [listed]
    exact sort_nodup _ _
  · intro peer usage isKnown isOver
    refine (ranked _).mpr ⟨usage, isKnown, rfl, ?_⟩
    rw [DosScore.exceeds_one]
    exact (usage.dosScore_over (limitsOf config inner).positive).mpr isOver

/-- A peer that lost an announcement to trimming was past its share: the latency
limit divided among the peers there were when trimming began, or the reserved
weight. -/
def PastShare (config : OrphanageConfig) (peersAtTrim : Nat) (trim : Trimmed) : Prop :=
  config.maxGlobalLatencyScore / peersAtTrim < trim.latencyScore ∨
    config.reservedPeerUsage < trim.weight

/-- Trimming never fails, drops only announcements of peers past their shares, and
ends within the limits if there are no more peers than the latency limit. -/
theorem limitOrphans_spec {inner : OrphanageInner} {config : OrphanageConfig}
    (exact : Exact (fun _ => False) inner) :
    ∃ after trimmed, limitOrphans config inner = some (after, trimmed) ∧
      Exact (fun _ => False) after ∧
      (∀ trim ∈ trimmed, PastShare config inner.peerCount trim) ∧
      (after.peers.keys.card ≤ config.maxGlobalLatencyScore → after.needsTrim config = false) := by
  rw [limitOrphans]
  by_cases past : inner.needsTrim config = true
  · rw [if_pos past]
    obtain ⟨after, trimmed, result, exactAfter, subset, pastShare, within⟩ :=
      @trimHeap_spec (limitsOf config inner) inner _ _ [] exact past (Nat.lt_succ_self _)
        (le_max_left _ _) (heapExact_overLimit)
    refine ⟨after, trimmed, result, exactAfter, pastShare, ?_⟩
    intro few
    apply within
    have fewer : after.peers.keys.card ≤ inner.peerCount :=
      (card_le_card subset).trans (le_max_left _ _)
    rcases (limitsOf config inner).shared _ fewer with shared | none
    · exact shared
    · -- more peers than the limit: the share is one
      have one : (limitsOf config inner).maxLatency = 1 := by
        have share : (limitsOf config inner).maxLatency =
            max (config.maxGlobalLatencyScore / inner.peerCount) 1 := rfl
        have floor : config.maxGlobalLatencyScore / inner.peerCount = 0 := none
        rw [share, floor]
        rfl
      rw [one, mul_one]
      exact few
  · rw [if_neg past]
    exact ⟨inner, [], rfl, exact, by simp, fun _ => by simpa using past⟩

/-! ## Runs -/

/-- A call of the orphanage. -/
inductive OrphanageCall where
  | add (tx : Transaction) (fromPeer : PeerId) (missingParents : Finset Txid)
  | addAnnouncer (wtxid : Wtxid) (peer : PeerId)
  | erase (wtxid : Wtxid)
  | eraseForPeer (peer : PeerId)
  | eraseForBlock (block : Block)
  | setMissingParents (wtxid : Wtxid) (missingParents : Finset Txid)

/-- The orphanage with every announcement that was dropped by trimming, each with
the peers there were when that trimming began. -/
structure OrphanageRun where
  inner : OrphanageInner := {}
  trimmed : List (Nat × Trimmed) := []

namespace OrphanageRun

/-- A run after a call. -/
def record {α : Type} (run : OrphanageRun) (called : Called α) : OrphanageRun :=
  ⟨called.inner, run.trimmed ++ called.trimmed.map fun trim => (called.peersAtTrim, trim)⟩

/-- One call. -/
def step (hashing : Hashing) (config : OrphanageConfig) (run : OrphanageRun) :
    OrphanageCall → Option OrphanageRun
  | .add tx fromPeer missingParents =>
    (add hashing config tx fromPeer missingParents run.inner).map run.record
  | .addAnnouncer wtxid peer => (addAnnouncer config wtxid peer run.inner).map run.record
  | .erase wtxid => (erase config wtxid run.inner).map run.record
  | .eraseForPeer peer => (eraseForPeer config peer run.inner).map run.record
  | .eraseForBlock block => (eraseForBlock config block run.inner).map run.record
  | .setMissingParents wtxid missingParents =>
    (setMissingParents config wtxid missingParents run.inner).map run.record

/-- The calls one after another, from an empty orphanage. -/
def after (hashing : Hashing) (config : OrphanageConfig) (calls : List OrphanageCall) :
    Option OrphanageRun :=
  calls.foldlM (step hashing config) {}

end OrphanageRun

/-- What every call keeps: indexes and totals are exact, and the orphanage is within
its limits if there are no more peers than the latency limit. -/
structure Kept (config : OrphanageConfig) (inner : OrphanageInner) : Prop where
  exact : Exact (fun _ => False) inner
  within : inner.peers.keys.card ≤ config.maxGlobalLatencyScore → inner.needsTrim config = false

/-- A call that keeps the orphanage and trims only peers past their shares. -/
def Fair {α : Type} (config : OrphanageConfig) (result : Option (Called α)) : Prop :=
  ∃ called, result = some called ∧ Kept config called.inner ∧
    ∀ trim ∈ called.trimmed, PastShare config called.peersAtTrim trim

section Calls

variable {config : OrphanageConfig} {inner : OrphanageInner} {α : Type}

theorem fair_thenLimit (exact : Exact (fun _ => False) inner) {value : α} :
    Fair config (thenLimit config inner value) := by
  obtain ⟨after, trimmed, result, exactAfter, pastShare, within⟩ := limitOrphans_spec exact
  refine ⟨⟨after, trimmed, inner.peerCount, value⟩, ?_, ⟨exactAfter, within⟩, pastShare⟩
  rw [thenLimit, result]
  rfl

theorem fair_withoutLimit (kept : Kept config inner) {value : α} :
    Fair config (withoutLimit inner value) :=
  ⟨_, rfl, kept, by simp⟩

theorem announce_eq_self (notNew : (inner.announce wtxid peer).2 = false) :
    (inner.announce wtxid peer).1 = inner := by
  rw [OrphanageInner.announce] at notNew ⊢
  cases here : inner.byWtxid.lookup wtxid with
  | none => rfl
  | some entry =>
    rw [here] at notNew
    dsimp only at notNew ⊢
    split
    · rfl
    · next already =>
      rw [if_neg already] at notNew
      cases notNew

theorem fair_announce (kept : Kept config inner) {first : α} {second : α} :
    Fair config (if (inner.announce wtxid peer).2 = true then
        thenLimit config (inner.announce wtxid peer).1 first
      else withoutLimit (inner.announce wtxid peer).1 second) := by
  by_cases isNew : (inner.announce wtxid peer).2 = true
  · rw [if_pos isNew]
    exact fair_thenLimit (kept.exact.announce (fun _ => False.elim) peer isNew)
  · rw [if_neg isNew, announce_eq_self (by simpa using isNew)]
    exact fair_withoutLimit kept

variable {missingParents : Finset Txid}

theorem fair_add {hashing : Hashing} (kept : Kept config inner) {tx : Transaction}
    {fromPeer : PeerId} :
    Fair config (add hashing config tx fromPeer missingParents inner) := by
  rw [add]
  split
  · exact fair_withoutLimit kept
  · split
    · exact fair_withoutLimit kept
    · by_cases held : computeWtxid hashing tx ∈ inner.byWtxid
      · simp only [held, if_true]
        exact fair_announce kept
      · simp only [held, if_false]
        apply fair_thenLimit
        apply (kept.exact.hold hashing tx missingParents held).announce fun _ => id
        have found : (hold hashing tx missingParents inner).byWtxid.lookup
            (computeWtxid hashing tx) = some _ := lookup_insert _
        rw [OrphanageInner.announce, found]
        dsimp only
        rw [if_neg notMem_empty]

theorem fair_eraseForBlock (kept : Kept config inner) {block : Block} :
    Fair config (eraseForBlock config block inner) := by
  rw [eraseForBlock]
  split
  · exact fair_withoutLimit kept
  · obtain ⟨erased, removed, result, exact⟩ :=
      kept.exact.eraseEach ((doomed block inner).sort (· ≤ ·))
    simp only [result, bind_eq_bind, bind_some]
    exact fair_thenLimit exact

theorem fair_setMissingParents (kept : Kept config inner) {wtxid : Wtxid} :
    Fair config (setMissingParents config wtxid missingParents inner) := by
  rw [setMissingParents]
  split
  · obtain ⟨erased, held, result, exact⟩ := kept.exact.erase wtxid
    simp only [result, bind_eq_bind, bind_some]
    exact fair_thenLimit exact
  · cases here : inner.byWtxid.lookup wtxid with
    | none => exact fair_withoutLimit kept
    | some entry =>
      exact fair_withoutLimit ⟨kept.exact.setParents here, kept.within⟩

end Calls

namespace OrphanageRun

variable {hashing : Hashing} {config : OrphanageConfig} {run : OrphanageRun}

/-- What holds of every run. -/
structure Sound (config : OrphanageConfig) (run : OrphanageRun) : Prop where
  kept : Kept config run.inner
  fair : ∀ trimmed ∈ run.trimmed, PastShare config trimmed.1 trimmed.2

theorem Sound.record {α : Type} {result : Option (Called α)} (sound : Sound config run)
    (fair : Fair config result) :
    ∃ next, result.map run.record = some next ∧ Sound config next := by
  obtain ⟨called, rfl, kept, pastShare⟩ := fair
  refine ⟨run.record called, rfl, kept, ?_⟩
  intro trimmed member
  rcases mem_append.mp member with before | now
  · exact sound.fair trimmed before
  · obtain ⟨trim, isTrim, rfl⟩ := mem_map.mp now
    exact pastShare trim isTrim

theorem Sound.step (sound : Sound config run) (call : OrphanageCall) :
    ∃ next, run.step hashing config call = some next ∧ Sound config next := by
  have kept := sound.kept
  cases call with
  | add tx fromPeer missingParents =>
    exact sound.record (fair_add kept)
  | addAnnouncer wtxid peer => exact sound.record (fair_announce kept)
  | erase wtxid =>
    refine sound.record ?_
    obtain ⟨erased, held, result, exact⟩ := kept.exact.erase wtxid
    simp only [erase, result, bind_eq_bind, bind_some]
    exact fair_thenLimit exact
  | eraseForPeer peer =>
    refine sound.record ?_
    obtain ⟨dropped, removed, result, exact⟩ := kept.exact.dropEach peer
      (((run.inner.peers.lookup peer).map PeerUsage.inOrder).getD [])
    simp only [eraseForPeer, result, bind_eq_bind, bind_some]
    exact fair_thenLimit exact
  | eraseForBlock block => exact sound.record (fair_eraseForBlock kept)
  | setMissingParents wtxid missingParents =>
    exact sound.record (fair_setMissingParents kept)

theorem Sound.empty : Sound config {} := by
  refine ⟨⟨.empty, ?_⟩, by simp⟩
  intro _
  simp [OrphanageInner.needsTrim, OrphanageInner.totalLatencyScore]

/-- After every sequence of calls, none of which can fail: every index and running
total is what the held orphans call for, no announcement was ever dropped by
trimming from a peer within its share, and if there are no more peers than the
latency limit, the latency score is within it and the weight within what is
reserved for the peers. -/
theorem limits_enforced (hashing : Hashing) (config : OrphanageConfig)
    (calls : List OrphanageCall) :
    ∃ run, after hashing config calls = some run ∧ Exact (fun _ => False) run.inner ∧
      (∀ trimmed ∈ run.trimmed, PastShare config trimmed.1 trimmed.2) ∧
      (run.inner.peers.keys.card ≤ config.maxGlobalLatencyScore →
        run.inner.totalLatencyScore ≤ config.maxGlobalLatencyScore ∧
          run.inner.uniqueWeight ≤ config.reservedPeerUsage * max run.inner.peers.keys.card 1) := by
  obtain ⟨run, result, sound⟩ :=
    Run.foldlM_succeeds (fun _ sound => Sound.step sound) calls Sound.empty
  refine ⟨run, result, sound.kept.exact, sound.fair, ?_⟩
  intro few
  have within := sound.kept.within few
  simp only [OrphanageInner.needsTrim, Bool.or_eq_false_iff, decide_eq_false_iff_not,
    not_lt] at within
  exact within

end OrphanageRun

end Satd.Mempool
