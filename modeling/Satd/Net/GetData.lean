import Satd.Bitcoin.Types

/-!
# Serving a peer's `getdata` requests

The manager answers the entries of a peer's `getdata` requests one by one, oldest
first, on the bounded channel that the peer's write loop drains. Entries whose block
or transaction it does not have are listed in one `notfound` at the end of the pass.
While it works, other tasks queue messages of their own, the write loop takes messages
off or closes the channel, and the chain and the mempool change.

How a block is made compact and what a message weighs are parameters. Statistics and
waking the reader are left out.
-/

namespace Satd.Net

open Satd.Bitcoin List

inductive Inventory where
  | error
  | transaction (txid : Txid)
  | block (hash : BlockHash)
  | compactBlock (hash : BlockHash)
  | wtx (wtxid : Hash256)
  | witnessTransaction (txid : Txid)
  | witnessBlock (hash : BlockHash)
  | unknown (invType : UInt32) (hash : Hash256)

inductive NetworkMessage (γ : Type) where
  | block (block : Block)
  | cmpctBlock (compact : γ)
  | tx (tx : Transaction)
  | notFound (entries : List Inventory)
  | other (payload : List UInt8)

inductive BlockRefusal where
  | ignore | disconnect

structure MempoolEntry where
  tx : Transaction
  assistsRelay : Bool
  entrySequence : Nat

/-- What happens to the channel from outside: another task tries to queue a message, the
write loop takes one off, or it ends. -/
inductive ChannelEvent (γ : Type) where
  | queue (msg : NetworkMessage γ)
  | take
  | close

/-- What the manager finds when it turns to an entry, and what happened to the channel
before it looked whether serving is paused, and from then until it answers. -/
structure Moment (γ : Type) where
  blockRequestRefusal : BlockHash → Option BlockRefusal
  compact : BlockHash → Option γ
  connected : Bool
  getBlock : BlockHash → Option Block
  uploadPermitsBlock : Block → Bool
  get : Txid → Option MempoolEntry
  getByWtxid : Hash256 → Option MempoolEntry
  wasAnnounced : Nat → Hash256 → Bool
  recentBlockTx : Inventory → Option Transaction
  before : List (ChannelEvent γ)
  between : List (ChannelEvent γ)

/-- A message of the channel, and whether it is one of the passes' own. -/
structure Queued (γ : Type) where
  msg : NetworkMessage γ
  own : Bool

/-- The channel to the peer, with the messages that were taken off and those that wait,
and the requests not yet served. -/
structure PeerSender (γ : Type) where
  capacity : Nat
  taken : List (Queued γ)
  waiting : List (Queued γ)
  closed : Bool
  queuedBytes : Nat
  getdata : List Inventory

variable {γ : Type} (size : NetworkMessage γ → Nat)

namespace PeerSender

variable (sender : PeerSender γ)

/-- Every message queued so far, the oldest first. -/
def history : List (Queued γ) := sender.taken ++ sender.waiting

def full : Bool := sender.capacity ≤ sender.waiting.length

def maxSendBufferBytes : Nat := 1000000

def paused : Bool := maxSendBufferBytes < sender.queuedBytes || sender.full

/-- Queue a message if the channel is open and there is room. -/
def trySend (msg : NetworkMessage γ) (own : Bool) : Bool × PeerSender γ :=
  if sender.closed || sender.full then (false, sender)
  else (true, { sender with
    waiting := sender.waiting ++ [⟨msg, own⟩], queuedBytes := sender.queuedBytes + size msg })

/-- A channel that closes drops what waits in it. -/
def react : ChannelEvent γ → PeerSender γ
  | .queue msg => (sender.trySend size msg false).2
  | .take =>
    match sender.waiting with
    | [] => sender
    | first :: rest =>
      { sender with
        taken := sender.taken ++ [first], waiting := rest
        queuedBytes := sender.queuedBytes - size first.msg }
  | .close => { sender with taken := sender.history, waiting := [], closed := true }

def meanwhile (events : List (ChannelEvent γ)) : PeerSender γ := events.foldl (react size) sender

end PeerSender

/-- What an entry calls for. -/
inductive Reply (γ : Type) where
  | send (msg : NetworkMessage γ)
  | missing
  | skip
  | stop

section

variable (moment : Moment γ)

/-- A pooled transaction is sent if it relays and was announced to the peer, and else
the one of the latest block. -/
def replyTx (inv : Inventory) (pooled : Option MempoolEntry) (hash : Hash256) : Reply γ :=
  match pooled.filter fun entry =>
    entry.assistsRelay && moment.wasAnnounced entry.entrySequence hash with
  | some entry => .send (.tx entry.tx)
  | none =>
    match moment.recentBlockTx inv with
    | some tx => .send (.tx tx)
    | none => .missing

def replyBlock (hash : BlockHash) (compact : Option γ) : Reply γ :=
  match moment.blockRequestRefusal hash, compact with
  | some .ignore, _ => .skip
  | some .disconnect, _ => .stop
  | none, some compact => if moment.connected then .send (.cmpctBlock compact) else .stop
  | none, none =>
    match moment.getBlock hash with
    | none => .missing
    | some block => if moment.uploadPermitsBlock block then .send (.block block) else .missing

def msgFilteredBlock : UInt32 := 3

def reply (inv : Inventory) : Reply γ :=
  match inv with
  | .unknown invType _ => if invType = msgFilteredBlock then .stop else .skip
  | .block hash | .witnessBlock hash => replyBlock moment hash none
  | .compactBlock hash => replyBlock moment hash (moment.compact hash)
  | .wtx wtxid => replyTx moment inv (moment.getByWtxid wtxid) wtxid
  | .transaction txid | .witnessTransaction txid => replyTx moment inv (moment.get txid) txid
  | .error => .skip

/-- Answer one entry; false if it stays to be served. -/
def serveGetdataEntry (inv : Inventory) (sender : PeerSender γ) (notFound : List Inventory) :
    Bool × PeerSender γ × List Inventory :=
  match reply moment inv with
  | .send msg => ((sender.trySend size msg true).1, (sender.trySend size msg true).2, notFound)
  | .missing => (true, sender, notFound ++ [inv])
  | .skip => (true, sender, notFound)
  | .stop => (false, sender, notFound)

end

variable (moments : Nat → Moment γ)

/-- The entries of a pass, the first of them met at the moment `turn`. -/
def serveLoop (turn : Nat) (sender : PeerSender γ) (notFound : List Inventory) :
    List Inventory → PeerSender γ × List Inventory
  | [] => ({ sender with getdata := [] }, notFound)
  | inv :: rest =>
    let before := sender.meanwhile size (moments turn).before
    if before.paused then ({ before with getdata := inv :: rest }, notFound)
    else
      match serveGetdataEntry size (moments turn) inv
          (before.meanwhile size (moments turn).between) notFound with
      | (true, sender, notFound) => serveLoop (turn + 1) sender notFound rest
      | (false, sender, notFound) => ({ sender with getdata := inv :: rest }, notFound)

/-- One pass, and its `notfound` after what happened `last` to the channel. -/
def serveGetdata (last : List (ChannelEvent γ)) (sender : PeerSender γ) : PeerSender γ :=
  let (served, notFound) := serveLoop size moments 0 sender [] sender.getdata
  let served := served.meanwhile size last
  if notFound.isEmpty then served else (served.trySend size (.notFound notFound) true).2

/-! ## What a pass queues -/

def NetworkMessage.isNotFound : NetworkMessage γ → Bool
  | .notFound _ => true
  | _ => false

def NetworkMessage.listed : NetworkMessage γ → List Inventory
  | .notFound entries => entries
  | _ => []

/-- The message an entry is to be answered by. -/
def Reply.message : Reply γ → Option (NetworkMessage γ)
  | .send msg => some msg
  | _ => none

def Reply.isMissing : Reply γ → Bool
  | .missing => true
  | _ => false

/-- The entries taken off from a turn on, each with what it called for in its turn. -/
def replies (turn : Nat) (popped : List Inventory) : List (Inventory × Reply γ) :=
  (popped.zipIdx turn).map fun entry => (entry.1, reply (moments entry.2) entry.1)

/-- The messages the entries called for. -/
def messages (answers : List (Inventory × Reply γ)) : List (NetworkMessage γ) :=
  answers.filterMap fun answer => answer.2.message

/-- The entries that called for no message of their own, though they were not skipped. -/
def missing (answers : List (Inventory × Reply γ)) : List Inventory :=
  (answers.filter fun answer => answer.2.isMissing).map Prod.fst

/-- The messages the passes queued themselves. -/
def ownMessages (queued : List (Queued γ)) : List (NetworkMessage γ) :=
  (queued.filter Queued.own).map Queued.msg

theorem length_ownMessages (queued : List (Queued γ)) :
    (ownMessages queued).length + (queued.filter fun entry => !entry.own).length =
      queued.length := by
  rw [ownMessages, length_map]
  exact (length_eq_length_filter_add Queued.own).symm

theorem ownMessages_append (first second : List (Queued γ)) :
    ownMessages (first ++ second) = ownMessages first ++ ownMessages second := by
  simp [ownMessages]

/-- Each entry is answered once. The messages besides `notfound` are those the entries call
for, one for each of them and in their order, and the other entries that were not skipped
are listed in a `notfound`, each of them once and in their order. -/
structure AnsweredOnce (answers : List (Inventory × Reply γ)) (sent : List (NetworkMessage γ)) :
    Prop where
  named : (sent.filter fun msg => !msg.isNotFound) = messages answers
  listed : sent.flatMap NetworkMessage.listed = missing answers

/-- No entry calls for a `notfound` of its own. -/
theorem reply_named {moment : Moment γ} {inv : Inventory} {msg : NetworkMessage γ}
    (replied : reply moment inv = .send msg) : msg.isNotFound = false := by
  have ofBlock : ∀ hash compact, replyBlock moment hash compact = .send msg →
      msg.isNotFound = false := by
    intro hash compact answered
    rcases refused : moment.blockRequestRefusal hash with _ | _ | _ <;> cases compact <;>
      simp only [replyBlock, refused] at answered
    all_goals repeat' split at answered
    all_goals cases answered
    all_goals rfl
  have ofTx : ∀ pooled hash, replyTx moment inv pooled hash = .send msg →
      msg.isNotFound = false := by
    intro pooled hash answered
    rw [replyTx] at answered
    repeat' split at answered
    all_goals cases answered
    all_goals rfl
  cases inv with
  | block | witnessBlock | compactBlock => exact ofBlock _ _ replied
  | transaction | witnessTransaction | wtx => exact ofTx _ _ replied
  | error => cases replied
  | unknown invType _ =>
    rw [reply] at replied
    split at replied <;> cases replied

theorem replies_named {turn : Nat} {popped : List Inventory} {msg : NetworkMessage γ}
    (sent : msg ∈ messages (replies moments turn popped)) : msg.isNotFound = false := by
  simp only [messages, replies, mem_filterMap, mem_map] at sent
  obtain ⟨_, ⟨entry, -, rfl⟩, named⟩ := sent
  cases replied : reply (moments entry.2) entry.1 with
  | send other =>
    rw [replied] at named
    exact Option.some.inj named ▸ reply_named replied
  | missing | skip | stop => simp [replied, Reply.message] at named

theorem listed_of_named {sent : List (NetworkMessage γ)}
    (named : ∀ msg ∈ sent, msg.isNotFound = false) :
    sent.flatMap NetworkMessage.listed = [] := by
  rw [flatMap_eq_nil_iff]
  intro msg member
  have other := named msg member
  cases msg with
  | notFound entries => cases other
  | block | cmpctBlock | tx | other => rfl

/-! ## The channel meanwhile -/

/-- What a channel goes through: some more messages are queued on it. -/
structure Advanced (before after : PeerSender γ) (queued : List (Queued γ)) : Prop where
  history : after.history = before.history ++ queued
  capacity : after.capacity = before.capacity

section Channel

variable {sender middle after : PeerSender γ} {first second : List (Queued γ)}

theorem Advanced.refl (sender : PeerSender γ) : Advanced sender sender [] :=
  ⟨(append_nil _).symm, rfl⟩

theorem Advanced.trans (left : Advanced sender middle first)
    (right : Advanced middle after second) : Advanced sender after (first ++ second) :=
  ⟨by rw [right.history, left.history, append_assoc], right.capacity.trans left.capacity⟩

theorem trySend_cases (sender : PeerSender γ) (msg : NetworkMessage γ) (own : Bool) :
    (sender.trySend size msg own = (false, sender) ∧ (sender.closed || sender.full) = true) ∨
      (sender.trySend size msg own).1 = true ∧ (sender.closed || sender.full) = false ∧
      Advanced sender (sender.trySend size msg own).2 [⟨msg, own⟩] ∧
      (sender.trySend size msg own).2.taken = sender.taken ∧
      (sender.trySend size msg own).2.closed = sender.closed ∧
      (sender.trySend size msg own).2.getdata = sender.getdata := by
  rw [PeerSender.trySend]
  cases refused : sender.closed || sender.full with
  | true => exact .inl ⟨rfl, rfl⟩
  | false => exact .inr ⟨rfl, rfl, ⟨(append_assoc ..).symm, rfl⟩, rfl, rfl, rfl⟩

/-- An event queues no message of the passes' own, and leaves the requests. -/
theorem react_advanced (sender : PeerSender γ) (event : ChannelEvent γ) :
    ∃ queued, Advanced sender (sender.react size event) queued ∧ ownMessages queued = [] ∧
      (sender.react size event).getdata = sender.getdata := by
  cases event with
  | queue msg =>
    rw [PeerSender.react]
    obtain ⟨same, -⟩ | ⟨-, -, advanced, -, -, kept⟩ := trySend_cases size sender msg false
    · exact ⟨[], same ▸ .refl sender, rfl, by rw [same]⟩
    · exact ⟨_, advanced, rfl, kept⟩
  | take =>
    rw [PeerSender.react]
    cases waiting : sender.waiting with
    | nil => exact ⟨[], .refl sender, rfl, rfl⟩
    | cons first rest =>
      exact ⟨[], ⟨by simp [PeerSender.history, waiting], rfl⟩, rfl, rfl⟩
  | close => exact ⟨[], ⟨rfl, rfl⟩, rfl, rfl⟩

theorem meanwhile_advanced (sender : PeerSender γ) (events : List (ChannelEvent γ)) :
    ∃ queued, Advanced sender (sender.meanwhile size events) queued ∧ ownMessages queued = [] ∧
      (sender.meanwhile size events).getdata = sender.getdata := by
  induction events generalizing sender with
  | nil => exact ⟨[], .refl sender, rfl, rfl⟩
  | cons event rest ih =>
    obtain ⟨first, here, none, same⟩ := react_advanced size sender event
    obtain ⟨second, later, noneLater, sameLater⟩ := ih (sender.react size event)
    exact ⟨first ++ second, here.trans later,
      by rw [ownMessages_append, none, noneLater]; rfl, sameLater.trans same⟩

end Channel

/-! ## A whole pass -/

/-- What the loop does with the entries it takes off: none of them stops it, each is answered in
its turn, and the missing ones are listed after those listed before. -/
structure Served (turn : Nat) (sender : PeerSender γ) (notFound backlog popped : List Inventory)
    (queued : List (Queued γ)) (after : PeerSender γ × List Inventory) : Prop where
  kept : backlog = popped ++ after.1.getdata
  advanced : Advanced sender after.1 queued
  going : ∀ answer ∈ replies moments turn popped, answer.2 ≠ .stop
  own : ownMessages queued = messages (replies moments turn popped)
  listed : after.2 = notFound ++ missing (replies moments turn popped)

section Loop

variable {moments} {turn : Nat} {sender middle : PeerSender γ} {inv : Inventory}
  {notFound rest popped : List Inventory} {first queued : List (Queued γ)}
  {after : PeerSender γ × List Inventory}

/-- Nothing is taken off. -/
theorem Served.stopped (advanced : Advanced sender middle queued)
    (noOwn : ownMessages queued = []) : Served moments turn sender notFound rest [] queued
      ({ middle with getdata := rest }, notFound) :=
  ⟨rfl, ⟨advanced.history, advanced.capacity⟩, by simp [replies], noOwn, (append_nil _).symm⟩

/-- One entry more is taken off. -/
theorem Served.cons (advanced : Advanced sender middle first)
    (going : reply (moments turn) inv ≠ .stop)
    (own : ownMessages first = (reply (moments turn) inv).message.toList)
    (later : Served moments (turn + 1) middle
      (notFound ++ missing [(inv, reply (moments turn) inv)]) rest popped queued after) :
    Served moments turn sender notFound (inv :: rest) (inv :: popped) (first ++ queued) after := by
  have answers : replies moments turn (inv :: popped) =
      [(inv, reply (moments turn) inv)] ++ replies moments (turn + 1) popped := rfl
  refine ⟨congrArg _ later.kept, advanced.trans later.advanced, ?_, ?_, ?_⟩
  · rw [answers]
    exact forall_mem_cons.mpr ⟨going, later.going⟩
  · rw [ownMessages_append, own, later.own, answers, messages, messages, filterMap_append]
    cases named : (reply (moments turn) inv).message <;> simp [named]
  · rw [later.listed, answers, append_assoc]
    simp only [missing, filter_append, map_append]

variable (moments)

/-- Each entry that the loop takes off is answered or listed in its turn. -/
theorem serveLoop_answers (turn : Nat) (sender : PeerSender γ) (notFound backlog : List Inventory) :
    ∃ popped queued, Served moments turn sender notFound backlog popped queued
      (serveLoop size moments turn sender notFound backlog) := by
  induction backlog generalizing turn sender notFound with
  | nil => exact ⟨[], [], .stopped (.refl sender) rfl⟩
  | cons inv rest ih =>
    obtain ⟨first, before, none, -⟩ := meanwhile_advanced size sender (moments turn).before
    rw [serveLoop]
    split
    · exact ⟨[], first, .stopped before none⟩
    obtain ⟨second, between, noneBetween, -⟩ := meanwhile_advanced size
      (sender.meanwhile size (moments turn).before) (moments turn).between
    have whole := before.trans between
    have noOwn : ownMessages (first ++ second) = [] := by
      rw [ownMessages_append, none, noneBetween]
      rfl
    generalize (sender.meanwhile size (moments turn).before).meanwhile size
      (moments turn).between = middle at whole ⊢
    rw [serveGetdataEntry]
    cases replied : reply (moments turn) inv with
    | send msg =>
      obtain ⟨refused, -⟩ | ⟨sent, -, advanced, -⟩ := trySend_cases size middle msg true
      · simp only [refused]
        exact ⟨[], _, .stopped whole noOwn⟩
      · dsimp only
        rw [sent]
        obtain ⟨popped, queued, later⟩ := ih (turn + 1) (middle.trySend size msg true).2 notFound
        refine ⟨_, _, .cons (whole.trans advanced) (by simp [replied]) ?_
          (by simpa [replied, missing, Reply.isMissing] using later)⟩
        rw [ownMessages_append, noOwn, replied]
        rfl
    | missing =>
      obtain ⟨popped, queued, later⟩ := ih (turn + 1) middle (notFound ++ [inv])
      exact ⟨_, _, .cons whole (by simp [replied]) (by rw [noOwn, replied]; rfl)
        (by simpa [replied, missing, Reply.isMissing] using later)⟩
    | skip =>
      obtain ⟨popped, queued, later⟩ := ih (turn + 1) middle notFound
      exact ⟨_, _, .cons whole (by simp [replied]) (by rw [noOwn, replied]; rfl)
        (by simpa [replied, missing, Reply.isMissing] using later)⟩
    | stop => exact ⟨[], _, .stopped whole noOwn⟩

end Loop

/-- The messages of the entries and then at most the one `notfound`: each entry is answered once
exactly when there is one, or none to list. -/
theorem answeredOnce_iff {answers : List (Inventory × Reply γ)} {sent : List (NetworkMessage γ)}
    (named : ∀ msg ∈ messages answers, msg.isNotFound = false)
    (told : sent = [] ∨ missing answers ≠ [] ∧ sent = [.notFound (missing answers)]) :
    AnsweredOnce answers (messages answers ++ sent) ↔ missing answers = [] ∨ sent ≠ [] := by
  have all : ((messages answers).filter fun msg => !msg.isNotFound) = messages answers :=
    filter_eq_self.mpr fun msg member => by simp [named msg member]
  have none := listed_of_named named
  rcases told with rfl | ⟨some, rfl⟩
  · rw [append_nil]
    refine ⟨fun once => .inl (once.listed ▸ none), fun empty => ⟨all, ?_⟩⟩
    rw [none, empty.resolve_right (by simp)]
  · refine ⟨fun _ => .inr (by simp), fun _ => ⟨?_, ?_⟩⟩
    · rw [filter_append, all]
      exact append_nil _
    · rw [flatMap_append, none]
      exact append_nil _

end Satd.Net
