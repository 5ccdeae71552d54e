/-
# Events by room

`src/broadcast.rs` and `src/event.rs`.  A `Broadcaster` puts whole events on one
tokio broadcast channel (`B`, with the laws of one).  `send_to_room` sends an
event only if it carries the given room, and is otherwise a no-op that returns
`Ok(0)`; subscribers get the events of all rooms.  `send` is an error when nobody
listens.  The modules are in the repository but not declared in `lib.rs`, and the
error `Broadcast` is not among those of `src/error.rs`; they are modelled as they
are written.

`events_by_room` is what rooms come to for a subscriber that looks at the events
of one room.  The rooms share the channel, so what a subscriber misses of its
room depends on the traffic of all rooms.
-/

import Denshin.Broadcaster.EventBroadcaster

namespace Denshin

open Basis

/-- `GatewayEvent`; `J` is `serde_json::Value` and `T` is `DateTime<Utc>`. -/
structure GatewayEvent (J T : Type*) where
  eventType : String
  roomId : Option String
  senderId : Option String
  payload : J
  timestamp : T
deriving DecidableEq

namespace GatewayEvent

variable {J T : Type*}

/-- `GatewayEvent::new`, at the time `now`. -/
def new (eventType : String) (payload : J) (now : T) : GatewayEvent J T :=
  ⟨eventType, none, none, payload, now⟩

/-- `with_room`. -/
def withRoom (event : GatewayEvent J T) (roomId : String) : GatewayEvent J T :=
  { event with roomId := some roomId }

/-- `with_sender`. -/
def withSender (event : GatewayEvent J T) (senderId : String) : GatewayEvent J T :=
  { event with senderId := some senderId }

end GatewayEvent

/-- The error of `broadcast.rs`, with the text of tokio's `SendError`. -/
inductive BroadcastError
  | broadcast (text : String)
deriving DecidableEq

/-- `Broadcaster`. -/
structure Broadcaster {J T : Type*} (B : Broadcast (GatewayEvent J T)) where
  sender : B.State

namespace Broadcaster

section Construction

variable {J T : Type*} (B : Broadcast (GatewayEvent J T))

/-- `Broadcaster::new`; `none` is a panic of `broadcast::channel`. -/
def new (capacity : ℕ) : Option (Broadcaster B) :=
  (B.channel capacity).map fun p => ⟨B.drop p.1 p.2⟩

/-- `Broadcaster::default`. -/
def default : Option (Broadcaster B) := new B 1024

end Construction

variable {J T : Type*} {B : Broadcast (GatewayEvent J T)} (text : String)

/-- `subscribe`. -/
def subscribe (b : Broadcaster B) : Broadcaster B × ℕ :=
  (⟨(B.subscribe b.sender).1⟩, (B.subscribe b.sender).2)

/-- `send`. -/
def send (b : Broadcaster B) (event : GatewayEvent J T) :
    Broadcaster B × Except BroadcastError ℕ :=
  match B.send b.sender event with
  | (sender, some n) => (⟨sender⟩, .ok n)
  | (sender, none) => (⟨sender⟩, .error (.broadcast text))

/-- `send_to_room`. -/
def sendToRoom (b : Broadcaster B) (event : GatewayEvent J T) (roomId : String) :
    Broadcaster B × Except BroadcastError ℕ :=
  if event.roomId = some roomId then b.send text event else (b, .ok 0)

/-- `receiver_count`. -/
def receiverCount (b : Broadcaster B) : ℕ := B.receiverCount b.sender

/-- `Receiver::try_recv` of the subscriber `rx`. -/
def recv (b : Broadcaster B) (rx : ℕ) : Broadcaster B × Option (Received (GatewayEvent J T)) :=
  (⟨(B.recv b.sender rx).1⟩, (B.recv b.sender rx).2)

/-- The subscriber `rx` is dropped. -/
def dropRx (b : Broadcaster B) (rx : ℕ) : Broadcaster B := ⟨B.drop b.sender rx⟩

/-- `Receiver::len`. -/
def unread (b : Broadcaster B) (rx : ℕ) : ℕ := B.len b.sender rx

/-- A call of a sender or a subscriber. -/
inductive Call (J T : Type*)
  | send (event : GatewayEvent J T)
  | sendToRoom (event : GatewayEvent J T) (roomId : String)
  | subscribe
  | receiverCount
  | recv (rx : ℕ)
  | dropRx (rx : ℕ)
deriving DecidableEq

/-- What it returns. -/
inductive Reply (J T : Type*)
  | sent (r : Except BroadcastError ℕ)
  | receiver (rx : ℕ)
  | count (n : ℕ)
  | received (o : Option (Received (GatewayEvent J T)))
  | unit

/-- One call. -/
def step (b : Broadcaster B) : Call J T → Broadcaster B × Reply J T
  | .send event => (b.send text event).map id .sent
  | .sendToRoom event roomId => (b.sendToRoom text event roomId).map id .sent
  | .subscribe => (b.subscribe.1, .receiver b.subscribe.2)
  | .receiverCount => (b, .count b.receiverCount)
  | .recv rx => ((b.recv rx).1, .received (b.recv rx).2)
  | .dropRx rx => (b.dropRx rx, .unit)

/-- A broadcaster in use. -/
def machine : Machine (Broadcaster B) (Call J T) (Reply J T) := ⟨step text⟩

/-- What the subscriber `rx` receives in a run. -/
def received (rx : ℕ) (b : Broadcaster B) (calls : List (Call J T)) :
    List (Received (GatewayEvent J T)) :=
  ((machine text).trace b calls).flatMap fun p =>
    match p.2 with
    | .recv rx' => if rx' = rx then (p.1.recv rx).2.toList else []
    | _ => []

/-- The subscriber has at most `n` events unread when it receives. -/
def KeepsUp (n rx : ℕ) (b : Broadcaster B) (call : Call J T) : Prop :=
  call = .recv rx → b.unread rx ≤ n

/-- The event a call relays to all subscribers. -/
def relayed : Call J T → Option (GatewayEvent J T)
  | .send event => some event
  | .sendToRoom event roomId => if event.roomId = some roomId then some event else none
  | _ => none

/-- The event a call sends to a room, or, for `none`, to no room. -/
def sentTo (room : Option String) : Call J T → Option (GatewayEvent J T)
  | .send event => if event.roomId = room then some event else none
  | .sendToRoom event roomId =>
    if event.roomId = some roomId ∧ room = some roomId then some event else none
  | _ => none

/-! ### The channel of a broadcaster -/

/-- The call on the channel that a call makes. -/
def onChannel : Call J T → Option (Broadcast.Call (GatewayEvent J T))
  | .send event => some (.send event)
  | .sendToRoom event roomId => if event.roomId = some roomId then some (.send event) else none
  | .subscribe => some .subscribe
  | .receiverCount => none
  | .recv rx => some (.recv rx)
  | .dropRx rx => some (.drop rx)

section Channel

variable {text} {b : Broadcaster B}

/-- A send is one on the channel. -/
theorem send_sender (event : GatewayEvent J T) :
    (b.send text event).1.sender = (B.send b.sender event).1 := by
  unfold send
  rcases B.send b.sender event with ⟨sender, _ | n⟩ <;> rfl

/-- **A call of a broadcaster makes at most one call on the channel**: an event
with another room than that of its `send_to_room` makes none. -/
theorem step_sender (call : Call J T) :
    (b.step text call).1.sender =
      (onChannel call).elim b.sender fun c => (B.step b.sender c).1 := by
  cases call with
  | send event => exact send_sender event
  | sendToRoom event roomId =>
    show (b.sendToRoom text event roomId).1.sender = (if event.roomId = some roomId
      then some (Broadcast.Call.send event) else none).elim b.sender fun c => (B.step b.sender c).1
    unfold sendToRoom
    split_ifs
    · exact send_sender event
    · rfl
  | _ => rfl

variable (B text) in
/-- Senders and subscribers use the channel. -/
def uses : Broadcast.Uses (machine (B := B) text) B where
  chan b := b.sender
  call := onChannel
  chan_step _ call := step_sender call

/-- What a subscriber receives, it receives from the channel. -/
theorem received_eq (rx : ℕ) (calls : List (Call J T)) :
    received text rx b calls = B.received rx b.sender ((uses B text).calls calls) := by
  refine Eq.trans ?_ ((uses B text).flatMap_trace (B.got rx) b calls)
  refine congrArg (fun f => List.flatMap f _) (funext fun p => ?_)
  rcases p with ⟨b, call⟩
  cases call with
  | sendToRoom event roomId =>
    show [] = (if event.roomId = some roomId then some (Broadcast.Call.send event) else none).elim
      [] (B.got rx b.sender)
    split_ifs <;> rfl
  | _ => rfl

/-- The channel after a run. -/
theorem sender_run (calls : List (Call J T)) :
    ((machine text).run b calls).sender = B.machine.run b.sender ((uses B text).calls calls) :=
  (uses B text).chan_run b calls

/-- What is sent on the channel are the events relayed. -/
theorem sends_eq (calls : List (Call J T)) :
    ((uses B text).calls calls).flatMap Broadcast.Call.sends = calls.filterMap relayed := by
  induction calls with
  | nil => rfl
  | cons call calls ih =>
    have hsends : (onChannel call).toList.flatMap Broadcast.Call.sends = (relayed call).toList := by
      cases call with
      | sendToRoom event roomId =>
        simp only [onChannel, relayed]
        split_ifs <;> rfl
      | _ => rfl
    rw [Broadcast.Uses.calls_cons, List.flatMap_append, ih, List.filterMap_cons]
    refine (congrArg (· ++ _) hsends).trans ?_
    rcases relayed call with _ | event <;> rfl

/-- What is relayed of a room is what is sent to it. -/
theorem filter_relayed (room : Option String) (calls : List (Call J T)) :
    (calls.filterMap relayed).filter (fun event => event.roomId = room) =
      calls.filterMap (sentTo room) := by
  rw [List.filter_filterMap]
  refine congrArg (fun f => List.filterMap f calls) (funext fun call => ?_)
  cases call with
  | send event =>
    show (some event).filter (fun event => event.roomId = room) = _
    rw [Option.filter_some]
    exact if_congr decide_eq_true_iff rfl rfl
  | sendToRoom event roomId =>
    show (if event.roomId = some roomId then some event else none).filter
      (fun event => event.roomId = room) =
        if event.roomId = some roomId ∧ room = some roomId then some event else none
    by_cases hroom : event.roomId = some roomId
    · rw [if_pos hroom, Option.filter_some, hroom]
      exact if_congr (decide_eq_true_iff.trans (eq_comm.trans (and_iff_right rfl).symm)) rfl rfl
    · rw [if_neg hroom, if_neg fun hboth => hroom hboth.1]
      rfl
  | _ => rfl

/-- Only its own calls make a subscriber receive. -/
theorem onChannel_eq_recv {rx : ℕ} {call : Call J T} (h : onChannel call = some (.recv rx)) :
    call = .recv rx := by
  cases call with
  | sendToRoom event roomId =>
    change (if event.roomId = some roomId then some (Broadcast.Call.send event) else none) =
      some (.recv rx) at h
    split_ifs at h
    exact nomatch Option.some.inj h
  | recv rx' =>
    obtain rfl := Broadcast.Call.recv.inj (Option.some.inj h)
    rfl
  | receiverCount => exact nomatch h
  | _ => exact nomatch Option.some.inj h

/-- Only its own call drops a subscriber. -/
theorem onChannel_eq_drop {rx : ℕ} {call : Call J T} (h : onChannel call = some (.drop rx)) :
    call = .dropRx rx := by
  cases call with
  | sendToRoom event roomId =>
    change (if event.roomId = some roomId then some (Broadcast.Call.send event) else none) =
      some (.drop rx) at h
    split_ifs at h
    exact nomatch Option.some.inj h
  | dropRx rx' =>
    obtain rfl := Broadcast.Call.drop.inj (Option.some.inj h)
    rfl
  | receiverCount => exact nomatch h
  | _ => exact nomatch Option.some.inj h

variable (text) in
/-- The channel has come to some ledger, whatever is called. -/
theorem reached_run {capacity : ℕ} (h : new B capacity = some b) (calls : List (Call J T)) :
    ∃ L, B.Reached capacity ((machine text).run b calls).sender L := by
  obtain ⟨c, L, rfl, hL, -⟩ := Broadcast.reached_dropped
    (f := fun sender => (⟨sender⟩ : Broadcaster B)) h
  rw [sender_run]
  exact ⟨_, hL.run _⟩

end Channel

/-- **What a send returns**: the number of receivers, an error if there are none,
and zero for another room than that of the event. -/
theorem send_eq (laws : B.Laws) {capacity : ℕ} {b₀ : Broadcaster B}
    (h : new B capacity = some b₀) (calls : List (Call J T)) (event : GatewayEvent J T) :
    let b := (machine text).run b₀ calls
    let r := if b.receiverCount = 0 then .error (.broadcast text) else .ok b.receiverCount
    (b.send text event).2 = r ∧
      ∀ roomId, (b.sendToRoom text event roomId).2 =
        if event.roomId = some roomId then r else .ok 0 := by
  intro b r
  obtain ⟨L, hL⟩ := reached_run text h calls
  have hcount : b.receiverCount = L.cursors.keys.card := laws.receiverCount_eq hL
  have hsend : (b.send text event).2 = r := by
    have hsent := laws.send_eq event hL
    rw [← hcount] at hsent
    unfold send
    rcases hs : B.send b.sender event with ⟨sender, o⟩
    obtain rfl : o = _ := (congrArg Prod.snd hs).symm.trans hsent
    show _ = if b.receiverCount = 0 then _ else _
    split_ifs <;> rfl
  refine ⟨hsend, fun roomId => ?_⟩
  unfold sendToRoom
  split_ifs with hroom
  · exact hsend
  · rfl

/-- **What a subscriber gets of one room.**  Of the events of a room, a
subscriber that is not dropped gets those sent to the room after it subscribed,
by `send` or by a `send_to_room` of their own room, in their order; all from its
subscription on if it misses nothing of any room, as when it never has more than
the configured capacity of events of all rooms unread, and exactly these once
there is nothing to receive.  Nothing else is ever received: of an event with
another room than that of its `send_to_room`, nobody hears. -/
theorem events_by_room (laws : B.Laws) {capacity : ℕ} {b₀ : Broadcaster B}
    (h : new B capacity = some b₀) (pre calls : List (Call J T)) (room : Option String) :
    let b := (machine text).run b₀ pre
    let rx := b.subscribe.2
    let rs := received text rx b.subscribe.1 calls
    let got := (Received.values rs).filter fun event => event.roomId = room
    .dropRx rx ∉ calls →
      got.Sublist (calls.filterMap (sentTo room)) ∧
      (Received.skipped rs = 0 → got <+: calls.filterMap (sentTo room)) ∧
      (Received.skipped rs = 0 →
        (((machine text).run b.subscribe.1 calls).recv rx).2 = some .empty →
        got = calls.filterMap (sentTo room)) ∧
      ((machine text).Along (KeepsUp capacity rx) b.subscribe.1 calls →
        Received.skipped rs = 0) := by
  intro b rx rs got hkeep
  obtain ⟨L, hL⟩ := reached_run text h pre
  have hdrop : ∀ call ∈ calls, onChannel call ≠ some (.drop rx) := fun call hcall hc =>
    hkeep (onChannel_eq_drop hc ▸ hcall)
  have hsub : (uses B text).chan b.subscribe.1 = (B.subscribe b.sender).1 := rfl
  obtain ⟨q, hreads, -, hend, hup⟩ :=
    (uses B text).reads_subscribe laws hL hsub rfl hdrop
  have hrs : rs = B.received rx b.subscribe.1.sender ((uses B text).calls calls) :=
    received_eq rx calls
  rw [sends_eq] at hreads hend
  replace hreads : Broadcast.Reads (calls.filterMap relayed) 0 rs q := hrs ▸ hreads
  have hall (hnone : Received.skipped rs = 0) :
      Received.values rs = (calls.filterMap relayed).take q := hreads.complete hnone
  rw [← filter_relayed]
  refine ⟨hreads.sublist.filter _, fun hnone => ?_, fun hnone hempty => ?_, fun halong => ?_⟩
  · show (Received.values rs).filter _ <+: _
    rw [hall hnone]
    exact (List.take_prefix q _).filter _
  · have hq : q = (calls.filterMap relayed).length := hend hempty
    show (Received.values rs).filter _ = _
    rw [hall hnone, hq, List.take_length]
  · rw [hrs]
    exact hup (halong.mono fun _ _ hup hc => hup (onChannel_eq_recv hc))

/-- Two events of the room `r` and one of the room `s`; a third one of `r` goes
nowhere. -/
def twoRooms : List (Call Unit ℕ) :=
  [.sendToRoom ((GatewayEvent.new "message_create" () 1).withRoom "r") "r",
    .sendToRoom ((GatewayEvent.new "message_create" () 2).withRoom "r") "s",
    .send ((GatewayEvent.new "typing_start" () 3).withRoom "s"),
    .send ((GatewayEvent.new "room_leave" () 4).withRoom "r"), .recv 1, .recv 1, .recv 1]

/-- A broadcaster of four events, on a ring buffer. -/
def four : Broadcaster (RingBuffer.broadcast 1024 : Broadcast (GatewayEvent Unit ℕ)) :=
  ⟨(RingBuffer.new 4).1.drop 0⟩

/-- A subscriber gets two of the three events given for `r`. -/
theorem events_by_room_twoRooms :
    (Received.values (received "" 1 four.subscribe.1 twoRooms)).filter
        (fun event => event.roomId = some "r") =
      [(GatewayEvent.new "message_create" () 1).withRoom "r",
        (GatewayEvent.new "room_leave" () 4).withRoom "r"] :=
  (events_by_room "" (RingBuffer.laws 1024)
    (rfl : new (RingBuffer.broadcast 1024) 4 = some four) [] twoRooms (some "r")
    (by decide)).2.2.1 rfl rfl

end Broadcaster
end Denshin
