/-
# The event broadcaster

`src/broadcaster.rs`.  An `EventBroadcaster` holds the sending end of a tokio
broadcast channel of strings, which its clones share, and the capacity it was
configured with.  `publish` serializes an event and puts the text on the
channel; a publication that nobody listens to is not an error.  A gateway
publishes and subscribes through the broadcaster of its `broadcast_capacity`
(`GatewayConfig.broadcaster`), without its lock.

Outside the repository, and so arguments here, are the channel (`B`) and the
serializer (`ser`, with `serde_json::Error` as `ε`).  Of the channel the results
rely on what its documentation says of single calls (`Broadcast.Laws`).  Every
method makes at most one call on the channel, which orders them; a run is any
sequence of calls of the publishers and subscribers.  The broadcaster outlives
its subscribers, so that none of them finds the channel closed.  The examples are
run on a ring buffer.
-/

import Denshin.Basis.RingBuffer
import Denshin.Gateway.WsGateway

namespace Denshin

open Basis

/-- `DenshinError`, as far as it is returned here; `ε` is `serde_json::Error`.
The errors of rooms are `RoomError`, that of `broadcast.rs` is `BroadcastError`. -/
inductive DenshinError (ε : Type*)
  | serialize (e : ε)
deriving DecidableEq

/-- `BroadcasterConfig`. -/
structure BroadcasterConfig where
  capacity : ℕ

/-- `BroadcasterConfig::default`. -/
def BroadcasterConfig.default : BroadcasterConfig := ⟨1024⟩

/-- `EventBroadcaster`. -/
structure EventBroadcaster (B : Broadcast String) where
  tx : B.State
  capacity : ℕ

namespace EventBroadcaster

section Construction

variable (B : Broadcast String)

/-- `with_config`; `none` is a panic of `broadcast::channel`. -/
def withConfig (config : BroadcasterConfig) : Option (EventBroadcaster B) :=
  (B.channel config.capacity).map fun p => ⟨B.drop p.1 p.2, config.capacity⟩

/-- `EventBroadcaster::new`. -/
def new : Option (EventBroadcaster B) := withConfig B .default

/-- `with_capacity`. -/
def withCapacity (capacity : ℕ) : Option (EventBroadcaster B) := withConfig B ⟨capacity⟩

end Construction

variable {B : Broadcast String} {E ε : Type*} (ser : E → Except ε String)

/-- `publish_raw`. -/
def publishRaw (b : EventBroadcaster B) (message : String) :
    EventBroadcaster B × Except (DenshinError ε) ℕ :=
  match B.send b.tx message with
  | (tx, some n) => ({ b with tx := tx }, .ok n)
  | (tx, none) => ({ b with tx := tx }, .ok 0)

/-- `publish`. -/
def publish (b : EventBroadcaster B) (event : E) :
    EventBroadcaster B × Except (DenshinError ε) ℕ :=
  match ser event with
  | .error e => (b, .error (.serialize e))
  | .ok json => b.publishRaw json

/-- `subscribe`. -/
def subscribe (b : EventBroadcaster B) : EventBroadcaster B × ℕ :=
  ({ b with tx := (B.subscribe b.tx).1 }, (B.subscribe b.tx).2)

/-- `subscriber_count`. -/
def subscriberCount (b : EventBroadcaster B) : ℕ := B.receiverCount b.tx

/-- `Receiver::try_recv` of the subscriber `rx`. -/
def recv (b : EventBroadcaster B) (rx : ℕ) : EventBroadcaster B × Option (Received String) :=
  ({ b with tx := (B.recv b.tx rx).1 }, (B.recv b.tx rx).2)

/-- The subscriber `rx` is dropped. -/
def dropRx (b : EventBroadcaster B) (rx : ℕ) : EventBroadcaster B :=
  { b with tx := B.drop b.tx rx }

/-- `Receiver::len`. -/
def unread (b : EventBroadcaster B) (rx : ℕ) : ℕ := B.len b.tx rx

/-- A call of a publisher or a subscriber. -/
inductive Call (E : Type*)
  | publish (event : E)
  | publishRaw (message : String)
  | subscribe
  | subscriberCount
  | recv (rx : ℕ)
  | dropRx (rx : ℕ)
deriving DecidableEq

/-- What it returns. -/
inductive Reply (ε : Type*)
  | published (r : Except (DenshinError ε) ℕ)
  | receiver (rx : ℕ)
  | count (n : ℕ)
  | received (o : Option (Received String))
  | unit

/-- One call. -/
def step (b : EventBroadcaster B) : Call E → EventBroadcaster B × Reply ε
  | .publish event => (b.publish ser event).map id .published
  | .publishRaw message => (b.publishRaw message).map id .published
  | .subscribe => (b.subscribe.1, .receiver b.subscribe.2)
  | .subscriberCount => (b, .count b.subscriberCount)
  | .recv rx => ((b.recv rx).1, .received (b.recv rx).2)
  | .dropRx rx => (b.dropRx rx, .unit)

/-- A broadcaster in use. -/
def machine : Machine (EventBroadcaster B) (Call E) (Reply ε) := ⟨step ser⟩

/-- The text a call publishes: none if the event cannot be serialized. -/
def text? : Call E → Option String
  | .publish event => (ser event).toOption
  | .publishRaw message => some message
  | _ => none

/-- What the subscriber `rx` receives in a run. -/
def received (rx : ℕ) (b : EventBroadcaster B) (calls : List (Call E)) : List (Received String) :=
  ((machine ser).trace b calls).flatMap fun p =>
    match p.2 with
    | .recv rx' => if rx' = rx then (p.1.recv rx).2.toList else []
    | _ => []

/-- The number of receivers that an answer reports. -/
def Reply.reported : Reply ε → ℕ
  | published (.ok n) => n
  | _ => 0

/-- What becomes of a text for one of its receivers: it is received or reported
missed, or still unread when the receiver is dropped. -/
def settled (b : EventBroadcaster B) : Call E → ℕ
  | .recv rx =>
    match (b.recv rx).2 with
    | some (.value _) => 1
    | some (.lagged n) => n
    | _ => 0
  | .dropRx rx => b.unread rx
  | _ => 0

/-- Who has subscribed in a run and was not dropped. -/
def subscribers (b : EventBroadcaster B) (calls : List (Call E)) : Finset ℕ :=
  ((machine ser).trace b calls).foldl (fun rxs p =>
    match p.2 with
    | .subscribe => insert p.1.subscribe.2 rxs
    | .dropRx rx => rxs.erase rx
    | _ => rxs) ∅

/-- The events of a run whose publication succeeds. -/
def accepted (b : EventBroadcaster B) (calls : List (Call E)) : List E :=
  ((machine ser).trace b calls).filterMap fun p =>
    match p.2 with
    | .publish event => if (p.1.publish ser event).2.isOk then some event else none
    | _ => none

/-- The subscriber has at most `n` texts unread when it receives. -/
def KeepsUp (n rx : ℕ) (b : EventBroadcaster B) (call : Call E) : Prop :=
  call = .recv rx → b.unread rx ≤ n

/-! ### The channel of a broadcaster -/

/-- The call on the channel that a call makes. -/
def onChannel : Call E → Option (Broadcast.Call String)
  | .publish event => (ser event).toOption.map .send
  | .publishRaw message => some (.send message)
  | .subscribe => some .subscribe
  | .subscriberCount => none
  | .recv rx => some (.recv rx)
  | .dropRx rx => some (.drop rx)

/-- The event a call publishes, if it can be serialized. -/
def event? : Call E → Option E
  | .publish event => if (ser event).isOk then some event else none
  | _ => none

section Channel

variable {ser} {b : EventBroadcaster B}

/-- A publication is a send. -/
theorem publishRaw_tx (message : String) :
    (b.publishRaw message : EventBroadcaster B × Except (DenshinError ε) ℕ).1.tx =
      (B.send b.tx message).1 := by
  unfold publishRaw
  rcases B.send b.tx message with ⟨tx, _ | n⟩ <;> rfl

/-- A publication returns what its send returns, zero if that fails. -/
theorem publishRaw_eq (message : String) :
    (b.publishRaw message : EventBroadcaster B × Except (DenshinError ε) ℕ).2 =
      .ok ((B.send b.tx message).2.getD 0) := by
  unfold publishRaw
  rcases B.send b.tx message with ⟨tx, _ | n⟩ <;> rfl

/-- An event is published as its text, and an error is returned if it has none. -/
theorem publish_eq (event : E) :
    (b.publish ser event).2 = match ser event with
      | .error e => .error (.serialize e)
      | .ok json => .ok ((B.send b.tx json).2.getD 0) := by
  unfold publish
  rcases ser event with e | json
  · rfl
  · exact publishRaw_eq json

/-- **A call of a broadcaster makes at most one call on the channel.** -/
theorem step_tx (call : Call E) :
    (b.step ser call).1.tx = (onChannel ser call).elim b.tx fun c => (B.step b.tx c).1 := by
  cases call with
  | publish event =>
    show (b.publish ser event).1.tx =
      ((ser event).toOption.map Broadcast.Call.send).elim b.tx fun c => (B.step b.tx c).1
    unfold publish
    rcases ser event with e | json
    · rfl
    · exact publishRaw_tx json
  | publishRaw message => exact publishRaw_tx message
  | _ => rfl

variable (B ser) in
/-- Publishers and subscribers use the channel. -/
def uses : Broadcast.Uses (machine (B := B) ser) B where
  chan b := b.tx
  call := onChannel ser
  chan_step _ call := step_tx call

/-- The channel after a run. -/
theorem tx_run (calls : List (Call E)) :
    ((machine ser).run b calls).tx = B.machine.run b.tx ((uses B ser).calls calls) :=
  (uses B ser).chan_run b calls

/-- What a subscriber receives, it receives from the channel. -/
theorem received_eq (rx : ℕ) (calls : List (Call E)) :
    received ser rx b calls = B.received rx b.tx ((uses B ser).calls calls) := by
  refine Eq.trans ?_ ((uses B ser).flatMap_trace (B.got rx) b calls)
  refine congrArg (fun f => List.flatMap f _) (funext fun p => ?_)
  rcases p with ⟨b, call⟩
  cases call with
  | publish event =>
    show [] = ((ser event).toOption.map Broadcast.Call.send).elim [] (B.got rx b.tx)
    rcases ser event with e | json <;> rfl
  | _ => rfl

/-- A new broadcaster has the ledger of a channel without receivers. -/
theorem reached_of_withConfig {config : BroadcasterConfig} (h : withConfig B config = some b) :
    ∃ L, B.Reached config.capacity b.tx L ∧ L.cursors.keys = ∅ := by
  obtain ⟨c, L, rfl, hL, hnone⟩ := Broadcast.reached_dropped
    (f := fun tx => (⟨tx, config.capacity⟩ : EventBroadcaster B)) h
  exact ⟨L, hL, hnone⟩

variable (ser) in
/-- The channel has come to some ledger, whatever is called. -/
theorem reached_run {config : BroadcasterConfig} (h : withConfig B config = some b)
    (calls : List (Call E)) :
    ∃ L, B.Reached config.capacity ((machine ser).run b calls).tx L := by
  obtain ⟨L, hL, -⟩ := reached_of_withConfig h
  rw [tx_run]
  exact ⟨_, hL.run _⟩

/-- Only its own calls make a subscriber receive, or drop it. -/
theorem onChannel_eq {rx : ℕ} {call : Call E} :
    (onChannel ser call = some (.recv rx) → call = .recv rx) ∧
      (onChannel ser call = some (.drop rx) → call = .dropRx rx) := by
  cases call with
  | publish event =>
    show ((ser event).toOption.map Broadcast.Call.send = _ → _) ∧
      ((ser event).toOption.map Broadcast.Call.send = _ → _)
    rcases ser event with e | json <;> simp [Except.toOption]
  | _ => simp [onChannel]

/-- What is sent on the channel are the texts of the publications. -/
theorem sends_eq (calls : List (Call E)) :
    ((uses B ser).calls calls).flatMap Broadcast.Call.sends = calls.filterMap (text? ser) := by
  induction calls with
  | nil => rfl
  | cons call calls ih =>
    have hsends : (onChannel ser call).toList.flatMap Broadcast.Call.sends =
        (text? ser call).toList := by
      cases call with
      | publish event =>
        show ((ser event).toOption.map Broadcast.Call.send).toList.flatMap _ =
          (ser event).toOption.toList
        rcases ser event with e | json <;> rfl
      | _ => rfl
    rw [Broadcast.Uses.calls_cons, List.flatMap_append, ih, List.filterMap_cons]
    refine (congrArg (· ++ _) hsends).trans ?_
    rcases text? ser call with _ | t <;> rfl

variable (ser) in
/-- **What a new subscriber reads** are the texts published after it subscribed,
if it is not dropped. -/
theorem reads_subscriber (laws : B.Laws) {config : BroadcasterConfig} {b₀ : EventBroadcaster B}
    (h : withConfig B config = some b₀) (pre : List (Call E)) {calls : List (Call E)} :
    let b := (machine ser).run b₀ pre
    let rx := b.subscribe.2
    let rs := received ser rx b.subscribe.1 calls
    let es := calls.filterMap (text? ser)
    .dropRx rx ∉ calls → ∃ q, Broadcast.Reads es 0 rs q ∧ q ≤ es.length ∧
      ((((machine ser).run b.subscribe.1 calls).recv rx).2 = some .empty → q = es.length) ∧
      ((machine ser).Along (KeepsUp config.capacity rx) b.subscribe.1 calls →
        Received.skipped rs = 0) := by
  intro b rx rs es hkeep
  obtain ⟨L, hL⟩ := reached_run ser h pre
  have hdrop : ∀ call ∈ calls, onChannel ser call ≠ some (.drop rx) := fun call hcall hc =>
    hkeep (onChannel_eq.2 hc ▸ hcall)
  have hsub : (uses B ser).chan b.subscribe.1 = (B.subscribe b.tx).1 := rfl
  obtain ⟨q, hreads, hle, hend, hup⟩ :=
    (uses B ser).reads_subscribe laws hL hsub rfl hdrop
  have hrs : rs = B.received rx b.subscribe.1.tx ((uses B ser).calls calls) :=
    received_eq rx calls
  rw [sends_eq] at hreads hle hend
  rw [hrs]
  exact ⟨q, hreads, hle, hend, fun halong =>
    hup (halong.mono fun _ _ hup hc => hup (onChannel_eq.1 hc))⟩

/-- The number a call reports is that of its send. -/
theorem reported_step (call : Call E) :
    (b.step ser call).2.reported = (onChannel ser call).elim 0 (B.counted b.tx) := by
  cases call with
  | publish event =>
    show (Reply.published (b.publish ser event).2).reported =
      ((ser event).toOption.map Broadcast.Call.send).elim 0 (B.counted b.tx)
    rw [publish_eq]
    rcases ser event with e | json <;> rfl
  | publishRaw message =>
    show (Reply.published (b.publishRaw message).2).reported = _
    rw [publishRaw_eq]
    rfl
  | _ => rfl

/-- The numbers reported in a run, call by call. -/
theorem reported_trace (calls : List (Call E)) :
    (((machine ser).answers b calls).map Reply.reported).sum =
      (((machine ser).trace b calls).map fun p =>
        (onChannel ser p.2).elim 0 (B.counted p.1.tx)).sum := by
  induction calls generalizing b with
  | nil => rfl
  | cons call calls ih =>
    rw [Machine.answers, Machine.trace, List.map_cons, List.map_cons, List.sum_cons,
      List.sum_cons, ih]
    exact congrArg (· + _) (reported_step call)

variable (ser) in
/-- What a call settles is settled on the channel. -/
theorem settled_eq (call : Call E) :
    b.settled call = (onChannel ser call).elim 0 (B.settled b.tx) := by
  cases call with
  | publish event =>
    show 0 = ((ser event).toOption.map Broadcast.Call.send).elim 0 (B.settled b.tx)
    rcases ser event with e | json <;> rfl
  | recv rx =>
    show (match (B.recv b.tx rx).2 with
      | some (.value _) => 1
      | some (.lagged n) => n
      | _ => 0) = (B.recv b.tx rx).2.elim 0 Received.passed
    rcases (B.recv b.tx rx).2 with _ | (a | n | _) <;> rfl
  | _ => rfl

/-- The subscribers are the receivers of the channel. -/
theorem subscribers_eq (laws : B.Laws) {n : ℕ} {L : Ledger String} (h : B.Reached n b.tx L)
    (hnone : L.cursors.keys = ∅) (calls : List (Call E)) :
    subscribers ser b calls =
      (B.ledger b.tx L ((uses B ser).calls calls)).cursors.keys := by
  rw [Broadcast.keys_ledger laws h, hnone]
  refine Eq.trans ?_ ((uses B ser).foldl_trace B.live ∅ b calls)
  refine congrArg (fun f => List.foldl f ∅ _) (funext fun rxs => funext fun p => ?_)
  rcases p with ⟨b, call⟩
  cases call with
  | publish event =>
    show rxs = ((ser event).toOption.map Broadcast.Call.send).elim rxs (B.live rxs b.tx)
    rcases ser event with e | json <;> rfl
  | _ => rfl

/-- A publication of an event succeeds exactly if its serialization does. -/
theorem publish_isOk (event : E) : (b.publish ser event).2.isOk = (ser event).isOk := by
  rw [publish_eq]
  rcases ser event with e | json <;> rfl

/-- Which events are accepted is decided by the serializer. -/
theorem accepted_eq (calls : List (Call E)) :
    b.accepted ser calls = calls.filterMap (event? ser) := by
  have h := List.filterMap_map (f := Prod.snd) (g := event? ser) (l := (machine ser).trace b calls)
  rw [Machine.trace_map_snd] at h
  rw [h]
  refine congrArg (fun f => List.filterMap f _) (funext fun p => ?_)
  rcases p with ⟨b, call⟩
  cases call with
  | publish event =>
    show (if (b.publish ser event).2.isOk then some event else none) = _
    rw [publish_isOk]
    rfl
  | _ => rfl

/-- Reading back the texts published gives the events accepted. -/
theorem texts_map_de {de : String → Option E} (hde : ∀ e json, ser e = .ok json → de json = some e)
    {calls : List (Call E)} (htyped : ∀ message, .publishRaw message ∉ calls) :
    (calls.filterMap (text? ser)).map de = (b.accepted ser calls).map some := by
  rw [accepted_eq]
  induction calls with
  | nil => rfl
  | cons call calls ih =>
    have hrest := ih fun message hmem => htyped message (List.mem_cons_of_mem call hmem)
    cases call with
    | publish event =>
      rcases hser : ser event with e | json
      · have hnone : event? ser (.publish event) = none := by
          rw [event?, hser]
          rfl
        have htext : text? ser (.publish event) = none := by
          rw [text?, hser]
          rfl
        rw [List.filterMap_cons_none hnone, List.filterMap_cons_none htext, hrest]
      · have hsome : event? ser (.publish event) = some event := by
          rw [event?, hser]
          rfl
        have htext : text? ser (.publish event) = some json := by
          rw [text?, hser]
          rfl
        rw [List.filterMap_cons_some hsome, List.filterMap_cons_some htext, List.map_cons,
          List.map_cons, hrest, hde event json hser]
    | publishRaw message => exact absurd List.mem_cons_self (htyped message)
    | _ => exact hrest

end Channel

/-! ### What subscribers get -/

section Subscriber

variable {config : BroadcasterConfig} {b₀ : EventBroadcaster B}

/-- **Nothing is lost without notice.**  What a subscriber that is not dropped
receives are texts published after it subscribed, in the order in which they were
published and none twice.  Those that it did not receive and that are not ahead
of it were reported missed: once there is nothing to receive, the texts received
and the number reported make up all that was published.  If it never has more
than the configured capacity unread when it receives, it misses none. -/
theorem received_in_order (laws : B.Laws) (h : withConfig B config = some b₀)
    (pre calls : List (Call E)) :
    let b := (machine ser).run b₀ pre
    let rx := b.subscribe.2
    let rs := received ser rx b.subscribe.1 calls
    let es := calls.filterMap (text? ser)
    let q := (Received.values rs).length + Received.skipped rs
    .dropRx rx ∉ calls →
      (∃ is : List ℕ, is.Pairwise (· < ·) ∧ (∀ i ∈ is, i < q) ∧
        is.map (fun i => es[i]?) = (Received.values rs).map some) ∧
      q ≤ es.length ∧
      ((((machine ser).run b.subscribe.1 calls).recv rx).2 = some .empty → q = es.length) ∧
      ((machine ser).Along (KeepsUp config.capacity rx) b.subscribe.1 calls →
        Received.skipped rs = 0 ∧ Received.values rs <+: es) := by
  intro b rx rs es q hkeep
  obtain ⟨q', hreads, hle, hend, hup⟩ := reads_subscriber ser laws h pre hkeep
  have hcount : 0 + (Received.values rs).length + Received.skipped rs = q' := hreads.count
  have hq : q = q' := by omega
  obtain ⟨is, hsorted, hrange, hvalues⟩ := hreads.positions
  refine ⟨⟨is, hsorted, fun i hi => ?_, hvalues⟩, ?_, fun hempty => ?_, fun halong => ?_⟩
  · rw [hq]
    exact (hrange i hi).2
  · rw [hq]
    exact hle
  · rw [hq]
    exact hend hempty
  · have hnone := hup halong
    refine ⟨hnone, ?_⟩
    have hall : Received.values rs = es.take (q' - 0) := hreads.complete hnone
    rw [hall]
    exact List.take_prefix _ _

/-- A broadcaster of two texts, on a ring buffer. -/
def pair : EventBroadcaster (RingBuffer.broadcast 1024) := ⟨(RingBuffer.new 2).1.drop 0, 2⟩

/-- It is what `with_config` gives for the capacity two. -/
theorem withConfig_pair : withConfig (RingBuffer.broadcast 1024) ⟨2⟩ = some pair := rfl

/-- Three texts for a subscriber that is slow. -/
def slow : List (Call String) :=
  [.publishRaw "1", .publish "2", .publishRaw "3", .recv 1, .recv 1, .recv 1]

/-- It receives the last two and is told that it missed one. -/
theorem received_in_order_slow :
    (∃ is : List ℕ, is.Pairwise (· < ·) ∧
      is.map (fun i => ["1", "2", "3"][i]?) = [some "2", some "3"]) ∧ 2 + 1 = 3 := by
  obtain ⟨⟨is, hsorted, -, hvalues⟩, -, hend, -⟩ :=
    received_in_order (Except.ok : String → Except Empty String) (RingBuffer.laws 1024)
      withConfig_pair [] slow (by decide)
  exact ⟨⟨is, hsorted, hvalues⟩, hend rfl⟩

/-- **Events come out as they went in.**  Let `de` read back what `ser` writes.
A subscriber that is not dropped, of publishers of events only, reads events
whose publication succeeded after it subscribed, in their order: all of them
from its subscription on if it misses none, as it does if it never has more than
the configured capacity unread, and once there is nothing to receive, those it
reads and those reported missed are as many as succeeded. -/
theorem events_in_order (laws : B.Laws) {de : String → Option E}
    (hde : ∀ e json, ser e = .ok json → de json = some e)
    (h : withConfig B config = some b₀) (pre calls : List (Call E))
    (htyped : ∀ message, .publishRaw message ∉ calls) :
    let b := (machine ser).run b₀ pre
    let rx := b.subscribe.2
    let rs := received ser rx b.subscribe.1 calls
    let es := b.subscribe.1.accepted ser calls
    .dropRx rx ∉ calls → ∃ got : List E, (Received.values rs).map de = got.map some ∧
      got.Sublist es ∧ (Received.skipped rs = 0 → got <+: es) ∧
      ((machine ser).Along (KeepsUp config.capacity rx) b.subscribe.1 calls →
        Received.skipped rs = 0) ∧
      ((((machine ser).run b.subscribe.1 calls).recv rx).2 = some .empty →
        got.length + Received.skipped rs = es.length) := by
  intro b rx rs es hkeep
  obtain ⟨q, hreads, -, hend, hup⟩ := reads_subscriber ser laws h pre hkeep
  have hdec : (calls.filterMap (text? ser)).map de = es.map some := texts_map_de hde htyped
  have hsub := hreads.sublist.map de
  rw [List.drop_zero, hdec] at hsub
  obtain ⟨got, hgot, hvalues⟩ := List.sublist_map_iff.1 hsub
  refine ⟨got, hvalues, hgot, fun hnone => ?_, hup, fun hempty => ?_⟩
  · have hall : Received.values rs = (calls.filterMap (text? ser)).take (q - 0) :=
      hreads.complete hnone
    have hpre := (List.take_prefix (q - 0) (calls.filterMap (text? ser))).map de
    rw [← hall, hdec] at hpre
    exact (List.prefix_map_iff_of_injective (Option.some_injective E)).1 (hvalues ▸ hpre)
  · have hcount : 0 + (Received.values rs).length + Received.skipped rs = q := hreads.count
    have hlen := congrArg List.length hdec
    have hgotlen : ((Received.values rs).map de).length = (got.map some).length :=
      congrArg List.length hvalues
    have hq := hend hempty
    rw [List.length_map, List.length_map] at hlen hgotlen
    omega

/-- A serializer that refuses the empty event. -/
def refusing (event : String) : Except Unit String :=
  if event = "" then .error () else .ok event

/-- Two of three events can be serialized, and come out. -/
theorem events_in_order_refusing : ∃ got : List String,
    [some "a", some "b"] = got.map some ∧ got <+: ["a", "b"] ∧ got.length + 0 = 2 := by
  have hde : ∀ event json, refusing event = .ok json → some json = some event := by
    intro event json h
    unfold refusing at h
    split_ifs at h
    exact congrArg some (Except.ok.inj h).symm
  have h := events_in_order refusing (RingBuffer.laws 1024) hde withConfig_pair []
    [.publish "a", .publish "", .publish "b", .recv 1, .recv 1] (by simp)
  obtain ⟨got, hgot, -, hprefix, -, hlen⟩ := h (by decide)
  exact ⟨got, hgot, hprefix rfl, hlen rfl⟩

/-- **The numbers of receivers reported add up.**  A publication returns the
number of subscribers, none being no error, or the error of the serializer.  In
every run, each subscriber counted has received the text, was told that it
missed it, was dropped before it, or has still to read it. -/
theorem reported_eq (laws : B.Laws) (h : withConfig B config = some b₀) (calls : List (Call E)) :
    let b := (machine ser).run b₀ calls
    let rxs := subscribers ser b₀ calls
    (∀ message, (b.publishRaw message : _ × Except (DenshinError ε) ℕ).2 = .ok rxs.card) ∧
    (∀ event, (b.publish ser event).2 = match ser event with
      | .error e => .error (.serialize e)
      | .ok _ => .ok rxs.card) ∧
    b.subscriberCount = rxs.card ∧
    (((machine ser).answers b₀ calls).map Reply.reported).sum =
      (((machine ser).trace b₀ calls).map fun p => p.1.settled p.2).sum +
        ∑ rx ∈ rxs, b.unread rx := by
  intro b rxs
  obtain ⟨L, hL, hnone⟩ := reached_of_withConfig h
  have hend := hL.run ((uses B ser).calls calls)
  rw [← tx_run] at hend
  have hrxs : rxs = (B.ledger b₀.tx L ((uses B ser).calls calls)).cursors.keys :=
    subscribers_eq laws hL hnone calls
  have hsend (message : String) : (B.send b.tx message).2.getD 0 = rxs.card := by
    rw [laws.send_eq message hend, ← hrxs]
    split_ifs with hzero
    · exact hzero.symm
    · rfl
  refine ⟨fun message => ?_, fun event => ?_, ?_, ?_⟩
  · rw [publishRaw_eq, hsend]
  · rw [publish_eq]
    rcases ser event with e | json
    · rfl
    · exact congrArg Except.ok (hsend json)
  · exact (laws.receiverCount_eq hend).trans (congrArg Finset.card hrxs.symm)
  · have hsum := Broadcast.pending_run laws hL ((uses B ser).calls calls)
    have hzero : L.pending = 0 := by
      rw [Ledger.pending, hnone]
      rfl
    have hunread : ∑ rx ∈ rxs, b.unread rx =
        (B.ledger b₀.tx L ((uses B ser).calls calls)).pending := by
      rw [hrxs]
      exact Broadcast.pending_eq laws hend
    have hcounted : (((machine ser).trace b₀ calls).map fun p =>
        (onChannel ser p.2).elim 0 (B.counted p.1.tx)).sum =
          ((B.machine.trace b₀.tx ((uses B ser).calls calls)).map fun p =>
            B.counted p.1 p.2).sum := (uses B ser).sum_trace B.counted b₀ calls
    have hsettled : (((machine ser).trace b₀ calls).map fun p =>
        (onChannel ser p.2).elim 0 (B.settled p.1.tx)).sum =
          ((B.machine.trace b₀.tx ((uses B ser).calls calls)).map fun p =>
            B.settled p.1 p.2).sum := (uses B ser).sum_trace B.settled b₀ calls
    rw [reported_trace, hunread]
    simp only [settled_eq ser]
    rw [hcounted, hsettled]
    omega

/-- Three texts for two subscribers: one misses a text and leaves one unread,
the other is dropped before any. -/
def dropped : List (Call String) :=
  [.subscribe, .subscribe, .publish "1", .publishRaw "2", .publish "3", .recv 1, .recv 1, .dropRx 2]

/-- Three publications report two receivers each, and six texts are settled or pending. -/
theorem reported_eq_dropped :
    (((machine (Except.ok : String → Except Empty String)).answers pair dropped).map
      Reply.reported).sum = (1 + 1 + 3) + 1 :=
  (reported_eq (Except.ok : String → Except Empty String) (RingBuffer.laws 1024) withConfig_pair
    dropped).2.2.2

end Subscriber

end EventBroadcaster

/-- The broadcaster of a gateway, as `WsGateway::with_config` builds it. -/
def GatewayConfig.broadcaster (B : Broadcast String) (config : GatewayConfig) :
    Option (EventBroadcaster B) :=
  EventBroadcaster.withConfig B ⟨config.broadcastCapacity⟩

end Denshin
