/-
# The gateway

`src/gateway.rs`.  A `WsGateway` is a `ConnectionManager` behind a
readers-writer lock that its clones share.  Every method acquires the lock
once: the methods that change the manager for writing, the others, sends
included, for reading.  A method is modelled as the `Call` it makes on the
service `gateway`, whose guarded state is the manager (with the number of
channels opened so far) and whose outside state is the channels, since sending
changes those through a shared reference.

A fan-out is one step for each connection it walks, a push on the channel of
the connection if there is one.  Without interference the steps add up to the
manager's own method (`walk_eq_send`), and calls made one at a time are the
calls of a `World` (`serial_run_eq`).

The typed event broadcaster that a gateway also has shares nothing with its
connections and is left out.
-/

import Denshin.Basis.Guarded
import Denshin.Connection.World

namespace Denshin

open Basis

/-- `GatewayConfig`. -/
structure GatewayConfig where
  broadcastCapacity : ℕ
  heartbeatTimeout : Duration

/-- `GatewayConfig::default`. -/
def GatewayConfig.default : GatewayConfig where
  broadcastCapacity := 1024
  heartbeatTimeout := .fromSecs 60

/-- A push: for which connection, on which channel, what, and whether the
receiver was open. -/
structure Push where
  conn : ConnId
  chan : ℕ
  message : Message
  ok : Bool
deriving DecidableEq

/-- The methods that acquire the lock for reading. -/
inductive ReadOp
  | send (s : Send)
  | ask (q : Query)

/-- The successes of a send, as it returns them. -/
def Send.sent (n : ℕ) : Send → Sent
  | sendTo _ _ => .flag (n = 1)
  | _ => .count n

/-- The manager behind its lock. -/
def gateway : Service (ConnectionManager ℕ × ℕ) (Channels ℕ Message) (HashIter String × Op Unit)
    (HashIter String × ReadOp) ℕ ConnId (Option Push) Reply where
  update p a :=
    (((p.1.step (a.1, a.2.withTx p.2)).1, if a.2.registers.isSome then p.2 + 1 else p.2),
      .ret (p.1.step (a.1, a.2.withTx p.2)).2)
  effect p a cs := (p.1.released (a.2.withTx p.2)).elim cs cs.dropTx
  items p b :=
    match b.2 with
    | .send s => s.items p.1 b.1
    | .ask _ => []
  visit p b cs c :=
    match b.2 with
    | .send s =>
      match s.target p.1 c with
      | some x => ((cs.send x s.message).1, some ⟨c, x, s.message, (cs.send x s.message).2⟩)
      | none => (cs, none)
    | .ask _ => (cs, none)
  counts out := out.elim false Push.ok
  answer p b n :=
    match b.2 with
    | .send s => .sent (s.sent n)
    | .ask q => .answer (p.1.ask b.1 q)
  client p rx cs := if rx < p.2 then cs.dropRx rx else cs

namespace WsGateway

/-- A call on the gateway, with the order in which it iterates. -/
abbrev Call := Basis.Call (HashIter String × Op Unit) (HashIter String × ReadOp)

/-- What is logged of the calls. -/
abbrev Log := List (Event (HashIter String × Op Unit) (HashIter String × ReadOp) ConnId
  (Option Push) Reply)

section Methods

variable (it : HashIter String)

/-- `connect`. -/
def connect (uuid : ConnId) (userId : Option UserId) (now : Instant) : Call :=
  .write (it, .add uuid userId () now)

/-- `connect_with_id`. -/
def connectWithId (id : ConnId) (userId : Option UserId) (now : Instant) : Call :=
  .write (it, .addWithId id userId () now)

/-- `disconnect`. -/
def disconnect (connectionId : ConnId) : Call := .write (it, .remove connectionId)

/-- `connection_info`. -/
def connectionInfo (connectionId : ConnId) : Call := .read (it, .ask (.get connectionId))

/-- `is_connected`. -/
def isConnected (connectionId : ConnId) : Call := .read (it, .ask (.contains connectionId))

/-- `connection_count`. -/
def connectionCount : Call := .read (it, .ask .count)

/-- `join_room`. -/
def joinRoom (connectionId : ConnId) (roomId : RoomId) : Call :=
  .write (it, .joinRoom connectionId roomId)

/-- `leave_room`. -/
def leaveRoom (connectionId : ConnId) (roomId : RoomId) : Call :=
  .write (it, .leaveRoom connectionId roomId)

/-- `room_members`. -/
def roomMembers (roomId : RoomId) : Call := .read (it, .ask (.roomMembers roomId))

/-- `room_count`. -/
def roomCount (roomId : RoomId) : Call := .read (it, .ask (.roomCount roomId))

/-- `send_to`. -/
def sendTo (connectionId : ConnId) (message : Message) : Call :=
  .read (it, .send (.sendTo connectionId message))

/-- `send_to_room`. -/
def sendToRoom (roomId : RoomId) (message : Message) : Call :=
  .read (it, .send (.sendToRoom roomId message))

/-- `send_to_room_except`. -/
def sendToRoomExcept (roomId : RoomId) (message : Message) (exceptId : ConnId) : Call :=
  .read (it, .send (.sendToRoomExcept roomId message exceptId))

/-- `broadcast_raw`. -/
def broadcastRaw (message : Message) : Call := .read (it, .send (.broadcast message))

/-- `heartbeat`. -/
def heartbeat (connectionId : ConnId) (now : Instant) : Call :=
  .write (it, .touch connectionId now)

/-- `stale_connections`. -/
def staleConnections (config : GatewayConfig) (now : Instant) : Call :=
  .read (it, .ask (.staleConnections now config.heartbeatTimeout))

/-- `connections_for_user`. -/
def connectionsForUser (userId : UserId) : Call := .read (it, .ask (.connectionsForUser userId))

end Methods

/-- The call, made on a manager that is not shared. -/
def toCmd : Call → HashIter String × Cmd
  | .write (it, op) => (it, .mutate op)
  | .read (it, .send s) => (it, .send s)
  | .read (it, .ask q) => (it, .ask q)

/-- The calls that acquired the lock, as calls on a manager that is not shared. -/
def serialCalls (calls : List (ℕ × Call)) : List (HashIter String × Cmd) :=
  calls.map fun c => toCmd c.2

end WsGateway

namespace Send

/-- A send visits at most as many connections as it can count. -/
theorem sent_num {m : ConnectionManager ℕ} {it : HashIter ConnId} (s : Send) {n : ℕ}
    (h : n ≤ (s.items m it).length) : (s.sent n).num = n := by
  cases s with
  | sendTo c msg =>
    have hn : n ≤ 1 := h
    show (if (decide (n = 1)) = true then 1 else 0) = n
    split_ifs with h₁ <;> simp only [decide_eq_true_eq] at h₁ <;> omega
  | _ => rfl

end Send

/-- **A fan-out nobody interferes with is the manager's own method.** -/
theorem walk_eq_send (m : ConnectionManager ℕ) (n : ℕ) (it : HashIter String) (s : Send)
    (cs : Channels ℕ Message) :
    gateway.walk (m, n) (it, .send s) cs = ((m.send it cs s).1, (m.send it cs s).2.num) := by
  have hround : ∀ (p : Channels ℕ Message × ℕ) (c : ConnId),
      ((gateway.visit (m, n) (it, .send s) p.1 c).1,
        if gateway.counts (gateway.visit (m, n) (it, .send s) p.1 c).2 then p.2 + 1 else p.2) =
      Channels.round (s.target m) s.message p c := by
    intro p c
    cases hx : s.target m c with
    | none => simp [gateway, Channels.round, Channels.offer, hx]
    | some x => simp [gateway, Channels.round, Channels.offer, hx]
  have hwalk : gateway.walk (m, n) (it, .send s) cs =
      Channels.fanOut (s.target m) s.message (s.items m it) cs := by
    simp only [Service.walk, hround]
    rfl
  rw [hwalk, (m.send_eq_fanOut it cs s).1, (m.send_eq_fanOut it cs s).2]

/-- Calls one at a time are the calls of a world. -/
theorem serial_run_eq (w : World) (calls : List (ℕ × WsGateway.Call)) :
    gateway.serial.run (w.mgr, w.next) calls =
      ((World.machine.run w (WsGateway.serialCalls calls)).mgr,
        (World.machine.run w (WsGateway.serialCalls calls)).next) := by
  induction calls generalizing w with
  | nil => rfl
  | cons c calls ih =>
    obtain ⟨id, call⟩ := c
    cases call with
    | write a => exact ih (w.step (a.1, .mutate a.2)).1
    | read b =>
      obtain ⟨it, op⟩ := b
      cases op with
      | send s => exact ih (w.step (it, .send s)).1
      | ask q => exact ih (w.step (it, .ask q)).1

/-- The manager and the number of channels after the calls so far. -/
theorem serial_run_new (calls : List (ℕ × WsGateway.Call)) :
    gateway.serial.run (ConnectionManager.new, 0) calls =
      ((World.after (WsGateway.serialCalls calls)).mgr,
        (World.after (WsGateway.serialCalls calls)).next) :=
  serial_run_eq World.new calls

end Denshin
