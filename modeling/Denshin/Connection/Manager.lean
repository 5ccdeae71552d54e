/-
# The connection manager

`src/connection.rs`.  A `ConnectionManager` is three hash maps: the sender half
of every connection's channel, its metadata, and the member set of every room.
Membership is therefore stored twice, in `info[c].rooms` and in `rooms[r]`.

The maps are finite maps and the sets finite sets; a method that iterates one
takes the iteration order as a `HashIter`.  What the methods get from outside
is an argument: the UUID `add` draws, the channel a registration opens (`tx`,
of a type `χ` of channel handles), the clock reading.  `&mut self` methods
return the new manager with their result.  Sending goes through `&self` and
changes the channels, so the `send` methods take and return those.
-/

import Denshin.Basis.HashIter
import Denshin.Basis.Mpsc
import Denshin.Basis.Multimap
import Denshin.Time

namespace Denshin

open Basis

abbrev ConnId := String
abbrev RoomId := String
abbrev UserId := String
abbrev Message := String

/-- `ConnectionInfo`: metadata about a single connection. -/
structure ConnectionInfo where
  id : ConnId
  userId : Option UserId
  rooms : Finset RoomId
  connectedAt : Instant
  lastSeen : Instant
deriving DecidableEq

/-- The metadata both `add` and `add_with_id` store. -/
def ConnectionInfo.new (id : ConnId) (userId : Option UserId) (now : Instant) : ConnectionInfo where
  id := id
  userId := userId
  rooms := ∅
  connectedAt := now
  lastSeen := now

/-- `ConnectionManager`, over channel handles `χ`. -/
structure ConnectionManager (χ : Type*) where
  senders : Finmap fun _ : ConnId => χ
  info : Finmap fun _ : ConnId => ConnectionInfo
  rooms : Multimap RoomId ConnId

namespace ConnectionManager

variable {χ : Type*}

/-- `ConnectionManager::new`. -/
def new : ConnectionManager χ := ⟨∅, ∅, ∅⟩

/-- The two `insert`s with which `add` and `add_with_id` end. -/
def register (m : ConnectionManager χ) (id : ConnId) (userId : Option UserId) (tx : χ)
    (now : Instant) : ConnectionManager χ :=
  { m with
    senders := m.senders.insert id tx
    info := m.info.insert id (ConnectionInfo.new id userId now) }

/-- `add`: register under a fresh UUID, and return it with the receiver. -/
def add (m : ConnectionManager χ) (uuid : ConnId) (userId : Option UserId) (tx : χ)
    (now : Instant) : ConnectionManager χ × ConnId × χ :=
  (m.register uuid userId tx now, uuid, tx)

/-- `add_with_id`: register under a given id, also one that is registered. -/
def addWithId (m : ConnectionManager χ) (id : ConnId) (userId : Option UserId) (tx : χ)
    (now : Instant) : ConnectionManager χ × χ :=
  (m.register id userId tx now, tx)

/-- `remove`: the sender goes first, whether or not the id is registered; the
rooms of its metadata are then walked and the id taken out of each. -/
def remove (m : ConnectionManager χ) (it : HashIter RoomId) (connectionId : ConnId) :
    ConnectionManager χ × Option ConnectionInfo :=
  let senders := m.senders.erase connectionId
  match m.info.lookup connectionId with
  | some info =>
    ({ senders := senders
       info := m.info.erase connectionId
       rooms := m.rooms.unlinkAll (it.order info.rooms) connectionId }, some info)
  | none => ({ m with senders := senders }, none)

/-- `get`. -/
def get (m : ConnectionManager χ) (connectionId : ConnId) : Option ConnectionInfo :=
  m.info.lookup connectionId

/-- `contains`. -/
def contains (m : ConnectionManager χ) (connectionId : ConnId) : Bool :=
  (m.info.lookup connectionId).isSome

/-- `count`. -/
def count (m : ConnectionManager χ) : ℕ := m.info.keys.card

/-- `is_empty`. -/
def isEmpty (m : ConnectionManager χ) : Bool := m.info.keys = ∅

/-- `connection_ids`. -/
def connectionIds (m : ConnectionManager χ) (it : HashIter ConnId) : List ConnId := it.keys m.info

/-- `join_room`: the connection's own set first, then the room's. -/
def joinRoom (m : ConnectionManager χ) (connectionId : ConnId) (roomId : RoomId) :
    ConnectionManager χ × Bool :=
  match m.info.lookup connectionId with
  | some info =>
    if roomId ∈ info.rooms then (m, false)
    else
      ({ m with
         info := m.info.insert connectionId { info with rooms := insert roomId info.rooms }
         rooms := m.rooms.link roomId connectionId }, true)
  | none => (m, false)

/-- `leave_room`. -/
def leaveRoom (m : ConnectionManager χ) (connectionId : ConnId) (roomId : RoomId) :
    ConnectionManager χ × Bool :=
  match m.info.lookup connectionId with
  | some info =>
    if roomId ∈ info.rooms then
      ({ m with
         info := m.info.insert connectionId { info with rooms := info.rooms.erase roomId }
         rooms := m.rooms.unlink roomId connectionId }, true)
    else (m, false)
  | none => (m, false)

/-- `room_members`. -/
def roomMembers (m : ConnectionManager χ) (roomId : RoomId) : Option (Finset ConnId) :=
  m.rooms.lookup roomId

/-- `room_count`. -/
def roomCount (m : ConnectionManager χ) (roomId : RoomId) : ℕ :=
  (m.rooms.lookup roomId).elim 0 Finset.card

/-- `room_ids`. -/
def roomIds (m : ConnectionManager χ) (it : HashIter RoomId) : List RoomId := it.keys m.rooms

/-- `total_rooms`. -/
def totalRooms (m : ConnectionManager χ) : ℕ := m.rooms.keys.card

/-- `touch`: the clock is read only when the id is registered. -/
def touch (m : ConnectionManager χ) (connectionId : ConnId) (now : Instant) :
    ConnectionManager χ :=
  match m.info.lookup connectionId with
  | some info => { m with info := m.info.insert connectionId { info with lastSeen := now } }
  | none => m

/-- `stale_connections`; `none` is the panic of `Instant::now() - timeout`. -/
def staleConnections (m : ConnectionManager χ) (it : HashIter ConnId) (now : Instant)
    (timeout : Duration) : Option (List ConnId) :=
  (now.checkedSub timeout).map fun cutoff =>
    ((it.entries m.info).filter fun e => e.2.lastSeen < cutoff).map Prod.fst

/-- `connections_for_user`. -/
def connectionsForUser (m : ConnectionManager χ) (it : HashIter ConnId) (userId : UserId) :
    List ConnId :=
  ((it.entries m.info).filter fun e => e.2.userId = some userId).map Prod.fst

variable [DecidableEq χ]

/-- `send_to`. -/
def sendTo (m : ConnectionManager χ) (connectionId : ConnId) (message : Message)
    (cs : Channels χ Message) : Channels χ Message × Bool :=
  cs.offer message (m.senders.lookup connectionId)

/-- `send_to_room`: `send_to` for every member of the room. -/
def sendToRoom (m : ConnectionManager χ) (it : HashIter ConnId) (roomId : RoomId)
    (message : Message) (cs : Channels χ Message) : Channels χ Message × ℕ :=
  match m.rooms.lookup roomId with
  | none => (cs, 0)
  | some members =>
    Channels.fanOut (fun connId => m.senders.lookup connId) message (it.order members) cs

/-- `send_to_room_except`: the loop skips `except_id`. -/
def sendToRoomExcept (m : ConnectionManager χ) (it : HashIter ConnId) (roomId : RoomId)
    (message : Message) (exceptId : ConnId) (cs : Channels χ Message) :
    Channels χ Message × ℕ :=
  match m.rooms.lookup roomId with
  | none => (cs, 0)
  | some members =>
    Channels.fanOut (fun connId => if connId ≠ exceptId then m.senders.lookup connId else none)
      message (it.order members) cs

/-- `broadcast`: every sender, whatever the rooms. -/
def broadcast (m : ConnectionManager χ) (it : HashIter ConnId) (message : Message)
    (cs : Channels χ Message) : Channels χ Message × ℕ :=
  Channels.fanOut some message (it.values m.senders) cs

end ConnectionManager
end Denshin
