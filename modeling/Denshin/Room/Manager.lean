/-
# Rooms with a capacity

`src/room.rs`: a `RoomManager` maps room ids to rooms, and a room has a set of
member ids and possibly a maximal number of them.  The module is in the
repository but not declared in `lib.rs`, and its error `RoomFull` is not among
the errors of `src/error.rs`; it is modelled as it is written.  Rooms also
carry the time of their creation, which nothing reads.

`join_room` tests the number of members and then inserts (`Room.full`,
`RoomManager.insert`).  Here the two are one call; `Denshin.Room.Capacity` takes
them apart.
-/

import Denshin.Basis.HashIter
import Mathlib.Data.Finset.Card

namespace Denshin

open Basis

/-- The errors of `room.rs`. -/
inductive RoomError
  | roomNotFound (roomId : String)
  | roomFull (roomId : String)
deriving DecidableEq

/-- `Room`. -/
structure Room where
  id : String
  name : String
  members : Finset String
  maxMembers : Option ℕ
deriving DecidableEq

namespace Room

/-- `Room::new`. -/
def new (id name : String) : Room := ⟨id, name, ∅, none⟩

/-- `Room::with_capacity`. -/
def withCapacity (id name : String) (maxMembers : ℕ) : Room := ⟨id, name, ∅, some maxMembers⟩

/-- `member_count`. -/
def memberCount (room : Room) : ℕ := room.members.card

/-- `has_member`. -/
def hasMember (room : Room) (userId : String) : Bool := userId ∈ room.members

/-- The test of `join_room`: `room.members.len() >= max`. -/
def full (room : Room) : Bool :=
  match room.maxMembers with
  | some max => max ≤ room.members.card
  | none => false

end Room

/-- `RoomManager`. -/
structure RoomManager where
  rooms : Finmap fun _ : String => Room

namespace RoomManager

/-- `RoomManager::new`. -/
def new : RoomManager := ⟨∅⟩

/-- `create_room`: replaces a room of the same id. -/
def createRoom (m : RoomManager) (room : Room) : RoomManager × String :=
  (⟨m.rooms.insert room.id room⟩, room.id)

/-- `room.members.insert(user_id)`, on the room behind the guard of
`rooms.get(room_id)`. -/
def insert (m : RoomManager) (roomId userId : String) : RoomManager :=
  match m.rooms.lookup roomId with
  | some room => ⟨m.rooms.insert roomId { room with members := Insert.insert userId room.members }⟩
  | none => m

/-- `room.members.remove(user_id)`, likewise. -/
def remove (m : RoomManager) (roomId userId : String) : RoomManager :=
  match m.rooms.lookup roomId with
  | some room => ⟨m.rooms.insert roomId { room with members := room.members.erase userId }⟩
  | none => m

/-- What `join_room` checks before it inserts. -/
def admits (m : RoomManager) (roomId : String) : Except RoomError Unit :=
  match m.rooms.lookup roomId with
  | some room => if room.full then .error (.roomFull roomId) else .ok ()
  | none => .error (.roomNotFound roomId)

/-- `join_room`. -/
def joinRoom (m : RoomManager) (roomId userId : String) : RoomManager × Except RoomError Unit :=
  match m.admits roomId with
  | .error e => (m, .error e)
  | .ok () => (m.insert roomId userId, .ok ())

/-- `leave_room`. -/
def leaveRoom (m : RoomManager) (roomId userId : String) : RoomManager × Except RoomError Unit :=
  match m.rooms.lookup roomId with
  | some _ => (m.remove roomId userId, .ok ())
  | none => (m, .error (.roomNotFound roomId))

/-- `get_room_members`, in the order in which the set is iterated. -/
def getRoomMembers (m : RoomManager) (it : HashIter String) (roomId : String) :
    Except RoomError (List String) :=
  match m.rooms.lookup roomId with
  | some room => .ok (it.order room.members)
  | none => .error (.roomNotFound roomId)

/-- `get_room`. -/
def getRoom (m : RoomManager) (roomId : String) : Option Room := m.rooms.lookup roomId

/-- `list_rooms`. -/
def listRooms (m : RoomManager) (it : HashIter String) : List String := it.keys m.rooms

/-- `broadcast_to_room`: the members, for the caller to send to. -/
def broadcastToRoom (m : RoomManager) (it : HashIter String) (roomId : String) :
    Except RoomError (List String) := m.getRoomMembers it roomId

/-! ### What inserting and removing change -/

/-- An insertion concerns its own room only. -/
theorem lookup_insert (m : RoomManager) (r u r' : String) :
    (m.insert r u).rooms.lookup r' =
      if r' = r then (m.rooms.lookup r).map fun room =>
        { room with members := Insert.insert u room.members }
      else m.rooms.lookup r' := by
  unfold insert
  cases hr : m.rooms.lookup r with
  | none =>
    split_ifs with h
    · rw [h, hr, Option.map_none]
    · rfl
  | some room =>
    split_ifs with h
    · rw [h, Finmap.lookup_insert, Option.map_some]
    · exact Finmap.lookup_insert_of_ne _ h

/-- So does a removal of a member. -/
theorem lookup_remove (m : RoomManager) (r u r' : String) :
    (m.remove r u).rooms.lookup r' =
      if r' = r then (m.rooms.lookup r).map fun room =>
        { room with members := room.members.erase u }
      else m.rooms.lookup r' := by
  unfold remove
  cases hr : m.rooms.lookup r with
  | none =>
    split_ifs with h
    · rw [h, hr, Option.map_none]
    · rfl
  | some room =>
    split_ifs with h
    · rw [h, Finmap.lookup_insert, Option.map_some]
    · exact Finmap.lookup_insert_of_ne _ h

/-- A `leave_room` that returns an error changes nothing. -/
theorem leaveRoom_of_error {m : RoomManager} {r u : String} {e : RoomError}
    (h : (m.leaveRoom r u).2 = .error e) : (m.leaveRoom r u).1 = m := by
  unfold leaveRoom at h ⊢
  cases hr : m.rooms.lookup r with
  | none => rfl
  | some room =>
    rw [hr] at h
    exact absurd h (by simp)

/-- A join passes the test exactly when there are fewer members than the
maximum. -/
theorem admits_eq_ok_iff {m : RoomManager} {r : String} {room : Room} {max : ℕ}
    (hr : m.rooms.lookup r = some room) (hmax : room.maxMembers = some max) :
    m.admits r = .ok () ↔ room.members.card < max := by
  unfold admits
  rw [hr]
  simp only [Room.full, hmax, decide_eq_true_eq]
  split_ifs with hfull
  · exact iff_of_false (by simp) (Nat.not_lt.2 hfull)
  · exact iff_of_true rfl (Nat.lt_of_not_le hfull)

end RoomManager
end Denshin
