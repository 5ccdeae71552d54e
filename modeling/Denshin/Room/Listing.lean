/-
# Listing rooms and members

`get_room_members` and `list_rooms` go through sharded containers shard by
shard, while other threads create rooms, join and leave.  What they return is
exact all the same, user by user and room by room: a user is listed exactly if
it was a member of the room when its shard was read
(`getRoomMembers_run`), and a room exactly if it had been created by then
(`listRooms_run`).  Who is a member is decided by the past of the user in the
room (`mem_members_run`).

The other threads are told by what they do to the rooms, in any order: of a
`join_room` that is its insertion, some time after its test (`JoinSys.run_mgr`).
So a listing amid joins that count and test is one amid their insertions
(`JoinSys.getRoomMembers_joins`).  `get_room_members` holds a guard on the room, so
that a `create_room` of the same id waits for it; the others need not.
-/

import Denshin.Room.Counting

namespace Denshin

open Basis

namespace RoomManager

/-- What a thread does to the rooms at once: `create_room`, the insertion of a
`join_room` that has passed its test, or `leave_room`. -/
inductive Effect
  | createRoom (room : Room)
  | insert (roomId userId : String)
  | leaveRoom (roomId userId : String)
deriving DecidableEq

/-- The rooms after it. -/
def step (m : RoomManager) : Effect → RoomManager
  | .createRoom room => (m.createRoom room).1
  | .insert r u => m.insert r u
  | .leaveRoom r u => (m.leaveRoom r u).1

/-- The rooms that threads share. -/
def machine : Machine RoomManager Effect Unit := ⟨fun m e => (m.step e, ())⟩

variable (S : Shards String) (it : HashIter String)

/-- The members of the room in shard `i`. -/
def membersIn (roomId : String) (m : RoomManager) (i : ℕ) : List String :=
  it.order (S.slice (m.members roomId) i)

/-- The rooms in shard `i`. -/
def roomsIn (m : RoomManager) (i : ℕ) : List String := it.order (S.slice m.rooms.keys i)

/-- `get_room_members`: shard after shard is read, each after what other threads
did in one of the `gaps`. -/
def getRoomMembersAmid (m : RoomManager) (gaps : List (List Effect)) (roomId : String) :
    Except RoomError (List String) :=
  match m.rooms.lookup roomId with
  | some _ => .ok (Shards.scan machine (membersIn S it roomId) m 0 gaps)
  | none => .error (.roomNotFound roomId)

/-- `list_rooms`, likewise. -/
def listRoomsAmid (m : RoomManager) (gaps : List (List Effect)) : List String :=
  Shards.scan machine (roomsIn S it) m 0 gaps

end RoomManager

/-! ### What threads do -/

namespace JoinSys

open RoomManager

variable {τ : Type*} [DecidableEq τ] (S : Shards String)

/-- What a step of a thread does to the rooms, if anything. -/
def effect (s : JoinSys τ) : JoinAction τ → Option Effect
  | .insert t =>
    match s.joining t with
    | some (.admitted r u) => some (.insert r u)
    | _ => none
  | .leave t r u =>
    match s.joining t with
    | none => some (.leaveRoom r u)
    | some _ => none
  | _ => none

/-- What the steps of a run do. -/
def effects (s : JoinSys τ) (acts : List (JoinAction τ)) : List Effect :=
  ((machine S).trace s acts).filterMap fun p => p.1.effect p.2

/-- What a step does to the rooms is its effect. -/
theorem step_mgr (s : JoinSys τ) (act : JoinAction τ) :
    (s.step S act).mgr = (s.effect act).elim s.mgr s.mgr.step := by
  cases act with
  | enter t r u =>
    rcases ht : s.joining t with _ | j
    · rcases hroom : s.mgr.rooms.lookup r with _ | room
      · simp [step, effect, ht, hroom]
      · rcases hmax : room.maxMembers with _ | max <;> simp [step, effect, ht, hroom, hmax]
    · simp [step, effect, ht]
  | count t =>
    rcases ht : s.joining t with _ | (⟨r, u, max, i, n⟩ | ⟨r, u⟩)
    · simp [step, effect, ht]
    · simp only [step, effect, ht, Option.elim]
      split_ifs <;> rfl
    · simp [step, effect, ht]
  | insert t =>
    rcases ht : s.joining t with _ | (⟨r, u, max, i, n⟩ | ⟨r, u⟩) <;>
      simp [step, effect, ht, RoomManager.step]
  | leave t r u =>
    rcases ht : s.joining t with _ | j <;> simp [step, effect, ht, RoomManager.step]

/-- **The threads act on the rooms by their effects alone**, however their joins
overlap. -/
theorem run_mgr (s : JoinSys τ) (acts : List (JoinAction τ)) :
    ((machine S).run s acts).mgr = RoomManager.machine.run s.mgr (s.effects S acts) := by
  induction acts generalizing s with
  | nil => rfl
  | cons act acts ih =>
    rw [Machine.run_cons, machine_step, ih, step_mgr, effects, effects, Machine.trace,
      List.filterMap_cons]
    rcases s.effect act with _ | e <;> rfl

end JoinSys

namespace RoomManager

variable (S : Shards String) (it : HashIter String)

/-! ### Who is a member -/

/-- The user becomes a member of the room: it is inserted into the room, or the
room is created with it. -/
def Makes (roomId userId : String) (m : RoomManager) : Effect → Prop
  | .createRoom room => room.id = roomId ∧ userId ∈ room.members
  | .insert r u => r = roomId ∧ u = userId ∧ (m.rooms.lookup roomId).isSome
  | .leaveRoom .. => False

/-- The membership ends, if there is one: the user leaves, or the room is
replaced. -/
def Ends (roomId userId : String) (_ : RoomManager) : Effect → Prop
  | .createRoom room => room.id = roomId
  | .insert .. => False
  | .leaveRoom r u => r = roomId ∧ u = userId

/-- Which members every room has after a `create_room`. -/
theorem members_createRoom (m : RoomManager) (room : Room) (id : String) :
    (m.createRoom room).1.members id = if room.id = id then room.members else m.members id := by
  unfold members createRoom
  split_ifs with h
  · rw [← h, Finmap.lookup_insert]
    rfl
  · rw [Finmap.lookup_insert_of_ne _ (Ne.symm h)]

/-- Which members every room has after an insertion. -/
theorem members_insert (m : RoomManager) (r u id : String) :
    (m.insert r u).members id =
      if r = id ∧ (m.rooms.lookup r).isSome then Insert.insert u (m.members id)
      else m.members id := by
  unfold members
  rw [lookup_insert]
  by_cases hr : r = id
  · subst hr
    rcases hroom : m.rooms.lookup r with _ | room
    · simp
    · simp
  · rw [if_neg (Ne.symm hr), if_neg fun h => hr h.1]

/-- Which members every room has after a leave. -/
theorem members_leaveRoom (m : RoomManager) (r u id : String) :
    (m.leaveRoom r u).1.members id =
      if r = id then (m.members id).erase u else m.members id := by
  unfold leaveRoom
  rcases hroom : m.rooms.lookup r with _ | room
  · split_ifs with hr
    · have hnone : m.members id = ∅ := by
        rw [members, ← hr, hroom]
        rfl
      rw [hnone]
      rfl
    · rfl
  · show (m.remove r u).members id = _
    unfold members
    rw [lookup_remove]
    by_cases hr : r = id
    · rw [if_pos hr.symm, if_pos hr, ← hr, hroom]
      rfl
    · rw [if_neg (Ne.symm hr), if_neg hr]

/-- **What a thread does to a membership.** -/
theorem mem_members_step (m : RoomManager) (e : Effect) (id u : String) :
    u ∈ (m.step e).members id ↔ Makes id u m e ∨ ¬ Ends id u m e ∧ u ∈ m.members id := by
  cases e with
  | createRoom room =>
    show u ∈ (m.createRoom room).1.members id ↔
      (room.id = id ∧ u ∈ room.members) ∨ ¬ room.id = id ∧ u ∈ m.members id
    rw [members_createRoom]
    split_ifs with h <;> simp [h]
  | insert r v =>
    show u ∈ (m.insert r v).members id ↔
      (r = id ∧ v = u ∧ (m.rooms.lookup id).isSome) ∨ ¬ False ∧ u ∈ m.members id
    rw [members_insert]
    by_cases hr : r = id
    · subst hr
      by_cases hroom : (m.rooms.lookup r).isSome
      · simp [hroom, eq_comm]
      · simp [hroom]
    · simp [hr]
  | leaveRoom r v =>
    show u ∈ (m.leaveRoom r v).1.members id ↔
      False ∨ ¬ (r = id ∧ v = u) ∧ u ∈ m.members id
    rw [members_leaveRoom]
    by_cases hr : r = id
    · simp [hr, eq_comm]
    · simp [hr]

/-- **The past of a user in a room decides whether it is a member.** -/
theorem mem_members_run (es : List Effect) (id u : String) :
    u ∈ (machine.run new es).members id ↔ machine.Since (Makes id u) (Ends id u) new es :=
  Machine.run_iff_since (I := fun m => u ∈ m.members id) (J := fun _ => True)
    (fun _ _ _ => trivial) (fun m e _ => mem_members_step m e id u) trivial
    (by simp [members, new, Finmap.lookup_empty]) es

/-! ### Which rooms there are -/

/-- The room is created. -/
def Creates (roomId : String) : Effect → Prop
  | .createRoom room => room.id = roomId
  | _ => False

/-- Which rooms there are after a step. -/
theorem isSome_lookup_step (m : RoomManager) (e : Effect) (id : String) :
    ((m.step e).rooms.lookup id).isSome ↔ Creates id e ∨ (m.rooms.lookup id).isSome := by
  cases e with
  | createRoom room =>
    show ((m.rooms.insert room.id room).lookup id).isSome ↔ room.id = id ∨ _
    by_cases h : room.id = id
    · rw [← h, Finmap.lookup_insert]
      simp
    · rw [Finmap.lookup_insert_of_ne _ (Ne.symm h)]
      simp [h]
  | insert r u =>
    show ((m.insert r u).rooms.lookup id).isSome ↔ False ∨ _
    rw [false_or, lookup_insert]
    split_ifs with h
    · rw [h, Option.isSome_map]
    · exact Iff.rfl
  | leaveRoom r u =>
    show ((m.leaveRoom r u).1.rooms.lookup id).isSome ↔ False ∨ _
    rw [false_or]
    unfold leaveRoom
    rcases m.rooms.lookup r with _ | room
    · exact Iff.rfl
    · show ((m.remove r u).rooms.lookup id).isSome ↔ _
      rw [lookup_remove]
      split_ifs with h
      · rw [h, Option.isSome_map]
      · exact Iff.rfl

/-- **A room that was created stays.** -/
theorem isSome_lookup_run (es : List Effect) (id : String) :
    ((machine.run new es).rooms.lookup id).isSome ↔ ∃ e ∈ es, Creates id e := by
  have hstep : ∀ (m : RoomManager) (e : Effect), True →
      (((machine.step m e).1.rooms.lookup id).isSome ↔
        Creates id e ∨ ¬ False ∧ (m.rooms.lookup id).isSome) := by
    intro m e _
    rw [not_false_iff, true_and]
    exact m.isSome_lookup_step e id
  have hnone : ¬ ((new.rooms.lookup id).isSome = true) := by simp [new, Finmap.lookup_empty]
  have hsince := Machine.run_iff_since (I := fun m : RoomManager => (m.rooms.lookup id).isSome)
    (J := fun _ => True) (fun _ _ _ => trivial) hstep trivial hnone es
  exact hsince.trans Machine.since_iff_exists_mem

/-! ### What is listed -/

section Listing

variable {S it}

/-- A shard lists the members that belong to it. -/
theorem mem_membersIn {id u : String} {m : RoomManager} {i : ℕ} :
    u ∈ membersIn S it id m i ↔ u ∈ m.members id ∧ S.of u = i :=
  it.mem_order.trans Shards.mem_slice

/-- A shard lists the rooms that belong to it. -/
theorem mem_roomsIn {id : String} {m : RoomManager} {i : ℕ} :
    id ∈ roomsIn S it m i ↔ (m.rooms.lookup id).isSome ∧ S.of id = i := by
  rw [Finmap.lookup_isSome, ← Finmap.mem_keys]
  exact it.mem_order.trans Shards.mem_slice

end Listing

/-- Without other threads this is `get_room_members` of `Denshin.Room.Manager`, in
the order of the shards. -/
theorem getRoomMembersAmid_idle (m : RoomManager) (id : String) :
    match m.getRoomMembersAmid S it (List.replicate S.count []) id, m.getRoomMembers it id with
    | .ok us, .ok us' => us.Perm us'
    | .error e, .error e' => e = e'
    | _, _ => False := by
  obtain ⟨hnodup, hmem⟩ := S.scan_keys (M := machine) (fun m i u hu => (mem_membersIn.1 hu).2)
    (fun m i => it.nodup_order (S.slice (m.members id) i)) m
    (List.length_replicate : (List.replicate S.count []).length = S.count)
  unfold getRoomMembersAmid getRoomMembers
  rcases hroom : m.rooms.lookup id with _ | room
  · rfl
  · refine (List.perm_ext_iff_of_nodup hnodup (it.nodup_order room.members)).2 fun u => ?_
    have hmembers : m.members id = room.members := by
      rw [members, hroom]
      rfl
    rw [hmem, Shards.before_idle, Machine.run_nil, mem_membersIn, and_iff_left rfl, it.mem_order,
      hmembers]

/-- **What `get_room_members` returns**, while other threads join and leave: an
error if the room was never created, and otherwise no user twice and exactly the
users whose past makes them members when their shard is read. -/
theorem getRoomMembers_run (pre : List Effect) {gaps : List (List Effect)}
    (hlen : gaps.length = S.count) (id : String) :
    match (machine.run new pre).getRoomMembersAmid S it gaps id with
    | .ok us => (∃ e ∈ pre, Creates id e) ∧ us.Nodup ∧
        ∀ u, u ∈ us ↔
          machine.Since (Makes id u) (Ends id u) new (pre ++ Shards.before gaps (S.of u))
    | .error err => err = .roomNotFound id ∧ ∀ e ∈ pre, ¬ Creates id e := by
  have hcreated := isSome_lookup_run pre id
  obtain ⟨hnodup, hmem⟩ := S.scan_keys (M := machine) (fun m i u hu => (mem_membersIn.1 hu).2)
    (fun m i => it.nodup_order (S.slice (m.members id) i)) (machine.run new pre) hlen
  unfold getRoomMembersAmid
  rcases hroom : (machine.run new pre).rooms.lookup id with _ | room
  · rw [hroom] at hcreated
    exact ⟨rfl, fun e he hcreates => absurd (hcreated.2 ⟨e, he, hcreates⟩) (by simp)⟩
  · rw [hroom] at hcreated
    refine ⟨hcreated.1 rfl, hnodup, fun u => (hmem u).trans ?_⟩
    rw [mem_membersIn, and_iff_left rfl, ← machine.run_append, mem_members_run]

/-- `bo` leaves after its shard was read, and `ann` is inserted before its own
is. -/
theorem getRoomMembers_run_away :
    ∃ us, (machine.run new [.createRoom (Room.new "r" "General"), .insert "r" "bo"]
      |>.getRoomMembersAmid .byLength .sorted [[], [.leaveRoom "r" "bo", .insert "r" "ann"]] "r") =
        .ok us ∧ "bo" ∈ us ∧ "ann" ∈ us := by
  have h := getRoomMembers_run .byLength .sorted
    [.createRoom (Room.new "r" "General"), .insert "r" "bo"]
    (rfl : [[], [Effect.leaveRoom "r" "bo", .insert "r" "ann"]].length = 2) "r"
  obtain ⟨-, -, hmem⟩ := h
  refine ⟨_, rfl, (hmem "bo").2 ?_, (hmem "ann").2 ?_⟩
  · exact ⟨[.createRoom (Room.new "r" "General")], .insert "r" "bo", [], rfl, ⟨rfl, rfl, rfl⟩,
      trivial⟩
  · exact ⟨[.createRoom (Room.new "r" "General"), .insert "r" "bo", .leaveRoom "r" "bo"],
      .insert "r" "ann", [], rfl, ⟨rfl, rfl, rfl⟩, trivial⟩

/-- **What `list_rooms` returns**, while other threads create rooms: every room
once that had been created when its shard was read, and so all that were created
before the call and none that was not by its end. -/
theorem listRooms_run (pre : List Effect) {gaps : List (List Effect)}
    (hlen : gaps.length = S.count) :
    let ids := (machine.run new pre).listRoomsAmid S it gaps
    ids.Nodup ∧
      (∀ id, id ∈ ids ↔ ∃ e ∈ pre ++ Shards.before gaps (S.of id), Creates id e) ∧
      (∀ e ∈ pre, ∀ id, Creates id e → id ∈ ids) ∧
      ∀ id ∈ ids, ∃ e ∈ pre ++ gaps.flatten, Creates id e := by
  intro ids
  obtain ⟨hnodup, hmem⟩ := S.scan_keys (M := machine) (fun m i id hid => (mem_roomsIn.1 hid).2)
    (fun m i => it.nodup_order (S.slice m.rooms.keys i)) (machine.run new pre) hlen
  have hids : ∀ id, id ∈ ids ↔ ∃ e ∈ pre ++ Shards.before gaps (S.of id), Creates id e := by
    intro id
    refine (hmem id).trans ?_
    rw [mem_roomsIn, and_iff_left rfl, ← machine.run_append, isSome_lookup_run]
  refine ⟨hnodup, hids, fun e he id hcreates => ?_, fun id hid => ?_⟩
  · exact (hids id).2 ⟨e, List.mem_append_left _ he, hcreates⟩
  · obtain ⟨e, he, hcreates⟩ := (hids id).1 hid
    refine ⟨e, ?_, hcreates⟩
    rcases List.mem_append.1 he with he | he
    · exact List.mem_append_left _ he
    · exact List.mem_append_right _ ((Shards.before_prefix gaps (S.of id)).subset he)

/-- A room created before its shard is read is listed with one there was. -/
theorem listRooms_run_growing :
    let ids := (machine.run new [.createRoom (Room.new "bo" "General")]).listRoomsAmid
      .byLength .sorted [[], [.createRoom (Room.new "ann" "Random")]]
    "bo" ∈ ids ∧ "ann" ∈ ids := by
  intro ids
  have h := listRooms_run .byLength .sorted [.createRoom (Room.new "bo" "General")]
    (rfl : [[], [Effect.createRoom (Room.new "ann" "Random")]].length = 2)
  exact ⟨h.2.2.1 _ List.mem_cons_self "bo" rfl,
    (h.2.1 "ann").2 ⟨_, List.mem_cons_of_mem _ List.mem_cons_self, rfl⟩⟩

end RoomManager

/-! ### Listing amid joins -/

namespace JoinSys

open RoomManager

variable {τ : Type*} [DecidableEq τ] (S : Shards String) (it : HashIter String)

/-- `get_room_members` among threads that join and leave, each of which may be
anywhere in its `join_room` when a shard is read. -/
def getRoomMembersAmid (s : JoinSys τ) (gaps : List (List (JoinAction τ))) (roomId : String) :
    Except RoomError (List String) :=
  match s.mgr.rooms.lookup roomId with
  | some _ => .ok (Shards.scan (machine S) (fun s => membersIn S it roomId s.mgr) s 0 gaps)
  | none => .error (.roomNotFound roomId)

/-- Joining and leaving creates no room. -/
theorem not_creates_of_mem_effects {s : JoinSys τ} {acts : List (JoinAction τ)} {e : Effect}
    (he : e ∈ s.effects S acts) (id : String) : ¬ Creates id e := by
  obtain ⟨⟨t, act⟩, -, heff⟩ := List.mem_filterMap.1 he
  cases act with
  | insert t' =>
    simp only [effect] at heff
    split at heff
    · obtain rfl := Option.some.inj heff
      exact not_false
    · exact absurd heff (by simp)
  | leave t' r u =>
    simp only [effect] at heff
    split at heff
    · obtain rfl := Option.some.inj heff
      exact not_false
    · exact absurd heff (by simp)
  | _ => exact absurd heff (by simp [effect])

/-- The rooms after a run of joins and leaves, from what its steps did. -/
theorem run_start_mgr (setup : List Effect) (acts : List (JoinAction τ)) :
    let s₀ : JoinSys τ := start (RoomManager.machine.run RoomManager.new setup)
    ((machine S).run s₀ acts).mgr =
      RoomManager.machine.run RoomManager.new (setup ++ s₀.effects S acts) := by
  intro s₀
  rw [run_mgr, Machine.run_append]
  rfl

/-- **What `get_room_members` returns amid joins**, the tests and the insertions
of which are steps of their own: an error if the room was not created, and
otherwise no user twice and exactly the users whose past, made of the insertions
and the leaves up to then, makes them members when their shard is read. -/
theorem getRoomMembers_joins (setup : List Effect) (pre : List (JoinAction τ))
    {gaps : List (List (JoinAction τ))} (hlen : gaps.length = S.count) (id : String) :
    let s₀ : JoinSys τ := start (RoomManager.machine.run RoomManager.new setup)
    match ((machine S).run s₀ pre).getRoomMembersAmid S it gaps id with
    | .ok us => (∃ e ∈ setup, Creates id e) ∧ us.Nodup ∧
        ∀ u, u ∈ us ↔ RoomManager.machine.Since (Makes id u) (Ends id u) RoomManager.new
          (setup ++ s₀.effects S (pre ++ Shards.before gaps (S.of u)))
    | .error err => err = .roomNotFound id ∧ ∀ e ∈ setup, ¬ Creates id e := by
  intro s₀
  have hcreated : (((machine S).run s₀ pre).mgr.rooms.lookup id).isSome ↔
      ∃ e ∈ setup, Creates id e := by
    rw [run_start_mgr, isSome_lookup_run]
    constructor
    · rintro ⟨e, he, hcreates⟩
      rcases List.mem_append.1 he with he | he
      · exact ⟨e, he, hcreates⟩
      · exact absurd hcreates (not_creates_of_mem_effects S he id)
    · rintro ⟨e, he, hcreates⟩
      exact ⟨e, List.mem_append_left _ he, hcreates⟩
  obtain ⟨hnodup, hmem⟩ := S.scan_keys (M := machine S)
    (fun (s : JoinSys τ) i u hu => (mem_membersIn.1 hu).2)
    (fun s i => it.nodup_order (S.slice (s.mgr.members id) i)) ((machine S).run s₀ pre) hlen
  unfold getRoomMembersAmid
  rcases hroom : ((machine S).run s₀ pre).mgr.rooms.lookup id with _ | room
  · rw [hroom] at hcreated
    exact ⟨rfl, fun e he hcreates => absurd (hcreated.2 ⟨e, he, hcreates⟩) (by simp)⟩
  · rw [hroom] at hcreated
    refine ⟨hcreated.1 rfl, hnodup, fun u => (hmem u).trans ?_⟩
    rw [mem_membersIn, and_iff_left rfl, ← (machine S).run_append, run_start_mgr, mem_members_run]

end JoinSys
end Denshin
