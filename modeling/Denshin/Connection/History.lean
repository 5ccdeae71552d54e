/-
# The history of a membership

A connection is in a room twice over: its metadata names the room, and the room
lists it.  In every state, also after ids were registered again, the calls made on
the connection decide both.  The metadata names the room if the connection,
registered, joined it, and has not since left it or been removed or registered
again (`Joined`).  The room lists it besides as a ghost if it was registered again
while its metadata named the room, and has not since, registered, joined the room
anew (`Haunted`).  So a ghost outlives `leave_room`, `remove` and any number of
registrations of its id, and only a `join_room` of the very connection and room
makes a member of it again, which then can leave (`shown_exact`).
-/

import Denshin.Connection.Session

namespace Denshin

open Basis

variable {χ : Type*}

namespace View

/-- What `join_room` makes of the rooms, in the metadata and in the index. -/
theorem joinRoom_of_info {v : View χ} {info : ConnectionInfo} (hi : v.info = some info)
    (hsub : v.joined ⊆ v.listed) (r : RoomId) :
    (v.joinRoom r).1.joined = insert r v.joined ∧ (v.joinRoom r).1.listed = insert r v.listed := by
  have hjoined := joined_of_info hi
  rcases v.joinRoom_cases r with hj | ⟨info', hi', -, hj⟩
  · have hr : r ∈ v.joined := by
      by_contra hr
      rw [hjoined] at hr
      have hflag := congrArg Prod.snd hj
      simp [View.joinRoom, hi, hr] at hflag
    rw [hj, Finset.insert_eq_of_mem hr, Finset.insert_eq_of_mem (hsub hr)]
    exact ⟨rfl, rfl⟩
  · obtain rfl := Option.some.inj (hi.symm.trans hi')
    rw [hj, hjoined]
    exact ⟨rfl, rfl⟩

/-- What `leave_room` makes of them. -/
theorem leaveRoom_eq (v : View χ) (r : RoomId) :
    (v.leaveRoom r).1.joined = v.joined.erase r ∧
      (v.leaveRoom r).1.listed = if r ∈ v.joined then v.listed.erase r else v.listed := by
  rcases v.leaveRoom_cases r with hl | ⟨info, hi, hr, hl⟩
  · have hr : r ∉ v.joined := by
      intro hr
      rcases hi : v.info with _ | info
      · rw [joined_of_info_none hi] at hr
        exact Finset.notMem_empty r hr
      · rw [joined_of_info hi] at hr
        have hflag := congrArg Prod.snd hl
        simp [View.leaveRoom, hi, hr] at hflag
    rw [hl, Finset.erase_eq_of_notMem hr, if_neg hr]
    exact ⟨rfl, rfl⟩
  · have hjoined := joined_of_info hi
    rw [hl, hjoined, if_pos hr]
    exact ⟨rfl, rfl⟩

/-- A connection that is not registered joins nothing. -/
theorem joinRoom_of_info_none {v : View χ} (hi : v.info = none) (r : RoomId) :
    v.joinRoom r = (v, false) := by
  rw [View.joinRoom, hi]

/-- What a call does to the rooms that the metadata names. -/
theorem mem_joined_step_iff {v : View χ} {op : Op χ} (hok : v.Ok op.conn) (r : RoomId) :
    r ∈ (v.step op).1.joined ↔
      (op = .joinRoom op.conn r ∧ v.info.isSome = true) ∨
        ¬ (op.Ends op.conn ∨ op = .leaveRoom op.conn r) ∧ r ∈ v.joined := by
  cases op with
  | add uuid userId tx now =>
    exact iff_of_false (Finset.notMem_empty r) (by simp [Op.Ends, Op.registers, Op.conn])
  | addWithId id userId tx now =>
    exact iff_of_false (Finset.notMem_empty r) (by simp [Op.Ends, Op.registers, Op.conn])
  | remove c => exact iff_of_false (Finset.notMem_empty r) (by simp [Op.Ends, Op.conn])
  | joinRoom c r' =>
    show r ∈ (v.joinRoom r').1.joined ↔ _
    rcases hi : v.info with _ | info
    · rw [joinRoom_of_info_none hi, joined_of_info_none hi]
      simp
    · rw [(joinRoom_of_info hi hok.joined_subset r').1, Finset.mem_insert]
      simp [Op.Ends, Op.registers, Op.conn, eq_comm]
  | leaveRoom c r' =>
    show r ∈ (v.leaveRoom r').1.joined ↔ _
    rw [(v.leaveRoom_eq r').1, Finset.mem_erase]
    simp [Op.Ends, Op.registers, Op.conn, ne_comm]
  | touch c now =>
    rw [View.step, joined_touch]
    simp [Op.Ends, Op.registers]

/-- A room lists the connection that its metadata does not name. -/
def Ghost (v : View χ) (r : RoomId) : Prop := r ∈ v.listed ∧ r ∉ v.joined

/-- The rooms that list a connection are those it joined and those it haunts. -/
theorem Ok.mem_listed_iff {c : ConnId} {v : View χ} (h : v.Ok c) {r : RoomId} :
    r ∈ v.listed ↔ r ∈ v.joined ∨ v.Ghost r := by
  by_cases hr : r ∈ v.joined
  · exact iff_of_true (h.joined_subset hr) (Or.inl hr)
  · exact ⟨fun hl => Or.inr ⟨hl, hr⟩, fun hg => (hg.resolve_left hr).1⟩

/-- What a call does to the ghosts. -/
theorem ghost_step_iff {v : View χ} {op : Op χ} (hok : v.Ok op.conn) (r : RoomId) :
    (v.step op).1.Ghost r ↔
      (op.registers = some op.conn ∧ r ∈ v.joined) ∨
        ¬ (op = .joinRoom op.conn r ∧ v.info.isSome = true) ∧ v.Ghost r := by
  cases op with
  | add uuid userId tx now =>
    show (r ∈ v.listed ∧ r ∉ (∅ : Finset RoomId)) ↔ _
    simp [hok.mem_listed_iff, Op.registers, Op.conn]
  | addWithId id userId tx now =>
    show (r ∈ v.listed ∧ r ∉ (∅ : Finset RoomId)) ↔ _
    simp [hok.mem_listed_iff, Op.registers, Op.conn]
  | remove c =>
    show (r ∈ v.listed \ v.joined ∧ r ∉ (∅ : Finset RoomId)) ↔ _
    simp [Ghost, Op.registers, Finset.mem_sdiff]
  | joinRoom c r' =>
    show (r ∈ (v.joinRoom r').1.listed ∧ r ∉ (v.joinRoom r').1.joined) ↔ _
    rcases hi : v.info with _ | info
    · rw [joinRoom_of_info_none hi]
      simp [Ghost, Op.registers]
    · obtain ⟨hjoined, hlisted⟩ := joinRoom_of_info hi hok.joined_subset r'
      rw [hjoined, hlisted, Finset.mem_insert, Finset.mem_insert]
      by_cases he : r = r'
      · simp [he, Op.registers, Op.conn]
      · simp [Ghost, Op.registers, Op.conn, he, Ne.symm he]
  | leaveRoom c r' =>
    show (r ∈ (v.leaveRoom r').1.listed ∧ r ∉ (v.leaveRoom r').1.joined) ↔ _
    obtain ⟨hjoined, hlisted⟩ := v.leaveRoom_eq r'
    rw [hjoined, hlisted]
    by_cases he : r = r'
    · subst he
      split_ifs with hr <;> simp [Ghost, Op.registers, hr]
    · split_ifs with hr <;> simp [Ghost, Op.registers, he]
  | touch c now =>
    show (r ∈ v.listed ∧ r ∉ (v.touch now).joined) ↔ _
    rw [joined_touch]
    simp [Ghost, Op.registers]

end View

/-! ### Told by the calls -/

/-- The last registration of `c` has not ended. -/
def Registered (calls : List (HashIter String × Op χ)) (c : ConnId) : Prop :=
  ∃ u, RegisteredFor calls c u

/-- `c`, registered, joined the room, and has not since left it, been removed or
been registered again. -/
def Joined (calls : List (HashIter String × Op χ)) (c : ConnId) (r : RoomId) : Prop :=
  ∃ pre call post, calls = pre ++ call :: post ∧ call.2 = .joinRoom c r ∧ Registered pre c ∧
    ∀ later ∈ post, ¬ (later.2.Ends c ∨ later.2 = .leaveRoom c r)

/-- `c` was registered again while it had joined the room, and has not since,
registered, joined it anew. -/
def Haunted (calls : List (HashIter String × Op χ)) (c : ConnId) (r : RoomId) : Prop :=
  ∃ pre call post, calls = pre ++ call :: post ∧ call.2.registers = some c ∧ Joined pre c r ∧
    ∀ mid later, mid ++ [later] <+: post → later.2 = .joinRoom c r →
      ¬ Registered (pre ++ call :: mid) c

namespace ConnectionManager

/-- Who is registered is told by the calls. -/
theorem registered_iff (calls : List (HashIter String × Op χ)) (c : ConnId) :
    Registered calls c ↔ (((machine χ).run new calls).view c).info.isSome = true := by
  unfold Registered
  simp only [← registeredFor_iff]
  show (∃ u, (((machine χ).run new calls).view c).info.map ConnectionInfo.userId = some u) ↔ _
  rw [← Option.isSome_iff_exists, Option.isSome_map]

/-- The metadata names the rooms that were joined. -/
theorem mem_joined_run (calls : List (HashIter String × Op χ)) (c : ConnId) (r : RoomId) :
    r ∈ (((machine χ).run new calls).view c).joined ↔ Joined calls c r := by
  have hstep : ∀ (m : ConnectionManager χ) (call : HashIter String × Op χ), m.Consistent →
      (r ∈ (((machine χ).step m call).1.view c).joined ↔
        (call.2 = .joinRoom c r ∧ (m.view c).info.isSome = true) ∨
          ¬ (call.2.Ends c ∨ call.2 = .leaveRoom c r) ∧ r ∈ (m.view c).joined) := by
    intro m call hm
    rw [machine_step, m.view_step call c]
    split_ifs with hc
    · subst hc
      exact View.mem_joined_step_iff (hm.views call.2.conn) r
    · have hjoin : call.2 ≠ .joinRoom c r := fun h => hc (by rw [h]; rfl)
      have hleave : call.2 ≠ .leaveRoom c r := fun h => hc (by rw [h]; rfl)
      have hends : ¬ call.2.Ends c := fun h => hc (Op.conn_of_ends h).symm
      simp [hjoin, hleave, hends]
  have hnone : r ∉ ((new : ConnectionManager χ).view c).joined := by
    rw [view_new]
    exact Finset.notMem_empty r
  refine (Machine.run_iff_since (I := fun m : ConnectionManager χ => r ∈ (m.view c).joined)
    (J := Consistent) (fun m call hm => hm.step call) hstep consistent_new hnone calls).trans ?_
  refine exists_congr fun pre => exists_congr fun call => exists_congr fun post =>
    and_congr_right fun _ => ?_
  rw [and_assoc, ← registered_iff]
  exact and_congr_right fun _ => and_congr_right fun _ =>
    ⟨Machine.Along.forall, fun h => Machine.along_of_forall h _⟩

/-- A room lists besides the connections that were registered again. -/
theorem ghost_run (calls : List (HashIter String × Op χ)) (c : ConnId) (r : RoomId) :
    (((machine χ).run new calls).view c).Ghost r ↔ Haunted calls c r := by
  have hstep : ∀ (m : ConnectionManager χ) (call : HashIter String × Op χ), m.Consistent →
      ((((machine χ).step m call).1.view c).Ghost r ↔
        (call.2.registers = some c ∧ r ∈ (m.view c).joined) ∨
          ¬ (call.2 = .joinRoom c r ∧ (m.view c).info.isSome = true) ∧ (m.view c).Ghost r) := by
    intro m call hm
    rw [machine_step, m.view_step call c]
    split_ifs with hc
    · subst hc
      exact View.ghost_step_iff (hm.views call.2.conn) r
    · have hjoin : call.2 ≠ .joinRoom c r := fun h => hc (by rw [h]; rfl)
      have hreg : call.2.registers ≠ some c := fun h => hc (Op.conn_of_registers h).symm
      simp [hjoin, hreg]
  have hnone : ¬ ((new : ConnectionManager χ).view c).Ghost r := by
    rw [view_new]
    exact fun hg => Finset.notMem_empty r hg.1
  refine (Machine.run_iff_since (I := fun m : ConnectionManager χ => (m.view c).Ghost r)
    (J := Consistent) (fun m call hm => hm.step call) hstep consistent_new hnone calls).trans ?_
  refine exists_congr fun pre => exists_congr fun call => exists_congr fun post =>
    and_congr_right fun _ => ?_
  rw [and_assoc, mem_joined_run, Machine.along_iff]
  refine and_congr_right fun _ => and_congr_right fun _ => forall_congr' fun mid =>
    forall_congr' fun later => forall_congr' fun _ => ?_
  have hpast : (machine χ).run ((machine χ).run new (pre ++ [call])) mid =
      (machine χ).run new (pre ++ call :: mid) := by
    rw [← Machine.run_append, List.append_assoc]
    rfl
  rw [hpast]
  exact not_and.trans (imp_congr_right fun _ => not_congr (registered_iff _ c).symm)

/-- **Who is in a room, told by the calls.**  In every state that a run leads to,
the metadata of a connection names a room if and only if the connection joined
it; `room_members` shows the connection if and only if it joined the room or
haunts it, and it never does both. -/
theorem shown_exact (calls : List (HashIter String × Op χ)) (c : ConnId) (r : RoomId) :
    let m := (machine χ).run new calls
    ((∃ info, m.get c = some info ∧ r ∈ info.rooms) ↔ Joined calls c r) ∧
      ((∃ members, m.roomMembers r = some members ∧ c ∈ members) ↔
        Joined calls c r ∨ Haunted calls c r) ∧
      ¬ (Joined calls c r ∧ Haunted calls c r) := by
  intro m
  have hm : m.Consistent := consistent_new.run calls
  have hnamed : (∃ info, m.get c = some info ∧ r ∈ info.rooms) ↔ r ∈ (m.view c).joined := by
    show (∃ info, (m.view c).info = some info ∧ r ∈ info.rooms) ↔ _
    rcases hi : (m.view c).info with _ | info
    · rw [View.joined_of_info_none hi]
      simp
    · rw [View.joined_of_info hi]
      simp
  have hlisted : (∃ members, m.roomMembers r = some members ∧ c ∈ members) ↔
      r ∈ (m.view c).listed := by
    rw [mem_view_listed]
    constructor
    · rintro ⟨members, hr, hc⟩
      rwa [Multimap.get_of_lookup hr]
    · exact Multimap.exists_of_mem_get
  rw [hnamed, hlisted, (hm.views c).mem_listed_iff, mem_joined_run, ghost_run]
  refine ⟨Iff.rfl, Iff.rfl, fun ⟨hj, hg⟩ => ?_⟩
  exact ((ghost_run calls c r).2 hg).2 ((mem_joined_run calls c r).2 hj)

end ConnectionManager
end Denshin
