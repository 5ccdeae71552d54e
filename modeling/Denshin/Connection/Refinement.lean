/-
# The manager computes the directory

The simulation behind `Denshin.Connection.Directory`.  `Coupled` relates what
the manager and the directory hold about one connection: the user in the
metadata is the live one, and both copies of the membership are the directory's
rooms.  Every call keeps it, a registration only of an id that is not live.
Reading the coupling by connection gives the queries on connections, reading it
by room those on rooms (`Refines.agrees`).
-/

import Denshin.Connection.Directory

namespace Denshin

open Basis

variable {χ : Type*}

/-- What the directory can see of an answer. -/
def Ret.abs : Ret χ → Directory.Ret
  | .added id _ => .added id
  | .registered _ => .registered
  | .removed info => .removed (info.map fun info => (info.id, info.userId, info.rooms))
  | .flag b => .flag b
  | .unit => .unit

/-- The view of a connection and its entry say the same. -/
structure Coupled (v : View χ) (e : Directory.Entry) : Prop where
  live : v.info.map ConnectionInfo.userId = e.live
  joined : v.joined = e.rooms
  listed : v.listed = e.rooms

namespace Coupled

variable {v : View χ} {e : Directory.Entry} {c : ConnId}

/-- A connection that was not there is registered on both sides. -/
theorem register (h : Coupled v e) (hi : v.info = none) (id : ConnId) (userId : Option UserId)
    (tx : χ) (now : Instant) : Coupled (v.register id userId tx now) (e.add userId) where
  live := rfl
  joined := by
    have hrooms : e.rooms = ∅ := h.joined.symm.trans (View.joined_of_info_none hi)
    exact hrooms.symm
  listed := h.listed

/-- A connection is removed on both sides. -/
theorem remove (h : Coupled v e) : Coupled v.remove ⟨none, ∅⟩ where
  live := rfl
  joined := rfl
  listed := by
    rw [View.remove, h.listed, h.joined]
    exact Finset.sdiff_self e.rooms

/-- A join on both sides, with the same answer. -/
theorem joinRoom (h : Coupled v e) (r : RoomId) :
    Coupled (v.joinRoom r).1 (e.join r).1 ∧ (v.joinRoom r).2 = (e.join r).2 := by
  have hlive := h.live
  have hjoined := h.joined
  unfold View.joinRoom Directory.Entry.join
  cases hi : v.info with
  | none =>
    rw [hi] at hlive
    simp only [← hlive, Option.map_none, Option.isSome_none, Bool.false_eq_true, false_and,
      if_false, and_true]
    exact h
  | some info =>
    rw [hi] at hlive
    rw [View.joined_of_info hi] at hjoined
    by_cases hr : r ∈ e.rooms
    · simp only [hjoined, hr, not_true_eq_false, and_false, if_true, if_false, and_true]
      exact h
    · simp only [hjoined, hr, ← hlive, Option.map_some, Option.isSome_some, not_false_eq_true,
        and_self, if_true, if_false, and_true]
      exact ⟨rfl, by rw [View.joined, Option.elim_some, ← hjoined], congrArg (insert r) h.listed⟩

/-- A leave on both sides, with the same answer. -/
theorem leaveRoom (h : Coupled v e) (r : RoomId) :
    Coupled (v.leaveRoom r).1 (e.leave r).1 ∧ (v.leaveRoom r).2 = (e.leave r).2 := by
  have hlive := h.live
  have hjoined := h.joined
  unfold View.leaveRoom Directory.Entry.leave
  cases hi : v.info with
  | none =>
    rw [View.joined_of_info_none hi] at hjoined
    simp only [← hjoined, Finset.notMem_empty, if_false, and_true]
    exact h
  | some info =>
    rw [hi] at hlive
    rw [View.joined_of_info hi] at hjoined
    by_cases hr : r ∈ e.rooms
    · simp only [hjoined, hr, if_true, and_true]
      exact ⟨hlive, by rw [View.joined, Option.elim_some, ← hjoined],
        congrArg (Finset.erase · r) h.listed⟩
    · simp only [hjoined, hr, if_false, and_true]
      exact h

/-- **One call keeps the coupling and gets the directory's answer**, unless it
registers an id that is live. -/
theorem step (h : Coupled v e) (op : Op χ) (hok : v.Ok op.conn)
    (hnew : op.registers = none ∨ v.info = none) :
    Coupled (v.step op).1 (e.step op).1 ∧ (v.step op).2.abs = (e.step op).2 := by
  cases op with
  | add uuid userId tx now => exact ⟨h.register (hnew.resolve_left nofun) uuid userId tx now, rfl⟩
  | addWithId id userId tx now =>
    exact ⟨h.register (hnew.resolve_left nofun) id userId tx now, rfl⟩
  | remove c =>
    refine ⟨h.remove, congrArg Directory.Ret.removed ?_⟩
    rw [← h.live, ← h.joined]
    cases hi : v.info with
    | none => rfl
    | some info =>
      have hid : info.id = c := hok.info_id info hi
      simp [View.joined_of_info hi, hid]
  | joinRoom c r => exact ⟨(h.joinRoom r).1, congrArg Directory.Ret.flag (h.joinRoom r).2⟩
  | leaveRoom c r => exact ⟨(h.leaveRoom r).1, congrArg Directory.Ret.flag (h.leaveRoom r).2⟩
  | touch c now =>
    have hlive : (v.touch now).info.map ConnectionInfo.userId = v.info.map ConnectionInfo.userId :=
      Option.map_map ..
    exact ⟨⟨hlive.trans h.live, (View.joined_touch v now).trans h.joined, h.listed⟩, rfl⟩

end Coupled

/-- Every query of the manager reads the directory, in whatever order it
iterates. -/
structure Agrees (m : ConnectionManager χ) (d : Directory) : Prop where
  contains : ∀ c, m.contains c = true ↔ c ∈ d.live
  count : m.count = d.live.keys.card
  isEmpty : m.isEmpty = true ↔ d.live = ∅
  connectionIds : ∀ it, (m.connectionIds it).Nodup ∧ ∀ c, c ∈ m.connectionIds it ↔ c ∈ d.live
  get : ∀ c, (m.get c).map (fun info => (info.id, info.userId, info.rooms)) =
    (d.live.lookup c).map fun userId => (c, userId, d.roomsOf c)
  roomMembers : ∀ r, m.roomMembers r = if d.membersOf r = ∅ then none else some (d.membersOf r)
  roomCount : ∀ r, m.roomCount r = (d.membersOf r).card
  roomIds : ∀ it, (m.roomIds it).Nodup ∧ ∀ r, r ∈ m.roomIds it ↔ ∃ c, (c, r) ∈ d.member
  totalRooms : m.totalRooms = (d.member.image Prod.snd).card
  connectionsForUser : ∀ it userId, (m.connectionsForUser it userId).Nodup ∧
    ∀ c, c ∈ m.connectionsForUser it userId ↔ d.live.lookup c = some (some userId)

namespace ConnectionManager

/-- The manager and the directory, connection by connection. -/
def Refines (m : ConnectionManager χ) (d : Directory) : Prop :=
  m.Consistent ∧ ∀ c, Coupled (m.view c) (d.entry c)

section Queries

variable {m : ConnectionManager χ} {d : Directory}

/-- The user of every connection is that of the directory. -/
theorem Refines.lookup_live (h : m.Refines d) (c : ConnId) :
    (m.info.lookup c).map ConnectionInfo.userId = d.live.lookup c := (h.2 c).live

/-- The connections are those of the directory. -/
theorem Refines.mem_live (h : m.Refines d) {c : ConnId} : c ∈ m.info ↔ c ∈ d.live := by
  rw [← Finmap.lookup_isSome, ← Finmap.lookup_isSome, ← h.lookup_live, Option.isSome_map]

/-- The ids are those of the directory. -/
theorem Refines.keys_eq (h : m.Refines d) : m.info.keys = d.live.keys := by
  ext c
  rw [Finmap.mem_keys, Finmap.mem_keys, h.mem_live]

/-- The coupling, read by room. -/
theorem Refines.get_rooms (h : m.Refines d) (r : RoomId) : m.rooms.get r = d.membersOf r := by
  ext c
  rw [Directory.mem_membersOf, ← Directory.mem_roomsOf, ← mem_view_listed, (h.2 c).listed]
  rfl

/-- A room is in the index exactly if the directory has a member of it. -/
theorem Refines.mem_rooms (h : m.Refines d) {r : RoomId} :
    r ∈ m.rooms ↔ ∃ c, (c, r) ∈ d.member := by
  rw [← Finmap.lookup_isSome, h.1.tight.lookup_eq, h.get_rooms]
  by_cases he : d.membersOf r = ∅
  · simp only [he, if_true, Option.isSome_none, Bool.false_eq_true, false_iff, not_exists]
    intro c hc
    exact Finset.notMem_empty c (he ▸ Directory.mem_membersOf.2 hc)
  · simp only [he, if_false, Option.isSome_some, true_iff]
    obtain ⟨c, hc⟩ := Finset.nonempty_iff_ne_empty.2 he
    exact ⟨c, Directory.mem_membersOf.1 hc⟩

/-- **Every query of a manager that refines a directory reads the directory.** -/
theorem Refines.agrees (h : m.Refines d) : Agrees m d where
  contains c := by rw [ConnectionManager.contains, Finmap.lookup_isSome, h.mem_live]
  count := by rw [ConnectionManager.count, h.keys_eq]
  isEmpty := by
    rw [ConnectionManager.isEmpty, decide_eq_true_iff, h.keys_eq]
    constructor
    · refine fun he => Finmap.ext_lookup fun c => ?_
      rw [Finmap.lookup_empty, Finmap.lookup_eq_none, ← Finmap.mem_keys, he]
      exact Finset.notMem_empty c
    · exact fun he => he ▸ Finmap.keys_empty
  connectionIds it := by
    refine ⟨it.nodup_keys m.info, fun c => ?_⟩
    rw [ConnectionManager.connectionIds, it.keys_eq_order, it.mem_order, Finmap.mem_keys,
      h.mem_live]
  get c := by
    rw [ConnectionManager.get, ← h.lookup_live]
    cases hi : m.info.lookup c with
    | none => rfl
    | some info =>
      have hid : info.id = c := (h.1.views c).info_id info hi
      have hrooms : info.rooms = d.roomsOf c :=
        (View.joined_of_info (v := m.view c) hi).symm.trans (h.2 c).joined
      simp [hid, hrooms]
  roomMembers r := by rw [ConnectionManager.roomMembers, h.1.tight.lookup_eq, h.get_rooms]
  roomCount r := by
    rw [ConnectionManager.roomCount, h.1.tight.lookup_eq, h.get_rooms]
    split_ifs with he <;> simp [he]
  roomIds it := by
    refine ⟨it.nodup_keys m.rooms, fun r => ?_⟩
    rw [ConnectionManager.roomIds, it.keys_eq_order, it.mem_order, Finmap.mem_keys, h.mem_rooms]
  totalRooms := by
    rw [ConnectionManager.totalRooms]
    congr 1
    ext r
    rw [Finmap.mem_keys, h.mem_rooms]
    simp
  connectionsForUser it userId := by
    refine ⟨it.nodup_keys_filter m.info _, fun c => ?_⟩
    rw [ConnectionManager.connectionsForUser, ← h.lookup_live, it.mem_keys_filter]
    constructor
    · rintro ⟨info, hi, hu⟩
      rw [hi, Option.map_some, of_decide_eq_true hu]
    · intro hu
      obtain ⟨info, hi, hu'⟩ := Option.map_eq_some_iff.1 hu
      exact ⟨info, hi, decide_eq_true hu'⟩

end Queries

/-- The new manager refines the empty directory. -/
theorem refines_empty : (new : ConnectionManager χ).Refines Directory.empty := by
  refine ⟨consistent_new, fun c => ?_⟩
  have hlive : Directory.empty.live.lookup c = none := Finmap.lookup_empty c
  rw [view_new]
  exact ⟨hlive.symm, rfl, rfl⟩

/-- The step of the simulation. -/
theorem Refines.step {m : ConnectionManager χ} {d : Directory} {call : HashIter String × Op χ}
    (h : m.Refines d)
    (hnew : call.2.registers = none ∨ (m.view call.2.conn).info = none) :
    (m.step call).1.Refines (d.step call.2).1 ∧ (m.step call).2.abs = (d.step call.2).2 := by
  have hc := (h.2 call.2.conn).step call.2 (h.1.views _) hnew
  refine ⟨⟨h.1.step call, fun c => ?_⟩, ?_⟩
  · have he : (d.step call.2).1.entry c =
        if c = call.2.conn then ((d.entry c).step call.2).1 else d.entry c :=
      (Directory.slicing χ).view_step d call.2 c
    rw [m.view_step, he]
    split_ifs with hcc
    · subst hcc
      exact hc.1
    · exact h.2 c
  · rw [answer_step, hc.2]
    exact ((Directory.slicing χ).answer_step d call.2).symm

/-- **The manager refines the directory.**  In a run from `new()` in which
connections are registered through `add`, under UUIDs that are new, every call
returns what the directory returns, and after every call every query agrees
with it. -/
theorem run_directory (calls : List (HashIter String × Op χ))
    (hadd : ∀ it id userId tx now, (it, .addWithId id userId tx now) ∉ calls)
    (hfresh : FreshUuids (calls.map Prod.snd)) :
    ((machine χ).answers new calls).map Ret.abs =
        (Directory.machine χ).answers Directory.empty (calls.map Prod.snd) ∧
      ∀ pre, pre <+: calls → Agrees ((machine χ).run new pre)
        ((Directory.machine χ).run Directory.empty (pre.map Prod.snd)) := by
  have halong : (machine χ).Along
      (fun m call => call.2.registers = none ∨ (m.view call.2.conn).info = none) new calls := by
    rw [Machine.along_iff]
    rintro pre ⟨it, op⟩ hp
    cases op with
    | add uuid userId tx now =>
      right
      rw [Op.conn, view_run_of_fresh hfresh hp]
      rfl
    | addWithId id userId tx now =>
      exact absurd (hp.subset (by simp)) (hadd it id userId tx now)
    | _ => exact Or.inl rfl
  have hsim := fun pre (hp : pre <+: calls) => (halong.of_prefix hp).simulates
    (R := Refines) (N := Directory.machine χ) (fun _ _ _ h hnew => h.step hnew) refines_empty
  exact ⟨(hsim calls List.prefix_rfl).2, fun pre hp => (hsim pre hp).1.agrees⟩

/-- Two connections share a room; one leaves it, the other is removed. -/
theorem run_directory_shared_room :
    let calls : List (HashIter String × Op ℕ) :=
      [(HashIter.sorted, .add "a" (some "u") 0 .zero),
        (HashIter.sorted, .add "b" none 1 (.ofSecs 1)), (HashIter.sorted, .joinRoom "a" "r"),
        (HashIter.sorted, .joinRoom "b" "r"), (HashIter.sorted, .leaveRoom "a" "r"),
        (HashIter.sorted, .remove "b")]
    ((machine ℕ).answers new calls).map Ret.abs =
        (Directory.machine ℕ).answers Directory.empty (calls.map Prod.snd) ∧
      ∀ pre, pre <+: calls → Agrees ((machine ℕ).run new pre)
        ((Directory.machine ℕ).run Directory.empty (pre.map Prod.snd)) := by
  intro calls
  exact run_directory calls (fun _ _ _ _ _ h => by simp [calls] at h) (by decide)

end ConnectionManager
end Denshin
