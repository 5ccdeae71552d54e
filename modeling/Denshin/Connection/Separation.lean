/-
# Rooms do not interfere

The joins and leaves of some rooms can be left out of a run (`rooms_separate`):
every other call returns what it returns with them, and the manager at the end is
the same, with these rooms cut out.  Only `remove` shows the difference at once,
as it returns metadata, which names the rooms of the connection.

Restricted to the rooms of `K` (`View.within`), a view steps by its own rule: a
call that is about no other room steps the restricted view as it does the whole
one (`View.step_within`), and a join or leave of another room leaves it as it is
(`View.within_step`).
-/

import Denshin.Connection.View

namespace Denshin

open Basis

variable {χ : Type*}

/-- The call is about no room but those of `K`. -/
def Op.Within (K : Finset RoomId) : Op χ → Prop
  | .joinRoom _ r => r ∈ K
  | .leaveRoom _ r => r ∈ K
  | _ => True

instance (K : Finset RoomId) : DecidablePred (Op.Within (χ := χ) K) := fun op => by
  unfold Op.Within
  split <;> infer_instance

/-- The metadata, with the rooms of `K` only. -/
def ConnectionInfo.within (K : Finset RoomId) (info : ConnectionInfo) : ConnectionInfo :=
  { info with rooms := info.rooms ∩ K }

/-- What a call returns, likewise. -/
def Ret.within (K : Finset RoomId) : Ret χ → Ret χ
  | .removed info => .removed (info.map (ConnectionInfo.within K))
  | ret => ret

namespace View

/-- The view, likewise. -/
def within (K : Finset RoomId) (v : View χ) : View χ :=
  ⟨v.sender, v.info.map (ConnectionInfo.within K), v.listed ∩ K⟩

/-- The metadata cut down names the rooms of `K` only. -/
theorem joined_within (K : Finset RoomId) (v : View χ) : (v.within K).joined = v.joined ∩ K := by
  obtain ⟨sender, _ | info, listed⟩ := v
  · exact (Finset.empty_inter K).symm
  · rfl

/-- A join of a room of `K` does not look beyond `K`. -/
theorem joinRoom_within {K : Finset RoomId} {r : RoomId} (hr : r ∈ K) (v : View χ) :
    (v.within K).joinRoom r = ((v.joinRoom r).1.within K, (v.joinRoom r).2) := by
  obtain ⟨sender, _ | info, listed⟩ := v
  · rfl
  · by_cases hri : r ∈ info.rooms
    · simp [joinRoom, within, ConnectionInfo.within, hr, hri]
    · simp [joinRoom, within, ConnectionInfo.within, hr, hri, Finset.insert_inter_of_mem]

/-- A leave of a room of `K` does not look beyond `K`. -/
theorem leaveRoom_within {K : Finset RoomId} {r : RoomId} (hr : r ∈ K) (v : View χ) :
    (v.within K).leaveRoom r = ((v.leaveRoom r).1.within K, (v.leaveRoom r).2) := by
  obtain ⟨sender, _ | info, listed⟩ := v
  · rfl
  · by_cases hri : r ∈ info.rooms
    · simp [leaveRoom, within, ConnectionInfo.within, hr, hri, Finset.erase_inter]
    · simp [leaveRoom, within, ConnectionInfo.within, hr, hri]

/-- A call about no room outside `K` steps the restricted view. -/
theorem step_within {K : Finset RoomId} {op : Op χ} (h : op.Within K) (v : View χ) :
    (v.within K).step op = ((v.step op).1.within K, (v.step op).2.within K) := by
  have hregister (id : ConnId) (userId : Option UserId) (tx : χ) (now : Instant) :
      (v.within K).register id userId tx now = (v.register id userId tx now).within K :=
    View.ext rfl (congrArg (fun rooms => some (ConnectionInfo.mk id userId rooms now now))
      (Finset.empty_inter K).symm) rfl
  cases op with
  | add uuid userId tx now => exact Prod.ext (hregister uuid userId tx now) rfl
  | addWithId id userId tx now => exact Prod.ext (hregister id userId tx now) rfl
  | remove c =>
    refine Prod.ext (View.ext rfl rfl ?_) rfl
    show (v.listed ∩ K) \ (v.within K).joined = (v.listed \ v.joined) ∩ K
    rw [joined_within]
    ext r
    simp only [Finset.mem_sdiff, Finset.mem_inter]
    tauto
  | joinRoom c r => simp only [step, joinRoom_within h, Ret.within]
  | leaveRoom c r => simp only [step, leaveRoom_within h, Ret.within]
  | touch c now =>
    refine Prod.ext (View.ext rfl ?_ rfl) rfl
    show (v.info.map _).map _ = (v.info.map _).map _
    rw [Option.map_map, Option.map_map]
    rfl

/-- A join or a leave of another room does not show. -/
theorem within_step {K : Finset RoomId} {op : Op χ} (h : ¬ op.Within K) (v : View χ) :
    (v.step op).1.within K = v.within K := by
  cases op with
  | joinRoom c r =>
    have hr : r ∉ K := h
    show (v.joinRoom r).1.within K = v.within K
    rcases v.joinRoom_cases r with hj | ⟨info, hi, -, hj⟩
    · rw [hj]
    · rw [hj]
      refine View.ext rfl ?_ (Finset.insert_inter_of_notMem hr)
      show some { info with rooms := insert r info.rooms ∩ K } = v.info.map _
      rw [hi, Finset.insert_inter_of_notMem hr]
      rfl
  | leaveRoom c r =>
    have hr : r ∉ K := h
    have herase (s : Finset RoomId) : s.erase r ∩ K = s ∩ K := by
      rw [Finset.erase_inter, Finset.erase_eq_of_notMem fun hmem => hr (Finset.mem_inter.1 hmem).2]
    show (v.leaveRoom r).1.within K = v.within K
    rcases v.leaveRoom_cases r with hl | ⟨info, hi, -, hl⟩
    · rw [hl]
    · rw [hl]
      refine View.ext rfl ?_ (herase v.listed)
      show some { info with rooms := info.rooms.erase r ∩ K } = v.info.map _
      rw [hi, herase]
      rfl
  | _ => exact absurd trivial h

end View

namespace ConnectionManager

/-- The manager `m'` is `m`, with the rooms cut out that are not in `K`. -/
def CutTo (K : Finset RoomId) (m m' : ConnectionManager χ) : Prop :=
  ∀ c, m'.view c = (m.view c).within K

/-- A call within `K` does the same to the manager that is cut down. -/
theorem CutTo.step {K : Finset RoomId} {m m' : ConnectionManager χ} (h : CutTo K m m')
    {call : HashIter String × Op χ} (hcall : call.2.Within K) :
    CutTo K (m.step call).1 (m'.step call).1 ∧ (m.step call).2.within K = (m'.step call).2 := by
  have hstep (c : ConnId) := View.step_within hcall (m.view c)
  constructor
  · intro c
    rw [view_step, view_step, h, hstep]
    split_ifs <;> rfl
  · rw [answer_step, answer_step, h, hstep]

/-- **A join or leave beyond `K` does nothing to what is cut down.** -/
theorem CutTo.step_left {K : Finset RoomId} {m m' : ConnectionManager χ} (h : CutTo K m m')
    {call : HashIter String × Op χ} (hcall : ¬ call.2.Within K) : CutTo K (m.step call).1 m' := by
  intro c
  rw [view_step, h]
  split_ifs
  · exact (View.within_step hcall (m.view c)).symm
  · rfl

/-- Which members the rooms show once they are cut down. -/
theorem CutTo.roomMembers {K : Finset RoomId} {m m' : ConnectionManager χ} (h : CutTo K m m')
    (hm : m.Consistent) (hm' : m'.Consistent) (r : RoomId) :
    m'.roomMembers r = if r ∈ K then m.roomMembers r else none := by
  have hget : m'.rooms.get r = if r ∈ K then m.rooms.get r else ∅ := by
    ext c
    have hlisted : r ∈ (m'.view c).listed ↔ r ∈ (m.view c).listed ∩ K := by
      rw [h c]
      rfl
    rw [Finset.mem_inter, mem_view_listed, mem_view_listed] at hlisted
    rw [hlisted]
    split_ifs with hr <;> simp [hr]
  show m'.rooms.lookup r = if r ∈ K then m.rooms.lookup r else none
  rw [hm'.tight.lookup_eq, hm.tight.lookup_eq, hget]
  by_cases hr : r ∈ K
  · rw [if_pos hr, if_pos hr]
  · rw [if_neg hr, if_neg hr, if_pos rfl]

/-- **Rooms do not interfere.**  Leave the joins and leaves of all rooms but those
of `K` out of a run.  The other calls return the same, but for the rooms in the
metadata of removed connections; and the manager at the end is the same, with the
other rooms cut out of the metadata and of the index. -/
theorem rooms_separate (calls : List (HashIter String × Op χ)) (K : Finset RoomId) :
    let kept := calls.filter fun call => call.2.Within K
    let m := (machine χ).run new calls
    let m' := (machine χ).run new kept
    ((machine χ).answersTo (fun call => call.2.Within K) new calls).map (Ret.within K) =
        (machine χ).answers new kept ∧
      m'.senders = m.senders ∧ (∀ c, m'.get c = (m.get c).map (ConnectionInfo.within K)) ∧
      ∀ r, m'.roomMembers r = if r ∈ K then m.roomMembers r else none := by
  intro kept m m'
  have hnew : CutTo K (new : ConnectionManager χ) new := by
    intro c
    rw [view_new]
    rfl
  obtain ⟨hans, hcut⟩ := (machine χ).run_filter (R := CutTo K) (f := Ret.within K)
    (K := fun call => call.2.Within K) (fun _ _ _ hcall h => h.step hcall)
    (fun _ _ _ hcall h => h.step_left hcall) hnew calls
  refine ⟨hans, ?_, fun c => congrArg View.info (hcut c), ?_⟩
  · exact Finmap.ext_lookup fun c => congrArg View.sender (hcut c)
  · exact hcut.roomMembers (consistent_new.run calls) (consistent_new.run kept)

end ConnectionManager
end Denshin
