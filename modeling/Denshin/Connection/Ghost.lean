/-
# Ghost members

A ghost is a member of a room whose own metadata does not name the room: it
cannot leave the room, and `remove` does not take it out.  No call makes one
except a registration of an id that is already registered and in a room.
`add_with_id` then replaces the metadata by one with no rooms and leaves the
room index as it was.  `remove` cleans the rooms the new metadata names, so the
old memberships outlive the connection, against the promise of its docstring
("cleaning up all room memberships").

`noGhost_throughout_iff` is exact: a run is free of ghosts all along if and
only if no `add_with_id` of it names an id that is registered and in a room.
A registration through `add` cannot, since its UUID is assumed to be new
(`FreshUuids`).
-/

import Denshin.Connection.View

namespace Denshin

open Basis

variable {χ : Type*}

/-- The UUID a call draws. -/
def Op.draws : Op χ → Option ConnId
  | .add uuid .. => some uuid
  | _ => none

/-- No UUID that `add` draws was registered earlier in the run. -/
def FreshUuids (ops : List (Op χ)) : Prop :=
  ops.Pairwise fun op op' => op'.draws = none ∨ op.registers ≠ op'.draws

instance (ops : List (Op χ)) : Decidable (FreshUuids ops) :=
  inferInstanceAs (Decidable (ops.Pairwise fun op op' =>
    op'.draws = none ∨ op.registers ≠ op'.draws))

/-- No call before it registered the UUID of an `add`. -/
theorem FreshUuids.not_registered {pre post : List (Op χ)} {uuid : ConnId}
    {userId : Option UserId} {tx : χ} {now : Instant}
    (h : FreshUuids (pre ++ .add uuid userId tx now :: post)) :
    ∀ op ∈ pre, op.registers ≠ some uuid := by
  intro op hop
  have h' := (List.pairwise_append.1 h).2.2 op hop _ List.mem_cons_self
  exact h'.resolve_left nofun

namespace View

/-- Every room that lists the connection is one it joined. -/
def NoGhost (v : View χ) : Prop := v.listed ⊆ v.joined

/-- A view nothing is known of stays so until the id is registered. -/
theorem step_empty {op : Op χ} (h : op.registers = none) :
    ((empty : View χ).step op).1 = empty := by
  cases op with
  | add => exact nomatch h
  | addWithId => exact nomatch h
  | remove => rfl
  | joinRoom => rfl
  | leaveRoom => rfl
  | touch => rfl

/-- A join makes no ghost. -/
theorem NoGhost.joinRoom {v : View χ} (h : v.NoGhost) (r : RoomId) : (v.joinRoom r).1.NoGhost := by
  rcases v.joinRoom_cases r with hj | ⟨info, hi, -, hj⟩ <;> rw [hj]
  · exact h
  · rw [NoGhost, joined_of_info hi] at h
    exact Finset.insert_subset_insert r h

/-- A leave makes no ghost. -/
theorem NoGhost.leaveRoom {v : View χ} (h : v.NoGhost) (r : RoomId) :
    (v.leaveRoom r).1.NoGhost := by
  rcases v.leaveRoom_cases r with hl | ⟨info, hi, -, hl⟩ <;> rw [hl]
  · exact h
  · rw [NoGhost, joined_of_info hi] at h
    exact Finset.erase_subset_erase r h

/-- Registering an id makes ghosts exactly of the rooms it was in. -/
theorem noGhost_register_iff {c : ConnId} {v : View χ} (hok : v.Ok c) (h : v.NoGhost)
    (id : ConnId) (userId : Option UserId) (tx : χ) (now : Instant) :
    (v.register id userId tx now).NoGhost ↔ v.joined = ∅ := by
  have hsame : v.listed = v.joined := Finset.Subset.antisymm h hok.joined_subset
  rw [← hsame]
  exact Finset.subset_empty

/-- **Which calls keep a view free of ghosts**: all of them, but a
registration only while the connection is in no room. -/
theorem noGhost_step_iff {v : View χ} (op : Op χ) (hok : v.Ok op.conn) (h : v.NoGhost) :
    (v.step op).1.NoGhost ↔ (op.registers = none ∨ v.joined = ∅) := by
  cases op with
  | add uuid userId tx now =>
    refine (noGhost_register_iff hok h uuid userId tx now).trans ?_
    exact (or_iff_right (nofun : Op.registers (.add uuid userId tx now) ≠ none)).symm
  | addWithId id userId tx now =>
    refine (noGhost_register_iff hok h id userId tx now).trans ?_
    exact (or_iff_right (nofun : Op.registers (.addWithId id userId tx now) ≠ none)).symm
  | remove c =>
    refine iff_of_true ?_ (Or.inl rfl)
    have hnone : v.listed \ v.joined = ∅ := Finset.sdiff_eq_empty_iff_subset.2 h
    exact hnone.le
  | joinRoom c r => exact iff_of_true (h.joinRoom r) (Or.inl rfl)
  | leaveRoom c r => exact iff_of_true (h.leaveRoom r) (Or.inl rfl)
  | touch c now =>
    refine iff_of_true ?_ (Or.inl rfl)
    rw [NoGhost, View.step, joined_touch]
    exact h

end View

namespace ConnectionManager

/-- **No ghost membership**: whoever a room shows is registered, and its
metadata names the room. -/
def NoGhost (m : ConnectionManager χ) : Prop :=
  ∀ r members c, m.roomMembers r = some members → c ∈ members →
    ∃ info, m.get c = some info ∧ r ∈ info.rooms

/-- The manager shows no ghost if no connection is one. -/
theorem noGhost_iff {m : ConnectionManager χ} : m.NoGhost ↔ ∀ c, (m.view c).NoGhost := by
  constructor
  · intro h c r hr
    rw [mem_view_listed] at hr
    obtain ⟨members, hm⟩ : ∃ members, m.rooms.lookup r = some members := by
      by_contra hn
      rw [Multimap.get_of_lookup_none (Option.eq_none_iff_forall_ne_some.2 (not_exists.1 hn))] at hr
      exact Finset.notMem_empty c hr
    rw [Multimap.get_of_lookup hm] at hr
    obtain ⟨info, hi, hri⟩ := h r members c hm hr
    rwa [View.joined_of_info (v := m.view c) hi]
  · intro h r members c hm hc
    have hr : r ∈ (m.view c).joined := h c (by rwa [mem_view_listed, Multimap.get_of_lookup hm])
    cases hi : m.info.lookup c with
    | none => simp [View.joined_of_info_none (v := m.view c) hi] at hr
    | some info =>
      rw [View.joined_of_info (v := m.view c) hi] at hr
      exact ⟨info, hi, hr⟩

/-- An id no call has registered is unknown to the manager. -/
theorem view_run_of_not_registered {calls : List (HashIter String × Op χ)} {c : ConnId}
    (h : ∀ call ∈ calls, call.2.registers ≠ some c) :
    ((machine χ).run new calls).view c = View.empty := by
  have halong : (machine χ).Along (fun _ call => call.2.registers ≠ some c) new calls :=
    Machine.along_of_forall h new
  refine Machine.Along.run_inv (I := fun m => m.view c = View.empty) ?_ halong (view_new c)
  intro m call hm hc
  rw [machine_step, view_step]
  split_ifs with hcc
  · rw [hm]
    refine View.step_empty ?_
    obtain ⟨it, op⟩ := call
    cases op <;> first | rfl | exact absurd (congrArg some hcc.symm) hc
  · exact hm

/-- Nothing is known of the id that `add` draws. -/
theorem view_run_of_fresh {calls pre : List (HashIter String × Op χ)} {it : HashIter String}
    {uuid : ConnId} {userId : Option UserId} {tx : χ} {now : Instant}
    (hfresh : FreshUuids (calls.map Prod.snd))
    (hp : pre ++ [(it, .add uuid userId tx now)] <+: calls) :
    ((machine χ).run new pre).view uuid = View.empty := by
  obtain ⟨post, rfl⟩ := hp
  have hfresh' : FreshUuids (pre.map Prod.snd ++ .add uuid userId tx now ::
      post.map Prod.snd) := by simpa using hfresh
  exact view_run_of_not_registered fun call hcall =>
    hfresh'.not_registered call.2 (List.mem_map_of_mem hcall)

/-- The step condition: a registered id is in no room when it is registered. -/
def RegistersClean (m : ConnectionManager χ) (call : HashIter String × Op χ) : Prop :=
  call.2.registers = none ∨ (m.view call.2.conn).joined = ∅

/-- One call keeps the manager free of ghosts exactly when it meets the
condition. -/
theorem noGhost_step_iff {m : ConnectionManager χ} (hc : m.Consistent) (h : m.NoGhost)
    (call : HashIter String × Op χ) : (m.step call).1.NoGhost ↔ m.RegistersClean call := by
  rw [noGhost_iff] at h ⊢
  have hv := View.noGhost_step_iff call.2 (hc.views call.2.conn) (h call.2.conn)
  constructor
  · intro h'
    have h'' := h' call.2.conn
    rw [view_step, if_pos rfl] at h''
    exact hv.1 h''
  · intro hp c
    rw [view_step]
    split_ifs with hcc
    · subst hcc
      exact hv.2 hp
    · exact h c

/-- **When a run stays free of ghosts.**  All along a run from `new()`, every
member of every room is registered and its metadata names the room, if and only
if no `add_with_id` of the run names an id that is registered, at that moment,
with a room in its metadata. -/
theorem noGhost_throughout_iff (calls : List (HashIter String × Op χ))
    (hfresh : FreshUuids (calls.map Prod.snd)) :
    (∀ pre, pre <+: calls → ((machine χ).run new pre).NoGhost) ↔
      ∀ pre it id userId tx now, pre ++ [(it, .addWithId id userId tx now)] <+: calls →
        ∀ info, ((machine χ).run new pre).get id = some info → info.rooms = ∅ := by
  have hnew : (new : ConnectionManager χ).NoGhost := by
    rw [noGhost_iff]
    intro c
    rw [view_new]
    exact Finset.empty_subset _
  have hexact := (machine χ).throughout_iff_along (I := NoGhost) (J := Consistent)
    (P := RegistersClean) (fun m call hm => hm.step call)
    (fun m call hc h => noGhost_step_iff hc h call) consistent_new hnew calls
  refine hexact.trans (Machine.along_iff.trans ?_)
  constructor
  · intro h pre it id userId tx now hp info hi
    have hclean := (h pre _ hp).resolve_left nofun
    rwa [Op.conn, View.joined_of_info (v := ((machine χ).run new pre).view id) hi] at hclean
  · rintro h pre ⟨it, op⟩ hp
    cases op with
    | add uuid userId tx now =>
      right
      rw [Op.conn, view_run_of_fresh hfresh hp, View.joined_empty]
    | addWithId id userId tx now =>
      right
      cases hi : ((machine χ).run new pre).get id with
      | none => exact View.joined_of_info_none hi
      | some info => exact (View.joined_of_info hi).trans (h pre it id userId tx now hp info hi)
    | remove => exact Or.inl rfl
    | joinRoom => exact Or.inl rfl
    | leaveRoom => exact Or.inl rfl
    | touch => exact Or.inl rfl

/-- A connection joins a room and its id is registered again, beside one that is
registered under a UUID. -/
def rejoinRun : List (HashIter String × Op ℕ) :=
  [(HashIter.sorted, .add "u" none 2 .zero), (HashIter.sorted, .addWithId "c" none 0 .zero),
    (HashIter.sorted, .joinRoom "c" "r"), (HashIter.sorted, .addWithId "c" none 1 (.ofSecs 1)),
    (HashIter.sorted, .remove "c")]

/-- The equivalence at a run that fails both sides. -/
theorem noGhost_throughout_iff_rejoinRun :
    (∀ pre, pre <+: rejoinRun → ((machine ℕ).run new pre).NoGhost) ↔
      ∀ pre it id userId tx now, pre ++ [(it, .addWithId id userId tx now)] <+: rejoinRun →
        ∀ info, ((machine ℕ).run new pre).get id = some info → info.rooms = ∅ :=
  noGhost_throughout_iff rejoinRun (by decide)

/-- **A ghost.**  After the run the room still shows the connection, which is
not registered any more. -/
theorem rejoinRun_ghost : FreshUuids (rejoinRun.map Prod.snd) ∧
    ((machine ℕ).run new rejoinRun).roomMembers "r" = some {"c"} ∧
    ((machine ℕ).run new rejoinRun).get "c" = none ∧
    ¬ ((machine ℕ).run new rejoinRun).NoGhost := by
  have hmembers : ((machine ℕ).run new rejoinRun).roomMembers "r" = some {"c"} := by decide
  have hget : ((machine ℕ).run new rejoinRun).get "c" = none := by decide
  refine ⟨by decide, hmembers, hget, fun h => ?_⟩
  obtain ⟨info, hi, -⟩ := h "r" {"c"} "c" hmembers (Finset.mem_singleton_self "c")
  exact nomatch hget.symm.trans hi

end ConnectionManager
end Denshin
