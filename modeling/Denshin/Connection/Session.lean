/-
# Sessions

A connection is registered, joins and leaves rooms, and is removed.  When it is
gone the manager is the same as if it had never been, unless a room still lists
it (`no_trace_iff`): the calls on the connections that are gone can be left out
of the run, and the other calls that change the manager return what they return
without them.

Who is registered, and for which user, is decided by the last registration of
each id that no removal or registration followed (`connections_exact`).  The
rooms of all connections together are the members of all rooms together, but for
the ghosts (`memberships_balance`).
-/

import Denshin.Connection.Ghost
import Mathlib.Combinatorics.Enumerative.DoubleCounting

namespace Denshin

open Basis

variable {χ : Type*}

/-- A call registers the id it is about. -/
theorem Op.conn_of_registers {op : Op χ} {c : ConnId} (h : op.registers = some c) :
    op.conn = c := by
  cases op with
  | add => exact Option.some.inj h
  | addWithId => exact Option.some.inj h
  | _ => exact absurd h (Option.some_ne_none c).symm

namespace ConnectionManager

/-! ### Connections that are gone -/

/-- The connection is not registered, and no room lists it. -/
def Gone (m : ConnectionManager χ) (c : ConnId) : Prop :=
  m.contains c = false ∧ ∀ r members, m.roomMembers r = some members → c ∉ members

/-- A connection is gone when nothing is known of it. -/
theorem Consistent.gone_iff {m : ConnectionManager χ} (h : m.Consistent) {c : ConnId} :
    m.Gone c ↔ m.view c = View.empty := by
  constructor
  · rintro ⟨hreg, hrooms⟩
    have hinfo : (m.view c).info = none :=
      Option.not_isSome_iff_eq_none.1 (Bool.eq_false_iff.1 hreg)
    have hsender : (m.view c).sender = none := by
      have hboth := (h.views c).sender_isSome
      rw [hinfo] at hboth
      exact Option.not_isSome_iff_eq_none.1 (Bool.eq_false_iff.1 hboth)
    have hlisted : (m.view c).listed = ∅ := by
      refine Finset.eq_empty_of_forall_notMem fun r hr => ?_
      rw [mem_view_listed] at hr
      obtain ⟨members, hm, hc⟩ := Multimap.exists_of_mem_get hr
      exact hrooms r members hm hc
    exact View.ext hsender hinfo hlisted
  · intro hv
    constructor
    · show (m.view c).info.isSome = false
      rw [hv]
      rfl
    · intro r members hm hc
      have hr : r ∈ (m.view c).listed := by rwa [mem_view_listed, Multimap.get_of_lookup hm]
      rw [hv] at hr
      exact Finset.notMem_empty r hr

/-- **A connection that is gone leaves no trace.**  Let the connections of `D` be
left out of a run of calls that change the manager.  The other calls of the run
return the same, and the manager at the end is the same if and only if the
connections of `D` are gone.  Queries and sends are no calls of a run here: a
`count` or a broadcast in between would see the difference. -/
theorem no_trace_iff (calls : List (HashIter String × Op χ)) (D : Finset ConnId) :
    let m := (machine χ).run new calls
    let m' := (machine χ).run new ((slicing χ).callsBut (· ∈ D) calls)
    (slicing χ).answersBut (· ∈ D) new calls =
        (machine χ).answers new ((slicing χ).callsBut (· ∈ D) calls) ∧
      (m = m' ↔ ∀ c ∈ D, m.Gone c) := by
  intro m m'
  have hm : m.Consistent := consistent_new.run calls
  have hm' : m'.Consistent := consistent_new.run _
  obtain ⟨hans, hviews⟩ := (slicing χ).run_callsBut (· ∈ D) (fun _ _ => rfl) calls
  have hout : ∀ c ∈ D, m'.view c = View.empty := by
    intro c hc
    refine view_run_of_not_registered fun call hcall hreg => ?_
    have hkeep : call.2.conn ∉ D := of_decide_eq_true (List.mem_filter.1 hcall).2
    exact hkeep (Op.conn_of_registers hreg ▸ hc)
  refine ⟨hans, fun he c hc => ?_, fun hgone => hm.ext hm' fun c => ?_⟩
  · rw [hm.gone_iff, he]
    exact hout c hc
  · by_cases hc : c ∈ D
    · rw [hm.gone_iff.1 (hgone c hc), hout c hc]
    · exact hviews c hc

/-! ### Who is registered -/

end ConnectionManager

/-- The user for whom a call registers an id. -/
def Op.userFor : Op χ → Option UserId
  | .add _ userId _ _ => userId
  | .addWithId _ userId _ _ => userId
  | _ => none

/-- The call ends the current registration of its id, if there is one. -/
def Op.Ends (c : ConnId) (op : Op χ) : Prop := op.registers = some c ∨ op = .remove c

/-- The last registration of `c` was for the user `u`, and nothing ended it. -/
def RegisteredFor (calls : List (HashIter String × Op χ)) (c : ConnId) (u : Option UserId) : Prop :=
  ∃ pre call post, calls = pre ++ call :: post ∧ call.2.registers = some c ∧
    call.2.userFor = u ∧ ∀ later ∈ post, ¬ later.2.Ends c

/-- A call that ends a registration is one on its id. -/
theorem Op.conn_of_ends {op : Op χ} {c : ConnId} (h : op.Ends c) : op.conn = c := by
  rcases h with hreg | rfl
  · exact Op.conn_of_registers hreg
  · rfl

/-- What a call does to the user of the connection it is about. -/
theorem View.user_step (v : View χ) (op : Op χ) (u : Option UserId) :
    (v.step op).1.info.map ConnectionInfo.userId = some u ↔
      op.registers = some op.conn ∧ op.userFor = u ∨
        ¬ op.Ends op.conn ∧ v.info.map ConnectionInfo.userId = some u := by
  have hkeep : op.registers = none → (∀ c, op ≠ .remove c) →
      (v.step op).1.info.map ConnectionInfo.userId = v.info.map ConnectionInfo.userId →
      ((v.step op).1.info.map ConnectionInfo.userId = some u ↔
        op.registers = some op.conn ∧ op.userFor = u ∨
          ¬ op.Ends op.conn ∧ v.info.map ConnectionInfo.userId = some u) := by
    intro hreg hrem hsame
    have hends : ¬ op.Ends op.conn := by
      rintro (hr | hr)
      · exact absurd (hreg.symm.trans hr) (Option.some_ne_none _).symm
      · exact hrem _ hr
    rw [hsame, hreg]
    simp [hends]
  cases op with
  | add uuid userId tx now =>
    simp [View.step, View.register, ConnectionInfo.new, Op.registers, Op.userFor, Op.Ends, Op.conn]
  | addWithId id userId tx now =>
    simp [View.step, View.register, ConnectionInfo.new, Op.registers, Op.userFor, Op.Ends, Op.conn]
  | remove c => simp [View.step, View.remove, Op.registers, Op.Ends, Op.conn]
  | joinRoom c r =>
    refine hkeep rfl (by simp) ?_
    rcases v.joinRoom_cases r with h | ⟨info, hi, -, h⟩
    · rw [View.step, h]
    · rw [View.step, h, hi]
      rfl
  | leaveRoom c r =>
    refine hkeep rfl (by simp) ?_
    rcases v.leaveRoom_cases r with h | ⟨info, hi, -, h⟩
    · rw [View.step, h]
    · rw [View.step, h, hi]
      rfl
  | touch c now =>
    refine hkeep rfl (by simp) ?_
    show (v.info.map fun info => { info with lastSeen := now }).map ConnectionInfo.userId = _
    rw [Option.map_map]
    rfl

namespace ConnectionManager

/-- The metadata names the user of the last registration. -/
theorem registeredFor_iff (calls : List (HashIter String × Op χ)) (c : ConnId) (u : Option UserId) :
    (((machine χ).run new calls).get c).map ConnectionInfo.userId = some u ↔
      RegisteredFor calls c u := by
  have hstep : ∀ (m : ConnectionManager χ) (call : HashIter String × Op χ),
      (((machine χ).step m call).1.get c).map ConnectionInfo.userId = some u ↔
        (call.2.registers = some c ∧ call.2.userFor = u) ∨
          ¬ call.2.Ends c ∧ (m.get c).map ConnectionInfo.userId = some u := by
    intro m call
    have hview : ((machine χ).step m call).1.get c = ((m.step call).1.view c).info := rfl
    rw [hview, m.view_step call c]
    split_ifs with hc
    · have hself := (m.view c).user_step call.2 u
      rwa [← hc] at hself
    · have hreg : call.2.registers ≠ some c := fun h => hc (Op.conn_of_registers h).symm
      have hends : ¬ call.2.Ends c := fun h => hc (Op.conn_of_ends h).symm
      simp only [hreg, hends, false_and, false_or, not_false_eq_true, true_and]
      rfl
  have hnone : ¬ ((new : ConnectionManager χ).get c).map ConnectionInfo.userId = some u := by
    simp [get, new]
  have hsince := Machine.run_iff_since
    (I := fun m : ConnectionManager χ => (m.get c).map ConnectionInfo.userId = some u)
    (J := fun _ => True) (fun _ _ _ => trivial) (fun m call _ => hstep m call) trivial hnone calls
  refine hsince.trans (Machine.since_iff_of_calls.trans ?_)
  unfold RegisteredFor
  simp only [and_assoc]

/-- **Who is registered, and for whom.**  In every run, `connections_for_user`
returns each id at most once and exactly the ids whose last registration was for
the user and has not ended; `connection_ids` returns each id once that is
registered for anybody, and `count` is their number. -/
theorem connections_exact (calls : List (HashIter String × Op χ)) (it : HashIter String) :
    let m := (machine χ).run new calls
    (∀ u, (m.connectionsForUser it u).Nodup ∧
      ∀ c, c ∈ m.connectionsForUser it u ↔ RegisteredFor calls c (some u)) ∧
    (m.connectionIds it).Nodup ∧
    (∀ c, c ∈ m.connectionIds it ↔ ∃ u, RegisteredFor calls c u) ∧
    m.count = (m.connectionIds it).length := by
  intro m
  have hget : ∀ c u, RegisteredFor calls c u ↔ ∃ info, m.info.lookup c = some info ∧
      info.userId = u := by
    intro c u
    rw [← registeredFor_iff, Option.map_eq_some_iff]
    rfl
  refine ⟨fun u => ⟨it.nodup_keys_filter m.info _, fun c => ?_⟩, it.nodup_keys m.info,
    fun c => ?_, ?_⟩
  · rw [hget, connectionsForUser, it.mem_keys_filter]
    simp
  · rw [connectionIds, it.keys_eq_order, it.mem_order, Finmap.mem_keys, Finmap.mem_iff]
    constructor
    · rintro ⟨info, hi⟩
      exact ⟨info.userId, (hget c _).2 ⟨info, hi, rfl⟩⟩
    · rintro ⟨u, hu⟩
      obtain ⟨info, hi, -⟩ := (hget c u).1 hu
      exact ⟨info, hi⟩
  · rw [connectionIds, it.keys_eq_order, it.length_order]
    rfl

/-! ### The two counts of memberships -/

/-- The members of all rooms. -/
def roomMemberships (m : ConnectionManager χ) : ℕ := ∑ r ∈ m.rooms.keys, m.roomCount r

/-- The rooms of all connections. -/
def connectionRooms (m : ConnectionManager χ) : ℕ :=
  ∑ c ∈ m.info.keys, (m.get c).elim 0 fun info => info.rooms.card

/-- `room_count` is the number of members listed. -/
theorem roomCount_eq (m : ConnectionManager χ) (r : RoomId) :
    m.roomCount r = (m.rooms.get r).card := by
  unfold roomCount
  rcases hm : m.rooms.lookup r with _ | members
  · rw [Multimap.get_of_lookup_none hm]
    rfl
  · rw [Multimap.get_of_lookup hm]
    rfl

/-- The connections whose metadata names a room. -/
theorem mem_joiners_iff {m : ConnectionManager χ} {r : RoomId} {c : ConnId} :
    c ∈ m.info.keys.filter (fun c => r ∈ (m.view c).joined) ↔ r ∈ (m.view c).joined := by
  refine Finset.mem_filter.trans (and_iff_right_of_imp fun hr => ?_)
  rcases hi : m.info.lookup c with _ | info
  · have hnone : (m.view c).joined = ∅ := View.joined_of_info_none hi
    rw [hnone] at hr
    exact absurd hr (Finset.notMem_empty r)
  · exact Finmap.mem_keys.2 (Finmap.mem_of_lookup_eq_some hi)

/-- **The memberships balance, but for the ghosts.**  In every state that a run
leads to, the rooms of all connections are no more than the members of all rooms,
and as many exactly if no room shows a ghost. -/
theorem memberships_balance (calls : List (HashIter String × Op χ)) :
    let m := (machine χ).run new calls
    m.connectionRooms ≤ m.roomMemberships ∧
      (m.connectionRooms = m.roomMemberships ↔ m.NoGhost) := by
  intro m
  have hm : m.Consistent := consistent_new.run calls
  let own (r : RoomId) : Finset ConnId := m.info.keys.filter fun c => r ∈ (m.view c).joined
  have hown : ∀ r, own r ⊆ m.rooms.get r := by
    intro r c hc
    exact mem_view_listed.1 ((hm.views c).joined_subset (mem_joiners_iff.1 hc))
  have hkey : ∀ r c, c ∈ m.rooms.get r → r ∈ m.rooms.keys := by
    intro r c hc
    obtain ⟨members, hr, -⟩ := Multimap.exists_of_mem_get hc
    exact Finmap.mem_keys.2 (Finmap.mem_of_lookup_eq_some hr)
  have hrooms : m.connectionRooms = ∑ r ∈ m.rooms.keys, (own r).card := by
    refine Eq.trans ?_ (Finset.sum_card_bipartiteAbove_eq_sum_card_bipartiteBelow
      fun (c : ConnId) (r : RoomId) => r ∈ (m.view c).joined)
    refine Finset.sum_congr rfl fun c _ => ?_
    have habove : m.rooms.keys.filter (fun r => r ∈ (m.view c).joined) = (m.view c).joined := by
      refine Finset.ext fun r => Finset.mem_filter.trans (and_iff_right_of_imp fun hr => ?_)
      exact hkey r c (mem_view_listed.1 ((hm.views c).joined_subset hr))
    show ((m.view c).info.elim 0 fun info => info.rooms.card) =
      (m.rooms.keys.filter fun r => r ∈ (m.view c).joined).card
    rw [habove, View.joined]
    rcases (m.view c).info with _ | info <;> rfl
  have hmembers : m.roomMemberships = ∑ r ∈ m.rooms.keys, (m.rooms.get r).card :=
    Finset.sum_congr rfl fun r _ => m.roomCount_eq r
  rw [hrooms, hmembers]
  refine ⟨Finset.sum_le_sum fun r _ => Finset.card_le_card (hown r), ?_⟩
  rw [Finset.sum_eq_sum_iff_of_le fun r _ => Finset.card_le_card (hown r), noGhost_iff]
  constructor
  · intro heq c r hr
    have hc : c ∈ m.rooms.get r := mem_view_listed.1 hr
    have hsame := Finset.eq_of_subset_of_card_le (hown r) (heq r (hkey r c hc)).ge
    rw [← hsame] at hc
    exact mem_joiners_iff.1 hc
  · intro hno r _
    refine congrArg Finset.card (Finset.Subset.antisymm (hown r) fun c hc => ?_)
    exact mem_joiners_iff.2 (hno c (mem_view_listed.2 hc))

end ConnectionManager
end Denshin
