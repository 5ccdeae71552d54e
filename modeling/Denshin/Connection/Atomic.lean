/-
# Removing, joining and leaving, all or nothing

`remove`, `join_room` and `leave_room` each edit several maps in turn: `remove`
drops the sender before it knows whether the id is registered and then walks the
rooms of the metadata, and the other two change the connection's own set before
the room's.  In a reachable state a call nevertheless does the whole of its
change or none of it (`all_or_nothing`).  What the whole is, is `Removed` for
`remove` and `Moved` for the other two, map by map: the new value where the map
changes, and the old one at every other key.

Two parts of the invariant carry this.  `senders` and `info` have the same keys,
so the sender that a failing `remove` drops does not exist; and a joined room
has an entry that lists the connection, so the index is edited at every room of
the metadata.
-/

import Denshin.Connection.View

namespace Denshin

open Basis Function

variable {χ : Type*}

namespace ConnectionManager

/-- The sender half held for an id. -/
def sender (m : ConnectionManager χ) (connectionId : ConnId) : Option χ :=
  m.senders.lookup connectionId

/-- `m'` is `m` without the connection `c`, whose metadata was `info`. -/
structure Removed (m m' : ConnectionManager χ) (c : ConnId) (info : ConnectionInfo) : Prop where
  registered : (m.sender c).isSome
  senders : m'.sender = update m.sender c none
  infos : m'.get = update m.get c none
  left : ∀ r ∈ info.rooms, ∃ members, m.roomMembers r = some members ∧ c ∈ members ∧
    m'.roomMembers r = Multimap.without members c
  frame : ∀ r ∉ info.rooms, m'.roomMembers r = m.roomMembers r

/-- `m'` is `m` with the rooms of `c`, whose metadata was `info`, and the entry
of the room `r` replaced. -/
structure Moved (m m' : ConnectionManager χ) (c : ConnId) (r : RoomId) (info : ConnectionInfo)
    (joined : Finset RoomId) (members : Option (Finset ConnId)) : Prop where
  registered : m.get c = some info
  senders : m'.sender = m.sender
  infos : m'.get = update m.get c (some { info with rooms := joined })
  rooms : m'.roomMembers = update m.roomMembers r members

/-! ### What the invariant says of a registered connection -/

/-- A registered connection has a sender. -/
theorem Consistent.sender_isSome {m : ConnectionManager χ} (h : m.Consistent) (c : ConnId) :
    (m.sender c).isSome = (m.get c).isSome := (h.views c).sender_isSome

/-- A joined room has an entry, and the entry lists the connection. -/
theorem Consistent.exists_members {m : ConnectionManager χ} (h : m.Consistent) {c : ConnId}
    {info : ConnectionInfo} (hi : m.get c = some info) {r : RoomId} (hr : r ∈ info.rooms) :
    ∃ members, m.roomMembers r = some members ∧ c ∈ members := by
  have hj : r ∈ (m.view c).joined := by
    rw [View.joined_of_info hi]
    exact hr
  exact Multimap.exists_of_mem_get (mem_view_listed.1 ((h.views c).joined_subset hj))

/-! ### `remove` -/

/-- Removing a registered connection: the room walk may take any order. -/
theorem Consistent.remove_some {m : ConnectionManager χ} (h : m.Consistent) (it : HashIter RoomId)
    {c : ConnId} {info : ConnectionInfo} (hi : m.get c = some info) :
    (m.remove it c).2 = some info ∧ m.Removed (m.remove it c).1 c info := by
  have hrem : m.remove it c = ({
      senders := m.senders.erase c
      info := m.info.erase c
      rooms := m.rooms.unlinkAll (it.order info.rooms) c }, some info) := by
    unfold get at hi
    rw [remove, hi]
  have hrooms : ∀ r, (m.remove it c).1.roomMembers r =
      if r ∈ info.rooms then (m.roomMembers r).bind fun s => Multimap.without s c
      else m.roomMembers r := by
    intro r
    rw [hrem]
    show (m.rooms.unlinkAll (it.order info.rooms) c).lookup r = _
    rw [Multimap.lookup_unlinkAll]
    simp only [HashIter.mem_order, roomMembers]
  refine ⟨by rw [hrem], ?_, ?_, ?_, fun r hr => ?_, fun r hr => ?_⟩
  · rw [h.sender_isSome, hi, Option.isSome_some]
  · rw [hrem]
    exact lookup_erase_eq m.senders c
  · rw [hrem]
    exact lookup_erase_eq m.info c
  · obtain ⟨members, hm, hc⟩ := h.exists_members hi hr
    refine ⟨members, hm, hc, ?_⟩
    rw [hrooms, if_pos hr, hm, Option.bind_some]
  · rw [hrooms, if_neg hr]

/-- A failing `remove` drops a sender that is not there. -/
theorem Consistent.remove_none {m : ConnectionManager χ} (h : m.Consistent) (it : HashIter RoomId)
    {c : ConnId} (hn : (m.remove it c).2 = none) : (m.remove it c).1 = m := by
  rcases hi : m.get c with _ | info
  · have hs : m.sender c = none := by
      rw [← Option.not_isSome_iff_eq_none, h.sender_isSome, hi]
      exact Bool.false_ne_true
    unfold get at hi
    rw [remove, hi]
    show { m with senders := m.senders.erase c } = m
    rw [erase_of_lookup_none hs]
  · rw [(h.remove_some it hi).1] at hn
    exact absurd hn (Option.some_ne_none _)

/-! ### `join_room` and `leave_room` -/

/-- A join either fails and changes nothing, or adds the pair to both copies. -/
theorem joinRoom_cases (m : ConnectionManager χ) (c : ConnId) (r : RoomId) :
    m.joinRoom c r = (m, false) ∨ (m.joinRoom c r).2 = true ∧ ∃ info, r ∉ info.rooms ∧
      m.Moved (m.joinRoom c r).1 c r info (insert r info.rooms)
        (some (insert c ((m.roomMembers r).getD ∅))) := by
  unfold joinRoom
  rcases hi : m.info.lookup c with _ | info
  · exact Or.inl rfl
  · by_cases hr : r ∈ info.rooms
    · exact Or.inl (if_pos hr)
    · refine Or.inr ?_
      simp only [hr, if_false]
      exact ⟨trivial, info, hr, hi, rfl, lookup_insert_eq m.info c _,
        lookup_insert_eq m.rooms r _⟩

/-- A leave either fails and changes nothing, or takes the pair out of both copies. -/
theorem Consistent.leaveRoom_cases {m : ConnectionManager χ} (h : m.Consistent) (c : ConnId)
    (r : RoomId) : m.leaveRoom c r = (m, false) ∨ (m.leaveRoom c r).2 = true ∧
      ∃ info members, r ∈ info.rooms ∧ m.roomMembers r = some members ∧ c ∈ members ∧
        m.Moved (m.leaveRoom c r).1 c r info (info.rooms.erase r)
          (Multimap.without members c) := by
  unfold leaveRoom
  rcases hi : m.info.lookup c with _ | info
  · exact Or.inl rfl
  · by_cases hr : r ∈ info.rooms
    · obtain ⟨members, hm, hc⟩ := h.exists_members hi hr
      refine Or.inr ?_
      simp only [hr, if_true]
      refine ⟨trivial, info, members, hr, hm, hc, hi, rfl, lookup_insert_eq m.info c _, ?_⟩
      funext r'
      unfold roomMembers at hm ⊢
      rw [Multimap.lookup_unlink, hm, Option.bind_some, update_apply]
    · exact Or.inl (if_neg hr)

/-- A call that fails and changes nothing, or else succeeds and does `P`. -/
theorem changed_or_not {m : ConnectionManager χ} {p : ConnectionManager χ × Bool} {P : Prop}
    (h : p = (m, false) ∨ p.2 = true ∧ P) : (p.2 = true → P) ∧ (p.2 = false → p.1 = m) := by
  rcases h with rfl | ⟨hp, hP⟩
  · exact ⟨fun h => absurd h Bool.false_ne_true, fun _ => rfl⟩
  · refine ⟨fun _ => hP, fun hf => ?_⟩
    rw [hp] at hf
    exact absurd hf.symm Bool.false_ne_true

/-- **All or nothing.**  In every reachable state, with any ids registered again on
the way: a call that succeeds does the whole of its change and nothing else, and
one that fails leaves the three maps as they are. -/
theorem all_or_nothing (calls : List (HashIter String × Op χ)) (it : HashIter RoomId) (c : ConnId)
    (r : RoomId) :
    let m := (machine χ).run new calls
    ((∀ info, m.get c = some info →
        (m.remove it c).2 = some info ∧ m.Removed (m.remove it c).1 c info) ∧
      ((m.remove it c).2 = none → (m.remove it c).1 = m)) ∧
    (((m.joinRoom c r).2 = true → ∃ info, r ∉ info.rooms ∧
        m.Moved (m.joinRoom c r).1 c r info (insert r info.rooms)
          (some (insert c ((m.roomMembers r).getD ∅)))) ∧
      ((m.joinRoom c r).2 = false → (m.joinRoom c r).1 = m)) ∧
    (((m.leaveRoom c r).2 = true → ∃ info members, r ∈ info.rooms ∧
        m.roomMembers r = some members ∧ c ∈ members ∧
        m.Moved (m.leaveRoom c r).1 c r info (info.rooms.erase r)
          (Multimap.without members c)) ∧
      ((m.leaveRoom c r).2 = false → (m.leaveRoom c r).1 = m)) := by
  intro m
  have hm : m.Consistent := consistent_new.run calls
  refine ⟨⟨fun info hi => hm.remove_some it hi, hm.remove_none it⟩, ?_, ?_⟩
  · exact changed_or_not (m.joinRoom_cases c r)
  · exact changed_or_not (hm.leaveRoom_cases c r)

/-- A connection registered again, which its old room still lists: a removal
leaves that entry alone, and a join puts the room back into its metadata. -/
theorem all_or_nothing_rejoined :
    let calls : List (HashIter String × Op ℕ) :=
      [(default, .addWithId "c" none 0 .zero), (default, .joinRoom "c" "r"),
        (default, .addWithId "c" none 1 .zero)]
    let m := (machine ℕ).run new calls
    (m.remove default "c").1.roomMembers "r" = some {"c"} ∧
      ∃ info, (m.joinRoom "c" "r").1.get "c" = some info ∧ "r" ∈ info.rooms := by
  intro calls m
  obtain ⟨⟨hremove, -⟩, ⟨hjoin, -⟩, -⟩ := all_or_nothing calls default "c" "r"
  constructor
  · obtain ⟨-, hremoved⟩ := hremove (.new "c" none .zero) (by decide)
    rw [hremoved.frame "r" (by decide)]
    decide
  · obtain ⟨info, -, hmoved⟩ := hjoin (by decide)
    exact ⟨_, by rw [hmoved.infos, update_self], Finset.mem_insert_self "r" info.rooms⟩

end ConnectionManager
end Denshin
