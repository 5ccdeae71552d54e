/-
# No membership is lost

`Consistent` is kept by every call, so it holds after every run.  Read at one
connection it says that nothing the manager tells a client is undone behind its
back: who was told it joined a room stays in it until it leaves, is removed or
is registered again (`joined_run`), and since the room lists whoever joined it,
every `send_to_room` until then reaches its channel.
-/

import Denshin.Connection.World

namespace Denshin

open Basis

variable {χ : Type*}

/-- A joined room stays joined until the connection leaves it, is removed or is
registered again. -/
theorem View.mem_joined_step {v : View χ} {op : Op χ} {r : RoomId} (hr : r ∈ v.joined)
    (hb : ¬ op.rebinds = true) (hl : op ≠ .leaveRoom op.conn r) : r ∈ (v.step op).1.joined := by
  cases op with
  | add => exact absurd rfl hb
  | addWithId => exact absurd rfl hb
  | remove => exact absurd rfl hb
  | joinRoom c r' =>
    rcases v.joinRoom_cases r' with h | ⟨info, hi, -, h⟩ <;> rw [View.step, h]
    · exact hr
    · rw [joined_of_info hi] at hr
      exact Finset.mem_insert_of_mem hr
  | leaveRoom c r' =>
    have hne : r ≠ r' := fun he => hl (by rw [he]; rfl)
    rcases v.leaveRoom_cases r' with h | ⟨info, hi, -, h⟩ <;> rw [View.step, h]
    · exact hr
    · rw [joined_of_info hi] at hr
      exact Finset.mem_erase.2 ⟨hne, hr⟩
  | touch c now =>
    rw [View.step, joined_touch]
    exact hr

/-- A join that returns `true` names a registered connection, and puts the room
in its metadata. -/
theorem View.joined_of_joinRoom {v : View χ} {r : RoomId} (h : (v.joinRoom r).2 = true) :
    v.info.isSome = true ∧ r ∈ (v.joinRoom r).1.joined := by
  rcases v.joinRoom_cases r with hj | ⟨info, hi, -, hj⟩ <;> rw [hj] at h ⊢
  · exact absurd h Bool.false_ne_true
  · exact ⟨by rw [hi]; rfl, Finset.mem_insert_self r _⟩

namespace World

/-- The calls that can end a membership. -/
def Ends (c : ConnId) (r : RoomId) (cmd : Cmd) : Prop :=
  cmd.Rebinds c ∨ cmd = .mutate (.leaveRoom c r)

/-- **A membership lasts through every call that cannot end it.** -/
theorem joined_step {w : World} {c : ConnId} {r : RoomId} (h : r ∈ (w.mgr.view c).joined)
    {call : HashIter String × Cmd} (hc : ¬ Ends c r call.2) :
    r ∈ ((w.step call).1.mgr.view c).joined := by
  obtain ⟨it, cmd⟩ := call
  cases cmd with
  | mutate op =>
    rw [view_step]
    split_ifs with hop
    · subst hop
      refine View.mem_joined_step h (fun hb => hc (Or.inl ⟨?_, rfl⟩)) fun hl => hc (Or.inr ?_)
      · rwa [Op.rebinds_withTx] at hb
      · rw [Op.conn_withTx, Op.withTx_eq_leaveRoom] at hl
        exact congrArg Cmd.mutate hl
    · exact h
  | send s => exact h
  | ask q => exact h
  | dropReceiver rx => rwa [mgr_step_dropReceiver]

/-- **A membership lasts until it is ended.** -/
theorem joined_run {w : World} {c : ConnId} {r : RoomId} (h : r ∈ (w.mgr.view c).joined)
    {calls : List (HashIter String × Cmd)} (hc : ∀ call ∈ calls, ¬ Ends c r call.2) :
    r ∈ ((machine.run w calls).mgr.view c).joined := by
  refine Machine.Along.run_inv (I := fun w' => r ∈ (w'.mgr.view c).joined) ?_
    (Machine.along_of_forall hc w) h
  intro w' call hw' hcall
  exact joined_step hw' hcall

/-- A room in the metadata of a connection lists it. -/
theorem shown_of_joined {w : World} (h : w.Wired) {c : ConnId} {r : RoomId}
    (hr : r ∈ (w.mgr.view c).joined) : c ∈ w.mgr.rooms.get r :=
  ConnectionManager.mem_view_listed.1 ((h.consistent.views c).joined_subset hr)

/-- **A connection that joined is reached** by the sends to the room, on the
channel it had when it joined. -/
theorem reached_of_joined {w : World} (h : w.Wired) {c : ConnId} {r : RoomId} {x : ℕ}
    (hx : w.mgr.senders.lookup c = some x) (hr : r ∈ (w.mgr.view c).joined)
    {calls : List (HashIter String × Cmd)} (hc : ∀ call ∈ calls, ¬ Ends c r call.2)
    (it : HashIter String) (msg : Message) :
    ((machine.run w calls).step (it, .send (.sendToRoom r msg))).1.chans x =
      (((machine.run w calls).chans x).send msg).1 := by
  have hw := h.run calls
  have hlookup := (lookup_run fun call hcall hb => hc call hcall (Or.inl hb)).trans hx
  refine (ConnectionManager.send_apply_of_lookup hw.own it _ (.sendToRoom r msg)
    hlookup).trans (if_pos ?_)
  exact shown_of_joined hw (joined_run hr hc)

/-- A registered connection has a channel. -/
theorem exists_sender {w : World} (h : w.Wired) {c : ConnId}
    (hc : (w.mgr.view c).info.isSome = true) : ∃ x, w.mgr.senders.lookup c = some x :=
  Option.isSome_iff_exists.1 ((h.consistent.views c).sender_isSome.trans hc)

/-- **No lost membership.**  After every run of calls, (a) the keys of `senders`
and `info` agree and every metadata has its own id, (b) no room is mapped to
the empty set, (c) a room in the metadata of a connection lists it.  Hence a
connection whose `join_room` returned `true`, and that has not left the room
since nor been removed or registered again, is reached by every `send_to_room`,
and `send_to` fails on a registered id only if its receiver is gone. -/
theorem no_lost_membership (calls : List (HashIter String × Cmd)) :
    ((after calls).mgr.senders.keys = (after calls).mgr.info.keys ∧
      ∀ c info, (after calls).mgr.get c = some info → info.id = c) ∧
    (∀ r, (after calls).mgr.roomMembers r ≠ some ∅) ∧
    (∀ c info, (after calls).mgr.get c = some info → ∀ r ∈ info.rooms,
      ∃ members, (after calls).mgr.roomMembers r = some members ∧ c ∈ members) ∧
    (∀ pre it c r post, calls = pre ++ (it, .mutate (.joinRoom c r)) :: post →
      ((after pre).step (it, .mutate (.joinRoom c r))).2 = .ret (.flag true) →
      (∀ call ∈ post, ¬ call.2.Rebinds c ∧ call.2 ≠ .mutate (.leaveRoom c r)) →
      ∃ x, (after pre).mgr.senders.lookup c = some x ∧
        ∀ it' msg, ((after calls).step (it', .send (.sendToRoom r msg))).1.chans x =
          (((after calls).chans x).send msg).1) ∧
    (∀ c it msg, (after calls).mgr.contains c = true →
      ((after calls).step (it, .send (.sendTo c msg))).2 = .sent (.flag false) →
      ∃ x, (after calls).mgr.senders.lookup c = some x ∧
        ((after calls).chans x).rxOpen = false) := by
  have hw := wired_after calls
  have hc := hw.consistent
  refine ⟨⟨hc.keys_eq, fun c => (hc.views c).info_id⟩, hc.tight, fun c info hi r hr => ?_, ?_,
    fun c it msg hreg hfail => ?_⟩
  · refine Multimap.exists_of_mem_get (shown_of_joined hw ?_)
    rwa [View.joined_of_info (v := (after calls).mgr.view c) hi]
  · rintro pre it c r post rfl hjoin hpost
    have hpre := wired_after pre
    have hjoin' : (((after pre).mgr.view c).joinRoom r).2 = true := by
      rw [reply_step] at hjoin
      exact Ret.flag.inj (Reply.ret.inj hjoin)
    obtain ⟨hinfo, hjoined⟩ := View.joined_of_joinRoom hjoin'
    obtain ⟨x, hx⟩ := exists_sender hpre hinfo
    have hends : ∀ call ∈ post, ¬ Ends c r call.2 := fun call hcall h =>
      h.elim (hpost call hcall).1 (hpost call hcall).2
    refine ⟨x, hx, fun it' msg => ?_⟩
    rw [after_append]
    refine reached_of_joined (hpre.step _) ?_ ?_ hends it' msg
    · rw [lookup_step, if_neg fun h => Bool.false_ne_true h.1, hx]
    · rw [view_step, Op.conn, if_pos rfl]
      exact hjoined
  · obtain ⟨x, hx⟩ := exists_sender hw hreg
    refine ⟨x, hx, ?_⟩
    simpa [step, ConnectionManager.send, ConnectionManager.sendTo, hx, Channels.offer] using hfail

/-- Two connections share a room; the second leaves it and is registered again,
and the first is still reached. -/
theorem no_lost_membership_shared_room :
    let calls : List (HashIter String × Cmd) :=
      [(default, .mutate (.addWithId "a" none () .zero)),
        (default, .mutate (.addWithId "b" none () .zero)),
        (default, .mutate (.joinRoom "b" "r")), (default, .mutate (.joinRoom "a" "r")),
        (default, .mutate (.leaveRoom "b" "r")),
        (default, .mutate (.addWithId "b" none () (.ofSecs 1)))]
    ∃ x, (after (calls.take 3)).mgr.senders.lookup "a" = some x ∧
      ∀ it' msg, ((after calls).step (it', .send (.sendToRoom "r" msg))).1.chans x =
        (((after calls).chans x).send msg).1 := by
  intro calls
  refine (no_lost_membership calls).2.2.2.1 (calls.take 3) default "a" "r" (calls.drop 4) rfl
    (by decide) ?_
  simp [calls, Cmd.Rebinds, Op.rebinds, Op.conn]

end World
end Denshin
