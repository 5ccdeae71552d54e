/-
# Registering an id again

The room index is not keyed by registration: it lists ids.  An id that is
registered again while rooms still list it takes these memberships over,
although its metadata names no room, and the room sends reach the new receiver.

Two runs that differ only in which rooms `c` joined and left before it is
registered again agree on everything but the view of `c` (`SameBut`), and after
the registration on that view too, except for the rooms that list `c`.  So the
registration learns nothing of the earlier ones exactly when the room index
lists `c` in the same rooms in both runs, and gets room messages only for rooms
joined since exactly when no room lists it (`registration_learns_nothing_iff`).
-/

import Denshin.Connection.Delivery

namespace Denshin

open Basis

variable {χ : Type*}

/-- `room_members(r)` shows `c`. -/
def ConnectionManager.Shows (m : ConnectionManager χ) (r : RoomId) (c : ConnId) : Prop :=
  c ∈ (m.roomMembers r).getD ∅

/-- A join or a leave of `c`. -/
def Cmd.Moves (c : ConnId) : Cmd → Prop
  | .mutate (.joinRoom c' _) => c' = c
  | .mutate (.leaveRoom c' _) => c' = c
  | _ => False

instance (c : ConnId) : DecidablePred (Cmd.Moves c) := fun cmd => by
  unfold Cmd.Moves
  split <;> infer_instance

/-- An `add_with_id` of `c`. -/
def Cmd.Registers (c : ConnId) : Cmd → Prop
  | .mutate (.addWithId c' _ _ _) => c' = c
  | _ => False

/-- The room a send is for. -/
def Send.room : Send → Option RoomId
  | sendToRoom r _ => some r
  | sendToRoomExcept r _ _ => some r
  | _ => none

/-- A message to a room is for those that the room lists. -/
theorem Send.addressed_of_room {m : ConnectionManager χ} {s : Send} {c : ConnId} {r : RoomId}
    (hr : s.room = some r) (h : s.Addressed m c) : c ∈ m.rooms.get r := by
  cases s with
  | sendToRoom r' msg =>
    obtain rfl : r' = r := Option.some.inj hr
    exact h
  | sendToRoomExcept r' msg exceptId =>
    obtain rfl : r' = r := Option.some.inj hr
    exact h.1
  | sendTo => exact nomatch hr
  | broadcast => exact nomatch hr

/-- A room comes to list a connection only by a join that returns `true`. -/
theorem View.mem_listed_step {v : View χ} {op : Op χ} {r : RoomId}
    (h : r ∈ (v.step op).1.listed) :
    r ∈ v.listed ∨ op = .joinRoom op.conn r ∧ (v.step op).2 = .flag true := by
  cases op with
  | add => exact Or.inl h
  | addWithId => exact Or.inl h
  | remove => exact Or.inl (Finset.sdiff_subset h)
  | joinRoom c r' =>
    rcases v.joinRoom_cases r' with hj | ⟨info, -, -, hj⟩ <;> rw [View.step, hj] at h ⊢
    · exact Or.inl h
    · rcases Finset.mem_insert.1 h with rfl | h
      · exact Or.inr ⟨rfl, rfl⟩
      · exact Or.inl h
  | leaveRoom c r' =>
    rcases v.leaveRoom_cases r' with hl | ⟨info, -, -, hl⟩ <;> rw [View.step, hl] at h
    · exact Or.inl h
    · exact Or.inl (Finset.mem_of_mem_erase h)
  | touch => exact Or.inl h

namespace World

/-- The worlds differ at most in the view of `c`, and in their channels. -/
structure SameBut (c : ConnId) (w w' : World) : Prop where
  next : w.next = w'.next
  view : ∀ d, d ≠ c → w.mgr.view d = w'.mgr.view d

/-- Which of two worlds comes first does not matter. -/
theorem SameBut.symm {c : ConnId} {w w' : World} (h : SameBut c w w') : SameBut c w' w :=
  ⟨h.next.symm, fun d hd => (h.view d hd).symm⟩

/-- A call made in both worlds keeps them the same but for `c`. -/
theorem SameBut.step {c : ConnId} {w w' : World} (h : SameBut c w w')
    {a b : HashIter String × Cmd} (hab : a.2 = b.2) : SameBut c (w.step a).1 (w'.step b).1 := by
  obtain ⟨it, cmd⟩ := a
  obtain ⟨it', cmd'⟩ := b
  obtain rfl : cmd = cmd' := hab
  cases cmd with
  | mutate op =>
    refine ⟨?_, fun d hd => ?_⟩
    · simp only [World.step]
      rw [h.next]
    · rw [view_step, view_step, h.next, h.view d hd]
  | send s => exact ⟨h.next, h.view⟩
  | ask q => exact h
  | dropReceiver rx => exact ⟨by simpa using h.next, by simpa using h.view⟩

/-- A join or a leave of `c` on one side is not seen elsewhere. -/
theorem SameBut.step_left {c : ConnId} {w w' : World} (h : SameBut c w w')
    {a : HashIter String × Cmd} (ha : a.2.Moves c) : SameBut c (w.step a).1 w' := by
  obtain ⟨it, cmd⟩ := a
  have hview : ∀ op : Op Unit, op.conn = c → ∀ d, d ≠ c →
      (w.step (it, .mutate op)).1.mgr.view d = w'.mgr.view d := by
    intro op hop d hd
    rw [view_step, if_neg (hop ▸ hd), h.view d hd]
  cases cmd with
  | mutate op =>
    cases op with
    | joinRoom c' r => exact ⟨h.next, hview _ ha⟩
    | leaveRoom c' r => exact ⟨h.next, hview _ ha⟩
    | _ => exact ha.elim
  | _ => exact ha.elim

/-- **Runs that differ in calls on `c` alone** lead to worlds that differ in `c` alone. -/
theorem sameBut_after {c : ConnId} {pre₁ pre₂ : List (HashIter String × Cmd)}
    (h : (pre₁.map Prod.snd).filter (fun cmd => ¬ cmd.Moves c) =
      (pre₂.map Prod.snd).filter fun cmd => ¬ cmd.Moves c) :
    SameBut c (after pre₁) (after pre₂) := by
  refine machine.run_unwind (f := Prod.snd) (R := SameBut c) (K := fun cmd => ¬ cmd.Moves c)
    ?_ ?_ ?_ ⟨rfl, fun _ _ => rfl⟩ h
  · intro w w' a b hab hw
    exact hw.step hab
  · intro w w' a ha hw
    exact hw.step_left (not_not.1 ha)
  · intro w w' b hb hw
    exact (hw.symm.step_left (not_not.1 hb)).symm

/-- The worlds have the same manager, and the same channel `x`. -/
structure Twin (x : ℕ) (w w' : World) : Prop where
  wired : w.Wired
  wired' : w'.Wired
  mgr : w.mgr = w'.mgr
  next : w.next = w'.next
  chan : w.chans x = w'.chans x

/-- **The same call keeps them so**, in whatever order either iterates. -/
theorem Twin.step {x : ℕ} {w w' : World} (h : Twin x w w') {a b : HashIter String × Cmd}
    (hab : a.2 = b.2) : Twin x (w.step a).1 (w'.step b).1 := by
  obtain ⟨it, cmd⟩ := a
  obtain ⟨it', cmd'⟩ := b
  obtain rfl : cmd = cmd' := hab
  have hw := h.wired.step (it, cmd)
  have hw' := h.wired'.step (it', cmd)
  cases cmd with
  | mutate op =>
    refine ⟨hw, hw', ?_, ?_, ?_⟩
    · refine hw.consistent.ext hw'.consistent fun d => ?_
      rw [view_step, view_step, h.mgr, h.next]
    · simp only [World.step]
      rw [h.next]
    · rw [chans_mutate, chans_mutate, h.mgr, h.chan]
  | send s =>
    refine ⟨hw, hw', h.mgr, h.next, ?_⟩
    simp only [World.step]
    rcases em (∃ c, w.mgr.senders.lookup c = some x) with ⟨c, hc⟩ | hno
    · rw [ConnectionManager.send_apply_of_lookup h.wired.own it _ s hc]
      rw [h.mgr] at hc ⊢
      rw [ConnectionManager.send_apply_of_lookup h.wired'.own it' _ s hc, h.chan]
    · rw [not_exists] at hno
      rw [ConnectionManager.send_apply_of_not_sender h.wired.own it _ s hno]
      rw [h.mgr] at hno
      rw [ConnectionManager.send_apply_of_not_sender h.wired'.own it' _ s hno, h.chan]
  | ask q => exact h
  | dropReceiver rx =>
    refine ⟨hw, hw', by simpa using h.mgr, by simpa using h.next, ?_⟩
    simp only [World.step, h.next]
    split_ifs
    · simp only [Channels.dropRx_apply]
      split_ifs with hx
      · rw [← hx, h.chan]
      · exact h.chan
    · exact h.chan

/-- They also answer the same. -/
theorem Twin.reply {x : ℕ} {w w' : World} (h : Twin x w w') (it it' : HashIter String)
    (op : Op Unit) : (w.step (it, .mutate op)).2 = (w'.step (it', .mutate op)).2 := by
  rw [reply_step, reply_step, h.mgr, h.next]

/-- Twin worlds stay twins, whatever is called in both. -/
theorem Twin.run {x : ℕ} {w w' : World} (h : Twin x w w')
    {as bs : List (HashIter String × Cmd)} (hab : as.map Prod.snd = bs.map Prod.snd) :
    Twin x (machine.run w as) (machine.run w' bs) := by
  refine machine.run_rel (f := Prod.snd) (R := Twin x) ?_ h hab
  intro w w' a b hab' hw
  exact hw.step hab'

/-- **A registration makes twins** of worlds that differ in `c` only, if their
rooms list `c` alike. -/
theorem SameBut.twin {c : ConnId} {w w' : World} (h : SameBut c w w') (hw : w.Wired)
    (hw' : w'.Wired) (hlisted : (w.mgr.view c).listed = (w'.mgr.view c).listed)
    (it it' : HashIter String) (userId : Option UserId) (now : Instant) :
    Twin w.next (w.step (it, .mutate (.addWithId c userId () now))).1
      (w'.step (it', .mutate (.addWithId c userId () now))).1 := by
  have hstep := hw.step (it, .mutate (.addWithId c userId () now))
  have hstep' := hw'.step (it', .mutate (.addWithId c userId () now))
  have hreg : (Op.addWithId c userId () now).registers = some c := rfl
  refine ⟨hstep, hstep', ?_, ?_, ?_⟩
  · refine hstep.consistent.ext hstep'.consistent fun d => ?_
    rw [view_step, view_step, h.next]
    rcases eq_or_ne d c with rfl | hd
    · rw [Op.conn, if_pos rfl, if_pos rfl]
      exact View.ext rfl rfl hlisted
    · rw [Op.conn, if_neg hd, if_neg hd, h.view d hd]
  · simp only [World.step]
    rw [h.next]
  · have hnew' := (bound_of_registers hw' it' hreg).2.2
    rw [(bound_of_registers hw it hreg).2.2, h.next, hnew']

/-- What a client with id `c` and a receiver sees of a world: what was queued
for it, what joining and leaving returns, and which rooms show it. -/
structure Alike (c : ConnId) (x₁ x₂ : ℕ) (w₁ w₂ : World) : Prop where
  queue : (w₁.chans x₁).queue = (w₂.chans x₂).queue
  joinRoom : ∀ it₁ it₂ r, (w₁.step (it₁, .mutate (.joinRoom c r))).2 =
    (w₂.step (it₂, .mutate (.joinRoom c r))).2
  leaveRoom : ∀ it₁ it₂ r, (w₁.step (it₁, .mutate (.leaveRoom c r))).2 =
    (w₂.step (it₂, .mutate (.leaveRoom c r))).2
  shows : ∀ r, w₁.mgr.Shows r c ↔ w₂.mgr.Shows r c

/-- Twin worlds look alike to everybody. -/
theorem Twin.alike {x : ℕ} {w w' : World} (h : Twin x w w') (c : ConnId) : Alike c x x w w' where
  queue := by rw [h.chan]
  joinRoom it₁ it₂ r := h.reply it₁ it₂ _
  leaveRoom it₁ it₂ r := h.reply it₁ it₂ _
  shows r := by rw [h.mgr]

/-! ### Rooms joined since -/

/-- Only `c` sends on the channel, now or later. -/
def OnlyOf (c : ConnId) (x : ℕ) (w : World) : Prop :=
  x < w.next ∧ ∀ d, w.mgr.senders.lookup d = some x → d = c

/-- A channel stays that of its connection alone, in every run. -/
theorem OnlyOf.run {c : ConnId} {x : ℕ} {w : World} (h : OnlyOf c x w)
    (calls : List (HashIter String × Cmd)) : OnlyOf c x (machine.run w calls) := by
  refine machine.run_inv (I := OnlyOf c x) ?_ h calls
  intro w' call hw
  refine ⟨hw.1.trans_le (w'.next_le_step call), fun d hd => ?_⟩
  rw [machine_step, lookup_step] at hd
  split_ifs at hd
  · have hnew : w'.next = x := Option.some.inj hd
    exact absurd hnew.symm hw.1.ne
  · exact hw.2 d hd

/-- **A room lists `c` because it did, or because of a join since.** -/
theorem listed_run {c : ConnId} {r : RoomId} (w : World) (calls : List (HashIter String × Cmd))
    (h : r ∈ ((machine.run w calls).mgr.view c).listed) :
    r ∈ (w.mgr.view c).listed ∨ ∃ p ∈ machine.trace w calls,
      p.2.2 = .mutate (.joinRoom c r) ∧ (p.1.step p.2).2 = .ret (.flag true) := by
  induction calls generalizing w with
  | nil => exact Or.inl h
  | cons call calls ih =>
    rw [Machine.run_cons, machine_step] at h
    rw [Machine.trace]
    rcases ih _ h with hl | ⟨p, hp, hjoin⟩
    · obtain ⟨it, cmd⟩ := call
      cases cmd with
      | mutate op =>
        rw [view_step] at hl
        split_ifs at hl with hc
        · subst hc
          rcases View.mem_listed_step hl with hl | ⟨hop, hret⟩
          · exact Or.inl hl
          · rw [Op.withTx_eq_joinRoom, Op.conn_withTx] at hop
            refine Or.inr ⟨_, List.mem_cons_self, congrArg Cmd.mutate hop, ?_⟩
            rw [reply_step, hret]
        · exact Or.inl hl
      | send s => exact Or.inl hl
      | ask q => exact Or.inl hl
      | dropReceiver rx =>
        rw [mgr_step_dropReceiver] at hl
        exact Or.inl hl
    · exact Or.inr ⟨p, List.mem_cons_of_mem _ hp, hjoin⟩

/-- The index lists a connection in the rooms that show it. -/
theorem mem_view_listed_iff_shows {m : ConnectionManager ℕ} {r : RoomId} {c : ConnId} :
    r ∈ (m.view c).listed ↔ m.Shows r c := ConnectionManager.mem_view_listed

/-- A room message reaches the new receiver only from a room that lists `c`. -/
theorem listed_of_grown {w : World} (h : w.Wired) {c : ConnId} {x : ℕ} (honly : OnlyOf c x w)
    {it : HashIter String} {s : Send} {r : RoomId} (hr : s.room = some r)
    (hx : x ∈ Channels.grown w.chans (w.step (it, .send s)).1.chans) :
    r ∈ (w.mgr.view c).listed := by
  rw [Channels.mem_grown] at hx
  simp only [World.step] at hx
  rcases ConnectionManager.send_cases h.own it w.chans s x with hs | ⟨d, hd, haddr, -⟩
  · rw [hs] at hx
    exact absurd rfl hx
  · obtain rfl : d = c := honly.2 d hd
    rw [ConnectionManager.mem_view_listed]
    exact Send.addressed_of_room hr haddr

/-- **What a registration learns of the earlier ones.**  Take two runs that
differ only in the joins and leaves of `c` before an `add_with_id` of `c`, the
last one.  Whatever calls follow, the same in both, the client sees the same,
if and only if before the registration the same rooms showed `c` in both.  And
the new receiver gets room messages only for rooms joined since, if and only if
no room showed `c`. -/
theorem registration_learns_nothing_iff (c : ConnId) (userId : Option UserId) (now : Instant)
    (it₁ it₂ : HashIter String) (pre₁ pre₂ : List (HashIter String × Cmd))
    (h : (pre₁.map Prod.snd).filter (fun cmd => ¬ cmd.Moves c) =
      (pre₂.map Prod.snd).filter fun cmd => ¬ cmd.Moves c) :
    ((∀ post₁ post₂, post₁.map Prod.snd = post₂.map Prod.snd →
        (∀ call ∈ post₁, ¬ call.2.Registers c) →
        Alike c (after pre₁).next (after pre₂).next
          (after (pre₁ ++ (it₁, .mutate (.addWithId c userId () now)) :: post₁))
          (after (pre₂ ++ (it₂, .mutate (.addWithId c userId () now)) :: post₂))) ↔
      ∀ r, (after pre₁).mgr.Shows r c ↔ (after pre₂).mgr.Shows r c) ∧
    ((∀ post it s r, (∀ call ∈ post, ¬ call.2.Registers c) → s.room = some r →
        (after pre₁).next ∈ Channels.grown
          (after (pre₁ ++ (it₁, .mutate (.addWithId c userId () now)) :: post)).chans
          ((after (pre₁ ++ (it₁, .mutate (.addWithId c userId () now)) :: post)).step
            (it, .send s)).1.chans →
        ∃ p ∈ machine.trace ((after pre₁).step (it₁, .mutate (.addWithId c userId () now))).1 post,
          p.2.2 = .mutate (.joinRoom c r) ∧ (p.1.step p.2).2 = .ret (.flag true)) ↔
      ∀ r, ¬ (after pre₁).mgr.Shows r c) := by
  have hw₁ := wired_after pre₁
  have hw₂ := wired_after pre₂
  have hreg : (Op.addWithId c userId () now).registers = some c := rfl
  obtain ⟨-, hbound, hnew⟩ := bound_of_registers hw₁ it₁ hreg
  have hstep := hw₁.step (it₁, .mutate (.addWithId c userId () now))
  refine ⟨⟨fun hall r => ?_, fun hshow post₁ post₂ hpost _ => ?_⟩,
    fun hall r hshow => ?_, fun hshow post it s r _ hr hgrown => ?_⟩
  · -- The registration leaves the rooms as they were.
    have halike := (hall [] [] rfl (by simp)).shows r
    rw [after_append, after_append] at halike
    exact halike
  · have hlisted : ((after pre₁).mgr.view c).listed = ((after pre₂).mgr.view c).listed := by
      refine Finset.ext fun r => ?_
      rw [mem_view_listed_iff_shows, mem_view_listed_iff_shows, hshow r]
    have hsame := sameBut_after h
    have htwin := (hsame.twin hw₁ hw₂ hlisted it₁ it₂ userId now).run hpost
    rw [after_append, after_append, ← hsame.next]
    exact htwin.alike c
  · -- The room that shows `c` sends to the receiver at once.
    have hgrown := mem_grown_of_addressed hstep hbound (by rw [hnew]; rfl) default
      (s := .sendToRoom r "") hshow
    obtain ⟨p, hp, -⟩ := hall [] default (.sendToRoom r "") r (by simp) rfl
      (by rw [after_append]; exact hgrown)
    exact absurd hp List.not_mem_nil
  · have honly : OnlyOf c (after pre₁).next
        ((after pre₁).step (it₁, .mutate (.addWithId c userId () now))).1 := by
      refine ⟨hstep.lt_next c _ hbound, fun d hd => ?_⟩
      exact hstep.own d c _ hd hbound
    rw [after_append, Machine.run_cons, machine_step] at hgrown
    have hlisted := listed_of_grown (hstep.run post) (honly.run post) hr hgrown
    refine (listed_run _ post hlisted).resolve_left fun hl => ?_
    exact hshow r (mem_view_listed_iff_shows.1 hl)

/-- The two equivalences where they fail: one client joined a room before its
id was registered again, the other did not. -/
theorem registration_learns_nothing_iff_joined :
    let add : HashIter String × Cmd := (default, .mutate (.addWithId "c" none () .zero))
    let join : HashIter String × Cmd := (default, .mutate (.joinRoom "c" "r"))
    (∀ post₁ post₂, post₁.map Prod.snd = post₂.map Prod.snd →
        (∀ call ∈ post₁, ¬ call.2.Registers "c") →
        Alike "c" (after [add, join]).next (after [add]).next (after ([add, join] ++ add :: post₁))
          (after ([add] ++ add :: post₂))) ↔
      ∀ r, (after [add, join]).mgr.Shows r "c" ↔ (after [add]).mgr.Shows r "c" :=
  (registration_learns_nothing_iff "c" none .zero default default
    [(default, .mutate (.addWithId "c" none () .zero)),
      (default, .mutate (.joinRoom "c" "r"))]
    [(default, .mutate (.addWithId "c" none () .zero))] (by decide)).1

/-- **A registration that takes over a membership.**  The runs differ in one
join before the last registration; the same call after it sends to the new
receiver in the one and not in the other. -/
theorem rejoined_receives :
    let add : HashIter String × Cmd := (default, .mutate (.addWithId "c" none () .zero))
    let join : HashIter String × Cmd := (default, .mutate (.joinRoom "c" "r"))
    let send : HashIter String × Cmd := (default, .send (.sendToRoom "r" "m"))
    ([add, join].map Prod.snd).filter (fun cmd => ¬ cmd.Moves "c") =
        ([add].map Prod.snd).filter (fun cmd => ¬ cmd.Moves "c") ∧
      ((after ([add, join] ++ [add, send])).chans (after [add, join]).next).queue = ["m"] ∧
      ((after ([add] ++ [add, send])).chans (after [add]).next).queue = [] ∧
      ¬ Alike "c" (after [add, join]).next (after [add]).next (after ([add, join] ++ [add, send]))
        (after ([add] ++ [add, send])) := by
  intro add join send
  have h₁ : ((after ([add, join] ++ [add, send])).chans (after [add, join]).next).queue =
      ["m"] := by decide
  have h₂ : ((after ([add] ++ [add, send])).chans (after [add]).next).queue = [] := by decide
  refine ⟨by decide, h₁, h₂, fun h => ?_⟩
  exact nomatch h₁.symm.trans (h.queue.trans h₂)

end World
end Denshin
