/-
# The manager with its channels

A `World` is a manager, the channels its registrations opened, and how many
there were.  A registration opens the next channel, hands its receiver to the
client and keeps its sender; the sender is dropped when `senders` loses it,
because the id is removed or registered again.  Clients may drop their
receivers.  `Cmd` has every call on a manager, and a run is any list of them
with any iteration orders (`World.machine`).

`Wired` is the invariant that ties the two halves together: every connection
has a channel of its own, and the channels whose sender is still held are
exactly those of the registered connections.
-/

import Denshin.Connection.Send

namespace Denshin

open Basis

/-- The calls that only read. -/
inductive Query
  | get (connectionId : ConnId)
  | contains (connectionId : ConnId)
  | count
  | isEmpty
  | connectionIds
  | roomMembers (roomId : RoomId)
  | roomCount (roomId : RoomId)
  | roomIds
  | totalRooms
  | staleConnections (now : Instant) (timeout : Duration)
  | connectionsForUser (userId : UserId)
deriving DecidableEq

/-- What they return; `panic` is the panic of `stale_connections`. -/
inductive Answer
  | info (info : Option ConnectionInfo)
  | flag (b : Bool)
  | count (n : ℕ)
  | ids (ids : List String)
  | members (members : Option (Finset ConnId))
  | panic
deriving DecidableEq

/-- Every call on a manager, and a client dropping a receiver. A registration
does not choose its channel. -/
inductive Cmd
  | mutate (op : Op Unit)
  | send (s : Send)
  | ask (q : Query)
  | dropReceiver (rx : ℕ)
deriving DecidableEq

/-- What it returns. -/
inductive Reply
  | ret (r : Ret ℕ)
  | sent (r : Sent)
  | answer (a : Answer)
  | dropped
deriving DecidableEq

variable {χ χ' : Type*}

/-- The call with `tx` for the channel it opens. -/
def Op.withTx (tx : χ') : Op χ → Op χ'
  | .add uuid userId _ now => .add uuid userId tx now
  | .addWithId id userId _ now => .addWithId id userId tx now
  | .remove c => .remove c
  | .joinRoom c r => .joinRoom c r
  | .leaveRoom c r => .leaveRoom c r
  | .touch c now => .touch c now

/-- The call ends the current registration of its id, if there is one. -/
def Op.rebinds : Op χ → Bool
  | .add .. => true
  | .addWithId .. => true
  | .remove _ => true
  | _ => false

/-- The sender a rebinding call leaves in `senders`. -/
def Op.opens : Op χ → Option χ
  | .add _ _ tx _ => some tx
  | .addWithId _ _ tx _ => some tx
  | _ => none

/-- The call removes `c` or registers it, for the first time or again. -/
def Cmd.Rebinds (c : ConnId) : Cmd → Prop
  | .mutate op => op.rebinds = true ∧ op.conn = c
  | _ => False

instance (c : ConnId) (cmd : Cmd) : Decidable (cmd.Rebinds c) := by
  cases cmd <;> unfold Cmd.Rebinds <;> infer_instance

/-- The id a call registers. -/
def Cmd.registers : Cmd → Option ConnId
  | .mutate op => op.registers
  | _ => none

/-- The connection of a call does not depend on the channel. -/
@[simp] theorem Op.conn_withTx (op : Op χ) (tx : χ') : (op.withTx tx).conn = op.conn := by
  cases op <;> rfl

/-- Nor does it whether it rebinds the connection. -/
@[simp] theorem Op.rebinds_withTx (op : Op χ) (tx : χ') : (op.withTx tx).rebinds = op.rebinds := by
  cases op <;> rfl

/-- A registration opens the channel it is given. -/
theorem Op.opens_withTx (op : Op χ) (tx : χ') :
    (op.withTx tx).opens = if op.registers.isSome then some tx else none := by
  cases op <;> rfl

/-- Whether a call is a leave does not depend on the channel. -/
theorem Op.withTx_eq_leaveRoom {op : Op χ} {tx : χ'} {c : ConnId} {r : RoomId} :
    op.withTx tx = .leaveRoom c r ↔ op = .leaveRoom c r := by
  cases op <;> simp [Op.withTx]

/-- Nor does it whether it is a join. -/
theorem Op.withTx_eq_joinRoom {op : Op χ} {tx : χ'} {c : ConnId} {r : RoomId} :
    op.withTx tx = .joinRoom c r ↔ op = .joinRoom c r := by
  cases op <;> simp [Op.withTx]

/-- A registration is of the connection of its call. -/
theorem Op.registers_eq_some_iff {op : Op χ} {c : ConnId} (h : op.conn = c) :
    op.registers = some c ↔ op.registers.isSome := by
  subst h
  cases op <;> simp [Op.registers, Op.conn]

/-- A registration is a rebinding of the id it registers. -/
theorem Cmd.rebinds_of_registers {cmd : Cmd} {c : ConnId} (h : cmd.registers = some c) :
    cmd.Rebinds c := by
  cases cmd with
  | mutate op =>
    cases op with
    | add => exact ⟨rfl, Option.some.inj h⟩
    | addWithId => exact ⟨rfl, Option.some.inj h⟩
    | _ => exact absurd h (Option.some_ne_none c).symm
  | _ => exact absurd h (Option.some_ne_none c).symm

/-- Only a registration or a removal changes the sender of a view. -/
theorem View.sender_step (v : View χ) (op : Op χ) :
    (v.step op).1.sender = if op.rebinds then op.opens else v.sender := by
  cases op with
  | add => rfl
  | addWithId => rfl
  | remove => rfl
  | joinRoom c r =>
    rcases v.joinRoom_cases r with h | ⟨info, -, -, h⟩ <;> rw [View.step, h] <;> rfl
  | leaveRoom c r =>
    rcases v.leaveRoom_cases r with h | ⟨info, -, -, h⟩ <;> rw [View.step, h] <;> rfl
  | touch => rfl

namespace ConnectionManager

/-- One reading call. -/
def ask (m : ConnectionManager χ) (it : HashIter String) : Query → Answer
  | .get c => .info (m.get c)
  | .contains c => .flag (m.contains c)
  | .count => .count m.count
  | .isEmpty => .flag m.isEmpty
  | .connectionIds => .ids (m.connectionIds it)
  | .roomMembers r => .members (m.roomMembers r)
  | .roomCount r => .count (m.roomCount r)
  | .roomIds => .ids (m.roomIds it)
  | .totalRooms => .count m.totalRooms
  | .staleConnections now timeout => (m.staleConnections it now timeout).elim .panic .ids
  | .connectionsForUser u => .ids (m.connectionsForUser it u)

/-- The sender a call takes out of `senders`, to be dropped. -/
def released (m : ConnectionManager χ) (op : Op χ) : Option χ :=
  if op.rebinds then m.senders.lookup op.conn else none

/-- A call drops the sender of the connection it rebinds. -/
theorem released_eq_some {m : ConnectionManager χ} {op : Op χ} {x : χ} :
    m.released op = some x ↔ op.rebinds = true ∧ m.senders.lookup op.conn = some x := by
  unfold released
  split_ifs with hb <;> simp [hb]

/-- **What a call does to the senders.** -/
theorem sender_step (m : ConnectionManager χ) (call : HashIter String × Op χ) (c : ConnId) :
    (m.step call).1.senders.lookup c =
      if call.2.rebinds = true ∧ c = call.2.conn then call.2.opens else m.senders.lookup c := by
  have hv := congrArg View.sender (m.view_step call c)
  rw [view_sender, apply_ite View.sender, view_sender, View.sender_step, view_sender] at hv
  rw [hv]
  by_cases hc : c = call.2.conn <;> simp [hc]

end ConnectionManager

/-- A manager, its channels, and the number of channels opened. -/
structure World where
  mgr : ConnectionManager ℕ
  chans : Channels ℕ Message
  next : ℕ

namespace World

def new : World := ⟨.new, fun _ => .new, 0⟩

/-- One call. -/
def step (w : World) : HashIter String × Cmd → World × Reply
  | (it, .mutate op) =>
    ({ mgr := (w.mgr.step (it, op.withTx w.next)).1
       chans := (w.mgr.released (op.withTx w.next)).elim w.chans w.chans.dropTx
       next := if op.registers.isSome then w.next + 1 else w.next },
      .ret (w.mgr.step (it, op.withTx w.next)).2)
  | (it, .send s) =>
    ({ w with chans := (w.mgr.send it w.chans s).1 }, .sent (w.mgr.send it w.chans s).2)
  | (it, .ask q) => (w, .answer (w.mgr.ask it q))
  | (_, .dropReceiver rx) =>
    (if rx < w.next then { w with chans := w.chans.dropRx rx } else w, .dropped)

/-- A manager in use. -/
def machine : Machine World (HashIter String × Cmd) Reply := ⟨step⟩

/-- The world after the calls of a run from `new()`. -/
def after (calls : List (HashIter String × Cmd)) : World := machine.run new calls

/-- A step of the machine is a call. -/
@[simp] theorem machine_step (w : World) (call : HashIter String × Cmd) :
    machine.step w call = w.step call := rfl

/-- A client that drops its receiver does nothing to the manager. -/
@[simp] theorem mgr_step_dropReceiver (w : World) (it : HashIter String) (rx : ℕ) :
    (w.step (it, .dropReceiver rx)).1.mgr = w.mgr := by
  simp only [step]
  split_ifs <;> rfl

/-- It opens no channel. -/
@[simp] theorem next_step_dropReceiver (w : World) (it : HashIter String) (rx : ℕ) :
    (w.step (it, .dropReceiver rx)).1.next = w.next := by
  simp only [step]
  split_ifs <;> rfl

/-- A registration opens a channel. -/
theorem next_step (w : World) (call : HashIter String × Cmd) :
    (w.step call).1.next = if call.2.registers.isSome then w.next + 1 else w.next := by
  obtain ⟨it, cmd⟩ := call
  cases cmd with
  | dropReceiver rx => exact next_step_dropReceiver w it rx
  | _ => rfl

/-- No call takes a channel back. -/
theorem next_le_step (w : World) (call : HashIter String × Cmd) :
    w.next ≤ (w.step call).1.next := by
  rw [next_step]
  split_ifs <;> omega

/-- Channels are opened one after the other. -/
theorem next_le_run (w : World) (calls : List (HashIter String × Cmd)) :
    w.next ≤ (machine.run w calls).next := by
  refine machine.run_inv (I := fun w' => w.next ≤ w'.next) ?_ le_rfl calls
  intro w' call hle
  exact hle.trans (w'.next_le_step call)

/-- Calls after calls. -/
theorem after_append (calls calls' : List (HashIter String × Cmd)) :
    after (calls ++ calls') = machine.run (after calls) calls' := machine.run_append ..

/-- What a call does to the view of a connection. -/
theorem view_step (w : World) (it : HashIter String) (op : Op Unit) (c : ConnId) :
    (w.step (it, .mutate op)).1.mgr.view c =
      if c = op.conn then ((w.mgr.view c).step (op.withTx w.next)).1 else w.mgr.view c := by
  have h := w.mgr.view_step (it, op.withTx w.next) c
  rwa [Op.conn_withTx] at h

/-- What it returns, from the view of its own connection. -/
theorem reply_step (w : World) (it : HashIter String) (op : Op Unit) :
    (w.step (it, .mutate op)).2 =
      .ret ((w.mgr.view op.conn).step (op.withTx w.next)).2 := by
  have h := w.mgr.answer_step (it, op.withTx w.next)
  rw [Op.conn_withTx] at h
  exact congrArg Reply.ret h

/-! ### The sender of a connection along a run -/

/-- **What a call does to the senders**: a registration binds its id to the
next channel, a removal unbinds it, nothing else touches one. -/
theorem lookup_step (w : World) (call : HashIter String × Cmd) (c : ConnId) :
    (w.step call).1.mgr.senders.lookup c =
      if call.2.Rebinds c then (if call.2.registers = some c then some w.next else none)
      else w.mgr.senders.lookup c := by
  obtain ⟨it, cmd⟩ := call
  cases cmd with
  | mutate op =>
    have h := w.mgr.sender_step (it, op.withTx w.next) c
    simp only [Op.conn_withTx, Op.rebinds_withTx, Op.opens_withTx] at h
    by_cases hb : op.rebinds = true ∧ c = op.conn
    · have hr : (Cmd.mutate op).Rebinds c := ⟨hb.1, hb.2.symm⟩
      refine h.trans ((if_pos hb).trans ?_)
      rw [if_pos hr]
      exact if_congr (Op.registers_eq_some_iff hb.2.symm).symm rfl rfl
    · have hr : ¬ (Cmd.mutate op).Rebinds c := fun hr => hb ⟨hr.1, hr.2.symm⟩
      exact h.trans ((if_neg hb).trans (if_neg hr).symm)
  | send s => rfl
  | ask q => rfl
  | dropReceiver rx =>
    have hmgr : (w.step (it, .dropReceiver rx)).1.mgr = w.mgr := mgr_step_dropReceiver w it rx
    rw [hmgr]
    exact (if_neg id).symm

/-- A connection keeps its sender while its id is neither removed nor
registered again. -/
theorem lookup_run {w : World} {calls : List (HashIter String × Cmd)} {c : ConnId}
    (h : ∀ call ∈ calls, ¬ call.2.Rebinds c) :
    (machine.run w calls).mgr.senders.lookup c = w.mgr.senders.lookup c := by
  refine Machine.Along.run_inv (I := fun w' => w'.mgr.senders.lookup c = w.mgr.senders.lookup c)
    ?_ (Machine.along_of_forall h w) rfl
  intro w' call hw' hc
  rw [machine_step, lookup_step, if_neg hc, hw']

/-- A sender found after a call is the one it opened, or was there before. -/
theorem lookup_step_cases {w : World} {call : HashIter String × Cmd} {c : ConnId} {x : ℕ}
    (h : (w.step call).1.mgr.senders.lookup c = some x) :
    call.2.registers = some c ∧ x = w.next ∨
      ¬ call.2.Rebinds c ∧ w.mgr.senders.lookup c = some x := by
  rw [lookup_step] at h
  split_ifs at h with hb hreg
  · exact Or.inl ⟨hreg, (Option.some.inj h).symm⟩
  · exact Or.inr ⟨hb, h⟩

/-! ### The wiring -/

/-- Each connection has a channel of its own, and the senders still held are
those of the registered connections. -/
structure Wired (w : World) : Prop where
  consistent : w.mgr.Consistent
  lt_next : ∀ c x, w.mgr.senders.lookup c = some x → x < w.next
  own : OwnChannels w.mgr
  fresh : ∀ x, w.next ≤ x → w.chans x = Channel.new
  txOpen : ∀ x, x < w.next →
    ((w.chans x).txOpen = true ↔ ∃ c, w.mgr.senders.lookup c = some x)

/-- A new world is wired. -/
theorem wired_new : new.Wired where
  consistent := ConnectionManager.consistent_new
  lt_next c _ h := nomatch (ConnectionManager.lookup_new c).symm.trans h
  own c _ _ h := nomatch (ConnectionManager.lookup_new c).symm.trans h
  fresh _ _ := rfl
  txOpen x h := absurd h (Nat.not_lt_zero x)

/-- Dropping the sender a call released. -/
theorem release_apply (w : World) (o : Option ℕ) (x : ℕ) :
    (o.elim w.chans w.chans.dropTx) x = if o = some x then (w.chans x).dropTx else w.chans x := by
  cases o with
  | none => rfl
  | some y =>
    rw [Option.elim_some, Channels.dropTx_apply]
    by_cases h : x = y
    · simp [h]
    · simp [h, Ne.symm h]

/-- The senders are of channels opened so far. -/
theorem Wired.lt_next_step {w : World} (h : w.Wired) (call : HashIter String × Cmd) (c : ConnId)
    (x : ℕ) (hx : (w.step call).1.mgr.senders.lookup c = some x) : x < (w.step call).1.next := by
  rcases lookup_step_cases hx with ⟨hreg, rfl⟩ | ⟨-, hx⟩
  · rw [next_step, hreg]
    exact Nat.lt_succ_self _
  · exact (h.lt_next c x hx).trans_le (w.next_le_step call)

/-- Every connection keeps a channel of its own. -/
theorem Wired.own_step {w : World} (h : w.Wired) (call : HashIter String × Cmd) :
    OwnChannels (w.step call).1.mgr := by
  intro c d x hc hd
  rcases lookup_step_cases hc with ⟨hcreg, hxc⟩ | ⟨-, hc⟩ <;>
    rcases lookup_step_cases hd with ⟨hdreg, hxd⟩ | ⟨-, hd⟩
  · exact Option.some.inj (hcreg.symm.trans hdreg)
  · exact absurd hxc (h.lt_next d x hd).ne
  · exact absurd hxd (h.lt_next c x hc).ne
  · exact h.own c d x hc hd

/-- A call drops the sender of the id it rebinds. -/
theorem chans_mutate (w : World) (it : HashIter String) (op : Op Unit) (x : ℕ) :
    (w.step (it, .mutate op)).1.chans x =
      if op.rebinds = true ∧ w.mgr.senders.lookup op.conn = some x then (w.chans x).dropTx
      else w.chans x := by
  refine (release_apply w _ x).trans (if_congr ?_ rfl rfl)
  rw [ConnectionManager.released_eq_some, Op.rebinds_withTx, Op.conn_withTx]

/-- **A call that changes the manager keeps the world wired.** -/
theorem Wired.mutate {w : World} (h : w.Wired) (it : HashIter String) (op : Op Unit) :
    (w.step (it, .mutate op)).1.Wired := by
  refine ⟨h.consistent.step _, h.lt_next_step _, h.own_step _, fun x hx => ?_, fun x hx => ?_⟩
  · have hle : w.next ≤ x := (w.next_le_step _).trans hx
    rw [chans_mutate, if_neg]
    · exact h.fresh x hle
    · rintro ⟨-, hold⟩
      have hlt := h.lt_next _ x hold
      omega
  · rw [chans_mutate]
    split_ifs with hrel
    · -- Nobody else had the sender that is dropped.
      refine iff_of_false Bool.false_ne_true ?_
      rintro ⟨c, hc⟩
      rcases lookup_step_cases hc with ⟨-, rfl⟩ | ⟨hnb, hc⟩
      · have hlt := h.lt_next _ _ hrel.2
        omega
      · exact hnb ⟨hrel.1, h.own op.conn c x hrel.2 hc⟩
    · rcases Nat.lt_or_ge x w.next with hlt | hge
      · rw [h.txOpen x hlt]
        constructor
        · rintro ⟨c, hc⟩
          refine ⟨c, ?_⟩
          rw [lookup_step, if_neg]
          · exact hc
          · rintro ⟨hb, rfl⟩
            exact hrel ⟨hb, hc⟩
        · rintro ⟨c, hc⟩
          rcases lookup_step_cases hc with ⟨-, rfl⟩ | ⟨-, hc⟩
          · omega
          · exact ⟨c, hc⟩
      · -- The channel was opened by this call.
        rw [next_step] at hx
        split_ifs at hx with hreg
        · obtain ⟨c, hreg⟩ := Option.isSome_iff_exists.1 hreg
          obtain rfl : x = w.next := by omega
          rw [h.fresh _ le_rfl]
          refine iff_of_true rfl ⟨c, ?_⟩
          rw [lookup_step, if_pos (Cmd.rebinds_of_registers hreg), if_pos hreg]
        · omega

/-- A send keeps the world wired. -/
theorem Wired.send {w : World} (h : w.Wired) (it : HashIter String) (s : Send) :
    (w.step (it, .send s)).1.Wired := by
  have hsame : ∀ x, (∀ c, w.mgr.senders.lookup c ≠ some x) →
      (w.mgr.send it w.chans s).1 x = w.chans x :=
    fun x hx => ConnectionManager.send_apply_of_not_sender h.own it w.chans s hx
  refine ⟨h.consistent, h.lt_next, h.own, fun x hx => ?_, fun x hx => ?_⟩
  · refine (hsame x fun c hc => ?_).trans (h.fresh x hx)
    have hlt := h.lt_next c x hc
    exact absurd hlt (Nat.not_lt.2 hx)
  · have htx : ((w.mgr.send it w.chans s).1 x).txOpen = (w.chans x).txOpen := by
      rcases ConnectionManager.send_cases h.own it w.chans s x with hx' | ⟨-, -, -, hx'⟩
      · rw [hx']
      · rw [hx', Channel.send_txOpen]
    simp only [step, htx]
    exact h.txOpen x hx

/-- A client that drops its receiver keeps the world wired. -/
theorem Wired.dropReceiver {w : World} (h : w.Wired) (it : HashIter String) (rx : ℕ) :
    (w.step (it, .dropReceiver rx)).1.Wired := by
  simp only [step]
  split_ifs with hrx
  · refine ⟨h.consistent, h.lt_next, h.own, fun x hx => ?_, fun x hx => ?_⟩
    · have hx' : w.next ≤ x := hx
      simp only [Channels.dropRx_apply]
      rw [if_neg (by omega), h.fresh x hx']
    · rw [← h.txOpen x hx]
      simp only [Channels.dropRx_apply]
      split_ifs with he
      · rw [he]
        rfl
      · rfl
  · exact h

/-- **Every call keeps the wiring.** -/
theorem Wired.step {w : World} (h : w.Wired) (call : HashIter String × Cmd) :
    (w.step call).1.Wired := by
  obtain ⟨it, cmd⟩ := call
  cases cmd with
  | mutate op => exact h.mutate it op
  | send s => exact h.send it s
  | ask q => exact h
  | dropReceiver rx => exact h.dropReceiver it rx

/-- The world stays wired in every run. -/
theorem Wired.run {w : World} (h : w.Wired) (calls : List (HashIter String × Cmd)) :
    (machine.run w calls).Wired :=
  machine.run_inv (fun _ call hw => hw.step call) h calls

/-- **Every world reached is wired.** -/
theorem wired_after (calls : List (HashIter String × Cmd)) : (after calls).Wired :=
  wired_new.run calls

end World
end Denshin
