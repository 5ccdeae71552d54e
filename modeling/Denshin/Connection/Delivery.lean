/-
# Exact delivery

What is ever queued on the receiver of one registration, over a whole run.  The
four ways to send go through different maps, ids are registered again, clients
drop receivers, and hash maps are walked in any order; the queue is still given
by one expression (`World.deliveries`): walk the calls made after the
registration, stop where the id is removed or registered again or the receiver
dropped, and keep the message of every send that is for the connection in the
state it is made in.

One call adds to the queue of a bound channel at most its own message
(`queue_step_of_lookup`) and nothing to that of a channel without a sender or
without a receiver (`Dead.queue_step`), and such a channel stays so.
-/

import Denshin.Connection.World

namespace Denshin

open Basis

variable {χ : Type*}

/-- The message a call sends to a connection. -/
def Cmd.messageFor (m : ConnectionManager χ) (c : ConnId) : Cmd → Option Message
  | .send s => if s.Addressed m c then some s.message else none
  | _ => none

/-- The call ends what is queued on the receiver `x` of a registration of `c`. -/
def Cmd.Closes (c : ConnId) (x : ℕ) (cmd : Cmd) : Prop :=
  cmd.Rebinds c ∨ cmd = .dropReceiver x

instance (c : ConnId) (x : ℕ) (cmd : Cmd) : Decidable (cmd.Closes c x) :=
  inferInstanceAs (Decidable (_ ∨ _))

/-- The call is one of the four sends. -/
def Cmd.sends : Cmd → Bool
  | .send _ => true
  | _ => false

/-- A call that closes a channel is no send. -/
theorem Cmd.Closes.sends_eq {c : ConnId} {x : ℕ} {cmd : Cmd} (h : cmd.Closes c x) :
    cmd.sends = false := by
  cases cmd with
  | send s =>
    rcases h with hb | hd
    · exact hb.elim
    · exact nomatch hd
  | _ => rfl

/-- The receiver a call hands out. -/
def Reply.receiver : Reply → Option ℕ
  | .ret (.added _ rx) => some rx
  | .ret (.registered rx) => some rx
  | _ => none

namespace World

/-- The messages a run sends to the receiver `x` of a registration of `c`. -/
def deliveries (c : ConnId) (x : ℕ) (w : World) (calls : List (HashIter String × Cmd)) :
    List Message :=
  ((machine.trace w calls).takeWhile fun p => ¬ p.2.2.Closes c x).filterMap fun p =>
    p.2.2.messageFor p.1.mgr c

/-- What is addressed to a receiver, call by call. -/
theorem deliveries_cons (c : ConnId) (x : ℕ) (w : World) (call : HashIter String × Cmd)
    (calls : List (HashIter String × Cmd)) :
    deliveries c x w (call :: calls) =
      if call.2.Closes c x then []
      else (call.2.messageFor w.mgr c).toList ++ deliveries c x (w.step call).1 calls := by
  unfold deliveries
  rw [Machine.trace, List.takeWhile_cons]
  by_cases h : call.2.Closes c x
  · simp [h]
  · cases hm : call.2.messageFor w.mgr c <;> simp [h, hm]

/-! ### One call -/

/-- A receiver is open until it is dropped. -/
theorem rxOpen_step {w : World} (h : w.Wired) {x : ℕ} (hx : x < w.next)
    (call : HashIter String × Cmd) :
    ((w.step call).1.chans x).rxOpen = ((w.chans x).rxOpen && call.2 ≠ .dropReceiver x) := by
  obtain ⟨it, cmd⟩ := call
  cases cmd with
  | mutate op =>
    rw [chans_mutate]
    split_ifs <;> simp
  | send s =>
    simp only [step]
    rcases ConnectionManager.send_cases h.own it w.chans s x with hs | ⟨-, -, -, hs⟩ <;> rw [hs]
    · simp
    · simp
  | ask q => simp [step]
  | dropReceiver rx =>
    rcases eq_or_ne rx x with rfl | hne
    · simp [step, hx, Channels.dropRx_apply]
    · simp only [step]
      split_ifs <;> simp [Channels.dropRx_apply, hne, hne.symm]

/-- Only sends queue anything. -/
theorem queue_step_of_not_send (w : World) {call : HashIter String × Cmd}
    (hs : call.2.sends = false) (x : ℕ) :
    ((w.step call).1.chans x).queue = (w.chans x).queue := by
  obtain ⟨it, cmd⟩ := call
  cases cmd with
  | mutate op =>
    rw [chans_mutate]
    split_ifs <;> simp
  | send s => exact absurd hs.symm Bool.false_ne_true
  | ask q => rfl
  | dropReceiver rx =>
    simp only [step]
    split_ifs
    · simp only [Channels.dropRx_apply]
      split_ifs with hxr <;> simp [hxr]
    · rfl

/-- **What a call queues for a connection**: its message, if it sends one to
the connection and the receiver is open. -/
theorem queue_step_of_lookup {w : World} (h : w.Wired) {c : ConnId} {x : ℕ}
    (hx : w.mgr.senders.lookup c = some x) (call : HashIter String × Cmd) :
    ((w.step call).1.chans x).queue = (w.chans x).queue ++
      if (w.chans x).rxOpen then (call.2.messageFor w.mgr c).toList else [] := by
  obtain ⟨it, cmd⟩ := call
  cases cmd with
  | send s =>
    simp only [step, Cmd.messageFor]
    rw [ConnectionManager.send_apply_of_lookup h.own it w.chans s hx]
    split_ifs with hs ho ho <;> simp [Channel.send_queue, ho]
  | _ =>
    rw [queue_step_of_not_send w rfl]
    simp [Cmd.messageFor]

/-- The channel is not the sender of any connection, or of a later one. -/
def Unheld (x : ℕ) (w : World) : Prop := x < w.next ∧ ∀ c, w.mgr.senders.lookup c ≠ some x

/-- No call gives a channel a sender again. -/
theorem Unheld.step {x : ℕ} {w : World} (hu : Unheld x w) (call : HashIter String × Cmd) :
    Unheld x (w.step call).1 := by
  refine ⟨hu.1.trans_le (w.next_le_step call), fun c => ?_⟩
  rw [lookup_step]
  split_ifs
  · exact fun he => hu.1.ne (Option.some.inj he).symm
  · exact nofun
  · exact hu.2 c

/-- **A channel whose sender is gone stays without one.** -/
theorem Unheld.run {x : ℕ} {w : World} (hu : Unheld x w) (calls : List (HashIter String × Cmd)) :
    Unheld x (machine.run w calls) := by
  refine machine.run_inv (I := Unheld x) ?_ hu calls
  intro w' call hu'
  exact hu'.step call

/-- The call that removes an id or registers it again takes its channel. -/
theorem unheld_of_rebinds {w : World} (h : w.Wired) {c : ConnId} {x : ℕ}
    (hx : w.mgr.senders.lookup c = some x) {call : HashIter String × Cmd}
    (hb : call.2.Rebinds c) : Unheld x (w.step call).1 := by
  have hlt : x < w.next := h.lt_next c x hx
  refine ⟨hlt.trans_le (w.next_le_step call), fun d => ?_⟩
  rw [lookup_step]
  split_ifs with hd
  · exact fun he => hlt.ne (Option.some.inj he).symm
  · exact nofun
  · intro he
    obtain rfl : c = d := h.own c d x hx he
    exact hd hb

/-- The channel has no sender, or no receiver. -/
def Dead (x : ℕ) (w : World) : Prop := Unheld x w ∨ x < w.next ∧ (w.chans x).rxOpen = false

/-- No call revives a channel. -/
theorem Dead.step {x : ℕ} {w : World} (hd : Dead x w) (h : w.Wired)
    (call : HashIter String × Cmd) : Dead x (w.step call).1 := by
  rcases hd with hu | ⟨hx, hrx⟩
  · exact Or.inl (hu.step call)
  · refine Or.inr ⟨hx.trans_le (w.next_le_step call), ?_⟩
    rw [rxOpen_step h hx, hrx, Bool.false_and]

/-- Nothing is queued on a dead channel. -/
theorem Dead.queue_step {x : ℕ} {w : World} (hd : Dead x w) (h : w.Wired)
    (call : HashIter String × Cmd) : ((w.step call).1.chans x).queue = (w.chans x).queue := by
  obtain ⟨it, cmd⟩ := call
  cases cmd with
  | send s =>
    simp only [World.step]
    rcases ConnectionManager.send_cases h.own it w.chans s x with hs | ⟨c, hc, -, hs⟩
    · rw [hs]
    · have hrx : (w.chans x).rxOpen = false := by
        rcases hd with hu | ⟨-, hrx⟩
        · exact absurd hc (hu.2 c)
        · exact hrx
      rw [hs, Channel.send_queue, hrx, if_neg Bool.false_ne_true]
  | _ => exact queue_step_of_not_send w rfl x

/-! ### A whole run -/

/-- **Nothing is queued for a dead channel**, in any run. -/
theorem Dead.queue_run {x : ℕ} {w : World} (hd : Dead x w) (h : w.Wired)
    (calls : List (HashIter String × Cmd)) :
    ((machine.run w calls).chans x).queue = (w.chans x).queue := by
  induction calls generalizing w with
  | nil => rfl
  | cons call calls ih =>
    rw [Machine.run_cons, machine_step, ih (hd.step h call) (h.step call), hd.queue_step h call]

/-- **The queue of a bound channel**: what was on it, then what the run delivers. -/
theorem queue_run {w : World} (h : w.Wired) {c : ConnId} {x : ℕ}
    (hx : w.mgr.senders.lookup c = some x) (hrx : (w.chans x).rxOpen = true)
    (calls : List (HashIter String × Cmd)) :
    ((machine.run w calls).chans x).queue = (w.chans x).queue ++ deliveries c x w calls := by
  induction calls generalizing w with
  | nil => simp [deliveries, Machine.trace]
  | cons call calls ih =>
    have hlt : x < w.next := h.lt_next c x hx
    rw [Machine.run_cons, machine_step, deliveries_cons]
    split_ifs with hcl
    · -- The call that closes the channel sends nothing, and leaves it dead.
      have hdead : Dead x (w.step call).1 := by
        rcases hcl with hb | hdrop
        · exact Or.inl (unheld_of_rebinds h hx hb)
        · refine Or.inr ⟨hlt.trans_le (w.next_le_step call), ?_⟩
          rw [rxOpen_step h hlt, hdrop]
          simp
      have hsilent : call.2.sends = false := hcl.sends_eq
      rw [hdead.queue_run (h.step call), queue_step_of_not_send w hsilent, List.append_nil]
    · obtain ⟨hb, hdrop⟩ := not_or.1 hcl
      have hx' : (w.step call).1.mgr.senders.lookup c = some x := by
        rw [lookup_step, if_neg hb, hx]
      have hrx' : ((w.step call).1.chans x).rxOpen = true := by
        rw [rxOpen_step h hlt, hrx]
        simp [hdrop]
      rw [ih (h.step call) hx' hrx', queue_step_of_lookup h hx, if_pos hrx, List.append_assoc]

/-- **A channel keeps its sender** exactly until the id is removed or
registered again. -/
theorem held_run_iff {w : World} (h : w.Wired) {c : ConnId} {x : ℕ}
    (hx : w.mgr.senders.lookup c = some x) (calls : List (HashIter String × Cmd)) :
    (∃ d, (machine.run w calls).mgr.senders.lookup d = some x) ↔
      ∀ call ∈ calls, ¬ call.2.Rebinds c := by
  induction calls generalizing w with
  | nil => exact iff_of_true ⟨c, hx⟩ fun _ hc => absurd hc List.not_mem_nil
  | cons call calls ih =>
    rw [Machine.run_cons, machine_step, List.forall_mem_cons]
    rcases em (call.2.Rebinds c) with hb | hb
    · have hend := (unheld_of_rebinds h hx hb).run calls
      exact iff_of_false (fun hd => hd.elim hend.2) fun hc => hc.1 hb
    · have hx' : (w.step call).1.mgr.senders.lookup c = some x := by
        rw [lookup_step, if_neg hb, hx]
      rw [ih (h.step call) hx', and_iff_right hb]

/-- A registration binds its id to the next channel, which is new, and hands
out its receiver. -/
theorem bound_of_registers {w : World} (h : w.Wired) (it : HashIter String) {op : Op Unit}
    {c : ConnId} (hreg : op.registers = some c) :
    (w.step (it, .mutate op)).2.receiver = some w.next ∧
      (w.step (it, .mutate op)).1.mgr.senders.lookup c = some w.next ∧
      (w.step (it, .mutate op)).1.chans w.next = Channel.new := by
  refine ⟨?_, ?_, ?_⟩
  · cases op with
    | add => rfl
    | addWithId => rfl
    | _ => exact nomatch hreg
  · have hb : (Cmd.mutate op).Rebinds c := Cmd.rebinds_of_registers hreg
    rw [lookup_step, if_pos hb]
    exact if_pos hreg
  · rw [chans_mutate, if_neg fun hrel => (h.lt_next _ _ hrel.2).false]
    exact h.fresh _ le_rfl

/-- A queue that a send grew has its message as last entry. -/
theorem queue_of_grown {w : World} (h : w.Wired) (it : HashIter String) (s : Send) {x : ℕ}
    (hx : x ∈ Channels.grown w.chans (w.step (it, .send s)).1.chans) :
    ((w.step (it, .send s)).1.chans x).queue = (w.chans x).queue ++ [s.message] := by
  rw [Channels.mem_grown] at hx
  simp only [World.step] at hx ⊢
  rcases ConnectionManager.send_cases h.own it w.chans s x with hs | ⟨-, -, -, hs⟩ <;>
    rw [hs] at hx ⊢
  · exact absurd rfl hx
  · rw [Channel.send_queue, if_pos ((Channel.send_queue_ne_iff _ _).1 hx)]

/-- A send grows the queue of every addressee whose receiver is open. -/
theorem mem_grown_of_addressed {w : World} (h : w.Wired) {c : ConnId} {x : ℕ}
    (hx : w.mgr.senders.lookup c = some x) (hrx : (w.chans x).rxOpen = true)
    (it : HashIter String) {s : Send} (hs : s.Addressed w.mgr c) :
    x ∈ Channels.grown w.chans (w.step (it, .send s)).1.chans := by
  rw [Channels.mem_grown]
  simp only [World.step]
  rw [ConnectionManager.send_apply_of_lookup h.own it _ s hx, if_pos hs, Channel.send_queue_ne_iff]
  exact hrx

/-- **Exact delivery over whole runs.**  After any run, for every registration
in it: what was ever queued on the receiver it handed out is what the rest of
the run delivers, and the sender half is dropped exactly when the id has been
removed or registered again.  Every send of the run returns the number of
queues it grew, and what it adds to a queue is its own message, once. -/
theorem run_delivers (calls : List (HashIter String × Cmd)) :
    (∀ pre it op c post, calls = pre ++ (it, .mutate op) :: post → op.registers = some c →
      ∃ x, ((after pre).step (it, .mutate op)).2.receiver = some x ∧
        ((after calls).chans x).queue =
          deliveries c x ((after pre).step (it, .mutate op)).1 post ∧
        (((after calls).chans x).txOpen = false ↔ ∃ call ∈ post, call.2.Rebinds c)) ∧
    (∀ pre it s, pre ++ [(it, .send s)] <+: calls →
      ∃ r, ((after pre).step (it, .send s)).2 = .sent r ∧
        (Channels.grown (after pre).chans ((after pre).step (it, .send s)).1.chans).encard = r.num ∧
        ∀ x ∈ Channels.grown (after pre).chans ((after pre).step (it, .send s)).1.chans,
          (((after pre).step (it, .send s)).1.chans x).queue =
            ((after pre).chans x).queue ++ [s.message]) := by
  constructor
  · rintro pre it op c post rfl hreg
    obtain ⟨hrx, hx, hnew⟩ := bound_of_registers (wired_after pre) it hreg
    have hw : ((after pre).step (it, .mutate op)).1.Wired := (wired_after pre).step _
    refine ⟨(after pre).next, hrx, ?_, ?_⟩
    · have hq := queue_run hw hx (by rw [hnew]; rfl) post
      rw [hnew] at hq
      rw [after_append, Machine.run_cons, machine_step, hq]
      rfl
    · have hlt := (hw.lt_next c _ hx).trans_le (next_le_run _ post)
      rw [after_append, Machine.run_cons, machine_step, ← Bool.not_eq_true,
        (hw.run post).txOpen _ hlt, held_run_iff hw hx]
      push Not
      rfl
  · rintro pre it s -
    refine ⟨((after pre).mgr.send it (after pre).chans s).2, rfl, ?_, fun x hx => ?_⟩
    · exact ConnectionManager.encard_grown_send (wired_after pre).own it _ s
    · exact queue_of_grown (wired_after pre) it s hx

/-- A connection is registered, sent to in three ways, and registered again:
the first receiver has the three messages, and its sender is dropped. -/
theorem run_delivers_rejoin :
    let calls : List (HashIter String × Cmd) :=
      [(default, .mutate (.addWithId "a" none () .zero)),
        (default, .mutate (.joinRoom "a" "r")), (default, .send (.sendToRoom "r" "1")),
        (default, .send (.sendToRoomExcept "r" "2" "b")), (default, .send (.broadcast "3")),
        (default, .mutate (.addWithId "a" none () (.ofSecs 1))),
        (default, .send (.sendTo "a" "4"))]
    ((after calls).chans 0).queue = ["1", "2", "3"] ∧ ((after calls).chans 0).txOpen = false := by
  intro calls
  obtain ⟨x, hx, hq, htx⟩ := (run_delivers calls).1 [] default
    (.addWithId "a" none () .zero) "a" (calls.drop 1) rfl rfl
  obtain rfl : 0 = x := Option.some.inj hx
  have hb : ∃ call ∈ calls.drop 1, call.2.Rebinds "a" :=
    ⟨(default, .mutate (.addWithId "a" none () (.ofSecs 1))), by simp [calls], rfl, rfl⟩
  exact ⟨hq.trans (by decide), htx.2 hb⟩

end World
end Denshin
