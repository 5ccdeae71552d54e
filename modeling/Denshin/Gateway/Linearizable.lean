/-
# Concurrent calls answer as calls made one at a time

What concurrent calls of a gateway return can be explained by one order of the
calls that respects real time (`calls_linearize`): each call that is not a send
returns what it returns at its place in that order, on a manager that is not
shared.  So does a send while no client drops a receiver; what keeps sends apart
is only that a receiver may be dropped in the middle of a walk (and that walks
share the queues, `race_reorders`).

No call can be left hanging: from every state that a schedule leads to, the calls
under way can all return, and then the manager is the one the calls lead to one
at a time (`gateway_drains`).
-/

import Denshin.Basis.Guarded.Drain
import Denshin.Basis.Guarded.Walks
import Denshin.Connection.Delivery
import Denshin.Gateway.Snapshot

namespace Denshin

open Basis

/-! ### While no client drops a receiver -/

/-- No receiver was dropped. -/
def World.AllOpen (w : World) : Prop := ∀ x, (w.chans x).rxOpen = true

/-- All receivers stay open while no client drops one. -/
theorem World.AllOpen.step {w : World} (h : w.AllOpen) (hw : w.Wired)
    {call : HashIter String × Cmd} (hcall : ∀ rx, call.2 ≠ .dropReceiver rx) :
    (w.step call).1.AllOpen := by
  intro x
  obtain ⟨it, cmd⟩ := call
  cases cmd with
  | mutate op =>
    rw [World.chans_mutate]
    split_ifs
    · exact h x
    · exact h x
  | send s =>
    rcases ConnectionManager.send_cases hw.own it w.chans s x with hs | ⟨-, -, -, hs⟩
    · show ((w.mgr.send it w.chans s).1 x).rxOpen = true
      rw [hs]
      exact h x
    · show ((w.mgr.send it w.chans s).1 x).rxOpen = true
      rw [hs, Channel.send_rxOpen]
      exact h x
  | ask q => exact h x
  | dropReceiver rx => exact absurd rfl (hcall rx)

/-- The calls of a gateway drop no receiver. -/
theorem World.allOpen_serialCalls (calls : List (ℕ × WsGateway.Call)) :
    (World.after (WsGateway.serialCalls calls)).AllOpen := by
  have hcalls : ∀ call ∈ WsGateway.serialCalls calls, ∀ rx, call.2 ≠ .dropReceiver rx := by
    intro call hmem rx
    obtain ⟨c, -, rfl⟩ := List.mem_map.1 hmem
    obtain ⟨id, ⟨it, op⟩ | ⟨it, s | q⟩⟩ := c
    · exact Cmd.noConfusion
    · exact Cmd.noConfusion
    · exact Cmd.noConfusion
  have hboth : (World.after (WsGateway.serialCalls calls)).Wired ∧
      (World.after (WsGateway.serialCalls calls)).AllOpen := by
    refine Machine.Along.run_inv (I := fun w : World => w.Wired ∧ w.AllOpen) ?_
      (Machine.along_of_forall hcalls World.new) ⟨World.wired_new, fun _ => rfl⟩
    intro w call hw hcall
    exact ⟨hw.1.step call, hw.2.step hw.1 hcall⟩
  exact hboth.2

/-- A send to open receivers returns how many connections it has a channel for. -/
theorem ConnectionManager.send_of_allOpen {w : World} (hw : w.Wired) (h : w.AllOpen)
    (it : HashIter ConnId) (sd : Send) :
    (w.mgr.send it w.chans sd).2 =
      sd.sent ((sd.items w.mgr it).filterMap (sd.target w.mgr)).length := by
  have hnum : (w.mgr.send it w.chans sd).2.num =
      ((sd.items w.mgr it).filterMap (sd.target w.mgr)).length := by
    rw [(w.mgr.send_eq_fanOut it w.chans sd).2, Channels.fanOut_count (hw.own.nodup_targets it sd)]
    exact congrArg List.length (List.filter_eq_self.2 fun x _ => h x)
  rw [← hnum]
  cases sd with
  | sendTo c msg =>
    have hflag : ∀ b : Bool, (.flag b : Sent) = (Send.sendTo c msg).sent (Sent.flag b).num := by
      intro b
      cases b <;> rfl
    exact hflag (w.mgr.sendTo c msg w.chans).2
  | _ => rfl

namespace WsGateway

variable {τ : Type*} [DecidableEq τ]

/-- No client drops a receiver. -/
def Quiet (acts : List (Action τ)) : Prop := ∀ rx, .client rx ∉ acts

/-- Every push that was made succeeded. -/
def AllPushed (log : Log) : Prop := ∀ id c p, .visited id c (some p) ∈ log → p.ok = true

/-- While no client drops a receiver, all receivers are open, -/
theorem open_of_quiet {acts : List (Action τ)} (h : Quiet acts) (x : ℕ) :
    ((after acts).outside x).rxOpen = true := by
  rw [← Bool.not_eq_false, rxOpen_after]
  rintro ⟨pre, post, rfl, -⟩
  exact h x (List.mem_append_right pre List.mem_cons_self)

/-- and every push succeeds. -/
theorem allPushed_after {acts : List (Action τ)} (h : Quiet acts) :
    AllPushed (after acts).log := by
  induction acts using List.reverseRecOn with
  | nil => exact fun _ _ _ hp => absurd hp List.not_mem_nil
  | append_singleton acts act ih =>
    have hacts : Quiet acts := fun rx hmem => h rx (List.mem_append_left _ hmem)
    have hact : ∀ rx, act ≠ .client rx := by
      rintro rx rfl
      exact h rx (List.mem_append_right _ (List.mem_singleton_self _))
    rw [after_append_singleton]
    intro id c p hp
    rcases Service.outside_cases (S := gateway) (after acts) hact with
      ⟨id', b, c', -, hlog⟩ | ⟨-, hlog⟩
    · rw [hlog] at hp
      rcases List.mem_append.1 hp with hp | hp
      · exact ih hacts id c p hp
      · obtain ⟨-, -, hout⟩ := Event.visited.inj (List.mem_singleton.1 hp)
        rw [ok_of_visit hout.symm]
        exact open_of_quiet hacts p.chan
    · exact ih hacts id c p (hlog id c _ hp)

/-- The items of a walk with a channel, when every push succeeds. -/
theorem count_of_allPushed {m : ConnectionManager ℕ} {k : ℕ} {it : HashIter String} {sd : Send}
    {vs : List (ConnId × Option Push)} {n : ℕ}
    (h : Service.Walked gateway (m, k) (it, .send sd) vs [] n)
    (hok : ∀ v ∈ vs, ∀ p, v.2 = some p → p.ok = true) :
    n = ((sd.items m it).filterMap (sd.target m)).length := by
  rw [← h.count, ← items_of_walked h, List.filterMap_map, List.length_filterMap_eq_countP]
  refine List.countP_congr fun v hv => ?_
  show v.2.elim false Push.ok = true ↔ (sd.target m v.1).isSome = true
  obtain ⟨cs, hcs⟩ := h.visits v hv
  rcases ht : sd.target m v.1 with _ | x
  · have hnone : v.2 = none := by
      rw [hcs]
      simp only [gateway, ht]
    rw [hnone]
    exact Iff.rfl
  · obtain ⟨p, hp, -⟩ := visit_of_target it cs (n := k) ht
    rw [hcs, hp]
    exact iff_of_true (hok v hv p (hcs.trans hp)) rfl

/-- **Concurrent calls answer as calls made one at a time.**  After any schedule
there is an order of the calls that acquired the lock, each once and as it was
invoked, in which a call that returned before another was invoked comes first,
and every call that has returned is in it.  What it returned is what it returns
there on a manager that is not shared, unless it is a send and a client dropped
a receiver.  When nobody is in a call, the manager is that of the whole order.
A stale check that panics counts as returned, with the answer `panic`, and it
panics in the order too. -/
theorem calls_linearize (acts : List (Action τ)) :
    ∃ order : List (ℕ × Call),
      (order.map Prod.fst).Nodup ∧
      (∀ id call, (id, call) ∈ order → .invoked id call ∈ (after acts).log) ∧
      (∀ A B, ReturnedBeforeInvoked (after acts).log A B →
        ∀ pre call post, order = pre ++ (B, call) :: post → A ∈ pre.map Prod.fst) ∧
      (∀ id r, .returned id r ∈ (after acts).log →
        ∃ pre call post, order = pre ++ (id, call) :: post ∧
          (Quiet acts ∨ (∀ it sd, call ≠ .read (it, .send sd)) →
            r = ((World.after (serialCalls pre)).step (toCmd call)).2)) ∧
      ((∀ t, (after acts).task t = .idle) →
        (after acts).guarded.1 = (World.after (serialCalls order)).mgr) := by
  have hlin := Service.linearizes_after (S := gateway) (ConnectionManager.new, 0)
    (fun _ => Channel.new) acts
  refine ⟨acquisitions (after acts).log, hlin.nodup, hlin.invoked, ?_, ?_, ?_⟩
  · intro A B hAB
    exact hlin.real_time A B hAB.before
  · intro id r hr
    obtain ⟨pre, call, post, horder, hcomp⟩ := hlin.returned id r hr
    refine ⟨pre, call, post, horder, fun hcond => ?_⟩
    rw [serial_run_new] at hcomp
    obtain a | ⟨it, sd | q⟩ := call
    · exact hcomp
    · -- A send: nobody dropped a receiver.
      obtain ⟨n, hwalk, hn⟩ := hcomp
      have hquiet : Quiet acts := hcond.resolve_right fun hno => hno it sd rfl
      have hcount := count_of_allPushed hwalk fun v hv p hp =>
        allPushed_after hquiet id v.1 p (hp ▸ Service.mem_visits.1 hv)
      rw [hn, hcount]
      have hsend := ConnectionManager.send_of_allOpen (World.wired_after (serialCalls pre))
        (World.allOpen_serialCalls pre) it sd
      exact congrArg Reply.sent hsend.symm
    · obtain ⟨n, -, hn⟩ := hcomp
      exact hn
  · intro hidle
    have hinv := inv_after acts
    have hdone := hinv.settled.done fun t id a ht => by
      rw [hidle t] at ht
      exact absurd ht (by simp)
    rw [hdone, serial_run_new]

/-- **A gateway never hangs.**  From every state that a schedule leads to, the
calls under way can all return.  Then the lock is free, every call that was made
has returned, and the manager is the one that the calls lead to one at a time.
A stale check that panics counts as returned, with the answer `panic`: it has
released the lock. -/
theorem gateway_drains (acts : List (Action τ)) :
    ∃ more : List (Action τ), (∀ t, (after (acts ++ more)).task t = .idle) ∧
      (after (acts ++ more)).lock = .free ∧
      (∀ id call, .invoked id call ∈ (after acts).log →
        ∃ r, .returned id r ∈ (after (acts ++ more)).log) ∧
      (after (acts ++ more)).guarded.1 =
        (World.after (serialCalls (acquisitions (after (acts ++ more)).log))).mgr := by
  obtain ⟨more, hidle, hlock, hret, hguarded⟩ := Service.exists_drained (S := gateway)
    (ConnectionManager.new, 0) (fun _ => Channel.new) acts
  refine ⟨more, hidle, hlock, hret, ?_⟩
  have hmgr := congrArg Prod.fst hguarded
  rw [serial_run_new] at hmgr
  exact hmgr

end WsGateway
end Denshin
