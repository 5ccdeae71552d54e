/-
# Concurrent calls behave as snapshots

Any number of tasks call one gateway in any interleaving, and clients drop
receivers meanwhile.  What the calls that write return, and the manager they
leave, are those of the calls made one at a time in the order in which they
acquired the lock.  A fan-out is for the connections registered and addressed
when it acquired the lock, and pushes once to each.  Both are what the lock
guarantees of any service (`Service.inv_after`), read at the gateway.

What is on a queue is what was pushed on it while its receiver was open, in the
order of the log (`queue_after`), so a call that has returned before another is
made is ahead of it on every queue.
-/

import Denshin.Basis.Guarded.Linear
import Denshin.Gateway.WsGateway

namespace Denshin

open Basis

namespace WsGateway

variable {τ : Type*} [DecidableEq τ]

/-- An action of a task `t : τ`, or a client dropping a receiver. -/
abbrev Action (τ : Type*) :=
  Basis.Action τ (HashIter String × Op Unit) (HashIter String × ReadOp) ℕ

/-- A gateway, its channels, its tasks and its log. -/
abbrev Sys (τ : Type*) :=
  Basis.Sys (ConnectionManager ℕ × ℕ) (Channels ℕ Message) τ (HashIter String × Op Unit)
    (HashIter String × ReadOp) ConnId (Option Push) Reply

/-- A new gateway after a schedule. -/
def after (acts : List (Action τ)) : Sys τ :=
  gateway.after (ConnectionManager.new, 0) (fun _ => Channel.new) acts

/-- One action more. -/
theorem after_append_singleton (acts : List (Action τ)) (act : Action τ) :
    after (acts ++ [act]) = gateway.step (after acts) act :=
  gateway.machine.run_append _ acts [act]

/-- What the lock guarantees after every schedule. -/
theorem inv_after (acts : List (Action τ)) :
    Service.Inv gateway (ConnectionManager.new, 0) (after acts) := Service.inv_after _ _ acts

/-- What an entry of the log puts on the queue of `x`, and for which call. -/
def delivery (x : ℕ) :
    Event (HashIter String × Op Unit) (HashIter String × ReadOp) ConnId (Option Push) Reply →
      Option (ℕ × Message)
  | .visited id _ (some p) => if p.chan = x ∧ p.ok then some (id, p.message) else none
  | _ => none

/-- What was put on the queue of `x`, oldest first. -/
def delivered (x : ℕ) (log : Log) : List (ℕ × Message) := log.filterMap (delivery x)

/-- The pushes of a call. -/
def pushes (id : ℕ) (log : Log) : List Push := (visits id log).filterMap Prod.snd

/-- The first call has returned when the second is made. -/
def ReturnedBeforeInvoked (log : Log) (A B : ℕ) : Prop :=
  ∃ l₁ l₂, log = l₁ ++ l₂ ∧ (∃ r, .returned A r ∈ l₁) ∧ ∃ call, .invoked B call ∈ l₂

/-- The return of a call comes before the invocation of a later one. -/
theorem ReturnedBeforeInvoked.before {log : Log} {A B : ℕ} (h : ReturnedBeforeInvoked log A B) :
    Service.Before log (fun e => e.id = A ∧ e.stage = 3) fun e => e.id = B ∧ e.stage ≤ 1 := by
  obtain ⟨l₁, l₂, hlog, ⟨r, hr⟩, call, hcall⟩ := h
  exact ⟨l₁, l₂, hlog, ⟨_, hr, rfl, rfl⟩, _, hcall, rfl, Nat.zero_le 1⟩

/-- What is delivered, part by part of the log. -/
theorem delivered_append (x : ℕ) (log log' : Log) :
    delivered x (log ++ log') = delivered x log ++ delivered x log' := List.filterMap_append

/-- Deliveries are visits, in their order. -/
theorem delivered_pairwise {log : Log} {A B : ℕ}
    (h : log.Pairwise fun e e' => e.stage = 2 → e'.stage = 2 → e.id = B → e'.id ≠ A) (x : ℕ) :
    (delivered x log).Pairwise fun d d' => d.1 = B → d'.1 ≠ A := by
  have hvisit : ∀ e : Event (HashIter String × Op Unit) (HashIter String × ReadOp) ConnId
      (Option Push) Reply, ∀ d, delivery x e = some d → e.stage = 2 ∧ e.id = d.1 := by
    intro e d hd
    cases e with
    | visited id c out =>
      cases out with
      | none => exact nomatch hd
      | some p =>
        simp only [delivery] at hd
        split_ifs at hd
        exact ⟨rfl, by rw [← Option.some.inj hd]; rfl⟩
    | _ => exact nomatch hd
  refine List.pairwise_filterMap.2 (h.imp fun {e e'} hee' d hd d' hd' hB => ?_)
  obtain ⟨hstage, hid⟩ := hvisit e d hd
  obtain ⟨hstage', hid'⟩ := hvisit e' d' hd'
  rw [← hid']
  exact hee' hstage hstage' (hid.trans hB)

/-! ### The queues -/

/-- A call that changes the manager queues nothing. -/
theorem effect_queue (p : ConnectionManager ℕ × ℕ) (a : HashIter String × Op Unit)
    (cs : Channels ℕ Message) (x : ℕ) : (gateway.effect p a cs x).queue = (cs x).queue := by
  simp only [gateway]
  cases p.1.released (a.2.withTx p.2) with
  | none => rfl
  | some y =>
    rw [Option.elim_some, Channels.dropTx_apply]
    split_ifs with hxy
    · rw [hxy, Channel.dropTx_queue]
    · rfl

/-- A client that drops its receiver queues nothing. -/
theorem client_queue (p : ConnectionManager ℕ × ℕ) (rx : ℕ) (cs : Channels ℕ Message) (x : ℕ) :
    (gateway.client p rx cs x).queue = (cs x).queue := by
  simp only [gateway]
  split_ifs
  · rw [Channels.dropRx_apply]
    split_ifs with hx
    · rw [hx, Channel.dropRx_queue]
    · rfl
  · rfl

/-- A visit queues what it logs as delivered. -/
theorem visit_queue (p : ConnectionManager ℕ × ℕ) (b : HashIter String × ReadOp)
    (cs : Channels ℕ Message) (c : ConnId) (id x : ℕ) :
    ((gateway.visit p b cs c).1 x).queue = (cs x).queue ++
      (delivered x [.visited id c (gateway.visit p b cs c).2]).map Prod.snd := by
  obtain ⟨it, op⟩ := b
  cases op with
  | ask q => exact (List.append_nil _).symm
  | send s =>
    cases ht : s.target p.1 c with
    | none => simp [gateway, ht, delivered, delivery]
    | some y =>
      simp only [gateway, ht, Channels.send_apply, Channels.send_snd]
      rcases eq_or_ne x y with rfl | hxy
      · rw [if_pos rfl, Channel.send_queue]
        cases hrx : (cs x).rxOpen <;> simp [delivered, delivery]
      · rw [if_neg hxy]
        simp [delivered, delivery, hxy.symm]

/-- **Every step keeps the queues what was delivered.** -/
theorem queue_step {s s' : Sys τ} (hs : gateway.Step s s')
    (h : ∀ x, (s.outside x).queue = (delivered x s.log).map Prod.snd) (x : ℕ) :
    (s'.outside x).queue = (delivered x s'.log).map Prod.snd := by
  have hquiet : ∀ e, delivery x e = none →
      (s.outside x).queue = (delivered x (s.log ++ [e])).map Prod.snd := by
    intro e he
    rw [delivered_append, delivered, delivered, List.filterMap_cons_none he, List.filterMap_nil,
      List.append_nil]
    exact h x
  cases hs with
  | invoke t call ht => exact hquiet _ rfl
  | acquireWrite t id a lock ht hl => exact hquiet _ rfl
  | acquireRead t id b lock ht hl => exact hquiet _ rfl
  | update t id a ht => exact (effect_queue s.guarded a s.outside x).trans (h x)
  | start t id b ht => exact h x
  | visit t id b i rest n ht =>
    rw [delivered_append, List.map_append, ← h x]
    exact visit_queue s.guarded b s.outside i id x
  | returnWrite t id r ht => exact hquiet _ rfl
  | returnRead t id b n ht => exact hquiet _ rfl
  | client g => exact (client_queue s.guarded g s.outside x).trans (h x)

/-- **A queue holds what was delivered to it.** -/
theorem queue_after (acts : List (Action τ)) (x : ℕ) :
    ((after acts).outside x).queue = (delivered x (after acts).log).map Prod.snd := by
  refine Service.after_inv (S := gateway)
    (I := fun s : Sys τ => ∀ x, (s.outside x).queue = (delivered x s.log).map Prod.snd) ?_ ?_ acts x
  · intro s s' hs h
    exact queue_step hs h
  · exact fun _ => rfl

/-! ### The receivers -/

/-- A push succeeds exactly if the receiver is open at that moment. -/
theorem ok_of_visit {p : ConnectionManager ℕ × ℕ} {b : HashIter String × ReadOp}
    {cs : Channels ℕ Message} {c : ConnId} {push : Push}
    (h : (gateway.visit p b cs c).2 = some push) : push.ok = (cs push.chan).rxOpen := by
  obtain ⟨it, sd | q⟩ := b
  · cases ht : sd.target p.1 c with
    | none =>
      simp only [gateway, ht] at h
      exact absurd h (Option.some_ne_none push).symm
    | some x =>
      simp only [gateway, ht, Channels.send_snd, Option.some.injEq] at h
      rw [← h]
  · exact absurd h (Option.some_ne_none push).symm

/-- A visit closes no receiver and opens none. -/
theorem visit_rxOpen (p : ConnectionManager ℕ × ℕ) (b : HashIter String × ReadOp)
    (cs : Channels ℕ Message) (c : ConnId) (x : ℕ) :
    ((gateway.visit p b cs c).1 x).rxOpen = (cs x).rxOpen := by
  obtain ⟨it, sd | q⟩ := b
  · cases ht : sd.target p.1 c with
    | none => simp only [gateway, ht]
    | some y =>
      simp only [gateway, ht, Channels.send_apply]
      split_ifs with hx
      · rw [hx, Channel.send_rxOpen]
      · rfl
  · rfl

/-- An update drops senders only. -/
theorem effect_rxOpen (p : ConnectionManager ℕ × ℕ) (a : HashIter String × Op Unit)
    (cs : Channels ℕ Message) (x : ℕ) : (gateway.effect p a cs x).rxOpen = (cs x).rxOpen := by
  simp only [gateway]
  cases p.1.released (a.2.withTx p.2) with
  | none => rfl
  | some y =>
    rw [Option.elim_some, Channels.dropTx_apply]
    split_ifs with hxy
    · rw [hxy, Channel.dropTx_rxOpen]
    · rfl

/-- **A receiver is closed by its client only**, when it drops it. -/
theorem rxOpen_step (s : Sys τ) (act : Action τ) (x : ℕ) :
    ((gateway.step s act).outside x).rxOpen = false ↔
      (act = .client x ∧ x < s.guarded.2) ∨ (s.outside x).rxOpen = false := by
  by_cases hact : ∀ rx, act ≠ .client rx
  · have hsame : ((gateway.step s act).outside x).rxOpen = (s.outside x).rxOpen := by
      rcases Service.outside_cases (S := gateway) s hact with ⟨id, b, c, hout, -⟩ | ⟨hout, -⟩
      · rw [hout]
        exact visit_rxOpen s.guarded b s.outside c x
      · rcases hout with hout | ⟨a, hout⟩ <;> rw [hout]
        exact effect_rxOpen s.guarded a s.outside x
    rw [hsame]
    exact (or_iff_right fun h => hact x h.1).symm
  · push Not at hact
    obtain ⟨rx, rfl⟩ := hact
    show (gateway.client s.guarded rx s.outside x).rxOpen = false ↔ _
    have hact : (.client rx : Action τ) = .client x ↔ rx = x :=
      ⟨fun he => Basis.Action.client.inj he, fun he => congrArg _ he⟩
    rw [hact]
    simp only [gateway]
    by_cases hrx : rx < s.guarded.2
    · rw [if_pos hrx, Channels.dropRx_apply]
      by_cases hx : x = rx
      · subst hx
        rw [if_pos rfl]
        exact iff_of_true rfl (Or.inl ⟨rfl, hrx⟩)
      · rw [if_neg hx]
        exact (or_iff_right fun h => hx h.1.symm).symm
    · rw [if_neg hrx]
      refine (or_iff_right ?_).symm
      rintro ⟨rfl, hlt⟩
      exact hrx hlt

/-- **A receiver is closed exactly if its client has dropped it.** -/
theorem rxOpen_after (acts : List (Action τ)) (x : ℕ) :
    ((after acts).outside x).rxOpen = false ↔
      ∃ pre post, acts = pre ++ .client x :: post ∧ x < (after pre).guarded.2 := by
  have hstep : ∀ (s : Sys τ) (act : Action τ), True →
      (((gateway.step s act).outside x).rxOpen = false ↔
        (act = .client x ∧ x < s.guarded.2) ∨ ¬ False ∧ (s.outside x).rxOpen = false) := by
    intro s act _
    rw [not_false_iff, true_and]
    exact rxOpen_step s act x
  have hsince : ((after acts).outside x).rxOpen = false ↔
      gateway.machine.Since (fun s act => act = .client x ∧ x < s.guarded.2) (fun _ _ => False)
        (Sys.start (ConnectionManager.new, 0) fun _ => Channel.new) acts :=
    Machine.run_iff_since (I := fun s : Sys τ => (s.outside x).rxOpen = false)
      (J := fun _ => True) (fun _ _ _ => trivial) hstep trivial Bool.noConfusion acts
  refine hsince.trans ⟨?_, ?_⟩
  · rintro ⟨pre, act, post, rfl, ⟨rfl, hlt⟩, -⟩
    exact ⟨pre, post, rfl, hlt⟩
  · rintro ⟨pre, post, rfl, hlt⟩
    exact ⟨pre, .client x, post, rfl, ⟨rfl, hlt⟩, Machine.along_of_forall (fun _ _ => not_false) _⟩

/-- **What is logged of a push is how it found the receiver**, at that moment. -/
theorem ok_of_step {s : Sys τ} {act : Action τ} {id : ℕ} {c : ConnId} {push : Push}
    (h : (gateway.step s act).log = s.log ++ [.visited id c (some push)]) :
    push.ok = (s.outside push.chan).rxOpen := by
  rcases Service.step_cases (S := gateway) s act with he | hstep
  · rw [he] at h
    exact absurd h (by simp)
  · generalize gateway.step s act = s' at h hstep
    cases hstep with
    | visit t id' b i rest n ht =>
      obtain ⟨-, -, hout⟩ := Event.visited.inj (List.singleton_inj.1 (List.append_cancel_left h))
      exact ok_of_visit hout
    | _ => exact absurd h (by simp)

/-! ### The pushes of one call -/

section Pushes

variable {m : ConnectionManager ℕ} {n : ℕ} {it : HashIter String} {sd : Send}
  {vs : List (ConnId × Option Push)}

/-- The push of a visit is for the connection visited, on its channel. -/
theorem push_of_visit {cs : Channels ℕ Message} {c : ConnId} {p : Push}
    (h : some p = (gateway.visit (m, n) (it, .send sd) cs c).2) :
    p.conn = c ∧ sd.target m c = some p.chan ∧ p.message = sd.message := by
  cases ht : sd.target m c with
  | none =>
    simp only [gateway, ht] at h
    exact absurd h (Option.some_ne_none p)
  | some x =>
    simp only [gateway, ht, Option.some.injEq] at h
    rw [h]
    exact ⟨rfl, rfl, rfl⟩

/-- A connection with a channel gets a push. -/
theorem visit_of_target (it : HashIter String) (cs : Channels ℕ Message) {c : ConnId} {x : ℕ}
    (h : sd.target m c = some x) :
    ∃ p, (gateway.visit (m, n) (it, .send sd) cs c).2 = some p ∧ p.conn = c := by
  simp only [gateway, h]
  exact ⟨_, rfl, rfl⟩

/-- The connections pushed to were visited, in this order. -/
theorem conns_sublist (h : ∀ v ∈ vs, ∀ p, v.2 = some p → p.conn = v.1) :
    ((vs.filterMap Prod.snd).map Push.conn).Sublist (vs.map Prod.fst) := by
  induction vs with
  | nil => exact List.Sublist.slnil
  | cons v vs ih =>
    have ih' := ih fun v' hv' => h v' (List.mem_cons_of_mem v hv')
    cases hv : v.2 with
    | none =>
      rw [List.filterMap_cons_none hv, List.map_cons]
      exact ih'.cons v.1
    | some p =>
      rw [List.filterMap_cons_some hv, List.map_cons, List.map_cons, h v List.mem_cons_self p hv]
      exact ih'.cons_cons v.1

section Walked

variable {sent : ℕ} (h : Service.Walked gateway (m, n) (it, .send sd) vs [] sent)

include h

/-- A completed walk visited all there was to visit. -/
theorem items_of_walked : vs.map Prod.fst = sd.items m it := by
  have hall := h.items
  rwa [List.append_nil] at hall

/-- What it pushed is for the connections visited, on their channels. -/
theorem push_of_walked : ∀ v ∈ vs, ∀ p, v.2 = some p →
    p.conn = v.1 ∧ sd.target m v.1 = some p.chan ∧ p.message = sd.message := by
  intro v hv p hp
  obtain ⟨cs, hcs⟩ := h.visits v hv
  exact push_of_visit (hp.symm.trans hcs)

/-- Nobody was pushed to twice. -/
theorem nodup_conns_of_walked : ((vs.filterMap Prod.snd).map Push.conn).Nodup := by
  refine (sd.nodup_items m it).sublist ?_
  rw [← items_of_walked h]
  exact conns_sublist fun v hv p hp => (push_of_walked h v hv p hp).1

/-- Who was pushed to: the connections on the way that have a channel. -/
theorem mem_conns_of_walked {c : ConnId} : c ∈ (vs.filterMap Prod.snd).map Push.conn ↔
    c ∈ sd.items m it ∧ ∃ x, sd.target m c = some x := by
  rw [List.mem_map]
  constructor
  · rintro ⟨p, hp, rfl⟩
    obtain ⟨v, hv, hvp⟩ := List.mem_filterMap.1 hp
    obtain ⟨hconn, htarget, -⟩ := push_of_walked h v hv p hvp
    rw [← items_of_walked h, hconn]
    exact ⟨List.mem_map_of_mem hv, p.chan, htarget⟩
  · rintro ⟨hc, x, hx⟩
    rw [← items_of_walked h] at hc
    obtain ⟨v, hv, rfl⟩ := List.mem_map.1 hc
    obtain ⟨cs, hcs⟩ := h.visits v hv
    obtain ⟨p, hp, hconn⟩ := visit_of_target it cs (n := n) hx
    exact ⟨p, List.mem_filterMap.2 ⟨v, hv, hcs.trans hp⟩, hconn⟩

/-- What it returns counts the pushes that found the receiver open. -/
theorem sent_of_walked : (sd.sent sent).num = (vs.filterMap Prod.snd).countP Push.ok := by
  have hle : sent ≤ (sd.items m it).length := by
    rw [← items_of_walked h, List.length_map, ← h.count]
    exact List.countP_le_length
  rw [sd.sent_num hle, ← h.count, List.countP_filterMap]
  refine List.countP_congr fun v _ => ?_
  cases v.2 <;> rfl

/-- **A completed walk pushed once to every registered addressee.** -/
theorem pushes_of_walked (hm : m.Consistent) :
    ((vs.filterMap Prod.snd).map Push.conn).Nodup ∧
      (∀ c, c ∈ (vs.filterMap Prod.snd).map Push.conn ↔
        m.contains c = true ∧ sd.Addressed m c) ∧
      (∀ p ∈ vs.filterMap Prod.snd,
        m.senders.lookup p.conn = some p.chan ∧ p.message = sd.message) ∧
      (sd.sent sent).num = (vs.filterMap Prod.snd).countP Push.ok := by
  have hregistered : ∀ c, m.contains c = true ↔ ∃ x, m.senders.lookup c = some x := by
    intro c
    rw [← Option.isSome_iff_exists]
    exact Bool.coe_iff_coe.2 (hm.views c).sender_isSome.symm
  refine ⟨nodup_conns_of_walked h, fun c => ?_, fun p hp => ?_, sent_of_walked h⟩
  · rw [mem_conns_of_walked h, hregistered]
    constructor
    · rintro ⟨hc, x, hx⟩
      obtain ⟨hx', haddr⟩ := (Send.mem_items_target it).1 ⟨hc, hx⟩
      exact ⟨⟨x, hx'⟩, haddr⟩
    · rintro ⟨⟨x, hx⟩, haddr⟩
      obtain ⟨hc, htarget⟩ := (Send.mem_items_target it).2 ⟨hx, haddr⟩
      exact ⟨hc, x, htarget⟩
  · obtain ⟨v, hv, hvp⟩ := List.mem_filterMap.1 hp
    obtain ⟨hconn, htarget, hmsg⟩ := push_of_walked h v hv p hvp
    rw [hconn]
    exact ⟨Send.lookup_of_target htarget, hmsg⟩

end Walked

end Pushes

/-- **Concurrent gateway calls behave as snapshots.**  After any schedule of any
number of tasks on a new gateway,

(a) unless a task still has an update to do, and so at the end, the manager is
that of the calls one at a time, in the order in which they acquired the lock,
and a call that has returned from a method that writes returned what it returns
there;

(b) a send that has returned pushed once to every connection that was
registered and addressed when it acquired the lock, on the connection's channel
and to no other, and returned the number of pushes that found the receiver
open: what the log says of a push is whether its receiver was open when it was
made, and a receiver is open until its client drops it;

(c) what is on a queue was put there by these pushes, and if one call returned
before another was made, everything of the first is ahead of everything of the
second. -/
theorem calls_are_snapshots (acts : List (Action τ)) :
    ((∀ t id a, (after acts).task t ≠ .writing id a) →
      (after acts).guarded.1 = (World.after (serialCalls (acquisitions (after acts).log))).mgr) ∧
    (∀ id r, .returned id r ∈ (after acts).log →
      ∃ pre call post, acquisitions (after acts).log = pre ++ (id, call) :: post ∧
        (∀ it op, call = .write (it, op) →
          r = ((World.after (serialCalls pre)).step (it, .mutate op)).2) ∧
        (∀ it sd, call = .read (it, .send sd) →
          ((pushes id (after acts).log).map Push.conn).Nodup ∧
          (∀ c, c ∈ (pushes id (after acts).log).map Push.conn ↔
            (World.after (serialCalls pre)).mgr.contains c = true ∧
              sd.Addressed (World.after (serialCalls pre)).mgr c) ∧
          (∀ p ∈ pushes id (after acts).log,
            (World.after (serialCalls pre)).mgr.senders.lookup p.conn = some p.chan ∧
              p.message = sd.message) ∧
          ∃ sent, r = .sent sent ∧ sent.num = (pushes id (after acts).log).countP Push.ok)) ∧
    (∀ pre act, pre ++ [act] <+: acts → ∀ id c p,
      (after (pre ++ [act])).log = (after pre).log ++ [.visited id c (some p)] →
        p.ok = ((after pre).outside p.chan).rxOpen) ∧
    (∀ x, ((after acts).outside x).rxOpen = false ↔
      ∃ pre post, acts = pre ++ .client x :: post ∧ x < (after pre).guarded.2) ∧
    (∀ x, ((after acts).outside x).queue = (delivered x (after acts).log).map Prod.snd) ∧
    (∀ A B, ReturnedBeforeInvoked (after acts).log A B →
      ∀ x, (delivered x (after acts).log).Pairwise fun d d' => d.1 = B → d'.1 ≠ A) := by
  have hinv := inv_after acts
  refine ⟨fun hno => ?_, fun id r hr => ?_, fun pre act _ id c p hlog => ?_, rxOpen_after acts,
    queue_after acts, fun A B hAB x => ?_⟩
  · rw [hinv.settled.done hno, serial_run_new]
  · obtain ⟨call, s, ⟨pre, post, hlog, hs⟩, hcomp⟩ := hinv.done id r hr
    rw [serial_run_new] at hs
    subst hs
    refine ⟨pre, call, post, hlog, fun it op hcall => ?_, fun it sd hcall => ?_⟩
    · subst hcall
      exact hcomp
    · subst hcall
      obtain ⟨n, hwalk, hr⟩ := hcomp
      have hcons := (World.wired_after (serialCalls pre)).consistent
      obtain ⟨h₁, h₂, h₃, h₄⟩ := pushes_of_walked hwalk hcons
      exact ⟨h₁, h₂, h₃, sd.sent n, hr, h₄⟩
  · rw [after_append_singleton] at hlog
    exact ok_of_step hlog
  · exact delivered_pairwise (Service.visited_before hinv.staged.ordered hAB.before) x

end WsGateway
end Denshin
