/-
# Queues of concurrent sends

Sends hold the lock shared, so their pushes mix.  What is on the queues in the end
is still what the calls put there one at a time, in the order in which they
acquired the lock: each message as often, only in another order, unless a client
dropped a receiver meanwhile; and at no time anything else (`queues_linearize`).

One at a time, a call puts its message on the channel of every registered
addressee (`due`, `serial_queue`).  Concurrently it does so on its walk over them
(`pushed_after`), on no channel twice (`nodup_delivered`), and has done so when it
returns (`due_subset_delivered`).
-/

import Denshin.Gateway.Linearizable

namespace Denshin

open Basis

namespace WsGateway

variable {τ : Type*} [DecidableEq τ]

/-- What a call puts on the queue of `x` when its receiver is open. -/
def dueOf (x : ℕ) : (ConnectionManager ℕ × ℕ) × (ℕ × Call) → Option (ℕ × Message)
  | ((m, _), (id, .read (it, .send sd))) =>
    if x ∈ (sd.items m it).filterMap (sd.target m) then some (id, sd.message) else none
  | _ => none

/-- What the calls put there, one at a time. -/
def due (x : ℕ) (order : List (ℕ × Call)) : List (ℕ × Message) :=
  (gateway.serial.trace (ConnectionManager.new, 0) order).filterMap (dueOf x)

/-! ### One call at a time -/

/-- What is due after one more call. -/
theorem due_append (x : ℕ) (order : List (ℕ × Call)) (c : ℕ × Call) :
    due x (order ++ [c]) = due x order ++
      (dueOf x (((World.after (serialCalls order)).mgr,
        (World.after (serialCalls order)).next), c)).toList := by
  rw [due, Machine.trace_append, List.filterMap_append, serial_run_new, ← due]
  rfl

/-- One call puts on a queue what is due of it. -/
theorem queue_step_dueOf {w : World} (hw : w.Wired) (hopen : w.AllOpen) (c : ℕ × Call) (x : ℕ) :
    ((w.step (toCmd c.2)).1.chans x).queue =
      (w.chans x).queue ++ (dueOf x ((w.mgr, w.next), c)).toList.map Prod.snd := by
  obtain ⟨id, ⟨it, op⟩ | ⟨it, sd | q⟩⟩ := c
  · rw [World.queue_step_of_not_send w rfl]
    exact (List.append_nil _).symm
  · show ((w.mgr.send it w.chans sd).1 x).queue = _
    rw [(w.mgr.send_eq_fanOut it w.chans sd).1, Channels.fanOut_apply (hw.own.nodup_targets it sd)]
    by_cases hx : x ∈ (sd.items w.mgr it).filterMap (sd.target w.mgr)
    · rw [if_pos hx, Channel.send_queue, if_pos (hopen x), dueOf, if_pos hx]
      rfl
    · rw [if_neg hx, dueOf, if_neg hx]
      exact (List.append_nil _).symm
  · rw [World.queue_step_of_not_send w rfl]
    exact (List.append_nil _).symm

/-- The queues of calls made one at a time. -/
theorem serial_queue (order : List (ℕ × Call)) (x : ℕ) :
    ((World.after (serialCalls order)).chans x).queue = (due x order).map Prod.snd := by
  induction order using List.reverseRecOn with
  | nil => rfl
  | append_singleton order c ih =>
    have hafter : World.after (serialCalls (order ++ [c])) =
        ((World.after (serialCalls order)).step (toCmd c.2)).1 := by
      rw [serialCalls, List.map_append, ← serialCalls, World.after_append]
      rfl
    rw [hafter, due_append, List.map_append, ← ih]
    exact queue_step_dueOf (World.wired_after _) (World.allOpen_serialCalls order) c x

/-- A message is due if a send of the order went to the channel. -/
theorem mem_due {x : ℕ} {order : List (ℕ × Call)} {id : ℕ} {msg : Message} :
    (id, msg) ∈ due x order ↔ ∃ pre it sd post, order = pre ++ (id, .read (it, .send sd)) :: post ∧
      x ∈ (sd.items (World.after (serialCalls pre)).mgr it).filterMap
        (sd.target (World.after (serialCalls pre)).mgr) ∧ sd.message = msg := by
  rw [due, List.mem_filterMap]
  constructor
  · rintro ⟨⟨s, c⟩, hc, hdue⟩
    obtain ⟨pre, post, horder, hs⟩ := gateway.serial.mem_trace.1 hc
    rw [serial_run_new] at hs
    subst hs
    obtain ⟨id', ⟨it, op⟩ | ⟨it, sd | q⟩⟩ := c
    · exact absurd hdue (Option.some_ne_none _).symm
    · simp only [dueOf] at hdue
      split_ifs at hdue with hx
      obtain ⟨rfl, hmsg⟩ := Prod.mk.inj (Option.some.inj hdue)
      exact ⟨pre, it, sd, post, horder, hx, hmsg⟩
    · exact absurd hdue (Option.some_ne_none _).symm
  · rintro ⟨pre, it, sd, post, horder, hx, hmsg⟩
    refine ⟨_, gateway.serial.mem_trace.2 ⟨pre, post, horder, serial_run_new pre⟩, ?_⟩
    rw [← hmsg]
    exact if_pos hx

/-- A call puts one message on a channel. -/
theorem nodup_due {order : List (ℕ × Call)} (h : (order.map Prod.fst).Nodup) (x : ℕ) :
    ((due x order).map Prod.fst).Nodup := by
  rw [← gateway.serial.trace_map_snd (ConnectionManager.new, 0) order, List.map_map] at h
  refine List.pairwise_map.2 (List.pairwise_filterMap.2 ?_)
  refine (List.pairwise_map.1 h).imp fun {a b} hab d hd d' hd' => ?_
  have hid : ∀ p d, dueOf x p = some d → d.1 = p.2.1 := by
    rintro ⟨⟨m, k⟩, id, ⟨it, op⟩ | ⟨it, sd | q⟩⟩ d hd
    · exact absurd hd (Option.some_ne_none d).symm
    · simp only [dueOf] at hd
      split_ifs at hd
      rw [← Option.some.inj hd]
    · exact absurd hd (Option.some_ne_none d).symm
  rw [hid a d hd, hid b d' hd']
  exact hab

/-! ### Concurrent calls -/

/-- A delivery is a push that found the receiver open. -/
theorem delivery_eq_some {x : ℕ}
    {e : Event (HashIter String × Op Unit) (HashIter String × ReadOp) ConnId (Option Push) Reply}
    {d : ℕ × Message} (h : delivery x e = some d) :
    ∃ id c p, e = .visited id c (some p) ∧ p.chan = x ∧ p.ok = true ∧ d = (id, p.message) := by
  cases e with
  | visited id c out =>
    rcases out with _ | p
    · exact absurd h (Option.some_ne_none d).symm
    · simp only [delivery] at h
      split_ifs at h with hp
      exact ⟨id, c, p, rfl, hp.1, hp.2, (Option.some.inj h).symm⟩
  | _ => exact absurd h (Option.some_ne_none d).symm

/-- A message was delivered by a push that found the receiver open. -/
theorem mem_delivered {x : ℕ} {log : Log} {id : ℕ} {msg : Message} :
    (id, msg) ∈ delivered x log ↔ ∃ c p, .visited id c (some p) ∈ log ∧ p.chan = x ∧
      p.ok = true ∧ p.message = msg := by
  rw [delivered, List.mem_filterMap]
  constructor
  · rintro ⟨e, he, hd⟩
    obtain ⟨id', c, p, rfl, hx, hok, hidmsg⟩ := delivery_eq_some hd
    obtain ⟨rfl, rfl⟩ := Prod.mk.inj hidmsg
    exact ⟨c, p, he, hx, hok, rfl⟩
  · rintro ⟨c, p, he, hx, hok, hmsg⟩
    refine ⟨_, he, ?_⟩
    rw [← hmsg]
    exact if_pos ⟨hx, hok⟩

/-- Whoever pushes is in a send, on its walk over what it addressed when it
acquired the lock, and pushes on the channels that the connections had then. -/
theorem pushed_after (acts : List (Action τ)) {id : ℕ} {c : ConnId} {p : Push}
    (h : .visited id c (some p) ∈ (after acts).log) :
    ∃ pre it sd post,
      acquisitions (after acts).log = pre ++ (id, .read (it, .send sd)) :: post ∧
      ((visits id (after acts).log).map Prod.fst).Sublist
        (sd.items (World.after (serialCalls pre)).mgr it) ∧
      ∀ c' q, (c', some q) ∈ visits id (after acts).log →
        sd.target (World.after (serialCalls pre)).mgr c' = some q.chan ∧
          q.message = sd.message := by
  have hmem := Service.mem_visits (v := (c, some p)).2 h
  obtain ⟨⟨it, sd | q⟩, s, rest, n, ⟨pre, post, hacq, hs⟩, hwalk⟩ :=
    Service.walks_after (S := gateway) (ConnectionManager.new, 0) (fun _ => Channel.new) acts id
      (List.ne_nil_of_mem hmem)
  · rw [serial_run_new] at hs
    subst hs
    refine ⟨pre, it, sd, post, hacq, ?_, fun c' q hq => ?_⟩
    · have hitems : _ = sd.items (World.after (serialCalls pre)).mgr it := hwalk.items
      rw [← hitems]
      exact List.sublist_append_left _ rest
    · obtain ⟨cs, hcs⟩ := hwalk.visits _ hq
      exact (push_of_visit hcs).2
  · have hnil : (visits id (after acts).log).map Prod.fst ++ rest = [] := hwalk.items
    exact absurd (List.append_eq_nil_iff.1 hnil).1 (by simpa using List.ne_nil_of_mem hmem)

/-- Nothing is delivered that is not due. -/
theorem delivered_subset_due (acts : List (Action τ)) (x : ℕ) :
    delivered x (after acts).log ⊆ due x (acquisitions (after acts).log) := by
  rintro ⟨id, msg⟩ hd
  obtain ⟨c, p, he, rfl, -, rfl⟩ := mem_delivered.1 hd
  obtain ⟨pre, it, sd, post, hacq, hitems, htarget⟩ := pushed_after acts he
  have hv := Service.mem_visits (v := (c, some p)).2 he
  obtain ⟨hx, hmsg⟩ := htarget c p hv
  have hc := hitems.subset (List.mem_map_of_mem hv)
  exact mem_due.2 ⟨pre, it, sd, post, hacq, List.mem_filterMap.2 ⟨c, hc, hx⟩, hmsg.symm⟩

/-- No call pushes twice on a channel. -/
theorem nodup_delivered (acts : List (Action τ)) (x : ℕ) :
    ((delivered x (after acts).log).map Prod.fst).Nodup := by
  refine List.pairwise_map.2 (List.pairwise_filterMap.2 (List.pairwise_iff_forall_sublist.2 ?_))
  intro e e' hsub d hd d' hd' hid
  obtain ⟨id, c, p, rfl, rfl, -, rfl⟩ := delivery_eq_some hd
  obtain ⟨id', c', p', rfl, hchan, -, rfl⟩ := delivery_eq_some hd'
  obtain rfl : id = id' := hid
  have hmem : .visited id c (some p) ∈ (after acts).log := hsub.subset (by simp)
  obtain ⟨pre, it, sd, post, -, hitems, htarget⟩ := pushed_after acts hmem
  -- The two visits are of different connections, which have different channels.
  have htwo : [(c, some p), (c', some p')].Sublist (visits id (after acts).log) := by
    simpa [Event.visit, visits] using hsub.filterMap (Event.visit id)
  have hne : c ≠ c' := by
    have hnodup := (sd.nodup_items _ it).sublist ((htwo.map Prod.fst).trans hitems)
    simpa using hnodup
  have hc := Send.lookup_of_target (htarget c p (htwo.subset (by simp))).1
  have hc' := Send.lookup_of_target (htarget c' p' (htwo.subset (by simp))).1
  rw [hchan] at hc'
  exact hne ((World.wired_after (serialCalls pre)).own c c' p.chan hc hc')

/-- At the end everything is delivered. -/
theorem due_subset_delivered {acts : List (Action τ)} (hquiet : Quiet acts)
    (hidle : ∀ t, (after acts).task t = .idle) (x : ℕ) :
    due x (acquisitions (after acts).log) ⊆ delivered x (after acts).log := by
  rintro ⟨id, msg⟩ hd
  obtain ⟨pre, it, sd, post, hacq, hx, hmsg⟩ := mem_due.1 hd
  obtain ⟨c, hc, htarget⟩ := List.mem_filterMap.1 hx
  obtain ⟨n, hwalk⟩ := Service.walked_of_idle (S := gateway) hidle
    ⟨pre, post, hacq, serial_run_new pre⟩
  rw [← items_of_walked hwalk] at hc
  obtain ⟨v, hv, rfl⟩ := List.mem_map.1 hc
  obtain ⟨cs, hcs⟩ := hwalk.visits v hv
  obtain ⟨p, hp, -⟩ := visit_of_target it cs htarget
  have he : .visited id v.1 (some p) ∈ (after acts).log := by
    rw [← hp, ← hcs]
    exact Service.mem_visits.1 hv
  obtain ⟨-, hchan, hmessage⟩ := push_of_walked hwalk v hv p (hcs.trans hp)
  refine mem_delivered.2 ⟨v.1, p, he, ?_, allPushed_after hquiet id v.1 p he, ?_⟩
  · exact Option.some.inj (hchan.symm.trans htarget)
  · exact hmessage.trans hmsg

/-- **The queues of concurrent calls are those of the calls one at a time**, but
for the order.  After any schedule, no message is on a queue that is not there
when the calls are made one at a time, in the order in which they acquired the
lock, nor more often.  When no client has dropped a receiver and nobody is in a
call, all of these are there. -/
theorem queues_linearize (acts : List (Action τ)) :
    let serial := World.after (serialCalls (acquisitions (after acts).log))
    (∀ x, ((after acts).outside x).queue.Subperm (serial.chans x).queue) ∧
      (Quiet acts → (∀ t, (after acts).task t = .idle) →
        ∀ x, ((after acts).outside x).queue.Perm (serial.chans x).queue) := by
  intro serial
  have hdue : ∀ x, (due x (acquisitions (after acts).log)).Nodup := fun x =>
    (nodup_due (Service.nodup_acquisitions (inv_after acts).staged.ordered) x).of_map _
  have hdelivered : ∀ x, (delivered x (after acts).log).Nodup := fun x =>
    (nodup_delivered acts x).of_map _
  constructor
  · intro x
    rw [queue_after, serial_queue]
    obtain ⟨l, hperm, hsub⟩ := (hdelivered x).subperm (delivered_subset_due acts x)
    exact ⟨l.map Prod.snd, hperm.map Prod.snd, hsub.map Prod.snd⟩
  · intro hquiet hidle x
    rw [queue_after, serial_queue]
    refine ((List.perm_ext_iff_of_nodup (hdelivered x) (hdue x)).2 fun d => ?_).map Prod.snd
    exact ⟨fun h => delivered_subset_due acts x h, fun h => due_subset_delivered hquiet hidle x h⟩

end WsGateway
end Denshin
