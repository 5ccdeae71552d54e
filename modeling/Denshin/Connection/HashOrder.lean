/-
# The order of iteration does not matter

`remove`, the room sends, `broadcast` and the queries that list ids walk a hash
map or a hash set, in an order that is not specified and may differ from call to
call.  Whatever the orders, every call of a run returns the same, up to the order
of the ids that a query lists, and leaves the same manager and the same messages
on every channel (`order_irrelevant`).
-/

import Denshin.Connection.World

namespace Denshin

open Basis

/-- The same answer, up to the order of the ids listed. -/
def Answer.Alike : Answer → Answer → Prop
  | .ids l, .ids l' => l.Perm l'
  | a, a' => a = a'

/-- The same reply, likewise. -/
def Reply.Alike : Reply → Reply → Prop
  | .answer a, .answer a' => a.Alike a'
  | r, r' => r = r'

/-- Every answer is like itself. -/
theorem Answer.alike_refl (a : Answer) : a.Alike a := by
  cases a with
  | ids l => exact List.Perm.refl l
  | _ => rfl

namespace ConnectionManager

variable {χ : Type*}

/-- **A query answers alike in whatever order it iterates.** -/
theorem ask_alike (m : ConnectionManager χ) (it it' : HashIter String) (q : Query) :
    (m.ask it q).Alike (m.ask it' q) := by
  cases q with
  | connectionIds => exact (it.entries_perm it' m.info).map Prod.fst
  | roomIds => exact (it.entries_perm it' m.rooms).map Prod.fst
  | staleConnections now timeout =>
    show ((m.staleConnections it now timeout).elim Answer.panic .ids).Alike
      ((m.staleConnections it' now timeout).elim Answer.panic .ids)
    unfold staleConnections
    rcases now.checkedSub timeout with _ | cutoff
    · rfl
    · exact ((it.entries_perm it' m.info).filter _).map Prod.fst
  | connectionsForUser u => exact ((it.entries_perm it' m.info).filter _).map Prod.fst
  | _ => exact Answer.alike_refl _

/-- A call that changes the manager. -/
theorem Consistent.step_order {m : ConnectionManager χ} (h : m.Consistent)
    (it it' : HashIter String) (op : Op χ) : m.step (it, op) = m.step (it', op) := by
  refine Prod.ext ((h.step _).ext (h.step _) fun c => ?_) ?_
  · rw [view_step, view_step]
  · rw [answer_step, answer_step]

/-- A send. -/
theorem send_order [DecidableEq χ] {m : ConnectionManager χ} (h : OwnChannels m)
    (it it' : HashIter String) (cs : Channels χ Message) (s : Send) :
    m.send it cs s = m.send it' cs s := by
  have hchans : (m.send it cs s).1 = (m.send it' cs s).1 := by
    funext x
    rw [(m.send_eq_fanOut it cs s).1, (m.send_eq_fanOut it' cs s).1,
      Channels.fanOut_apply (h.nodup_targets it s), Channels.fanOut_apply (h.nodup_targets it' s)]
    exact if_congr (Send.mem_targets.trans Send.mem_targets.symm) rfl rfl
  have hnum : (m.send it cs s).2.num = (m.send it' cs s).2.num := by
    have hgrown := encard_grown_send h it cs s
    rw [hchans, encard_grown_send h it' cs s] at hgrown
    exact (Nat.cast_injective hgrown).symm
  refine Prod.ext hchans ?_
  cases s with
  | sendTo c msg => rfl
  | _ => exact congrArg Sent.count hnum

end ConnectionManager

namespace World

/-- One call. -/
theorem Wired.step_order {w : World} (h : w.Wired) (it it' : HashIter String) (cmd : Cmd) :
    (w.step (it, cmd)).1 = (w.step (it', cmd)).1 ∧
      (w.step (it, cmd)).2.Alike (w.step (it', cmd)).2 := by
  cases cmd with
  | mutate op =>
    have hsame : w.step (it, .mutate op) = w.step (it', .mutate op) := by
      rw [World.step, World.step, h.consistent.step_order it it']
    rw [hsame]
    exact ⟨rfl, rfl⟩
  | send s =>
    have hsame : w.step (it, .send s) = w.step (it', .send s) := by
      rw [World.step, World.step, ConnectionManager.send_order h.own it it']
    rw [hsame]
    exact ⟨rfl, rfl⟩
  | ask q => exact ⟨rfl, w.mgr.ask_alike it it' q⟩
  | dropReceiver rx => exact ⟨rfl, rfl⟩

/-- **The order of iteration does not matter.**  Two runs of the same calls, each
call with any two orders of iteration, end in the same manager with the same
messages on the same channels, and return the same, up to the order of the ids
that are listed. -/
theorem order_irrelevant (calls : List ((HashIter String × HashIter String) × Cmd)) :
    let left := calls.map fun call => (call.1.1, call.2)
    let right := calls.map fun call => (call.1.2, call.2)
    after left = after right ∧
      List.Forall₂ Reply.Alike (machine.answers new left) (machine.answers new right) := by
  intro left right
  have hmap : left.map Prod.snd = right.map Prod.snd := by
    rw [List.map_map, List.map_map]
    rfl
  have hboth : ∀ (s t : World) (a b : HashIter String × Cmd), a.2 = b.2 → s = t ∧ s.Wired →
      ((s.step a).1 = (t.step b).1 ∧ (s.step a).1.Wired) ∧ (s.step a).2.Alike (t.step b).2 := by
    rintro s t ⟨it, cmd⟩ ⟨it', cmd'⟩ hcmd ⟨rfl, hs⟩
    obtain rfl : cmd = cmd' := hcmd
    obtain ⟨hworld, hreply⟩ := hs.step_order it it' cmd
    exact ⟨⟨hworld, hs.step _⟩, hreply⟩
  constructor
  · exact (machine.run_rel (fun s t a b hab hR => (hboth s t a b hab hR).1) ⟨rfl, wired_new⟩ hmap).1
  · exact machine.answers_rel hboth ⟨rfl, wired_new⟩ hmap

end World
end Denshin
