/-
# Every delivery is reported once

A send returns how many pushes succeeded.  However the sends of a gateway are
interleaved with each other and with everything else, the counts they returned
are the messages on the queues: no message is reported by two calls, by none, or
without being there (`reports_conserved`).
-/

import Denshin.Basis.Guarded.Count
import Denshin.Gateway.Snapshot

namespace Denshin

open Basis

namespace WsGateway

variable {τ : Type*} [DecidableEq τ]

/-- The successes that an answer reports. -/
def reportOf : Reply → ℕ
  | .sent s => s.num
  | _ => 0

/-- An answer reports what its walk counted, and only those of sends do. -/
theorem reports : Service.Reports gateway reportOf where
  write _ _ := rfl
  read p b n hn := by
    obtain ⟨it, sd | q⟩ := b
    · exact sd.sent_num hn
    · exact (Nat.le_zero.1 hn).symm

/-- The successes reported by the calls that have returned. -/
def reportedBy (log : Log) : ℕ := (log.map (Service.reported reportOf)).sum

/-! ### The channels pushed on -/

/-- The channels in use, and those that were, are those opened so far. -/
structure Opened (s : Sys τ) : Prop where
  senders : ∀ c x, s.guarded.1.senders.lookup c = some x → x < s.guarded.2
  pushes : ∀ id c p, .visited id c (some p) ∈ s.log → p.chan < s.guarded.2

/-- Every step keeps the channels in use among those opened. -/
theorem opened_step {s s' : Sys τ} (hs : gateway.Step s s') (h : Opened s) : Opened s' := by
  have hquiet : ∀ e : Event (HashIter String × Op Unit) (HashIter String × ReadOp) ConnId
      (Option Push) Reply, e.stage ≠ 2 → ∀ id c p, .visited id c (some p) ∈ s.log ++ [e] →
        p.chan < s.guarded.2 := by
    intro e he id c p hmem
    rcases List.mem_append.1 hmem with hmem | hmem
    · exact h.pushes id c p hmem
    · rw [← List.mem_singleton.1 hmem] at he
      exact absurd rfl he
  cases hs with
  | invoke t call ht => exact ⟨h.senders, hquiet _ (by simp)⟩
  | acquireWrite t id a lock ht hl => exact ⟨h.senders, hquiet _ (by simp)⟩
  | acquireRead t id b lock ht hl => exact ⟨h.senders, hquiet _ (by simp)⟩
  | update t id a ht =>
    have hle : s.guarded.2 ≤ (gateway.update s.guarded a).1.2 := by
      show s.guarded.2 ≤ if a.2.registers.isSome then s.guarded.2 + 1 else s.guarded.2
      split_ifs <;> omega
    refine ⟨fun c x hx => ?_, fun id c p hp => (h.pushes id c p hp).trans_le hle⟩
    have hsender := s.guarded.1.sender_step (a.1, a.2.withTx s.guarded.2) c
    have hx' : (s.guarded.1.step (a.1, a.2.withTx s.guarded.2)).1.senders.lookup c = some x := hx
    rw [hsender, Op.opens_withTx] at hx'
    split_ifs at hx' with hb hreg
    · obtain rfl := Option.some.inj hx'
      show s.guarded.2 < if a.2.registers.isSome then s.guarded.2 + 1 else s.guarded.2
      rw [if_pos hreg]
      exact Nat.lt_succ_self _
    · exact (h.senders c x hx').trans_le hle
  | start t id b ht => exact ⟨h.senders, h.pushes⟩
  | visit t id b c rest n ht =>
    refine ⟨h.senders, fun id' c' p hp => ?_⟩
    rcases List.mem_append.1 hp with hp | hp
    · exact h.pushes id' c' p hp
    · obtain ⟨-, -, hp⟩ := Event.visited.inj (List.mem_singleton.1 hp)
      obtain ⟨it, sd | q⟩ := b
      · obtain ⟨-, htarget, -⟩ := push_of_visit hp
        exact h.senders c p.chan (Send.lookup_of_target htarget)
      · exact absurd hp (Option.some_ne_none p)
  | returnWrite t id r ht => exact ⟨h.senders, hquiet _ (by simp)⟩
  | returnRead t id b n ht => exact ⟨h.senders, hquiet _ (by simp)⟩
  | client g => exact ⟨h.senders, h.pushes⟩

/-- The channels in use are among those opened, after every schedule. -/
theorem opened_after (acts : List (Action τ)) : Opened (after acts) := by
  refine Service.after_inv (S := gateway) (I := Opened) (fun _ _ hs => opened_step hs) ?_ acts
  refine ⟨fun c x hx => ?_, fun _ _ _ hp => absurd hp List.not_mem_nil⟩
  have hnone := (ConnectionManager.lookup_new c).symm.trans hx
  exact absurd hnone (Option.some_ne_none x).symm

/-- The messages delivered to all channels are the pushes that succeeded. -/
theorem sum_delivered {log : Log} {N : ℕ}
    (h : ∀ id c p, .visited id c (some p) ∈ log → p.chan < N) :
    ∑ x ∈ Finset.range N, (delivered x log).length = (log.map gateway.counted).sum := by
  induction log with
  | nil => exact Finset.sum_eq_zero fun _ _ => rfl
  | cons e log ih =>
    have ih' := ih fun id c p hp => h id c p (List.mem_cons_of_mem e hp)
    have hcons : ∀ x, (delivered x (e :: log)).length =
        (delivered x [e]).length + (delivered x log).length := by
      intro x
      rw [← List.length_append, ← delivered_append]
      rfl
    rw [List.map_cons, List.sum_cons, ← ih', Finset.sum_congr rfl fun x _ => hcons x,
      Finset.sum_add_distrib]
    congr 1
    have hzero : (∀ x, delivery x e = none) → gateway.counted e = 0 →
        ∑ x ∈ Finset.range N, (delivered x [e]).length = gateway.counted e := by
      intro hnone hcount
      rw [hcount]
      refine Finset.sum_eq_zero fun x _ => ?_
      rw [delivered, List.filterMap_cons_none (hnone x)]
      rfl
    cases e with
    | visited id c out =>
      rcases out with _ | p
      · exact hzero (fun _ => rfl) rfl
      · have hlt : p.chan < N := h id c p List.mem_cons_self
        have hone : ∀ x, (delivered x [.visited id c (some p)]).length =
            if p.chan = x then (if p.ok then 1 else 0) else 0 := by
          intro x
          show (List.filterMap _ _).length = _
          simp only [List.filterMap_cons, delivery]
          by_cases hx : p.chan = x <;> by_cases hok : p.ok = true <;> simp [hx, hok]
        rw [Finset.sum_congr rfl fun x _ => hone x, Finset.sum_ite_eq,
          if_pos (Finset.mem_range.2 hlt)]
        rfl
    | _ => exact hzero (fun _ => rfl) rfl

/-- **Every delivery is reported once.**  After any schedule, the successes
reported by the calls that have returned are no more than the messages that were
put on the queues, and exactly as many when nobody is in a call. -/
theorem reports_conserved (acts : List (Action τ)) :
    reportedBy (after acts).log ≤
        ∑ x ∈ Finset.range (after acts).guarded.2, ((after acts).outside x).queue.length ∧
      ((∀ t, (after acts).task t = .idle) → reportedBy (after acts).log =
        ∑ x ∈ Finset.range (after acts).guarded.2, ((after acts).outside x).queue.length) := by
  have hqueue : ∑ x ∈ Finset.range (after acts).guarded.2, ((after acts).outside x).queue.length =
      ((after acts).log.map gateway.counted).sum := by
    rw [← sum_delivered (opened_after acts).pushes]
    refine Finset.sum_congr rfl fun x _ => ?_
    rw [queue_after, List.length_map]
  rw [hqueue]
  exact Service.reported_eq_counted reports _ _ acts

end WsGateway
end Denshin
