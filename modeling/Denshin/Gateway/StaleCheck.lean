/-
# When a stale check panics

`stale_connections` finds the connections not heard of for the given duration.
The cutoff `Instant::now() - timeout` is checked arithmetic, and the timeout is
whatever duration the configuration holds: when it reaches back further than the
clock can represent, so that nothing could be stale, the call panics instead of
returning the empty list (`stale_check_panics`).  Short of that every check that
is made on a gateway returns a list, whatever the connections are and whatever
the other tasks do (`stale_check_completes_iff`).

`Instant::now()` is read under the lock; the reading is the argument `now` of
the call.
-/

import Denshin.Basis.Guarded.Progress
import Denshin.Gateway.MessageOrder

namespace Denshin

open Basis

/-- **The cutoff decides.**  The manager lists the stale connections, whichever
they are, exactly when the timeout is in reach of the clock. -/
theorem ConnectionManager.ask_staleConnections {χ : Type*} (m : ConnectionManager χ)
    (it : HashIter String) (now : Instant) (timeout : Duration) :
    (∃ ids, m.ask it (.staleConnections now timeout) = .ids ids) ↔ now.InReach timeout := by
  rw [← Instant.checkedSub_isSome_iff]
  show (∃ ids, (m.staleConnections it now timeout).elim Answer.panic Answer.ids = .ids ids) ↔ _
  rcases hcut : now.checkedSub timeout with _ | cutoff
  · rw [staleConnections, hcut]
    exact iff_of_false (by rintro ⟨ids, hids⟩; cases hids) Bool.false_ne_true
  · rw [staleConnections, hcut]
    exact iff_of_true ⟨_, rfl⟩ rfl

namespace WsGateway

variable {τ : Type*} [DecidableEq τ]

/-- A stale check, the call numbered `id`, completes: it can return, whatever
has happened so far, and whatever happens it returns a list, the empty one if
the timeout reaches back further than the clock can represent. -/
structure StaleCheckCompletes (acts : List (Action τ)) (id : ℕ) (config : GatewayConfig)
    (now : Instant) : Prop where
  returns : ∃ more ids, .returned id (.answer (.ids ids)) ∈ (after (acts ++ more)).log
  list : ∀ more r, .returned id r ∈ (after (acts ++ more)).log →
    ∃ ids, r = .answer (.ids ids) ∧ (¬ now.InReach config.heartbeatTimeout → ids = [])

section StaleCheck

variable {acts : List (Action τ)} {id : ℕ} {it : HashIter String} {config : GatewayConfig}
  {now : Instant} (h : .invoked id (staleConnections it config now) ∈ (after acts).log)

include h

/-- Whenever the check returns, it is with what the manager answered. -/
theorem answered_of_returned {more : List (Action τ)} {r : Reply}
    (hr : .returned id r ∈ (after (acts ++ more)).log) :
    ∃ m : ConnectionManager ℕ,
      r = .answer (m.ask it (.staleConnections now config.heartbeatTimeout)) := by
  have hi : .invoked id (staleConnections it config now) ∈ (after (acts ++ more)).log := by
    rw [after, Service.after_append]
    exact Service.mem_log_run h more
  obtain ⟨s, -, n, -, hn⟩ := Service.returned_answers _ _ _ hi hr
  exact ⟨s.1, hn⟩

/-- **A stale check completes exactly when its timeout is in reach of the clock**,
in every state of the gateway that any schedule leads to. -/
theorem stale_check_completes_iff :
    StaleCheckCompletes acts id config now ↔ now.InReach config.heartbeatTimeout := by
  constructor
  · rintro ⟨⟨more, ids, hr⟩, -⟩
    obtain ⟨m, hm⟩ := answered_of_returned h hr
    exact (m.ask_staleConnections it now _).1 ⟨ids, (Reply.answer.inj hm).symm⟩
  · intro hreach
    have hlist : ∀ more r, .returned id r ∈ (after (acts ++ more)).log →
        ∃ ids, r = .answer (.ids ids) := by
      intro more r hr
      obtain ⟨m, rfl⟩ := answered_of_returned h hr
      obtain ⟨ids, hids⟩ := (m.ask_staleConnections it now _).2 hreach
      exact ⟨ids, congrArg Reply.answer hids⟩
    obtain ⟨more, r, hr⟩ := Service.can_return _ _ _ h
    obtain ⟨ids, rfl⟩ := hlist more r hr
    refine ⟨⟨more, ids, hr⟩, fun more' r' hr' => ?_⟩
    obtain ⟨ids', hids'⟩ := hlist more' r' hr'
    exact ⟨ids', hids', fun hout => absurd hreach hout⟩

end StaleCheck

/-- A check with the default timeout completes. -/
theorem stale_check_completes_iff_default :
    let acts : List (Action ℕ) := [.invoke 0 (staleConnections default .default (.ofSecs 100))]
    StaleCheckCompletes acts 0 .default (.ofSecs 100) := by
  intro acts
  have hinvoked : .invoked 0 (staleConnections default .default (.ofSecs 100)) ∈
      (after acts).log := List.mem_singleton_self _
  exact (stale_check_completes_iff hinvoked).2 (by decide)

/-- A check by a gateway for which nothing is ever to be stale. -/
def neverStale : List (Action ℕ) :=
  whole 0 (staleConnections default ⟨1024, .max⟩ (.ofSecs 1000))

/-- **The stale check panics**, on a gateway without connections, for the longest
timeout. -/
theorem stale_check_panics :
    .returned 0 (.answer .panic) ∈ (after neverStale).log ∧
      ¬ ∀ (acts : List (Action ℕ)) (id : ℕ) (it : HashIter String) (config : GatewayConfig)
        (now : Instant), .invoked id (staleConnections it config now) ∈ (after acts).log →
          StaleCheckCompletes acts id config now := by
  have hlog : .returned 0 (.answer .panic) ∈ (after neverStale).log :=
    List.mem_of_getElem? (i := 2) rfl
  refine ⟨hlog, fun hall => ?_⟩
  have hinvoked : .invoked 0 (staleConnections default ⟨1024, .max⟩ (.ofSecs 1000)) ∈
      (after neverStale).log := List.mem_of_getElem? (i := 0) rfl
  obtain ⟨ids, hids, -⟩ := (hall neverStale 0 default ⟨1024, .max⟩ (.ofSecs 1000) hinvoked).list []
    (.answer .panic) (by rwa [List.append_nil])
  cases hids

end WsGateway
end Denshin
