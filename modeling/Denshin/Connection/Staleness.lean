/-
# Stale connections

`stale_connections` filters the metadata by one stored reading, `last_seen`.
Over a whole run that reading is the one of the latest call that registered the
connection or touched it since (`lastHeard`), so if the clock never runs
backwards the result is exact (`staleness_exact`): who is in it was last heard
of strictly more than the timeout ago.  Calls that neither register, remove nor
touch a connection do not change whether it is in the result, and a heartbeat
keeps it out for as long as the timeout.

Only the readings taken count: `touch` reads the clock only if the id is
registered.
-/

import Denshin.Connection.World

namespace Denshin

open Basis

variable {χ χ' : Type*}

/-- The reading a call takes. -/
def Cmd.reading (m : ConnectionManager χ) : Cmd → Option Instant
  | .mutate (.add _ _ _ now) => some now
  | .mutate (.addWithId _ _ _ now) => some now
  | .mutate (.touch c now) => if m.contains c then some now else none
  | .ask (.staleConnections now _) => some now
  | _ => none

/-- The reading at which a call registers or touches `c`. -/
def Cmd.beat (m : ConnectionManager χ) (c : ConnId) : Cmd → Option Instant
  | .mutate (.add uuid _ _ now) => if uuid = c then some now else none
  | .mutate (.addWithId id _ _ now) => if id = c then some now else none
  | .mutate (.touch c' now) => if c' = c ∧ m.contains c then some now else none
  | _ => none

/-- When `c` was last heard of, after a call: a registration starts the clock,
a touch restarts it, a removal forgets it. -/
def Op.heard (c : ConnId) (o : Option Instant) : Op χ → Option Instant
  | .add uuid _ _ now => if uuid = c then some now else o
  | .addWithId id _ _ now => if id = c then some now else o
  | .touch c' now => if c' = c then o.map fun _ => now else o
  | .remove c' => if c' = c then none else o
  | _ => o

def Cmd.heard (c : ConnId) (o : Option Instant) : Cmd → Option Instant
  | .mutate op => op.heard c o
  | _ => o

/-- The reading of the latest call of a run that registered `c` or touched it
since, if `c` has not been removed. -/
def lastHeard (c : ConnId) (calls : List (HashIter String × Cmd)) : Option Instant :=
  (calls.map Prod.snd).foldl (Cmd.heard c) none

/-- What is heard of a connection does not depend on channels. -/
@[simp] theorem Op.heard_withTx (c : ConnId) (o : Option Instant) (op : Op χ) (tx : χ') :
    (op.withTx tx).heard c o = op.heard c o := by
  cases op <;> rfl

/-- A call on one connection is not heard of another. -/
theorem Op.heard_of_ne {c : ConnId} {op : Op χ} (h : c ≠ op.conn) (o : Option Instant) :
    op.heard c o = o := by
  cases op with
  | joinRoom => rfl
  | leaveRoom => rfl
  | _ => exact if_neg h.symm

/-- `last_seen` of a view. -/
def View.lastSeen (v : View χ) : Option Instant := v.info.map ConnectionInfo.lastSeen

/-- **What a call does to `last_seen`.** -/
theorem View.lastSeen_step (v : View χ) (op : Op χ) :
    (v.step op).1.lastSeen = op.heard op.conn v.lastSeen := by
  cases op with
  | add => exact (if_pos rfl).symm
  | addWithId => exact (if_pos rfl).symm
  | remove => exact (if_pos rfl).symm
  | joinRoom c r =>
    rcases v.joinRoom_cases r with h | ⟨info, hi, -, h⟩ <;> rw [View.step, h]
    · rfl
    · exact (congrArg (Option.map ConnectionInfo.lastSeen) hi).symm
  | leaveRoom c r =>
    rcases v.leaveRoom_cases r with h | ⟨info, hi, -, h⟩ <;> rw [View.step, h]
    · rfl
    · exact (congrArg (Option.map ConnectionInfo.lastSeen) hi).symm
  | touch c now =>
    simp only [View.step, View.touch, Op.heard, Op.conn, if_true, lastSeen]
    cases v.info <;> rfl

namespace ConnectionManager

/-- Who is stale, given the cutoff. -/
theorem mem_staleConnections (m : ConnectionManager χ) (it : HashIter ConnId) {t cutoff : Instant}
    {timeout : Duration} (h : t.checkedSub timeout = some cutoff) :
    ∃ ids, m.staleConnections it t timeout = some ids ∧ ids.Nodup ∧
      ∀ c, c ∈ ids ↔ ∃ u, (m.view c).lastSeen = some u ∧ u < cutoff := by
  refine ⟨_, by rw [staleConnections, h]; rfl, it.nodup_keys_filter m.info _, fun c => ?_⟩
  rw [it.mem_keys_filter]
  constructor
  · rintro ⟨info, hi, hu⟩
    refine ⟨info.lastSeen, ?_, of_decide_eq_true hu⟩
    rw [View.lastSeen, view_info, hi, Option.map_some]
  · rintro ⟨u, hu, hlt⟩
    obtain ⟨info, hi, rfl⟩ := Option.map_eq_some_iff.1 hu
    exact ⟨info, hi, decide_eq_true hlt⟩

end ConnectionManager

namespace World

/-- The readings taken along a run. -/
def readings (w : World) (calls : List (HashIter String × Cmd)) : List Instant :=
  (machine.trace w calls).filterMap fun p => p.2.2.reading p.1.mgr

/-- **What a call does to `last_seen`.** -/
theorem lastSeen_step (w : World) (call : HashIter String × Cmd) (c : ConnId) :
    ((w.step call).1.mgr.view c).lastSeen = call.2.heard c (w.mgr.view c).lastSeen := by
  obtain ⟨it, cmd⟩ := call
  cases cmd with
  | mutate op =>
    rw [view_step]
    split_ifs with hc
    · subst hc
      rw [View.lastSeen_step, Op.heard_withTx, Op.conn_withTx]
      rfl
    · exact (Op.heard_of_ne hc _).symm
  | send s => rfl
  | ask q => rfl
  | dropReceiver rx =>
    rw [mgr_step_dropReceiver]
    rfl

/-- `last_seen` is when the connection was last heard of. -/
theorem lastSeen_run (w : World) (calls : List (HashIter String × Cmd)) (c : ConnId) :
    ((machine.run w calls).mgr.view c).lastSeen =
      (calls.map Prod.snd).foldl (Cmd.heard c) (w.mgr.view c).lastSeen := by
  induction calls generalizing w with
  | nil => rfl
  | cons call calls ih => rw [Machine.run_cons, machine_step, ih, lastSeen_step]; rfl

/-- **`last_seen` is when the connection was last heard of.** -/
theorem lastSeen_after (calls : List (HashIter String × Cmd)) (c : ConnId) :
    ((after calls).mgr.view c).lastSeen = lastHeard c calls := by
  rw [after, lastSeen_run]
  rfl

/-! ### Readings in order -/

/-- The readings of a run, part by part. -/
theorem readings_append (w : World) (calls calls' : List (HashIter String × Cmd)) :
    readings w (calls ++ calls') = readings w calls ++ readings (machine.run w calls) calls' := by
  rw [readings, Machine.trace_append, List.filterMap_append]
  rfl

/-- The readings of a run, call by call. -/
theorem readings_cons (w : World) (call : HashIter String × Cmd)
    (calls : List (HashIter String × Cmd)) :
    readings w (call :: calls) =
      (call.2.reading w.mgr).toList ++ readings (w.step call).1 calls := by
  rw [readings, Machine.trace]
  cases h : call.2.reading w.mgr <;> simp [h, readings]

/-- A connection is registered exactly when it was heard of. -/
theorem contains_iff (w : World) (c : ConnId) :
    w.mgr.contains c = true ↔ (w.mgr.view c).lastSeen.isSome := by
  rw [View.lastSeen, Option.isSome_map]
  rfl

/-- A call registers or touches a connection at the reading it takes. -/
theorem reading_of_beat {m : ConnectionManager χ} {cmd : Cmd} {c : ConnId} {u : Instant}
    (h : cmd.beat m c = some u) : cmd.reading m = some u := by
  cases cmd with
  | mutate op =>
    cases op with
    | add uuid userId tx now =>
      simp only [Cmd.beat] at h
      split_ifs at h
      exact h
    | addWithId id userId tx now =>
      simp only [Cmd.beat] at h
      split_ifs at h
      exact h
    | touch c' now =>
      simp only [Cmd.beat] at h
      split_ifs at h with hc
      obtain ⟨rfl, hreg⟩ := hc
      exact (if_pos hreg).trans h
    | _ => exact absurd h (Option.some_ne_none u).symm
  | _ => exact absurd h (Option.some_ne_none u).symm

/-- **What is heard in a call**: the reading at which it registers or touches
the connection, or else, unless it removes it, what was heard before. -/
theorem heard_eq (w : World) (cmd : Cmd) (c : ConnId) :
    cmd.heard c (w.mgr.view c).lastSeen = (cmd.beat w.mgr c).or
      (if cmd = .mutate (.remove c) then none else (w.mgr.view c).lastSeen) := by
  cases cmd with
  | mutate op =>
    cases op with
    | add uuid userId tx now =>
      simp only [Cmd.heard, Op.heard, Cmd.beat]
      split_ifs <;> simp_all
    | addWithId id userId tx now =>
      simp only [Cmd.heard, Op.heard, Cmd.beat]
      split_ifs <;> simp_all
    | remove c' => simp [Cmd.heard, Op.heard, Cmd.beat]
    | touch c' now =>
      have hreg := w.contains_iff c'
      simp only [Cmd.heard, Op.heard, Cmd.beat]
      rcases eq_or_ne c' c with rfl | hc
      · cases ho : (w.mgr.view c').lastSeen <;> simp [ho] at hreg <;> simp [hreg]
      · simp [hc]
    | joinRoom => rfl
    | leaveRoom => rfl
  | _ => rfl

/-- What was heard after a call was heard before, or at the reading it takes. -/
theorem heard_cases {w : World} {call : HashIter String × Cmd} {c : ConnId} {u : Instant}
    (h : ((w.step call).1.mgr.view c).lastSeen = some u) :
    (w.mgr.view c).lastSeen = some u ∨ call.2.reading w.mgr = some u := by
  rw [lastSeen_step, heard_eq] at h
  cases hb : call.2.beat w.mgr c with
  | some v =>
    rw [hb, Option.some_or] at h
    exact Or.inr (reading_of_beat (hb.trans h))
  | none =>
    rw [hb, Option.none_or] at h
    split_ifs at h
    exact Or.inl h

/-- **Whatever was heard along a run was heard before it or at one of its
readings.** -/
theorem heard_run {w : World} {calls : List (HashIter String × Cmd)} {c : ConnId} {u : Instant}
    (h : ((machine.run w calls).mgr.view c).lastSeen = some u) :
    (w.mgr.view c).lastSeen = some u ∨ u ∈ readings w calls := by
  induction calls generalizing w with
  | nil => exact Or.inl h
  | cons call calls ih =>
    rw [readings_cons, List.mem_append, Option.mem_toList]
    rcases ih h with h | h
    · rcases heard_cases h with h | h
      · exact Or.inl h
      · exact Or.inr (Or.inl h)
    · exact Or.inr (Or.inr h)

/-- A call that registers or touches a connection is heard. -/
theorem lastSeen_of_beat {w : World} {call : HashIter String × Cmd} {c : ConnId} {u : Instant}
    (h : call.2.beat w.mgr c = some u) : ((w.step call).1.mgr.view c).lastSeen = some u := by
  rw [lastSeen_step, heard_eq, h]
  rfl

/-- A call that neither registers, removes nor touches `c` is not heard. -/
theorem heard_of_other {c : ConnId} {cmd : Cmd} (hb : ¬ cmd.Rebinds c)
    (ht : ∀ u, cmd ≠ .mutate (.touch c u)) (o : Option Instant) : cmd.heard c o = o := by
  cases cmd with
  | mutate op =>
    cases op with
    | add => exact if_neg fun h => hb ⟨rfl, h⟩
    | addWithId => exact if_neg fun h => hb ⟨rfl, h⟩
    | remove => exact if_neg fun h => hb ⟨rfl, h⟩
    | touch c' now => exact if_neg fun h => ht now (by rw [h])
    | joinRoom => rfl
    | leaveRoom => rfl
  | _ => rfl

/-! ### The result of `stale_connections` -/

/-- Who is in the result, given the cutoff. -/
theorem stale_reply (w : World) (it : HashIter String) {t cutoff : Instant} {timeout : Duration}
    (h : t.checkedSub timeout = some cutoff) :
    ∃ ids, (w.step (it, .ask (.staleConnections t timeout))).2 = .answer (.ids ids) ∧ ids.Nodup ∧
      ∀ c, c ∈ ids ↔ ∃ u, (w.mgr.view c).lastSeen = some u ∧ u < cutoff := by
  obtain ⟨ids, hids, hrest⟩ := w.mgr.mem_staleConnections it h
  refine ⟨ids, ?_, hrest⟩
  simp only [step, ConnectionManager.ask, hids, Option.elim_some]

/-- The reading taken last is the largest. -/
theorem readings_le {calls : List (HashIter String × Cmd)} {it : HashIter String} {t : Instant}
    {timeout : Duration} (hmono : (readings new
      (calls ++ [(it, .ask (.staleConnections t timeout))])).Pairwise (· ≤ ·)) :
    (readings new calls).Pairwise (· ≤ ·) ∧ ∀ u ∈ readings new calls, u ≤ t := by
  rw [readings_append] at hmono
  obtain ⟨hcalls, -, hlast⟩ := List.pairwise_append.1 hmono
  exact ⟨hcalls, fun u hu => hlast u hu t (List.mem_singleton_self t)⟩

/-- A connection was last heard of at one of the readings. -/
theorem mem_readings_of_lastSeen {calls : List (HashIter String × Cmd)} {c : ConnId} {u : Instant}
    (h : ((after calls).mgr.view c).lastSeen = some u) : u ∈ readings new calls :=
  (heard_run h).resolve_left (Option.some_ne_none u).symm

/-- **A heartbeat is not forgotten**: a connection still registered was last
heard of at that reading or later. -/
theorem le_lastSeen_of_beat {pre post : List (HashIter String × Cmd)}
    {call : HashIter String × Cmd} {c : ConnId} {u v : Instant}
    (hmono : (readings new (pre ++ call :: post)).Pairwise (· ≤ ·))
    (hbeat : call.2.beat (after pre).mgr c = some u)
    (hv : ((after (pre ++ call :: post)).mgr.view c).lastSeen = some v) :
    u.toNanos ≤ v.toNanos ∧ u ∈ readings new (pre ++ call :: post) := by
  have hreading : call.2.reading (machine.run new pre).mgr = some u := reading_of_beat hbeat
  rw [readings_append, readings_cons, hreading, Option.toList_some,
    List.singleton_append] at hmono ⊢
  refine ⟨?_, List.mem_append_right _ List.mem_cons_self⟩
  rw [after_append, Machine.run_cons, machine_step] at hv
  rcases heard_run hv with h | h
  · obtain rfl : u = v := Option.some.inj ((lastSeen_of_beat hbeat).symm.trans h)
    exact le_rfl
  · exact (Instant.le_iff u v).1 ((List.pairwise_cons.1 (List.pairwise_append.1 hmono).2.1).1 v h)

/-- **Staleness is exact over whole runs.**  In a run whose clock readings never
decrease, `stale_connections` at a reading `t` with `t - timeout` representable
lists, each once, the registered connections last heard of strictly more than
the timeout before `t`.  A connection registered or touched at `u` is not among
them while `t` is at most the timeout after `u`, and a call that neither
registers, removes nor touches a connection does not change whether it is. -/
theorem staleness_exact (calls : List (HashIter String × Cmd)) (it : HashIter String) (t : Instant)
    (timeout : Duration)
    (hmono : (readings new (calls ++ [(it, .ask (.staleConnections t timeout))])).Pairwise (· ≤ ·))
    (hcutoff : (t.checkedSub timeout).isSome) :
    ∃ ids, ((after calls).step (it, .ask (.staleConnections t timeout))).2 = .answer (.ids ids) ∧
      ids.Nodup ∧
      (∀ c, c ∈ ids ↔ (after calls).mgr.contains c = true ∧
        ∃ u, lastHeard c calls = some u ∧ timeout < t.durationSince u) ∧
      (∀ pre call post c u, calls = pre ++ call :: post → call.2.beat (after pre).mgr c = some u →
        ¬ timeout < t.durationSince u → c ∉ ids) ∧
      (∀ call c, ¬ call.2.Rebinds c → (∀ u, call.2 ≠ .mutate (.touch c u)) →
        ∀ it', ∃ ids', ((after (calls ++ [call])).step
          (it', .ask (.staleConnections t timeout))).2 = .answer (.ids ids') ∧
            (c ∈ ids' ↔ c ∈ ids)) := by
  obtain ⟨cutoff, hcut⟩ := Option.isSome_iff_exists.1 hcutoff
  obtain ⟨ids, hids, hnodup, hmem⟩ := (after calls).stale_reply it hcut
  obtain ⟨hcalls, hle⟩ := readings_le hmono
  have hlt : ∀ u ∈ readings new calls, u < cutoff ↔ timeout < t.durationSince u := fun u hu =>
    Instant.lt_checkedSub_iff hcut (hle u hu)
  refine ⟨ids, hids, hnodup, fun c => ?_, ?_, fun call c hb ht it' => ?_⟩
  · rw [hmem, contains_iff]
    constructor
    · rintro ⟨u, hu, huc⟩
      have hstale := (hlt u (mem_readings_of_lastSeen hu)).1 huc
      rw [lastSeen_after] at hu ⊢
      exact ⟨by rw [hu]; rfl, u, hu, hstale⟩
    · rintro ⟨-, u, hu, hstale⟩
      rw [← lastSeen_after] at hu
      exact ⟨u, hu, (hlt u (mem_readings_of_lastSeen hu)).2 hstale⟩
  · rintro pre call post c u rfl hbeat hlate hc
    obtain ⟨v, hv, hvc⟩ := (hmem c).1 hc
    obtain ⟨huv, hu⟩ := le_lastSeen_of_beat hcalls hbeat hv
    refine hlate ((hlt u hu).1 ?_)
    rw [Instant.lt_iff] at hvc ⊢
    omega
  · obtain ⟨ids', hids', -, hmem'⟩ := (after (calls ++ [call])).stale_reply it' hcut
    refine ⟨ids', hids', ?_⟩
    have hsame : ((after (calls ++ [call])).mgr.view c).lastSeen =
        ((after calls).mgr.view c).lastSeen := by
      rw [after_append, Machine.run_cons, machine_step, Machine.run_nil, lastSeen_step,
        heard_of_other hb ht]
    rw [hmem', hmem, hsame]

/-- Of two connections registered at the same time one is touched; the other is
stale when the timeout has passed. -/
theorem staleness_exact_touched :
    let calls : List (HashIter String × Cmd) :=
      [(default, .mutate (.addWithId "a" none () .zero)),
        (default, .mutate (.addWithId "b" none () .zero)),
        (default, .mutate (.touch "a" (.ofSecs 50)))]
    ∃ ids, ((after calls).step (default,
        .ask (.staleConnections (.ofSecs 60) (.fromSecs 30)))).2 =
          .answer (.ids ids) ∧ "a" ∉ ids ∧ "b" ∈ ids := by
  intro calls
  obtain ⟨ids, hids, -, hmem, hbeat, -⟩ := staleness_exact calls default (.ofSecs 60)
    (.fromSecs 30) (by decide) (by decide)
  refine ⟨ids, hids, ?_, ?_⟩
  · exact hbeat (calls.take 2) (calls.getLast (by simp [calls])) [] "a" (.ofSecs 50) rfl
      (by decide) (by decide)
  · exact (hmem "b").2 ⟨by decide, .zero, by decide, by decide⟩

end World
end Denshin
