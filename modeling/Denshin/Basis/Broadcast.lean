/-
# Bounded broadcast channels

A broadcast channel has many receivers: a value sent is seen by every receiver
there is when it is sent.  A channel retains a bounded number of values.  A
receiver that has fallen further behind is told, at its next `recv`, how many
values it has missed, and goes on from the oldest one retained; a new receiver
starts behind everything sent so far.  Sending to a channel without receivers
fails.

What has happened to a channel can be read off the calls on it and what they
returned: the values sent, and how many of them every receiver is past
(`Ledger`).  `Broadcast` has the operations of a channel, and `Broadcast.Laws`
says of each what it returns when the channel has come to a given ledger.  How
a channel stores its values, and how many beyond its capacity, is left open; see
`Denshin.Basis.RingBuffer` for one that keeps the laws.

From the laws of single calls follows what holds of whole runs.  All that a
receiver ever gets is what was sent after it subscribed, but for the values it
was told it missed (`reads_run`): in order, none twice, none lost without notice
(`Reads`); it misses none if it is never more than the capacity behind
(`skipped_eq_zero_of_keepsUp`).  The numbers of receivers that sends return add
up (`pending_run`).
-/

import Denshin.Basis.Machine
import Mathlib.Algebra.BigOperators.Ring.Finset
import Mathlib.Data.Finmap

namespace Basis

universe u v w

/-- What a receiver gets: the next value, the number of values it has missed, or
nothing yet. -/
inductive Received (α : Type u)
  | value (a : α)
  | lagged (n : ℕ)
  | empty
deriving DecidableEq

namespace Received

variable {α : Type u}

/-- The value received. -/
def value? : Received α → Option α
  | value a => some a
  | _ => none

/-- The number of values missed. -/
def missed : Received α → ℕ
  | lagged n => n
  | _ => 0

/-- How far the receiver moves on. -/
def passed : Received α → ℕ
  | value _ => 1
  | lagged n => n
  | empty => 0

/-- The values received, in their order. -/
def values (rs : List (Received α)) : List α := rs.filterMap value?

/-- How many values were reported missed. -/
def skipped (rs : List (Received α)) : ℕ := (rs.map missed).sum

end Received

/-- The operations of a broadcast channel.  Its receivers are numbered; a call
for a number that is no receiver's is never made, and is taken to do nothing. -/
structure Broadcast (α : Type u) where
  State : Type u
  /-- A channel of the given capacity and its first receiver, if there can be one. -/
  channel : ℕ → Option (State × ℕ)
  /-- A new receiver, of the values sent from now on. -/
  subscribe : State → State × ℕ
  /-- Send a value, and return the number of receivers; `none` when it fails. -/
  send : State → α → State × Option ℕ
  /-- The number of receivers. -/
  receiverCount : State → ℕ
  /-- What a receiver gets next. -/
  recv : State → ℕ → State × Option (Received α)
  /-- How many values a receiver has yet to receive. -/
  len : State → ℕ → ℕ
  /-- A receiver is dropped. -/
  drop : State → ℕ → State

namespace Broadcast

/-- A call on a channel. -/
inductive Call (α : Type u)
  | subscribe
  | send (a : α)
  | recv (rx : ℕ)
  | drop (rx : ℕ)
deriving DecidableEq

/-- What it returns. -/
inductive Reply (α : Type u)
  | handle (rx : ℕ)
  | sent (o : Option ℕ)
  | received (o : Option (Received α))
  | dropped
deriving DecidableEq

end Broadcast

/-- What has happened to a channel: the values sent to receivers, oldest first,
and the receivers it has, each with the number of values it is past. -/
structure Ledger (α : Type u) where
  sent : List α
  cursors : Finmap fun _ : ℕ => ℕ

namespace Ledger

variable {α : Type u}

/-- A new channel with its first receiver. -/
def new (rx : ℕ) : Ledger α := ⟨[], (∅ : Finmap fun _ : ℕ => ℕ).insert rx 0⟩

/-- How many values the receiver is past. -/
def past (L : Ledger α) (rx : ℕ) : ℕ := (L.cursors.lookup rx).getD 0

/-- The ledger after a call that returned `r`. -/
def after (L : Ledger α) (call : Broadcast.Call α) (r : Broadcast.Reply α) : Ledger α :=
  match call, r with
  | .subscribe, .handle rx => { L with cursors := L.cursors.insert rx L.sent.length }
  | .send a, .sent (some _) => { L with sent := L.sent ++ [a] }
  | .recv rx, .received (some r) => { L with cursors := L.cursors.insert rx (L.past rx + r.passed) }
  | .drop rx, .dropped => { L with cursors := L.cursors.erase rx }
  | _, _ => L

/-! ### What is pending -/

/-- How many values all receivers have yet to receive. -/
def pending (L : Ledger α) : ℕ := ∑ rx ∈ L.cursors.keys, (L.sent.length - L.past rx)

/-- The receivers after one is added. -/
theorem keys_insert (m : Finmap fun _ : ℕ => ℕ) (rx p : ℕ) :
    (m.insert rx p).keys = insert rx m.keys := by
  refine Finset.ext fun rx' => ?_
  rw [Finmap.mem_keys, Finmap.mem_insert, Finset.mem_insert, Finmap.mem_keys]

/-- The receivers after one is dropped. -/
theorem keys_erase (m : Finmap fun _ : ℕ => ℕ) (rx : ℕ) : (m.erase rx).keys = m.keys.erase rx := by
  refine Finset.ext fun rx' => ?_
  rw [Finmap.mem_keys, Finmap.mem_erase, Finset.mem_erase, Finmap.mem_keys]

/-- What one receiver has yet to receive, and what the others have. -/
theorem pending_of_mem (L : Ledger α) {rx : ℕ} (hrx : rx ∈ L.cursors.keys) :
    L.pending = (L.sent.length - L.past rx) +
      ∑ rx' ∈ L.cursors.keys.erase rx, (L.sent.length - L.past rx') :=
  (Finset.add_sum_erase _ (fun rx => L.sent.length - L.past rx) hrx).symm

/-- What is pending when a receiver is dropped. -/
theorem pending_erase (L : Ledger α) (rx : ℕ) :
    pending { L with cursors := L.cursors.erase rx } =
      ∑ rx' ∈ L.cursors.keys.erase rx, (L.sent.length - L.past rx') := by
  rw [pending, keys_erase]
  refine Finset.sum_congr rfl fun rx' hrx' => ?_
  rw [past, Finmap.lookup_erase_ne (Finset.ne_of_mem_erase hrx')]
  rfl

/-- What is pending when a receiver is put to a position. -/
theorem pending_insert (L : Ledger α) (rx p : ℕ) :
    pending { L with cursors := L.cursors.insert rx p } = (L.sent.length - p) +
      ∑ rx' ∈ L.cursors.keys.erase rx, (L.sent.length - L.past rx') := by
  have hrx : rx ∈ (L.cursors.insert rx p).keys := Finmap.mem_keys.2 (Finmap.mem_insert.2 (.inl rfl))
  have hothers : (L.cursors.insert rx p).keys.erase rx = L.cursors.keys.erase rx := by
    rw [keys_insert, Finset.erase_insert_eq_erase]
  rw [pending_of_mem { L with cursors := L.cursors.insert rx p } hrx]
  congr 1
  · rw [past, Finmap.lookup_insert]
    rfl
  · rw [hothers]
    refine Finset.sum_congr rfl fun rx' hrx' => ?_
    rw [past, Finmap.lookup_insert_of_ne _ (Finset.ne_of_mem_erase hrx')]
    rfl

end Ledger

namespace Broadcast

variable {α : Type u} (B : Broadcast α)

/-- One call. -/
def step (c : B.State) : Call α → B.State × Reply α
  | .subscribe => ((B.subscribe c).1, .handle (B.subscribe c).2)
  | .send a => ((B.send c a).1, .sent (B.send c a).2)
  | .recv rx => ((B.recv c rx).1, .received (B.recv c rx).2)
  | .drop rx => (B.drop c rx, .dropped)

/-- A channel in use. -/
def machine : Machine B.State (Call α) (Reply α) := ⟨B.step⟩

/-- The channel, of capacity `n`, has come to the ledger `L`. -/
inductive Reached (n : ℕ) : B.State → Ledger α → Prop
  | new {c : B.State} {rx : ℕ} (h : B.channel n = some (c, rx)) : Reached n c (.new rx)
  | step {c : B.State} {L : Ledger α} (h : Reached n c L) (call : Call α) :
      Reached n (B.step c call).1 (L.after call (B.step c call).2)

/-- **What a user relies on**: what the calls on a channel return. -/
structure Laws : Prop where
  /-- A new receiver is another one than those there are. -/
  subscribe_fresh : ∀ {n c L}, B.Reached n c L → (B.subscribe c).2 ∉ L.cursors
  /-- A send fails exactly when there is no receiver, and else returns their number. -/
  send_eq : ∀ {n c L} (a : α), B.Reached n c L →
    (B.send c a).2 = if L.cursors.keys.card = 0 then none else some L.cursors.keys.card
  /-- The receivers are counted. -/
  receiverCount_eq : ∀ {n c L}, B.Reached n c L → B.receiverCount c = L.cursors.keys.card
  /-- A receiver gets something, be it that there is nothing yet. -/
  recv_isSome : ∀ {n c L rx}, B.Reached n c L → ((B.recv c rx).2.isSome ↔ rx ∈ L.cursors)
  /-- The value received is the next one of those sent. -/
  recv_value : ∀ {n c L rx p a}, B.Reached n c L → L.cursors.lookup rx = some p →
    (B.recv c rx).2 = some (.value a) → L.sent[p]? = some a
  /-- A receiver that lags has missed something, and goes on from the oldest value
  retained; as many as the capacity are retained. -/
  recv_lagged : ∀ {n c L rx p k}, B.Reached n c L → L.cursors.lookup rx = some p →
    (B.recv c rx).2 = some (.lagged k) → 0 < k ∧ p + k + n ≤ L.sent.length
  /-- There is nothing yet only when everything sent is past. -/
  recv_empty : ∀ {n c L rx p}, B.Reached n c L → L.cursors.lookup rx = some p →
    (B.recv c rx).2 = some .empty → p = L.sent.length
  /-- What a receiver has yet to receive is what was sent and is not past. -/
  len_eq : ∀ {n c L rx}, B.Reached n c L →
    B.len c rx = if rx ∈ L.cursors then L.sent.length - L.past rx else 0

/-- What a call adds to the values sent. -/
def accepted (c : B.State) : Call α → List α
  | .send a => if (B.send c a).2.isSome then [a] else []
  | _ => []

/-- What a call gives to the receiver `rx`. -/
def got (rx : ℕ) (c : B.State) : Call α → List (Received α)
  | .recv rx' => if rx' = rx then (B.recv c rx).2.toList else []
  | _ => []

/-- What a run adds to the values sent. -/
def sent (c : B.State) (calls : List (Call α)) : List α :=
  (B.machine.trace c calls).flatMap fun p => B.accepted p.1 p.2

/-- What a run gives to the receiver `rx`. -/
def received (rx : ℕ) (c : B.State) (calls : List (Call α)) : List (Received α) :=
  (B.machine.trace c calls).flatMap fun p => B.got rx p.1 p.2

/-- The ledger after a run. -/
def ledger : B.State → Ledger α → List (Call α) → Ledger α
  | _, L, [] => L
  | c, L, call :: calls => ledger (B.step c call).1 (L.after call (B.step c call).2) calls

variable {B}

/-- What a run sends, call by call. -/
theorem sent_cons (c : B.State) (call : Call α) (calls : List (Call α)) :
    B.sent c (call :: calls) = B.accepted c call ++ B.sent (B.step c call).1 calls :=
  List.flatMap_cons

/-- What a run gives to a receiver, call by call. -/
theorem received_cons (rx : ℕ) (c : B.State) (call : Call α) (calls : List (Call α)) :
    B.received rx c (call :: calls) = B.got rx c call ++ B.received rx (B.step c call).1 calls :=
  List.flatMap_cons

/-- **What a new channel has and every call keeps**, a channel has in every run. -/
theorem Reached.inv {n : ℕ} {I : B.State → Ledger α → Prop}
    (hnew : ∀ c rx, B.channel n = some (c, rx) → I c (.new rx))
    (hstep : ∀ c L call, I c L → I (B.step c call).1 (L.after call (B.step c call).2))
    {c : B.State} {L : Ledger α} (h : B.Reached n c L) : I c L := by
  induction h with
  | new h => exact hnew _ _ h
  | step _ call ih => exact hstep _ _ call ih

/-- A run leads from one ledger to another. -/
theorem Reached.run {n : ℕ} {c : B.State} {L : Ledger α} (h : B.Reached n c L)
    (calls : List (Call α)) : B.Reached n (B.machine.run c calls) (B.ledger c L calls) := by
  induction calls generalizing c L with
  | nil => exact h
  | cons call calls ih => exact ih (h.step call)

/-- A call sends what it adds to the ledger. -/
theorem sent_after (c : B.State) (L : Ledger α) (call : Call α) :
    (L.after call (B.step c call).2).sent = L.sent ++ B.accepted c call := by
  cases call with
  | send a =>
    show (L.after (.send a) (.sent (B.send c a).2)).sent =
      L.sent ++ if (B.send c a).2.isSome then [a] else []
    rcases (B.send c a).2 with _ | k
    · exact (List.append_nil _).symm
    · rfl
  | recv rx =>
    show (L.after (.recv rx) (.received (B.recv c rx).2)).sent = L.sent ++ []
    rcases (B.recv c rx).2 with _ | r <;> exact (List.append_nil _).symm
  | _ => exact (List.append_nil _).symm

/-- A run sends what it adds to the ledger. -/
theorem sent_ledger (c : B.State) (L : Ledger α) (calls : List (Call α)) :
    (B.ledger c L calls).sent = L.sent ++ B.sent c calls := by
  induction calls generalizing c L with
  | nil => exact (List.append_nil _).symm
  | cons call calls ih =>
    rw [ledger, ih, sent_after, List.append_assoc]
    rfl

/-! ### Where receivers are -/

section Laws

variable (laws : B.Laws) {n : ℕ} {c : B.State} {L : Ledger α} (h : B.Reached n c L)

include laws h

/-- A call that is not about a receiver leaves it where it is. -/
theorem lookup_after_of_ne {rx p : ℕ} (hp : L.cursors.lookup rx = some p) {call : Call α}
    (hrecv : call ≠ .recv rx) (hdrop : call ≠ .drop rx) :
    (L.after call (B.step c call).2).cursors.lookup rx = some p := by
  cases call with
  | subscribe =>
    have hne : rx ≠ (B.subscribe c).2 := by
      rintro rfl
      exact laws.subscribe_fresh h (Finmap.mem_of_lookup_eq_some hp)
    exact (Finmap.lookup_insert_of_ne _ hne).trans hp
  | send a =>
    show (L.after (.send a) (.sent (B.send c a).2)).cursors.lookup rx = some p
    rcases (B.send c a).2 with _ | k <;> exact hp
  | recv rx' =>
    have hne : rx ≠ rx' := fun he => hrecv (by rw [he])
    show (L.after (.recv rx') (.received (B.recv c rx').2)).cursors.lookup rx = some p
    rcases (B.recv c rx').2 with _ | r
    · exact hp
    · exact (Finmap.lookup_insert_of_ne _ hne).trans hp
  | drop rx' =>
    have hne : rx ≠ rx' := fun he => hdrop (by rw [he])
    exact (Finmap.lookup_erase_ne hne).trans hp

/-- A receiver that receives gets something, and moves on by it. -/
theorem recv_cases {rx p : ℕ} (hp : L.cursors.lookup rx = some p) :
    ∃ r, (B.recv c rx).2 = some r ∧
      L.after (.recv rx) (B.step c (.recv rx)).2 =
        { L with cursors := L.cursors.insert rx (p + r.passed) } := by
  have hsome : (B.recv c rx).2.isSome :=
    (laws.recv_isSome h).2 (Finmap.mem_of_lookup_eq_some hp)
  obtain ⟨r, hr⟩ := Option.isSome_iff_exists.1 hsome
  refine ⟨r, hr, ?_⟩
  show L.after (.recv rx) (.received (B.recv c rx).2) = _
  rw [hr, Ledger.after, Ledger.past, hp]
  rfl

/-- Nobody gets beyond what was sent. -/
theorem passed_le {rx p : ℕ} (hp : L.cursors.lookup rx = some p) (hle : p ≤ L.sent.length)
    {r : Received α} (hr : (B.recv c rx).2 = some r) : p + r.passed ≤ L.sent.length := by
  cases r with
  | value a => exact (List.getElem?_eq_some_iff.1 (laws.recv_value h hp hr)).1
  | lagged k => exact (Nat.le_add_right _ _).trans (laws.recv_lagged h hp hr).2
  | empty => exact hle

end Laws

/-- **Every receiver is within what was sent.** -/
theorem Reached.cursor_le (laws : B.Laws) {n : ℕ} {c : B.State} {L : Ledger α}
    (h : B.Reached n c L) : ∀ rx p, L.cursors.lookup rx = some p → p ≤ L.sent.length := by
  induction h with
  | @new c rx h =>
    intro rx' p hp
    by_cases hne : rx' = rx
    · subst hne
      rw [Ledger.new, Finmap.lookup_insert] at hp
      exact (Option.some.inj hp).ge
    · rw [Ledger.new, Finmap.lookup_insert_of_ne _ hne, Finmap.lookup_empty] at hp
      exact absurd hp (Option.some_ne_none p).symm
  | @step c L h call ih =>
    intro rx p hp
    have hgrow : L.sent.length ≤ (L.after call (B.step c call).2).sent.length := by
      rw [sent_after, List.length_append]
      exact Nat.le_add_right _ _
    cases call with
    | subscribe =>
      by_cases hne : rx = (B.subscribe c).2
      · subst hne
        have hat : (L.cursors.insert (B.subscribe c).2 L.sent.length).lookup (B.subscribe c).2 =
            some p := hp
        rw [Finmap.lookup_insert] at hat
        exact (Option.some.inj hat).ge
      · have hsame : L.cursors.lookup rx = some p :=
          (Finmap.lookup_insert_of_ne _ hne).symm.trans hp
        exact ih rx p hsame
    | send a =>
      refine (ih rx p ?_).trans hgrow
      rw [← hp]
      show _ = (L.after (.send a) (.sent (B.send c a).2)).cursors.lookup rx
      rcases (B.send c a).2 with _ | k <;> rfl
    | recv rx' =>
      rcases hq : L.cursors.lookup rx' with _ | q
      · have hnone : (B.recv c rx').2 = none := by
          rw [← Option.not_isSome_iff_eq_none, laws.recv_isSome h, ← Finmap.lookup_isSome, hq]
          simp
        have hafter : L.after (.recv rx') (B.step c (.recv rx')).2 = L := by
          show L.after (.recv rx') (.received (B.recv c rx').2) = L
          rw [hnone]
          rfl
        rw [hafter] at hp ⊢
        exact ih rx p hp
      · obtain ⟨r, hr, hafter⟩ := recv_cases laws h hq
        rw [hafter] at hp ⊢
        by_cases hne : rx = rx'
        · subst hne
          rw [Finmap.lookup_insert] at hp
          rw [← Option.some.inj hp]
          exact passed_le laws h hq (ih rx q hq) hr
        · rw [Finmap.lookup_insert_of_ne _ hne] at hp
          exact ih rx p hp
    | drop rx' =>
      by_cases hne : rx = rx'
      · subst hne
        have hgone : (L.cursors.erase rx).lookup rx = some p := hp
        rw [Finmap.lookup_erase] at hgone
        exact absurd hgone (Option.some_ne_none p).symm
      · exact ih rx p ((Finmap.lookup_erase_ne hne).symm.trans hp)

/-- A channel whose first receiver is dropped has no receivers. -/
theorem reached_dropped {n : ℕ} {γ : Type*} {f : B.State → γ} {b : γ}
    (h : ((B.channel n).map fun p => f (B.drop p.1 p.2)) = some b) :
    ∃ c L, f c = b ∧ B.Reached n c L ∧ L.cursors.keys = ∅ := by
  obtain ⟨⟨c, rx⟩, hc, hb⟩ := Option.map_eq_some_iff.1 h
  refine ⟨B.drop c rx, _, hb, (Reached.new hc).step (.drop rx), ?_⟩
  show (((∅ : Finmap fun _ : ℕ => ℕ).insert rx 0).erase rx).keys = ∅
  rw [Ledger.keys_erase, Ledger.keys_insert, Finmap.keys_empty, Finset.erase_insert_eq_erase]
  rfl

/-! ### What a receiver gets -/

/-- A receiver at position `p` of the values sent gets `rs` and is then at
position `q`: it moves on by one with a value, which is the one at its position,
and by what it is told it has missed. -/
inductive Reads (H : List α) : ℕ → List (Received α) → ℕ → Prop
  | nil (p : ℕ) : Reads H p [] p
  | value {p q : ℕ} {a : α} {rs : List (Received α)} (ha : H[p]? = some a)
      (hrs : Reads H (p + 1) rs q) : Reads H p (.value a :: rs) q
  | lagged {p q n : ℕ} {rs : List (Received α)} (hn : 0 < n) (hrs : Reads H (p + n) rs q) :
      Reads H p (.lagged n :: rs) q
  | empty {p q : ℕ} {rs : List (Received α)} (hrs : Reads H p rs q) : Reads H p (.empty :: rs) q

section Reads

variable {H : List α} {p q : ℕ} {rs : List (Received α)}

/-- **Nothing is lost without notice**: the values received and those reported
missed make up the way. -/
theorem Reads.count (h : Reads H p rs q) :
    p + (Received.values rs).length + Received.skipped rs = q := by
  induction h with
  | nil p => rfl
  | value ha hrs ih =>
    simp only [Received.values, Received.skipped, Received.value?, Received.missed,
      List.filterMap_cons, List.map_cons, List.sum_cons, List.length_cons] at ih ⊢
    omega
  | lagged hn hrs ih =>
    simp only [Received.values, Received.skipped, Received.value?, Received.missed,
      List.filterMap_cons, List.map_cons, List.sum_cons] at ih ⊢
    omega
  | empty hrs ih =>
    simp only [Received.values, Received.skipped, Received.value?, Received.missed,
      List.filterMap_cons, List.map_cons, List.sum_cons] at ih ⊢
    omega

/-- **Nothing is received twice or out of order**: the values are those sent at
increasing positions. -/
theorem Reads.positions (h : Reads H p rs q) :
    ∃ is : List ℕ, is.Pairwise (· < ·) ∧ (∀ i ∈ is, p ≤ i ∧ i < q) ∧
      is.map (fun i => H[i]?) = (Received.values rs).map some := by
  induction h with
  | nil p => exact ⟨[], List.Pairwise.nil, fun i hi => absurd hi List.not_mem_nil, rfl⟩
  | @value p q a rs ha hrs ih =>
    obtain ⟨is, hsorted, hrange, hvalues⟩ := ih
    have hq := hrs.count
    refine ⟨p :: is, List.pairwise_cons.2 ⟨fun i hi => ?_, hsorted⟩, fun i hi => ?_, ?_⟩
    · exact (hrange i hi).1
    · rcases List.mem_cons.1 hi with rfl | hi
      · exact ⟨le_rfl, by omega⟩
      · have hi' := hrange i hi
        exact ⟨by omega, hi'.2⟩
    · rw [List.map_cons, ha, hvalues]
      rfl
  | lagged hn hrs ih =>
    obtain ⟨is, hsorted, hrange, hvalues⟩ := ih
    refine ⟨is, hsorted, fun i hi => ?_, hvalues⟩
    have hi' := hrange i hi
    exact ⟨by omega, hi'.2⟩
  | empty hrs ih => exact ih

/-- **A receiver that misses nothing gets a piece of what was sent.** -/
theorem Reads.complete (h : Reads H p rs q) (hnone : Received.skipped rs = 0) :
    Received.values rs = (H.drop p).take (q - p) := by
  induction h with
  | nil p => simp [Received.values]
  | @value p q a rs ha hrs ih =>
    have hq := hrs.count
    have hnone' := ih (by simpa [Received.skipped, Received.missed] using hnone)
    obtain ⟨hlt, hget⟩ := List.getElem?_eq_some_iff.1 ha
    rw [List.drop_eq_getElem_cons hlt, hget]
    have hsucc : q - p = q - (p + 1) + 1 := by omega
    rw [hsucc, List.take_succ_cons, ← hnone']
    rfl
  | lagged hn hrs ih =>
    simp only [Received.skipped, Received.missed, List.map_cons, List.sum_cons] at hnone
    omega
  | empty hrs ih => exact ih (by simpa [Received.skipped, Received.missed] using hnone)

/-- **Nothing but what was sent is received.** -/
theorem Reads.sublist (h : Reads H p rs q) : (Received.values rs).Sublist (H.drop p) := by
  induction h with
  | nil p => exact List.nil_sublist _
  | @value p q a rs ha hrs ih =>
    obtain ⟨hlt, hget⟩ := List.getElem?_eq_some_iff.1 ha
    rw [List.drop_eq_getElem_cons hlt, hget]
    exact ih.cons_cons a
  | @lagged p q n rs hn hrs ih =>
    rw [← List.drop_drop] at ih
    exact ih.trans (List.drop_sublist n _)
  | empty hrs ih => exact ih

/-- What was sent before the receiver's position does not matter. -/
theorem Reads.drop {k : ℕ} (h : Reads H p rs q) :
    ∀ p' q' : ℕ, p = k + p' → q = k + q' → Reads (H.drop k) p' rs q' := by
  induction h with
  | nil p =>
    intro p' q' hp hq
    obtain rfl : p' = q' := by omega
    exact .nil p'
  | @value p q a rs ha hrs ih =>
    intro p' q' hp hq
    refine .value ?_ (ih _ _ (by omega) hq)
    rw [List.getElem?_drop, ← hp, ha]
  | lagged hn hrs ih =>
    intro p' q' hp hq
    exact .lagged hn (ih _ _ (by omega) hq)
  | empty hrs ih =>
    intro p' q' hp hq
    exact .empty (ih _ _ hp hq)

end Reads

/-- What is reported missed adds up. -/
theorem skipped_append (rs rs' : List (Received α)) :
    Received.skipped (rs ++ rs') = Received.skipped rs + Received.skipped rs' := by
  rw [Received.skipped, List.map_append, List.sum_append]
  rfl

variable (B) in
/-- The receiver is at most `n` values behind whenever it receives. -/
def KeepsUp (n rx : ℕ) (c : B.State) (call : Call α) : Prop := call = .recv rx → B.len c rx ≤ n

/-- What a call sends. -/
def Call.sends : Call α → List α
  | .send a => [a]
  | _ => []

section Receiver

variable (laws : B.Laws) {n : ℕ} {c : B.State} {L : Ledger α} (h : B.Reached n c L) {rx p : ℕ}
  (hp : L.cursors.lookup rx = some p)

include laws h hp

/-- A receiver there is finds its values next, whatever is sent later. -/
theorem reads_recv {r : Received α} (hr : (B.recv c rx).2 = some r) {H : List α}
    (hH : L.sent <+: H) {rs : List (Received α)} {q : ℕ} (hrs : Reads H (p + r.passed) rs q) :
    Reads H p (r :: rs) q := by
  cases r with
  | value a =>
    have ha := laws.recv_value h hp hr
    obtain ⟨more, rfl⟩ := hH
    refine .value ?_ hrs
    rw [List.getElem?_append_left (List.getElem?_eq_some_iff.1 ha).1, ha]
  | lagged k => exact .lagged (laws.recv_lagged h hp hr).1 hrs
  | empty => exact .empty hrs

/-- While somebody listens, a send succeeds. -/
theorem accepted_of_mem (call : Call α) : B.accepted c call = call.sends := by
  cases call with
  | send a =>
    have hne : L.cursors.keys.card ≠ 0 :=
      Finset.card_ne_zero_of_mem (Finmap.mem_keys.2 (Finmap.mem_of_lookup_eq_some hp))
    have hsome : (B.send c a).2.isSome = true := by
      rw [laws.send_eq a h, if_neg hne]
      rfl
    exact if_pos hsome
  | _ => rfl

/-- Where a receiver that is not dropped is after a call, and what it got. -/
theorem step_cases (call : Call α) (hdrop : call ≠ .drop rx) :
    (∃ r, call = .recv rx ∧ (B.recv c rx).2 = some r ∧ B.got rx c call = [r] ∧
      (L.after call (B.step c call).2).cursors.lookup rx = some (p + r.passed)) ∨
    (call ≠ .recv rx ∧ B.got rx c call = [] ∧
      (L.after call (B.step c call).2).cursors.lookup rx = some p) := by
  by_cases hrecv : call = .recv rx
  · subst hrecv
    obtain ⟨r, hr, hafter⟩ := recv_cases laws h hp
    refine Or.inl ⟨r, rfl, hr, ?_, ?_⟩
    · rw [got, if_pos rfl, hr]
      rfl
    · rw [hafter]
      exact Finmap.lookup_insert _
  · refine Or.inr ⟨hrecv, ?_, lookup_after_of_ne laws h hp hrecv hdrop⟩
    cases call with
    | recv rx' => exact if_neg fun he => hrecv (by rw [he])
    | _ => rfl

/-- **What a receiver gets in a run is what is sent**, read from its position
on, if it is not dropped. -/
theorem reads_run {calls : List (Call α)} (hkeep : ∀ call ∈ calls, call ≠ .drop rx) :
    ∃ q, Reads (B.ledger c L calls).sent p (B.received rx c calls) q ∧
      (B.ledger c L calls).cursors.lookup rx = some q := by
  induction calls generalizing c L p with
  | nil => exact ⟨p, .nil p, hp⟩
  | cons call calls ih =>
    have hkeep' : ∀ call' ∈ calls, call' ≠ .drop rx := fun call' hmem =>
      hkeep call' (List.mem_cons_of_mem call hmem)
    have hpast : L.sent <+: (B.ledger c L (call :: calls)).sent := by
      rw [sent_ledger]
      exact List.prefix_append _ _
    rw [received_cons]
    rcases step_cases laws h hp call (hkeep call List.mem_cons_self) with
      ⟨r, -, hr, hgot, hp'⟩ | ⟨-, hgot, hp'⟩
    · obtain ⟨q, hreads, hq⟩ := ih (h.step call) hp' hkeep'
      refine ⟨q, ?_, hq⟩
      rw [hgot]
      exact reads_recv laws h hp hr hpast hreads
    · rw [hgot, List.nil_append]
      exact ih (h.step call) hp' hkeep'

/-- **While somebody listens, everything is sent.** -/
theorem sent_of_mem {calls : List (Call α)} (hkeep : ∀ call ∈ calls, call ≠ .drop rx) :
    B.sent c calls = calls.flatMap Call.sends := by
  induction calls generalizing c L p with
  | nil => rfl
  | cons call calls ih =>
    have hkeep' : ∀ call' ∈ calls, call' ≠ .drop rx := fun call' hmem =>
      hkeep call' (List.mem_cons_of_mem call hmem)
    rw [sent_cons, accepted_of_mem laws h hp, List.flatMap_cons]
    rcases step_cases laws h hp call (hkeep call List.mem_cons_self) with
      ⟨r, -, -, -, hp'⟩ | ⟨-, -, hp'⟩ <;> rw [ih (h.step call) hp' hkeep']

/-- **A receiver that is never more than the capacity behind misses nothing.** -/
theorem skipped_eq_zero_of_keepsUp {calls : List (Call α)}
    (hkeep : ∀ call ∈ calls, call ≠ .drop rx) (hup : B.machine.Along (B.KeepsUp n rx) c calls) :
    Received.skipped (B.received rx c calls) = 0 := by
  induction calls generalizing c L p with
  | nil => rfl
  | cons call calls ih =>
    have hkeep' : ∀ call' ∈ calls, call' ≠ .drop rx := fun call' hmem =>
      hkeep call' (List.mem_cons_of_mem call hmem)
    rw [received_cons, skipped_append]
    rcases step_cases laws h hp call (hkeep call List.mem_cons_self) with
      ⟨r, hrecv, hr, hgot, hp'⟩ | ⟨-, hgot, hp'⟩
    · rw [ih (h.step call) hp' hkeep' hup.2, hgot]
      have hlen : L.sent.length - p ≤ n := by
        have hle := hup.1 hrecv
        rwa [laws.len_eq h, if_pos (Finmap.mem_of_lookup_eq_some hp), Ledger.past, hp] at hle
      cases r with
      | lagged k =>
        have hlag := laws.recv_lagged h hp hr
        omega
      | _ => rfl
    · rw [ih (h.step call) hp' hkeep' hup.2, hgot]
      rfl

end Receiver

/-- **A new receiver reads what is sent after it subscribed**, if it is not
dropped: within it in any case, all of it once there is nothing to receive, and
missing none if it is never more than the capacity behind. -/
theorem reads_subscribe (laws : B.Laws) {n : ℕ} {c : B.State} {L : Ledger α}
    (h : B.Reached n c L) {calls : List (Call α)}
    (hkeep : ∀ call ∈ calls, call ≠ .drop (B.subscribe c).2) :
    let c' := (B.subscribe c).1
    let rx := (B.subscribe c).2
    let rs := B.received rx c' calls
    let es := calls.flatMap Call.sends
    ∃ q, Reads es 0 rs q ∧ q ≤ es.length ∧
      ((B.recv (B.machine.run c' calls) rx).2 = some .empty → q = es.length) ∧
      (B.machine.Along (B.KeepsUp n rx) c' calls → Received.skipped rs = 0) := by
  intro c' rx rs es
  have h' : B.Reached n c' { L with cursors := L.cursors.insert rx L.sent.length } :=
    h.step .subscribe
  have hp : (L.cursors.insert rx L.sent.length).lookup rx = some L.sent.length :=
    Finmap.lookup_insert _
  obtain ⟨q, hreads, hq⟩ := reads_run laws h' hp hkeep
  have hend := h'.run calls
  have hle := hend.cursor_le laws rx q hq
  have hsent : (B.ledger c' { L with cursors := L.cursors.insert rx L.sent.length } calls).sent =
      L.sent ++ es := (sent_ledger _ _ _).trans (congrArg _ (sent_of_mem laws h' hp hkeep))
  have hlen := congrArg List.length hsent
  rw [List.length_append] at hlen
  have hcount := hreads.count
  refine ⟨q - L.sent.length, ?_, by omega, fun hempty => ?_, ?_⟩
  · have hrest := hreads.drop (k := L.sent.length) 0 (q - L.sent.length) rfl (by omega)
    rwa [hsent, List.drop_left] at hrest
  · have hall := laws.recv_empty hend hq hempty
    omega
  · exact skipped_eq_zero_of_keepsUp laws h' hp hkeep

/-! ### Accounting

`send` returns the number of receivers.  Each of them gets the value, is told
that it missed it, leaves it unread when it is dropped, or has still to read it.
-/

variable (B) in
/-- How many receivers a call says will receive its value. -/
def counted (c : B.State) : Call α → ℕ
  | .send a => (B.send c a).2.getD 0
  | _ => 0

variable (B) in
/-- How many values a call settles: received, reported missed or abandoned. -/
def settled (c : B.State) : Call α → ℕ
  | .recv rx => (B.recv c rx).2.elim 0 Received.passed
  | .drop rx => B.len c rx
  | _ => 0

variable (B) in
/-- The receivers there are after a call, when there are `rxs` before it. -/
def live (rxs : Finset ℕ) (c : B.State) : Call α → Finset ℕ
  | .subscribe => insert (B.subscribe c).2 rxs
  | .drop rx => rxs.erase rx
  | _ => rxs

section Laws

variable (laws : B.Laws) {n : ℕ} {c : B.State} {L : Ledger α} (h : B.Reached n c L)

include laws h

/-- Which receivers a call adds or drops. -/
theorem keys_after (call : Call α) :
    (L.after call (B.step c call).2).cursors.keys = B.live L.cursors.keys c call := by
  cases call with
  | subscribe => exact Ledger.keys_insert _ _ _
  | send a =>
    show (L.after (.send a) (.sent (B.send c a).2)).cursors.keys = L.cursors.keys
    rcases (B.send c a).2 with _ | k <;> rfl
  | recv rx =>
    show (L.after (.recv rx) (.received (B.recv c rx).2)).cursors.keys = L.cursors.keys
    rcases hr : (B.recv c rx).2 with _ | r
    · rfl
    · have hmem : rx ∈ L.cursors.keys :=
        Finmap.mem_keys.2 ((laws.recv_isSome h).1 (Option.isSome_iff_exists.2 ⟨r, hr⟩))
      exact (Ledger.keys_insert _ _ _).trans (Finset.insert_eq_of_mem hmem)
  | drop rx => exact Ledger.keys_erase _ _

/-- What all receivers have yet to receive, receiver by receiver. -/
theorem pending_eq : ∑ rx ∈ L.cursors.keys, B.len c rx = L.pending := by
  refine Finset.sum_congr rfl fun rx hrx => ?_
  rw [laws.len_eq h, if_pos (Finmap.mem_keys.1 hrx)]

/-- A new receiver has nothing to receive. -/
theorem pending_subscribe :
    (L.after .subscribe (B.step c .subscribe).2).pending = L.pending := by
  have hnew : (B.subscribe c).2 ∉ L.cursors.keys := fun hmem =>
    laws.subscribe_fresh h (Finmap.mem_keys.1 hmem)
  show Ledger.pending { L with cursors := L.cursors.insert (B.subscribe c).2 L.sent.length } = _
  rw [L.pending_insert, Nat.sub_self, Nat.zero_add, Finset.erase_eq_of_notMem hnew]
  rfl

/-- A send leaves each receiver one more to receive. -/
theorem pending_send (a : α) :
    (L.after (.send a) (B.step c (.send a)).2).pending = L.pending + B.counted c (.send a) := by
  show (L.after (.send a) (.sent (B.send c a).2)).pending = L.pending + (B.send c a).2.getD 0
  rw [laws.send_eq a h]
  split_ifs with hnone
  · rfl
  · have hmore : ∀ rx ∈ L.cursors.keys,
        (L.sent ++ [a]).length - L.past rx = L.sent.length - L.past rx + 1 := by
      intro rx hrx
      obtain ⟨p, hp⟩ := Finmap.mem_iff.1 (Finmap.mem_keys.1 hrx)
      have hle := h.cursor_le laws rx p hp
      rw [Ledger.past, hp, List.length_append, List.length_singleton]
      exact Nat.succ_sub hle
    show ∑ rx ∈ L.cursors.keys, ((L.sent ++ [a]).length - L.past rx) =
      L.pending + L.cursors.keys.card
    rw [Finset.sum_congr rfl hmore, Finset.sum_add_distrib, ← Finset.card_eq_sum_ones]
    rfl

/-- What `recv` settles comes off what is pending. -/
theorem pending_recv (rx : ℕ) :
    (L.after (.recv rx) (B.step c (.recv rx)).2).pending + B.settled c (.recv rx) = L.pending := by
  rcases hp : L.cursors.lookup rx with _ | p
  · have hnone : (B.recv c rx).2 = none := by
      rw [← Option.not_isSome_iff_eq_none, laws.recv_isSome h, ← Finmap.lookup_isSome, hp]
      simp
    show (L.after (.recv rx) (.received (B.recv c rx).2)).pending +
      (B.recv c rx).2.elim 0 Received.passed = L.pending
    rw [hnone]
    rfl
  · obtain ⟨r, hr, hafter⟩ := recv_cases laws h hp
    have hpassed := passed_le laws h hp (h.cursor_le laws rx p hp) hr
    have hpast : L.past rx = p := congrArg (Option.getD · 0) hp
    have hsettled : B.settled c (.recv rx) = r.passed := congrArg (Option.elim · 0 _) hr
    rw [hafter, L.pending_insert, hsettled,
      L.pending_of_mem (Finmap.mem_keys.2 (Finmap.mem_of_lookup_eq_some hp)), hpast]
    omega

/-- What a receiver has not received goes with it. -/
theorem pending_drop (rx : ℕ) :
    (L.after (.drop rx) (B.step c (.drop rx)).2).pending + B.settled c (.drop rx) = L.pending := by
  show Ledger.pending { L with cursors := L.cursors.erase rx } + B.len c rx = L.pending
  rw [L.pending_erase, laws.len_eq h]
  split_ifs with hmem
  · rw [L.pending_of_mem (Finmap.mem_keys.2 hmem), Nat.add_comm]
  · rw [Finset.erase_eq_of_notMem fun hkey => hmem (Finmap.mem_keys.1 hkey)]
    rfl

/-- **What one call settles and what it leaves pending** is what was pending
and what it counts. -/
theorem pending_step (call : Call α) :
    (L.after call (B.step c call).2).pending + B.settled c call =
      L.pending + B.counted c call := by
  cases call with
  | subscribe => exact pending_subscribe laws h
  | send a => exact pending_send laws h a
  | recv rx => exact pending_recv laws h rx
  | drop rx => exact pending_drop laws h rx

/-- **Every receiver counted is accounted for**, in every run. -/
theorem pending_run (calls : List (Call α)) :
    (B.ledger c L calls).pending + ((B.machine.trace c calls).map fun p =>
        B.settled p.1 p.2).sum =
      L.pending + ((B.machine.trace c calls).map fun p => B.counted p.1 p.2).sum := by
  induction calls generalizing c L with
  | nil => rfl
  | cons call calls ih =>
    have hstep := pending_step laws h call
    have hrest := ih (h.step call)
    have hmore : (B.machine.step c call).1 = (B.step c call).1 := rfl
    rw [ledger, Machine.trace, List.map_cons, List.map_cons, List.sum_cons, List.sum_cons, hmore]
    dsimp only
    omega

/-- Which receivers there are after a run. -/
theorem keys_ledger (calls : List (Call α)) :
    (B.ledger c L calls).cursors.keys =
      (B.machine.trace c calls).foldl (fun rxs p => B.live rxs p.1 p.2) L.cursors.keys := by
  induction calls generalizing c L with
  | nil => rfl
  | cons call calls ih => rw [ledger, ih (h.step call), keys_after laws h]; rfl

end Laws

/-! ### Users of a channel -/

/-- A machine that uses a channel: each of its calls makes one call on the
channel, or none. -/
structure Uses {σ : Type v} {ι : Type w} {ρ : Type*} (M : Machine σ ι ρ) (B : Broadcast α) where
  chan : σ → B.State
  call : ι → Option (Call α)
  chan_step : ∀ s i, chan (M.step s i).1 = (call i).elim (chan s) fun c => (B.step (chan s) c).1

namespace Uses

variable {σ : Type v} {ι : Type w} {ρ : Type*} {M : Machine σ ι ρ} (U : Uses M B)

/-- The calls that the calls of a run make on the channel. -/
def calls (is : List ι) : List (Call α) := is.filterMap U.call

/-- The calls of a run on the channel, call by call. -/
theorem calls_cons (i : ι) (is : List ι) :
    U.calls (i :: is) = (U.call i).toList ++ U.calls is := by
  rw [calls, List.filterMap_cons]
  rcases U.call i with _ | c <;> rfl

/-- **A run of the machine is a run of the channel.** -/
theorem chan_run (s : σ) (is : List ι) :
    U.chan (M.run s is) = B.machine.run (U.chan s) (U.calls is) := by
  induction is generalizing s with
  | nil => rfl
  | cons i is ih =>
    rw [Machine.run_cons, ih, U.chan_step, U.calls_cons]
    rcases U.call i with _ | c <;> rfl

/-- What is read off the calls on the channel is read off the calls of the
machine. -/
theorem flatMap_trace {δ : Type*} (f : B.State → Call α → List δ) (s : σ) (is : List ι) :
    ((M.trace s is).flatMap fun p => (U.call p.2).elim [] (f (U.chan p.1))) =
      (B.machine.trace (U.chan s) (U.calls is)).flatMap fun p => f p.1 p.2 := by
  induction is generalizing s with
  | nil => rfl
  | cons i is ih =>
    rw [Machine.trace, List.flatMap_cons, ih, U.chan_step, U.calls_cons]
    rcases U.call i with _ | c <;> rfl

/-- A sum over the calls on the channel is one over the calls of the machine. -/
theorem sum_trace (f : B.State → Call α → ℕ) (s : σ) (is : List ι) :
    ((M.trace s is).map fun p => (U.call p.2).elim 0 (f (U.chan p.1))).sum =
      ((B.machine.trace (U.chan s) (U.calls is)).map fun p => f p.1 p.2).sum := by
  induction is generalizing s with
  | nil => rfl
  | cons i is ih =>
    rw [Machine.trace, List.map_cons, List.sum_cons, ih, U.chan_step, U.calls_cons]
    rcases U.call i with _ | c
    · exact Nat.zero_add _
    · rfl

/-- What the calls on the channel change step by step, those of the machine do. -/
theorem foldl_trace {δ : Type*} (f : δ → B.State → Call α → δ) (x : δ) (s : σ) (is : List ι) :
    (M.trace s is).foldl (fun x p => (U.call p.2).elim x (f x (U.chan p.1))) x =
      (B.machine.trace (U.chan s) (U.calls is)).foldl (fun x p => f x p.1 p.2) x := by
  induction is generalizing s x with
  | nil => rfl
  | cons i is ih =>
    rw [Machine.trace, List.foldl_cons, ih, U.chan_step, U.calls_cons]
    rcases U.call i with _ | c <;> rfl

/-- A condition along the calls on the channel is one along the calls of the
machine. -/
theorem along_calls {P : B.State → Call α → Prop} (s : σ) (is : List ι) :
    B.machine.Along P (U.chan s) (U.calls is) ↔
      M.Along (fun s i => ∀ c, U.call i = some c → P (U.chan s) c) s is := by
  induction is generalizing s with
  | nil => exact Iff.rfl
  | cons i is ih =>
    rw [Machine.Along, ← ih, U.chan_step, U.calls_cons]
    rcases U.call i with _ | c
    · exact (and_iff_right fun c hc => absurd hc (by simp)).symm
    · exact and_congr_left fun _ => ⟨fun hc c' hc' => Option.some.inj hc' ▸ hc, fun hc => hc c rfl⟩

/-- **What a new receiver reads**, in a run of a machine that uses the channel. -/
theorem reads_subscribe (laws : B.Laws) {n : ℕ} {s s' : σ} {L : Ledger α}
    (h : B.Reached n (U.chan s) L) (hs' : U.chan s' = (B.subscribe (U.chan s)).1) {rx : ℕ}
    (hrx : rx = (B.subscribe (U.chan s)).2) {is : List ι}
    (hkeep : ∀ i ∈ is, U.call i ≠ some (.drop rx)) :
    let rs := B.received rx (U.chan s') (U.calls is)
    let es := (U.calls is).flatMap Call.sends
    ∃ q, Reads es 0 rs q ∧ q ≤ es.length ∧
      ((B.recv (U.chan (M.run s' is)) rx).2 = some .empty → q = es.length) ∧
      (M.Along (fun s i => U.call i = some (.recv rx) → B.len (U.chan s) rx ≤ n) s' is →
        Received.skipped rs = 0) := by
  subst hrx
  have hcalls : ∀ c ∈ U.calls is, c ≠ .drop (B.subscribe (U.chan s)).2 := by
    rintro c hc rfl
    obtain ⟨i, hi, hdrop⟩ := List.mem_filterMap.1 hc
    exact hkeep i hi hdrop
  obtain ⟨q, hreads, hle, hend, hup⟩ := Broadcast.reads_subscribe laws h hcalls
  rw [← hs'] at hreads hend hup
  refine ⟨q, hreads, hle, fun hempty => hend ?_, fun halong => hup ?_⟩
  · rwa [U.chan_run] at hempty
  · refine (U.along_calls s' is).2 (halong.mono fun s i hi => ?_)
    rintro _ hc rfl
    exact hi hc

end Uses

end Broadcast
end Basis
