/-
# Presence

`src/presence.rs`: a `PresenceTracker` maps user ids to their presence, in a
sharded concurrent map.  The module is in the repository but not declared in
`lib.rs`; it is modelled as it is written.  `Utc::now()` is an argument of
`update`.

What is tracked of a user is decided by its last call (`get_run`).  `get_online`
and `len` read the map shard by shard while other threads update it, so what they
return need not be the users online, or their number, at any time: `is_empty` may
say so of a tracker that never was (`len_run_swap`).  `getOnline_run` and
`len_run` say what it is: for every user what was tracked when its shard was read.
-/

import Denshin.Basis.HashIter
import Denshin.Basis.Sharded

namespace Denshin

open Basis

/-- `PresenceStatus`. -/
inductive PresenceStatus
  | online
  | idle
  | doNotDisturb
  | offline
deriving DecidableEq

/-- `PresenceStatus::default`. -/
def PresenceStatus.default : PresenceStatus := .offline

/-- `UserPresence`; `T` is `DateTime<Utc>`. -/
structure UserPresence (T : Type*) where
  userId : String
  status : PresenceStatus
  lastSeen : T
  customStatus : Option String
deriving DecidableEq

/-- `PresenceTracker`: a presence is kept under the user it belongs to. -/
structure PresenceTracker (T : Type*) where
  presences : Finmap fun _ : String => UserPresence T
  userId_eq : ∀ u p, presences.lookup u = some p → p.userId = u

namespace PresenceTracker

variable {T : Type*}

/-- `PresenceTracker::new`. -/
def new : PresenceTracker T where
  presences := ∅
  userId_eq u p h := absurd h (by simp [Finmap.lookup_empty])

/-- `update`, at the time `now`. -/
def update (tracker : PresenceTracker T) (userId : String) (status : PresenceStatus)
    (customStatus : Option String) (now : T) : PresenceTracker T where
  presences := tracker.presences.insert userId ⟨userId, status, now, customStatus⟩
  userId_eq u p h := by
    by_cases hu : u = userId
    · rw [hu, Finmap.lookup_insert] at h
      rw [hu, ← Option.some.inj h]
    · rw [Finmap.lookup_insert_of_ne _ hu] at h
      exact tracker.userId_eq u p h

/-- `get`. -/
def get (tracker : PresenceTracker T) (userId : String) : Option (UserPresence T) :=
  tracker.presences.lookup userId

/-- `remove`. -/
def remove (tracker : PresenceTracker T) (userId : String) : PresenceTracker T where
  presences := tracker.presences.erase userId
  userId_eq u p h := by
    by_cases hu : u = userId
    · rw [hu, Finmap.lookup_erase] at h
      exact absurd h (Option.some_ne_none p).symm
    · rw [Finmap.lookup_erase_ne hu] at h
      exact tracker.userId_eq u p h

/-- `len`, when no other thread updates the tracker. -/
def len (tracker : PresenceTracker T) : ℕ := tracker.presences.keys.card

/-- `is_empty`, likewise. -/
def isEmpty (tracker : PresenceTracker T) : Bool := tracker.len = 0

/-- A call that updates the tracker. -/
inductive Call (T : Type*)
  | update (userId : String) (status : PresenceStatus) (customStatus : Option String) (now : T)
  | remove (userId : String)

/-- The user a call is about. -/
def Call.userId : Call T → String
  | .update u .. => u
  | .remove u => u

/-- What it leaves of the user. -/
def Call.entry : Call T → Option (UserPresence T)
  | .update u status customStatus now => some ⟨u, status, now, customStatus⟩
  | .remove _ => none

/-- One call. -/
def step (tracker : PresenceTracker T) : Call T → PresenceTracker T
  | .update u status customStatus now => tracker.update u status customStatus now
  | .remove u => tracker.remove u

/-- A tracker in use. -/
def machine : Machine (PresenceTracker T) (Call T) Unit := ⟨fun tracker call =>
  (tracker.step call, ())⟩

variable (S : Shards String) (it : HashIter String)

/-- The users online in shard `i`: those whose status is not `Offline`. -/
def onlineIn (tracker : PresenceTracker T) (i : ℕ) : List (UserPresence T) :=
  ((it.order (S.slice tracker.presences.keys i)).filterMap tracker.get).filter
    fun p => p.status ≠ .offline

/-- `get_online`: shard after shard is read, each after the calls of one of the
`gaps` by other threads. -/
def getOnline (tracker : PresenceTracker T) (gaps : List (List (Call T))) :
    List (UserPresence T) :=
  Shards.scan machine (onlineIn S it) tracker 0 gaps

/-- `len`: shard after shard is counted, likewise. -/
def lenAmid (tracker : PresenceTracker T) (gaps : List (List (Call T))) : ℕ :=
  Shards.tally machine (fun tracker i => (S.slice tracker.presences.keys i).card) tracker 0 gaps

/-- `is_empty`, likewise. -/
def isEmptyAmid (tracker : PresenceTracker T) (gaps : List (List (Call T))) : Bool :=
  tracker.lenAmid S gaps = 0

/-! ### What is tracked of a user -/

/-- What a call does to the presence of every user. -/
theorem get_step (tracker : PresenceTracker T) (call : Call T) (u : String) :
    (tracker.step call).get u = if u = call.userId then call.entry else tracker.get u := by
  cases call with
  | update v status customStatus now =>
    show (tracker.presences.insert v _).lookup u = _
    split_ifs with h
    · have hv : u = v := h
      rw [hv, Finmap.lookup_insert]
      rfl
    · exact Finmap.lookup_insert_of_ne _ h
  | remove v =>
    show (tracker.presences.erase v).lookup u = _
    split_ifs with h
    · have hv : u = v := h
      rw [hv, Finmap.lookup_erase]
      rfl
    · exact Finmap.lookup_erase_ne h

/-- **The last call on a user decides.** -/
theorem get_run (tracker : PresenceTracker T) (calls : List (Call T)) (u : String) :
    (machine.run tracker calls).get u =
      ((calls.filter fun call => call.userId = u).getLast?).elim (tracker.get u) Call.entry := by
  induction calls using List.reverseRecOn with
  | nil => rfl
  | append_singleton calls call ih =>
    rw [Machine.run_append]
    show ((machine.run tracker calls).step call).get u = _
    rw [get_step, ih, List.filter_append]
    by_cases h : u = call.userId
    · rw [if_pos h, List.filter_cons_of_pos (by simpa using h.symm), List.filter_nil,
        List.getLast?_concat]
      rfl
    · rw [if_neg h, List.filter_cons_of_neg (by simpa using Ne.symm h), List.filter_nil,
        List.append_nil]

/-- **The last call on a user decides its presence.** -/
theorem get_run_new (calls : List (Call T)) (u : String) :
    (machine.run new calls).get u =
      (calls.filter fun call => call.userId = u).getLast?.bind Call.entry := by
  rw [get_run]
  cases (calls.filter fun call => call.userId = u).getLast? with
  | none => exact Finmap.lookup_empty u
  | some call => rfl

/-! ### Who is online -/

section Online

variable {S it}

/-- A shard lists the presences of its users that are not offline. -/
theorem mem_onlineIn {tracker : PresenceTracker T} {i : ℕ} {p : UserPresence T} :
    p ∈ onlineIn S it tracker i ↔
      S.of p.userId = i ∧ tracker.get p.userId = some p ∧ p.status ≠ .offline := by
  unfold onlineIn
  rw [List.mem_filter, List.mem_filterMap, decide_eq_true_iff, ← and_assoc]
  refine and_congr_left fun _ => ?_
  constructor
  · rintro ⟨u, hu, hp⟩
    obtain rfl := tracker.userId_eq u p hp
    exact ⟨(Shards.mem_slice.1 (it.mem_order.1 hu)).2, hp⟩
  · rintro ⟨hi, hp⟩
    refine ⟨p.userId, it.mem_order.2 (Shards.mem_slice.2 ⟨?_, hi⟩), hp⟩
    exact Finmap.mem_keys.2 (Finmap.mem_of_lookup_eq_some hp)

/-- A shard lists no user twice. -/
theorem nodup_onlineIn (tracker : PresenceTracker T) (i : ℕ) :
    ((onlineIn S it tracker i).map UserPresence.userId).Nodup := by
  have hsub := Shards.map_filterMap_sublist tracker.userId_eq
    (it.order (S.slice tracker.presences.keys i))
  exact (it.nodup_order _).sublist ((List.filter_sublist.map UserPresence.userId).trans hsub)

end Online

/-- **What `get_online` returns**, while other threads update the tracker: no
user twice, and of every user the presence that its last call left before its
shard was read, if that is not `Offline`. -/
theorem getOnline_run (pre : List (Call T)) {gaps : List (List (Call T))}
    (hlen : gaps.length = S.count) :
    let ps := getOnline S it (machine.run new pre) gaps
    (ps.map UserPresence.userId).Nodup ∧
      ∀ p, p ∈ ps ↔ p.status ≠ .offline ∧
        ((pre ++ Shards.before gaps (S.of p.userId)).filter
          fun call => call.userId = p.userId).getLast?.bind Call.entry = some p := by
  intro ps
  have hkey : ∀ (tracker : PresenceTracker T) i p, p ∈ onlineIn S it tracker i →
      S.of p.userId = i := fun tracker i p hp => (mem_onlineIn.1 hp).1
  refine ⟨Shards.nodup_scan S hkey nodup_onlineIn, fun p => ?_⟩
  refine (Shards.mem_scan S hkey hlen).trans ?_
  rw [mem_onlineIn, and_iff_right rfl, ← machine.run_append, get_run_new]
  exact and_comm

/-- `bo` goes offline after its shard was read and `ann` comes online before
its shard is. -/
theorem getOnline_run_away :
    let ps := getOnline .byLength .sorted
      (machine.run new [.update "bo" .online none 0, .update "ann" .offline none 0])
      [[], [.update "bo" .offline none 1, .update "ann" .idle none 2]]
    (⟨"bo", .online, 0, none⟩ : UserPresence ℕ) ∈ ps ∧ ⟨"ann", .idle, 2, none⟩ ∈ ps := by
  intro ps
  have h := (getOnline_run .byLength .sorted
    [.update "bo" .online none 0, .update "ann" .offline none 0]
    (rfl : [[], [Call.update "bo" .offline none 1, .update "ann" .idle none 2]].length = 2)).2
  exact ⟨(h _).2 ⟨by decide, rfl⟩, (h _).2 ⟨by decide, rfl⟩⟩

/-! ### How many are tracked -/

/-- The last call on the user is an `update`. -/
def Tracked (calls : List (Call T)) (u : String) : Prop :=
  ((calls.filter fun call => call.userId = u).getLast?.bind Call.entry).isSome

instance (calls : List (Call T)) (u : String) : Decidable (Tracked calls u) :=
  inferInstanceAs (Decidable (_ = true))

/-- Who is tracked is told by the calls. -/
theorem tracked_iff {calls : List (Call T)} {u : String} :
    u ∈ (machine.run new calls).presences.keys ↔ Tracked calls u := by
  rw [Finmap.mem_keys, ← Finmap.lookup_isSome, Tracked, ← get_run_new]
  rfl

/-- The users that `len` counts. -/
theorem exists_card_eq_lenAmid (tracker : PresenceTracker T) {gaps : List (List (Call T))}
    (hlen : gaps.length = S.count) :
    ∃ us : Finset String, us.card = tracker.lenAmid S gaps ∧ ∀ u, u ∈ us ↔
      u ∈ (machine.run tracker (Shards.before gaps (S.of u))).presences.keys := by
  have hof : ∀ (tracker : PresenceTracker T) i u, u ∈ S.slice tracker.presences.keys i →
      S.of u = i := fun _ _ _ hu => (Shards.mem_slice.1 hu).2
  obtain ⟨us, hcard, hmem⟩ := S.exists_card_eq_tally (M := machine) hof tracker hlen
  refine ⟨us, hcard, fun u => ?_⟩
  rw [hmem, Shards.mem_slice, and_iff_left rfl]

/-- Without other threads this is `len`. -/
theorem lenAmid_idle (tracker : PresenceTracker T) :
    tracker.lenAmid S (List.replicate S.count []) = tracker.len := by
  obtain ⟨us, hcard, hmem⟩ := tracker.exists_card_eq_lenAmid S List.length_replicate
  have hus : us = tracker.presences.keys := by
    refine Finset.ext fun u => ?_
    rw [hmem, Shards.before_idle, Machine.run_nil]
  rw [← hcard, hus]
  rfl

/-- **What `len` and `is_empty` return**, while other threads update the tracker:
the number of the users that were tracked when their shard was counted, and
whether there is none. -/
theorem len_run (pre : List (Call T)) {gaps : List (List (Call T))} (hlen : gaps.length = S.count) :
    let tracker := machine.run new pre
    (∃ us : Finset String, us.card = tracker.lenAmid S gaps ∧
      ∀ u, u ∈ us ↔ Tracked (pre ++ Shards.before gaps (S.of u)) u) ∧
    (tracker.isEmptyAmid S gaps = true ↔
      ∀ u, ¬ Tracked (pre ++ Shards.before gaps (S.of u)) u) := by
  intro tracker
  obtain ⟨us, hcard, hmem⟩ := tracker.exists_card_eq_lenAmid S hlen
  have hus : ∀ u, u ∈ us ↔ Tracked (pre ++ Shards.before gaps (S.of u)) u := by
    intro u
    rw [hmem, ← machine.run_append, tracked_iff]
  refine ⟨⟨us, hcard, hus⟩, ?_⟩
  rw [isEmptyAmid, decide_eq_true_iff, ← hcard, Finset.card_eq_zero,
    Finset.eq_empty_iff_forall_notMem]
  exact forall_congr' fun u => not_congr (hus u)

/-- `bo` comes after its shard was counted, and then `ann` goes before its own
is: nobody is counted, though somebody was tracked at any time. -/
theorem len_run_swap :
    let pre : List (Call ℕ) := [.update "ann" .online none 0]
    let later : List (Call ℕ) := [.update "bo" .online none 1, .remove "ann"]
    (machine.run new pre).isEmptyAmid .byLength [[], later] = true ∧
      ∀ k, (machine.run new (pre ++ later.take k)).isEmpty = false := by
  intro pre later
  refine ⟨(len_run .byLength pre (rfl : [[], later].length = 2)).2.2 fun u htracked => ?_, ?_⟩
  · have hcalls : pre ++ Shards.before [[], later] (Shards.byLength.of u) <+: pre ++ later :=
      (List.prefix_append_right_inj pre).2 (Shards.before_prefix [[], later] _)
    by_cases hann : u = "ann"
    · subst hann
      exact absurd htracked (by decide)
    by_cases hbo : u = "bo"
    · subst hbo
      exact absurd htracked (by decide)
    have hnil : (pre ++ Shards.before [[], later] (Shards.byLength.of u)).filter
        (fun call => call.userId = u) = [] := by
      refine List.filter_eq_nil_iff.2 fun call hcall => ?_
      have hmem := hcalls.subset hcall
      simp only [pre, later, List.cons_append, List.nil_append, List.mem_cons, List.not_mem_nil,
        or_false] at hmem
      rcases hmem with rfl | rfl | rfl <;> simp [Call.userId, Ne.symm hann, Ne.symm hbo]
    rw [Tracked, hnil] at htracked
    exact absurd htracked (by simp)
  · intro k
    rcases k with _ | _ | k
    · decide
    · decide
    · rw [List.take_of_length_le (by simp [later])]
      decide

end PresenceTracker
end Denshin
