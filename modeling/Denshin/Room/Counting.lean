/-
# Counting the members of a room

The members of a room are in a sharded set, and `room.members.len()` adds up the
shards one after the other.  Threads that join and leave meanwhile change shards
already counted, so the number that `join_room` compares with the capacity need
not be the number of members at any time: it can be too low by any amount.  Here
a thread counts shard by shard.  If it is not interrupted, the steps are those
of `Denshin.Room.Capacity` (`run_expand`), where the test is one step.

Still a room is overbooked by no more than the joins under way, less one
(`card_le_of_throughout`).  The invariant `Crowd` looks at sets of joins that
have passed the test and of joins that still count: if the room could not bear
them all, then one of those that count, counting as it does, will find it full.
With a run that attains the bound, this is `members_isGreatest`: a server whose
joins run on one thread keeps the capacity, and one with `k` threads exceeds it
by `k - 1` at most.
-/

import Denshin.Basis.Sharded
import Denshin.Room.Overbooking

namespace Denshin

open Basis

/-- Where a thread is in `join_room`: it has counted `n` members in the shards
before `i`, or it has passed the test and has yet to insert. -/
inductive JoinState
  | counting (roomId userId : String) (max i n : ℕ)
  | admitted (roomId userId : String)

/-- A step of a thread: the room is looked up, a shard is counted, the user is
inserted; or a user leaves. -/
inductive JoinAction (τ : Type*)
  | enter (t : τ) (roomId userId : String)
  | count (t : τ)
  | insert (t : τ)
  | leave (t : τ) (roomId userId : String)

/-- The thread that a step is of. -/
def JoinAction.thread {τ : Type*} : JoinAction τ → τ
  | .enter t .. => t
  | .count t => t
  | .insert t => t
  | .leave t .. => t

/-- The rooms, the join each thread is in the middle of, and what the calls
returned so far. -/
structure JoinSys (τ : Type*) where
  mgr : RoomManager
  joining : τ → Option JoinState
  log : List (τ × Except RoomError Unit)

namespace JoinSys

variable {τ : Type*} [DecidableEq τ] (S : Shards String)

/-- Nothing has been called yet. -/
def start (m : RoomManager) : JoinSys τ := ⟨m, fun _ => none, []⟩

/-- One step; a step of a thread that is elsewhere does nothing.  A room cannot
be replaced while a thread is in its `join_room`, which holds a guard on it. -/
def step (s : JoinSys τ) : JoinAction τ → JoinSys τ
  | .enter t r u =>
    match s.joining t with
    | some _ => s
    | none =>
      match s.mgr.rooms.lookup r with
      | none => { s with log := s.log ++ [(t, .error (.roomNotFound r))] }
      | some room =>
        match room.maxMembers with
        | some max =>
          { s with joining := Function.update s.joining t (some (.counting r u max 0 0)) }
        | none => { s with joining := Function.update s.joining t (some (.admitted r u)) }
  | .count t =>
    match s.joining t with
    | some (.counting r u max i n) =>
      let n' := n + (S.slice (s.mgr.members r) i).card
      if i + 1 < S.count then
        { s with joining := Function.update s.joining t (some (.counting r u max (i + 1) n')) }
      else if max ≤ n' then
        { s with
          joining := Function.update s.joining t none
          log := s.log ++ [(t, .error (.roomFull r))] }
      else { s with joining := Function.update s.joining t (some (.admitted r u)) }
    | _ => s
  | .insert t =>
    match s.joining t with
    | some (.admitted r u) =>
      { mgr := s.mgr.insert r u
        joining := Function.update s.joining t none
        log := s.log ++ [(t, .ok ())] }
    | _ => s
  | .leave t r u =>
    match s.joining t with
    | none =>
      { s with
        mgr := (s.mgr.leaveRoom r u).1
        log := s.log ++ [(t, (s.mgr.leaveRoom r u).2)] }
    | some _ => s

/-- A run is any list of steps. -/
def machine : Machine (JoinSys τ) (JoinAction τ) Unit := ⟨fun s a => (s.step S a, ())⟩

/-! ### Counts that are not interrupted -/

/-- The steps that a step of `Denshin.Room.Capacity` stands for. -/
def expand : RoomAction τ → List (JoinAction τ)
  | .join t r u => .enter t r u :: List.replicate S.count (.count t)
  | .insert t => [.insert t]
  | .leave t r u => [.leave t r u]

/-- A state of `Denshin.Room.Capacity`, where no thread counts. -/
def ofRoomSys (s : RoomSys τ) : JoinSys τ :=
  ⟨s.mgr, fun t => (s.joining t).map fun p => .admitted p.1 p.2, s.log⟩

variable {S}

omit [DecidableEq τ] in
/-- A step of the machine is one of a thread. -/
@[simp] theorem machine_step [DecidableEq τ] (s : JoinSys τ) (act : JoinAction τ) :
    ((machine S).step s act).1 = s.step S act := rfl

/-- Counting does nothing for a thread that does not count. -/
theorem run_counts_of_not {s : JoinSys τ} {t : τ}
    (ht : ∀ r u max i n, s.joining t ≠ some (.counting r u max i n)) (k : ℕ) :
    (machine S).run s (List.replicate k (.count t)) = s := by
  induction k with
  | zero => rfl
  | succ k ih =>
    have hstep : s.step S (.count t) = s := by
      rcases hj : s.joining t with _ | (⟨r, u, max, i, n⟩ | ⟨r, u⟩)
      · simp only [step, hj]
      · exact absurd hj (ht r u max i n)
      · simp only [step, hj]
    rw [List.replicate_succ, Machine.run_cons, machine_step, hstep]
    exact ih

/-- **A count that is not interrupted** is of all members that it has yet to
read. -/
theorem run_counts {s : JoinSys τ} {t : τ} {r u : String} {max i n k : ℕ}
    (ht : s.joining t = some (.counting r u max i n)) (hk : i + (k + 1) = S.count) :
    (machine S).run s (List.replicate (k + 1) (.count t)) =
      if max ≤ n + (S.rest (s.mgr.members r) i).card then
        { s with
          joining := Function.update s.joining t none
          log := s.log ++ [(t, .error (.roomFull r))] }
      else { s with joining := Function.update s.joining t (some (.admitted r u)) } := by
  induction k generalizing s i n with
  | zero =>
    have hlast : (S.rest (s.mgr.members r) i).card = (S.slice (s.mgr.members r) i).card := by
      rw [S.card_rest, S.rest_of_count_le _ (by omega : S.count ≤ i + 1)]
      rfl
    rw [hlast]
    show s.step S (.count t) = _
    simp only [step, ht]
    rw [if_neg (by omega)]
  | succ k ih =>
    have hstep : s.step S (.count t) = { s with
        joining := Function.update s.joining t
          (some (.counting r u max (i + 1) (n + (S.slice (s.mgr.members r) i).card))) } := by
      simp only [step, ht]
      rw [if_pos (by omega)]
    have hsum : n + (S.slice (s.mgr.members r) i).card + (S.rest (s.mgr.members r) (i + 1)).card =
        n + (S.rest (s.mgr.members r) i).card := by
      rw [S.card_rest (s.mgr.members r) i, Nat.add_assoc]
    rw [List.replicate_succ, Machine.run_cons, machine_step, hstep,
      ih (Function.update_self ..) (by omega), ← hsum]
    simp only [Function.update_idem]

omit [DecidableEq τ] in
/-- The rooms are the same. -/
theorem ofRoomSys_mgr (s : RoomSys τ) : (ofRoomSys s).mgr = s.mgr := rfl

omit [DecidableEq τ] in
/-- A thread that has passed the test is where it was. -/
theorem ofRoomSys_joining (s : RoomSys τ) (t : τ) :
    (ofRoomSys s).joining t = (s.joining t).map fun p => .admitted p.1 p.2 := rfl

/-- A thread is moved in either system. -/
theorem ofRoomSys_update (s : RoomSys τ) (t : τ) (v : Option (String × String)) :
    ofRoomSys { s with joining := Function.update s.joining t v } =
      { ofRoomSys s with
        joining := Function.update (ofRoomSys s).joining t
          (v.map fun p => .admitted p.1 p.2) } := by
  have hupdate :=
    Function.comp_update (Option.map fun p => JoinState.admitted p.1 p.2) s.joining t v
  exact congrArg (fun j => (⟨s.mgr, j, s.log⟩ : JoinSys τ)) hupdate

/-- A join that is not interrupted. -/
theorem run_expand_join (s : RoomSys τ) {t : τ} (ht : s.joining t = none) (r u : String) :
    (machine S).run (ofRoomSys s) (expand S (.join t r u)) = ofRoomSys (s.step (.join t r u)) := by
  obtain ⟨k, hk⟩ : ∃ k, S.count = k + 1 := Nat.exists_eq_succ_of_ne_zero S.count_pos.ne'
  have hidle : (ofRoomSys s).joining t = none := by rw [ofRoomSys_joining, ht, Option.map_none]
  rw [expand, Machine.run_cons, machine_step]
  rcases hr : s.mgr.rooms.lookup r with _ | room
  · have hjoin : s.step (.join t r u) =
        { s with log := s.log ++ [(t, .error (.roomNotFound r))] } := by
      simp only [RoomSys.step, RoomManager.admits, ht, hr]
    have hstep : (ofRoomSys s).step S (.enter t r u) = ofRoomSys (s.step (.join t r u)) := by
      rw [hjoin]
      simp only [step, hidle, ofRoomSys_mgr, hr]
      rfl
    rw [hstep]
    refine run_counts_of_not (fun r u max i n h => ?_) _
    rw [ofRoomSys_joining, hjoin, ht] at h
    exact absurd h (by simp)
  · rcases hmax : room.maxMembers with _ | max
    · have hjoin : s.step (.join t r u) =
          { s with joining := Function.update s.joining t (some (r, u)) } := by
        simp only [RoomSys.step, RoomManager.admits, Room.full, ht, hr, hmax]
        rfl
      have hstep : (ofRoomSys s).step S (.enter t r u) = ofRoomSys (s.step (.join t r u)) := by
        rw [hjoin, ofRoomSys_update]
        simp only [step, hidle, ofRoomSys_mgr, hr, hmax]
        rfl
      rw [hstep]
      refine run_counts_of_not (fun r u max i n h => ?_) _
      rw [ofRoomSys_joining, hjoin] at h
      simp only [Function.update_self] at h
      exact absurd h (by simp)
    · have hstep : (ofRoomSys s).step S (.enter t r u) = { ofRoomSys s with
          joining := Function.update (ofRoomSys s).joining t (some (.counting r u max 0 0)) } := by
        simp only [step, hidle, ofRoomSys_mgr, hr, hmax]
      have hmembers : s.mgr.members r = room.members := by
        rw [RoomManager.members, hr]
        rfl
      rw [hstep, hk, run_counts (Function.update_self ..) (by omega), S.rest_zero, Nat.zero_add]
      show (if max ≤ (s.mgr.members r).card then _ else _) = _
      rw [hmembers]
      split_ifs with hfull
      · have hjoin : s.step (.join t r u) =
            { s with log := s.log ++ [(t, .error (.roomFull r))] } := by
          simp only [RoomSys.step, RoomManager.admits, Room.full, ht, hr, hmax, hfull, decide_true,
            if_true]
        rw [hjoin]
        simp only [Function.update_idem]
        rw [← hidle, Function.update_eq_self]
        rfl
      · have hjoin : s.step (.join t r u) =
            { s with joining := Function.update s.joining t (some (r, u)) } := by
          simp only [RoomSys.step, RoomManager.admits, Room.full, ht, hr, hmax, hfull, decide_false,
            Bool.false_eq_true, if_false]
        rw [hjoin, ofRoomSys_update]
        simp only [Function.update_idem]
        rfl

/-- One step of it. -/
theorem run_expand_step (s : RoomSys τ) (act : RoomAction τ) :
    (machine S).run (ofRoomSys s) (expand S act) = ofRoomSys (s.step act) := by
  cases act with
  | join t r u =>
    rcases ht : s.joining t with _ | p
    · exact run_expand_join s ht r u
    · have hbusy : (ofRoomSys s).joining t = some (.admitted p.1 p.2) := by
        rw [ofRoomSys_joining, ht, Option.map_some]
      have hstep : (ofRoomSys s).step S (.enter t r u) = ofRoomSys s := by
        simp only [step, hbusy]
      rw [expand, Machine.run_cons, machine_step, hstep, run_counts_of_not]
      · simp only [RoomSys.step, ht]
      · intro r u max i n h
        exact absurd (hbusy.symm.trans h) (by simp)
  | insert t =>
    show (ofRoomSys s).step S (.insert t) = _
    rcases ht : s.joining t with _ | p
    · have hidle : (ofRoomSys s).joining t = none := by rw [ofRoomSys_joining, ht, Option.map_none]
      simp only [step, RoomSys.step, ht, hidle]
    · have hbusy : (ofRoomSys s).joining t = some (.admitted p.1 p.2) := by
        rw [ofRoomSys_joining, ht, Option.map_some]
      have hupdate := ofRoomSys_update s t none
      simp only [step, RoomSys.step, ht, hbusy]
      exact congrArg (fun f => JoinSys.mk (s.mgr.insert p.1 p.2) f.joining
        (s.log ++ [(t, .ok ())])) hupdate.symm
  | leave t r u =>
    show (ofRoomSys s).step S (.leave t r u) = _
    rcases ht : s.joining t with _ | p
    · have hidle : (ofRoomSys s).joining t = none := by rw [ofRoomSys_joining, ht, Option.map_none]
      simp only [step, RoomSys.step, ht, hidle]
      rfl
    · have hbusy : (ofRoomSys s).joining t = some (.admitted p.1 p.2) := by
        rw [ofRoomSys_joining, ht, Option.map_some]
      simp only [step, RoomSys.step, ht, hbusy]

/-- **The model of `Denshin.Room.Capacity` is the one without interruptions.** -/
theorem run_expand (s : RoomSys τ) (acts : List (RoomAction τ)) :
    (machine S).run (ofRoomSys s) (acts.flatMap (expand S)) =
      ofRoomSys (RoomSys.machine.run s acts) := by
  induction acts generalizing s with
  | nil => rfl
  | cons act acts ih =>
    rw [List.flatMap_cons, Machine.run_append, run_expand_step, ih]
    rfl

/-! ### What a step does -/

variable (S) in
/-- All that a step of a thread can do. -/
inductive Steps (s : JoinSys τ) (t : τ) : JoinSys τ → Prop
  | idle (log : List (τ × Except RoomError Unit)) : Steps s t { s with log := log }
  | enter {r : String} {room : Room} {max : ℕ} (u : String)
      (hroom : s.mgr.rooms.lookup r = some room) (hmax : room.maxMembers = some max) :
      Steps s t { s with joining := Function.update s.joining t (some (.counting r u max 0 0)) }
  | unlimited {r : String} {room : Room} (u : String)
      (hroom : s.mgr.rooms.lookup r = some room) (hmax : room.maxMembers = none) :
      Steps s t { s with joining := Function.update s.joining t (some (.admitted r u)) }
  | next {r u : String} {max i n : ℕ} (ht : s.joining t = some (.counting r u max i n)) :
      Steps s t { s with
        joining := Function.update s.joining t
          (some (.counting r u max (i + 1) (n + (S.slice (s.mgr.members r) i).card))) }
  | full (log : List (τ × Except RoomError Unit)) :
      Steps s t { s with joining := Function.update s.joining t none, log := log }
  | pass {r u : String} {max i n : ℕ} (ht : s.joining t = some (.counting r u max i n))
      (hlast : S.count ≤ i + 1) (hlt : n + (S.slice (s.mgr.members r) i).card < max) :
      Steps s t { s with joining := Function.update s.joining t (some (.admitted r u)) }
  | insert {r u : String} (ht : s.joining t = some (.admitted r u))
      (log : List (τ × Except RoomError Unit)) :
      Steps s t ⟨s.mgr.insert r u, Function.update s.joining t none, log⟩
  | leave (r u : String) (log : List (τ × Except RoomError Unit)) :
      Steps s t { s with mgr := (s.mgr.leaveRoom r u).1, log := log }

/-- **What a step does**, by where the thread is. -/
theorem steps (s : JoinSys τ) (act : JoinAction τ) : Steps S s act.thread (s.step S act) := by
  cases act with
  | enter t r u =>
    rcases ht : s.joining t with _ | j
    · rcases hroom : s.mgr.rooms.lookup r with _ | room
      · simp only [step, ht, hroom]
        exact .idle _
      · rcases hmax : room.maxMembers with _ | max
        · simp only [step, ht, hroom, hmax]
          exact .unlimited u hroom hmax
        · simp only [step, ht, hroom, hmax]
          exact .enter u hroom hmax
    · simp only [step, ht]
      exact .idle s.log
  | count t =>
    rcases ht : s.joining t with _ | (⟨r, u, max, i, n⟩ | ⟨r, u⟩)
    · simp only [step, ht]
      exact .idle s.log
    · simp only [step, ht]
      split_ifs with hnext hfull
      · exact .next ht
      · exact .full _
      · exact .pass ht (Nat.not_lt.1 hnext) (Nat.lt_of_not_le hfull)
    · simp only [step, ht]
      exact .idle s.log
  | insert t =>
    rcases ht : s.joining t with _ | (⟨r, u, max, i, n⟩ | ⟨r, u⟩)
    · simp only [step, ht]
      exact .idle s.log
    · simp only [step, ht]
      exact .idle s.log
    · simp only [step, ht]
      exact .insert ht _
  | leave t r u =>
    simp only [step]
    rcases s.joining t with _ | j
    · exact .leave r u _
    · exact .idle s.log

/-- The other threads stay where they are. -/
theorem Steps.joining_of_ne {s s' : JoinSys τ} {t t' : τ} (h : Steps S s t s') (hne : t' ≠ t) :
    s'.joining t' = s.joining t' := by
  cases h with
  | idle log => rfl
  | leave r u log => rfl
  | _ => exact Function.update_of_ne hne ..

/-! ### The bound -/

/-- The thread counts the members of the room. -/
def Counting (id : String) (s : JoinSys τ) (t : τ) : Prop :=
  ∃ u max i n, s.joining t = some (.counting id u max i n)

/-- The thread has passed the test of a join of the room, and has yet to
insert. -/
def Admitted (id : String) (s : JoinSys τ) (t : τ) : Prop :=
  ∃ u, s.joining t = some (.admitted id u)

/-- At most `k` joins of the room are under way. -/
def AtMost (k : ℕ) (id : String) (s : JoinSys τ) : Prop :=
  ∀ ts : Finset τ, (∀ t ∈ ts, Counting id s t ∨ Admitted id s t) → ts.card ≤ k

variable (S) in
/-- What the thread will have counted if nothing changes. -/
def expects (id : String) (s : JoinSys τ) (t : τ) : ℕ :=
  match s.joining t with
  | some (.counting _ _ _ i n) => n + (S.rest (s.mgr.members id) i).card
  | _ => 0

variable (S) in
/-- The room can bear the joins of `P` and `C` with `k - 1` members too many, or
one of `C`, counting as it does, will find it full. -/
def Bears (k : ℕ) (id : String) (max : ℕ) (s : JoinSys τ) (P C : Finset τ) : Prop :=
  (s.mgr.members id).card + P.card + C.card < max + k ∨
    ∃ t ∈ C, (s.mgr.members id).card + P.card + C.card ≤ expects S id s t + k

variable (S) in
/-- The invariant. -/
structure Crowd (k : ℕ) (id : String) (max : ℕ) (s : JoinSys τ) : Prop where
  hasRoom : ∃ room, s.mgr.rooms.lookup id = some room ∧ room.maxMembers = some max
  max_eq : ∀ t u m i n, s.joining t = some (.counting id u m i n) → m = max
  bears : ∀ P C : Finset τ, (∀ t ∈ P, Admitted id s t) → (∀ t ∈ C, Counting id s t) →
    Bears S k id max s P C

section Bears

variable {k : ℕ} {id : String} {max : ℕ} {s s' : JoinSys τ} {P C : Finset τ}

omit [DecidableEq τ] in
/-- A room can bear the same joins with fewer members, if as much is expected of
each count. -/
theorem Bears.mono (h : Bears S k id max s P C)
    (hcard : (s'.mgr.members id).card ≤ (s.mgr.members id).card)
    (hexpects : ∀ t ∈ C, expects S id s t + (s'.mgr.members id).card ≤
      expects S id s' t + (s.mgr.members id).card) : Bears S k id max s' P C := by
  rcases h with hlt | ⟨t, ht, hle⟩
  · exact Or.inl (by omega)
  · have ht' := hexpects t ht
    exact Or.inr ⟨t, ht, by omega⟩

omit [DecidableEq τ] in
/-- When members leave, no more of them go than a thread expected to count. -/
theorem expects_of_subset {t : τ} (hjoining : s'.joining t = s.joining t)
    (hsub : s'.mgr.members id ⊆ s.mgr.members id) :
    expects S id s t + (s'.mgr.members id).card ≤
      expects S id s' t + (s.mgr.members id).card := by
  unfold expects
  rw [hjoining]
  rcases s.joining t with _ | (⟨r, u, m, i, n⟩ | ⟨r, u⟩)
  · exact Nat.add_le_add_left (Finset.card_le_card hsub) 0
  · have hrest := S.card_rest_of_subset hsub i
    show n + _ + _ ≤ n + _ + _
    omega
  · exact Nat.add_le_add_left (Finset.card_le_card hsub) 0

omit [DecidableEq τ] in
/-- When members join, no thread expects to count less. -/
theorem expects_mono {t : τ} (hjoining : s'.joining t = s.joining t)
    (hsub : s.mgr.members id ⊆ s'.mgr.members id) : expects S id s t ≤ expects S id s' t := by
  unfold expects
  rw [hjoining]
  rcases s.joining t with _ | (⟨r, u, m, i, n⟩ | ⟨r, u⟩)
  · exact le_rfl
  · exact Nat.add_le_add_left (Finset.card_le_card (S.rest_mono hsub i)) n
  · exact le_rfl

variable {t : τ} {v : Option JoinState} (hjoining : s'.joining = Function.update s.joining t v)

include hjoining

/-- The other threads had passed the test before the step. -/
theorem admitted_before (hP : ∀ t' ∈ P, Admitted id s' t') (ht : t ∉ P) :
    ∀ t' ∈ P, Admitted id s t' := by
  intro t' ht'
  have h := hP t' ht'
  unfold Admitted at h ⊢
  rwa [hjoining, Function.update_of_ne (ne_of_mem_of_not_mem ht' ht)] at h

/-- The other threads were counting before the step. -/
theorem counting_before (hC : ∀ t' ∈ C, Counting id s' t') (ht : t ∉ C) :
    ∀ t' ∈ C, Counting id s t' := by
  intro t' ht'
  have h := hC t' ht'
  unfold Counting at h ⊢
  rwa [hjoining, Function.update_of_ne (ne_of_mem_of_not_mem ht' ht)] at h

/-- A thread that does not count, or is not admitted, is not among those that
do. -/
theorem notMem_admitted (hP : ∀ t' ∈ P, Admitted id s' t')
    (hv : ∀ u, v ≠ some (.admitted id u)) : t ∉ P := by
  intro ht
  obtain ⟨u, hu⟩ := hP t ht
  rw [hjoining, Function.update_self] at hu
  exact hv u hu

/-- A thread that does not count is not among those that do. -/
theorem notMem_counting (hC : ∀ t' ∈ C, Counting id s' t')
    (hv : ∀ u m i n, v ≠ some (.counting id u m i n)) : t ∉ C := by
  intro ht
  obtain ⟨u, m, i, n, hu⟩ := hC t ht
  rw [hjoining, Function.update_self] at hu
  exact hv u m i n hu

/-- A step of a thread that is not among those considered. -/
theorem Crowd.bears_of_notMem (h : Crowd S k id max s) (hP : ∀ t' ∈ P, Admitted id s' t')
    (hC : ∀ t' ∈ C, Counting id s' t') (htP : t ∉ P) (htC : t ∉ C)
    (hmembers : s'.mgr.members id = s.mgr.members id) : Bears S k id max s' P C := by
  refine (h.bears P C (admitted_before hjoining hP htP) (counting_before hjoining hC htC)).mono
    (by rw [hmembers]) fun t' ht' => expects_of_subset ?_ hmembers.le
  rw [hjoining]
  exact Function.update_of_ne (ne_of_mem_of_not_mem ht' htC) ..

end Bears

section Steps

variable {k : ℕ} {id : String} {max : ℕ} {s s' : JoinSys τ} {P C : Finset τ} {t : τ}
  {r u : String} {m i n : ℕ} (h : Crowd S k id max s) (hP : ∀ t' ∈ P, Admitted id s' t')
  (hC : ∀ t' ∈ C, Counting id s' t')

include h hP hC

/-- A thread that begins to count expects all members, and no more than `k`
joins are under way. -/
theorem Crowd.bears_enter (hmgr : s'.mgr = s.mgr)
    (hjoining : s'.joining = Function.update s.joining t (some (.counting r u m 0 0)))
    (hk : AtMost k id s') : Bears S k id max s' P C := by
  have htP : t ∉ P := notMem_admitted hjoining hP fun u => nofun
  by_cases htC : t ∈ C
  · have hdisj : Disjoint P C := by
      refine Finset.disjoint_left.2 fun t' hp hc => ?_
      obtain ⟨u, hu⟩ := hP t' hp
      obtain ⟨u', m', i, n, hu'⟩ := hC t' hc
      exact nomatch hu.symm.trans hu'
    have hcard := hk (P ∪ C) fun t' ht' => (Finset.mem_union.1 ht').elim
      (fun hp => Or.inr (hP t' hp)) fun hc => Or.inl (hC t' hc)
    have hexpects : expects S id s' t = (s'.mgr.members id).card := by
      simp only [expects, hjoining, Function.update_self, S.rest_zero, Nat.zero_add]
    rw [Finset.card_union_of_disjoint hdisj] at hcard
    exact Or.inr ⟨t, htC, by omega⟩
  · exact h.bears_of_notMem hjoining hP hC htP htC (by rw [hmgr])

/-- A thread that goes on counting expects the same. -/
theorem Crowd.bears_next (hmgr : s'.mgr = s.mgr)
    (hjoining : s'.joining = Function.update s.joining t
      (some (.counting r u m (i + 1) (n + (S.slice (s.mgr.members r) i).card))))
    (ht : s.joining t = some (.counting r u m i n)) : Bears S k id max s' P C := by
  have htP : t ∉ P := notMem_admitted hjoining hP fun u => nofun
  by_cases htC : t ∈ C
  · have hself : s'.joining t =
        some (.counting r u m (i + 1) (n + (S.slice (s.mgr.members r) i).card)) := by
      rw [hjoining, Function.update_self]
    obtain rfl : r = id := by
      obtain ⟨u', m', i', n', hu'⟩ := hC t htC
      exact (JoinState.counting.inj (Option.some.inj (hself.symm.trans hu'))).1
    have hC' : ∀ t' ∈ C, Counting r s t' := by
      intro t' ht'
      by_cases he : t' = t
      · exact ⟨u, m, i, n, he ▸ ht⟩
      · have hone : ∀ t'' ∈ ({t'} : Finset τ), Counting r s' t'' := fun t'' ht'' =>
          hC t'' (Finset.mem_singleton.1 ht'' ▸ ht')
        exact counting_before hjoining hone (fun hmem => he (Finset.mem_singleton.1 hmem).symm) t'
          (Finset.mem_singleton_self t')
    refine (h.bears P C (admitted_before hjoining hP htP) hC').mono (by rw [hmgr])
      fun t' _ => ?_
    by_cases he : t' = t
    · have hread := S.card_rest (s.mgr.members r) i
      rw [he, hmgr]
      simp only [expects, ht, hself, hmgr]
      omega
    · refine expects_of_subset ?_ (by rw [hmgr])
      rw [hjoining]
      exact Function.update_of_ne he ..
  · exact h.bears_of_notMem hjoining hP hC htP htC (by rw [hmgr])

/-- **A thread that passes the test** has not expected the room to be full. -/
theorem Crowd.bears_pass (hmgr : s'.mgr = s.mgr)
    (hjoining : s'.joining = Function.update s.joining t (some (.admitted r u)))
    (ht : s.joining t = some (.counting r u m i n)) (hlast : S.count ≤ i + 1)
    (hlt : n + (S.slice (s.mgr.members r) i).card < m) : Bears S k id max s' P C := by
  have htC : t ∉ C := notMem_counting hjoining hC fun u m i n => nofun
  by_cases htP : t ∈ P
  · obtain rfl : r = id := by
      obtain ⟨u', hu'⟩ := hP t htP
      rw [hjoining, Function.update_self] at hu'
      exact (JoinState.admitted.inj (Option.some.inj hu')).1
    obtain rfl := h.max_eq t u m i n ht
    -- Before the step it was one of those that count.
    have hP' : ∀ t' ∈ P.erase t, Admitted r s t' :=
      admitted_before hjoining (fun t' ht' => hP t' (Finset.mem_of_mem_erase ht'))
        (Finset.notMem_erase t P)
    have hC' : ∀ t' ∈ insert t C, Counting r s t' := by
      intro t' ht'
      rcases Finset.mem_insert.1 ht' with rfl | ht'
      · exact ⟨u, m, i, n, ht⟩
      · exact counting_before hjoining hC htC t' ht'
    have hcardP := Finset.card_erase_add_one htP
    have hcardC := Finset.card_insert_of_notMem htC
    have hself : expects S r s t < m := by
      have hread := S.card_rest (s.mgr.members r) i
      have hdone : (S.rest (s.mgr.members r) (i + 1)).card = 0 := by
        rw [S.rest_of_count_le _ hlast, Finset.card_empty]
      simp only [expects, ht]
      omega
    unfold Bears
    rw [hmgr]
    rcases h.bears _ _ hP' hC' with hlt' | ⟨t', ht', hle⟩
    · exact Or.inl (by omega)
    · rcases Finset.mem_insert.1 ht' with rfl | ht'
      · exact Or.inl (by omega)
      · have hsame : expects S r s t' ≤ expects S r s' t' := by
          refine expects_mono ?_ (by rw [hmgr])
          rw [hjoining]
          exact Function.update_of_ne (ne_of_mem_of_not_mem ht' htC) ..
        exact Or.inr ⟨t', ht', by omega⟩
  · exact h.bears_of_notMem hjoining hP hC htP htC (by rw [hmgr])

/-- A thread that inserts adds a member, and is no longer under way. -/
theorem Crowd.bears_insert (hmgr : s'.mgr = s.mgr.insert r u)
    (hjoining : s'.joining = Function.update s.joining t none)
    (ht : s.joining t = some (.admitted r u)) : Bears S k id max s' P C := by
  have htP : t ∉ P := notMem_admitted hjoining hP fun u => nofun
  have htC : t ∉ C := notMem_counting hjoining hC fun u m i n => nofun
  obtain ⟨room, hroom, -⟩ := h.hasRoom
  have hmembers := RoomSys.members_insert s.mgr r u id hroom
  rw [← hmgr] at hmembers
  by_cases hr : id = r
  · subst hr
    rw [if_pos rfl] at hmembers
    have hP' : ∀ t' ∈ insert t P, Admitted id s t' := by
      intro t' ht'
      rcases Finset.mem_insert.1 ht' with rfl | ht'
      · exact ⟨u, ht⟩
      · exact admitted_before hjoining hP htP t' ht'
    have hcardP := Finset.card_insert_of_notMem htP
    have hcard := Finset.card_insert_le u (s.mgr.members id)
    rw [← hmembers] at hcard
    rcases h.bears _ C hP' (counting_before hjoining hC htC) with hlt | ⟨t', ht', hle⟩
    · exact Or.inl (by omega)
    · have hmono : expects S id s t' ≤ expects S id s' t' := by
        refine expects_mono ?_ (hmembers ▸ Finset.subset_insert u _)
        rw [hjoining]
        exact Function.update_of_ne (ne_of_mem_of_not_mem ht' htC) ..
      exact Or.inr ⟨t', ht', by omega⟩
  · rw [if_neg hr] at hmembers
    exact h.bears_of_notMem hjoining hP hC htP htC hmembers

/-- **One step**, after which at most `k` joins of the room are under way. -/
theorem Crowd.bears_step (hstep : Steps S s t s') (hk : AtMost k id s') :
    Bears S k id max s' P C := by
  obtain ⟨room, hroom, hmax⟩ := h.hasRoom
  cases hstep with
  | idle log => exact h.bears P C hP hC
  | enter u hroom' hmax' => exact h.bears_enter hP hC rfl rfl hk
  | @unlimited r room' u hroom' hmax' =>
    have hr : r ≠ id := by
      rintro rfl
      obtain rfl := Option.some.inj (hroom.symm.trans hroom')
      exact nomatch hmax.symm.trans hmax'
    refine h.bears_of_notMem rfl hP hC (notMem_admitted rfl hP fun u' he => hr ?_)
      (notMem_counting rfl hC fun u m i n => nofun) rfl
    exact (JoinState.admitted.inj (Option.some.inj he)).1
  | next ht => exact h.bears_next hP hC rfl rfl ht
  | full log =>
    exact h.bears_of_notMem rfl hP hC (notMem_admitted rfl hP fun u => nofun)
      (notMem_counting rfl hC fun u m i n => nofun) rfl
  | pass ht hlast hlt => exact h.bears_pass hP hC rfl rfl ht hlast hlt
  | insert ht log => exact h.bears_insert hP hC rfl rfl ht
  | leave r u log =>
    have hsub := RoomSys.members_leaveRoom s.mgr r u id
    exact (h.bears P C hP hC).mono (Finset.card_le_card hsub) fun t _ =>
      expects_of_subset rfl hsub

end Steps

section Run

variable {k : ℕ} {id : String} {max : ℕ} {s : JoinSys τ}

omit [DecidableEq τ] in
/-- A room stays, with its capacity. -/
theorem hasRoom_mgr {m m' : RoomManager}
    (h : ∃ room, m.rooms.lookup id = some room ∧ room.maxMembers = some max)
    (hm : (∃ r u, m' = m.insert r u) ∨ ∃ r u, m' = (m.leaveRoom r u).1) :
    ∃ room, m'.rooms.lookup id = some room ∧ room.maxMembers = some max := by
  have hroom (j : Option (String × String)) : RoomSys.HasRoom id max ⟨m, fun _ : Unit => j, []⟩ := h
  rcases hm with ⟨r, u, rfl⟩ | ⟨r, u, rfl⟩
  · exact (hroom (some (r, u))).step (.insert ())
  · exact (hroom none).step (.leave () r u)

/-- **Every step keeps the invariant** while at most `k` joins are under way. -/
theorem Crowd.step (h : Crowd S k id max s) {act : JoinAction τ} (hk : AtMost k id (s.step S act)) :
    Crowd S k id max (s.step S act) := by
  have hstep := steps (S := S) s act
  refine ⟨?_, ?_, fun P C hP hC => h.bears_step hP hC hstep hk⟩
  · generalize s.step S act = s' at hstep
    cases hstep with
    | insert ht log => exact hasRoom_mgr h.hasRoom (Or.inl ⟨_, _, rfl⟩)
    | leave r u log => exact hasRoom_mgr h.hasRoom (Or.inr ⟨_, _, rfl⟩)
    | _ => exact h.hasRoom
  · intro t' u' m' i' n' ht'
    generalize s.step S act = s' at hstep ht'
    have hold {t : τ} {v : Option JoinState}
        (hv : ∀ u m i n, v = some (.counting id u m i n) → m = max)
        (hs : Function.update s.joining t v t' = some (.counting id u' m' i' n')) : m' = max := by
      rw [Function.update_apply] at hs
      split_ifs at hs
      · exact hv u' m' i' n' hs
      · exact h.max_eq t' u' m' i' n' hs
    cases hstep with
    | idle log => exact h.max_eq t' u' m' i' n' ht'
    | enter u hroom hmax =>
      refine hold (fun u m i n he => ?_) ht'
      obtain ⟨rfl, -, rfl, -⟩ := JoinState.counting.inj (Option.some.inj he)
      obtain ⟨room, hroom', hmax'⟩ := h.hasRoom
      obtain rfl := Option.some.inj (hroom.symm.trans hroom')
      exact Option.some.inj (hmax.symm.trans hmax')
    | next ht =>
      refine hold (fun u m i n he => ?_) ht'
      obtain ⟨rfl, -, rfl, -⟩ := JoinState.counting.inj (Option.some.inj he)
      exact h.max_eq _ _ _ _ _ ht
    | leave r u log => exact h.max_eq t' u' m' i' n' ht'
    | _ =>
      refine hold ?_ ht'
      intro u m i n he
      exact nomatch he

/-- So does every run. -/
theorem Crowd.run (h : Crowd S k id max s) {acts : List (JoinAction τ)}
    (hk : (machine S).Throughout (AtMost k id) s acts) :
    Crowd S k id max ((machine S).run s acts) := by
  induction acts generalizing s with
  | nil => exact h
  | cons act acts ih =>
    have hrest := (Machine.throughout_cons.1 hk).2
    exact ih (h.step (hrest [] List.nil_prefix)) hrest

end Run

/-- The rooms of a manager, and one more of a given capacity. -/
def opened (m : RoomManager) (id name : String) (max : ℕ) : JoinSys τ :=
  start (m.createRoom (Room.withCapacity id name max)).1

omit [DecidableEq τ] in
/-- A room that is opened satisfies the invariant. -/
theorem crowd_opened {k : ℕ} (hk : 0 < k) (m : RoomManager) (id name : String) (max : ℕ) :
    Crowd S k id max (opened m id name max : JoinSys τ) where
  hasRoom := ⟨Room.withCapacity id name max, Finmap.lookup_insert _, rfl⟩
  max_eq t u m i n := nofun
  bears P C hP hC := by
    have hnoP : P = ∅ := Finset.eq_empty_of_forall_notMem fun t ht => by
      obtain ⟨u, hu⟩ := hP t ht
      exact nomatch hu
    have hnoC : C = ∅ := Finset.eq_empty_of_forall_notMem fun t ht => by
      obtain ⟨u, m, i, n, hu⟩ := hC t ht
      exact nomatch hu
    have hempty : (RoomSys.opened m id name max : RoomSys τ).mgr.members id = ∅ :=
      RoomSys.members_opened m id name max
    have hmembers : (opened m id name max : JoinSys τ).mgr.members id = ∅ := hempty
    refine Or.inl ?_
    rw [hnoP, hnoC, hmembers]
    simp only [Finset.card_empty]
    omega

/-- **The bound.**  With at most `k` joins of the room under way at any time, it
never has more than `k - 1` members above its capacity. -/
theorem card_le_of_throughout {k : ℕ} (hk : 0 < k) (m : RoomManager) (id name : String) (max : ℕ)
    {acts : List (JoinAction τ)}
    (h : (machine S).Throughout (AtMost k id) (opened m id name max) acts) :
    (((machine S).run (opened m id name max) acts).mgr.members id).card ≤ max + k - 1 := by
  rcases ((crowd_opened hk m id name max).run h).bears ∅ ∅ (fun t ht => absurd ht
    (Finset.notMem_empty t)) fun t ht => absurd ht (Finset.notMem_empty t) with hlt | ⟨t, ht, -⟩
  · simp only [Finset.card_empty] at hlt
    omega
  · exact absurd ht (Finset.notMem_empty t)

/-! ### A run that attains it -/

/-- **No more joins are under way than there are threads.** -/
theorem throughout_atMost {ts : Finset τ} {acts : List (JoinAction τ)}
    (h : ∀ act ∈ acts, act.thread ∈ ts) {s : JoinSys τ} (hs : ∀ t, s.joining t = none)
    (id : String) : (machine S).Throughout (AtMost ts.card id) s acts := by
  intro pre hp
  have hrun : ∀ t ∉ ts, ((machine S).run s pre).joining t = none := by
    have halong : (machine S).Along (fun _ act => act.thread ∈ ts) s pre :=
      Machine.along_of_forall (P := fun act => act.thread ∈ ts)
        (fun act hact => h act (hp.subset hact)) s
    refine halong.run_inv (I := fun s => ∀ t ∉ ts, s.joining t = none) ?_ fun t _ => hs t
    intro s act hs hact t ht
    have hne : t ≠ act.thread := fun he => ht (he ▸ hact)
    exact ((steps s act).joining_of_ne hne).trans (hs t ht)
  refine fun ts' hts' => Finset.card_le_card fun t ht => ?_
  by_contra hnot
  have hnone := hrun t hnot
  rcases hts' t ht with ⟨u, m, i, n, hu⟩ | ⟨u, hu⟩
  · exact nomatch hnone.symm.trans hu
  · exact nomatch hnone.symm.trans hu

omit [DecidableEq τ] in
/-- The steps that a step stands for are of the same thread. -/
theorem thread_of_mem_expand {act : RoomAction τ} {act' : JoinAction τ}
    (h : act' ∈ expand S act) : act'.thread = act.thread := by
  cases act with
  | join t r u =>
    rcases List.mem_cons.1 h with rfl | h
    · rfl
    · rw [List.eq_of_mem_replicate h]
      rfl
  | insert t => rw [List.mem_singleton.1 h]; rfl
  | leave t r u => rw [List.mem_singleton.1 h]; rfl

/-- **How far a room can be overbooked.**  Of all runs in which at most `k`
joins of the room are under way at any time, none gives it more members than
its capacity and `k - 1`, and one gives it as many; however the members are
divided among shards. -/
theorem members_isGreatest [Infinite τ] (S : Shards String) (m : RoomManager) (id name : String)
    {max k : ℕ} (hmax : 0 < max) (hk : 0 < k) :
    IsGreatest {n | ∃ acts : List (JoinAction τ),
      (machine S).Throughout (AtMost k id) (opened m id name max) acts ∧
        (((machine S).run (opened m id name max) acts).mgr.members id).card = n}
      (max + k - 1) := by
  constructor
  · obtain ⟨ts, rfl⟩ := Infinite.exists_subset_card_eq τ k
    obtain ⟨acts, hthread, hcard⟩ := RoomSys.exists_overbooked hk hmax m id name
    have hopened : (opened m id name max : JoinSys τ) = ofRoomSys (RoomSys.opened m id name max) :=
      rfl
    refine ⟨acts.flatMap (expand S), throughout_atMost (fun act hact => ?_) (fun _ => rfl) id, ?_⟩
    · obtain ⟨act', hact', hmem⟩ := List.mem_flatMap.1 hact
      rw [thread_of_mem_expand hmem]
      exact hthread act' hact'
    · rw [hopened, run_expand]
      exact hcard
  · rintro n ⟨acts, hacts, rfl⟩
    exact card_le_of_throughout hk m id name max hacts

/-- Three joins at a time give a room for two four members, and no run gives it
five. -/
theorem members_isGreatest_three :
    IsGreatest {n | ∃ acts : List (JoinAction ℕ),
      (machine .byLength).Throughout (AtMost 3 "r") (opened RoomManager.new "r" "Small" 2) acts ∧
        (((machine .byLength).run (opened RoomManager.new "r" "Small" 2) acts).mgr.members
          "r").card = n} 4 :=
  members_isGreatest .byLength RoomManager.new "r" "Small" (by decide : 0 < 2) (by decide : 0 < 3)

end JoinSys
end Denshin
