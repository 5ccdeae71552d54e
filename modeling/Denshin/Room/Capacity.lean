/-
# Capacity under concurrent joins

`join_room` takes `&self` and is called from many threads.  Its test of the
number of members and its insertion are two operations on a concurrent set,
made under a guard that other threads share, so between them other threads may
join and leave: a thread that has passed the test is between `join` and
`insert` here.  `leave_room` is one operation.  Without another thread in
between, the two steps are the method (`join_insert`).

Two threads can pass the test for the last free place and both insert
(`overbooked`).  The capacity holds all along a run in which a test is passed
only while nobody else has passed it and not inserted, or while there is a place
for all of these (`capacity_held_of_apart`).  Nothing less will do: whenever a
test is passed otherwise, the threads that have passed it need only insert to
overbook the room.
-/

import Denshin.Basis.Machine
import Denshin.Room.Manager
import Mathlib.Logic.Function.Basic

namespace Denshin

open Basis

/-- A step of a thread: the test of a join, its insertion, or a leave. -/
inductive RoomAction (τ : Type*)
  | join (t : τ) (roomId userId : String)
  | insert (t : τ)
  | leave (t : τ) (roomId userId : String)

/-- The rooms, the join each thread is in the middle of, and what the calls
returned so far. -/
structure RoomSys (τ : Type*) where
  mgr : RoomManager
  joining : τ → Option (String × String)
  log : List (τ × Except RoomError Unit)

/-- The members of a room, none if it does not exist. -/
def RoomManager.members (m : RoomManager) (roomId : String) : Finset String :=
  (m.rooms.lookup roomId).elim ∅ Room.members

namespace RoomSys

variable {τ : Type*} [DecidableEq τ]

/-- Nothing has been called yet. -/
def start (m : RoomManager) : RoomSys τ := ⟨m, fun _ => none, []⟩

/-- One step; a step of a thread that is elsewhere does nothing. -/
def step (s : RoomSys τ) : RoomAction τ → RoomSys τ
  | .join t r u =>
    match s.joining t with
    | none =>
      match s.mgr.admits r with
      | .ok () => { s with joining := Function.update s.joining t (some (r, u)) }
      | .error e => { s with log := s.log ++ [(t, .error e)] }
    | some _ => s
  | .insert t =>
    match s.joining t with
    | some (r, u) =>
      { mgr := s.mgr.insert r u
        joining := Function.update s.joining t none
        log := s.log ++ [(t, .ok ())] }
    | none => s
  | .leave t r u =>
    match s.joining t with
    | none =>
      { s with
        mgr := (s.mgr.leaveRoom r u).1
        log := s.log ++ [(t, (s.mgr.leaveRoom r u).2)] }
    | some _ => s

/-- A run is any list of steps. -/
def machine : Machine (RoomSys τ) (RoomAction τ) Unit := ⟨fun s a => (s.step a, ())⟩

/-- **The two steps of a join are the method**, when they follow each other. -/
theorem join_insert (s : RoomSys τ) {t : τ} (ht : s.joining t = none) (r u : String) :
    (machine.run s [.join t r u, .insert t]).mgr = (s.mgr.joinRoom r u).1 ∧
      (machine.run s [.join t r u, .insert t]).log = s.log ++ [(t, (s.mgr.joinRoom r u).2)] := by
  cases ha : s.mgr.admits r with
  | error e => simp [machine, Machine.run, step, RoomManager.joinRoom, ht, ha]
  | ok _ => simp [machine, Machine.run, step, RoomManager.joinRoom, ht, ha]

/-! ### What a step does to one room -/

/-- The room is there, with the given capacity. -/
def HasRoom (id : String) (max : ℕ) (s : RoomSys τ) : Prop :=
  ∃ room, s.mgr.rooms.lookup id = some room ∧ room.maxMembers = some max

section Rooms

omit [DecidableEq τ]

/-- Which members every room has after an insertion. -/
theorem members_insert (m : RoomManager) (r u id : String) {room : Room}
    (h : m.rooms.lookup id = some room) :
    (m.insert r u).members id =
      if id = r then Insert.insert u (m.members id) else m.members id := by
  unfold RoomManager.members
  rw [RoomManager.lookup_insert]
  split_ifs with hr
  · rw [← hr, h]
    rfl
  · rfl

/-- A leave adds no member. -/
theorem members_leaveRoom (m : RoomManager) (r u id : String) :
    ((m.leaveRoom r u).1).members id ⊆ m.members id := by
  unfold RoomManager.leaveRoom
  cases hr : m.rooms.lookup r with
  | none => exact Finset.Subset.refl _
  | some room =>
    unfold RoomManager.members
    rw [RoomManager.lookup_remove, hr]
    split_ifs with hid
    · rw [hid, hr]
      exact Finset.erase_subset _ _
    · exact Finset.Subset.refl _

end Rooms

/-- **What a step does to the rooms**: nothing, the insertion of a join, or a
leave. -/
theorem mgr_step (s : RoomSys τ) (act : RoomAction τ) :
    (s.step act).mgr = s.mgr ∨
      (∃ t r u, act = .insert t ∧ s.joining t = some (r, u) ∧
        (s.step act).mgr = s.mgr.insert r u ∧ (s.step act).log = s.log ++ [(t, .ok ())]) ∨
      ∃ t r u, act = .leave t r u ∧ (s.step act).mgr = (s.mgr.leaveRoom r u).1 ∧
        (s.step act).log = s.log ++ [(t, (s.mgr.leaveRoom r u).2)] := by
  cases act with
  | join t r u =>
    left
    simp only [step]
    cases s.joining t with
    | some p => rfl
    | none => cases s.mgr.admits r <;> rfl
  | insert t =>
    simp only [step]
    cases ht : s.joining t with
    | none => exact Or.inl rfl
    | some p => exact Or.inr (Or.inl ⟨t, p.1, p.2, rfl, ht, rfl, rfl⟩)
  | leave t r u =>
    simp only [step]
    cases s.joining t with
    | some p => exact Or.inl rfl
    | none => exact Or.inr (Or.inr ⟨t, r, u, rfl, rfl, rfl⟩)

/-- **A room stays, with its capacity**, whatever threads do. -/
theorem HasRoom.step {id : String} {max : ℕ} {s : RoomSys τ} (h : HasRoom id max s)
    (act : RoomAction τ) : HasRoom id max (s.step act) := by
  obtain ⟨room, hroom, hmax⟩ := h
  unfold HasRoom
  rcases mgr_step s act with hmgr | ⟨t, r, u, -, -, hmgr, -⟩ | ⟨t, r, u, -, hmgr, -⟩ <;> rw [hmgr]
  · exact ⟨room, hroom, hmax⟩
  · rw [RoomManager.lookup_insert]
    split_ifs with hid
    · rw [← hid, hroom]
      exact ⟨_, rfl, hmax⟩
    · exact ⟨room, hroom, hmax⟩
  · unfold RoomManager.leaveRoom
    cases s.mgr.rooms.lookup r with
    | none => exact ⟨room, hroom, hmax⟩
    | some room' =>
      simp only [RoomManager.lookup_remove]
      split_ifs with hid
      · rw [← hid, hroom]
        exact ⟨_, rfl, hmax⟩
      · exact ⟨room, hroom, hmax⟩

/-- **Only an insertion adds a member.** -/
theorem members_step {id : String} {max : ℕ} {s : RoomSys τ} (h : HasRoom id max s)
    (act : RoomAction τ) :
    (s.step act).mgr.members id ⊆ s.mgr.members id ∨
      ∃ t u, act = .insert t ∧ s.joining t = some (id, u) ∧
        (s.step act).mgr.members id = Insert.insert u (s.mgr.members id) := by
  obtain ⟨room, hroom, -⟩ := h
  rcases mgr_step s act with hmgr | ⟨t, r, u, hact, ht, hmgr, -⟩ | ⟨t, r, u, -, hmgr, -⟩
  · rw [hmgr]
    exact Or.inl (Finset.Subset.refl _)
  · have hmembers := members_insert s.mgr r u id hroom
    rw [← hmgr] at hmembers
    split_ifs at hmembers with hid
    · exact Or.inr ⟨t, u, hact, by rw [ht, hid], hmembers⟩
    · exact Or.inl hmembers.le
  · rw [hmgr]
    exact Or.inl (members_leaveRoom s.mgr r u id)

/-! ### The bound -/

omit [DecidableEq τ] in
/-- What the test says of the room. -/
theorem HasRoom.admits_iff {id : String} {max : ℕ} {s : RoomSys τ} (h : HasRoom id max s) :
    s.mgr.admits id = .ok () ↔ (s.mgr.members id).card < max := by
  obtain ⟨room, hroom, hmax⟩ := h
  rw [RoomManager.admits_eq_ok_iff hroom hmax, RoomManager.members, hroom, Option.elim_some]

/-- The user has passed the test of the room, and has yet to be inserted. -/
def Pending (id : String) (s : RoomSys τ) (u : String) : Prop :=
  ∃ t, s.joining t = some (id, u)

/-- The room has places for its members and all users of `P`. -/
def Places (id : String) (max : ℕ) (s : RoomSys τ) (P : String → Prop) : Prop :=
  ∀ us : Finset String, (∀ u ∈ us, P u) → (s.mgr.members id ∪ us).card ≤ max

/-- A join of the room that passes the test does so while no other user is
pending, or while there are places for all pending users and its own. -/
def Apart (id : String) (max : ℕ) (s : RoomSys τ) : RoomAction τ → Prop
  | .join t r u => r = id → s.joining t = none → s.mgr.admits id = .ok () →
      (∀ v, Pending id s v → v = u) ∨ Places id max s fun v => Pending id s v ∨ v = u
  | _ => True

/-- The room has places for its members and all who are pending. -/
structure Booked (id : String) (max : ℕ) (s : RoomSys τ) : Prop where
  hasRoom : HasRoom id max s
  places : Places id max s (Pending id s)

omit [DecidableEq τ] in
/-- A booked room is within its capacity. -/
theorem Booked.card_le {id : String} {max : ℕ} {s : RoomSys τ} (h : Booked id max s) :
    (s.mgr.members id).card ≤ max := by
  have hnone := h.places ∅ fun u hu => absurd hu (Finset.notMem_empty u)
  rwa [Finset.union_empty] at hnone

/-- Who is pending after a join has passed the test. -/
theorem pending_join {id : String} {s : RoomSys τ} {t : τ} (ht : s.joining t = none)
    (r u v : String) :
    Pending id { s with joining := Function.update s.joining t (some (r, u)) } v ↔
      Pending id s v ∨ r = id ∧ v = u := by
  constructor
  · rintro ⟨t', ht'⟩
    simp only [Function.update_apply] at ht'
    split_ifs at ht'
    · obtain ⟨rfl, rfl⟩ := Prod.mk.inj (Option.some.inj ht')
      exact Or.inr ⟨rfl, rfl⟩
    · exact Or.inl ⟨t', ht'⟩
  · rintro (⟨t', ht'⟩ | ⟨rfl, rfl⟩)
    · refine ⟨t', (Function.update_of_ne ?_ ..).trans ht'⟩
      rintro rfl
      exact absurd (ht.symm.trans ht') (Option.some_ne_none _).symm
    · exact ⟨t, Function.update_self ..⟩

/-- Nobody is pending after an insertion who was not before it. -/
theorem pending_of_insert {id : String} {s : RoomSys τ} {t : τ} {v : String}
    (h : ∃ t', Function.update s.joining t none t' = some (id, v)) : Pending id s v := by
  obtain ⟨t', ht'⟩ := h
  rw [Function.update_apply] at ht'
  split_ifs at ht'
  exact ⟨t', ht'⟩

/-- **A join that passes its test apart from others finds a place.** -/
theorem Booked.step {id : String} {max : ℕ} {s : RoomSys τ} (h : Booked id max s)
    {act : RoomAction τ} (hact : Apart id max s act) : Booked id max (s.step act) := by
  refine ⟨h.hasRoom.step act, ?_⟩
  cases act with
  | join t r u =>
    rcases ht : s.joining t with _ | p
    · rcases ha : s.mgr.admits r with e | _
      · simp only [RoomSys.step, ht, ha]
        exact h.places
      · simp only [RoomSys.step, ht, ha]
        intro us hus
        by_cases hr : r = id
        · subst hr
          rcases hact rfl ht ha with hone | hplaces
          · -- Only `u` is pending, and the test has found a place for it.
            have hsub : s.mgr.members r ∪ us ⊆ insert u (s.mgr.members r) := by
              refine Finset.union_subset (Finset.subset_insert _ _) fun v hv => ?_
              rcases (pending_join ht r u v).1 (hus v hv) with hv | ⟨-, rfl⟩
              · rw [hone v hv]
                exact Finset.mem_insert_self u _
              · exact Finset.mem_insert_self v _
            have hlt := h.hasRoom.admits_iff.1 ha
            exact (Finset.card_le_card hsub).trans ((Finset.card_insert_le _ _).trans hlt)
          · exact hplaces us fun v hv =>
              ((pending_join ht r u v).1 (hus v hv)).imp_right And.right
        · exact h.places us fun v hv =>
            ((pending_join ht r u v).1 (hus v hv)).resolve_right fun hru => hr hru.1
    · simp only [RoomSys.step, ht]
      exact h.places
  | insert t =>
    rcases ht : s.joining t with _ | ⟨r, u⟩
    · simp only [RoomSys.step, ht]
      exact h.places
    · simp only [RoomSys.step, ht]
      intro us hus
      have hus' : ∀ v ∈ us, Pending id s v := fun v hv => pending_of_insert (hus v hv)
      obtain ⟨room, hroom, -⟩ := h.hasRoom
      show ((s.mgr.insert r u).members id ∪ us).card ≤ max
      rw [members_insert s.mgr r u id hroom]
      split_ifs with hid
      · -- The user inserted was pending.
        subst hid
        have hplaces := h.places (insert u us) fun v hv => by
          rcases Finset.mem_insert.1 hv with rfl | hv
          · exact ⟨t, ht⟩
          · exact hus' v hv
        rwa [Finset.union_insert, ← Finset.insert_union] at hplaces
      · exact h.places us hus'
  | leave t r u =>
    have hjoining : (s.step (.leave t r u)).joining = s.joining := by
      simp only [RoomSys.step]
      cases s.joining t <;> rfl
    have hsub : (s.step (.leave t r u)).mgr.members id ⊆ s.mgr.members id := by
      rcases members_step h.hasRoom (.leave t r u) with hsub | ⟨_, _, he, -⟩
      · exact hsub
      · exact nomatch he
    intro us hus
    have hus' : ∀ v ∈ us, Pending id s v := by
      intro v hv
      obtain ⟨t', ht'⟩ := hus v hv
      exact ⟨t', hjoining ▸ ht'⟩
    exact (Finset.card_le_card (Finset.union_subset_union_left hsub)).trans (h.places us hus')

/-- **All who are pending can insert**, one after the other. -/
theorem exists_inserts {id : String} {max : ℕ} {us : Finset String} {s : RoomSys τ}
    (hroom : HasRoom id max s) (hus : ∀ u ∈ us, Pending id s u) :
    ∃ ts : List τ,
      s.mgr.members id ∪ us ⊆ (machine.run s (ts.map .insert)).mgr.members id := by
  induction us using Finset.induction_on generalizing s with
  | empty => exact ⟨[], (Finset.union_empty _).subset⟩
  | insert u us hu ih =>
    obtain ⟨t, ht⟩ := hus u (Finset.mem_insert_self u us)
    have hstep : s.step (.insert t) =
        { mgr := s.mgr.insert id u
          joining := Function.update s.joining t none
          log := s.log ++ [(t, .ok ())] } := by
      simp only [step, ht]
    have hpending : ∀ v ∈ us, Pending id (s.step (.insert t)) v := by
      intro v hv
      obtain ⟨t', ht'⟩ := hus v (Finset.mem_insert_of_mem hv)
      rw [hstep]
      refine ⟨t', (Function.update_of_ne ?_ ..).trans ht'⟩
      rintro rfl
      obtain ⟨-, rfl⟩ := Prod.mk.inj (Option.some.inj (ht.symm.trans ht'))
      exact hu hv
    obtain ⟨ts, hts⟩ := ih (hroom.step (.insert t)) hpending
    obtain ⟨room, hlookup, -⟩ := hroom
    have hmembers : (s.step (.insert t)).mgr.members id = insert u (s.mgr.members id) := by
      rw [hstep]
      exact (members_insert s.mgr id u id hlookup).trans (if_pos rfl)
    refine ⟨t :: ts, ?_⟩
    rw [Finset.union_insert, ← Finset.insert_union, ← hmembers]
    exact hts

/-- **A test that is passed while others are pending, without places for all**,
can overbook the room. -/
theorem exists_overbooked_of_not_apart {id : String} {max : ℕ} {s : RoomSys τ}
    (hroom : HasRoom id max s) {act : RoomAction τ} (h : ¬ Apart id max s act) :
    ∃ ts : List τ, max < ((machine.run s (act :: ts.map .insert)).mgr.members id).card := by
  cases act with
  | join t r u =>
    simp only [Apart, Classical.not_imp, not_or, Places, not_forall, not_le] at h
    obtain ⟨rfl, ht, ha, -, us, hus, hlt⟩ := h
    have hstep : s.step (.join t r u) =
        { s with joining := Function.update s.joining t (some (r, u)) } := by
      simp only [step, ht, ha]
    have hpending : ∀ v ∈ us, Pending r (s.step (.join t r u)) v := by
      intro v hv
      rw [hstep]
      exact (pending_join ht r u v).2 ((hus v hv).imp_right fun he => ⟨rfl, he⟩)
    obtain ⟨ts, hts⟩ := exists_inserts (hroom.step (.join t r u)) hpending
    refine ⟨ts, hlt.trans_le (Finset.card_le_card ?_)⟩
    rw [hstep] at hts
    rw [Machine.run_cons]
    show _ ⊆ (machine.run (s.step (.join t r u)) _).mgr.members r
    rw [hstep]
    exact hts
  | _ => exact absurd trivial h

/-- A step that returns an error changes no room. -/
theorem mgr_of_error {s : RoomSys τ} {act : RoomAction τ} {t : τ} {e : RoomError}
    (h : (s.step act).log = s.log ++ [(t, .error e)]) : (s.step act).mgr = s.mgr := by
  rcases mgr_step s act with hmgr | ⟨t', r, u, -, -, -, hlog⟩ | ⟨t', r, u, -, hmgr, hlog⟩
  · exact hmgr
  · have hsame := hlog.symm.trans h
    exact absurd hsame (by simp)
  · have herr : t' = t ∧ (s.mgr.leaveRoom r u).2 = .error e := by simpa using hlog.symm.trans h
    rw [hmgr]
    exact RoomManager.leaveRoom_of_error herr.2

/-- The rooms of a manager, and one more of a given capacity. -/
def opened (m : RoomManager) (id name : String) (max : ℕ) : RoomSys τ :=
  start (m.createRoom (Room.withCapacity id name max)).1

omit [DecidableEq τ] in
/-- The room is there, -/
theorem hasRoom_opened (m : RoomManager) (id name : String) (max : ℕ) :
    HasRoom id max (opened m id name max : RoomSys τ) :=
  ⟨Room.withCapacity id name max, Finmap.lookup_insert _, rfl⟩

omit [DecidableEq τ] in
/-- empty, -/
theorem members_opened (m : RoomManager) (id name : String) (max : ℕ) :
    (opened m id name max : RoomSys τ).mgr.members id = ∅ := by
  unfold RoomManager.members opened start RoomManager.createRoom
  simp only [Room.withCapacity, Finmap.lookup_insert, Option.elim_some]

omit [DecidableEq τ] in
/-- and nobody is pending. -/
theorem booked_opened (m : RoomManager) (id name : String) (max : ℕ) :
    Booked id max (opened m id name max : RoomSys τ) := by
  refine ⟨hasRoom_opened m id name max, fun us hus => ?_⟩
  obtain rfl : us = ∅ := Finset.eq_empty_of_forall_notMem fun u hu =>
    (hus u hu).elim fun _ ht => Option.some_ne_none _ ht.symm
  rw [members_opened]
  exact Nat.zero_le max

/-- **When the capacity holds.**  In every run of joins and leaves of any number
of threads in which a join passes its test only apart from others, or with
places for all, the room never holds more than its maximal number of members.
In no run does a call that returns an error change a room.  And whenever a join
passes its test otherwise, the insertions that are pending then are enough to
overbook the room. -/
theorem capacity_held_of_apart (m : RoomManager) (id name : String) (max : ℕ)
    (acts : List (RoomAction τ)) :
    let s₀ : RoomSys τ := opened m id name max
    (machine.Along (Apart id max) s₀ acts → ∀ pre, pre <+: acts →
      ((machine.run s₀ pre).mgr.members id).card ≤ max) ∧
    (∀ pre act t e, pre ++ [act] <+: acts →
      (machine.run s₀ (pre ++ [act])).log = (machine.run s₀ pre).log ++ [(t, .error e)] →
      (machine.run s₀ (pre ++ [act])).mgr = (machine.run s₀ pre).mgr) ∧
    ∀ act, ¬ Apart id max (machine.run s₀ acts) act → ∃ ts : List τ,
      max < ((machine.run s₀ (acts ++ act :: ts.map .insert)).mgr.members id).card := by
  intro s₀
  refine ⟨fun h pre hpre => ?_, fun pre act t e _ h => ?_, fun act h => ?_⟩
  · have hbooked := (h.of_prefix hpre).run_inv (I := Booked id max)
      (fun s act hs hact => hs.step hact) (booked_opened m id name max)
    exact hbooked.card_le
  · rw [machine.run_append] at h ⊢
    exact mgr_of_error h
  · have hroom := machine.run_inv (fun s act h => HasRoom.step (s := s) h act)
      (hasRoom_opened m id name max) acts
    obtain ⟨ts, hts⟩ := exists_overbooked_of_not_apart hroom h
    refine ⟨ts, ?_⟩
    rw [machine.run_append]
    exact hts

/-- Two joins for two places at a time, and one that finds the room full. -/
def twoPlaces : List (RoomAction ℕ) :=
  [.join 0 "r" "a", .join 1 "r" "b", .insert 0, .insert 1, .join 0 "r" "c"]

/-- The bound holds all along this run. -/
theorem capacity_held_of_apart_twoPlaces : ∀ pre, pre <+: twoPlaces →
    ((machine.run (opened RoomManager.new "r" "Small" 2) pre : RoomSys ℕ).mgr.members "r").card ≤
      2 := by
  refine (capacity_held_of_apart RoomManager.new "r" "Small" 2 twoPlaces).1 ⟨?_, ?_, ?_⟩
  · exact fun _ _ _ => Or.inl fun v hv => hv.elim fun _ ht => absurd ht (by simp [opened, start])
  · -- A place for `b` beside `a`, who is pending.
    refine fun _ _ _ => Or.inr fun us hus => ?_
    have hsub : us ⊆ {"a", "b"} := by
      intro v hv
      rcases hus v hv with hpending | rfl
      · rcases (pending_join rfl "r" "a" v).1 hpending with ⟨t, ht⟩ | ⟨-, rfl⟩
        · exact absurd ht (by simp [opened, start])
        · decide
      · decide
    exact (Finset.card_le_card (Finset.union_subset (Finset.empty_subset _) hsub)).trans (by decide)
  · exact ⟨trivial, trivial, fun _ _ h => absurd h (by decide), trivial⟩

/-- **A room overbooked.**  Two threads test a room for one, and then both
insert; both joins return `Ok`. -/
theorem overbooked :
    ((machine.run (opened RoomManager.new "r" "Small" 1)
      [.join 0 "r" "a", .join 1 "r" "b", .insert 0, .insert 1] : RoomSys ℕ).mgr.members "r").card =
        2 ∧
      (machine.run (opened RoomManager.new "r" "Small" 1)
        [.join 0 "r" "a", .join 1 "r" "b", .insert 0, .insert 1] : RoomSys ℕ).log =
          [(0, .ok ()), (1, .ok ())] ∧
      ¬ ∀ (m : RoomManager) (id name : String) (max : ℕ) (acts : List (RoomAction ℕ)),
        ((machine.run (opened m id name max) acts).mgr.members id).card ≤ max := by
  have hcard : ((machine.run (opened RoomManager.new "r" "Small" 1)
      [.join 0 "r" "a", .join 1 "r" "b", .insert 0, .insert 1] : RoomSys ℕ).mgr.members "r").card =
        2 := by decide
  refine ⟨hcard, rfl, fun hall => ?_⟩
  have hle := hall RoomManager.new "r" "Small" 1
    [.join 0 "r" "a", .join 1 "r" "b", .insert 0, .insert 1]
  omega

end RoomSys
end Denshin
