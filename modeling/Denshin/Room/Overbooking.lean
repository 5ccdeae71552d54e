/-
# Overbooked rooms

Between the test of `join_room` and its insertion other threads may pass the
same test.  One free place is enough for all of them (`run_rush`), so a room
fills up to its last place and is then overbooked by all threads but one
(`exists_overbooked`).  `Denshin.Room.Counting` shows that it cannot be worse.
-/

import Denshin.Room.Capacity
import Mathlib.Data.Set.Finite.Basic

namespace Denshin

open Basis

/-- The thread that a step is of. -/
def RoomAction.thread {τ : Type*} : RoomAction τ → τ
  | .join t .. => t
  | .insert t => t
  | .leave t .. => t

namespace RoomSys

variable {τ : Type*} [DecidableEq τ]

/-- The joins of `ps` all pass their test, one after the other. -/
theorem run_joins {id : String} {max : ℕ} {ps : List (τ × String)} {s : RoomSys τ}
    (hroom : HasRoom id max s) (hlt : (s.mgr.members id).card < max)
    (hnodup : (ps.map Prod.fst).Nodup) (hidle : ∀ p ∈ ps, s.joining p.1 = none) :
    (machine.run s (ps.map fun p => .join p.1 id p.2)).mgr = s.mgr ∧
      (∀ p ∈ ps, (machine.run s (ps.map fun p => .join p.1 id p.2)).joining p.1 =
        some (id, p.2)) ∧
      ∀ t ∉ ps.map Prod.fst,
        (machine.run s (ps.map fun p => .join p.1 id p.2)).joining t = s.joining t := by
  induction ps generalizing s with
  | nil => exact ⟨rfl, fun p hp => absurd hp List.not_mem_nil, fun _ _ => rfl⟩
  | cons p ps ih =>
    obtain ⟨hp, hps⟩ := List.nodup_cons.1 hnodup
    have hstep : s.step (.join p.1 id p.2) =
        { s with joining := Function.update s.joining p.1 (some (id, p.2)) } := by
      simp only [step, hidle p List.mem_cons_self, hroom.admits_iff.2 hlt]
    have hself : (s.step (.join p.1 id p.2)).joining p.1 = some (id, p.2) := by
      rw [hstep]
      exact Function.update_self ..
    have hother : ∀ t, t ≠ p.1 → (s.step (.join p.1 id p.2)).joining t = s.joining t := by
      intro t ht
      rw [hstep]
      exact Function.update_of_ne ht ..
    have hidle' : ∀ q ∈ ps, (s.step (.join p.1 id p.2)).joining q.1 = none := by
      intro q hq
      have hq' : q.1 ∈ ps.map Prod.fst := List.mem_map_of_mem hq
      rw [hother q.1 (ne_of_mem_of_not_mem hq' hp)]
      exact hidle q (List.mem_cons_of_mem p hq)
    obtain ⟨hmgr, hjoin, hrest⟩ := ih (s := s.step (.join p.1 id p.2)) (hroom.step _)
      (by rwa [hstep]) hps hidle'
    refine ⟨hmgr.trans (by rw [hstep]), fun q hq => ?_, fun t ht => ?_⟩
    · rcases List.mem_cons.1 hq with rfl | hq
      · exact (hrest q.1 hp).trans hself
      · exact hjoin q hq
    · rw [List.map_cons, List.mem_cons, not_or] at ht
      exact (hrest t ht.2).trans (hother t ht.1)

/-- Then all insert, and no join is under way. -/
theorem run_inserts {id : String} {max : ℕ} {ps : List (τ × String)} {s : RoomSys τ}
    (hroom : HasRoom id max s) (hnodup : (ps.map Prod.fst).Nodup)
    (hjoin : ∀ p ∈ ps, s.joining p.1 = some (id, p.2))
    (hidle : ∀ t ∉ ps.map Prod.fst, s.joining t = none) :
    (machine.run s (ps.map fun p => .insert p.1)).mgr.members id =
        s.mgr.members id ∪ (ps.map Prod.snd).toFinset ∧
      ∀ t, (machine.run s (ps.map fun p => .insert p.1)).joining t = none := by
  induction ps generalizing s with
  | nil => exact ⟨(Finset.union_empty _).symm, fun t => hidle t List.not_mem_nil⟩
  | cons p ps ih =>
    obtain ⟨hp, hps⟩ := List.nodup_cons.1 hnodup
    have hstep : s.step (.insert p.1) =
        { mgr := s.mgr.insert id p.2
          joining := Function.update s.joining p.1 none
          log := s.log ++ [(p.1, .ok ())] } := by
      simp only [step, hjoin p List.mem_cons_self]
    have hmembers : (s.step (.insert p.1)).mgr.members id = insert p.2 (s.mgr.members id) := by
      obtain ⟨room, hlookup, -⟩ := hroom
      rw [hstep]
      exact (members_insert s.mgr id p.2 id hlookup).trans (if_pos rfl)
    have hjoin' : ∀ q ∈ ps, (s.step (.insert p.1)).joining q.1 = some (id, q.2) := by
      intro q hq
      have hq' : q.1 ∈ ps.map Prod.fst := List.mem_map_of_mem hq
      rw [hstep]
      exact (Function.update_of_ne (ne_of_mem_of_not_mem hq' hp) ..).trans
        (hjoin q (List.mem_cons_of_mem p hq))
    have hidle' : ∀ t ∉ ps.map Prod.fst, (s.step (.insert p.1)).joining t = none := by
      intro t ht
      rw [hstep]
      by_cases he : t = p.1
      · rw [he]
        exact Function.update_self ..
      · refine (Function.update_of_ne he ..).trans (hidle t ?_)
        rw [List.map_cons, List.mem_cons, not_or]
        exact ⟨he, ht⟩
    obtain ⟨hrun, hnone⟩ := ih (hroom.step (.insert p.1)) hps hjoin' hidle'
    refine ⟨?_, hnone⟩
    rw [List.map_cons, List.map_cons, List.toFinset_cons, Finset.union_insert,
      ← Finset.insert_union, ← hmembers]
    exact hrun

/-- All threads of `ps` pass the test, and then all insert. -/
def rush (id : String) (ps : List (τ × String)) : List (RoomAction τ) :=
  ps.map (fun p => .join p.1 id p.2) ++ ps.map fun p => .insert p.1

omit [DecidableEq τ] in
/-- The steps of a rush are of its threads. -/
theorem thread_of_mem_rush {id : String} {ps : List (τ × String)} {act : RoomAction τ}
    (h : act ∈ rush id ps) : act.thread ∈ ps.map Prod.fst := by
  rcases List.mem_append.1 h with h | h <;> obtain ⟨p, hp, rfl⟩ := List.mem_map.1 h <;>
    exact List.mem_map_of_mem hp

/-- **One free place is enough for all of a rush.** -/
theorem run_rush {id : String} {max : ℕ} (ps : List (τ × String)) {s : RoomSys τ}
    (hroom : HasRoom id max s) (hlt : (s.mgr.members id).card < max)
    (hnodup : (ps.map Prod.fst).Nodup) (hidle : ∀ t, s.joining t = none) :
    (machine.run s (rush id ps)).mgr.members id =
        s.mgr.members id ∪ (ps.map Prod.snd).toFinset ∧
      ∀ t, (machine.run s (rush id ps)).joining t = none := by
  obtain ⟨hmgr, hjoin, hrest⟩ := run_joins hroom hlt hnodup fun p _ => hidle p.1
  have hroom' := machine.run_inv (fun s act h => HasRoom.step (s := s) h act) hroom
    (ps.map fun p => .join p.1 id p.2)
  rw [rush, machine.run_append, ← hmgr]
  exact run_inserts hroom' hnodup hjoin fun t ht => (hrest t ht).trans (hidle t)

/-- One thread fills the room up to `n` members. -/
theorem exists_filled {id : String} {max : ℕ} (t : τ) {n : ℕ} (hn : n ≤ max) {s : RoomSys τ}
    (hroom : HasRoom id max s) (hempty : s.mgr.members id = ∅) (hidle : ∀ t, s.joining t = none) :
    ∃ acts : List (RoomAction τ), (∀ act ∈ acts, act.thread = t) ∧
      ((machine.run s acts).mgr.members id).card = n ∧
      ∀ t, (machine.run s acts).joining t = none := by
  induction n with
  | zero => exact ⟨[], fun act h => absurd h List.not_mem_nil, by simp [hempty], hidle⟩
  | succ n ih =>
    obtain ⟨acts, hthread, hcard, hidle'⟩ := ih (by omega)
    obtain ⟨u, hu⟩ := Infinite.exists_notMem_finset ((machine.run s acts).mgr.members id)
    have hroom' := machine.run_inv (fun s act h => HasRoom.step (s := s) h act) hroom acts
    obtain ⟨hmembers, hnone⟩ := run_rush [(t, u)] hroom' (by omega)
      (List.nodup_singleton t) hidle'
    refine ⟨acts ++ rush id [(t, u)], fun act hact => ?_, ?_, ?_⟩
    · rcases List.mem_append.1 hact with hact | hact
      · exact hthread act hact
      · exact List.mem_singleton.1 (thread_of_mem_rush hact)
    · rw [machine.run_append, hmembers]
      show ((machine.run s acts).mgr.members id ∪ {u}).card = n + 1
      rw [Finset.card_union_of_disjoint (Finset.disjoint_singleton_right.2 hu), hcard,
        Finset.card_singleton]
    · rw [machine.run_append]
      exact hnone

/-- **A room as overbooked as can be**: by all of `k` threads but one. -/
theorem exists_overbooked {ts : Finset τ} (hts : 0 < ts.card) {max : ℕ} (hmax : 0 < max)
    (m : RoomManager) (id name : String) :
    ∃ acts : List (RoomAction τ), (∀ act ∈ acts, act.thread ∈ ts) ∧
      ((machine.run (opened m id name max) acts).mgr.members id).card = max + ts.card - 1 := by
  obtain ⟨t, ht⟩ := Finset.card_pos.1 hts
  obtain ⟨fill, hthread, hcard, hidle⟩ := exists_filled t (Nat.sub_le max 1)
    (hasRoom_opened m id name max) (members_opened m id name max) fun _ => rfl
  obtain ⟨us, hus, huscard⟩ := Set.Infinite.exists_subset_card_eq
    ((machine.run (opened m id name max) fill).mgr.members id).finite_toSet.infinite_compl ts.card
  have hroom := machine.run_inv (fun s act h => HasRoom.step (s := s) h act)
    (hasRoom_opened m id name max) fill
  have hlen : ts.toList.length = us.toList.length := by
    rw [Finset.length_toList, Finset.length_toList, huscard]
  have hfst : (ts.toList.zip us.toList).map Prod.fst = ts.toList := List.map_fst_zip hlen.le
  have hsnd : (ts.toList.zip us.toList).map Prod.snd = us.toList := List.map_snd_zip hlen.ge
  obtain ⟨hmembers, -⟩ := run_rush (ts.toList.zip us.toList) hroom (by omega)
    (by rw [hfst]; exact ts.nodup_toList) hidle
  refine ⟨fill ++ rush id (ts.toList.zip us.toList), fun act hact => ?_, ?_⟩
  · rcases List.mem_append.1 hact with hact | hact
    · rw [hthread act hact]
      exact ht
    · have hmem := thread_of_mem_rush hact
      rw [hfst] at hmem
      exact Finset.mem_toList.1 hmem
  · have hdisj : Disjoint ((machine.run (opened m id name max) fill).mgr.members id) us :=
      Finset.disjoint_right.2 fun u hu => hus hu
    rw [machine.run_append, hmembers, hsnd, Finset.toList_toFinset,
      Finset.card_union_of_disjoint hdisj, hcard, huscard]
    omega

end RoomSys
end Denshin
