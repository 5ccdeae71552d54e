/-
# Who holds the lock of a guarded state

The lock is held by the tasks that are where they hold it (`Held`): shared from
the acquisition of a reading call to its return, exclusively from that of a
writing call.  So while a task writes, no other reads or writes (`Held.alone`).
-/

import Denshin.Basis.Guarded

namespace Basis

variable {σ ω τ α β γ ι ν ρ : Type*}

namespace Service

variable {S : Service σ ω α β γ ι ν ρ} [DecidableEq τ]

/-- The lock is held by the tasks that are where they hold it. -/
structure Held (lock : RwLock τ) (task : τ → Phase α β ι ρ) : Prop where
  readers : ∀ t, t ∈ lock.readers ↔ (task t).Reads
  writer : ∀ t, lock.writer = some t ↔ (task t).Writes

section Held

variable {lock lock' : RwLock τ} {task : τ → Phase α β ι ρ} (h : Held lock task) {t : τ}

include h

omit [DecidableEq τ] in
/-- While a task writes, no other holds the lock. -/
theorem Held.alone {u : τ} (ht : (task t).Writes) (hu : u ≠ t) :
    ¬ (task u).Reads ∧ ¬ (task u).Writes := by
  have hw : lock.writer = some t := (h.writer t).2 ht
  constructor
  · intro hr
    have hfree := RwLock.writer_of_mem_readers ((h.readers u).2 hr)
    exact nomatch hw.symm.trans hfree
  · intro hu'
    exact hu (Option.some.inj (((h.writer u).2 hu').symm.trans hw))

omit [DecidableEq τ] in
/-- While the lock has no writer, no task writes. -/
theorem Held.not_writing (hfree : lock.writer = none) (u : τ) (id : ℕ) (a : α) :
    task u ≠ .writing id a := by
  intro hu
  have hw := (h.writer u).2 (by rw [hu]; trivial)
  exact nomatch hfree.symm.trans hw

/-- A task goes on with the lock as it is. -/
theorem Held.stay {p q : Phase α β ι ρ} (ht : task t = q) (hr : p.Reads ↔ q.Reads)
    (hw : p.Writes ↔ q.Writes) : Held lock (Function.update task t p) := by
  subst ht
  constructor <;> intro u <;> rw [Function.update_apply] <;> split_ifs with hu
  · subst hu
    exact (h.readers u).trans hr.symm
  · exact h.readers u
  · subst hu
    exact (h.writer u).trans hw.symm
  · exact h.writer u

/-- A task gives the lock back. -/
theorem Held.release {p : Phase α β ι ρ} (hr : ¬ p.Reads) (hw : ¬ p.Writes) :
    Held (lock.release t) (Function.update task t p) := by
  constructor <;> intro u <;> rw [Function.update_apply]
  · rw [RwLock.mem_readers_release]
    split_ifs with hu
    · exact iff_of_false (fun hu' => hu'.1 hu) hr
    · rw [and_iff_right hu]
      exact h.readers u
  · rw [RwLock.writer_release]
    split_ifs with hu
    · exact iff_of_false (fun hu' => hu'.1 hu) hw
    · rw [and_iff_right hu]
      exact h.writer u

/-- A task acquires the lock for reading. -/
theorem Held.read {p : Phase α β ι ρ} (hl : lock.read t = some lock') (hr : p.Reads)
    (hw : ¬ p.Writes) : Held lock' (Function.update task t p) := by
  obtain ⟨hfree, hw', hr'⟩ := RwLock.read_eq_some hl
  constructor <;> intro u <;> rw [Function.update_apply]
  · rw [hr', Finset.mem_insert]
    split_ifs with hu
    · exact iff_of_true (Or.inl hu) hr
    · rw [or_iff_right hu]
      exact h.readers u
  · rw [hw', ← hfree]
    split_ifs with hu
    · exact iff_of_false (by rw [hfree]; exact nofun) hw
    · exact h.writer u

/-- A task acquires the lock for writing. -/
theorem Held.write {p : Phase α β ι ρ} (hl : lock.write t = some lock') (hr : ¬ p.Reads)
    (hw : p.Writes) : Held lock' (Function.update task t p) := by
  obtain ⟨hfree, hnone, hw', hr'⟩ := RwLock.write_eq_some hl
  constructor <;> intro u <;> rw [Function.update_apply]
  · rw [hr', ← hnone]
    split_ifs with hu
    · exact iff_of_false (by rw [hnone]; exact Finset.notMem_empty u) hr
    · exact h.readers u
  · rw [hw']
    split_ifs with hu
    · exact iff_of_true (by rw [hu]) hw
    · refine iff_of_false (fun he => hu (Option.some.inj he).symm) ?_
      rw [← h.writer, hfree]
      exact nofun

end Held

/-- **Every step leaves the lock with those who are in a call.** -/
theorem Step.held {s s' : Sys σ ω τ α β ι ν ρ} (hs : S.Step s s') (h : Held s.lock s.task) :
    Held s'.lock s'.task := by
  cases hs with
  | invoke t call ht => exact h.stay ht Iff.rfl Iff.rfl
  | acquireWrite t id a lock ht hl => exact h.write hl not_false trivial
  | acquireRead t id b lock ht hl => exact h.read hl trivial not_false
  | update t id a ht => exact h.stay ht Iff.rfl Iff.rfl
  | start t id b ht => exact h.stay ht Iff.rfl Iff.rfl
  | visit t id b i rest n ht => exact h.stay ht Iff.rfl Iff.rfl
  | returnWrite t id r ht => exact h.release not_false not_false
  | returnRead t id b n ht => exact h.release not_false not_false
  | client g => exact h

end Service
end Basis
