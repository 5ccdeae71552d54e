/-
# Readers-writer locks

Who holds a readers-writer lock: any number of readers or one writer, never
both (`exclusive`).  `read` and `write` are the two ways to acquire it, `none`
where the caller has to wait; `release` gives it back.  Nothing is said about
who is let in first.
-/

import Mathlib.Data.Finset.Basic

namespace Basis

universe u

/-- The holders of a readers-writer lock. -/
structure RwLock (τ : Type u) where
  readers : Finset τ
  writer : Option τ
  exclusive : writer = none ∨ readers = ∅

namespace RwLock

variable {τ : Type u}

/-- Nobody holds the lock. -/
def free : RwLock τ := ⟨∅, none, Or.inl rfl⟩

/-- While somebody reads, nobody writes. -/
theorem writer_of_mem_readers {l : RwLock τ} {t : τ} (h : t ∈ l.readers) : l.writer = none := by
  rcases l.exclusive with hw | hr
  · exact hw
  · rw [hr] at h
    exact absurd h (Finset.notMem_empty t)

variable [DecidableEq τ]

/-- Acquire the lock for reading: possible while there is no writer. -/
def read (l : RwLock τ) (t : τ) : Option (RwLock τ) :=
  if l.writer = none then some ⟨insert t l.readers, none, Or.inl rfl⟩ else none

/-- Acquire the lock for writing: possible while nobody holds it. -/
def write (l : RwLock τ) (t : τ) : Option (RwLock τ) :=
  if l.writer = none ∧ l.readers = ∅ then some ⟨∅, some t, Or.inr rfl⟩ else none

/-- Give the lock back. -/
def release (l : RwLock τ) (t : τ) : RwLock τ where
  readers := l.readers.erase t
  writer := if l.writer = some t then none else l.writer
  exclusive := by
    rcases l.exclusive with h | h
    · left
      simp [h]
    · right
      rw [h, Finset.erase_empty]

/-- A reader gets the lock if no writer holds it, and joins the other readers. -/
theorem read_eq_some {l l' : RwLock τ} {t : τ} (h : l.read t = some l') :
    l.writer = none ∧ l'.writer = none ∧ l'.readers = insert t l.readers := by
  unfold read at h
  split_ifs at h with hw
  obtain rfl := Option.some.inj h
  exact ⟨hw, rfl, rfl⟩

/-- A writer gets the lock if nobody holds it, and is alone then. -/
theorem write_eq_some {l l' : RwLock τ} {t : τ} (h : l.write t = some l') :
    l.writer = none ∧ l.readers = ∅ ∧ l'.writer = some t ∧ l'.readers = ∅ := by
  unfold write at h
  split_ifs at h with hw
  obtain rfl := Option.some.inj h
  exact ⟨hw.1, hw.2, rfl, rfl⟩

/-- Who still reads after a release. -/
theorem mem_readers_release {l : RwLock τ} {t u : τ} :
    u ∈ (l.release t).readers ↔ u ≠ t ∧ u ∈ l.readers := Finset.mem_erase

/-- Who still writes after a release. -/
theorem writer_release {l : RwLock τ} {t u : τ} :
    (l.release t).writer = some u ↔ u ≠ t ∧ l.writer = some u := by
  show (if l.writer = some t then none else l.writer) = some u ↔ _
  split_ifs with h
  · refine iff_of_false nofun ?_
    rintro ⟨hne, hu⟩
    exact hne (Option.some.inj (hu.symm.trans h))
  · refine ⟨fun hu => ⟨?_, hu⟩, And.right⟩
    rintro rfl
    exact h hu

end RwLock
end Basis
