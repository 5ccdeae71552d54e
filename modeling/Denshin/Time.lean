/-
# Clock readings and durations

`std::time::Instant` on 64-bit Unix is an `i64` of seconds and nanoseconds in
`[0, 10^9)`, `std::time::Duration` a `u64` of seconds and nanoseconds in the
same range.  Both compare lexicographically.  `Instant - Duration` subtracts
with a borrow and is checked: `Instant.checkedSub` is `none` where the operator
panics.  `Instant - Instant` (`Instant.durationSince`) saturates at zero.

The pairs are counted in nanoseconds by `toNanos`, which turns order and
subtraction into those of `ℤ`.  The checked subtraction succeeds exactly when
the count stays above that of the smallest `Instant` (`checkedSub_isSome_iff`).
-/

import Mathlib.Algebra.Ring.Int.Defs
import Mathlib.Algebra.Ring.Nat
import Mathlib.Data.Int.Order.Basic
import Mathlib.Tactic.SplitIfs

namespace Denshin

/-- `NSEC_PER_SEC`. -/
def nsecPerSec : ℕ := 1000000000

/-- `std::time::Duration`. -/
structure Duration where
  secs : ℕ
  nanos : ℕ
  secs_lt : secs < 2 ^ 64
  nanos_lt : nanos < nsecPerSec
deriving DecidableEq

/-- `std::time::Instant` on 64-bit Unix. -/
structure Instant where
  secs : ℤ
  nanos : ℕ
  le_secs : -2 ^ 63 ≤ secs
  secs_lt : secs < 2 ^ 63
  nanos_lt : nanos < nsecPerSec
deriving DecidableEq

namespace Duration

instance : LT Duration := ⟨fun a b => a.secs < b.secs ∨ a.secs = b.secs ∧ a.nanos < b.nanos⟩

instance (a b : Duration) : Decidable (a < b) :=
  inferInstanceAs (Decidable (a.secs < b.secs ∨ a.secs = b.secs ∧ a.nanos < b.nanos))

/-- `Duration::from_secs`, of a `u64`. -/
def fromSecs (s : ℕ) (h : s < 2 ^ 64 := by decide) : Duration := ⟨s, 0, h, by decide⟩

/-- `Duration::ZERO`. -/
def zero : Duration := fromSecs 0

/-- `Duration::MAX`. -/
def max : Duration := ⟨2 ^ 64 - 1, 999999999, by decide, by decide⟩

def toNanos (d : Duration) : ℕ := d.secs * nsecPerSec + d.nanos

/-- The order of pairs is the order of nanosecond counts. -/
theorem lt_iff (a b : Duration) : a < b ↔ a.toNanos < b.toNanos := by
  have ha := a.nanos_lt
  have hb := b.nanos_lt
  show a.secs < b.secs ∨ a.secs = b.secs ∧ a.nanos < b.nanos ↔ _
  unfold toNanos nsecPerSec at *
  omega

end Duration

namespace Instant

instance : LT Instant := ⟨fun a b => a.secs < b.secs ∨ a.secs = b.secs ∧ a.nanos < b.nanos⟩

instance : LE Instant := ⟨fun a b => a.secs < b.secs ∨ a.secs = b.secs ∧ a.nanos ≤ b.nanos⟩

instance (a b : Instant) : Decidable (a < b) :=
  inferInstanceAs (Decidable (a.secs < b.secs ∨ a.secs = b.secs ∧ a.nanos < b.nanos))

instance (a b : Instant) : Decidable (a ≤ b) :=
  inferInstanceAs (Decidable (a.secs < b.secs ∨ a.secs = b.secs ∧ a.nanos ≤ b.nanos))

/-- The reading of `s` whole seconds, for `s` below `2 ^ 63`. -/
def ofSecs (s : ℕ) (h : s < 2 ^ 63 := by decide) : Instant :=
  ⟨s, 0, by omega, by omega, by decide⟩

/-- The reading zero. -/
def zero : Instant := ofSecs 0

/-- The smallest reading there can be. -/
def least : Instant := ⟨-2 ^ 63, 0, by decide, by decide, by decide⟩

/-- `Instant - Duration`: `None` of `checked_sub`, where the operator panics.
The seconds are subtracted first (`checked_sub_unsigned`), then the borrow of
the nanoseconds (`checked_sub(1)`). -/
def checkedSub (t : Instant) (d : Duration) : Option Instant :=
  if h : -2 ^ 63 ≤ t.secs - d.secs then
    if hn : d.nanos ≤ t.nanos then
      some ⟨t.secs - d.secs, t.nanos - d.nanos, h, by have := t.secs_lt; omega,
        by have := t.nanos_lt; omega⟩
    else if h' : -2 ^ 63 ≤ t.secs - d.secs - 1 then
      some ⟨t.secs - d.secs - 1, t.nanos + nsecPerSec - d.nanos, h', by have := t.secs_lt; omega,
        by have := t.nanos_lt; omega⟩
    else none
  else none

/-- `Instant - Instant`: the difference with borrow, zero when `u` is later. -/
def durationSince (t u : Instant) : Duration :=
  if h : u ≤ t then
    if hn : u.nanos ≤ t.nanos then
      ⟨(t.secs - u.secs).toNat, t.nanos - u.nanos,
        by have := t.secs_lt; have := u.le_secs; omega, by have := t.nanos_lt; omega⟩
    else
      ⟨(t.secs - u.secs).toNat - 1, t.nanos + nsecPerSec - u.nanos,
        by have := t.secs_lt; have := u.le_secs; omega, by have := t.nanos_lt; omega⟩
  else Duration.zero

def toNanos (t : Instant) : ℤ := t.secs * (nsecPerSec : ℤ) + t.nanos

/-- Instants are compared as nanoseconds. -/
theorem lt_iff (a b : Instant) : a < b ↔ a.toNanos < b.toNanos := by
  have ha := a.nanos_lt
  have hb := b.nanos_lt
  show a.secs < b.secs ∨ a.secs = b.secs ∧ a.nanos < b.nanos ↔ _
  unfold toNanos nsecPerSec at *
  omega

/-- Likewise with equality. -/
theorem le_iff (a b : Instant) : a ≤ b ↔ a.toNanos ≤ b.toNanos := by
  have ha := a.nanos_lt
  have hb := b.nanos_lt
  show a.secs < b.secs ∨ a.secs = b.secs ∧ a.nanos ≤ b.nanos ↔ _
  unfold toNanos nsecPerSec at *
  omega

/-- **The checked subtraction is exact where it succeeds.** -/
theorem toNanos_checkedSub {t c : Instant} {d : Duration} (h : t.checkedSub d = some c) :
    c.toNanos = t.toNanos - d.toNanos := by
  have hd := d.nanos_lt
  unfold checkedSub at h
  split_ifs at h with h₁ h₂ h₃ <;> obtain rfl := Option.some.inj h <;>
    simp only [toNanos, Duration.toNanos, nsecPerSec] at * <;> omega

/-- `d` reaches back from `t` no further than the clock can represent. -/
def InReach (t : Instant) (d : Duration) : Prop := least.toNanos ≤ t.toNanos - d.toNanos

instance (t : Instant) (d : Duration) : Decidable (t.InReach d) :=
  inferInstanceAs (Decidable (least.toNanos ≤ t.toNanos - d.toNanos))

/-- **The checked subtraction fails out of reach only.** -/
theorem checkedSub_isSome_iff (t : Instant) (d : Duration) :
    (t.checkedSub d).isSome ↔ t.InReach d := by
  have ht := t.nanos_lt
  have hd := d.nanos_lt
  have hleast : least.toNanos = -2 ^ 63 * 1000000000 := rfl
  show ((t.checkedSub d).isSome = true) ↔ least.toNanos ≤ t.toNanos - d.toNanos
  rw [hleast]
  unfold toNanos Duration.toNanos nsecPerSec at *
  unfold checkedSub
  split_ifs with h₁ h₂ h₃
  · exact iff_of_true rfl (by omega)
  · exact iff_of_true rfl (by omega)
  · exact iff_of_false Bool.false_ne_true (by omega)
  · exact iff_of_false Bool.false_ne_true (by omega)

/-- The borrow crosses zero. -/
example : (Instant.zero.checkedSub ⟨0, 1, by decide, by decide⟩).map (fun c => (c.secs, c.nanos)) =
    some (-1, 999999999) := by decide

/-- The difference of two readings in order is exact. -/
theorem toNanos_durationSince {t u : Instant} (h : u ≤ t) :
    ((t.durationSince u).toNanos : ℤ) = t.toNanos - u.toNanos := by
  have ht := t.nanos_lt
  have hu := u.nanos_lt
  have hs : u.secs < t.secs ∨ u.secs = t.secs ∧ u.nanos ≤ t.nanos := h
  unfold durationSince
  rw [dif_pos h]
  split_ifs with hn <;> simp only [toNanos, Duration.toNanos, nsecPerSec] at * <;> omega

/-- **The cutoff is the timeout.**  A reading lies before `t - d` exactly when
`t` is more than `d` after it. -/
theorem lt_checkedSub_iff {t u c : Instant} {d : Duration} (h : t.checkedSub d = some c)
    (hu : u ≤ t) : u < c ↔ d < t.durationSince u := by
  have h₁ := toNanos_checkedSub h
  have h₂ := toNanos_durationSince hu
  rw [lt_iff, Duration.lt_iff]
  omega

end Instant
end Denshin
