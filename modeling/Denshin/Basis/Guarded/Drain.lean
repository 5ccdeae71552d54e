/-
# The calls under way can all return

Only finitely many tasks are in a call at any time (`finite_active`), and each of
them can go on to its return without another one beginning a call
(`exists_idle`).  So from every state that a schedule leads to there is a way to
one in which nobody is in a call: the lock is free, every call made has
returned, and the guarded state is the one the calls lead to in the order of
their acquisitions (`exists_drained`).  There is no deadlock, and no call is
lost.
-/

import Denshin.Basis.Guarded.Linear
import Mathlib.Data.Finset.Insert

namespace Basis

variable {σ ω τ α β γ ι ν ρ : Type*}

namespace Service

variable {S : Service σ ω α β γ ι ν ρ} [DecidableEq τ]

omit [DecidableEq τ] in
/-- When nobody is in a call, nobody holds the lock. -/
theorem Held.free {lock : RwLock τ} {task : τ → Phase α β ι ρ} (h : Held lock task)
    (hidle : ∀ t, task t = .idle) : lock = .free := by
  have hreaders : lock.readers = ∅ := by
    refine Finset.eq_empty_of_forall_notMem fun t ht => ?_
    have hreads := (h.readers t).1 ht
    rw [hidle t] at hreads
    exact hreads
  have hwriter : lock.writer = none := by
    rcases hw : lock.writer with _ | t
    · rfl
    · have hwrites := (h.writer t).1 hw
      rw [hidle t] at hwrites
      exact absurd hwrites not_false
  obtain ⟨readers, writer, exclusive⟩ := lock
  obtain rfl : readers = ∅ := hreaders
  obtain rfl : writer = none := hwriter
  rfl

/-- Only the task that acquires the lock moves. -/
theorem acquire_other (s : Sys σ ω τ α β ι ν ρ) {t u : τ} (hu : u ≠ t) :
    (S.step s (.acquire t : Action τ α β γ)).task u = s.task u := by
  cases ht : s.task t with
  | waiting id call =>
    cases call with
    | write a =>
      cases hl : s.lock.write t <;> simp only [step, ht, hl]
      exact Function.update_of_ne hu ..
    | read b =>
      cases hl : s.lock.read t <;> simp only [step, ht, hl]
      exact Function.update_of_ne hu ..
  | _ => simp only [step, ht]

/-- **A task can go on to the return of its call**, and nobody begins a call. -/
theorem exists_idle (s : Sys σ ω τ α β ι ν ρ) (h : Held s.lock s.task) (t : τ) :
    ∃ acts : List (Action τ α β γ), (S.machine.run s acts).task t = .idle ∧
      ∀ u, s.task u = .idle → (S.machine.run s acts).task u = .idle := by
  have hholder : ∀ s : Sys σ ω τ α β ι ν ρ, (s.task t).Reads ∨ (s.task t).Writes →
      ∃ acts : List (Action τ α β γ), (S.machine.run s acts).task t = .idle ∧
        ∀ u, s.task u = .idle → (S.machine.run s acts).task u = .idle := by
    intro s hholds
    obtain ⟨acts, id, hf⟩ := exists_finish_of_holds (S := S) s hholds
    refine ⟨acts, hf.idle, fun u hu => ?_⟩
    by_cases hut : u = t
    · rw [hut]
      exact hf.idle
    · rw [hf.others u hut, hu]
  cases ht : s.task t with
  | idle => exact ⟨[], ht, fun u hu => hu⟩
  | waiting id call =>
    -- The holders return, the task acquires the lock, and then returns itself.
    obtain ⟨acts, hw, hr, hothers⟩ := exists_free (S := S) s h
    have hstay : ∀ u, s.task u = .idle → (S.machine.run s acts).task u = .idle := by
      intro u hu
      rw [hothers u (by rw [hu]; exact not_false) (by rw [hu]; exact not_false), hu]
    have ht' := hothers t (by rw [ht]; exact not_false) (by rw [ht]; exact not_false)
    have hholds := (holds_acquire (S := S) hw hr (ht'.trans ht)).2
    obtain ⟨acts', hidle, hstay'⟩ := hholder _ hholds
    refine ⟨acts ++ .acquire t :: acts', ?_, fun u hu => ?_⟩
    · rw [Machine.run_append]
      exact hidle
    · rw [Machine.run_append]
      refine hstay' u ?_
      by_cases hut : u = t
      · rw [hut, ht] at hu
        exact absurd hu (by simp)
      · rw [acquire_other (S := S) _ hut]
        exact hstay u hu
  | writing => exact hholder s (Or.inr (by rw [ht]; trivial))
  | wrote => exact hholder s (Or.inr (by rw [ht]; trivial))
  | reading => exact hholder s (Or.inl (by rw [ht]; trivial))
  | walking => exact hholder s (Or.inl (by rw [ht]; trivial))

/-- By induction on who may still be in a call. -/
theorem exists_all_idle (s : Sys σ ω τ α β ι ν ρ) (h : Held s.lock s.task) (active : Finset τ)
    (hidle : ∀ t ∉ active, s.task t = .idle) :
    ∃ acts : List (Action τ α β γ), ∀ t, (S.machine.run s acts).task t = .idle := by
  induction active using Finset.induction_on generalizing s with
  | empty => exact ⟨[], fun t => hidle t (Finset.notMem_empty t)⟩
  | insert t active hnot ih =>
    obtain ⟨acts, ht, hstay⟩ := exists_idle (S := S) s h t
    obtain ⟨acts', hall⟩ := ih (S.machine.run s acts) (held_run h acts) fun u hu => by
      by_cases hut : u = t
      · rwa [hut]
      · exact hstay u (hidle u fun hmem => (Finset.mem_insert.1 hmem).elim hut hu)
    refine ⟨acts ++ acts', fun u => ?_⟩
    rw [Machine.run_append]
    exact hall u

/-- Only tasks that acted can be in a call. -/
theorem finite_active (s₀ : σ) (w : ω) (acts : List (Action τ α β γ)) :
    ∃ active : Finset τ, ∀ t ∉ active, (S.after s₀ w acts).task t = .idle := by
  refine after_inv (S := S) (I := fun s : Sys σ ω τ α β ι ν ρ =>
    ∃ active : Finset τ, ∀ t ∉ active, s.task t = .idle) ?_ ⟨∅, fun _ _ => rfl⟩ acts
  rintro s s' hs ⟨active, hidle⟩
  have hmove : ∀ (t : τ) (p : Phase α β ι ρ),
      ∃ active : Finset τ, ∀ u ∉ active, Function.update s.task t p u = .idle := by
    refine fun t p => ⟨insert t active, fun u hu => ?_⟩
    rw [Finset.mem_insert, not_or] at hu
    rw [Function.update_of_ne hu.1]
    exact hidle u hu.2
  cases hs with
  | client g => exact ⟨active, hidle⟩
  | _ => exact hmove _ _

/-- **From everywhere the calls under way can all return.** -/
theorem exists_drained (s₀ : σ) (w : ω) (acts : List (Action τ α β γ)) :
    ∃ more : List (Action τ α β γ), (∀ t, (S.after s₀ w (acts ++ more)).task t = .idle) ∧
      (S.after s₀ w (acts ++ more)).lock = .free ∧
      (∀ id call, .invoked id call ∈ (S.after s₀ w acts).log →
        ∃ r, .returned id r ∈ (S.after s₀ w (acts ++ more)).log) ∧
      (S.after s₀ w (acts ++ more)).guarded =
        S.serial.run s₀ (acquisitions (S.after s₀ w (acts ++ more)).log) := by
  obtain ⟨active, hidle⟩ := finite_active (S := S) s₀ w acts
  obtain ⟨more, hall⟩ := exists_all_idle (S := S) _ (inv_after s₀ w acts).held active hidle
  rw [← after_append] at hall
  have hinv := inv_after (S := S) s₀ w (acts ++ more)
  refine ⟨more, hall, ?_, fun id call hi => ?_, ?_⟩
  · exact hinv.held.free hall
  · have hi' : .invoked id call ∈ (S.after s₀ w (acts ++ more)).log := by
      rw [after_append]
      exact mem_log_run hi more
    refine ((accounted_after s₀ w (acts ++ more)).pending id call hi').resolve_left ?_
    rintro ⟨t, ht⟩
    rw [hall t] at ht
    exact absurd ht (Option.some_ne_none id).symm
  · refine hinv.settled.done fun t id a ht => ?_
    rw [hall t] at ht
    exact absurd ht (by simp)

end Service
end Basis
