/-
# What the calls count adds up

A reading call counts its visits, and returns its count.  Over all calls, what has
been returned and what the calls under way have counted so far make up the
visits that count (`balanced_after`): nothing is counted twice or by the wrong
call, however the walks are interleaved.  When nobody is in a call, the returned
counts are all of it (`reported_eq_counted`).

What a returned value reports is `num`, which is to be the count for a reading
call and nothing for a writing one (`Reports`).
-/

import Denshin.Basis.Guarded.Serial
import Mathlib.Algebra.BigOperators.Ring.Finset

namespace Basis

variable {σ ω τ α β γ ι ν ρ : Type*}

/-- What the call a task is in has counted so far. -/
def Phase.progress : Phase α β ι ρ → ℕ
  | .walking _ _ _ n => n
  | _ => 0

namespace Service

variable (S : Service σ ω α β γ ι ν ρ) (num : ρ → ℕ)

/-- An entry that counts. -/
def counted : Event α β ι ν ρ → ℕ
  | .visited _ _ out => if S.counts out then 1 else 0
  | _ => 0

/-- What an entry reports. -/
def reported : Event α β ι ν ρ → ℕ
  | .returned _ r => num r
  | _ => 0

/-- Calls report what they count. -/
structure Reports : Prop where
  write : ∀ s a, num (S.update s a).2 = 0
  read : ∀ s b n, n ≤ (S.items s b).length → num (S.answer s b n) = n

/-- What was reported, and what is counted so far by the calls under way, is
what counted. -/
def Balanced (task : τ → Phase α β ι ρ) (log : List (Event α β ι ν ρ)) : Prop :=
  ∃ active : Finset τ, (∀ t ∉ active, task t = .idle) ∧
    (log.map (reported num)).sum + ∑ t ∈ active, (task t).progress = (log.map S.counted).sum

variable {S num} [DecidableEq τ]

/-- A task moves on and logs `es`. -/
theorem Balanced.move {task : τ → Phase α β ι ρ} {log es : List (Event α β ι ν ρ)}
    (h : Balanced S num task log) {t : τ} {p q : Phase α β ι ρ} (ht : task t = q)
    (hp : (es.map (reported num)).sum + p.progress = q.progress + (es.map S.counted).sum) :
    Balanced S num (Function.update task t p) (log ++ es) := by
  obtain ⟨active, hidle, hsum⟩ := h
  refine ⟨insert t active, fun u hu => ?_, ?_⟩
  · rw [Finset.mem_insert, not_or] at hu
    rw [Function.update_of_ne hu.1]
    exact hidle u hu.2
  · have hmem : t ∈ insert t active := Finset.mem_insert_self t active
    have hold : ∑ u ∈ insert t active, (task u).progress = ∑ u ∈ active, (task u).progress := by
      refine Finset.sum_insert_of_eq_zero_if_notMem fun hnot => ?_
      rw [hidle t hnot]
      rfl
    have hothers : ∑ u ∈ (insert t active).erase t, (Function.update task t p u).progress =
        ∑ u ∈ (insert t active).erase t, (task u).progress := by
      refine Finset.sum_congr rfl fun u hu => ?_
      rw [Function.update_of_ne (Finset.ne_of_mem_erase hu)]
    have hnew := Finset.add_sum_erase (insert t active)
      (fun u => (Function.update task t p u).progress) hmem
    have hwas := Finset.add_sum_erase (insert t active) (fun u => (task u).progress) hmem
    have hself : (Function.update task t p t).progress = p.progress := by
      rw [Function.update_self]
    have hq : (task t).progress = q.progress := by rw [ht]
    simp only [List.map_append, List.sum_append]
    omega

/-- Every step keeps the balance of what counted and what was reported. -/
theorem Step.balanced {s₀ : σ} {s s' : Sys σ ω τ α β ι ν ρ} (hs : S.Step s s')
    (hnum : Reports S num) (hinv : Inv S s₀ s) (h : Balanced S num s.task s.log) :
    Balanced S num s'.task s'.log := by
  cases hs with
  | invoke t call ht => exact h.move ht rfl
  | acquireWrite t id a lock ht hl => exact h.move ht rfl
  | acquireRead t id b lock ht hl => exact h.move ht rfl
  | update t id a ht =>
    have hmove : Balanced S num (Function.update s.task t (.wrote id (S.update s.guarded a).2))
        (s.log ++ []) := h.move ht rfl
    rwa [List.append_nil] at hmove
  | start t id b ht =>
    have hmove : Balanced S num (Function.update s.task t (.walking id b (S.items s.guarded b) 0))
        (s.log ++ []) := h.move ht rfl
    rwa [List.append_nil] at hmove
  | visit t id b i rest n ht =>
    refine h.move ht ?_
    show 0 + (if S.counts (S.visit s.guarded b s.outside i).2 then n + 1 else n) =
      n + ((if S.counts (S.visit s.guarded b s.outside i).2 then 1 else 0) + 0)
    split_ifs <;> omega
  | returnWrite t id r ht =>
    obtain ⟨a, s'', -, hr⟩ : Serving S s₀ s.guarded s.log (.wrote id r) := ht ▸ hinv.serving t
    refine h.move ht ?_
    show num r + 0 + 0 = 0 + 0
    rw [hr, hnum.write]
  | returnRead t id b n ht =>
    obtain ⟨-, hwalk⟩ : Serving S s₀ s.guarded s.log (.walking id b [] n) := ht ▸ hinv.serving t
    have hle : n ≤ (S.items s.guarded b).length := by
      rw [← hwalk.items, List.append_nil, List.length_map, ← hwalk.count]
      exact List.countP_le_length
    refine h.move ht ?_
    show num (S.answer s.guarded b n) + 0 + 0 = n + 0
    rw [hnum.read s.guarded b n hle]
  | client g => exact h

/-- **What was reported and what counted balance**, after every schedule. -/
theorem balanced_after (hnum : Reports S num) (s₀ : σ) (w : ω) (acts : List (Action τ α β γ)) :
    Balanced S num (S.after s₀ w acts).task (S.after s₀ w acts).log := by
  have hboth : Inv S s₀ (S.after s₀ w acts) ∧
      Balanced S num (S.after s₀ w acts).task (S.after s₀ w acts).log := by
    refine after_inv (I := fun s : Sys σ ω τ α β ι ν ρ => Inv S s₀ s ∧ Balanced S num s.task s.log)
      ?_ ⟨inv_start s₀ w, ∅, fun _ _ => rfl, rfl⟩ acts
    rintro s s' hs ⟨hinv, hbal⟩
    exact ⟨hs.inv hinv, hs.balanced hnum hinv hbal⟩
  exact hboth.2

/-- **The counts returned are the visits that count**, up to the calls under way. -/
theorem reported_eq_counted (hnum : Reports S num) (s₀ : σ) (w : ω)
    (acts : List (Action τ α β γ)) :
    ((S.after s₀ w acts).log.map (reported num)).sum ≤ ((S.after s₀ w acts).log.map S.counted).sum ∧
      ((∀ t, (S.after s₀ w acts).task t = .idle) →
        ((S.after s₀ w acts).log.map (reported num)).sum =
          ((S.after s₀ w acts).log.map S.counted).sum) := by
  obtain ⟨active, -, hsum⟩ := balanced_after hnum s₀ w acts
  refine ⟨by omega, fun hidle => ?_⟩
  have hzero : ∑ t ∈ active, ((S.after s₀ w acts).task t).progress = 0 := by
    refine Finset.sum_eq_zero fun t _ => ?_
    rw [hidle t]
    rfl
  omega

end Service
end Basis
