/-
# The order of what is logged

Every call goes through the stages invoked, acquired, visiting, returned.  What
is logged of it never runs ahead of where its task is (`Staged.stage_le`), so of
one call everything is logged in the order of the stages, and only visits
repeat (`Staged.ordered`).  Two calls are ordered as soon as one has returned
before the other acquires the lock: then no visit of the second comes before
one of the first (`visited_before`).
-/

import Denshin.Basis.Guarded

namespace Basis

variable {σ ω τ α β γ ι ν ρ : Type*}

namespace Service

variable {S : Service σ ω α β γ ι ν ρ} [DecidableEq τ]

/-- Calls are numbered as they are invoked, a call is one task's, and what is
logged of it is of the stages up to the one its task is in. -/
structure Staged (task : τ → Phase α β ι ρ) (calls : ℕ) (log : List (Event α β ι ν ρ)) : Prop where
  log_lt : ∀ e ∈ log, e.id < calls
  task_lt : ∀ t id, (task t).id? = some id → id < calls
  inj : ∀ t u id, (task t).id? = some id → (task u).id? = some id → t = u
  stage_le : ∀ t, ∀ e ∈ log, (task t).id? = some e.id → e.stage ≤ (task t).stage
  ordered : log.Pairwise fun e e' => e.id = e'.id → e.Then e'

section Staged

variable {task : τ → Phase α β ι ρ} {calls : ℕ} {log : List (Event α β ι ν ρ)}
  (h : Staged task calls log) {t : τ}

include h

/-- A call is invoked. -/
theorem Staged.invoke {p : Phase α β ι ρ} {e : Event α β ι ν ρ} (hp : p.id? = some calls)
    (he : e.id = calls) (hstage : e.stage ≤ p.stage) :
    Staged (Function.update task t p) (calls + 1) (log ++ [e]) := by
  have hid : ∀ u id, ((Function.update task t p) u).id? = some id →
      u = t ∧ id = calls ∨ u ≠ t ∧ (task u).id? = some id := by
    intro u id hu
    rw [Function.update_apply] at hu
    split_ifs at hu with hut
    · exact Or.inl ⟨hut, Option.some.inj (hu.symm.trans hp)⟩
    · exact Or.inr ⟨hut, hu⟩
  refine ⟨fun e' he' => ?_, fun u id hu => ?_, fun u v id hu hv => ?_, fun u e' he' hu => ?_, ?_⟩
  · rcases List.mem_append.1 he' with he' | he'
    · exact Nat.lt_succ_of_lt (h.log_lt e' he')
    · rw [List.mem_singleton.1 he', he]
      exact Nat.lt_succ_self calls
  · rcases hid u id hu with ⟨-, rfl⟩ | ⟨-, hu⟩
    · exact Nat.lt_succ_self id
    · exact Nat.lt_succ_of_lt (h.task_lt u id hu)
  · rcases hid u id hu with ⟨rfl, rfl⟩ | ⟨-, hu⟩ <;> rcases hid v _ hv with ⟨hv, hid⟩ | ⟨-, hv⟩
    · exact hv.symm
    · have hlt := h.task_lt v _ hv
      omega
    · rw [hid] at hu
      have hlt := h.task_lt u _ hu
      omega
    · exact h.inj u v id hu hv
  · rw [Function.update_apply] at hu ⊢
    split_ifs at hu ⊢ with hut
    · have hlast : e'.id = calls := Option.some.inj (hu.symm.trans hp)
      rcases List.mem_append.1 he' with he' | he'
      · have hlt := h.log_lt e' he'
        omega
      · rw [List.mem_singleton.1 he']
        exact hstage
    · rcases List.mem_append.1 he' with he' | he'
      · exact h.stage_le u e' he' hu
      · rw [List.mem_singleton.1 he', he] at hu
        have hlt := h.task_lt u _ hu
        omega
  · refine List.pairwise_append.2
      ⟨h.ordered, List.pairwise_singleton _ _, fun e₁ h₁ e₂ h₂ heq => ?_⟩
    rw [List.mem_singleton.1 h₂, he] at heq
    have hlt := h.log_lt e₁ h₁
    omega

/-- A task goes on with its call, or ends it. -/
theorem Staged.move {p : Phase α β ι ρ} {id : ℕ} (ht : (task t).id? = some id)
    (hp : ∀ id', p.id? = some id' → id' = id) (hstage : (task t).stage ≤ p.stage ∨ p.id? = none) :
    Staged (Function.update task t p) calls log := by
  have hid : ∀ u id', ((Function.update task t p) u).id? = some id' → (task u).id? = some id' := by
    intro u id' hu
    rw [Function.update_apply] at hu
    split_ifs at hu with hut
    · rw [hut, ht, hp id' hu]
    · exact hu
  refine ⟨h.log_lt, fun u id' hu => h.task_lt u id' (hid u id' hu),
    fun u v id' hu hv => h.inj u v id' (hid u id' hu) (hid v id' hv), fun u e he hu => ?_,
    h.ordered⟩
  have hle := h.stage_le u e he (hid u e.id hu)
  rw [Function.update_apply] at hu ⊢
  split_ifs at hu ⊢ with hut
  · rw [hut] at hle
    rcases hstage with hstage | hnone
    · exact hle.trans hstage
    · exact nomatch hnone.symm.trans hu
  · exact hle

/-- A task logs an entry of its call. -/
theorem Staged.next {e : Event α β ι ν ρ} {q : Phase α β ι ρ} (ht : task t = q)
    (hq : q.id? = some e.id) (hlow : q.stage < e.stage ∨ q.stage = 2 ∧ e.stage = 2)
    {p : Phase α β ι ρ} (hp : ∀ id', p.id? = some id' → id' = e.id ∧ e.stage ≤ p.stage) :
    Staged (Function.update task t p) calls (log ++ [e]) := by
  subst ht
  have hid : ∀ u id', ((Function.update task t p) u).id? = some id' → (task u).id? = some id' := by
    intro u id' hu
    rw [Function.update_apply] at hu
    split_ifs at hu with hut
    · rw [hut, hq, (hp id' hu).1]
    · exact hu
  refine ⟨fun e' he' => ?_, fun u id' hu => h.task_lt u id' (hid u id' hu),
    fun u v id' hu hv => h.inj u v id' (hid u id' hu) (hid v id' hv), fun u e' he' hu => ?_, ?_⟩
  · rcases List.mem_append.1 he' with he' | he'
    · exact h.log_lt e' he'
    · rw [List.mem_singleton.1 he']
      exact h.task_lt t e.id hq
  · have hold := hid u e'.id hu
    rw [Function.update_apply] at hu ⊢
    rcases List.mem_append.1 he' with he' | he'
    · have hle := h.stage_le u e' he' hold
      split_ifs at hu ⊢ with hut
      · have hup := (hp e'.id hu).2
        rw [hut] at hle
        omega
      · exact hle
    · obtain rfl := List.mem_singleton.1 he'
      obtain rfl : t = u := h.inj t u e'.id hq hold
      rw [if_pos rfl] at hu ⊢
      exact (hp e'.id hu).2
  · refine List.pairwise_append.2
      ⟨h.ordered, List.pairwise_singleton _ _, fun e₁ h₁ e₂ h₂ heq => ?_⟩
    obtain rfl := List.mem_singleton.1 h₂
    have hle := h.stage_le t e₁ h₁ (by rw [heq, hq])
    unfold Event.Then
    omega

omit [DecidableEq τ] in
/-- Of one call nothing but visits is logged twice. -/
theorem Staged.unique {e e' : Event α β ι ν ρ} (he : e ∈ log) (he' : e' ∈ log)
    (hid : e.id = e'.id) (hstage : e.stage = e'.stage) (hne : e.stage ≠ 2) : e = e' := by
  obtain ⟨l₁, l₂, hlog⟩ := List.append_of_mem he
  have hord := h.ordered
  rw [hlog] at he' hord
  obtain ⟨-, htail, hcross⟩ := List.pairwise_append.1 hord
  rcases List.mem_append.1 he' with he' | he'
  · have hthen := hcross e' he' e List.mem_cons_self hid.symm
    unfold Event.Then at hthen
    omega
  · rcases List.mem_cons.1 he' with heq | he'
    · exact heq.symm
    · have hthen := (List.pairwise_cons.1 htail).1 e' he' hid
      unfold Event.Then at hthen
      omega

end Staged

omit [DecidableEq τ] in
/-- At the start nobody has come to any stage. -/
theorem staged_start : Staged (fun _ : τ => (.idle : Phase α β ι ρ)) 0
    ([] : List (Event α β ι ν ρ)) where
  log_lt _ he := absurd he List.not_mem_nil
  task_lt _ _ h := nomatch h
  inj _ _ _ h := nomatch h
  stage_le _ _ he := absurd he List.not_mem_nil
  ordered := List.Pairwise.nil

/-- **Every step keeps the stages in order**: it takes one call one stage further. -/
theorem Step.staged {s s' : Sys σ ω τ α β ι ν ρ} (hs : S.Step s s')
    (h : Staged s.task s.calls s.log) : Staged s'.task s'.calls s'.log := by
  cases hs with
  | invoke t call ht => exact h.invoke rfl rfl le_rfl
  | acquireWrite t id a lock ht hl =>
    exact h.next ht rfl (Or.inl (by simp)) fun id' hid => ⟨(Option.some.inj hid).symm, le_rfl⟩
  | acquireRead t id b lock ht hl =>
    exact h.next ht rfl (Or.inl (by simp)) fun id' hid => ⟨(Option.some.inj hid).symm, le_rfl⟩
  | update t id a ht =>
    exact h.move (by rw [ht]; rfl) (fun id' hid => (Option.some.inj hid).symm)
      (Or.inl (by simp [ht]))
  | start t id b ht =>
    exact h.move (by rw [ht]; rfl) (fun id' hid => (Option.some.inj hid).symm)
      (Or.inl (by simp [ht]))
  | visit t id b i rest n ht =>
    exact h.next ht rfl (Or.inr ⟨rfl, rfl⟩) fun id' hid => ⟨(Option.some.inj hid).symm, le_rfl⟩
  | returnWrite t id r ht => exact h.next ht rfl (Or.inl (by simp)) nofun
  | returnRead t id b n ht => exact h.next ht rfl (Or.inl (by simp)) nofun
  | client g => exact h

/-! ### Calls that do not overlap -/

/-- An entry of the first kind is logged before one of the second. -/
def Before (log : List (Event α β ι ν ρ)) (P Q : Event α β ι ν ρ → Prop) : Prop :=
  ∃ l₁ l₂, log = l₁ ++ l₂ ∧ (∃ e ∈ l₁, P e) ∧ ∃ e ∈ l₂, Q e

/-- **A call that returned before another acquires the lock** has made all its
visits before the other makes one. -/
theorem visited_before {log : List (Event α β ι ν ρ)}
    (h : log.Pairwise fun e e' => e.id = e'.id → e.Then e') {A B : ℕ}
    (hAB : Before log (fun e => e.id = A ∧ e.stage = 3) fun e => e.id = B ∧ e.stage ≤ 1) :
    log.Pairwise fun e e' => e.stage = 2 → e'.stage = 2 → e.id = B → e'.id ≠ A := by
  obtain ⟨l₁, l₂, rfl, ⟨a, ha, rfl, hastage⟩, b, hb, rfl, hbstage⟩ := hAB
  have hcross := (List.pairwise_append.1 h).2.2
  have hnoA : ∀ e' ∈ l₂, e'.stage = 2 → e'.id ≠ a.id := by
    intro e' he' hstage heq
    have hthen := hcross a ha e' he' heq.symm
    unfold Event.Then at hthen
    omega
  have hnoB : ∀ e ∈ l₁, e.stage = 2 → e.id ≠ b.id := by
    intro e he hstage heq
    have hthen := hcross e he b hb heq
    unfold Event.Then at hthen
    omega
  refine List.pairwise_append.2 ⟨?_, ?_, fun e he e' _ hs _ heq => absurd heq (hnoB e he hs)⟩
  · exact List.pairwise_of_forall_mem_list fun e he e' _ hs _ heq => absurd heq (hnoB e he hs)
  · exact List.pairwise_of_forall_mem_list fun e _ e' he' _ hs' _ => hnoA e' he' hs'

end Service
end Basis
