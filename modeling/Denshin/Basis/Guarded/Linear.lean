/-
# Linearization

The calls on a guarded state can be put one after the other: in the order in
which they acquired the lock (`linearizes_after`).  Every call that has returned
is in that order, once and as it was invoked; a call that returned before
another was invoked comes before it; and each has returned what it returns at
its place in the order, where a call that walks what it read has walked it in
the state at that place.
-/

import Denshin.Basis.Guarded.Progress

namespace Basis

variable {σ ω τ α β γ ι ν ρ : Type*}

namespace Service

variable {S : Service σ ω α β γ ι ν ρ}

/-- `order` is a sequential order of the calls logged, from `s₀` on. -/
structure Linearizes (S : Service σ ω α β γ ι ν ρ) (s₀ : σ) (log : List (Event α β ι ν ρ))
    (order : List (ℕ × Call α β)) : Prop where
  nodup : (order.map Prod.fst).Nodup
  invoked : ∀ id call, (id, call) ∈ order → .invoked id call ∈ log
  real_time : ∀ A B,
    Before log (fun e => e.id = A ∧ e.stage = 3) (fun e => e.id = B ∧ e.stage ≤ 1) →
      ∀ pre call post, order = pre ++ (B, call) :: post → A ∈ pre.map Prod.fst
  returned : ∀ id r, .returned id r ∈ log → ∃ pre call post, order = pre ++ (id, call) :: post ∧
    Completed S log id r (S.serial.run s₀ pre) call

/-- Which calls acquired the lock is read off the log. -/
theorem mem_acquisitions {log : List (Event α β ι ν ρ)} {id : ℕ} {call : Call α β} :
    (id, call) ∈ acquisitions log ↔ .acquired id call ∈ log := by
  rw [acquisitions, List.mem_filterMap]
  constructor
  · rintro ⟨e, he, hacq⟩
    cases e with
    | acquired id' call' =>
      obtain ⟨rfl, rfl⟩ := Prod.mk.inj (Option.some.inj hacq)
      exact he
    | _ => exact absurd hacq (Option.some_ne_none _).symm
  · exact fun he => ⟨_, he, rfl⟩

/-- The acquisitions of a log, part by part. -/
theorem acquisitions_append (log log' : List (Event α β ι ν ρ)) :
    acquisitions (log ++ log') = acquisitions log ++ acquisitions log' := List.filterMap_append

section Ordered

variable {log : List (Event α β ι ν ρ)} (h : log.Pairwise fun e e' => e.id = e'.id → e.Then e')

include h

/-- No call acquires the lock twice. -/
theorem nodup_acquisitions : ((acquisitions log).map Prod.fst).Nodup := by
  refine List.pairwise_map.2 (List.pairwise_filterMap.2 ?_)
  refine h.imp fun {e e'} hee' c hc c' hc' heq => ?_
  cases e with
  | acquired id call =>
    cases e' with
    | acquired id' call' =>
      obtain rfl := Option.some.inj hc
      obtain rfl := Option.some.inj hc'
      have hthen := hee' heq
      simp [Event.Then] at hthen
    | _ => exact absurd hc' (Option.some_ne_none _).symm
  | _ => exact absurd hc (Option.some_ne_none _).symm

/-- Once a call has returned it does not acquire the lock, and it does not before
it is invoked. -/
theorem acquisitions_of_before {A B : ℕ} {l₁ l₂ : List (Event α β ι ν ρ)} (hlog : log = l₁ ++ l₂)
    {a b : Event α β ι ν ρ} (ha : a ∈ l₁) (hA : a.id = A ∧ a.stage = 3) (hb : b ∈ l₂)
    (hB : b.id = B ∧ b.stage ≤ 1) :
    (∀ call, (A, call) ∈ acquisitions log → (A, call) ∈ acquisitions l₁) ∧
      ∀ call, (B, call) ∉ acquisitions l₁ := by
  subst hlog
  have hcross := (List.pairwise_append.1 h).2.2
  constructor
  · intro call hcall
    rw [acquisitions_append] at hcall
    refine (List.mem_append.1 hcall).resolve_right fun hlate => ?_
    have hthen := hcross a ha _ (mem_acquisitions.1 hlate) hA.1
    have hone : (.acquired A call : Event α β ι ν ρ).stage = 1 := rfl
    unfold Event.Then at hthen
    omega
  · intro call hearly
    have hthen := hcross _ (mem_acquisitions.1 hearly) b hb hB.1.symm
    have hone : (.acquired B call : Event α β ι ν ρ).stage = 1 := rfl
    unfold Event.Then at hthen
    omega

end Ordered

/-- What comes first in a list that ends with the second part stays first. -/
theorem mem_of_append_eq {δ : Type*} {l₁ l₂ pre post : List δ} {x : δ}
    (h : l₁ ++ l₂ = pre ++ x :: post) (hx : x ∉ l₁) : ∀ y ∈ l₁, y ∈ pre := by
  intro y hy
  rcases List.append_eq_append_iff.1 h with ⟨m, rfl, -⟩ | ⟨m, rfl, hm⟩
  · exact List.mem_append_left m hy
  · cases m with
    | nil => rwa [List.append_nil] at hy
    | cons z m =>
      obtain ⟨rfl, -⟩ := List.cons_eq_cons.1 hm
      exact absurd (List.mem_append_right pre List.mem_cons_self) hx

variable [DecidableEq τ]

variable (S) in
/-- The same state, with clients that do nothing. -/
def quiet : Service σ ω α β γ ι ν ρ := { S with client := fun _ _ w => w }

/-- What an action of a task does outside, and what visits it logs: none, but for
the one it makes. -/
theorem outside_cases (s : Sys σ ω τ α β ι ν ρ) {act : Action τ α β γ}
    (hact : ∀ g, act ≠ .client g) :
    (∃ id b i, (S.step s act).outside = (S.visit s.guarded b s.outside i).1 ∧
      (S.step s act).log = s.log ++ [.visited id i (S.visit s.guarded b s.outside i).2]) ∨
    (((S.step s act).outside = s.outside ∨
        ∃ a, (S.step s act).outside = S.effect s.guarded a s.outside) ∧
      ∀ id i out, .visited id i out ∈ (S.step s act).log → .visited id i out ∈ s.log) := by
  have hlog : ∀ e : Event α β ι ν ρ, e.stage ≠ 2 →
      ∀ id i out, .visited id i out ∈ s.log ++ [e] → .visited id i out ∈ s.log := by
    intro e he id i out hmem
    refine (List.mem_append.1 hmem).resolve_right fun hlast => he ?_
    rw [← List.mem_singleton.1 hlast]
    rfl
  -- Clients apart, what an action can do is listed in `step_cases`.
  have hquiet : S.step s act = S.quiet.step s act := by
    cases act with
    | client g => exact absurd rfl (hact g)
    | _ => rfl
  rw [hquiet]
  rcases step_cases (S := S.quiet) s act with he | hstep
  · rw [he]
    exact Or.inr ⟨Or.inl rfl, fun _ _ _ hmem => hmem⟩
  · generalize S.quiet.step s act = s' at hstep
    cases hstep with
    | invoke t call h => exact Or.inr ⟨Or.inl rfl, hlog _ (by simp)⟩
    | acquireWrite t id a lock h hl => exact Or.inr ⟨Or.inl rfl, hlog _ (by simp)⟩
    | acquireRead t id b lock h hl => exact Or.inr ⟨Or.inl rfl, hlog _ (by simp)⟩
    | update t id a h => exact Or.inr ⟨Or.inr ⟨a, rfl⟩, fun _ _ _ hmem => hmem⟩
    | start t id b h => exact Or.inr ⟨Or.inl rfl, fun _ _ _ hmem => hmem⟩
    | visit t id b i rest n h => exact Or.inl ⟨id, b, i, rfl, rfl⟩
    | returnWrite t id r h => exact Or.inr ⟨Or.inl rfl, hlog _ (by simp)⟩
    | returnRead t id b n h => exact Or.inr ⟨Or.inl rfl, hlog _ (by simp)⟩
    | client g => exact Or.inr ⟨Or.inl rfl, fun _ _ _ hmem => hmem⟩

/-- **Every schedule is linearized by the order of the acquisitions.** -/
theorem linearizes_after (s₀ : σ) (w : ω) (acts : List (Action τ α β γ)) :
    Linearizes S s₀ (S.after s₀ w acts).log (acquisitions (S.after s₀ w acts).log) := by
  have hinv := inv_after (S := S) s₀ w acts
  have hord := hinv.staged.ordered
  have hacc := accounted_after (S := S) s₀ w acts
  refine ⟨nodup_acquisitions hord, fun id call hc => ?_, ?_, fun id r hr => ?_⟩
  · exact hacc.acquired id call (mem_acquisitions.1 hc)
  · rintro A B ⟨l₁, l₂, hlog, ⟨a, ha, hA⟩, b, hb, hB⟩ pre call post horder
    obtain ⟨hearly, hlate⟩ := acquisitions_of_before hord hlog ha hA hb hB
    have hret : ∃ r, .returned A r ∈ (S.after s₀ w acts).log := by
      have hmem := hlog ▸ List.mem_append_left l₂ ha
      cases a with
      | returned id r =>
        obtain ⟨rfl, -⟩ := hA
        exact ⟨r, hmem⟩
      | _ => exact absurd hA.2 (by simp)
    obtain ⟨r, hr⟩ := hret
    obtain ⟨callA, s', hacq, -⟩ := hinv.done A r hr
    have hA₁ := hearly callA (mem_acquisitions.2 hacq.mem_log)
    rw [hlog, acquisitions_append] at horder
    exact List.mem_map_of_mem (mem_of_append_eq horder (hlate call) _ hA₁)
  · obtain ⟨call, s', ⟨pre, post, horder, hs⟩, hcomp⟩ := hinv.done id r hr
    exact ⟨pre, call, post, horder, hs ▸ hcomp⟩

end Service
end Basis
