/-
# What is visited is walked

Whatever a call has visited is the beginning of a walk over the items it read off
the state in which it acquired the lock (`walks_after`); when nobody is in a call,
it is the whole walk (`walked_of_idle`).  So what all calls visit, at any moment
and at the end, can be compared with what they visit when they are made one at a
time, in the order in which they acquired the lock.
-/

import Denshin.Basis.Guarded.Linear

namespace Basis

variable {σ ω τ α β γ ι ν ρ : Type*}

namespace Service

variable {S : Service σ ω α β γ ι ν ρ}

/-- The state in which a call acquired the lock is one, and so is the call. -/
theorem Acquired.unique {s₀ s s' : σ} {log : List (Event α β ι ν ρ)} {id : ℕ}
    {call call' : Call α β} (h : Acquired S s₀ log id call s) (h' : Acquired S s₀ log id call' s')
    (hnodup : ((acquisitions log).map Prod.fst).Nodup) : call = call' ∧ s = s' := by
  obtain ⟨pre, post, hlog, rfl⟩ := h
  obtain ⟨pre', post', hlog', rfl⟩ := h'
  have heq := hlog.symm.trans hlog'
  have hids : pre.map Prod.fst = pre'.map Prod.fst := by
    have hmap := congrArg (List.map Prod.fst) heq
    rw [List.map_append, List.map_cons, List.map_append, List.map_cons] at hmap
    rw [hlog, List.map_append, List.map_cons] at hnodup
    have hnot := (List.nodup_cons.1 (List.nodup_middle.1 hnodup)).1
    rw [List.mem_append, not_or] at hnot
    exact ((List.append_cons_inj_of_notMem hnot.1 hnot.2).1 hmap).1
  have hlen : pre.length = pre'.length := by simpa using congrArg List.length hids
  obtain ⟨rfl, hcons⟩ := List.append_inj heq hlen
  obtain ⟨hc, -⟩ := List.cons.inj hcons
  exact ⟨(Prod.mk.inj hc).2, rfl⟩

/-- Whatever a call visited is a walk, perhaps not finished, over what it read when
it acquired the lock. -/
def Walks (S : Service σ ω α β γ ι ν ρ) (s₀ : σ) (log : List (Event α β ι ν ρ)) : Prop :=
  ∀ id, visits id log ≠ [] → ∃ b s rest n, Acquired S s₀ log id (.read b) s ∧
    Walked S s b (visits id log) rest n

/-- The visits of a call are those in the log. -/
theorem mem_visits {log : List (Event α β ι ν ρ)} {id : ℕ} {v : ι × ν} :
    v ∈ visits id log ↔ .visited id v.1 v.2 ∈ log := by
  rw [visits, List.mem_filterMap]
  constructor
  · rintro ⟨e, he, hv⟩
    cases e with
    | visited id' i out =>
      have hif : (if id' = id then some (i, out) else none) = some v := hv
      split_ifs at hif with hid
      · obtain rfl := Option.some.inj hif
        rwa [← hid]
    | _ => exact absurd hv (Option.some_ne_none v).symm
  · exact fun he => ⟨_, he, if_pos rfl⟩

/-- Only visits are visits. -/
theorem visits_append_of_stage {log : List (Event α β ι ν ρ)} {e : Event α β ι ν ρ}
    (he : e.stage ≠ 2) (id : ℕ) : visits id (log ++ [e]) = visits id log := by
  have hnone : e.visit id = none := by
    cases e with
    | visited => exact absurd rfl he
    | _ => rfl
  rw [visits, List.filterMap_append, ← visits, List.filterMap_cons_none hnone]
  exact List.append_nil _

/-- An event that is no visit adds to no walk. -/
theorem Walks.append {s₀ : σ} {log : List (Event α β ι ν ρ)} (h : Walks S s₀ log)
    {e : Event α β ι ν ρ} (he : e.stage ≠ 2) : Walks S s₀ (log ++ [e]) := by
  intro id hne
  rw [visits_append_of_stage he] at hne ⊢
  obtain ⟨b, s, rest, n, hacq, hwalk⟩ := h id hne
  exact ⟨b, s, rest, n, hacq.append _, hwalk⟩

variable [DecidableEq τ]

/-- Every step keeps what was visited a walk. -/
theorem Step.walks {s₀ : σ} {s s' : Sys σ ω τ α β ι ν ρ} (hs : S.Step s s') (hinv : Inv S s₀ s)
    (h : Walks S s₀ s.log) : Walks S s₀ s'.log := by
  cases hs with
  | invoke t call ht => exact h.append (by simp)
  | acquireWrite t id a lock ht hl => exact h.append (by simp)
  | acquireRead t id b lock ht hl => exact h.append (by simp)
  | update t id a ht => exact h
  | start t id b ht => exact h
  | visit t id b i rest n ht =>
    intro id' hne
    by_cases hid : id' = id
    · subst hid
      obtain ⟨hacq, hwalk⟩ : Serving S s₀ s.guarded s.log (.walking id' b (i :: rest) n) :=
        ht ▸ hinv.serving t
      rw [visits_append_visited]
      exact ⟨b, s.guarded, rest, _, hacq.append _, hwalk.visit s.outside⟩
    · have hother : ∀ out, visits id' (s.log ++ [.visited id i out]) = visits id' s.log := by
        refine fun out => visits_append_of_ne fun e he heq => hid ?_
        rw [← heq, List.mem_singleton.1 he]
        rfl
      rw [hother] at hne ⊢
      obtain ⟨b', s'', rest', n', hacq, hwalk⟩ := h id' hne
      exact ⟨b', s'', rest', n', hacq.append _, hwalk⟩
  | returnWrite t id r ht => exact h.append (by simp)
  | returnRead t id b n ht => exact h.append (by simp)
  | client g => exact h

/-- **Whatever is visited is walked.** -/
theorem walks_after (s₀ : σ) (w : ω) (acts : List (Action τ α β γ)) :
    Walks S s₀ (S.after s₀ w acts).log := by
  have hboth : Inv S s₀ (S.after s₀ w acts) ∧ Walks S s₀ (S.after s₀ w acts).log := by
    refine after_inv (I := fun s : Sys σ ω τ α β ι ν ρ => Inv S s₀ s ∧ Walks S s₀ s.log) ?_
      ⟨inv_start s₀ w, fun _ hne => absurd rfl hne⟩ acts
    exact fun s s' hs h => ⟨hs.inv h.1, hs.walks h.1 h.2⟩
  exact hboth.2

/-- **When nobody is in a call, every walk is finished.** -/
theorem walked_of_idle {s₀ : σ} {w : ω} {acts : List (Action τ α β γ)}
    (hidle : ∀ t, (S.after s₀ w acts).task t = .idle) {id : ℕ} {b : β} {s : σ}
    (hacq : Acquired S s₀ (S.after s₀ w acts).log id (.read b) s) :
    ∃ n, Walked S s b (visits id (S.after s₀ w acts).log) [] n := by
  have hinv := inv_after (S := S) s₀ w acts
  have hacc := accounted_after (S := S) s₀ w acts
  obtain ⟨r, hr⟩ : ∃ r, .returned id r ∈ (S.after s₀ w acts).log := by
    refine (hacc.pending id _ (hacc.acquired id _ hacq.mem_log)).resolve_left ?_
    rintro ⟨t, ht⟩
    rw [hidle t] at ht
    exact absurd ht (Option.some_ne_none id).symm
  obtain ⟨call, s', hacq', hcomp⟩ := hinv.done id r hr
  obtain ⟨rfl, rfl⟩ := hacq.unique hacq' (nodup_acquisitions hinv.staged.ordered)
  obtain ⟨n, hwalk, -⟩ := hcomp
  exact ⟨n, hwalk⟩

end Service
end Basis
