/-
# Every call can return

A task that holds the lock never waits: it can always go on to the return of its
call, whatever the others are doing, and this changes nothing for them
(`exists_finish`).  So from every state the lock can be given back by all who
hold it (`exists_free`), and whoever waits can then acquire it: no schedule leads
to a state from which a call made can no longer return (`exists_returned`).

A number that was invoked is a call under way or one that has returned, and the
call that acquired the lock under it is the one invoked (`Accounted`), so what is
returned under a number is the answer to that call (`Inv.returned`).
-/

import Denshin.Basis.Guarded.Serial
import Mathlib.Data.Finset.Card

namespace Basis

variable {σ ω τ α β γ ι ν ρ : Type*}

namespace Service

variable {S : Service σ ω α β γ ι ν ρ} [DecidableEq τ]

/-! ### A holder of the lock goes on -/

/-- From `s` to `s'` the task `t` has returned from its call and given the lock
back, and the others are where they were. -/
structure Finishes (t : τ) (id : ℕ) (s s' : Sys σ ω τ α β ι ν ρ) : Prop where
  idle : s'.task t = .idle
  others : ∀ u, u ≠ t → s'.task u = s.task u
  lock : s'.lock = s.lock.release t
  returned : ∃ r, .returned id r ∈ s'.log

/-- The last step, of a task that has nothing left to do. -/
theorem finishes_release {s : Sys σ ω τ α β ι ν ρ} {t : τ} {id : ℕ} (r : ρ)
    (h : S.step s (.release t) = { s with
      lock := s.lock.release t
      task := Function.update s.task t .idle
      log := s.log ++ [.returned id r] }) : Finishes t id s (S.step s (.release t)) := by
  rw [h]
  exact ⟨Function.update_self .., fun u hu => Function.update_of_ne hu .., rfl,
    r, List.mem_append_right _ (List.mem_singleton_self _)⟩

/-- A step before it, after which the task can finish. -/
theorem Finishes.work {s s₁ s' : Sys σ ω τ α β ι ν ρ} {t : τ} {id : ℕ} {p : Phase α β ι ρ}
    (h : Finishes t id s₁ s') (htask : s₁.task = Function.update s.task t p)
    (hlock : s₁.lock = s.lock) : Finishes t id s s' where
  idle := h.idle
  others u hu := by rw [h.others u hu, htask, Function.update_of_ne hu]
  lock := by rw [h.lock, hlock]
  returned := h.returned

/-- A writer that is done only has to return. -/
theorem exists_finish_wrote (s : Sys σ ω τ α β ι ν ρ) {t : τ} {id : ℕ} {r : ρ}
    (ht : s.task t = .wrote id r) :
    ∃ acts : List (Action τ α β γ), Finishes t id s (S.machine.run s acts) := by
  refine ⟨[.release t], finishes_release r ?_⟩
  simp only [step, ht]

/-- By induction on what is left to visit. -/
theorem exists_finish_walking (s : Sys σ ω τ α β ι ν ρ) {t : τ} {id : ℕ} {b : β} {rest : List ι}
    {n : ℕ} (ht : s.task t = .walking id b rest n) :
    ∃ acts : List (Action τ α β γ), Finishes t id s (S.machine.run s acts) := by
  induction rest generalizing s n with
  | nil =>
    refine ⟨[.release t], finishes_release (S.answer s.guarded b n) ?_⟩
    simp only [step, ht]
  | cons i rest ih =>
    have hstep : S.step s (.work t) = { s with
        outside := (S.visit s.guarded b s.outside i).1
        task := Function.update s.task t (.walking id b rest
          (if S.counts (S.visit s.guarded b s.outside i).2 then n + 1 else n))
        log := s.log ++ [.visited id i (S.visit s.guarded b s.outside i).2] } := by
      simp only [step, ht]
    obtain ⟨acts, h⟩ := ih (S.step s (.work t)) (by rw [hstep]; exact Function.update_self ..)
    exact ⟨.work t :: acts, h.work (by rw [hstep]) (by rw [hstep])⟩

omit [DecidableEq τ] in
/-- Where a task in a call can be. -/
theorem phase_cases {p : Phase α β ι ρ} {id : ℕ} (hid : p.id? = some id) :
    (∃ call, p = .waiting id call) ∨ (∃ a, p = .writing id a) ∨ (∃ r, p = .wrote id r) ∨
      (∃ b, p = .reading id b) ∨ ∃ b rest n, p = .walking id b rest n := by
  cases p with
  | idle => exact absurd hid (Option.some_ne_none id).symm
  | waiting id' call =>
    obtain rfl : id' = id := Option.some.inj hid
    exact Or.inl ⟨call, rfl⟩
  | writing id' a =>
    obtain rfl : id' = id := Option.some.inj hid
    exact Or.inr (Or.inl ⟨a, rfl⟩)
  | wrote id' r =>
    obtain rfl : id' = id := Option.some.inj hid
    exact Or.inr (Or.inr (Or.inl ⟨r, rfl⟩))
  | reading id' b =>
    obtain rfl : id' = id := Option.some.inj hid
    exact Or.inr (Or.inr (Or.inr (Or.inl ⟨b, rfl⟩)))
  | walking id' b rest n =>
    obtain rfl : id' = id := Option.some.inj hid
    exact Or.inr (Or.inr (Or.inr (Or.inr ⟨b, rest, n, rfl⟩)))

/-- **Whoever holds the lock can return**, and the others do not notice. -/
theorem exists_finish (s : Sys σ ω τ α β ι ν ρ) {t : τ} {id : ℕ} (hid : (s.task t).id? = some id)
    (hholds : (s.task t).Reads ∨ (s.task t).Writes) :
    ∃ acts : List (Action τ α β γ), Finishes t id s (S.machine.run s acts) := by
  rcases phase_cases hid with ⟨call, ht⟩ | ⟨a, ht⟩ | ⟨r, ht⟩ | ⟨b, ht⟩ | ⟨b, rest, n, ht⟩
  · rw [ht] at hholds
    exact absurd hholds (not_or.2 ⟨not_false, not_false⟩)
  · have hstep : S.step s (.work t) = { s with
        guarded := (S.update s.guarded a).1
        outside := S.effect s.guarded a s.outside
        task := Function.update s.task t (.wrote id (S.update s.guarded a).2) } := by
      simp only [step, ht]
    obtain ⟨acts, h⟩ := exists_finish_wrote (S := S) (S.step s (.work t))
      (by rw [hstep]; exact Function.update_self ..)
    exact ⟨.work t :: acts, h.work (by rw [hstep]) (by rw [hstep])⟩
  · exact exists_finish_wrote s ht
  · have hstep : S.step s (.work t) = { s with
        task := Function.update s.task t (.walking id b (S.items s.guarded b) 0) } := by
      simp only [step, ht]
    obtain ⟨acts, h⟩ := exists_finish_walking (S := S) (S.step s (.work t))
      (by rw [hstep]; exact Function.update_self ..)
    exact ⟨.work t :: acts, h.work (by rw [hstep]) (by rw [hstep])⟩
  · exact exists_finish_walking s ht

/-! ### A waiting task goes on -/

/-- The lock stays with those who are in a call, in every run. -/
theorem held_run {s : Sys σ ω τ α β ι ν ρ} (h : Held s.lock s.task) (acts : List (Action τ α β γ)) :
    Held (S.machine.run s acts).lock (S.machine.run s acts).task :=
  run_inv (I := fun s : Sys σ ω τ α β ι ν ρ => Held s.lock s.task) (fun _ _ hs => hs.held) h acts

/-- Whoever holds the lock can finish. -/
theorem exists_finish_of_holds (s : Sys σ ω τ α β ι ν ρ) {t : τ}
    (h : (s.task t).Reads ∨ (s.task t).Writes) :
    ∃ (acts : List (Action τ α β γ)) (id : ℕ), Finishes t id s (S.machine.run s acts) := by
  rcases hid : (s.task t).id? with _ | id
  · cases ht : s.task t with
    | idle =>
      rw [ht] at h
      exact absurd h (not_or.2 ⟨not_false, not_false⟩)
    | _ =>
      rw [ht] at hid
      exact absurd hid (Option.some_ne_none _)
  · obtain ⟨acts, hf⟩ := exists_finish (S := S) s hid h
    exact ⟨acts, id, hf⟩

/-- **All who hold the lock can give it back**, one after the other; whoever does
not hold it stays where it is. -/
theorem exists_free (s : Sys σ ω τ α β ι ν ρ) (h : Held s.lock s.task) :
    ∃ acts : List (Action τ α β γ), (S.machine.run s acts).lock.writer = none ∧
      (S.machine.run s acts).lock.readers = ∅ ∧
      ∀ u, ¬ (s.task u).Reads → ¬ (s.task u).Writes →
        (S.machine.run s acts).task u = s.task u := by
  induction hn : s.lock.readers.card generalizing s with
  | zero =>
    have hnone : s.lock.readers = ∅ := Finset.card_eq_zero.1 hn
    rcases hw : s.lock.writer with _ | t
    · exact ⟨[], hw, hnone, fun _ _ _ => rfl⟩
    · have ht := (h.writer t).1 hw
      obtain ⟨acts, id, hf⟩ := exists_finish_of_holds (S := S) s (Or.inr ht)
      refine ⟨acts, ?_, ?_, fun u _ hu => ?_⟩
      · rw [hf.lock]
        exact if_pos hw
      · rw [hf.lock]
        show s.lock.readers.erase t = ∅
        rw [hnone, Finset.erase_empty]
      · refine hf.others u ?_
        rintro rfl
        exact hu ht
  | succ n ih =>
    obtain ⟨t, ht⟩ := Finset.card_pos.1 (by omega : 0 < s.lock.readers.card)
    have hr := (h.readers t).1 ht
    obtain ⟨acts, id, hf⟩ := exists_finish_of_holds (S := S) s (Or.inl hr)
    have hcard : (S.machine.run s acts).lock.readers.card = n := by
      rw [hf.lock]
      show (s.lock.readers.erase t).card = n
      rw [Finset.card_erase_of_mem ht]
      omega
    obtain ⟨acts', hw', hr', hothers⟩ := ih (S.machine.run s acts) (held_run h acts) hcard
    refine ⟨acts ++ acts', ?_, ?_, fun u hur huw => ?_⟩
    · rw [Machine.run_append]
      exact hw'
    · rw [Machine.run_append]
      exact hr'
    · have hu : (S.machine.run s acts).task u = s.task u := by
        refine hf.others u ?_
        rintro rfl
        exact hur hr
      rw [Machine.run_append, hothers u (by rwa [hu]) (by rwa [hu]), hu]

/-- Who waits for a free lock acquires it. -/
theorem holds_acquire {s : Sys σ ω τ α β ι ν ρ} (hw : s.lock.writer = none)
    (hr : s.lock.readers = ∅) {t : τ} {id : ℕ} {call : Call α β}
    (ht : s.task t = .waiting id call) :
    ((S.step s (.acquire t)).task t).id? = some id ∧
      (((S.step s (.acquire t)).task t).Reads ∨ ((S.step s (.acquire t)).task t).Writes) := by
  cases call with
  | write a =>
    have hl : s.lock.write t = some ⟨∅, some t, Or.inr rfl⟩ := if_pos ⟨hw, hr⟩
    simp only [step, ht, hl, Function.update_self]
    exact ⟨rfl, Or.inr trivial⟩
  | read b =>
    have hl : s.lock.read t = some ⟨insert t s.lock.readers, none, Or.inl rfl⟩ := if_pos hw
    simp only [step, ht, hl, Function.update_self]
    exact ⟨rfl, Or.inl trivial⟩

/-- **No call is ever stuck**: a task in a call can go on to its return. -/
theorem exists_returned (s : Sys σ ω τ α β ι ν ρ) (h : Held s.lock s.task) {t : τ} {id : ℕ}
    (hid : (s.task t).id? = some id) :
    ∃ (acts : List (Action τ α β γ)) (r : ρ), .returned id r ∈ (S.machine.run s acts).log := by
  have hholder : (s.task t).Reads ∨ (s.task t).Writes →
      ∃ (acts : List (Action τ α β γ)) (r : ρ), .returned id r ∈ (S.machine.run s acts).log := by
    intro hholds
    obtain ⟨acts, hf⟩ := exists_finish (S := S) s hid hholds
    exact ⟨acts, hf.returned⟩
  rcases phase_cases hid with ⟨call, ht⟩ | ⟨a, ht⟩ | ⟨r, ht⟩ | ⟨b, ht⟩ | ⟨b, rest, n, ht⟩
  · -- It waits: the holders return, it acquires the lock, and then returns itself.
    obtain ⟨acts, hw, hr, hothers⟩ := exists_free (S := S) s h
    have ht' := hothers t (by rw [ht]; exact not_false) (by rw [ht]; exact not_false)
    obtain ⟨hid', hholds'⟩ := holds_acquire (S := S) hw hr (ht'.trans ht)
    obtain ⟨acts', hf⟩ := exists_finish (S := S) _ hid' hholds'
    refine ⟨acts ++ .acquire t :: acts', ?_⟩
    rw [Machine.run_append]
    exact hf.returned
  · exact hholder (Or.inr (by rw [ht]; trivial))
  · exact hholder (Or.inr (by rw [ht]; trivial))
  · exact hholder (Or.inl (by rw [ht]; trivial))
  · exact hholder (Or.inl (by rw [ht]; trivial))

/-! ### A call returns what it was invoked for -/

/-- What was invoked is under way or has returned, and a call that waits or has
acquired the lock is the one invoked. -/
structure Accounted (task : τ → Phase α β ι ρ) (log : List (Event α β ι ν ρ)) : Prop where
  waiting : ∀ t id call, task t = .waiting id call → .invoked id call ∈ log
  acquired : ∀ id call, .acquired id call ∈ log → .invoked id call ∈ log
  pending : ∀ id call, .invoked id call ∈ log →
    (∃ t, (task t).id? = some id) ∨ ∃ r, .returned id r ∈ log

section Accounted

variable {task : τ → Phase α β ι ρ} {log : List (Event α β ι ν ρ)} (h : Accounted task log) {t : τ}

include h

/-- A task goes on with its call, or returns from it. -/
theorem Accounted.next {id : ℕ} {p q : Phase α β ι ρ} {es : List (Event α β ι ν ρ)}
    (ht : task t = q) (hq : q.id? = some id) (hp : p.id? = some id ∨ ∃ r, .returned id r ∈ es)
    (hwait : ∀ id' call, p ≠ .waiting id' call) (hno : ∀ id' call, .invoked id' call ∉ es)
    (hacq : ∀ id' call, .acquired id' call ∈ es → .invoked id' call ∈ log) :
    Accounted (Function.update task t p) (log ++ es) := by
  refine ⟨fun u id' call hu => ?_, fun id' call he => ?_, fun id' call he => ?_⟩
  · rw [Function.update_apply] at hu
    split_ifs at hu with hut
    · exact absurd hu (hwait id' call)
    · exact List.mem_append_left _ (h.waiting u id' call hu)
  · rcases List.mem_append.1 he with he | he
    · exact List.mem_append_left _ (h.acquired id' call he)
    · exact List.mem_append_left _ (hacq id' call he)
  · have he' := (List.mem_append.1 he).resolve_right (hno id' call)
    rcases h.pending id' call he' with ⟨u, hu⟩ | ⟨r, hr⟩
    · by_cases hut : u = t
      · rw [hut, ht, hq] at hu
        obtain rfl := Option.some.inj hu
        rcases hp with hp | ⟨r, hr⟩
        · exact Or.inl ⟨t, by rwa [Function.update_self]⟩
        · exact Or.inr ⟨r, List.mem_append_right _ hr⟩
      · exact Or.inl ⟨u, by rwa [Function.update_of_ne hut]⟩
    · exact Or.inr ⟨r, List.mem_append_left _ hr⟩

/-- A call is invoked. -/
theorem Accounted.invoke {id : ℕ} (call : Call α β) (ht : task t = .idle) :
    Accounted (Function.update task t (.waiting id call)) (log ++ [.invoked id call]) := by
  refine ⟨fun u id' call' hu => ?_, fun id' call' he => ?_, fun id' call' he => ?_⟩
  · rw [Function.update_apply] at hu
    split_ifs at hu with hut
    · obtain ⟨rfl, rfl⟩ := Phase.waiting.inj hu
      exact List.mem_append_right _ (List.mem_singleton_self _)
    · exact List.mem_append_left _ (h.waiting u id' call' hu)
  · refine List.mem_append_left _ (h.acquired id' call' ?_)
    simpa using he
  · rcases List.mem_append.1 he with he | he
    · rcases h.pending id' call' he with ⟨u, hu⟩ | ⟨r, hr⟩
      · refine Or.inl ⟨u, ?_⟩
        rw [Function.update_of_ne]
        · exact hu
        · rintro rfl
          rw [ht] at hu
          exact absurd hu (Option.some_ne_none id').symm
      · exact Or.inr ⟨r, List.mem_append_left _ hr⟩
    · obtain ⟨rfl, rfl⟩ := Event.invoked.inj (List.mem_singleton.1 he)
      exact Or.inl ⟨t, by rw [Function.update_self]; rfl⟩

end Accounted

/-- Every step keeps every call that was made accounted for. -/
theorem Step.accounted {s s' : Sys σ ω τ α β ι ν ρ} (hs : S.Step s s')
    (h : Accounted s.task s.log) : Accounted s'.task s'.log := by
  cases hs with
  | invoke t call ht => exact h.invoke call ht
  | acquireWrite t id a lock ht hl =>
    refine h.next ht rfl (Or.inl rfl) (by simp) (by simp) fun id' call he => ?_
    obtain ⟨rfl, rfl⟩ := Event.acquired.inj (List.mem_singleton.1 he)
    exact h.waiting t id' _ ht
  | acquireRead t id b lock ht hl =>
    refine h.next ht rfl (Or.inl rfl) (by simp) (by simp) fun id' call he => ?_
    obtain ⟨rfl, rfl⟩ := Event.acquired.inj (List.mem_singleton.1 he)
    exact h.waiting t id' _ ht
  | update t id a ht =>
    have hnext : Accounted (Function.update s.task t (.wrote id (S.update s.guarded a).2))
        (s.log ++ []) := h.next ht rfl (Or.inl rfl) (by simp) (by simp) (by simp)
    rwa [List.append_nil] at hnext
  | start t id b ht =>
    have hnext : Accounted (Function.update s.task t (.walking id b (S.items s.guarded b) 0))
        (s.log ++ []) := h.next ht rfl (Or.inl rfl) (by simp) (by simp) (by simp)
    rwa [List.append_nil] at hnext
  | visit t id b i rest n ht =>
    exact h.next ht rfl (Or.inl rfl) (by simp) (by simp) (by simp)
  | returnWrite t id r ht =>
    exact h.next ht rfl (Or.inr ⟨r, List.mem_singleton_self _⟩) (by simp) (by simp) (by simp)
  | returnRead t id b n ht =>
    exact h.next ht rfl (Or.inr ⟨_, List.mem_singleton_self _⟩) (by simp) (by simp) (by simp)
  | client g => exact h

/-- **Every call that was made is under way or has returned**, after every schedule. -/
theorem accounted_after (s₀ : σ) (w : ω) (acts : List (Action τ α β γ)) :
    Accounted (S.after s₀ w acts).task (S.after s₀ w acts).log := by
  refine after_inv (I := fun s : Sys σ ω τ α β ι ν ρ => Accounted s.task s.log)
    (fun _ _ hs => hs.accounted) ⟨nofun, ?_, ?_⟩ acts
  · exact fun _ _ he => absurd he List.not_mem_nil
  · exact fun _ _ he => absurd he List.not_mem_nil

/-- What is logged stays logged. -/
theorem mem_log_run {s : Sys σ ω τ α β ι ν ρ} {e : Event α β ι ν ρ} (he : e ∈ s.log)
    (acts : List (Action τ α β γ)) : e ∈ (S.machine.run s acts).log := by
  refine run_inv (I := fun s : Sys σ ω τ α β ι ν ρ => e ∈ s.log) (fun s s' hs he => ?_) he acts
  cases hs with
  | update => exact he
  | start => exact he
  | client => exact he
  | _ => exact List.mem_append_left _ he

/-- A schedule is run part by part. -/
theorem after_append (s₀ : σ) (w : ω) (acts more : List (Action τ α β γ)) :
    S.after s₀ w (acts ++ more) = S.machine.run (S.after s₀ w acts) more :=
  S.machine.run_append _ acts more

/-- **Whatever has happened, a call that was made can return.** -/
theorem can_return (s₀ : σ) (w : ω) (acts : List (Action τ α β γ)) {id : ℕ} {call : Call α β}
    (h : .invoked id call ∈ (S.after s₀ w acts).log) :
    ∃ (more : List (Action τ α β γ)) (r : ρ),
      .returned id r ∈ (S.after s₀ w (acts ++ more)).log := by
  rcases (accounted_after s₀ w acts).pending id call h with ⟨t, ht⟩ | ⟨r, hr⟩
  · obtain ⟨more, r, hr⟩ := exists_returned (S := S) _ (inv_after s₀ w acts).held ht
    exact ⟨more, r, by rwa [after_append]⟩
  · exact ⟨[], r, by rwa [List.append_nil]⟩

omit [DecidableEq τ] in
/-- An acquisition is in the log. -/
theorem Acquired.mem_log {s₀ s : σ} {log : List (Event α β ι ν ρ)} {id : ℕ} {call : Call α β}
    (h : Acquired S s₀ log id call s) : .acquired id call ∈ log := by
  obtain ⟨pre, post, hlog, -⟩ := h
  have hmem : (id, call) ∈ acquisitions log := by
    rw [hlog]
    exact List.mem_append_right _ List.mem_cons_self
  obtain ⟨e, he, hacq⟩ := List.mem_filterMap.1 hmem
  cases e with
  | acquired id' call' =>
    obtain ⟨rfl, rfl⟩ := Prod.mk.inj (Option.some.inj hacq)
    exact he
  | _ => exact absurd hacq (Option.some_ne_none _).symm

/-- **What is returned under a number answers the call invoked under it**, in the
state in which that call acquired the lock. -/
theorem returned_answers (s₀ : σ) (w : ω) (acts : List (Action τ α β γ)) {id : ℕ}
    {call : Call α β} {r : ρ} (hi : .invoked id call ∈ (S.after s₀ w acts).log)
    (hr : .returned id r ∈ (S.after s₀ w acts).log) :
    ∃ s, Acquired S s₀ (S.after s₀ w acts).log id call s ∧
      Completed S (S.after s₀ w acts).log id r s call := by
  have hinv := inv_after (S := S) s₀ w acts
  obtain ⟨call', s, hacq, hcomp⟩ := hinv.done id r hr
  have hi' := (accounted_after s₀ w acts).acquired id call' hacq.mem_log
  have hsame : (.invoked id call : Event α β ι ν ρ) = .invoked id call' :=
    hinv.staged.unique hi hi' rfl rfl (by simp)
  obtain rfl := (Event.invoked.inj hsame).2
  exact ⟨s, hacq, hcomp⟩

end Service
end Basis
