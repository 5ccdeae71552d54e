/-
# What calls on a guarded state return

The guarded state is always where the calls that acquired the lock lead to, one
at a time in the order of their acquisitions, except that a writer may still
have to do its update (`Settled`).  A call therefore acquires the lock in the
state the calls before it lead to (`Acquired`).  A walk visits the items read
off that state, each once and in order, and counts them there, since nobody
writes until it returns (`Walked`, `Serving`).  `Inv` has all of this together
with who holds the lock and what is logged in which order; it holds after every
schedule (`inv_after`), and what it says of a call that has returned is
`Inv.done`.
-/

import Denshin.Basis.Guarded.Lock
import Denshin.Basis.Guarded.Order

namespace Basis

variable {σ ω τ α β γ ι ν ρ : Type*}

namespace Service

variable {S : Service σ ω α β γ ι ν ρ} [DecidableEq τ]

/-! ### The order of the acquisitions -/

/-- The calls one at a time, and one more. -/
theorem serial_run_append (s : σ) (cs : List (ℕ × Call α β)) (c : ℕ × Call α β) :
    S.serial.run s (cs ++ [c]) = (S.serial.step (S.serial.run s cs) c).1 :=
  S.serial.run_append s cs [c]

/-- The guarded state is where the acquisitions so far lead to, one at a time,
but for the update a writer still has to do. -/
structure Settled (S : Service σ ω α β γ ι ν ρ) (s₀ guarded : σ) (task : τ → Phase α β ι ρ)
    (log : List (Event α β ι ν ρ)) : Prop where
  done : (∀ t id a, task t ≠ .writing id a) → guarded = S.serial.run s₀ (acquisitions log)
  pending : ∀ t id a, task t = .writing id a →
    ∃ pre, acquisitions log = pre ++ [(id, .write a)] ∧ guarded = S.serial.run s₀ pre

section Settled

variable {s₀ guarded : σ} {task : τ → Phase α β ι ρ} {log : List (Event α β ι ν ρ)}
  (h : Settled S s₀ guarded task log) {t : τ}

include h

/-- A task goes on, without an update. -/
theorem Settled.stay {p q : Phase α β ι ρ} (ht : task t = q) (hq : ∀ id a, q ≠ .writing id a)
    (hp : ∀ id a, p ≠ .writing id a) {es : List (Event α β ι ν ρ)} (hes : acquisitions es = []) :
    Settled S s₀ guarded (Function.update task t p) (log ++ es) := by
  have hlog : acquisitions (log ++ es) = acquisitions log := by
    rw [acquisitions, List.filterMap_append, ← acquisitions, ← acquisitions, hes, List.append_nil]
  have hother : ∀ u id a, Function.update task t p u = .writing id a ↔ task u = .writing id a := by
    intro u id a
    rw [Function.update_apply]
    split_ifs with hu
    · rw [hu, ht]
      exact iff_of_false (hp id a) (hq id a)
    · rfl
  constructor
  · intro hno
    rw [hlog]
    exact h.done fun u id a hu => hno u id a ((hother u id a).2 hu)
  · intro u id a hu
    rw [hlog]
    exact h.pending u id a ((hother u id a).1 hu)

omit [DecidableEq τ] in
/-- Nobody is writing while the lock is free of writers. -/
theorem Settled.eq_of_free {lock : RwLock τ} (hheld : Held lock task) (hfree : lock.writer = none) :
    guarded = S.serial.run s₀ (acquisitions log) := h.done (hheld.not_writing hfree)

end Settled

/-- **Every step keeps the guarded state** where the acquisitions lead to. -/
theorem Step.settled {s₀ : σ} {s s' : Sys σ ω τ α β ι ν ρ} (hs : S.Step s s')
    (hheld : Held s.lock s.task) (h : Settled S s₀ s.guarded s.task s.log) :
    Settled S s₀ s'.guarded s'.task s'.log := by
  cases hs with
  | invoke t call ht => exact h.stay ht (by simp) (by simp) rfl
  | acquireWrite t id a lock ht hl =>
    have hfree := (RwLock.write_eq_some hl).1
    constructor
    · intro hno
      exact absurd (Function.update_self ..) (hno t id a)
    · intro u id' a' hu
      simp only [Function.update_apply] at hu
      split_ifs at hu
      · cases hu
        refine ⟨acquisitions s.log, List.filterMap_append, ?_⟩
        exact h.eq_of_free hheld hfree
      · exact absurd hu (hheld.not_writing hfree u id' a')
  | acquireRead t id b lock ht hl =>
    have hfree := (RwLock.read_eq_some hl).1
    constructor
    · intro _
      have hlog : acquisitions (s.log ++ [.acquired id (.read b)]) =
          acquisitions s.log ++ [(id, .read b)] := List.filterMap_append
      rw [hlog, serial_run_append]
      exact h.eq_of_free hheld hfree
    · intro u id' a' hu
      simp only [Function.update_apply] at hu
      split_ifs at hu
      exact absurd hu (hheld.not_writing hfree u id' a')
  | update t id a ht =>
    obtain ⟨pre, hpre, hguarded⟩ := h.pending t id a ht
    have hwrites : (s.task t).Writes := by rw [ht]; trivial
    constructor
    · intro _
      rw [hpre, serial_run_append, ← hguarded]
      rfl
    · intro u id' a' hu
      simp only [Function.update_apply] at hu
      split_ifs at hu with hut
      have hboth : (s.task u).Writes := by rw [hu]; trivial
      exact absurd hboth (hheld.alone hwrites hut).2
  | start t id b ht =>
    have hstay : Settled S s₀ s.guarded
        (Function.update s.task t (.walking id b (S.items s.guarded b) 0)) (s.log ++ []) :=
      h.stay ht (by simp) (by simp) rfl
    rwa [List.append_nil] at hstay
  | visit t id b i rest n ht => exact h.stay ht (by simp) (by simp) rfl
  | returnWrite t id r ht => exact h.stay ht (by simp) (by simp) rfl
  | returnRead t id b n ht => exact h.stay ht (by simp) (by simp) rfl
  | client g => exact h

/-! ### What a call is served -/

/-- The call acquired the lock when the calls before it had led to `s`. -/
def Acquired (S : Service σ ω α β γ ι ν ρ) (s₀ : σ) (log : List (Event α β ι ν ρ)) (id : ℕ)
    (call : Call α β) (s : σ) : Prop :=
  ∃ pre post, acquisitions log = pre ++ (id, call) :: post ∧ S.serial.run s₀ pre = s

/-- The items read off `s` are those visited and those still to come; each visit
did what it does in `s`, and `n` of them counted. -/
structure Walked (S : Service σ ω α β γ ι ν ρ) (s : σ) (b : β) (vs : List (ι × ν)) (rest : List ι)
    (n : ℕ) : Prop where
  items : vs.map Prod.fst ++ rest = S.items s b
  visits : ∀ v ∈ vs, ∃ w, v.2 = (S.visit s b w v.1).2
  count : (vs.countP fun v => S.counts v.2) = n

/-- What is true of the call a task is in. -/
def Serving (S : Service σ ω α β γ ι ν ρ) (s₀ s : σ) (log : List (Event α β ι ν ρ)) :
    Phase α β ι ρ → Prop
  | .wrote id r => ∃ a s', Acquired S s₀ log id (.write a) s' ∧ r = (S.update s' a).2
  | .reading id b => Acquired S s₀ log id (.read b) s ∧ visits id log = []
  | .walking id b rest n => Acquired S s₀ log id (.read b) s ∧ Walked S s b (visits id log) rest n
  | _ => True

/-- What is true of a call that has returned `r`, and acquired the lock in `s`. -/
def Completed (S : Service σ ω α β γ ι ν ρ) (log : List (Event α β ι ν ρ)) (id : ℕ) (r : ρ)
    (s : σ) : Call α β → Prop
  | .write a => r = (S.update s a).2
  | .read b => ∃ n, Walked S s b (visits id log) [] n ∧ r = S.answer s b n

section Serving

variable {s₀ s : σ} {log es : List (Event α β ι ν ρ)} {id : ℕ}

omit [DecidableEq τ] in
/-- A call has acquired the lock whatever is logged later. -/
theorem Acquired.append {call : Call α β} (h : Acquired S s₀ log id call s)
    (es : List (Event α β ι ν ρ)) : Acquired S s₀ (log ++ es) id call s := by
  obtain ⟨pre, post, hlog, hs⟩ := h
  refine ⟨pre, post ++ acquisitions es, ?_, hs⟩
  rw [acquisitions, List.filterMap_append, ← acquisitions, hlog, List.append_assoc]
  rfl

omit [DecidableEq τ] in
/-- The call that acquires the lock last. -/
theorem acquired_last (hs : s = S.serial.run s₀ (acquisitions log)) (call : Call α β) :
    Acquired S s₀ (log ++ [.acquired id call]) id call s :=
  ⟨acquisitions log, [], List.filterMap_append, hs.symm⟩

/-- An event of another call is no visit of this one. -/
theorem visit_eq_none {e : Event α β ι ν ρ} (h : e.id ≠ id) : e.visit id = none := by
  cases e with
  | visited id' i out => exact if_neg h
  | _ => rfl

/-- What other calls log adds no visit. -/
theorem visits_append_of_ne (h : ∀ e ∈ es, e.id ≠ id) : visits id (log ++ es) = visits id log := by
  have hnone : visits id es = [] := List.filterMap_eq_nil_iff.2 fun e he => visit_eq_none (h e he)
  rw [visits, List.filterMap_append, ← visits, ← visits, hnone, List.append_nil]

/-- A visit is added to those before it. -/
theorem visits_append_visited (i : ι) (out : ν) :
    visits id (log ++ [.visited id i out]) = visits id log ++ [(i, out)] := by
  have hv : (.visited id i out : Event α β ι ν ρ).visit id = some (i, out) := if_pos rfl
  rw [visits, List.filterMap_append, ← visits, List.filterMap_cons_some hv]
  rfl

/-- The calls of other tasks are served as before. -/
theorem Serving.stable {s' : σ} {p : Phase α β ι ρ} (h : Serving S s₀ s log p)
    (hs : p.Reads → s' = s) (hes : ∀ e ∈ es, p.id? ≠ some e.id) :
    Serving S s₀ s' (log ++ es) p := by
  cases p with
  | idle => trivial
  | waiting => trivial
  | writing => trivial
  | wrote id r =>
    obtain ⟨a, t, ht, hr⟩ := h
    exact ⟨a, t, ht.append es, hr⟩
  | reading id b =>
    rw [hs trivial]
    refine ⟨h.1.append es, ?_⟩
    rw [visits_append_of_ne fun e he heq => hes e he (congrArg some heq.symm)]
    exact h.2
  | walking id b rest n =>
    rw [hs trivial]
    refine ⟨h.1.append es, ?_⟩
    rw [visits_append_of_ne fun e he heq => hes e he (congrArg some heq.symm)]
    exact h.2

/-- A returned call was served as before. -/
theorem Completed.stable {r : ρ} {call : Call α β} (h : Completed S log id r s call)
    (hes : ∀ e ∈ es, e.id ≠ id) : Completed S (log ++ es) id r s call := by
  cases call with
  | write a => exact h
  | read b =>
    obtain ⟨n, hwalk, hr⟩ := h
    exact ⟨n, by rwa [visits_append_of_ne hes], hr⟩

end Serving

/-- **The invariant of every schedule.** -/
structure Inv (S : Service σ ω α β γ ι ν ρ) (s₀ : σ) (s : Sys σ ω τ α β ι ν ρ) : Prop where
  held : Held s.lock s.task
  staged : Staged s.task s.calls s.log
  settled : Settled S s₀ s.guarded s.task s.log
  serving : ∀ t, Serving S s₀ s.guarded s.log (s.task t)
  done : ∀ id r, .returned id r ∈ s.log →
    ∃ call s', Acquired S s₀ s.log id call s' ∧ Completed S s.log id r s' call

omit [DecidableEq τ] in
/-- The invariant holds at the start. -/
theorem inv_start (s₀ : σ) (w : ω) : Inv S s₀ (Sys.start s₀ w : Sys σ ω τ α β ι ν ρ) where
  held := ⟨fun t => iff_of_false (Finset.notMem_empty t) id, fun _ => iff_of_false nofun id⟩
  staged := staged_start
  settled := ⟨fun _ => rfl, nofun⟩
  serving _ := trivial
  done _ _ h := absurd h List.not_mem_nil

/-- A task goes on and the others are served as before. -/
theorem serving_update {s₀ s s' : σ} {task : τ → Phase α β ι ρ} {log es : List (Event α β ι ν ρ)}
    {t : τ} {p : Phase α β ι ρ} (h : ∀ u, Serving S s₀ s log (task u))
    (hs : ∀ u, u ≠ t → (task u).Reads → s' = s)
    (hes : ∀ u, u ≠ t → ∀ e ∈ es, (task u).id? ≠ some e.id)
    (hp : Serving S s₀ s' (log ++ es) p) (u : τ) :
    Serving S s₀ s' (log ++ es) (Function.update task t p u) := by
  rw [Function.update_apply]
  split_ifs with hu
  · exact hp
  · exact (h u).stable (hs u hu) (hes u hu)

omit [DecidableEq τ] in
/-- What a task logs is of its own call. -/
theorem Staged.other {task : τ → Phase α β ι ρ} {calls : ℕ} {log : List (Event α β ι ν ρ)}
    (h : Staged task calls log) {t : τ} {p : Phase α β ι ρ} {e : Event α β ι ν ρ}
    (ht : task t = p) (hp : p.id? = some e.id) :
    ∀ u, u ≠ t → ∀ e' ∈ [e], (task u).id? ≠ some e'.id := by
  intro u hu e' he' heq
  rw [List.mem_singleton.1 he'] at heq
  exact hu (h.inj u t e.id heq (by rw [ht, hp]))

omit [DecidableEq τ] in
/-- A call that has not begun to walk has visited nothing. -/
theorem Staged.visits_eq_nil {task : τ → Phase α β ι ρ} {calls : ℕ} {log : List (Event α β ι ν ρ)}
    (h : Staged task calls log) {t : τ} {id : ℕ} (ht : (task t).id? = some id)
    (hstage : (task t).stage < 2) : visits id log = [] := by
  refine List.filterMap_eq_nil_iff.2 fun e he => ?_
  cases e with
  | visited id' i out =>
    refine if_neg fun hid => ?_
    have hle := h.stage_le t _ he (ht.trans (congrArg some hid.symm))
    have htwo : (.visited id' i out : Event α β ι ν ρ).stage = 2 := rfl
    omega
  | _ => rfl

/-- A walk goes on to its next item. -/
theorem Walked.visit {s : σ} {b : β} {vs : List (ι × ν)} {i : ι} {rest : List ι} {n : ℕ}
    (h : Walked S s b vs (i :: rest) n) (w : ω) :
    Walked S s b (vs ++ [(i, (S.visit s b w i).2)]) rest
      (if S.counts (S.visit s b w i).2 then n + 1 else n) where
  items := by
    rw [List.map_append, List.append_assoc]
    exact h.items
  visits v hv := by
    rcases List.mem_append.1 hv with hv | hv
    · exact h.visits v hv
    · rw [List.mem_singleton.1 hv]
      exact ⟨w, rfl⟩
  count := by
    rw [List.countP_append, h.count, List.countP_singleton]
    split_ifs <;> rfl

/-- Every step keeps what is true of the call each task is in. -/
theorem Step.serving {s₀ : σ} {s s' : Sys σ ω τ α β ι ν ρ} (hs : S.Step s s') (h : Inv S s₀ s) :
    ∀ t, Serving S s₀ s'.guarded s'.log (s'.task t) := by
  cases hs with
  | invoke t call ht =>
    refine serving_update h.serving (fun _ _ _ => rfl) (fun u hu e he heq => ?_) trivial
    rw [List.mem_singleton.1 he] at heq
    have hlt := h.staged.task_lt u _ heq
    exact absurd hlt (Nat.lt_irrefl _)
  | acquireWrite t id a lock ht hl =>
    exact serving_update h.serving (fun _ _ _ => rfl) (h.staged.other ht rfl) trivial
  | acquireRead t id b lock ht hl =>
    refine serving_update h.serving (fun _ _ _ => rfl) (h.staged.other ht rfl) ⟨?_, ?_⟩
    · exact acquired_last (h.settled.eq_of_free h.held (RwLock.read_eq_some hl).1) _
    · -- The call has only been invoked so far.
      have hnil := h.staged.visits_eq_nil (by rw [ht]; rfl) (by rw [ht]; simp)
      rw [visits, List.filterMap_append, ← visits, hnil]
      rfl
  | update t id a ht =>
    obtain ⟨pre, hpre, hguarded⟩ := h.settled.pending t id a ht
    have hp : Serving S s₀ (S.update s.guarded a).1 (s.log ++ [])
        (.wrote id (S.update s.guarded a).2) := by
      rw [List.append_nil]
      exact ⟨a, s.guarded, ⟨pre, [], hpre, hguarded.symm⟩, rfl⟩
    have hwrites : (s.task t).Writes := by rw [ht]; trivial
    have hall := serving_update h.serving
      (fun u hu hr => absurd hr (h.held.alone hwrites hu).1) (by simp) hp
    rwa [List.append_nil] at hall
  | start t id b ht =>
    obtain ⟨hacq, hnone⟩ : Serving S s₀ s.guarded s.log (.reading id b) := ht ▸ h.serving t
    have hp : Serving S s₀ s.guarded (s.log ++ [])
        (.walking id b (S.items s.guarded b) 0) := by
      rw [List.append_nil]
      refine ⟨hacq, ?_, ?_, ?_⟩ <;> rw [hnone]
      · rfl
      · exact fun v hv => absurd hv List.not_mem_nil
      · rfl
    have hall := serving_update h.serving (fun _ _ _ => rfl) (by simp) (t := t) hp
    rwa [List.append_nil] at hall
  | visit t id b i rest n ht =>
    obtain ⟨hacq, hwalk⟩ : Serving S s₀ s.guarded s.log (.walking id b (i :: rest) n) :=
      ht ▸ h.serving t
    refine serving_update h.serving (fun _ _ _ => rfl) (h.staged.other ht rfl)
      ⟨hacq.append _, ?_⟩
    rw [visits_append_visited]
    exact hwalk.visit s.outside
  | returnWrite t id r ht =>
    exact serving_update h.serving (fun _ _ _ => rfl) (h.staged.other ht rfl) trivial
  | returnRead t id b n ht =>
    exact serving_update h.serving (fun _ _ _ => rfl) (h.staged.other ht rfl) trivial
  | client g => exact h.serving

/-- Nothing is logged of a call that has returned. -/
theorem not_logged_of_returned {log es : List (Event α β ι ν ρ)}
    (h : (log ++ es).Pairwise fun e e' => e.id = e'.id → e.Then e') {id : ℕ} {r : ρ}
    (hr : .returned id r ∈ log) : ∀ e ∈ es, e.id ≠ id := by
  intro e he heq
  have hthen := (List.pairwise_append.1 h).2.2 _ hr e he heq.symm
  have hle : e.stage ≤ 3 := by cases e <;> simp
  have hthree : (.returned id r : Event α β ι ν ρ).stage = 3 := rfl
  unfold Event.Then at hthen
  omega

/-- The calls that had returned are served as before. -/
theorem done_append {s₀ : σ} {log es : List (Event α β ι ν ρ)}
    (hord : (log ++ es).Pairwise fun e e' => e.id = e'.id → e.Then e')
    (h : ∀ id r, .returned id r ∈ log →
      ∃ call s', Acquired S s₀ log id call s' ∧ Completed S log id r s' call)
    (hes : ∀ id r, .returned id r ∈ es →
      ∃ call s', Acquired S s₀ (log ++ es) id call s' ∧ Completed S (log ++ es) id r s' call) :
    ∀ id r, .returned id r ∈ log ++ es →
      ∃ call s', Acquired S s₀ (log ++ es) id call s' ∧ Completed S (log ++ es) id r s' call := by
  intro id r hr
  rcases List.mem_append.1 hr with hr | hr
  · obtain ⟨call, s', hacq, hcomp⟩ := h id r hr
    exact ⟨call, s', hacq.append es, hcomp.stable (not_logged_of_returned hord hr)⟩
  · exact hes id r hr

/-- Every step keeps what is true of the calls that have returned. -/
theorem Step.done {s₀ : σ} {s s' : Sys σ ω τ α β ι ν ρ} (hs : S.Step s s') (h : Inv S s₀ s) :
    ∀ id r, .returned id r ∈ s'.log →
      ∃ call s'', Acquired S s₀ s'.log id call s'' ∧ Completed S s'.log id r s'' call := by
  have hord := (hs.staged h.staged).ordered
  cases hs with
  | invoke t call ht => exact done_append hord h.done (by simp)
  | acquireWrite t id a lock ht hl => exact done_append hord h.done (by simp)
  | acquireRead t id b lock ht hl => exact done_append hord h.done (by simp)
  | update t id a ht => exact h.done
  | start t id b ht => exact h.done
  | visit t id b i rest n ht => exact done_append hord h.done (by simp)
  | returnWrite t id r ht =>
    obtain ⟨a, s'', hacq, hr⟩ : Serving S s₀ s.guarded s.log (.wrote id r) := ht ▸ h.serving t
    refine done_append hord h.done fun id' r' hr' => ?_
    obtain ⟨rfl, rfl⟩ : id' = id ∧ r' = r := by simpa using hr'
    exact ⟨.write a, s'', hacq.append _, hr⟩
  | returnRead t id b n ht =>
    obtain ⟨hacq, hwalk⟩ : Serving S s₀ s.guarded s.log (.walking id b [] n) := ht ▸ h.serving t
    refine done_append hord h.done fun id' r' hr' => ?_
    obtain ⟨rfl, rfl⟩ : id' = id ∧ r' = S.answer s.guarded b n := by simpa using hr'
    refine ⟨.read b, s.guarded, hacq.append _, n, ?_, rfl⟩
    have hsame : visits id' (s.log ++ [.returned id' (S.answer s.guarded b n)]) =
        visits id' s.log := by
      rw [visits, List.filterMap_append, ← visits]
      exact List.append_nil _
    rwa [hsame]
  | client g => exact h.done

/-- **Every step keeps the invariant.** -/
theorem Step.inv {s₀ : σ} {s s' : Sys σ ω τ α β ι ν ρ} (hs : S.Step s s') (h : Inv S s₀ s) :
    Inv S s₀ s' where
  held := hs.held h.held
  staged := hs.staged h.staged
  settled := hs.settled h.held h.settled
  serving := hs.serving h
  done := hs.done h

/-- **The invariant holds after every schedule.** -/
theorem inv_after (s₀ : σ) (w : ω) (acts : List (Action τ α β γ)) : Inv S s₀ (S.after s₀ w acts) :=
  after_inv (fun _ _ hs => hs.inv) (inv_start s₀ w) acts

end Service
end Basis
