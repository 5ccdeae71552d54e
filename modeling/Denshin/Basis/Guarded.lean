/-
# State behind a readers-writer lock

A `Service` is a state `σ` shared behind one readers-writer lock and a state
`ω` outside of it.  A writing call updates `σ`, in one step, under the lock held
exclusively; a reading call holds the lock shared and walks a list of items
read off `σ`, one step an item, changing `ω` only; clients change `ω` at any
time.  Any number of tasks make such calls in any interleaving (`Sys.step`, a
schedule is a list of actions, and one that is not enabled does nothing), and
everything that happens is put in a log.

An action changes the system in one of the nine ways of `Step`
(`step_cases`), so what these keep holds after every schedule (`after_inv`).
See `Denshin.Basis.Guarded.Lock` for who holds the lock,
`Denshin.Basis.Guarded.Order` for the order of the log and
`Denshin.Basis.Guarded.Serial` for what calls return.

The log, and the numbering of the calls in it, are there to be talked about; no
step depends on them.
-/

import Denshin.Basis.Machine
import Denshin.Basis.RwLock
import Mathlib.Logic.Function.Basic

namespace Basis

/-- What the calls on a guarded state do. -/
structure Service (σ ω α β γ ι ν ρ : Type*) where
  /-- A writing call, on the guarded state, -/
  update : σ → α → σ × ρ
  /-- and outside. -/
  effect : σ → α → ω → ω
  /-- What a reading call walks, -/
  items : σ → β → List ι
  /-- what it does at one item, -/
  visit : σ → β → ω → ι → ω × ν
  /-- whether that counts, -/
  counts : ν → Bool
  /-- and what it returns for a count. -/
  answer : σ → β → ℕ → ρ
  /-- What clients do outside. -/
  client : σ → γ → ω → ω

/-- A call, by the way it holds the lock. -/
inductive Call (α β : Type*)
  | write (a : α)
  | read (b : β)

/-- Where a task is. -/
inductive Phase (α β ι ρ : Type*)
  | idle
  | waiting (id : ℕ) (call : Call α β)
  | writing (id : ℕ) (a : α)
  | wrote (id : ℕ) (r : ρ)
  | reading (id : ℕ) (b : β)
  | walking (id : ℕ) (b : β) (rest : List ι) (n : ℕ)

/-- What is logged of a call. -/
inductive Event (α β ι ν ρ : Type*)
  | invoked (id : ℕ) (call : Call α β)
  | acquired (id : ℕ) (call : Call α β)
  | visited (id : ℕ) (i : ι) (out : ν)
  | returned (id : ℕ) (r : ρ)

/-- What can happen next. -/
inductive Action (τ α β γ : Type*)
  | invoke (t : τ) (call : Call α β)
  | acquire (t : τ)
  | work (t : τ)
  | release (t : τ)
  | client (g : γ)

/-- The system: the two states, the lock, where every task is, how many calls
were made, and the log, oldest entry first. -/
structure Sys (σ ω τ α β ι ν ρ : Type*) where
  guarded : σ
  outside : ω
  lock : RwLock τ
  task : τ → Phase α β ι ρ
  calls : ℕ
  log : List (Event α β ι ν ρ)

variable {σ ω τ α β γ ι ν ρ : Type*}

namespace Phase

/-- The call a task is in. -/
@[simp] def id? : Phase α β ι ρ → Option ℕ
  | idle => none
  | waiting id _ => some id
  | writing id _ => some id
  | wrote id _ => some id
  | reading id _ => some id
  | walking id _ _ _ => some id

/-- The stage its call is in. -/
@[simp] def stage : Phase α β ι ρ → ℕ
  | idle => 0
  | waiting .. => 0
  | writing .. => 1
  | wrote .. => 1
  | reading .. => 1
  | walking .. => 2

/-- The task holds the lock shared. -/
def Reads : Phase α β ι ρ → Prop
  | reading .. => True
  | walking .. => True
  | _ => False

/-- The task holds the lock exclusively. -/
def Writes : Phase α β ι ρ → Prop
  | writing .. => True
  | wrote .. => True
  | _ => False

end Phase

namespace Event

@[simp] def id : Event α β ι ν ρ → ℕ
  | invoked id _ => id
  | acquired id _ => id
  | visited id _ _ => id
  | returned id _ => id

/-- The stages of a call, in their order. -/
@[simp] def stage : Event α β ι ν ρ → ℕ
  | invoked .. => 0
  | acquired .. => 1
  | visited .. => 2
  | returned .. => 3

/-- One call may log the second entry after the first: only visits repeat. -/
def Then (e e' : Event α β ι ν ρ) : Prop :=
  e.stage < e'.stage ∨ e.stage = 2 ∧ e'.stage = 2

/-- The acquisition an entry is. -/
def acquisition : Event α β ι ν ρ → Option (ℕ × Call α β)
  | acquired id call => some (id, call)
  | _ => none

/-- The visit of a call an entry is. -/
def visit (id : ℕ) : Event α β ι ν ρ → Option (ι × ν)
  | visited id' i out => if id' = id then some (i, out) else none
  | _ => none

end Event

/-- The calls that acquired the lock, in the order they did. -/
def acquisitions (log : List (Event α β ι ν ρ)) : List (ℕ × Call α β) :=
  log.filterMap Event.acquisition

/-- What a call visited, in the order it did. -/
def visits (id : ℕ) (log : List (Event α β ι ν ρ)) : List (ι × ν) := log.filterMap (Event.visit id)

/-- The system at the start. -/
def Sys.start (s : σ) (w : ω) : Sys σ ω τ α β ι ν ρ := ⟨s, w, .free, fun _ => .idle, 0, []⟩

namespace Service

variable (S : Service σ ω α β γ ι ν ρ)

/-- The calls one at a time, on the guarded state. -/
def serial : Machine σ (ℕ × Call α β) (Option ρ) where
  step s
    | (_, .write a) => ((S.update s a).1, some (S.update s a).2)
    | (_, .read _) => (s, none)

/-- A walk nobody else interferes with: what it leaves outside, and its count. -/
def walk (s : σ) (b : β) (w : ω) : ω × ℕ :=
  (S.items s b).foldl (fun p i => ((S.visit s b p.1 i).1,
    if S.counts (S.visit s b p.1 i).2 then p.2 + 1 else p.2)) (w, 0)

variable [DecidableEq τ]

/-- One action. -/
def step (s : Sys σ ω τ α β ι ν ρ) : Action τ α β γ → Sys σ ω τ α β ι ν ρ
  | .invoke t call =>
    match s.task t with
    | .idle =>
      { s with
        task := Function.update s.task t (.waiting s.calls call)
        calls := s.calls + 1
        log := s.log ++ [.invoked s.calls call] }
    | _ => s
  | .acquire t =>
    match s.task t with
    | .waiting id (.write a) =>
      match s.lock.write t with
      | some lock =>
        { s with
          lock := lock
          task := Function.update s.task t (.writing id a)
          log := s.log ++ [.acquired id (.write a)] }
      | none => s
    | .waiting id (.read b) =>
      match s.lock.read t with
      | some lock =>
        { s with
          lock := lock
          task := Function.update s.task t (.reading id b)
          log := s.log ++ [.acquired id (.read b)] }
      | none => s
    | _ => s
  | .work t =>
    match s.task t with
    | .writing id a =>
      { s with
        guarded := (S.update s.guarded a).1
        outside := S.effect s.guarded a s.outside
        task := Function.update s.task t (.wrote id (S.update s.guarded a).2) }
    | .reading id b =>
      { s with task := Function.update s.task t (.walking id b (S.items s.guarded b) 0) }
    | .walking id b (i :: rest) n =>
      { s with
        outside := (S.visit s.guarded b s.outside i).1
        task := Function.update s.task t (.walking id b rest
          (if S.counts (S.visit s.guarded b s.outside i).2 then n + 1 else n))
        log := s.log ++ [.visited id i (S.visit s.guarded b s.outside i).2] }
    | _ => s
  | .release t =>
    match s.task t with
    | .wrote id r =>
      { s with
        lock := s.lock.release t
        task := Function.update s.task t .idle
        log := s.log ++ [.returned id r] }
    | .walking id b [] n =>
      { s with
        lock := s.lock.release t
        task := Function.update s.task t .idle
        log := s.log ++ [.returned id (S.answer s.guarded b n)] }
    | _ => s
  | .client g => { s with outside := S.client s.guarded g s.outside }

/-- A schedule is a run of this machine. -/
def machine : Machine (Sys σ ω τ α β ι ν ρ) (Action τ α β γ) Unit := ⟨fun s a => (S.step s a, ())⟩

/-- The system after a schedule. -/
def after (s : σ) (w : ω) (acts : List (Action τ α β γ)) : Sys σ ω τ α β ι ν ρ :=
  S.machine.run (Sys.start s w) acts

/-! ### What one action does -/

/-- **What can happen in one action that is enabled.** -/
inductive Step (s : Sys σ ω τ α β ι ν ρ) : Sys σ ω τ α β ι ν ρ → Prop
  | invoke (t : τ) (call : Call α β) (h : s.task t = .idle) : Step s
      { s with
        task := Function.update s.task t (.waiting s.calls call)
        calls := s.calls + 1
        log := s.log ++ [.invoked s.calls call] }
  | acquireWrite (t : τ) (id : ℕ) (a : α) (lock : RwLock τ)
      (h : s.task t = .waiting id (.write a)) (hl : s.lock.write t = some lock) : Step s
      { s with
        lock := lock
        task := Function.update s.task t (.writing id a)
        log := s.log ++ [.acquired id (.write a)] }
  | acquireRead (t : τ) (id : ℕ) (b : β) (lock : RwLock τ)
      (h : s.task t = .waiting id (.read b)) (hl : s.lock.read t = some lock) : Step s
      { s with
        lock := lock
        task := Function.update s.task t (.reading id b)
        log := s.log ++ [.acquired id (.read b)] }
  | update (t : τ) (id : ℕ) (a : α) (h : s.task t = .writing id a) : Step s
      { s with
        guarded := (S.update s.guarded a).1
        outside := S.effect s.guarded a s.outside
        task := Function.update s.task t (.wrote id (S.update s.guarded a).2) }
  | start (t : τ) (id : ℕ) (b : β) (h : s.task t = .reading id b) : Step s
      { s with task := Function.update s.task t (.walking id b (S.items s.guarded b) 0) }
  | visit (t : τ) (id : ℕ) (b : β) (i : ι) (rest : List ι) (n : ℕ)
      (h : s.task t = .walking id b (i :: rest) n) : Step s
      { s with
        outside := (S.visit s.guarded b s.outside i).1
        task := Function.update s.task t (.walking id b rest
          (if S.counts (S.visit s.guarded b s.outside i).2 then n + 1 else n))
        log := s.log ++ [.visited id i (S.visit s.guarded b s.outside i).2] }
  | returnWrite (t : τ) (id : ℕ) (r : ρ) (h : s.task t = .wrote id r) : Step s
      { s with
        lock := s.lock.release t
        task := Function.update s.task t .idle
        log := s.log ++ [.returned id r] }
  | returnRead (t : τ) (id : ℕ) (b : β) (n : ℕ) (h : s.task t = .walking id b [] n) : Step s
      { s with
        lock := s.lock.release t
        task := Function.update s.task t .idle
        log := s.log ++ [.returned id (S.answer s.guarded b n)] }
  | client (g : γ) : Step s { s with outside := S.client s.guarded g s.outside }

variable {S}

/-- An action that is not enabled does nothing. -/
theorem step_cases (s : Sys σ ω τ α β ι ν ρ) (act : Action τ α β γ) :
    S.step s act = s ∨ S.Step s (S.step s act) := by
  cases act with
  | invoke t call =>
    cases h : s.task t <;> simp only [step, h, true_or]
    exact Or.inr (.invoke t call h)
  | acquire t =>
    cases h : s.task t with
    | waiting id call =>
      cases call with
      | write a =>
        cases hl : s.lock.write t with
        | none => simp only [step, h, hl, true_or]
        | some lock =>
          simp only [step, h, hl]
          exact Or.inr (.acquireWrite t id a lock h hl)
      | read b =>
        cases hl : s.lock.read t with
        | none => simp only [step, h, hl, true_or]
        | some lock =>
          simp only [step, h, hl]
          exact Or.inr (.acquireRead t id b lock h hl)
    | _ => simp only [step, h, true_or]
  | work t =>
    cases h : s.task t with
    | writing id a =>
      simp only [step, h]
      exact Or.inr (.update t id a h)
    | reading id b =>
      simp only [step, h]
      exact Or.inr (.start t id b h)
    | walking id b rest n =>
      cases rest with
      | nil => simp only [step, h, true_or]
      | cons i rest =>
        simp only [step, h]
        exact Or.inr (.visit t id b i rest n h)
    | _ => simp only [step, h, true_or]
  | release t =>
    cases h : s.task t with
    | wrote id r =>
      simp only [step, h]
      exact Or.inr (.returnWrite t id r h)
    | walking id b rest n =>
      cases rest with
      | nil =>
        simp only [step, h]
        exact Or.inr (.returnRead t id b n h)
      | cons i rest => simp only [step, h, true_or]
    | _ => simp only [step, h, true_or]
  | client g => exact Or.inr (.client g)

/-- What every enabled action keeps, every schedule keeps. -/
theorem run_inv {I : Sys σ ω τ α β ι ν ρ → Prop} (h : ∀ s s', S.Step s s' → I s → I s')
    {s : Sys σ ω τ α β ι ν ρ} (hs : I s) (acts : List (Action τ α β γ)) :
    I (S.machine.run s acts) := by
  refine S.machine.run_inv ?_ hs acts
  intro s act hI
  rcases step_cases (S := S) s act with he | hstep
  · show I (S.step s act)
    rwa [he]
  · exact h s _ hstep hI

/-- What every step keeps, every schedule from the start keeps. -/
theorem after_inv {I : Sys σ ω τ α β ι ν ρ → Prop} (h : ∀ s s', S.Step s s' → I s → I s')
    {s : σ} {w : ω} (hs : I (Sys.start s w)) (acts : List (Action τ α β γ)) :
    I (S.after s w acts) := run_inv h hs acts

end Service
end Basis
