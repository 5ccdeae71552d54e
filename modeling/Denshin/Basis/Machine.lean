/-
# Machines that answer every call

A state, calls on it, and an answer to each: `Machine.step`.  A run is a list
of calls.  The rules below turn a fact about one step into one about whole
runs: an invariant (`run_inv`, `Along.run_inv`), the exact condition for an
invariant to hold all along a run (`throughout_iff_along`), what the past says
of the present (`run_iff_since`), a simulation (`Along.simulates`), a relation
between two runs that differ in hidden calls (`run_unwind`), what a run would be
without some of its calls (`run_filter`).

`Slicing` is a machine whose state is a family of slices, one per key, where
every call acts on the slice of its own key and answers from it alone.  The
slice of a key is then decided by the calls on that key, in their order
(`Slicing.view_run`, `Slicing.answersOf_run`), however calls on other keys are
interleaved with them.
-/

import Mathlib.Data.List.Infix

namespace Basis

universe u v w x

/-- A transition function with an answer to every call. -/
structure Machine (σ : Type u) (α : Type v) (ρ : Type w) where
  step : σ → α → σ × ρ

namespace Machine

variable {σ : Type u} {α : Type v} {ρ : Type w} (M : Machine σ α ρ)

/-- The state after a list of calls. -/
def run (s : σ) (as : List α) : σ := as.foldl (fun s a => (M.step s a).1) s

/-- The answers to a list of calls. -/
def answers : σ → List α → List ρ
  | _, [] => []
  | s, a :: as => (M.step s a).2 :: answers (M.step s a).1 as

/-- The calls of a run, each with the state it is made in. -/
def trace : σ → List α → List (σ × α)
  | _, [] => []
  | s, a :: as => (s, a) :: trace (M.step s a).1 as

/-- `P` holds of every call of the run and the state it is made in. -/
def Along (P : σ → α → Prop) : σ → List α → Prop
  | _, [] => True
  | s, a :: as => P s a ∧ Along P (M.step s a).1 as

/-- `I` holds in every state the run passes through. -/
def Throughout (I : σ → Prop) (s : σ) (as : List α) : Prop := ∀ pre, pre <+: as → I (M.run s pre)

/-- Without calls nothing changes. -/
@[simp] theorem run_nil (s : σ) : M.run s [] = s := rfl

/-- A run starts with its first call. -/
@[simp] theorem run_cons (s : σ) (a : α) (as : List α) :
    M.run s (a :: as) = M.run (M.step s a).1 as := rfl

/-- The trace of a run, part by part. -/
theorem trace_append (s : σ) (as bs : List α) :
    M.trace s (as ++ bs) = M.trace s as ++ M.trace (M.run s as) bs := by
  induction as generalizing s with
  | nil => rfl
  | cons a as ih =>
    rw [List.cons_append, trace, trace, ih]
    rfl

/-- The calls of a trace are those of the run. -/
theorem trace_map_snd (s : σ) (as : List α) : (M.trace s as).map Prod.snd = as := by
  induction as generalizing s with
  | nil => rfl
  | cons a as ih => rw [trace, List.map_cons, ih]

/-- A run is run part by part. -/
theorem run_append (s : σ) (as bs : List α) : M.run s (as ++ bs) = M.run (M.run s as) bs :=
  List.foldl_append

/-- Every call of a run is made in the state the calls before it lead to. -/
theorem mem_trace {s t : σ} {a : α} {as : List α} :
    (t, a) ∈ M.trace s as ↔ ∃ pre post, as = pre ++ a :: post ∧ M.run s pre = t := by
  induction as generalizing s with
  | nil =>
    refine iff_of_false List.not_mem_nil ?_
    rintro ⟨pre, post, h, -⟩
    exact absurd h (by simp)
  | cons b as ih =>
    rw [trace, List.mem_cons, ih]
    constructor
    · rintro (h | ⟨pre, post, rfl, ht⟩)
      · obtain ⟨rfl, rfl⟩ := Prod.mk.inj h
        exact ⟨[], as, rfl, rfl⟩
      · exact ⟨b :: pre, post, rfl, ht⟩
    · rintro ⟨pre, post, h, ht⟩
      cases pre with
      | nil =>
        obtain ⟨rfl, -⟩ := List.cons.inj h
        exact Or.inl (congrArg (·, b) ht.symm)
      | cons c pre =>
        obtain ⟨rfl, rfl⟩ := List.cons.inj h
        exact Or.inr ⟨pre, post, rfl, ht⟩

/-! ### Invariants -/

/-- **What every step keeps, every run keeps.** -/
theorem run_inv {I : σ → Prop} (h : ∀ s a, I s → I (M.step s a).1) {s : σ} (hs : I s)
    (as : List α) : I (M.run s as) := by
  induction as generalizing s with
  | nil => exact hs
  | cons a as ih => exact ih (h s a hs)

variable {M}

/-- What every step meeting `P` keeps, every run of such steps keeps. -/
theorem Along.run_inv {P : σ → α → Prop} {I : σ → Prop}
    (h : ∀ s a, I s → P s a → I (M.step s a).1) {s : σ} {as : List α} (ha : M.Along P s as)
    (hs : I s) : I (M.run s as) := by
  induction as generalizing s with
  | nil => exact hs
  | cons a as ih => exact ih ha.2 (h s a hs ha.1)

/-- What follows of every step follows along a run. -/
theorem Along.mono {P Q : σ → α → Prop} (h : ∀ s a, P s a → Q s a) {s : σ} {as : List α}
    (ha : M.Along P s as) : M.Along Q s as := by
  induction as generalizing s with
  | nil => trivial
  | cons a as ih => exact ⟨h s a ha.1, ih ha.2⟩

/-- A condition on the calls alone holds along every run of such calls. -/
theorem along_of_forall {P : α → Prop} {as : List α} (h : ∀ a ∈ as, P a) (s : σ) :
    M.Along (fun _ => P) s as := by
  induction as generalizing s with
  | nil => trivial
  | cons a as ih =>
    exact ⟨h a List.mem_cons_self, ih (fun b hb => h b (List.mem_cons_of_mem a hb)) _⟩

/-- What holds along a run of the calls alone holds of all its calls. -/
theorem Along.forall {P : α → Prop} {s : σ} {as : List α} (h : M.Along (fun _ => P) s as) :
    ∀ a ∈ as, P a := by
  induction as generalizing s with
  | nil => exact fun a ha => absurd ha List.not_mem_nil
  | cons a as ih =>
    intro b hb
    rcases List.mem_cons.1 hb with rfl | hb
    · exact h.1
    · exact ih h.2 b hb

/-- A condition holds along a run if it does along its parts. -/
theorem along_append {P : σ → α → Prop} {s : σ} {as bs : List α} :
    M.Along P s (as ++ bs) ↔ M.Along P s as ∧ M.Along P (M.run s as) bs := by
  induction as generalizing s with
  | nil => exact (and_iff_right trivial).symm
  | cons a as ih => rw [List.cons_append, Along, Along, ih, and_assoc, run_cons]

/-- `Along`, call by call. -/
theorem along_iff {P : σ → α → Prop} {s : σ} {as : List α} :
    M.Along P s as ↔ ∀ pre a, pre ++ [a] <+: as → P (M.run s pre) a := by
  induction as generalizing s with
  | nil => exact iff_of_true trivial fun pre a h => absurd (List.prefix_nil.1 h) (by simp)
  | cons a as ih =>
    rw [Along, ih]
    constructor
    · rintro ⟨h₀, h⟩ pre b hp
      cases pre with
      | nil =>
        obtain rfl : b = a := by simpa using hp
        exact h₀
      | cons c pre =>
        obtain ⟨rfl, hp'⟩ := List.cons_prefix_cons.1 hp
        exact h pre b hp'
    · refine fun h => ⟨h [] a (by simp), fun pre b hp => ?_⟩
      exact h (a :: pre) b (List.cons_prefix_cons.2 ⟨rfl, hp⟩)

/-- What holds along a run holds along its beginning. -/
theorem Along.of_prefix {P : σ → α → Prop} {s : σ} {as pre : List α} (ha : M.Along P s as)
    (hp : pre <+: as) : M.Along P s pre := by
  rw [along_iff] at ha ⊢
  exact fun pre' a h => ha pre' a (h.trans hp)

/-- What holds in all states of a run, call by call. -/
theorem throughout_cons {I : σ → Prop} {s : σ} {a : α} {as : List α} :
    M.Throughout I s (a :: as) ↔ I s ∧ M.Throughout I (M.step s a).1 as := by
  constructor
  · refine fun h => ⟨h [] List.nil_prefix, fun pre hp => ?_⟩
    exact h (a :: pre) (List.cons_prefix_cons.2 ⟨rfl, hp⟩)
  · rintro ⟨hs, h⟩ pre hp
    cases pre with
    | nil => exact hs
    | cons b pre =>
      obtain ⟨rfl, hp'⟩ := List.cons_prefix_cons.1 hp
      exact h pre hp'

/-- **The exact condition for an invariant.**  If, among the states of `J`, a
step keeps `I` precisely when it meets `P`, then `I` holds all along a run
precisely when all its steps meet `P`. -/
theorem throughout_iff_along {I J : σ → Prop} {P : σ → α → Prop}
    (hJ : ∀ s a, J s → J (M.step s a).1) (hP : ∀ s a, J s → I s → (I (M.step s a).1 ↔ P s a))
    {s : σ} (hj : J s) (hi : I s) (as : List α) : M.Throughout I s as ↔ M.Along P s as := by
  induction as generalizing s with
  | nil => exact iff_of_true (fun pre hp => List.prefix_nil.1 hp ▸ hi) trivial
  | cons a as ih =>
    rw [throughout_cons, Along, and_iff_right hi, ← hP s a hj hi]
    constructor
    · intro h
      have hi' : I (M.step s a).1 := h [] List.nil_prefix
      exact ⟨hi', (ih (hJ s a hj) hi').1 h⟩
    · rintro ⟨hi', h⟩
      exact (ih (hJ s a hj) hi').2 h

/-! ### What the past decides -/

section Since

variable (M) (Makes Ends : σ → α → Prop)

/-- A call made it so, and no later call ended it, each in the state in which it
was made. -/
def Since (s : σ) (as : List α) : Prop :=
  ∃ pre a post, as = pre ++ a :: post ∧ Makes (M.run s pre) a ∧
    M.Along (fun t b => ¬ Ends t b) (M.run s (pre ++ [a])) post

variable {M Makes Ends}

/-- **The last call decides**, or else the calls before it: it made the fact so,
or did not end what they had made so. -/
theorem since_append_singleton {s : σ} {as : List α} {a : α} :
    M.Since Makes Ends s (as ++ [a]) ↔
      Makes (M.run s as) a ∨ ¬ Ends (M.run s as) a ∧ M.Since Makes Ends s as := by
  have hrun (pre post : List α) (b : α) :
      M.run (M.run s (pre ++ [b])) post = M.run s (pre ++ b :: post) := by
    rw [← run_append, List.append_assoc]
    rfl
  constructor
  · rintro ⟨pre, b, post, has, hmakes, hpost⟩
    induction post using List.reverseRecOn with
    | nil =>
      obtain ⟨rfl, hlast⟩ := List.append_inj' has rfl
      obtain rfl := (List.cons_eq_cons.1 hlast).1
      exact Or.inl hmakes
    | append_singleton post last _ =>
      rw [← List.cons_append, ← List.append_assoc] at has
      obtain ⟨rfl, hlast⟩ := List.append_inj' has rfl
      obtain rfl := (List.cons_eq_cons.1 hlast).1
      obtain ⟨hinit, hends, -⟩ := along_append.1 hpost
      rw [hrun] at hends
      exact Or.inr ⟨hends, pre, b, post, rfl, hmakes, hinit⟩
  · rintro (hmakes | ⟨hends, pre, b, post, rfl, hmakes, hpost⟩)
    · exact ⟨as, a, [], rfl, hmakes, trivial⟩
    · refine ⟨pre, b, post ++ [a], by rw [List.append_assoc]; rfl, hmakes, ?_⟩
      refine along_append.2 ⟨hpost, ?_⟩
      rw [hrun]
      exact ⟨hends, trivial⟩

/-- **The past decides**: if, among the states of `J`, a step makes a fact so, or
leaves it so without ending it, then it holds when it was made so and has not
been ended. -/
theorem run_iff_since {I J : σ → Prop} (hJ : ∀ s a, J s → J (M.step s a).1)
    (hstep : ∀ s a, J s → (I (M.step s a).1 ↔ Makes s a ∨ ¬ Ends s a ∧ I s)) {s : σ} (hj : J s)
    (hs : ¬ I s) (as : List α) : I (M.run s as) ↔ M.Since Makes Ends s as := by
  induction as using List.reverseRecOn with
  | nil =>
    refine iff_of_false hs ?_
    rintro ⟨pre, b, post, has, -⟩
    exact absurd has (by simp)
  | append_singleton as a ih =>
    rw [since_append_singleton, ← ih, run_append]
    exact hstep (M.run s as) a (M.run_inv hJ hj as)

/-- What is never ended was made so by some call. -/
theorem since_iff_exists_mem {s : σ} {as : List α} {makes : α → Prop} :
    M.Since (fun _ => makes) (fun _ _ => False) s as ↔ ∃ a ∈ as, makes a := by
  constructor
  · rintro ⟨pre, a, post, rfl, hmakes, -⟩
    exact ⟨a, List.mem_append_right pre List.mem_cons_self, hmakes⟩
  · rintro ⟨a, hmem, hmakes⟩
    obtain ⟨pre, post, rfl⟩ := List.append_of_mem hmem
    exact ⟨pre, a, post, rfl, hmakes, along_of_forall (fun _ _ => not_false) _⟩

/-- What the calls alone decide. -/
theorem since_iff_of_calls {s : σ} {as : List α} {makes ends : α → Prop} :
    M.Since (fun _ => makes) (fun _ => ends) s as ↔
      ∃ pre a post, as = pre ++ a :: post ∧ makes a ∧ ∀ b ∈ post, ¬ ends b := by
  refine exists_congr fun pre => exists_congr fun a => exists_congr fun post =>
    and_congr_right fun _ => and_congr_right fun _ => ?_
  exact ⟨Along.forall, fun h => along_of_forall h _⟩

end Since

/-! ### Simulation -/

/-- **A simulation of single steps is one of runs**: the states stay related
and the answers agree under `abs`. -/
theorem Along.simulates {τ : Type*} {β : Type*} {ρ' : Type*} {N : Machine τ β ρ'}
    {R : σ → τ → Prop} {P : σ → α → Prop} {lab : α → β} {abs : ρ → ρ'}
    (h : ∀ s t a, R s t → P s a → R (M.step s a).1 (N.step t (lab a)).1 ∧
      abs (M.step s a).2 = (N.step t (lab a)).2)
    {s : σ} {t : τ} {as : List α} (ha : M.Along P s as) (hR : R s t) :
    R (M.run s as) (N.run t (as.map lab)) ∧
      (M.answers s as).map abs = N.answers t (as.map lab) := by
  induction as generalizing s t with
  | nil => exact ⟨hR, rfl⟩
  | cons a as ih =>
    obtain ⟨hR', hans⟩ := h s t a hR ha.1
    obtain ⟨hR'', hanss⟩ := ih ha.2 hR'
    exact ⟨hR'', List.cons_eq_cons.2 ⟨hans, hanss⟩⟩

/-! ### Two runs -/

section TwoRuns

variable (M) {R : σ → σ → Prop} {β : Type*} {f : α → β}

/-- **Unwinding.**  Two runs whose calls agree, up to calls that are hidden,
end in related states, if a call on both sides keeps the states related and a
hidden call on one side does. -/
theorem run_unwind {K : β → Prop} [DecidablePred K]
    (hboth : ∀ s t a b, f a = f b → R s t → R (M.step s a).1 (M.step t b).1)
    (hleft : ∀ s t a, ¬ K (f a) → R s t → R (M.step s a).1 t)
    (hright : ∀ s t b, ¬ K (f b) → R s t → R s (M.step t b).1)
    {s t : σ} (hR : R s t) {as bs : List α}
    (h : (as.map f).filter K = (bs.map f).filter K) : R (M.run s as) (M.run t bs) := by
  induction as generalizing s t bs with
  | nil =>
    induction bs generalizing t with
    | nil => exact hR
    | cons b bs ih =>
      have hb : ¬ K (f b) := fun hk => by simp [hk] at h
      exact ih (hright s t b hb hR) (by simpa [hb] using h)
  | cons a as iha =>
    by_cases hka : K (f a)
    · -- The other run comes to its call after some hidden ones.
      induction bs generalizing t with
      | nil => simp [hka] at h
      | cons b bs ihb =>
        by_cases hkb : K (f b)
        · rw [List.map_cons, List.map_cons, List.filter_cons_of_pos (by simpa using hka),
            List.filter_cons_of_pos (by simpa using hkb), List.cons_eq_cons] at h
          exact iha (hboth s t a b h.1 hR) h.2
        · exact ihb (hright s t b hkb hR) (by simpa [hkb] using h)
    · exact iha (hleft s t a hka hR) (by simpa [hka] using h)

/-- The same with nothing hidden. -/
theorem run_rel (hboth : ∀ s t a b, f a = f b → R s t → R (M.step s a).1 (M.step t b).1)
    {s t : σ} (hR : R s t) {as bs : List α} (h : as.map f = bs.map f) :
    R (M.run s as) (M.run t bs) := by
  refine M.run_unwind (K := fun _ => True) hboth (fun _ _ _ hk => absurd trivial hk)
    (fun _ _ _ hk => absurd trivial hk) hR ?_
  rw [h]

/-- The same with the answers. -/
theorem answers_rel {A : ρ → ρ → Prop}
    (hboth : ∀ s t a b, f a = f b → R s t →
      R (M.step s a).1 (M.step t b).1 ∧ A (M.step s a).2 (M.step t b).2)
    {s t : σ} (hR : R s t) {as bs : List α} (h : as.map f = bs.map f) :
    List.Forall₂ A (M.answers s as) (M.answers t bs) := by
  induction as generalizing s t bs with
  | nil =>
    obtain rfl := List.map_eq_nil_iff.1 h.symm
    exact .nil
  | cons a as ih =>
    obtain ⟨b, bs, rfl, hb, hbs⟩ := List.map_eq_cons_iff.1 h.symm
    obtain ⟨hR', hA⟩ := hboth s t a b hb.symm hR
    exact .cons hA (ih hR' hbs.symm)

end TwoRuns

/-! ### Calls left out -/

section Kept

variable (M) (K : α → Prop) [DecidablePred K]

/-- The answers to the calls of a run that meet `K`. -/
def answersTo : σ → List α → List ρ
  | _, [] => []
  | s, a :: as =>
    if K a then (M.step s a).2 :: answersTo (M.step s a).1 as else answersTo (M.step s a).1 as

variable {M K}

/-- **Calls that do not matter can be left out**: if a call that meets `K` keeps
two states related and is answered alike in both, up to `f`, and any other call
leaves them related, then the run of the calls that meet `K` has their answers
and ends in a related state. -/
theorem run_filter {R : σ → σ → Prop} {f : ρ → ρ}
    (hkept : ∀ s t a, K a → R s t →
      R (M.step s a).1 (M.step t a).1 ∧ f (M.step s a).2 = (M.step t a).2)
    (hother : ∀ s t a, ¬ K a → R s t → R (M.step s a).1 t) {s t : σ} (hR : R s t) (as : List α) :
    (M.answersTo K s as).map f = M.answers t (as.filter K) ∧
      R (M.run s as) (M.run t (as.filter K)) := by
  induction as generalizing s t with
  | nil => exact ⟨rfl, hR⟩
  | cons a as ih =>
    rw [answersTo, run_cons]
    by_cases ha : K a
    · obtain ⟨hR', hans⟩ := hkept s t a ha hR
      obtain ⟨hanss, hrun⟩ := ih hR'
      rw [if_pos ha, List.filter_cons_of_pos (by simpa using ha), List.map_cons, hans, hanss]
      exact ⟨rfl, hrun⟩
    · rw [if_neg ha, List.filter_cons_of_neg (by simpa using ha)]
      exact ih (hother s t a ha hR)

end Kept

end Machine

/-! ### Slices -/

/-- A machine read as a family of slices: a call with label `b` acts on the
slice of `key b` and answers from it. -/
structure Slicing {σ : Type u} {α : Type v} {ρ : Type w} (M : Machine σ α ρ) (β κ ν : Type*)
    [DecidableEq κ] where
  label : α → β
  key : β → κ
  view : σ → κ → ν
  slice : Machine ν β ρ
  view_step : ∀ s a k, view (M.step s a).1 k =
    if k = key (label a) then (slice.step (view s k) (label a)).1 else view s k
  answer_step : ∀ s a, (M.step s a).2 = (slice.step (view s (key (label a))) (label a)).2

namespace Slicing

variable {σ : Type u} {α : Type v} {ρ : Type w} {M : Machine σ α ρ} {β κ ν : Type*}
  [DecidableEq κ] (S : Slicing M β κ ν)

/-- The labels of the calls of a run on one key. -/
def script (k : κ) (as : List α) : List β := (as.map S.label).filter fun b => S.key b = k

/-- The answers to the calls of a run on one key. -/
def answersOf (k : κ) : σ → List α → List ρ
  | _, [] => []
  | s, a :: as =>
    if S.key (S.label a) = k then (M.step s a).2 :: answersOf k (M.step s a).1 as
    else answersOf k (M.step s a).1 as

/-- The script of a key, call by call. -/
theorem script_cons (k : κ) (a : α) (as : List α) :
    S.script k (a :: as) =
      if S.key (S.label a) = k then S.label a :: S.script k as else S.script k as := by
  simp [script, List.filter_cons]

/-- **A slice is decided by the calls on its key.** -/
theorem view_run (s : σ) (as : List α) (k : κ) :
    S.view (M.run s as) k = S.slice.run (S.view s k) (S.script k as) := by
  induction as generalizing s with
  | nil => rfl
  | cons a as ih =>
    rw [Machine.run_cons, ih, S.view_step, S.script_cons]
    by_cases h : k = S.key (S.label a)
    · rw [if_pos h, if_pos h.symm, Machine.run_cons]
    · rw [if_neg h, if_neg (Ne.symm h)]

/-- **So are the answers to them.** -/
theorem answersOf_run (s : σ) (as : List α) (k : κ) :
    S.answersOf k s as = S.slice.answers (S.view s k) (S.script k as) := by
  induction as generalizing s with
  | nil => rfl
  | cons a as ih =>
    rw [answersOf, ih, S.view_step, S.script_cons, S.answer_step]
    by_cases h : k = S.key (S.label a)
    · rw [if_pos h.symm, if_pos h, if_pos h.symm, h]
      rfl
    · rw [if_neg (Ne.symm h), if_neg h, if_neg (Ne.symm h)]

/-- The answers to the calls of a run whose keys are not in `D`. -/
def answersBut (D : κ → Prop) [DecidablePred D] (s : σ) (as : List α) : List ρ :=
  M.answersTo (fun a => ¬ D (S.key (S.label a))) s as

/-- The calls of a run whose keys are not in `D`. -/
def callsBut (D : κ → Prop) [DecidablePred D] (as : List α) : List α :=
  as.filter fun a => ¬ D (S.key (S.label a))

/-- **The calls on some keys can be left out**: the other slices and the answers
to the other calls are the same without them. -/
theorem run_callsBut (D : κ → Prop) [DecidablePred D] {s t : σ}
    (h : ∀ k, ¬ D k → S.view s k = S.view t k) (as : List α) :
    S.answersBut D s as = M.answers t (S.callsBut D as) ∧
      ∀ k, ¬ D k → S.view (M.run s as) k = S.view (M.run t (S.callsBut D as)) k := by
  have hrun := M.run_filter (R := fun s t => ∀ k, ¬ D k → S.view s k = S.view t k)
    (K := fun a => ¬ D (S.key (S.label a))) (f := id) ?_ ?_ h as
  · rwa [List.map_id] at hrun
  · intro s t a ha hR
    refine ⟨fun k hk => ?_, ?_⟩
    · rw [S.view_step, S.view_step, hR k hk]
    · rw [S.answer_step, S.answer_step, hR _ ha]
      rfl
  · intro s t a ha hR k hk
    rw [S.view_step, if_neg fun he : k = S.key (S.label a) => ha (he ▸ hk)]
    exact hR k hk

/-- What every slice keeps under its own calls, every slice keeps along a run. -/
theorem view_inv {I : κ → ν → Prop} (h : ∀ v b, I (S.key b) v → I (S.key b) (S.slice.step v b).1)
    {s : σ} (hs : ∀ k, I k (S.view s k)) (a : α) (k : κ) : I k (S.view (M.step s a).1 k) := by
  rw [S.view_step]
  split_ifs with hk
  · subst hk
    exact h _ _ (hs _)
  · exact hs k

end Slicing
end Basis
