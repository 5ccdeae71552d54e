/-
# Interleavings of scripts

Several connections, each with its own script of calls about itself, share the
rooms of one manager.  Which of the calls creates a room entry, which empties
and deletes it, and whether it is created again in between, depends on how the
scripts are interleaved.  What is left at the end does not: the view of an id
is decided by the calls about it (`slicing`), and a consistent manager is its
views (`Consistent.ext`).
-/

import Denshin.Connection.View

namespace Denshin

open Basis

variable {χ : Type*}

/-- The calls of `w` about each connection are its script, in the script's
order. -/
def IsInterleaving (scripts : ConnId → List (Op χ)) (w : List (HashIter String × Op χ)) : Prop :=
  ∀ c, (w.map Prod.snd).filter (fun op => op.conn = c) = scripts c

namespace ConnectionManager

/-- **Interleaving independence.**  From a state any history reached, two
interleavings of the same scripts end in the same three maps, and each call
returns the same in both, whatever the iteration orders in either. -/
theorem run_interleaving (hist : List (HashIter String × Op χ)) (scripts : ConnId → List (Op χ))
    {w₁ w₂ : List (HashIter String × Op χ)} (h₁ : IsInterleaving scripts w₁)
    (h₂ : IsInterleaving scripts w₂) :
    (machine χ).run ((machine χ).run new hist) w₁ = (machine χ).run ((machine χ).run new hist) w₂ ∧
      ∀ c, (slicing χ).answersOf c ((machine χ).run new hist) w₁ =
        (slicing χ).answersOf c ((machine χ).run new hist) w₂ := by
  have hm : ((machine χ).run new hist).Consistent := consistent_new.run hist
  have hscript : ∀ c, (slicing χ).script c w₁ = (slicing χ).script c w₂ := fun c =>
    (h₁ c).trans (h₂ c).symm
  constructor
  · refine (hm.run w₁).ext (hm.run w₂) fun c => ?_
    have hv₁ := (slicing χ).view_run ((machine χ).run new hist) w₁ c
    have hv₂ := (slicing χ).view_run ((machine χ).run new hist) w₂ c
    rw [hscript c] at hv₁
    exact hv₁.trans hv₂.symm
  · intro c
    rw [Slicing.answersOf_run, Slicing.answersOf_run, hscript c]

/-- Two connections that join and leave one room, one of them registered again
meanwhile: one script after the other, and call by call in turn. -/
theorem run_interleaving_shared_room :
    let a : List (HashIter String × Op ℕ) :=
      [(HashIter.sorted, .addWithId "a" none 0 .zero), (HashIter.sorted, .joinRoom "a" "r"),
        (HashIter.sorted, .addWithId "a" none 1 (.ofSecs 1)), (HashIter.sorted, .remove "a")]
    let b : List (HashIter String × Op ℕ) :=
      [(HashIter.sorted, .addWithId "b" none 2 .zero), (HashIter.sorted, .joinRoom "b" "r"),
        (HashIter.sorted, .touch "b" (.ofSecs 2)), (HashIter.sorted, .leaveRoom "b" "r")]
    (machine ℕ).run ((machine ℕ).run new []) (a ++ b) =
        (machine ℕ).run ((machine ℕ).run new []) ((a.zip b).flatMap fun p => [p.1, p.2]) ∧
      ∀ c, (slicing ℕ).answersOf c ((machine ℕ).run new []) (a ++ b) =
        (slicing ℕ).answersOf c ((machine ℕ).run new [])
          ((a.zip b).flatMap fun p => [p.1, p.2]) := by
  intro a b
  refine run_interleaving [] (fun c => ((a ++ b).map Prod.snd).filter fun op => op.conn = c)
    (fun _ => rfl) fun c => ?_
  by_cases ha : "a" = c
  · subst ha
    rfl
  · by_cases hb : "b" = c
    · subst hb
      rfl
    · simp [a, b, Op.conn, ha, hb]

end ConnectionManager
end Denshin
