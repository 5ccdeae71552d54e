/-
# The order of messages at different receivers

Fan-outs hold the lock shared, so two of them can walk the members at the same
time, one push at a time, and nothing orders their pushes: two receivers can
hold the two messages in different orders (`race_reorders`), also when both
calls walk the members in the same order.  Receivers agree on calls that do not
overlap, where one gave the lock back before the other acquired it
(`receivers_agree`).
-/

import Denshin.Gateway.Snapshot

namespace Denshin

open Basis

namespace WsGateway

variable {τ : Type*} [DecidableEq τ]

/-- A message of the first call is ahead of one of the second, on the queue of
`x`. -/
def Ahead (log : Log) (x A B : ℕ) : Prop :=
  ∃ l₁ l₂, delivered x log = l₁ ++ l₂ ∧ A ∈ l₁.map Prod.fst ∧ B ∈ l₂.map Prod.fst

/-- The receiver of `x` was given messages of both calls. -/
def GivenBoth (log : Log) (x A B : ℕ) : Prop :=
  A ∈ (delivered x log).map Prod.fst ∧ B ∈ (delivered x log).map Prod.fst

/-- The first call gave the lock back before the second acquired it. -/
def ReleasedBeforeAcquired (log : Log) (A B : ℕ) : Prop :=
  ∃ l₁ l₂, log = l₁ ++ l₂ ∧ (∃ r, .returned A r ∈ l₁) ∧ ∃ call, .acquired B call ∈ l₂

/-- The release of a call comes before the acquisition of a later one. -/
theorem ReleasedBeforeAcquired.before {log : Log} {A B : ℕ} (h : ReleasedBeforeAcquired log A B) :
    Service.Before log (fun e => e.id = A ∧ e.stage = 3) fun e => e.id = B ∧ e.stage ≤ 1 := by
  obtain ⟨l₁, l₂, hlog, ⟨r, hr⟩, call, hcall⟩ := h
  exact ⟨l₁, l₂, hlog, ⟨_, hr, rfl, rfl⟩, _, hcall, rfl, le_rfl⟩

section Ahead

variable {log : Log} {x A B : ℕ}
  (h : (delivered x log).Pairwise fun d d' => d.1 = B → d'.1 ≠ A)

include h

/-- If nothing of `B` is before anything of `A`, then `A` is ahead of `B`, -/
theorem ahead_of_pairwise (hne : A ≠ B) (hx : GivenBoth log x A B) : Ahead log x A B := by
  obtain ⟨a, ha, rfl⟩ := List.mem_map.1 hx.1
  obtain ⟨b, hb, rfl⟩ := List.mem_map.1 hx.2
  obtain ⟨s, t, hst⟩ := List.append_of_mem ha
  rw [hst] at h hb
  refine ⟨s ++ [a], t, by rw [hst, List.append_assoc]; rfl, by simp, ?_⟩
  rcases List.mem_append.1 hb with hs | hb
  · exact absurd rfl ((List.pairwise_append.1 h).2.2 b hs a List.mem_cons_self rfl)
  · rcases List.mem_cons.1 hb with rfl | ht
    · exact absurd rfl hne
    · exact List.mem_map_of_mem ht

/-- and `B` is not ahead of `A`. -/
theorem not_ahead_of_pairwise : ¬ Ahead log x B A := by
  rintro ⟨l₁, l₂, hl, hB, hA⟩
  obtain ⟨b, hb, rfl⟩ := List.mem_map.1 hB
  obtain ⟨a, ha, rfl⟩ := List.mem_map.1 hA
  rw [hl] at h
  exact (List.pairwise_append.1 h).2.2 b hb a ha rfl rfl

end Ahead

/-- **Receivers agree on calls that do not overlap.**  If of two calls one gave
the lock back before the other acquired it, any two receivers that were given
messages of both hold them in the same order. -/
theorem receivers_agree (acts : List (Action τ)) {A B : ℕ} (hne : A ≠ B)
    (hAB : ReleasedBeforeAcquired (after acts).log A B ∨
      ReleasedBeforeAcquired (after acts).log B A)
    {x y : ℕ} (hx : GivenBoth (after acts).log x A B) (hy : GivenBoth (after acts).log y A B) :
    Ahead (after acts).log x A B ↔ Ahead (after acts).log y A B := by
  have hinv := inv_after acts
  rcases hAB with hAB | hBA
  · have hord := delivered_pairwise (Service.visited_before hinv.staged.ordered hAB.before)
    exact iff_of_true (ahead_of_pairwise (hord x) hne hx) (ahead_of_pairwise (hord y) hne hy)
  · have hord := delivered_pairwise (Service.visited_before hinv.staged.ordered hBA.before)
    exact iff_of_false (not_ahead_of_pairwise (hord x)) (not_ahead_of_pairwise (hord y))

/-- A writing call of a task, from its invocation to its return. -/
def whole (t : ℕ) (call : Call) : List (Action ℕ) :=
  [.invoke t call, .acquire t, .work t, .release t]

/-- Two connections join a room. -/
def setting : List (Action ℕ) :=
  whole 0 (connectWithId default "a" none .zero) ++
  whole 0 (connectWithId default "b" none .zero) ++
  whole 0 (joinRoom default "a" "r") ++ whole 0 (joinRoom default "b" "r")

/-- Two tasks send to the room, one after the other. -/
def inTurn : List (Action ℕ) :=
  setting ++ [.invoke 0 (sendToRoom default "r" "A"), .invoke 1 (sendToRoom default "r" "B"),
    .acquire 0, .work 0, .work 0, .work 0, .release 0,
    .acquire 1, .work 1, .work 1, .work 1, .release 1]

/-- The receivers agree on the two messages. -/
theorem receivers_agree_inTurn :
    Ahead (after inTurn).log 0 4 5 ↔ Ahead (after inTurn).log 1 4 5 := by
  have hreturned : .returned 4 (.sent (.count 2)) ∈ (after inTurn).log.take 18 :=
    List.mem_of_getElem? (i := 17) rfl
  have hacquired : .acquired 5 (sendToRoom default "r" "B") ∈ (after inTurn).log.drop 18 :=
    List.mem_of_getElem? (i := 0) rfl
  exact receivers_agree inTurn (by decide)
    (Or.inl ⟨_, _, (List.take_append_drop 18 _).symm, ⟨_, hreturned⟩, _, hacquired⟩)
    ⟨by decide, by decide⟩ ⟨by decide, by decide⟩

/-- Two tasks send to the room at the same time. -/
def race : List (Action ℕ) :=
  setting ++ [.invoke 0 (sendToRoom default "r" "A"), .invoke 1 (sendToRoom default "r" "B"),
    .acquire 0, .acquire 1, .work 0, .work 1, .work 0, .work 1, .work 1, .work 0,
    .release 0, .release 1]

/-- **Two fan-outs at the same time.**  Both walk the members in the same order,
and the two receivers hold the two messages in different orders. -/
theorem race_reorders :
    ((after race).outside 0).queue = ["A", "B"] ∧ ((after race).outside 1).queue = ["B", "A"] ∧
      ¬ ∀ A B x y, A ≠ B → GivenBoth (after race).log x A B → GivenBoth (after race).log y A B →
        (Ahead (after race).log x A B ↔ Ahead (after race).log y A B) := by
  have h₀ : delivered 0 (after race).log = [(4, "A"), (5, "B")] := by decide
  have h₁ : delivered 1 (after race).log = [(5, "B"), (4, "A")] := by decide
  refine ⟨?_, ?_, fun hall => ?_⟩
  · rw [queue_after, h₀]
    rfl
  · rw [queue_after, h₁]
    rfl
  · have hahead : Ahead (after race).log 0 4 5 := ⟨[(4, "A")], [(5, "B")], h₀, by simp, by simp⟩
    have hnot : ¬ Ahead (after race).log 1 4 5 := by
      refine not_ahead_of_pairwise ?_
      rw [h₁]
      decide
    have hgiven : ∀ x, x = 0 ∨ x = 1 → GivenBoth (after race).log x 4 5 := by
      rintro x (rfl | rfl)
      · exact ⟨by rw [h₀]; decide, by rw [h₀]; decide⟩
      · exact ⟨by rw [h₁]; decide, by rw [h₁]; decide⟩
    exact hnot ((hall 4 5 0 1 (by decide) (hgiven 0 (Or.inl rfl)) (hgiven 1 (Or.inr rfl))).1 hahead)

end WsGateway
end Denshin
