/-
# Unbounded channels

A family of unbounded multi-producer single-consumer channels, one per handle.
`send` queues a message exactly when the receiver is still open and says
whether it did.  A channel keeps the whole sequence ever queued on it: what the
receiver has already taken is a prefix of it, so receiving changes nothing here.

`fanOut` is the loop that offers one message to a list of targets and counts
the successes.  When no channel is the target of two items, it pushes the
message once to every target that is open (`fanOut_apply`) and counts the
queues that grew (`encard_grown_fanOut`), in whatever order the list is.
-/

import Mathlib.Data.Set.Card
import Mathlib.Logic.Function.Basic

namespace Basis

universe u v w

/-- One channel: everything ever queued on it, oldest first, and whether its
two halves are still held. -/
structure Channel (μ : Type u) where
  queue : List μ
  rxOpen : Bool
  txOpen : Bool
deriving DecidableEq

namespace Channel

variable {μ : Type u}

/-- `unbounded_channel()`. -/
def new : Channel μ := ⟨[], true, true⟩

/-- `UnboundedSender::send`: fails exactly when the receiver is gone. -/
def send (ch : Channel μ) (m : μ) : Channel μ × Bool :=
  if ch.rxOpen then ({ ch with queue := ch.queue ++ [m] }, true) else (ch, false)

/-- The receiver is dropped. -/
def dropRx (ch : Channel μ) : Channel μ := { ch with rxOpen := false }

/-- The sender is dropped. -/
def dropTx (ch : Channel μ) : Channel μ := { ch with txOpen := false }

/-- Sending does not close the receiver. -/
@[simp] theorem send_rxOpen (ch : Channel μ) (m : μ) : (ch.send m).1.rxOpen = ch.rxOpen := by
  unfold send; split_ifs <;> rfl

/-- Sending does not drop the sender. -/
@[simp] theorem send_txOpen (ch : Channel μ) (m : μ) : (ch.send m).1.txOpen = ch.txOpen := by
  unfold send; split_ifs <;> rfl

/-- A send succeeds exactly if the receiver is open. -/
@[simp] theorem send_ok (ch : Channel μ) (m : μ) : (ch.send m).2 = ch.rxOpen := by
  unfold send; split_ifs with h <;> simp [h]

/-- What a send adds to the queue: nothing if the receiver is closed. -/
theorem send_queue (ch : Channel μ) (m : μ) :
    (ch.send m).1.queue = if ch.rxOpen then ch.queue ++ [m] else ch.queue := by
  unfold send; split_ifs <;> rfl

/-- What was queued stays when the receiver is dropped. -/
@[simp] theorem dropRx_queue (ch : Channel μ) : ch.dropRx.queue = ch.queue := rfl

/-- What was queued stays when the sender is dropped. -/
@[simp] theorem dropTx_queue (ch : Channel μ) : ch.dropTx.queue = ch.queue := rfl

/-- A dropped receiver is closed. -/
@[simp] theorem dropRx_rxOpen (ch : Channel μ) : ch.dropRx.rxOpen = false := rfl

/-- The receiver stays open without its sender. -/
@[simp] theorem dropTx_rxOpen (ch : Channel μ) : ch.dropTx.rxOpen = ch.rxOpen := rfl

/-- The sender stays without its receiver. -/
@[simp] theorem dropRx_txOpen (ch : Channel μ) : ch.dropRx.txOpen = ch.txOpen := rfl

/-- A dropped sender is gone. -/
@[simp] theorem dropTx_txOpen (ch : Channel μ) : ch.dropTx.txOpen = false := rfl

/-- A queue grows exactly where the send succeeds. -/
theorem send_queue_ne_iff (ch : Channel μ) (m : μ) :
    (ch.send m).1.queue ≠ ch.queue ↔ ch.rxOpen = true := by
  rw [send_queue]
  split_ifs with h <;> simp [h]

end Channel

/-- The channels behind a type of handles. -/
abbrev Channels (χ : Type u) (μ : Type v) := χ → Channel μ

namespace Channels

variable {χ : Type u} {μ : Type v} {ι : Type w} [DecidableEq χ]

/-- `tx.send(m)` for the handle `x`. -/
def send (cs : Channels χ μ) (x : χ) (m : μ) : Channels χ μ × Bool :=
  (Function.update cs x ((cs x).send m).1, ((cs x).send m).2)

def dropRx (cs : Channels χ μ) (x : χ) : Channels χ μ := Function.update cs x (cs x).dropRx

def dropTx (cs : Channels χ μ) (x : χ) : Channels χ μ := Function.update cs x (cs x).dropTx

/-- Offer a message to the target of an item, if it has one. -/
def offer (cs : Channels χ μ) (m : μ) : Option χ → Channels χ μ × Bool
  | some x => cs.send x m
  | none => (cs, false)

/-- One round of a fan-out loop: `if send(i) { sent += 1 }`. -/
def round (target : ι → Option χ) (m : μ) (p : Channels χ μ × ℕ) (i : ι) : Channels χ μ × ℕ :=
  ((p.1.offer m (target i)).1, if (p.1.offer m (target i)).2 then p.2 + 1 else p.2)

/-- `let mut sent = 0; for i in is { if send(i) { sent += 1 } }; sent`. -/
def fanOut (target : ι → Option χ) (m : μ) (is : List ι) (cs : Channels χ μ) :
    Channels χ μ × ℕ :=
  is.foldl (round target m) (cs, 0)

/-- The channels whose queue differs between two moments. -/
def grown (cs cs' : Channels χ μ) : Set χ := {x | (cs' x).queue ≠ (cs x).queue}

omit [DecidableEq χ] in
/-- The channels grown are those whose queue has changed. -/
@[simp] theorem mem_grown {cs cs' : Channels χ μ} {x : χ} :
    x ∈ grown cs cs' ↔ (cs' x).queue ≠ (cs x).queue := Iff.rfl

/-- A send concerns its own channel only. -/
theorem send_apply (cs : Channels χ μ) (x y : χ) (m : μ) :
    (cs.send x m).1 y = if y = x then ((cs x).send m).1 else cs y :=
  Function.update_apply cs x _ y

/-- A send succeeds exactly if the receiver of its channel is open. -/
@[simp] theorem send_snd (cs : Channels χ μ) (x : χ) (m : μ) :
    (cs.send x m).2 = (cs x).rxOpen := by
  simp [send]

/-- A receiver dropped concerns its own channel only. -/
theorem dropRx_apply (cs : Channels χ μ) (x y : χ) :
    cs.dropRx x y = if y = x then (cs x).dropRx else cs y := by
  rw [dropRx, Function.update_apply]

/-- A sender dropped concerns its own channel only. -/
theorem dropTx_apply (cs : Channels χ μ) (x y : χ) :
    cs.dropTx x y = if y = x then (cs x).dropTx else cs y := by
  rw [dropTx, Function.update_apply]

/-- The loop from any point on: the items still to come, and the count so far. -/
theorem foldl_round (target : ι → Option χ) (m : μ) (is : List ι) (cs : Channels χ μ) (n : ℕ)
    (hd : (is.filterMap target).Nodup) :
    (∀ y, (is.foldl (round target m) (cs, n)).1 y =
      if y ∈ is.filterMap target then ((cs y).send m).1 else cs y) ∧
    (is.foldl (round target m) (cs, n)).2 =
      n + ((is.filterMap target).filter fun x => (cs x).rxOpen).length := by
  induction is generalizing cs n with
  | nil => simp
  | cons i is ih =>
    rw [List.foldl_cons]
    cases ht : target i with
    | none =>
      rw [List.filterMap_cons_none ht] at hd ⊢
      have hr : round target m (cs, n) i = (cs, n) := by simp [round, ht, offer]
      rw [hr]
      exact ih cs n hd
    | some x =>
      rw [List.filterMap_cons_some ht, List.nodup_cons] at hd
      rw [List.filterMap_cons_some ht]
      obtain ⟨hx, hd⟩ := hd
      have hr : round target m (cs, n) i =
          ((cs.send x m).1, if (cs x).rxOpen then n + 1 else n) := by simp [round, ht, offer]
      obtain ⟨h₁, h₂⟩ := ih (cs.send x m).1 (if (cs x).rxOpen then n + 1 else n) hd
      rw [hr]
      constructor
      · intro y
        rw [h₁, send_apply]
        by_cases hy : y = x
        · subst hy
          simp [hx]
        · simp [hy]
      · have hopen : ((is.filterMap target).filter fun z => ((cs.send x m).1 z).rxOpen) =
            (is.filterMap target).filter fun z => (cs z).rxOpen := by
          refine List.filter_congr fun z hz => ?_
          rw [send_apply]
          split_ifs with hzx <;> simp [hzx]
        rw [h₂, hopen, List.filter_cons]
        split_ifs
        · rw [List.length_cons]
          omega
        · rfl

/-- Walking the targets themselves is walking the items that have one. -/
theorem fanOut_filterMap (target : ι → Option χ) (m : μ) (is : List ι) (cs : Channels χ μ) :
    fanOut some m (is.filterMap target) cs = fanOut target m is cs := by
  unfold fanOut
  generalize (cs, 0) = p
  induction is generalizing p with
  | nil => rfl
  | cons i is ih =>
    cases ht : target i with
    | none =>
      have hr : round target m p i = p := by simp [round, ht, offer]
      rw [List.filterMap_cons_none ht, List.foldl_cons, hr]
      exact ih p
    | some x =>
      have hr : round target m p i = round some m p x := by simp [round, ht]
      rw [List.filterMap_cons_some ht, List.foldl_cons, List.foldl_cons, hr]
      exact ih _

section FanOut

variable {target : ι → Option χ} {m : μ} {is : List ι} {cs : Channels χ μ}

/-- **A fan-out pushes once to each target**, and touches nothing else. -/
theorem fanOut_apply (hd : (is.filterMap target).Nodup) (y : χ) :
    (fanOut target m is cs).1 y =
      if y ∈ is.filterMap target then ((cs y).send m).1 else cs y :=
  (foldl_round target m is cs 0 hd).1 y

/-- **A fan-out counts the open targets.** -/
theorem fanOut_count (hd : (is.filterMap target).Nodup) :
    (fanOut target m is cs).2 = ((is.filterMap target).filter fun x => (cs x).rxOpen).length := by
  rw [fanOut, (foldl_round target m is cs 0 hd).2, Nat.zero_add]

/-- **It returns the number of queues that grew.** -/
theorem encard_grown_fanOut (hd : (is.filterMap target).Nodup) :
    (grown cs (fanOut target m is cs).1).encard = (fanOut target m is cs).2 := by
  have hset : grown cs (fanOut target m is cs).1 =
      {x | x ∈ (is.filterMap target).filter fun x => (cs x).rxOpen} := by
    ext x
    show x ∈ grown _ _ ↔ x ∈ List.filter _ _
    rw [mem_grown, fanOut_apply hd, List.mem_filter]
    split_ifs with h
    · rw [Channel.send_queue_ne_iff]
      exact (and_iff_right h).symm
    · exact iff_of_false (fun hne => hne rfl) fun hx => h hx.1
  rw [hset, fanOut_count hd, ← List.toFinset_card_of_nodup (hd.filter _),
    ← Set.encard_coe_eq_coe_finsetCard]
  congr 1
  ext x
  simp

/-- Of three channels one has lost its receiver. -/
example : (fanOut (fun i : ℕ => if i < 3 then some i else none) "m" [2, 5, 0, 1]
    (Channels.dropRx (fun _ => Channel.new) 0)).2 = 2 := by decide

end FanOut

end Channels
end Basis
