/-
# A ring buffer

A broadcast channel that retains the last values sent, as many as it has slots:
the least power of two that is at least its capacity.  A full channel releases
its oldest value for the next one.

The buffer is the end of what was sent, and the receivers are where the ledger
has them (`Holds`).  So the channel does what a user of a broadcast channel
relies on (`RingBuffer.laws`).
-/

import Denshin.Basis.Broadcast
import Mathlib.Data.Nat.Log

namespace Basis

universe u

/-- A channel: the values retained, oldest first, the position of the oldest one
in all that was sent, and the position of every receiver. -/
structure RingBuffer (α : Type u) where
  slots : ℕ
  buffer : List α
  oldest : ℕ
  cursors : Finmap fun _ : ℕ => ℕ
  handles : ℕ

namespace RingBuffer

variable {α : Type u}

/-- A channel and its first receiver. -/
def new (slots : ℕ) : RingBuffer α × ℕ :=
  (⟨slots, [], 0, (∅ : Finmap fun _ : ℕ => ℕ).insert 0 0, 1⟩, 0)

/-- The position of the next value to be sent. -/
def tail (b : RingBuffer α) : ℕ := b.oldest + b.buffer.length

/-- The number of receivers. -/
def receiverCount (b : RingBuffer α) : ℕ := b.cursors.keys.card

/-- How many values the receiver has yet to receive. -/
def len (b : RingBuffer α) (rx : ℕ) : ℕ := (b.cursors.lookup rx).elim 0 fun p => b.tail - p

/-- A new receiver starts at the end. -/
def subscribe (b : RingBuffer α) : RingBuffer α × ℕ :=
  ({ b with cursors := b.cursors.insert b.handles b.tail, handles := b.handles + 1 }, b.handles)

/-- Nothing is stored when there are no receivers. -/
def send (b : RingBuffer α) (a : α) : RingBuffer α × Option ℕ :=
  if b.receiverCount = 0 then (b, none)
  else if b.buffer.length < b.slots then
    ({ b with buffer := b.buffer ++ [a] }, some b.receiverCount)
  else
    ({ b with buffer := b.buffer.tail ++ [a], oldest := b.oldest + 1 }, some b.receiverCount)

/-- What a receiver at position `p` gets. -/
def next (b : RingBuffer α) (p : ℕ) : Received α :=
  if p < b.oldest then .lagged (b.oldest - p) else b.buffer[p - b.oldest]?.elim .empty .value

/-- The receiver moves on by what it gets. -/
def recv (b : RingBuffer α) (rx : ℕ) : RingBuffer α × Option (Received α) :=
  match b.cursors.lookup rx with
  | none => (b, none)
  | some p =>
    ({ b with cursors := b.cursors.insert rx (p + (b.next p).passed) }, some (b.next p))

/-- A receiver is dropped. -/
def drop (b : RingBuffer α) (rx : ℕ) : RingBuffer α := { b with cursors := b.cursors.erase rx }

/-- The broadcast channels that are ring buffers; there can be none of more than
`limit` values. -/
def broadcast (limit : ℕ) : Broadcast α where
  State := RingBuffer α
  channel n := if 0 < n ∧ n ≤ limit then some (new (2 ^ Nat.clog 2 n)) else none
  subscribe := subscribe
  send := send
  receiverCount := receiverCount
  recv := recv
  len := len
  drop := drop

/-! ### The buffer and the ledger -/

/-- What a channel of capacity `n` holds when it has come to a ledger. -/
structure Holds (b : RingBuffer α) (n : ℕ) (L : Ledger α) : Prop where
  slots_pos : 0 < b.slots
  le_slots : n ≤ b.slots
  oldest_eq : b.oldest = L.sent.length - b.slots
  buffer_eq : b.buffer = L.sent.drop b.oldest
  cursors_eq : b.cursors = L.cursors
  cursor_le : ∀ rx p, L.cursors.lookup rx = some p → p ≤ L.sent.length
  handle_lt : ∀ rx ∈ L.cursors, rx < b.handles

section Holds

variable {b : RingBuffer α} {n : ℕ} {L : Ledger α} (h : b.Holds n L)

include h

/-- The next value sent comes after all that was sent. -/
theorem Holds.tail_eq : b.tail = L.sent.length := by
  have hslots := h.oldest_eq
  rw [tail, h.buffer_eq, List.length_drop]
  omega

/-- A receiver gets a value of those sent, at its position. -/
theorem Holds.next_value {p : ℕ} {a : α} (ha : b.next p = .value a) : L.sent[p]? = some a := by
  unfold next at ha
  split_ifs at ha with hlag
  have hget : b.buffer[p - b.oldest]? = L.sent[p]? := by
    rw [h.buffer_eq, List.getElem?_drop]
    congr 1
    omega
  rw [hget] at ha
  rcases hp : L.sent[p]? with _ | a'
  · rw [hp] at ha
    exact absurd ha (by simp)
  · rw [hp] at ha
    rw [Received.value.inj ha]

/-- A receiver lags when its value is released, and goes on from the oldest one. -/
theorem Holds.next_lagged {p k : ℕ} (hk : b.next p = .lagged k) :
    0 < k ∧ p + k + n ≤ L.sent.length := by
  have hslots := h.oldest_eq
  have hle := h.le_slots
  unfold next at hk
  split_ifs at hk with hlag
  · obtain rfl := Received.lagged.inj hk
    omega
  · rcases hp : b.buffer[p - b.oldest]? with _ | a <;> rw [hp] at hk <;> exact absurd hk (by simp)

/-- There is nothing for a receiver at the end. -/
theorem Holds.next_empty {p : ℕ} (hp : p ≤ L.sent.length) (he : b.next p = .empty) :
    p = L.sent.length := by
  unfold next at he
  split_ifs at he with hlag
  rcases ha : b.buffer[p - b.oldest]? with _ | a
  · rw [List.getElem?_eq_none_iff, h.buffer_eq, List.length_drop] at ha
    omega
  · rw [ha] at he
    exact absurd he (by simp)

/-- Nobody gets beyond what was sent. -/
theorem Holds.next_le {p : ℕ} (hp : p ≤ L.sent.length) : p + (b.next p).passed ≤ L.sent.length := by
  rcases hr : b.next p with a | k | _
  · exact (List.getElem?_eq_some_iff.1 (h.next_value hr)).1
  · exact (Nat.le_add_right _ _).trans (h.next_lagged hr).2
  · exact hp

/-- A receiver is put to a position within what was sent. -/
theorem Holds.insert {rx p handles : ℕ} (hp : p ≤ L.sent.length) (hle : b.handles ≤ handles)
    (hrx : rx < handles) :
    Holds { b with cursors := b.cursors.insert rx p, handles := handles } n
      { L with cursors := L.cursors.insert rx p } where
  slots_pos := h.slots_pos
  le_slots := h.le_slots
  oldest_eq := h.oldest_eq
  buffer_eq := h.buffer_eq
  cursors_eq := congrArg (Finmap.insert rx p) h.cursors_eq
  cursor_le rx' p' hp' := by
    have hat : (L.cursors.insert rx p).lookup rx' = some p' := hp'
    by_cases hne : rx' = rx
    · rw [hne, Finmap.lookup_insert] at hat
      rwa [← Option.some.inj hat]
    · rw [Finmap.lookup_insert_of_ne _ hne] at hat
      exact h.cursor_le rx' p' hat
  handle_lt rx' hrx' := by
    rcases Finmap.mem_insert.1 hrx' with rfl | hrx'
    · exact hrx
    · exact (h.handle_lt rx' hrx').trans_le hle

/-- A receiver is dropped. -/
theorem Holds.drop (rx : ℕ) : (b.drop rx).Holds n { L with cursors := L.cursors.erase rx } where
  slots_pos := h.slots_pos
  le_slots := h.le_slots
  oldest_eq := h.oldest_eq
  buffer_eq := h.buffer_eq
  cursors_eq := congrArg (Finmap.erase rx) h.cursors_eq
  cursor_le rx' p hp := by
    have hat : (L.cursors.erase rx).lookup rx' = some p := hp
    by_cases hne : rx' = rx
    · rw [hne, Finmap.lookup_erase] at hat
      exact absurd hat (Option.some_ne_none p).symm
    · rw [Finmap.lookup_erase_ne hne] at hat
      exact h.cursor_le rx' p hat
  handle_lt rx' hrx' := h.handle_lt rx' (Finmap.mem_erase.1 hrx').2

/-- A value is stored, a full channel releasing its oldest one. -/
theorem Holds.send (a : α) (hrx : b.receiverCount ≠ 0) :
    (b.send a).1.Holds n { L with sent := L.sent ++ [a] } := by
  have hslots := h.oldest_eq
  have hpos := h.slots_pos
  have hlen : b.buffer.length = L.sent.length - b.oldest := by rw [h.buffer_eq, List.length_drop]
  have hcursor : ∀ rx p, L.cursors.lookup rx = some p → p ≤ (L.sent ++ [a]).length := by
    intro rx p hp
    rw [List.length_append]
    exact Nat.le_add_right_of_le (h.cursor_le rx p hp)
  have hgrown : (L.sent ++ [a]).length = L.sent.length + 1 := List.length_append
  unfold RingBuffer.send
  rw [if_neg hrx]
  split_ifs with hroom
  · refine ⟨hpos, h.le_slots, ?_, ?_, h.cursors_eq, hcursor, h.handle_lt⟩
    · show b.oldest = (L.sent ++ [a]).length - b.slots
      omega
    · show b.buffer ++ [a] = (L.sent ++ [a]).drop b.oldest
      rw [h.buffer_eq, List.drop_append_of_le_length (by omega)]
  · refine ⟨hpos, h.le_slots, ?_, ?_, h.cursors_eq, hcursor, h.handle_lt⟩
    · show b.oldest + 1 = (L.sent ++ [a]).length - b.slots
      omega
    · show b.buffer.tail ++ [a] = (L.sent ++ [a]).drop (b.oldest + 1)
      rw [h.buffer_eq, List.tail_drop, List.drop_append_of_le_length (by omega)]

/-- The number a send returns. -/
theorem Holds.send_eq (a : α) :
    (b.send a).2 = if L.cursors.keys.card = 0 then none else some L.cursors.keys.card := by
  rw [← h.cursors_eq]
  show (b.send a).2 = if b.receiverCount = 0 then none else some b.receiverCount
  unfold RingBuffer.send
  split_ifs <;> rfl

/-- What a receiver gets. -/
theorem Holds.recv_eq (rx : ℕ) : (b.recv rx).2 = (L.cursors.lookup rx).map b.next := by
  rw [← h.cursors_eq]
  unfold RingBuffer.recv
  rcases b.cursors.lookup rx with _ | p <;> rfl

/-- **One call keeps the buffer the end of what was sent.** -/
theorem Holds.step (limit : ℕ) (call : Broadcast.Call α) :
    Holds ((broadcast limit).step b call).1 n (L.after call ((broadcast limit).step b call).2) := by
  cases call with
  | subscribe =>
    show Holds b.subscribe.1 n { L with cursors := L.cursors.insert b.handles L.sent.length }
    rw [← h.tail_eq]
    exact h.insert h.tail_eq.le (Nat.le_succ _) (Nat.lt_succ_self _)
  | send a =>
    show (b.send a).1.Holds n (L.after (.send a) (.sent (b.send a).2))
    by_cases hrx : b.receiverCount = 0
    · have hsend : b.send a = (b, none) := if_pos hrx
      rw [hsend]
      exact h
    · have hsome : (b.send a).2 = some b.receiverCount := by
        unfold RingBuffer.send
        split_ifs <;> rfl
      rw [hsome]
      exact h.send a hrx
  | recv rx =>
    show (b.recv rx).1.Holds n (L.after (.recv rx) (.received (b.recv rx).2))
    rcases hp : L.cursors.lookup rx with _ | p
    · have hrecv : b.recv rx = (b, none) := by
        unfold RingBuffer.recv
        rw [h.cursors_eq, hp]
      rw [hrecv]
      exact h
    · have hpast : L.past rx = p := congrArg (Option.getD · 0) hp
      have hrecv : b.recv rx =
          ({ b with cursors := b.cursors.insert rx (p + (b.next p).passed) }, some (b.next p)) := by
        unfold RingBuffer.recv
        rw [h.cursors_eq, hp]
      have hafter : L.after (.recv rx) (.received (some (b.next p))) =
          { L with cursors := L.cursors.insert rx (p + (b.next p).passed) } := by
        rw [Ledger.after, hpast]
      rw [hrecv, hafter]
      exact h.insert (h.next_le (h.cursor_le rx p hp)) le_rfl
        (h.handle_lt rx (Finmap.mem_of_lookup_eq_some hp))
  | drop rx => exact h.drop rx

end Holds

/-- A new channel holds nothing. -/
theorem holds_new {slots n : ℕ} (hpos : 0 < slots) (hle : n ≤ slots) :
    (new slots).1.Holds n (Ledger.new 0 : Ledger α) where
  slots_pos := hpos
  le_slots := hle
  oldest_eq := (Nat.zero_sub slots).symm
  buffer_eq := rfl
  cursors_eq := rfl
  cursor_le rx p hp := by
    by_cases hne : rx = 0
    · rw [hne, Ledger.new, Finmap.lookup_insert] at hp
      exact (Option.some.inj hp).ge
    · rw [Ledger.new, Finmap.lookup_insert_of_ne _ hne, Finmap.lookup_empty] at hp
      exact absurd hp (Option.some_ne_none p).symm
  handle_lt rx hrx := by
    rcases Finmap.mem_insert.1 hrx with rfl | hrx
    · exact Nat.one_pos
    · exact absurd hrx Finmap.notMem_empty

/-- **The buffer is the end of what was sent**, whatever is called. -/
theorem holds_of_reached {limit n : ℕ} {b : RingBuffer α} {L : Ledger α}
    (h : (broadcast limit).Reached n b L) : b.Holds n L := by
  refine h.inv (I := fun b L => Holds b n L) (fun b rx hnew => ?_)
    fun b L call hb => hb.step limit call
  change (if 0 < n ∧ n ≤ limit then some (new (2 ^ Nat.clog 2 n)) else none) = some (b, rx) at hnew
  split_ifs at hnew
  obtain ⟨rfl, rfl⟩ := Prod.mk.inj (Option.some.inj hnew)
  exact holds_new (Nat.two_pow_pos _) (Nat.le_pow_clog Nat.one_lt_two n)

/-- What a receiver of a channel gets that has come to a ledger. -/
theorem next_of_recv {limit n : ℕ} {b : RingBuffer α} {L : Ledger α} {rx p : ℕ} {r : Received α}
    (h : (broadcast limit).Reached n b L) (hp : L.cursors.lookup rx = some p)
    (hr : ((broadcast limit).recv b rx).2 = some r) : b.next p = r := by
  have hrecv : (b.recv rx).2 = (L.cursors.lookup rx).map b.next := (holds_of_reached h).recv_eq rx
  rw [hp] at hrecv
  exact Option.some.inj (hrecv.symm.trans hr)

/-- **A ring buffer keeps the laws of a broadcast channel.** -/
theorem laws (limit : ℕ) : (broadcast limit : Broadcast α).Laws where
  subscribe_fresh h hmem := ((holds_of_reached h).handle_lt _ hmem).ne rfl
  send_eq a h := (holds_of_reached h).send_eq a
  receiverCount_eq h := congrArg (Finset.card ∘ Finmap.keys) (holds_of_reached h).cursors_eq
  recv_isSome {n b L rx} h := by
    have hrecv : (b.recv rx).2 = (L.cursors.lookup rx).map b.next := (holds_of_reached h).recv_eq rx
    show (b.recv rx).2.isSome ↔ rx ∈ L.cursors
    rw [hrecv, Option.isSome_map, Finmap.lookup_isSome]
  recv_value h hp ha := (holds_of_reached h).next_value (next_of_recv h hp ha)
  recv_lagged h hp hk := (holds_of_reached h).next_lagged (next_of_recv h hp hk)
  recv_empty h hp he :=
    (holds_of_reached h).next_empty ((holds_of_reached h).cursor_le _ _ hp) (next_of_recv h hp he)
  len_eq {n b L rx} h := by
    have hb := holds_of_reached h
    show (b.cursors.lookup rx).elim 0 (fun p => b.tail - p) = _
    rw [hb.cursors_eq, hb.tail_eq]
    split_ifs with hmem
    · obtain ⟨p, hp⟩ := Finmap.mem_iff.1 hmem
      rw [Ledger.past, hp]
      rfl
    · rw [Finmap.lookup_eq_none.2 hmem]
      rfl

end RingBuffer
end Basis
