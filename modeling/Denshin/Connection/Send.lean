/-
# The four ways to send

`send_to`, `send_to_room`, `send_to_room_except` and `broadcast` go through
different maps: the room sends walk the room index and look every id up, the
broadcast walks the senders.  Each is one loop that offers the message to the
channel of every item (`send_eq_fanOut`), and what it does is one rule
(`send_apply_of_lookup`): the queue of a connection's channel grows by the
message exactly when its receiver is open and the connection is addressed
(`Send.Addressed`).  No other channel changes (`send_apply_of_not_sender`), and
the value returned counts the queues that grew (`encard_grown_send`).
-/

import Denshin.Connection.View

namespace Denshin

open Basis

/-- The calls that send. -/
inductive Send
  | sendTo (connectionId : ConnId) (message : Message)
  | sendToRoom (roomId : RoomId) (message : Message)
  | sendToRoomExcept (roomId : RoomId) (message : Message) (exceptId : ConnId)
  | broadcast (message : Message)
deriving DecidableEq

/-- What they return. -/
inductive Sent
  | flag (b : Bool)
  | count (n : ℕ)
deriving DecidableEq

/-- The successes a send reports. -/
def Sent.num : Sent → ℕ
  | .flag b => if b then 1 else 0
  | .count n => n

variable {χ : Type*}

namespace Send

/-- The text sent. -/
def message : Send → Message
  | sendTo _ msg => msg
  | sendToRoom _ msg => msg
  | sendToRoomExcept _ msg _ => msg
  | broadcast msg => msg

/-- The connections a send walks, in its order. -/
def items (m : ConnectionManager χ) (it : HashIter ConnId) : Send → List ConnId
  | sendTo c _ => [c]
  | sendToRoom r _ => it.order (m.rooms.get r)
  | sendToRoomExcept r _ _ => it.order (m.rooms.get r)
  | broadcast _ => it.keys m.senders

/-- The channel one round of the walk sends on. -/
def target (m : ConnectionManager χ) : Send → ConnId → Option χ
  | sendToRoomExcept _ _ exceptId, c => if c ≠ exceptId then m.senders.lookup c else none
  | _, c => m.senders.lookup c

/-- The connections a send is for. -/
def Addressed (m : ConnectionManager χ) (c : ConnId) : Send → Prop
  | sendTo c' _ => c = c'
  | sendToRoom r _ => c ∈ m.rooms.get r
  | sendToRoomExcept r _ exceptId => c ∈ m.rooms.get r ∧ c ≠ exceptId
  | broadcast _ => True

instance (m : ConnectionManager χ) (c : ConnId) (s : Send) : Decidable (s.Addressed m c) := by
  cases s <;> unfold Addressed <;> infer_instance

/-- Nobody is visited twice by a send. -/
theorem nodup_items (m : ConnectionManager χ) (it : HashIter ConnId) (s : Send) :
    (s.items m it).Nodup := by
  cases s with
  | sendTo c msg => exact List.nodup_singleton c
  | sendToRoom r msg => exact it.nodup_order _
  | sendToRoomExcept r msg exceptId => exact it.nodup_order _
  | broadcast msg => exact it.nodup_keys _

/-- A round sends on the connection's own channel or not at all. -/
theorem lookup_of_target {m : ConnectionManager χ} {s : Send} {c : ConnId} {x : χ}
    (h : s.target m c = some x) : m.senders.lookup c = some x := by
  cases s with
  | sendToRoomExcept r msg exceptId =>
    simp only [target] at h
    split_ifs at h
    exact h
  | _ => exact h

/-- The rounds that send are those of the registered addressees. -/
theorem mem_items_target {m : ConnectionManager χ} (it : HashIter ConnId) {s : Send} {c : ConnId}
    {x : χ} : (c ∈ s.items m it ∧ s.target m c = some x) ↔
      (m.senders.lookup c = some x ∧ s.Addressed m c) := by
  cases s with
  | sendTo c' msg =>
    simp only [items, target, Addressed, List.mem_singleton]
    exact and_comm
  | sendToRoom r msg =>
    simp only [items, target, Addressed, it.mem_order]
    exact and_comm
  | sendToRoomExcept r msg exceptId =>
    simp only [items, target, Addressed, it.mem_order]
    by_cases hc : c = exceptId
    · simp [hc]
    · simp only [hc, ne_eq, not_false_eq_true, if_true, and_true]
      exact and_comm
  | broadcast msg =>
    simp only [items, target, Addressed, it.keys_eq_order, it.mem_order, and_true,
      and_iff_right_iff_imp]
    exact fun h => Finmap.mem_keys.2 (Finmap.mem_of_lookup_eq_some h)

/-- The channels that a send goes to are those of the connections it addresses. -/
theorem mem_targets {m : ConnectionManager χ} {it : HashIter ConnId} {s : Send} {x : χ} :
    x ∈ (s.items m it).filterMap (s.target m) ↔
      ∃ c, m.senders.lookup c = some x ∧ s.Addressed m c := by
  rw [List.mem_filterMap]
  exact exists_congr fun c => mem_items_target it

end Send

/-- No channel is the sender of two connections. -/
def OwnChannels (m : ConnectionManager χ) : Prop :=
  ∀ c d x, m.senders.lookup c = some x → m.senders.lookup d = some x → c = d

/-- A send goes to no channel twice. -/
theorem OwnChannels.nodup_targets {m : ConnectionManager χ} (h : OwnChannels m)
    (it : HashIter ConnId) (s : Send) : ((s.items m it).filterMap (s.target m)).Nodup :=
  (s.nodup_items m it).filterMap fun c d x hc hd =>
    h c d x (Send.lookup_of_target hc) (Send.lookup_of_target hd)

namespace ConnectionManager

variable [DecidableEq χ]

/-- One sending call. -/
def send (m : ConnectionManager χ) (it : HashIter ConnId) (cs : Channels χ Message) :
    Send → Channels χ Message × Sent
  | .sendTo c msg => ((m.sendTo c msg cs).1, .flag (m.sendTo c msg cs).2)
  | .sendToRoom r msg => ((m.sendToRoom it r msg cs).1, .count (m.sendToRoom it r msg cs).2)
  | .sendToRoomExcept r msg exceptId =>
    ((m.sendToRoomExcept it r msg exceptId cs).1,
      .count (m.sendToRoomExcept it r msg exceptId cs).2)
  | .broadcast msg => ((m.broadcast it msg cs).1, .count (m.broadcast it msg cs).2)

/-- **Every send is a walk over its items.** -/
theorem send_eq_fanOut (m : ConnectionManager χ) (it : HashIter ConnId) (cs : Channels χ Message)
    (s : Send) :
    (m.send it cs s).1 = (Channels.fanOut (s.target m) s.message (s.items m it) cs).1 ∧
      (m.send it cs s).2.num = (Channels.fanOut (s.target m) s.message (s.items m it) cs).2 := by
  cases s with
  | sendTo c msg =>
    refine ⟨rfl, ?_⟩
    show (if (cs.offer msg (m.senders.lookup c)).2 then 1 else 0) = _
    rfl
  | sendToRoom r msg =>
    cases hr : m.rooms.lookup r with
    | none =>
      simp [send, sendToRoom, hr, Send.items, Multimap.get_of_lookup_none hr, Channels.fanOut,
        Sent.num]
    | some members =>
      simp only [send, sendToRoom, hr, Send.items, Multimap.get_of_lookup hr, Sent.num]
      exact ⟨rfl, rfl⟩
  | sendToRoomExcept r msg exceptId =>
    cases hr : m.rooms.lookup r with
    | none =>
      simp [send, sendToRoomExcept, hr, Send.items, Multimap.get_of_lookup_none hr,
        Channels.fanOut, Sent.num]
    | some members =>
      simp only [send, sendToRoomExcept, hr, Send.items, Multimap.get_of_lookup hr, Sent.num]
      exact ⟨rfl, rfl⟩
  | broadcast msg =>
    have hvalues : it.values m.senders = (it.keys m.senders).filterMap m.senders.lookup := by
      rw [it.values_eq, it.keys_eq_order]
    simp only [send, broadcast, hvalues, Channels.fanOut_filterMap, Sent.num]
    exact ⟨rfl, rfl⟩

section Delivery

variable {m : ConnectionManager χ} (h : OwnChannels m) (it : HashIter ConnId)
  (cs : Channels χ Message) (s : Send)

include h

/-- What a send can do to a channel: nothing, or one push of its message, for
an addressed connection that sends on it. -/
theorem send_cases (x : χ) :
    (m.send it cs s).1 x = cs x ∨ ∃ c, m.senders.lookup c = some x ∧ s.Addressed m c ∧
      (m.send it cs s).1 x = ((cs x).send s.message).1 := by
  rw [(m.send_eq_fanOut it cs s).1, Channels.fanOut_apply (h.nodup_targets it s)]
  split_ifs with hx
  · obtain ⟨c, hc, hs⟩ := Send.mem_targets.1 hx
    exact Or.inr ⟨c, hc, hs, rfl⟩
  · exact Or.inl rfl

/-- **What a send does** to the channel of a connection: the message is queued
once if the connection is addressed and the receiver open. -/
theorem send_apply_of_lookup {c : ConnId} {x : χ} (hx : m.senders.lookup c = some x) :
    (m.send it cs s).1 x = if s.Addressed m c then ((cs x).send s.message).1 else cs x := by
  rw [(m.send_eq_fanOut it cs s).1, Channels.fanOut_apply (h.nodup_targets it s)]
  refine if_congr (Send.mem_targets.trans ⟨?_, fun hs => ⟨c, hx, hs⟩⟩) rfl rfl
  rintro ⟨d, hd, hs⟩
  rwa [h c d x hx hd]

/-- A channel no connection sends on is left alone. -/
theorem send_apply_of_not_sender {x : χ} (hx : ∀ c, m.senders.lookup c ≠ some x) :
    (m.send it cs s).1 x = cs x := by
  rcases send_cases h it cs s x with hsame | ⟨c, hc, -, -⟩
  · exact hsame
  · exact absurd hc (hx c)

/-- **What a send returns**: the number of queues that grew. -/
theorem encard_grown_send :
    (Channels.grown cs (m.send it cs s).1).encard = (m.send it cs s).2.num := by
  rw [(m.send_eq_fanOut it cs s).1, (m.send_eq_fanOut it cs s).2]
  exact Channels.encard_grown_fanOut (h.nodup_targets it s)

end Delivery

end ConnectionManager
end Denshin
