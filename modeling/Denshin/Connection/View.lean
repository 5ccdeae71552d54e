/-
# What the manager holds about one connection

The calls that change a `ConnectionManager` (`Op`), and what each does, read
connection by connection.  The `View` of an id is its sender, its metadata and
the rooms whose member set lists it.  Every call names one id; it changes the
view of that id, by a rule that looks at nothing else (`View.step`), and leaves
the view of every other id alone (`view_step`).  `slicing` packs this as a
`Slicing`, so that whatever the calls on other ids were, the view of an id is
decided by the calls on it.

The two copies of the membership relation meet in the view: `joined` is what
the metadata says and `listed` what the room index says.  `Consistent` is what
every call keeps: the keys of `senders` and `info` agree, no room entry is
empty, and every joined room lists the connection.  The converse inclusion,
that a room lists only connections that joined it, is not among them: see
`Denshin.Connection.Ghost`.
-/

import Denshin.Basis.Machine
import Denshin.Connection.Manager

namespace Denshin

open Basis

/-- The calls that take the manager mutably. -/
inductive Op (χ : Type*)
  | add (uuid : ConnId) (userId : Option UserId) (tx : χ) (now : Instant)
  | addWithId (id : ConnId) (userId : Option UserId) (tx : χ) (now : Instant)
  | remove (connectionId : ConnId)
  | joinRoom (connectionId : ConnId) (roomId : RoomId)
  | leaveRoom (connectionId : ConnId) (roomId : RoomId)
  | touch (connectionId : ConnId) (now : Instant)
deriving DecidableEq

/-- What they return. -/
inductive Ret (χ : Type*)
  | added (id : ConnId) (rx : χ)
  | registered (rx : χ)
  | removed (info : Option ConnectionInfo)
  | flag (b : Bool)
  | unit
deriving DecidableEq

variable {χ : Type*}

/-- The connection a call is about. -/
def Op.conn : Op χ → ConnId
  | .add uuid .. => uuid
  | .addWithId id .. => id
  | .remove c => c
  | .joinRoom c _ => c
  | .leaveRoom c _ => c
  | .touch c _ => c

/-- The id a call registers. -/
def Op.registers : Op χ → Option ConnId
  | .add uuid .. => some uuid
  | .addWithId id .. => some id
  | _ => none

/-- The view of one connection. -/
@[ext] structure View (χ : Type*) where
  sender : Option χ
  info : Option ConnectionInfo
  listed : Finset RoomId

namespace View

/-- Nothing is known of the connection. -/
def empty : View χ := ⟨none, none, ∅⟩

/-- The rooms the metadata of the connection names. -/
def joined (v : View χ) : Finset RoomId := v.info.elim ∅ ConnectionInfo.rooms

def register (v : View χ) (id : ConnId) (userId : Option UserId) (tx : χ) (now : Instant) :
    View χ :=
  { v with sender := some tx, info := some (ConnectionInfo.new id userId now) }

def remove (v : View χ) : View χ := ⟨none, none, v.listed \ v.joined⟩

def joinRoom (v : View χ) (r : RoomId) : View χ × Bool :=
  match v.info with
  | some info =>
    if r ∈ info.rooms then (v, false)
    else ({ v with
              info := some { info with rooms := insert r info.rooms }
              listed := insert r v.listed }, true)
  | none => (v, false)

def leaveRoom (v : View χ) (r : RoomId) : View χ × Bool :=
  match v.info with
  | some info =>
    if r ∈ info.rooms then
      ({ v with
           info := some { info with rooms := info.rooms.erase r }
           listed := v.listed.erase r }, true)
    else (v, false)
  | none => (v, false)

def touch (v : View χ) (now : Instant) : View χ :=
  { v with info := v.info.map fun info => { info with lastSeen := now } }

/-- What a call does to the view of the connection it is about. -/
def step (v : View χ) : Op χ → View χ × Ret χ
  | .add uuid userId tx now => (v.register uuid userId tx now, .added uuid tx)
  | .addWithId id userId tx now => (v.register id userId tx now, .registered tx)
  | .remove _ => (v.remove, .removed v.info)
  | .joinRoom _ r => ((v.joinRoom r).1, .flag (v.joinRoom r).2)
  | .leaveRoom _ r => ((v.leaveRoom r).1, .flag (v.leaveRoom r).2)
  | .touch _ now => (v.touch now, .unit)

/-- What `join_room` can do: nothing, or the join of a room not joined. -/
theorem joinRoom_cases (v : View χ) (r : RoomId) :
    v.joinRoom r = (v, false) ∨ ∃ info, v.info = some info ∧ r ∉ info.rooms ∧
      v.joinRoom r = ({ v with
        info := some { info with rooms := insert r info.rooms }
        listed := insert r v.listed }, true) := by
  unfold View.joinRoom
  cases v.info with
  | none => exact Or.inl rfl
  | some info =>
    by_cases hr : r ∈ info.rooms
    · exact Or.inl (if_pos hr)
    · exact Or.inr ⟨info, rfl, hr, if_neg hr⟩

/-- What `leave_room` can do: nothing, or the leaving of a joined room. -/
theorem leaveRoom_cases (v : View χ) (r : RoomId) :
    v.leaveRoom r = (v, false) ∨ ∃ info, v.info = some info ∧ r ∈ info.rooms ∧
      v.leaveRoom r = ({ v with
        info := some { info with rooms := info.rooms.erase r }
        listed := v.listed.erase r }, true) := by
  unfold View.leaveRoom
  cases v.info with
  | none => exact Or.inl rfl
  | some info =>
    by_cases hr : r ∈ info.rooms
    · exact Or.inr ⟨info, rfl, hr, if_pos hr⟩
    · exact Or.inl (if_neg hr)

end View

namespace ConnectionManager

/-- One call, with the order in which it iterates a hash set. -/
def step (m : ConnectionManager χ) : HashIter String × Op χ → ConnectionManager χ × Ret χ
  | (_, .add uuid userId tx now) =>
    ((m.add uuid userId tx now).1,
      .added (m.add uuid userId tx now).2.1 (m.add uuid userId tx now).2.2)
  | (_, .addWithId id userId tx now) =>
    ((m.addWithId id userId tx now).1, .registered (m.addWithId id userId tx now).2)
  | (it, .remove c) => ((m.remove it c).1, .removed (m.remove it c).2)
  | (_, .joinRoom c r) => ((m.joinRoom c r).1, .flag (m.joinRoom c r).2)
  | (_, .leaveRoom c r) => ((m.leaveRoom c r).1, .flag (m.leaveRoom c r).2)
  | (_, .touch c now) => (m.touch c now, .unit)

/-- The manager under its mutating calls. -/
def machine (χ : Type*) : Machine (ConnectionManager χ) (HashIter String × Op χ) (Ret χ) := ⟨step⟩

/-- A step of the machine is a call. -/
@[simp] theorem machine_step (m : ConnectionManager χ) (call : HashIter String × Op χ) :
    (machine χ).step m call = m.step call := rfl

/-- What `m` holds about `c`. -/
def view (m : ConnectionManager χ) (c : ConnId) : View χ :=
  ⟨m.senders.lookup c, m.info.lookup c, m.rooms.keysOf c⟩

/-- The sender of a connection. -/
@[simp] theorem view_sender (m : ConnectionManager χ) (c : ConnId) :
    (m.view c).sender = m.senders.lookup c := rfl

/-- The metadata of a connection. -/
@[simp] theorem view_info (m : ConnectionManager χ) (c : ConnId) :
    (m.view c).info = m.info.lookup c := rfl

/-- The rooms that list a connection. -/
@[simp] theorem mem_view_listed {m : ConnectionManager χ} {c : ConnId} {r : RoomId} :
    r ∈ (m.view c).listed ↔ c ∈ m.rooms.get r := Multimap.mem_keysOf

/-- A new manager holds no sender. -/
@[simp] theorem lookup_new (c : ConnId) :
    (new : ConnectionManager χ).senders.lookup c = none := Finmap.lookup_empty c

/-- A new manager knows of nobody. -/
@[simp] theorem view_new (c : ConnId) : (new : ConnectionManager χ).view c = View.empty := by
  simp [view, new, View.empty, Multimap.keysOf]

/-! ### Each call, view by view -/

/-- A registration concerns its own connection only. -/
theorem view_register (m : ConnectionManager χ) (id : ConnId) (userId : Option UserId) (tx : χ)
    (now : Instant) (c : ConnId) : (m.register id userId tx now).view c =
      if c = id then (m.view id).register id userId tx now else m.view c := by
  split_ifs with h
  · subst h
    exact View.ext (Finmap.lookup_insert _) (Finmap.lookup_insert _) rfl
  · exact View.ext (Finmap.lookup_insert_of_ne _ h) (Finmap.lookup_insert_of_ne _ h) rfl

/-- The rooms are walked in some order; the view does not see which. -/
theorem view_remove (m : ConnectionManager χ) (it : HashIter RoomId) (d c : ConnId) :
    (m.remove it d).1.view c = if c = d then (m.view d).remove else m.view c := by
  unfold remove View.remove View.joined
  rw [view_info]
  cases hd : m.info.lookup d with
  | none =>
    split_ifs with h
    · subst h
      exact View.ext (Finmap.lookup_erase _ _) hd (by simp [view])
    · exact View.ext (Finmap.lookup_erase_ne h) rfl rfl
  | some info =>
    have hkeys := m.rooms.keysOf_unlinkAll (it.order info.rooms) d c
    split_ifs at hkeys ⊢ with h
    · subst h
      refine View.ext (Finmap.lookup_erase _ _) (Finmap.lookup_erase _ _) (hkeys.trans ?_)
      have hset : (it.order info.rooms).toFinset = info.rooms := by ext; simp
      rw [hset]
      rfl
    · exact View.ext (Finmap.lookup_erase_ne h) (Finmap.lookup_erase_ne h) hkeys

/-- A join concerns its own connection only. -/
theorem view_joinRoom (m : ConnectionManager χ) (d : ConnId) (r : RoomId) (c : ConnId) :
    (m.joinRoom d r).1.view c = if c = d then ((m.view d).joinRoom r).1 else m.view c := by
  unfold joinRoom View.joinRoom
  rw [view_info]
  cases hd : m.info.lookup d with
  | none => split_ifs with h <;> simp [h]
  | some info =>
    by_cases hr : r ∈ info.rooms
    · split_ifs with h <;> simp [hr, h]
    · have hkeys := m.rooms.keysOf_link r d c
      simp only [hr, if_false]
      split_ifs at hkeys ⊢ with h
      · subst h
        exact View.ext rfl (Finmap.lookup_insert _) hkeys
      · exact View.ext rfl (Finmap.lookup_insert_of_ne _ h) hkeys

/-- A leave concerns its own connection only. -/
theorem view_leaveRoom (m : ConnectionManager χ) (d : ConnId) (r : RoomId) (c : ConnId) :
    (m.leaveRoom d r).1.view c = if c = d then ((m.view d).leaveRoom r).1 else m.view c := by
  unfold leaveRoom View.leaveRoom
  rw [view_info]
  cases hd : m.info.lookup d with
  | none => split_ifs with h <;> simp [h]
  | some info =>
    by_cases hr : r ∈ info.rooms
    · have hkeys := m.rooms.keysOf_unlink r d c
      simp only [hr, if_true]
      split_ifs at hkeys ⊢ with h
      · subst h
        exact View.ext rfl (Finmap.lookup_insert _) hkeys
      · exact View.ext rfl (Finmap.lookup_insert_of_ne _ h) hkeys
    · split_ifs with h <;> simp [hr, h]

/-- A touch concerns its own connection only. -/
theorem view_touch (m : ConnectionManager χ) (d : ConnId) (now : Instant) (c : ConnId) :
    (m.touch d now).view c = if c = d then (m.view d).touch now else m.view c := by
  unfold touch View.touch
  rw [view_info]
  cases hd : m.info.lookup d with
  | none =>
    split_ifs with h
    · subst h
      exact View.ext rfl hd rfl
    · rfl
  | some info =>
    split_ifs with h
    · subst h
      exact View.ext rfl (Finmap.lookup_insert _) rfl
    · exact View.ext rfl (Finmap.lookup_insert_of_ne _ h) rfl

/-- The rule of a view, at the id the call names. -/
theorem ite_view (m : ConnectionManager χ) (c d : ConnId) (f : View χ → View χ) :
    (if c = d then f (m.view d) else m.view c) = if c = d then f (m.view c) else m.view c := by
  split_ifs with h
  · rw [h]
  · rfl

/-- **A call changes the view of its own connection only**, and by a rule of
that view. -/
theorem view_step (m : ConnectionManager χ) (call : HashIter String × Op χ) (c : ConnId) :
    (m.step call).1.view c =
      if c = call.2.conn then ((m.view c).step call.2).1 else m.view c := by
  obtain ⟨it, op⟩ := call
  cases op with
  | add uuid userId tx now =>
    exact (m.view_register uuid userId tx now c).trans
      (m.ite_view c uuid fun v => v.register uuid userId tx now)
  | addWithId id userId tx now =>
    exact (m.view_register id userId tx now c).trans
      (m.ite_view c id fun v => v.register id userId tx now)
  | remove d => exact (m.view_remove it d c).trans (m.ite_view c d View.remove)
  | joinRoom d r => exact (m.view_joinRoom d r c).trans (m.ite_view c d fun v => (v.joinRoom r).1)
  | leaveRoom d r =>
    exact (m.view_leaveRoom d r c).trans (m.ite_view c d fun v => (v.leaveRoom r).1)
  | touch d now => exact (m.view_touch d now c).trans (m.ite_view c d fun v => v.touch now)

/-- **And it answers from that view alone.** -/
theorem answer_step (m : ConnectionManager χ) (call : HashIter String × Op χ) :
    (m.step call).2 = ((m.view call.2.conn).step call.2).2 := by
  obtain ⟨it, op⟩ := call
  cases op with
  | add => rfl
  | addWithId => rfl
  | remove d =>
    simp only [step, remove, View.step, Op.conn, view_info]
    cases m.info.lookup d <;> rfl
  | joinRoom d r =>
    simp only [step, joinRoom, View.step, View.joinRoom, Op.conn, view_info]
    cases m.info.lookup d with
    | none => rfl
    | some info => by_cases hr : r ∈ info.rooms <;> simp [hr]
  | leaveRoom d r =>
    simp only [step, leaveRoom, View.step, View.leaveRoom, Op.conn, view_info]
    cases m.info.lookup d with
    | none => rfl
    | some info => by_cases hr : r ∈ info.rooms <;> simp [hr]
  | touch => rfl

/-- The manager as a family of views. -/
def slicing (χ : Type*) : Slicing (machine χ) (Op χ) ConnId (View χ) where
  label := Prod.snd
  key := Op.conn
  view := view
  slice := ⟨View.step⟩
  view_step := view_step
  answer_step := answer_step

/-! ### The invariant -/

/-- **No call leaves a room without members in the index.** -/
theorem tight_step {m : ConnectionManager χ} (h : m.rooms.Tight)
    (call : HashIter String × Op χ) : (m.step call).1.rooms.Tight := by
  obtain ⟨it, op⟩ := call
  cases op with
  | add => exact h
  | addWithId => exact h
  | remove d =>
    simp only [step, remove]
    cases m.info.lookup d with
    | none => exact h
    | some info => exact h.unlinkAll _ _
  | joinRoom d r =>
    simp only [step, joinRoom]
    cases m.info.lookup d with
    | none => exact h
    | some info =>
      by_cases hr : r ∈ info.rooms <;> simp only [hr, if_true, if_false]
      · exact h
      · exact h.link r d
  | leaveRoom d r =>
    simp only [step, leaveRoom]
    cases m.info.lookup d with
    | none => exact h
    | some info =>
      by_cases hr : r ∈ info.rooms <;> simp only [hr, if_true, if_false]
      · exact h.unlink r d
      · exact h
  | touch d now =>
    simp only [step, touch]
    cases m.info.lookup d <;> exact h

end ConnectionManager

/-- What is always true of the view of `c`. -/
structure View.Ok (c : ConnId) (v : View χ) : Prop where
  sender_isSome : v.sender.isSome = v.info.isSome
  info_id : ∀ info, v.info = some info → info.id = c
  joined_subset : v.joined ⊆ v.listed

namespace View

/-- A connection of which nothing is known has joined no room. -/
@[simp] theorem joined_empty : (empty : View χ).joined = ∅ := rfl

/-- The rooms joined are those of the metadata. -/
theorem joined_of_info {v : View χ} {info : ConnectionInfo} (h : v.info = some info) :
    v.joined = info.rooms := by
  rw [joined, h]
  rfl

/-- Without metadata no room is joined. -/
theorem joined_of_info_none {v : View χ} (h : v.info = none) : v.joined = ∅ := by
  rw [joined, h]
  rfl

/-- A connection of which nothing is known is in order. -/
theorem ok_empty (c : ConnId) : (empty : View χ).Ok c where
  sender_isSome := rfl
  info_id _ h := by cases h
  joined_subset := Finset.empty_subset _

/-- A registration puts a connection in order. -/
theorem Ok.register {c : ConnId} {v : View χ} (userId : Option UserId) (tx : χ) (now : Instant) :
    (v.register c userId tx now).Ok c :=
  ⟨rfl, fun _ h => Option.some.inj h ▸ rfl, Finset.empty_subset _⟩

/-- So does a removal. -/
theorem Ok.remove {c : ConnId} {v : View χ} : v.remove.Ok c where
  sender_isSome := rfl
  info_id _ h := by cases h
  joined_subset := Finset.empty_subset _

/-- Both copies of the membership are replaced, the first within the second. -/
theorem Ok.moved {c : ConnId} {v : View χ} (h : v.Ok c) {info : ConnectionInfo}
    (hi : v.info = some info) {rooms listed : Finset RoomId} (hsub : rooms ⊆ listed) :
    Ok c { v with info := some { info with rooms := rooms }, listed := listed } := by
  have hsender := h.sender_isSome
  rw [hi] at hsender
  refine ⟨hsender, fun info' he => ?_, hsub⟩
  rw [← Option.some.inj he]
  exact h.info_id info hi

/-- A join keeps it in order. -/
theorem Ok.joinRoom {c : ConnId} {v : View χ} (h : v.Ok c) (r : RoomId) :
    (v.joinRoom r).1.Ok c := by
  rcases v.joinRoom_cases r with hj | ⟨info, hi, -, hj⟩ <;> rw [hj]
  · exact h
  · refine h.moved hi (Finset.insert_subset_insert r ?_)
    rw [← joined_of_info hi]
    exact h.joined_subset

/-- So does a leave. -/
theorem Ok.leaveRoom {c : ConnId} {v : View χ} (h : v.Ok c) (r : RoomId) :
    (v.leaveRoom r).1.Ok c := by
  rcases v.leaveRoom_cases r with hl | ⟨info, hi, -, hl⟩ <;> rw [hl]
  · exact h
  · refine h.moved hi (Finset.erase_subset_erase r ?_)
    rw [← joined_of_info hi]
    exact h.joined_subset

/-- A touch leaves the rooms joined. -/
theorem joined_touch (v : View χ) (now : Instant) : (v.touch now).joined = v.joined := by
  unfold touch joined
  cases v.info <;> rfl

/-- A touch keeps a connection in order. -/
theorem Ok.touch {c : ConnId} {v : View χ} (h : v.Ok c) (now : Instant) : (v.touch now).Ok c := by
  refine ⟨?_, fun info' he => ?_, ?_⟩
  · rw [View.touch, h.sender_isSome, Option.isSome_map]
  · obtain ⟨info, hi, rfl⟩ := Option.map_eq_some_iff.1 he
    exact h.info_id info hi
  · rw [joined_touch]
    exact h.joined_subset

/-- Every call keeps what is true of the view it changes. -/
theorem Ok.step {v : View χ} (op : Op χ) (h : v.Ok op.conn) : (v.step op).1.Ok op.conn := by
  cases op with
  | add uuid userId tx now => exact Ok.register userId tx now
  | addWithId id userId tx now => exact Ok.register userId tx now
  | remove c => exact Ok.remove
  | joinRoom c r => exact h.joinRoom r
  | leaveRoom c r => exact h.leaveRoom r
  | touch c now => exact h.touch now

end View

namespace ConnectionManager

/-- **The invariant of the manager.** -/
structure Consistent (m : ConnectionManager χ) : Prop where
  views : ∀ c, (m.view c).Ok c
  tight : m.rooms.Tight

/-- A new manager is consistent. -/
theorem consistent_new : (new : ConnectionManager χ).Consistent where
  views c := by
    rw [view_new]
    exact View.ok_empty c
  tight := Multimap.tight_empty

/-- **Every call keeps the manager consistent.** -/
theorem Consistent.step {m : ConnectionManager χ} (h : m.Consistent)
    (call : HashIter String × Op χ) : (m.step call).1.Consistent where
  views c :=
    (slicing χ).view_inv (I := fun c v => v.Ok c) (fun _ op hv => hv.step op) h.views call c
  tight := tight_step h.tight call

/-- The manager is consistent in every run. -/
theorem Consistent.run {m : ConnectionManager χ} (h : m.Consistent)
    (calls : List (HashIter String × Op χ)) : ((machine χ).run m calls).Consistent :=
  (machine χ).run_inv (fun _ call hm => hm.step call) h calls

/-- **A consistent manager is its views.** -/
theorem Consistent.ext {m m' : ConnectionManager χ} (h : m.Consistent) (h' : m'.Consistent)
    (hv : ∀ c, m.view c = m'.view c) : m = m' := by
  obtain ⟨senders, info, rooms⟩ := m
  obtain ⟨senders', info', rooms'⟩ := m'
  have hs : senders = senders' := Finmap.ext_lookup fun c => congrArg View.sender (hv c)
  have hi : info = info' := Finmap.ext_lookup fun c => congrArg View.info (hv c)
  have hr : rooms = rooms' := h.tight.ext_keysOf h'.tight fun c => congrArg View.listed (hv c)
  rw [hs, hi, hr]

/-- The keys of `senders` and of `info` agree. -/
theorem Consistent.keys_eq {m : ConnectionManager χ} (h : m.Consistent) :
    m.senders.keys = m.info.keys := by
  ext c
  rw [Finmap.mem_keys, Finmap.mem_keys, ← Finmap.lookup_isSome, ← Finmap.lookup_isSome]
  exact Bool.coe_iff_coe.2 (h.views c).sender_isSome

end ConnectionManager
end Denshin
