/-
# The manager as a membership relation

What a `ConnectionManager` is for, said without its maps: the live connections
with their users, and a relation between live connections and rooms.
`Directory` is that state, `Directory.step` the calls on it.

As long as connections are registered under ids that are not live, the manager
computes it (`run_directory`): every call returns what the directory returns,
and every query reads the directory (`Agrees`).  The room entries that appear
with the first member and disappear with the last are a way to store the
relation, and the two copies of it are one.
-/

import Denshin.Connection.Ghost

namespace Denshin

open Basis

variable {χ : Type*}

/-- The live connections and who is in which room. -/
structure Directory where
  live : Finmap fun _ : ConnId => Option UserId
  member : Finset (ConnId × RoomId)
  live_of_mem : ∀ p ∈ member, p.1 ∈ live

/-- What a call on the directory returns: an id, a yes or no, or the connection
taken out with its user and its rooms. -/
inductive Directory.Ret
  | added (id : ConnId)
  | registered
  | removed (conn : Option (ConnId × Option UserId × Finset RoomId))
  | flag (b : Bool)
  | unit

/-- What the directory says of one connection. -/
@[ext] structure Directory.Entry where
  live : Option (Option UserId)
  rooms : Finset RoomId

namespace Directory

/-- No connection. -/
def empty : Directory := ⟨∅, ∅, by simp⟩

/-- The rooms of a connection. -/
def roomsOf (d : Directory) (c : ConnId) : Finset RoomId :=
  (d.member.filter fun p => p.1 = c).image Prod.snd

/-- The members of a room. -/
def membersOf (d : Directory) (r : RoomId) : Finset ConnId :=
  (d.member.filter fun p => p.2 = r).image Prod.fst

/-- A connection becomes live, in no room. -/
def add (d : Directory) (id : ConnId) (userId : Option UserId) : Directory where
  live := d.live.insert id userId
  member := d.member
  live_of_mem p hp := Finmap.mem_insert.2 (Or.inr (d.live_of_mem p hp))

/-- One pair is added, if the connection is live and the pair is new. -/
def join (d : Directory) (c : ConnId) (r : RoomId) : Directory × Bool :=
  if h : c ∈ d.live ∧ (c, r) ∉ d.member then
    (⟨d.live, insert (c, r) d.member, fun p hp =>
      (Finset.mem_insert.1 hp).elim (fun he => he ▸ h.1) (d.live_of_mem p)⟩, true)
  else (d, false)

/-- One pair is deleted, if it is there. -/
def leave (d : Directory) (c : ConnId) (r : RoomId) : Directory × Bool :=
  if (c, r) ∈ d.member then
    (⟨d.live, d.member.erase (c, r), fun p hp =>
      d.live_of_mem p (Finset.mem_of_mem_erase hp)⟩, true)
  else (d, false)

/-- A connection and all its pairs are deleted. -/
def remove (d : Directory) (c : ConnId) :
    Directory × Option (ConnId × Option UserId × Finset RoomId) :=
  (⟨d.live.erase c, d.member.filter fun p => p.1 ≠ c, fun p hp =>
      Finmap.mem_erase.2 ⟨(Finset.mem_filter.1 hp).2, d.live_of_mem p (Finset.mem_filter.1 hp).1⟩⟩,
    (d.live.lookup c).map fun userId => (c, userId, d.roomsOf c))

/-- The calls of the manager, on the directory. -/
def step (d : Directory) : Op χ → Directory × Ret
  | .add uuid userId _ _ => (d.add uuid userId, .added uuid)
  | .addWithId id userId _ _ => (d.add id userId, .registered)
  | .remove c => ((d.remove c).1, .removed (d.remove c).2)
  | .joinRoom c r => ((d.join c r).1, .flag (d.join c r).2)
  | .leaveRoom c r => ((d.leave c r).1, .flag (d.leave c r).2)
  | .touch _ _ => (d, .unit)

/-- The directory under the calls of the manager. -/
def machine (χ : Type*) : Machine Directory (Op χ) Ret := ⟨step⟩

/-- What the directory holds about `c`. -/
def entry (d : Directory) (c : ConnId) : Entry := ⟨d.live.lookup c, d.roomsOf c⟩

/-- The rooms of a connection are those it is a member of. -/
@[simp] theorem mem_roomsOf {d : Directory} {c : ConnId} {r : RoomId} :
    r ∈ d.roomsOf c ↔ (c, r) ∈ d.member := by
  simp [roomsOf]

/-- The members of a room are the connections that are in it. -/
@[simp] theorem mem_membersOf {d : Directory} {c : ConnId} {r : RoomId} :
    c ∈ d.membersOf r ↔ (c, r) ∈ d.member := by
  simp [membersOf]

namespace Entry

def add (e : Entry) (userId : Option UserId) : Entry := { e with live := some userId }

def join (e : Entry) (r : RoomId) : Entry × Bool :=
  if e.live.isSome ∧ r ∉ e.rooms then ({ e with rooms := insert r e.rooms }, true) else (e, false)

def leave (e : Entry) (r : RoomId) : Entry × Bool :=
  if r ∈ e.rooms then ({ e with rooms := e.rooms.erase r }, true) else (e, false)

/-- What a call does to the entry of the connection it is about. -/
def step (e : Entry) : Op χ → Entry × Ret
  | .add uuid userId _ _ => (e.add userId, .added uuid)
  | .addWithId _ userId _ _ => (e.add userId, .registered)
  | .remove c => (⟨none, ∅⟩, .removed (e.live.map fun userId => (c, userId, e.rooms)))
  | .joinRoom _ r => ((e.join r).1, .flag (e.join r).2)
  | .leaveRoom _ r => ((e.leave r).1, .flag (e.leave r).2)
  | .touch _ _ => (e, .unit)

end Entry

/-- What a registration does to every entry. -/
theorem entry_add (d : Directory) (id : ConnId) (userId : Option UserId) (c : ConnId) :
    (d.add id userId).entry c = if c = id then (d.entry c).add userId else d.entry c := by
  split_ifs with h
  · subst h
    exact Entry.ext (Finmap.lookup_insert _) rfl
  · exact Entry.ext (Finmap.lookup_insert_of_ne _ h) rfl

/-- What a join does to every entry, and what it returns. -/
theorem entry_join (d : Directory) (c₀ : ConnId) (r : RoomId) (c : ConnId) :
    (d.join c₀ r).1.entry c = (if c = c₀ then ((d.entry c).join r).1 else d.entry c) ∧
      (d.join c₀ r).2 = ((d.entry c₀).join r).2 := by
  have hcond : ((d.entry c₀).live.isSome ∧ r ∉ (d.entry c₀).rooms) ↔
      (c₀ ∈ d.live ∧ (c₀, r) ∉ d.member) := by
    simp only [entry, mem_roomsOf, Finmap.lookup_isSome]
  unfold join Entry.join
  rcases eq_or_ne c c₀ with rfl | hc
  · rw [if_pos rfl]
    by_cases h : c ∈ d.live ∧ (c, r) ∉ d.member
    · rw [dif_pos h, if_pos (hcond.2 h)]
      refine ⟨Entry.ext rfl (Finset.ext fun r' => ?_), rfl⟩
      simp [entry]
    · rw [dif_neg h, if_neg (mt hcond.1 h)]
      exact ⟨rfl, rfl⟩
  · rw [if_neg hc]
    by_cases h : c₀ ∈ d.live ∧ (c₀, r) ∉ d.member
    · rw [dif_pos h, if_pos (hcond.2 h)]
      refine ⟨Entry.ext rfl (Finset.ext fun r' => ?_), rfl⟩
      simp [entry, hc]
    · rw [dif_neg h, if_neg (mt hcond.1 h)]
      exact ⟨rfl, rfl⟩

/-- What a leave does to every entry, and what it returns. -/
theorem entry_leave (d : Directory) (c₀ : ConnId) (r : RoomId) (c : ConnId) :
    (d.leave c₀ r).1.entry c = (if c = c₀ then ((d.entry c).leave r).1 else d.entry c) ∧
      (d.leave c₀ r).2 = ((d.entry c₀).leave r).2 := by
  have hcond : r ∈ (d.entry c₀).rooms ↔ (c₀, r) ∈ d.member := mem_roomsOf
  unfold leave Entry.leave
  rcases eq_or_ne c c₀ with rfl | hc
  · rw [if_pos rfl]
    by_cases h : (c, r) ∈ d.member
    · rw [if_pos h, if_pos (hcond.2 h)]
      refine ⟨Entry.ext rfl (Finset.ext fun r' => ?_), rfl⟩
      simp [entry]
    · rw [if_neg h, if_neg (mt hcond.1 h)]
      exact ⟨rfl, rfl⟩
  · rw [if_neg hc]
    by_cases h : (c₀, r) ∈ d.member
    · rw [if_pos h, if_pos (hcond.2 h)]
      refine ⟨Entry.ext rfl (Finset.ext fun r' => ?_), rfl⟩
      simp [entry, hc]
    · rw [if_neg h, if_neg (mt hcond.1 h)]
      exact ⟨rfl, rfl⟩

/-- What a removal does to every entry. -/
theorem entry_remove (d : Directory) (c₀ c : ConnId) :
    (d.remove c₀).1.entry c = if c = c₀ then ⟨none, ∅⟩ else d.entry c := by
  split_ifs with h
  · subst h
    refine Entry.ext (Finmap.lookup_erase _ _) (Finset.ext fun r => ?_)
    simp [entry, remove]
  · refine Entry.ext (Finmap.lookup_erase_ne h) (Finset.ext fun r => ?_)
    simp [entry, remove, h]

/-- The directory as a family of entries. -/
def slicing (χ : Type*) : Slicing (machine χ) (Op χ) ConnId Entry where
  label := id
  key := Op.conn
  view := entry
  slice := ⟨Entry.step⟩
  view_step d op c := by
    cases op with
    | add uuid userId tx now => exact d.entry_add uuid userId c
    | addWithId i userId tx now => exact d.entry_add i userId c
    | remove c₀ => exact d.entry_remove c₀ c
    | joinRoom c₀ r => exact (d.entry_join c₀ r c).1
    | leaveRoom c₀ r => exact (d.entry_leave c₀ r c).1
    | touch c₀ now => exact (ite_self _).symm
  answer_step d op := by
    cases op with
    | joinRoom c₀ r => exact congrArg Ret.flag (d.entry_join c₀ r c₀).2
    | leaveRoom c₀ r => exact congrArg Ret.flag (d.entry_leave c₀ r c₀).2
    | _ => rfl

end Directory
end Denshin
