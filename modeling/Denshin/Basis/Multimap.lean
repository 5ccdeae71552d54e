/-
# Set-valued hash maps

A map from keys to sets, kept as an inverted index: `link` creates the entry of
a key on first use (`entry(k).or_default().insert(v)`), and `unlink` deletes an
entry whose set has become empty.  What such a map means is the relation
`v ∈ m.get k`, read by key (`get`) or by value (`keysOf`); the lemmas below say
what each operation does to the two readings.  A map without empty entries
(`Tight`) is determined by either of them (`Tight.ext`, `Tight.ext_keysOf`), so
equal relations are equal maps whatever the order of the operations was.  What
becomes of the entries themselves is said by the `lookup_*` lemmas.
-/

import Mathlib.Data.Finmap
import Mathlib.Data.Finset.SDiff

namespace Basis

universe u v

/-! ### A hash map read as a function -/

section Lookup

variable {κ : Type u} {ν : Type v} [DecidableEq κ]

/-- Lookup after `erase`, as a function of the key. -/
theorem lookup_erase_eq (s : Finmap fun _ : κ => ν) (k : κ) :
    (fun k' => (s.erase k).lookup k') = Function.update (fun k' => s.lookup k') k none := by
  funext k'
  rw [Function.update_apply]
  split_ifs with h
  · rw [h, Finmap.lookup_erase]
  · exact Finmap.lookup_erase_ne h

/-- Lookup after `insert`, as a function of the key. -/
theorem lookup_insert_eq (s : Finmap fun _ : κ => ν) (k : κ) (v : ν) :
    (fun k' => (s.insert k v).lookup k') = Function.update (fun k' => s.lookup k') k (some v) := by
  funext k'
  rw [Function.update_apply]
  split_ifs with h
  · rw [h, Finmap.lookup_insert]
  · exact Finmap.lookup_insert_of_ne _ h

/-- Erasing a key that is not there changes nothing. -/
theorem erase_of_lookup_none {s : Finmap fun _ : κ => ν} {k : κ} (h : s.lookup k = none) :
    s.erase k = s := by
  have he := lookup_erase_eq s k
  rw [← h, Function.update_eq_self] at he
  exact Finmap.ext_lookup (congrFun he)

end Lookup

/-- A hash map whose values are hash sets. -/
abbrev Multimap (κ : Type u) (ν : Type v) := Finmap fun _ : κ => Finset ν

namespace Multimap

variable {κ : Type u} {ν : Type v} [DecidableEq κ]

/-- The set under a key, empty when the key is absent. -/
def get (m : Multimap κ ν) (k : κ) : Finset ν := (m.lookup k).getD ∅

/-- No key is mapped to the empty set. -/
def Tight (m : Multimap κ ν) : Prop := ∀ k, m.lookup k ≠ some ∅

/-- The values of a key that is there. -/
theorem get_of_lookup {m : Multimap κ ν} {k : κ} {s : Finset ν} (h : m.lookup k = some s) :
    m.get k = s := by
  rw [get, h, Option.getD_some]

/-- A key that is not there has no values. -/
theorem get_of_lookup_none {m : Multimap κ ν} {k : κ} (h : m.lookup k = none) : m.get k = ∅ := by
  rw [get, h, Option.getD_none]

/-- A key with a value has an entry, and the value is in it. -/
theorem exists_of_mem_get {m : Multimap κ ν} {k : κ} {v : ν} (h : v ∈ m.get k) :
    ∃ s, m.lookup k = some s ∧ v ∈ s := by
  cases hk : m.lookup k with
  | none =>
    rw [get_of_lookup_none hk] at h
    exact absurd h (Finset.notMem_empty v)
  | some s =>
    rw [get_of_lookup hk] at h
    exact ⟨s, rfl, h⟩

/-- The empty multimap has no values. -/
@[simp] theorem get_empty (k : κ) : get (∅ : Multimap κ ν) k = ∅ :=
  get_of_lookup_none (Finmap.lookup_empty k)

/-- The empty multimap has no key without values. -/
theorem tight_empty : Tight (∅ : Multimap κ ν) := fun k => by simp

variable [DecidableEq ν]

/-- `m.entry(k).or_default().insert(v)`. -/
def link (m : Multimap κ ν) (k : κ) (v : ν) : Multimap κ ν :=
  m.insert k (insert v ((m.lookup k).getD ∅))

/-- `if let Some(s) = m.get_mut(k) { s.remove(v); if s.is_empty() { m.remove(k); } }`. -/
def unlink (m : Multimap κ ν) (k : κ) (v : ν) : Multimap κ ν :=
  match m.lookup k with
  | none => m
  | some s => if s.erase v = ∅ then m.erase k else m.insert k (s.erase v)

/-- `unlink` of one value under each key of a list, in its order. -/
def unlinkAll (m : Multimap κ ν) (ks : List κ) (v : ν) : Multimap κ ν :=
  ks.foldl (fun m k => m.unlink k v) m

/-- What is left of an entry without a value: a set, or no entry when it would be empty. -/
def without (s : Finset ν) (v : ν) : Option (Finset ν) :=
  if s.erase v = ∅ then none else some (s.erase v)

/-- The keys a value stands under. -/
def keysOf (m : Multimap κ ν) (v : ν) : Finset κ := m.keys.filter fun k => v ∈ m.get k

/-! ### What the operations do to the entries -/

/-- What `link` does to every key. -/
theorem lookup_link (m : Multimap κ ν) (k k' : κ) (v : ν) :
    (m.link k v).lookup k' = if k' = k then some (insert v (m.get k)) else m.lookup k' := by
  unfold link
  split_ifs with h
  · rw [h, Finmap.lookup_insert, get]
  · exact Finmap.lookup_insert_of_ne _ h

/-- What `unlink` does to every key. -/
theorem lookup_unlink (m : Multimap κ ν) (k k' : κ) (v : ν) : (m.unlink k v).lookup k' =
    if k' = k then (m.lookup k).bind fun s => without s v else m.lookup k' := by
  unfold unlink without
  cases hk : m.lookup k with
  | none =>
    split_ifs with h
    · rw [h, hk, Option.bind_none]
    · rfl
  | some s =>
    show (if s.erase v = ∅ then m.erase k else m.insert k (s.erase v)).lookup k' =
      if k' = k then (if s.erase v = ∅ then none else some (s.erase v)) else m.lookup k'
    by_cases hs : s.erase v = ∅
    · rw [if_pos hs, if_pos hs]
      split_ifs with h
      · rw [h, Finmap.lookup_erase]
      · exact Finmap.lookup_erase_ne h
    · rw [if_neg hs, if_neg hs]
      split_ifs with h
      · rw [h, Finmap.lookup_insert]
      · exact Finmap.lookup_insert_of_ne _ h

/-- Taking a value out a second time changes nothing. -/
theorem bind_without_without (o : Option (Finset ν)) (v : ν) :
    ((o.bind fun s => without s v).bind fun s => without s v) = o.bind fun s => without s v := by
  cases o with
  | none => rfl
  | some s =>
    show (without s v).bind _ = without s v
    unfold without
    split_ifs with hs
    · rfl
    · rw [Option.bind_some, Finset.erase_idem, if_neg hs]

/-- A key whose last value goes, goes with it. -/
theorem without_ne_some_empty (s : Finset ν) (v : ν) : without s v ≠ some ∅ := by
  unfold without
  split_ifs with hs
  · exact (Option.some_ne_none _).symm
  · rw [Ne, Option.some_inj]
    exact hs

/-- Neither the order of the keys nor their number of occurrences matters. -/
theorem lookup_unlinkAll (m : Multimap κ ν) (ks : List κ) (k : κ) (v : ν) :
    (m.unlinkAll ks v).lookup k =
      if k ∈ ks then (m.lookup k).bind fun s => without s v else m.lookup k := by
  induction ks generalizing m with
  | nil => simp [unlinkAll]
  | cons k₀ ks ih =>
    have h := ih (m.unlink k₀ v)
    rw [lookup_unlink] at h
    rw [unlinkAll, List.foldl_cons, ← unlinkAll, h]
    by_cases hk : k = k₀
    · subst hk
      by_cases hks : k ∈ ks <;> simp [hks, bind_without_without]
    · by_cases hks : k ∈ ks <;> simp [hk, hks]

/-! ### What they do to the sets -/

/-- An entry that was dropped reads as the empty set. -/
theorem getD_bind_without (o : Option (Finset ν)) (v : ν) :
    (o.bind fun s => without s v).getD ∅ = (o.getD ∅).erase v := by
  cases o with
  | none => rfl
  | some s =>
    show (without s v).getD ∅ = s.erase v
    unfold without
    split_ifs with hs
    · exact hs.symm
    · rfl

/-- The values of every key after `link`. -/
theorem get_link (m : Multimap κ ν) (k k' : κ) (v : ν) :
    (m.link k v).get k' = if k' = k then insert v (m.get k) else m.get k' := by
  rw [get, lookup_link]
  split_ifs <;> rfl

/-- The values of every key after `unlink`. -/
theorem get_unlink (m : Multimap κ ν) (k k' : κ) (v : ν) :
    (m.unlink k v).get k' = if k' = k then (m.get k).erase v else m.get k' := by
  rw [get, lookup_unlink]
  split_ifs with h
  · exact getD_bind_without (m.lookup k) v
  · rfl

/-- The values of every key after `unlinkAll`. -/
theorem get_unlinkAll (m : Multimap κ ν) (ks : List κ) (k : κ) (v : ν) :
    (m.unlinkAll ks v).get k = if k ∈ ks then (m.get k).erase v else m.get k := by
  rw [get, lookup_unlinkAll]
  split_ifs with h
  · exact getD_bind_without (m.lookup k) v
  · rfl

/-! ### What they do to the keys of a value -/

/-- The keys of a value are those it is a value of. -/
@[simp] theorem mem_keysOf {m : Multimap κ ν} {k : κ} {v : ν} : k ∈ m.keysOf v ↔ v ∈ m.get k := by
  rw [keysOf, Finset.mem_filter, and_iff_right_iff_imp, Finmap.mem_keys]
  intro h
  by_contra hk
  rw [get_of_lookup_none (Finmap.lookup_eq_none.2 hk)] at h
  exact Finset.notMem_empty v h

/-- The keys of every value after `link`. -/
theorem keysOf_link (m : Multimap κ ν) (k : κ) (v w : ν) :
    (m.link k v).keysOf w = if w = v then insert k (m.keysOf v) else m.keysOf w := by
  ext k'
  rw [mem_keysOf, get_link]
  by_cases hw : w = v <;> by_cases hk : k' = k <;> simp [hw, hk]

/-- The keys of every value after `unlink`. -/
theorem keysOf_unlink (m : Multimap κ ν) (k : κ) (v w : ν) :
    (m.unlink k v).keysOf w = if w = v then (m.keysOf v).erase k else m.keysOf w := by
  ext k'
  rw [mem_keysOf, get_unlink]
  by_cases hw : w = v <;> by_cases hk : k' = k <;> simp [hw, hk]

/-- **Unlinking a value from all of the keys given** takes these from its keys,
in whatever order they come. -/
theorem keysOf_unlinkAll (m : Multimap κ ν) (ks : List κ) (v w : ν) :
    (m.unlinkAll ks v).keysOf w = if w = v then m.keysOf v \ ks.toFinset else m.keysOf w := by
  ext k
  rw [mem_keysOf, get_unlinkAll]
  by_cases hw : w = v <;> by_cases hk : k ∈ ks <;> simp [hw, hk]

/-! ### Maps without empty entries -/

/-- `link` leaves no key without values. -/
theorem Tight.link {m : Multimap κ ν} (h : m.Tight) (k : κ) (v : ν) : (m.link k v).Tight := by
  intro k'
  rw [lookup_link]
  split_ifs with hk
  · rw [Ne, Option.some_inj]
    exact Finset.insert_ne_empty _ _
  · exact h k'

/-- `unlink` leaves no key without values. -/
theorem Tight.unlink {m : Multimap κ ν} (h : m.Tight) (k : κ) (v : ν) : (m.unlink k v).Tight := by
  intro k' he
  rw [lookup_unlink] at he
  split_ifs at he with hk
  · obtain ⟨s, -, hs⟩ := Option.bind_eq_some_iff.1 he
    exact without_ne_some_empty s v hs
  · exact h k' he

/-- Nor does `unlinkAll`. -/
theorem Tight.unlinkAll {m : Multimap κ ν} (h : m.Tight) (ks : List κ) (v : ν) :
    (m.unlinkAll ks v).Tight := by
  induction ks generalizing m with
  | nil => exact h
  | cons k ks ih => exact ih (h.unlink k v)

/-- In a tight map an entry is absent exactly when its set is empty. -/
theorem Tight.lookup_eq {m : Multimap κ ν} (h : m.Tight) (k : κ) :
    m.lookup k = if m.get k = ∅ then none else some (m.get k) := by
  cases hk : m.lookup k with
  | none => rw [get_of_lookup_none hk, if_pos rfl]
  | some s =>
    have hs : s ≠ ∅ := fun he => h k (by rw [hk, he])
    rw [get_of_lookup hk, if_neg hs]

/-- **A tight map is its relation, read by key.** -/
theorem Tight.ext {m m' : Multimap κ ν} (h : m.Tight) (h' : m'.Tight)
    (hget : ∀ k, m.get k = m'.get k) : m = m' :=
  Finmap.ext_lookup fun k => by rw [h.lookup_eq, h'.lookup_eq, hget]

/-- **A tight map is its relation, read by value.** -/
theorem Tight.ext_keysOf {m m' : Multimap κ ν} (h : m.Tight) (h' : m'.Tight)
    (hkeys : ∀ v, m.keysOf v = m'.keysOf v) : m = m' :=
  h.ext h' fun k => Finset.ext fun v => by rw [← mem_keysOf, hkeys, mem_keysOf]

end Multimap
end Basis
