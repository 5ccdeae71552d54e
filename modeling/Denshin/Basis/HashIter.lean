/-
# Iteration orders of hash containers

A hash map or hash set iterates its elements in an order it does not promise:
every element once, in some order that may depend on the seed and on the past
of the container.  `HashIter` is one such order, for every finite set at once.
A program that iterates takes a `HashIter` as an argument, and a theorem about
it quantifies over all of them.
-/

import Mathlib.Data.Finmap
import Mathlib.Data.List.Sort
import Mathlib.Data.String.Basic

namespace Basis

universe u v

/-- A choice of iteration order: a listing of every finite set, each element
once. -/
structure HashIter (α : Type u) where
  order : Finset α → List α
  order_coe : ∀ s, (order s : Multiset α) = s.val

namespace HashIter

variable {α : Type u} {β : Type v}

/-- The elements visited are those of the set. -/
@[simp] theorem mem_order (it : HashIter α) {s : Finset α} {a : α} : a ∈ it.order s ↔ a ∈ s := by
  rw [← Multiset.mem_coe, it.order_coe, Finset.mem_val]

/-- No element is visited twice. -/
theorem nodup_order (it : HashIter α) (s : Finset α) : (it.order s).Nodup := by
  rw [← Multiset.coe_nodup, it.order_coe]
  exact s.nodup

/-- Every element is listed once. -/
@[simp] theorem length_order (it : HashIter α) (s : Finset α) : (it.order s).length = s.card := by
  rw [← Multiset.coe_card, it.order_coe, Finset.card_val]

/-- Nothing is listed of the empty set. -/
@[simp] theorem order_empty (it : HashIter α) : it.order ∅ = [] := by
  rw [← List.length_eq_zero_iff, it.length_order, Finset.card_empty]

/-- Any two orders visit the same. -/
theorem order_perm (it it' : HashIter α) (s : Finset α) : (it.order s).Perm (it'.order s) :=
  Multiset.coe_eq_coe.1 ((it.order_coe s).trans (it'.order_coe s).symm)

/-- The order that lists a set increasingly. -/
def sorted [LinearOrder α] : HashIter α where
  order s := Quot.liftOn s.1 (List.insertionSort (· ≤ ·)) fun l₁ l₂ h =>
    List.Perm.eq_of_pairwise' (r := (· ≤ ·)) (List.pairwise_insertionSort _ _)
      (List.pairwise_insertionSort _ _)
      (((List.perm_insertionSort _ l₁).trans h).trans (List.perm_insertionSort _ l₂).symm)
  order_coe s := by
    obtain ⟨⟨l⟩, hl⟩ := s
    exact Quot.sound (List.perm_insertionSort _ l)

instance [LinearOrder α] : Inhabited (HashIter α) := ⟨sorted⟩

variable [DecidableEq α]

/-- `HashMap::iter`: the entries of a map in the order of its keys. -/
def entries (it : HashIter α) (m : Finmap fun _ : α => β) : List (α × β) :=
  (it.order m.keys).filterMap fun a => (m.lookup a).map fun b => (a, b)

/-- `HashMap::keys`. -/
def keys (it : HashIter α) (m : Finmap fun _ : α => β) : List α := (it.entries m).map Prod.fst

/-- `HashMap::values`. -/
def values (it : HashIter α) (m : Finmap fun _ : α => β) : List β := (it.entries m).map Prod.snd

/-- The entries of a map are listed. -/
@[simp] theorem mem_entries (it : HashIter α) {m : Finmap fun _ : α => β} {a : α} {b : β} :
    (a, b) ∈ it.entries m ↔ m.lookup a = some b := by
  rw [entries, List.mem_filterMap]
  constructor
  · rintro ⟨a', -, h⟩
    obtain ⟨b', hb', he⟩ := Option.map_eq_some_iff.1 h
    obtain ⟨rfl, rfl⟩ := Prod.mk.inj he
    exact hb'
  · intro h
    have ha : a ∈ it.order m.keys :=
      it.mem_order.2 (Finmap.mem_keys.2 (Finmap.mem_of_lookup_eq_some h))
    exact ⟨a, ha, by rw [h]; rfl⟩

/-- Two orders list the same entries. -/
theorem entries_perm (it it' : HashIter α) (m : Finmap fun _ : α => β) :
    (it.entries m).Perm (it'.entries m) := (it.order_perm it' m.keys).filterMap _

/-- Iterating the entries visits the keys as iterating the key set does. -/
theorem keys_eq_order (it : HashIter α) (m : Finmap fun _ : α => β) :
    it.keys m = it.order m.keys := by
  unfold keys entries
  rw [List.map_filterMap]
  conv_rhs => rw [← List.filterMap_some (l := it.order m.keys)]
  refine List.filterMap_congr fun a ha => ?_
  rw [mem_order, Finmap.mem_keys, Finmap.mem_iff] at ha
  obtain ⟨b, hb⟩ := ha
  simp [hb]

/-- The values visited are the lookups of the keys visited. -/
theorem values_eq (it : HashIter α) (m : Finmap fun _ : α => β) :
    it.values m = (it.order m.keys).filterMap m.lookup := by
  unfold values entries
  rw [List.map_filterMap]
  refine List.filterMap_congr fun a _ => ?_
  cases m.lookup a <;> rfl

/-- No key is listed twice. -/
theorem nodup_keys (it : HashIter α) (m : Finmap fun _ : α => β) : (it.keys m).Nodup :=
  it.keys_eq_order m ▸ it.nodup_order _

/-! ### The keys whose entries a loop selects -/

/-- The keys of the entries that pass a test. -/
theorem mem_keys_filter (it : HashIter α) {m : Finmap fun _ : α => β} {p : α × β → Bool} {a : α} :
    a ∈ ((it.entries m).filter p).map Prod.fst ↔ ∃ b, m.lookup a = some b ∧ p (a, b) = true := by
  rw [List.mem_map]
  constructor
  · rintro ⟨⟨a', b⟩, hf, rfl⟩
    obtain ⟨hmem, hp⟩ := List.mem_filter.1 hf
    exact ⟨b, it.mem_entries.1 hmem, hp⟩
  · rintro ⟨b, hb, hp⟩
    exact ⟨(a, b), List.mem_filter.2 ⟨it.mem_entries.2 hb, hp⟩, rfl⟩

/-- None of them is listed twice. -/
theorem nodup_keys_filter (it : HashIter α) (m : Finmap fun _ : α => β) (p : α × β → Bool) :
    (((it.entries m).filter p).map Prod.fst).Nodup :=
  (it.nodup_keys m).sublist (List.filter_sublist.map Prod.fst)

end HashIter
end Basis
