/-
# Containers in shards

A concurrent hash map or hash set divides its keys among shards, with a lock for
each.  An operation on one key is atomic.  One that goes through the whole
container, to count it or to list it, reads the shards one after the other, and
other operations come in between: what it returns need not be what the
container held at any time.

`Shards.slice` is what one shard holds and `Shards.rest` what a count that has
come to a shard has still to read.  `Shards.scan` lists a container shard by
shard while other calls are made: every key is reported as it was when its shard
was read (`Shards.mem_scan`), so what does not change meanwhile is reported as
it is, and a key is reported at most once (`Shards.nodup_scan`).  `Shards.tally`
adds up the sizes of the shards likewise, and is the number of keys that a scan
lists (`Shards.exists_card_eq_tally`).
-/

import Denshin.Basis.Machine
import Mathlib.Data.Finset.Card
import Mathlib.Data.List.Nodup

namespace Basis

universe u v

/-- How keys are divided among shards. -/
structure Shards (κ : Type u) where
  count : ℕ
  of : κ → ℕ
  of_lt : ∀ k, of k < count

namespace Shards

/-- Names of even and of odd length, in two shards. -/
def byLength : Shards String :=
  ⟨2, fun k => k.length % 2, fun k => Nat.mod_lt k.length Nat.two_pos⟩

variable {κ : Type u} (S : Shards κ)

/-- There is a shard, if there is a key. -/
theorem count_pos [Nonempty κ] : 0 < S.count := by
  obtain ⟨k⟩ := ‹Nonempty κ›
  exact (Nat.zero_le _).trans_lt (S.of_lt k)

/-! ### Counting -/

/-- The keys that shard `i` holds. -/
def slice (s : Finset κ) (i : ℕ) : Finset κ := s.filter fun k => S.of k = i

/-- The keys that the shards from `i` on hold. -/
def rest (s : Finset κ) (i : ℕ) : Finset κ := s.filter fun k => i ≤ S.of k

variable {S} in
/-- A shard holds the keys that belong to it. -/
theorem mem_slice {s : Finset κ} {i : ℕ} {k : κ} : k ∈ S.slice s i ↔ k ∈ s ∧ S.of k = i :=
  Finset.mem_filter

/-- At first everything is left to read. -/
@[simp] theorem rest_zero (s : Finset κ) : S.rest s 0 = s :=
  Finset.filter_true_of_mem fun k _ => Nat.zero_le (S.of k)

/-- After the last shard nothing is left. -/
theorem rest_of_count_le (s : Finset κ) {i : ℕ} (h : S.count ≤ i) : S.rest s i = ∅ := by
  refine Finset.filter_eq_empty_iff.2 fun k _ => ?_
  have hk := S.of_lt k
  omega

/-- **Reading a shard** takes its keys off what is left. -/
theorem card_rest (s : Finset κ) (i : ℕ) :
    (S.rest s i).card = (S.slice s i).card + (S.rest s (i + 1)).card := by
  classical
  have hunion : S.rest s i = S.slice s i ∪ S.rest s (i + 1) := by
    unfold rest slice
    rw [← Finset.filter_or]
    refine Finset.filter_congr fun k _ => ?_
    omega
  have hdisj : Disjoint (S.slice s i) (S.rest s (i + 1)) := by
    refine Finset.disjoint_filter.2 fun k _ hk => ?_
    omega
  rw [hunion, Finset.card_union_of_disjoint hdisj]

/-- More keys leave more to read. -/
theorem rest_mono {s t : Finset κ} (h : s ⊆ t) (i : ℕ) : S.rest s i ⊆ S.rest t i :=
  Finset.filter_subset_filter _ h

/-- When keys go, no more go of those left to read. -/
theorem card_rest_of_subset {s t : Finset κ} (h : s ⊆ t) (i : ℕ) :
    (S.rest t i).card + s.card ≤ (S.rest s i).card + t.card := by
  classical
  have hsplit (r : Finset κ) : r.card = (S.rest r i).card + (r.filter fun k => ¬ i ≤ S.of k).card :=
    (Finset.card_filter_add_card_filter_not fun k => i ≤ S.of k).symm
  have hread : (s.filter fun k => ¬ i ≤ S.of k).card ≤ (t.filter fun k => ¬ i ≤ S.of k).card :=
    Finset.card_le_card (Finset.filter_subset_filter _ h)
  have hs := hsplit s
  have ht := hsplit t
  omega

/-! ### Listing -/

/-- Looking keys up lists no key that is not there. -/
theorem map_filterMap_sublist {β : Type v} {f : κ → Option β} {key : β → κ}
    (h : ∀ k b, f k = some b → key b = k) (l : List κ) : ((l.filterMap f).map key).Sublist l := by
  induction l with
  | nil => exact List.nil_sublist _
  | cons k l ih =>
    rcases hf : f k with _ | b
    · rw [List.filterMap_cons_none hf]
      exact ih.cons k
    · rw [List.filterMap_cons_some hf, List.map_cons, h k b hf]
      exact ih.cons_cons k

section Scan

variable {σ α ρ β : Type*} (M : Machine σ α ρ) (read : σ → ℕ → List β)

/-- The shards from `i` on are read in turn, each after the calls of one gap. -/
def scan : σ → ℕ → List (List α) → List β
  | _, _, [] => []
  | s, i, gap :: gaps => read (M.run s gap) i ++ scan (M.run s gap) (i + 1) gaps

/-- Their sizes are added up, likewise. -/
def tally (size : σ → ℕ → ℕ) : σ → ℕ → List (List α) → ℕ
  | _, _, [] => 0
  | s, i, gap :: gaps => size (M.run s gap) i + tally size (M.run s gap) (i + 1) gaps

/-- The calls made before shard `i` is read. -/
def before (gaps : List (List α)) (i : ℕ) : List α := (gaps.take (i + 1)).flatten

variable {M read}

/-- What comes before a shard, from the gap before the first one. -/
theorem run_before_succ (s : σ) (gap : List α) (gaps : List (List α)) (i : ℕ) :
    M.run s (before (gap :: gaps) (i + 1)) = M.run (M.run s gap) (before gaps i) := by
  rw [← M.run_append]
  rfl

/-- What a scan lists from a shard on, shard by shard. -/
theorem mem_scan_from {s : σ} {i : ℕ} {gaps : List (List α)} {b : β} :
    b ∈ scan M read s i gaps ↔
      ∃ j < gaps.length, b ∈ read (M.run s (before gaps j)) (i + j) := by
  induction gaps generalizing s i with
  | nil => simp [scan]
  | cons gap gaps ih =>
    have hnext (j : ℕ) : i + (j + 1) = i + 1 + j := by omega
    rw [scan, List.mem_append, ih]
    constructor
    · rintro (hb | ⟨j, hj, hb⟩)
      · exact ⟨0, Nat.succ_pos _, by simpa [before] using hb⟩
      · refine ⟨j + 1, Nat.succ_lt_succ hj, ?_⟩
        rwa [run_before_succ, hnext]
    · rintro ⟨j, hj, hb⟩
      cases j with
      | zero => exact Or.inl (by simpa [before] using hb)
      | succ j =>
        rw [run_before_succ, hnext] at hb
        exact Or.inr ⟨j, Nat.lt_of_succ_lt_succ hj, hb⟩

variable {key : β → κ} (hkey : ∀ s i b, b ∈ read s i → S.of (key b) = i)

include hkey

/-- **What is reported of a key** is what its shard held when it was read. -/
theorem mem_scan {s : σ} {gaps : List (List α)} (hlen : gaps.length = S.count) {b : β} :
    b ∈ scan M read s 0 gaps ↔
      b ∈ read (M.run s (before gaps (S.of (key b)))) (S.of (key b)) := by
  rw [mem_scan_from]
  constructor
  · rintro ⟨j, -, hb⟩
    rw [Nat.zero_add] at hb
    rwa [hkey _ _ _ hb]
  · intro hb
    refine ⟨S.of (key b), ?_, by rwa [Nat.zero_add]⟩
    rw [hlen]
    exact S.of_lt (key b)

/-- **A key is reported once**, at most. -/
theorem nodup_scan (hnodup : ∀ s i, ((read s i).map key).Nodup) {s : σ} {i : ℕ}
    {gaps : List (List α)} : ((scan M read s i gaps).map key).Nodup := by
  induction gaps generalizing s i with
  | nil => exact List.nodup_nil
  | cons gap gaps ih =>
    rw [scan, List.map_append]
    refine List.nodup_append'.2 ⟨hnodup _ _, ih, fun k hk hk' => ?_⟩
    obtain ⟨b, hb, rfl⟩ := List.mem_map.1 hk
    obtain ⟨b', hb', he⟩ := List.mem_map.1 hk'
    obtain ⟨j, -, hb'⟩ := mem_scan_from.1 hb'
    have hi := hkey _ _ _ hb
    have hi' := hkey _ _ _ hb'
    rw [he] at hi'
    omega

omit hkey in
/-- Adding up the sizes of listings is the length of the scan. -/
theorem tally_eq_length {size : σ → ℕ → ℕ} (h : ∀ s i, size s i = (read s i).length) {s : σ} {i : ℕ}
    {gaps : List (List α)} : tally M size s i gaps = (scan M read s i gaps).length := by
  induction gaps generalizing s i with
  | nil => rfl
  | cons gap gaps ih => rw [tally, scan, List.length_append, h, ih]

end Scan

section Keys

variable {σ α ρ : Type*} {M : Machine σ α ρ}

/-- A listing of keys lists every key as its shard has it when it is read, and
none twice. -/
theorem scan_keys {read : σ → ℕ → List κ} (hof : ∀ s i k, k ∈ read s i → S.of k = i)
    (hnodup : ∀ s i, (read s i).Nodup) (s : σ) {gaps : List (List α)}
    (hlen : gaps.length = S.count) :
    (scan M read s 0 gaps).Nodup ∧ ∀ k, k ∈ scan M read s 0 gaps ↔
      k ∈ read (M.run s (before gaps (S.of k))) (S.of k) := by
  constructor
  · have hmap : ((scan M read s 0 gaps).map fun k => k).Nodup :=
      S.nodup_scan hof fun s i => by
        rw [List.map_id']
        exact hnodup s i
    rwa [List.map_id'] at hmap
  · exact fun k => S.mem_scan hof hlen

/-- **A count is of the keys** that were there when their shard was read. -/
theorem exists_card_eq_tally [DecidableEq κ] {held : σ → ℕ → Finset κ}
    (hof : ∀ s i k, k ∈ held s i → S.of k = i) (s : σ) {gaps : List (List α)}
    (hlen : gaps.length = S.count) :
    ∃ ks : Finset κ, ks.card = tally M (fun s i => (held s i).card) s 0 gaps ∧
      ∀ k, k ∈ ks ↔ k ∈ held (M.run s (before gaps (S.of k))) (S.of k) := by
  obtain ⟨hnodup, hmem⟩ := S.scan_keys (M := M)
    (fun s i k hk => hof s i k (Finset.mem_toList.1 hk)) (fun s i => (held s i).nodup_toList) s hlen
  refine ⟨(scan M (fun s i => (held s i).toList) s 0 gaps).toFinset, ?_, fun k => ?_⟩
  · rw [List.toFinset_card_of_nodup hnodup]
    exact (tally_eq_length fun s i => (Finset.length_toList _).symm).symm
  · rw [List.mem_toFinset, hmem, Finset.mem_toList]

end Keys

/-- The calls before a shard are the first of all. -/
theorem before_prefix {α : Type*} (gaps : List (List α)) (i : ℕ) :
    before gaps i <+: gaps.flatten := by
  refine ⟨(gaps.drop (i + 1)).flatten, ?_⟩
  rw [before, ← List.flatten_append, List.take_append_drop]

/-- Without other calls, none comes before a shard. -/
theorem before_idle {α : Type*} (n i : ℕ) : before (List.replicate n ([] : List α)) i = [] := by
  rw [before, List.take_replicate, List.flatten_replicate_nil]

end Shards
end Basis
