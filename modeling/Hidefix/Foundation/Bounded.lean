import Hidefix.Foundation.Lru
import Mathlib.Data.Finset.Card
import Mathlib.Data.List.Perm.Basic

/-!
# Caches of a capacity

What a cache holds: values that were put, at most one for each key, and no more of them
than its capacity.  An entry is evicted for a new one only where the cache is full, so
that after lookups that put what they miss a cache holds as many entries as it can.
-/

namespace Caching

structure BoundedCache (K V : Type) [DecidableEq K] extends LruCache K V where
  capacity : State → Nat
  held : State → List (K × V)
  capacity_new : ∀ n, capacity (new n) = n
  capacity_get : ∀ s k, capacity (get s k).2 = capacity s
  capacity_put : ∀ s k v, capacity (put s k v) = capacity s
  held_new : ∀ n, held (new n) = []
  held_get : ∀ s k, (held (get s k).2).Perm (held s)
  held_nodup : ∀ s, ((held s).map Prod.fst).Nodup
  length_held_le : ∀ s, (held s).length ≤ capacity s
  get_none : ∀ s k, (get s k).1 = none → k ∉ (held s).map Prod.fst
  get_some : ∀ s k v, (get s k).1 = some v → (k, v) ∈ held s
  mem_put : ∀ s k v, ∀ p ∈ held (put s k v), p = (k, v) ∨ p ∈ held s
  le_length_put : ∀ s k v, k ∉ (held s).map Prod.fst →
    min (capacity s) ((held s).length + 1) ≤ (held (put s k v)).length

namespace BoundedCache

variable {K V : Type} [DecidableEq K] {B : BoundedCache K V} {Q : V → Prop}
  {capacity : Nat} {seen : Finset K} {s : B.State} {k : K} {v : V}

theorem length_put (hk : k ∉ (B.held s).map Prod.fst) (v : V) :
    (B.held (B.put s k v)).length = min (B.capacity s) ((B.held s).length + 1) := by
  have hle : (B.held (B.put s k v)).length ≤ B.capacity s :=
    B.capacity_put s k v ▸ B.length_held_le (B.put s k v)
  have hsub : B.held (B.put s k v) ⊆ (k, v) :: B.held s := by
    intro p hp
    exact List.mem_cons.mpr (B.mem_put s k v p hp)
  have hsucc := (List.subperm_of_subset (B.held_nodup _).of_map hsub).length_le
  rw [List.length_cons] at hsucc
  have hge := B.le_length_put s k v hk
  omega

/-- The keys of `seen` have been looked up, and a missing value was put each time. -/
structure Filled (B : BoundedCache K V) (Q : V → Prop) (capacity : Nat)
    (seen : Finset K) (s : B.State) : Prop where
  capacity_eq : B.capacity s = capacity
  value : ∀ p ∈ B.held s, Q p.2
  key_mem : ∀ p ∈ B.held s, p.1 ∈ seen
  length_eq : (B.held s).length = min capacity seen.card

theorem filled_new (n : Nat) : B.Filled Q n ∅ (B.new n) where
  capacity_eq := B.capacity_new n
  value := by simp [B.held_new]
  key_mem := by simp [B.held_new]
  length_eq := by simp [B.held_new]

namespace Filled

theorem get (h : B.Filled Q capacity seen s) (k : K) :
    B.Filled Q capacity seen (B.get s k).2 where
  capacity_eq := (B.capacity_get s k).trans h.capacity_eq
  value p hp := h.value p ((B.held_get s k).mem_iff.mp hp)
  key_mem p hp := h.key_mem p ((B.held_get s k).mem_iff.mp hp)
  length_eq := (B.held_get s k).length_eq.trans h.length_eq

theorem hit (h : B.Filled Q capacity seen s) (hget : (B.get s k).1 = some v) :
    B.Filled Q capacity (insert k seen) (B.get s k).2 := by
  rw [Finset.insert_eq_self.mpr (h.key_mem _ (B.get_some s k v hget))]
  exact h.get k

theorem card_keys (s : B.State) :
    ((B.held s).map Prod.fst).toFinset.card = (B.held s).length := by
  rw [List.toFinset_card_of_nodup (B.held_nodup s), List.length_map]

theorem keys_subset (h : B.Filled Q capacity seen s) :
    ((B.held s).map Prod.fst).toFinset ⊆ seen := by
  intro k hk
  obtain ⟨p, hp, rfl⟩ := List.mem_map.mp (List.mem_toFinset.mp hk)
  exact h.key_mem p hp

theorem notMem_seen (h : B.Filled Q capacity seen s) (hroom : seen.card ≤ capacity)
    (hk : k ∉ (B.held s).map Prod.fst) : k ∉ seen := by
  have hcard : seen.card ≤ ((B.held s).map Prod.fst).toFinset.card := by
    rw [card_keys, h.length_eq, Nat.min_eq_right hroom]
  rw [← Finset.eq_of_subset_of_card_le h.keys_subset hcard, List.mem_toFinset]
  exact hk

theorem miss (h : B.Filled Q capacity seen s) (hget : (B.get s k).1 = none)
    (hv : Q v) : B.Filled Q capacity (insert k seen) (B.put (B.get s k).2 k v) := by
  have hk : k ∉ (B.held s).map Prod.fst := B.get_none s k hget
  have hk' : k ∉ (B.held (B.get s k).2).map Prod.fst := by
    rwa [((B.held_get s k).map Prod.fst).mem_iff]
  have hgot := h.get k
  refine ⟨(B.capacity_put _ k v).trans hgot.capacity_eq, ?_, ?_, ?_⟩
  · intro p hp
    rcases B.mem_put _ k v p hp with rfl | hp
    · exact hv
    · exact hgot.value p hp
  · intro p hp
    rcases B.mem_put _ k v p hp with rfl | hp
    · exact Finset.mem_insert_self _ _
    · exact Finset.mem_insert_of_mem (hgot.key_mem p hp)
  · rw [length_put hk', hgot.capacity_eq, hgot.length_eq]
    rcases Nat.lt_or_ge capacity seen.card with hfull | hroom
    · have hle := Finset.card_le_card (Finset.subset_insert k seen)
      omega
    · rw [Finset.card_insert_of_notMem (h.notMem_seen hroom hk)]
      omega

end Filled

end BoundedCache

/-! ## Least recently used -/

namespace Recency

variable {K V : Type} [DecidableEq K]

structure Kept (s : Recency K V) : Prop where
  nodup : (s.entries.map Prod.fst).Nodup
  length_le : s.entries.length ≤ s.capacity

theorem get_cases (s : Recency K V) (k : K) :
    (∃ p ∈ s.entries, p.1 = k ∧ (s.get k).1 = some p.2 ∧
        (s.get k).2.entries = p :: s.entries.filter (·.1 ≠ k)) ∨
      (k ∉ s.entries.map Prod.fst ∧ s.get k = (none, s)) := by
  unfold get
  split
  · rename_i h
    refine .inr ⟨fun hk => ?_, rfl⟩
    obtain ⟨p, hp, rfl⟩ := List.mem_map.mp hk
    simpa using List.find?_eq_none.mp h p hp
  · rename_i p h
    exact .inl ⟨p, List.mem_of_find?_eq_some h, by simpa using List.find?_some h,
      rfl, rfl⟩

theorem get_none {s : Recency K V} {k : K} (h : (s.get k).1 = none) :
    k ∉ s.entries.map Prod.fst := by
  rcases s.get_cases k with ⟨p, -, -, hsome, -⟩ | ⟨hk, -⟩
  · rw [h] at hsome
    cases hsome
  · exact hk

theorem get_some {s : Recency K V} {k : K} {v : V} (h : (s.get k).1 = some v) :
    (k, v) ∈ s.entries := by
  rcases s.get_cases k with ⟨p, hp, rfl, hsome, -⟩ | ⟨-, hnone⟩
  · rw [h] at hsome
    cases hsome
    exact hp
  · rw [hnone] at h
    cases h

theorem capacity_get (s : Recency K V) (k : K) : (s.get k).2.capacity = s.capacity := by
  unfold get
  split <;> rfl

theorem perm_cons_filter {entries : List (K × V)} (h : (entries.map Prod.fst).Nodup)
    {p : K × V} (hp : p ∈ entries) :
    (p :: entries.filter (·.1 ≠ p.1)).Perm entries := by
  induction entries with
  | nil => cases hp
  | cons q entries ih =>
      obtain ⟨hq, htail⟩ := List.nodup_cons.mp h
      rcases List.mem_cons.mp hp with rfl | hp
      · rw [List.filter_cons_of_neg (by simp), List.filter_eq_self.mpr]
        intro q hmem
        have hne : q.1 ≠ p.1 := fun heq => hq (heq ▸ List.mem_map_of_mem hmem)
        simpa using hne
      · have hne : q.1 ≠ p.1 := fun heq => hq (heq ▸ List.mem_map_of_mem hp)
        rw [List.filter_cons_of_pos (by simpa using hne)]
        exact (List.Perm.swap q p _).trans ((ih htail hp).cons q)

variable {s : Recency K V}

theorem entries_get (h : s.Kept) (k : K) : (s.get k).2.entries.Perm s.entries := by
  rcases s.get_cases k with ⟨p, hp, rfl, -, hentries⟩ | ⟨-, hnone⟩
  · rw [hentries]
    exact perm_cons_filter h.nodup hp
  · rw [hnone]

theorem Kept.get (h : s.Kept) (k : K) : (s.get k).2.Kept := by
  have hperm := entries_get h k
  refine ⟨(hperm.map Prod.fst).nodup_iff.mpr h.nodup, ?_⟩
  rw [hperm.length_eq, capacity_get]
  exact h.length_le

theorem Kept.put (h : s.Kept) (k : K) (v : V) : (s.put k v).Kept where
  nodup := by
    have hfilter : ((s.entries.filter (·.1 ≠ k)).map Prod.fst).Nodup :=
      h.nodup.sublist (List.filter_sublist.map Prod.fst)
    have hk : k ∉ (s.entries.filter (·.1 ≠ k)).map Prod.fst := by simp
    exact (List.nodup_cons.mpr ⟨hk, hfilter⟩).sublist
      ((List.take_sublist s.capacity ((k, v) :: s.entries.filter (·.1 ≠ k))).map Prod.fst)
  length_le := List.length_take_le _ _

theorem mem_put {k : K} {v : V} {p : K × V} (hp : p ∈ (s.put k v).entries) :
    p = (k, v) ∨ p ∈ s.entries :=
  (List.mem_cons.mp (List.mem_of_mem_take hp)).imp_right List.mem_of_mem_filter

theorem length_put {k : K} (v : V) (hk : k ∉ s.entries.map Prod.fst) :
    (s.put k v).entries.length = min s.capacity (s.entries.length + 1) := by
  have hfilter : s.entries.filter (·.1 ≠ k) = s.entries := by
    refine List.filter_eq_self.mpr fun p hp => ?_
    have hne : p.1 ≠ k := fun heq => hk (heq ▸ List.mem_map_of_mem hp)
    simpa using hne
  rw [put, List.length_take, hfilter, List.length_cons]

end Recency

def BoundedCache.recency (K V : Type) [DecidableEq K] : BoundedCache K V where
  State := { s : Recency K V // s.Kept }
  new n := ⟨Recency.new n, .nil, Nat.zero_le _⟩
  get s k := ((s.1.get k).1, ⟨(s.1.get k).2, s.2.get k⟩)
  put s k v := ⟨s.1.put k v, s.2.put k v⟩
  last s := s.1.last
  last_new _ _ := rfl
  last_get s := s.1.last_get
  last_put _ _ _ := rfl
  get_eq s := s.1.get_eq
  capacity s := s.1.capacity
  held s := s.1.entries
  capacity_new _ := rfl
  capacity_get s := s.1.capacity_get
  capacity_put _ _ _ := rfl
  held_new _ := rfl
  held_get s := Recency.entries_get s.2
  held_nodup s := s.2.nodup
  length_held_le s := s.2.length_le
  get_none _ _ := Recency.get_none
  get_some _ _ _ := Recency.get_some
  mem_put _ _ _ _ := Recency.mem_put
  le_length_put _ _ v hk := (Recency.length_put v hk).ge

end Caching
