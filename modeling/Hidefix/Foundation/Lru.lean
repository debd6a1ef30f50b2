import Mathlib.Data.List.Basic
import Mathlib.Tactic.Common

/-!
# Caches that forget

A cache answers a key with the last value put under it, or not at all.  What is
kept and what is evicted is left open; `last` remembers all that was put.
-/

namespace Caching

structure LruCache (K V : Type) [DecidableEq K] where
  State : Type
  new : (capacity : Nat) → State
  get : State → K → Option V × State
  put : State → K → V → State
  /-- The last value put under a key, evicted or not. -/
  last : State → K → Option V
  last_new : ∀ n k, last (new n) k = none
  last_get : ∀ s k, last (get s k).2 = last s
  last_put : ∀ s k v, last (put s k v) = Function.update (last s) k (some v)
  get_eq : ∀ s k, (get s k).1 = none ∨ (get s k).1 = last s k

namespace LruCache

variable {K V : Type} [DecidableEq K] {L : LruCache K V} {P : K → V → Prop}

def Holds (L : LruCache K V) (P : K → V → Prop) (s : L.State) : Prop :=
  ∀ k v, L.last s k = some v → P k v

theorem holds_new (n : Nat) : L.Holds P (L.new n) := by
  intro k v h
  rw [L.last_new] at h
  cases h

theorem Holds.get {s : L.State} (h : L.Holds P s) (k : K) :
    L.Holds P (L.get s k).2 := by
  intro k' v hv
  rw [L.last_get] at hv
  exact h k' v hv

theorem Holds.put {s : L.State} (h : L.Holds P s) {k : K} {v : V}
    (hv : P k v) : L.Holds P (L.put s k v) := by
  intro k' v' h'
  rw [L.last_put, Function.update_apply] at h'
  split at h'
  · subst k'
    cases h'
    exact hv
  · exact h k' v' h'

theorem Holds.hit {s : L.State} (h : L.Holds P s) {k : K} {v : V}
    (hhit : (L.get s k).1 = some v) : P k v := by
  rcases L.get_eq s k with hnone | hlast
  · rw [hnone] at hhit
    cases hhit
  · exact h k v (hlast ▸ hhit)

end LruCache

/-! ## Least recently used -/

structure Recency (K V : Type) where
  capacity : Nat
  entries : List (K × V)
  last : K → Option V
  current : ∀ p ∈ entries, last p.1 = some p.2

namespace Recency

variable {K V : Type} [DecidableEq K]

def new (capacity : Nat) : Recency K V where
  capacity := capacity
  entries := []
  last := fun _ => none
  current := by simp

def get (s : Recency K V) (k : K) : Option V × Recency K V :=
  match h : s.entries.find? (·.1 = k) with
  | none => (none, s)
  | some p =>
      (some p.2, { s with
        entries := p :: s.entries.filter (·.1 ≠ k)
        current := by
          intro q hq
          rcases List.mem_cons.mp hq with rfl | hq
          · exact s.current q (List.mem_of_find?_eq_some h)
          · exact s.current q (List.mem_of_mem_filter hq) })

def put (s : Recency K V) (k : K) (v : V) : Recency K V where
  capacity := s.capacity
  entries := ((k, v) :: s.entries.filter (·.1 ≠ k)).take s.capacity
  last := Function.update s.last k (some v)
  current := by
    intro q hq
    rcases List.mem_cons.mp (List.mem_of_mem_take hq) with rfl | hq
    · exact Function.update_self ..
    · have hne : q.1 ≠ k := by simpa using (List.mem_filter.mp hq).2
      rw [Function.update_of_ne hne]
      exact s.current q (List.mem_of_mem_filter hq)

theorem get_eq (s : Recency K V) (k : K) :
    (s.get k).1 = none ∨ (s.get k).1 = s.last k := by
  unfold get
  split
  · exact .inl rfl
  · rename_i p h
    have hkey : p.1 = k := by simpa using List.find?_some h
    exact .inr (hkey ▸ (s.current p (List.mem_of_find?_eq_some h)).symm)

theorem last_get (s : Recency K V) (k : K) : (s.get k).2.last = s.last := by
  unfold get
  split <;> rfl

end Recency

def LruCache.recency (K V : Type) [DecidableEq K] : LruCache K V where
  State := Recency K V
  new := Recency.new
  get := Recency.get
  put := Recency.put
  last := Recency.last
  last_new _ _ := rfl
  last_get := Recency.last_get
  last_put _ _ _ := rfl
  get_eq := Recency.get_eq

end Caching
