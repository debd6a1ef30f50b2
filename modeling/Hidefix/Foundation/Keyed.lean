import Mathlib.Data.List.Nodup
import Mathlib.Data.List.Perm.Basic
import Mathlib.Tactic.Common

/-!
# Maps as lists of pairs

A map is a list of keys with their values, each key once.  Collecting pairs into a map,
a later one takes the place of an earlier one of its key.  What is looked up does not
depend on the order of the pairs, where their keys are distinct.
-/

namespace Keyed

variable {κ α : Type} {ps qs : List (κ × α)} {k : κ} {v : α}

def Distinct (ps : List (κ × α)) : Prop := (ps.map Prod.fst).Nodup

instance [DecidableEq κ] (ps : List (κ × α)) : Decidable (Distinct ps) :=
  inferInstanceAs (Decidable (List.Nodup _))

theorem Distinct.perm (h : Distinct ps) (hperm : qs.Perm ps) : Distinct qs :=
  (hperm.map Prod.fst).nodup_iff.mpr h

def insert [BEq κ] (m : List (κ × α)) (p : κ × α) : List (κ × α) :=
  p :: m.filter fun q => q.1 != p.1

def collect [BEq κ] (ps : List (κ × α)) : List (κ × α) := ps.foldl insert []

variable [BEq κ] [LawfulBEq κ]

theorem lookup_eq_some_iff_mem (h : Distinct ps) : ps.lookup k = some v ↔ (k, v) ∈ ps := by
  induction ps with
  | nil => simp
  | cons p ps ih =>
      obtain ⟨hp, hps⟩ := List.nodup_cons.mp h
      obtain ⟨k', v'⟩ := p
      rw [List.lookup_cons]
      split
      · rename_i hk
        obtain rfl := beq_iff_eq.mp hk
        have hnot : (k, v) ∉ ps := fun hmem => hp (List.mem_map.mpr ⟨_, hmem, rfl⟩)
        simp [hnot, eq_comm]
      · rename_i hk
        have hne : k ≠ k' := fun heq => by simp [heq] at hk
        simp [hne, ih hps]

/-! ## Collecting -/

theorem Distinct.insert (h : Distinct ps) (p : κ × α) : Distinct (insert ps p) := by
  refine List.nodup_cons.mpr ⟨by simp, ?_⟩
  exact h.sublist (List.filter_sublist.map _)

theorem distinct_collect (ps : List (κ × α)) : Distinct (collect ps) := by
  suffices h : ∀ m : List (κ × α), Distinct m → Distinct (ps.foldl Keyed.insert m) from
    h [] List.nodup_nil
  induction ps with
  | nil => exact fun m hm => hm
  | cons p ps ih => exact fun m hm => ih _ (hm.insert p)

theorem collect_eq_reverse (h : Distinct ps) : collect ps = ps.reverse := by
  suffices hall : ∀ m : List (κ × α), Distinct (m ++ ps) →
      ps.foldl Keyed.insert m = ps.reverse ++ m by simpa [collect] using hall [] h
  clear h
  induction ps with
  | nil => simp
  | cons p ps ih =>
      intro m hm
      have hfirst : Distinct (p :: m ++ ps) := hm.perm List.perm_middle.symm
      have hkept : m.filter (fun q => q.1 != p.1) = m := by
        refine List.filter_eq_self.mpr fun q hq => ?_
        rw [bne_iff_ne]
        intro heq
        refine (List.nodup_cons.mp hfirst).1 ?_
        rw [← heq]
        exact List.mem_map_of_mem (List.mem_append_left _ hq)
      rw [List.foldl_cons, insert, hkept, ih _ hfirst]
      simp

theorem mem_collect (h : Distinct ps) {p : κ × α} : p ∈ collect ps ↔ p ∈ ps := by
  rw [collect_eq_reverse h, List.mem_reverse]

omit [LawfulBEq κ] in
theorem mem_of_mem_collect {p : κ × α} (h : p ∈ collect ps) : p ∈ ps := by
  suffices hall : ∀ m : List (κ × α), p ∈ ps.foldl Keyed.insert m → p ∈ m ∨ p ∈ ps from
    (hall [] h).resolve_left List.not_mem_nil
  clear h
  induction ps with
  | nil => simp
  | cons q ps ih =>
      intro m hp
      rcases ih (insert m q) hp with hm | hps
      · rcases List.mem_cons.mp hm with rfl | hm
        · exact .inr List.mem_cons_self
        · exact .inl (List.mem_of_mem_filter hm)
      · exact .inr (List.mem_cons_of_mem _ hps)

theorem lookup_collect (h : Distinct ps) : (collect ps).lookup k = some v ↔ (k, v) ∈ ps := by
  rw [lookup_eq_some_iff_mem (distinct_collect ps), mem_collect h]

end Keyed
