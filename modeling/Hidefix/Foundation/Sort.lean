import Mathlib.Data.List.Sort
import Mathlib.Data.List.SplitBy

/-!
# Unstable sorting

An unstable sort by key returns a permutation that is sorted by key, and says
nothing on the order of entries with equal keys.  Where the keys increase strictly
there is only one way to sort.  A sorted list is split where the key changes, so that
no key is in two of the groups.
-/

namespace Sorting

section Keys

variable {α : Type} {key : α → Nat} {xs ys : List α}

/-- Entries whose keys increase strictly are in the only order by key. -/
theorem eq_of_perm_sorted (hxs : xs.Pairwise fun a b => key a < key b)
    (hperm : ys.Perm xs) (hys : ys.Pairwise fun a b => key a ≤ key b) : ys = xs := by
  have hnodup : (xs.map key).Nodup := by
    rw [List.Nodup, List.pairwise_map]
    exact hxs.imp fun hlt => hlt.ne
  have hanti : ∀ a b : α, a ∈ ys → b ∈ xs → key a ≤ key b → key b ≤ key a → a = b := by
    intro a b ha hb hab hba
    exact List.inj_on_of_nodup_map hnodup (hperm.mem_iff.mp ha) hb
      (Nat.le_antisymm hab hba)
  exact List.Perm.eq_of_pairwise hanti hys (hxs.imp fun hlt => hlt.le) hperm

theorem chain_of_sorted_unique (hxs : xs.Pairwise fun a b => key a ≤ key b)
    (hunique : ∀ ys : List α, ys.Perm xs →
      (ys.Pairwise fun a b => key a ≤ key b) → ys = xs) :
    xs.IsChain fun a b => key a = key b → a = b := by
  rw [List.isChain_iff_forall_rel_of_append_cons_cons]
  intro a b before after hsplit hkey
  subst hsplit
  have hswapped := hunique (before ++ b :: a :: after)
    (.append_left before (.swap a b after)) ?_
  · rw [List.append_cancel_left_eq] at hswapped
    exact (List.cons.inj hswapped).1.symm
  · rw [List.pairwise_append, List.pairwise_cons, List.pairwise_cons] at hxs ⊢
    rcases hxs with ⟨hbefore, ⟨ha, hb, hafter⟩, hall⟩
    refine ⟨hbefore, ⟨?_, ?_, hafter⟩, ?_⟩
    · intro x hx
      rcases List.mem_cons.mp hx with rfl | hx
      · exact hkey.ge
      · exact hb x hx
    · intro x hx
      exact ha x (List.mem_cons_of_mem _ hx)
    · intro x hx y hy
      apply hall x hx y
      simp only [List.mem_cons] at hy ⊢
      tauto

theorem pairwise_groups {groups : List (List α)} (hne : ∀ g ∈ groups, g ≠ [])
    (hchain : groups.IsChain fun g g' =>
      ∃ hg hg', key (g.getLast hg) ≠ key (g'.head hg'))
    (hsorted : groups.flatten.Pairwise fun a b => key a ≤ key b) :
    groups.Pairwise fun g g' => ∀ a ∈ g, ∀ b ∈ g', key a < key b := by
  have hrefl : Std.Refl fun a b : α => key a ≤ key b := ⟨fun a => le_refl _⟩
  induction groups with
  | nil => exact .nil
  | cons g groups ih =>
      rw [List.forall_mem_cons] at hne
      rw [List.flatten_cons, List.pairwise_append] at hsorted
      rcases hsorted with ⟨hg, hrest, hacross⟩
      refine .cons ?_ (ih hne.2 hchain.tail hrest)
      cases groups with
      | nil => simp
      | cons next groups =>
          intro g' hg' a ha b hb
          rcases (List.isChain_cons_cons.mp hchain).1 with ⟨hlast, hhead, hchange⟩
          have hfirst : next.head hhead ∈ (next :: groups).flatten := by
            rw [List.flatten_cons]
            exact List.mem_append_left _ (List.head_mem hhead)
          have hbmem : b ∈ (next :: groups).flatten :=
            List.mem_flatten.mpr ⟨g', hg', hb⟩
          -- up to the last of this group, over the change, from the first of the next
          have hup : key a ≤ key (g.getLast hlast) := hg.rel_getLast ha
          have hover : key (g.getLast hlast) ≤ key (next.head hhead) :=
            hacross _ (List.getLast_mem hlast) _ hfirst
          have hon : key (next.head hhead) ≤ key b := by
            have hhead' := hrest.rel_head hbmem
            simpa only [List.flatten_cons, List.head_append_of_ne_nil hhead] using hhead'
          omega

theorem pairwise_splitBy (hsorted : xs.Pairwise fun a b => key a ≤ key b) :
    (xs.splitBy fun a b => key a == key b).Pairwise fun g g' =>
      ∀ a ∈ g, ∀ b ∈ g', key a < key b := by
  apply pairwise_groups
  · intro g hg
    exact List.ne_nil_of_mem_splitBy hg
  · apply (List.isChain_getLast_head_splitBy _ xs).imp
    rintro g g' ⟨hg, hg', hchange⟩
    exact ⟨hg, hg', by simpa using hchange⟩
  · rwa [List.flatten_splitBy]

end Keys

structure UnstableSort (α : Type) (key : α → Nat) where
  sort : List α → List α
  perm : ∀ xs, (sort xs).Perm xs
  sorted : ∀ xs, (sort xs).Pairwise fun a b => key a ≤ key b

def UnstableSort.insertion {α : Type} (key : α → Nat) : UnstableSort α key where
  sort xs := xs.insertionSort fun a b => key a ≤ key b
  perm xs := List.perm_insertionSort _ xs
  sorted xs := by
    have htotal : Std.Total fun a b : α => key a ≤ key b :=
      ⟨fun a b => Nat.le_total (key a) (key b)⟩
    have htrans : IsTrans α fun a b => key a ≤ key b :=
      ⟨fun _ _ _ => Nat.le_trans⟩
    exact List.pairwise_insertionSort _ xs

end Sorting
