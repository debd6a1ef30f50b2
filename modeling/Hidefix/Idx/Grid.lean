import Hidefix.Foundation.MixedRadix
import Hidefix.Idx.Dataset
import Mathlib.Data.List.Perm.Subperm
import Mathlib.Data.List.Range
import Mathlib.Order.Basic

/-!
# The grid of chunks

A chunk of the grid is named by its cell: its offset is the cell times the
chunk shape.  Cells are numbered in row-major order, the order of `Chunk::cmp`,
and `contains` compares the number of the cell of a point with the number of
the chunk.
-/

namespace Hidefix.Idx

open MixedRadix
open Foundation

/-! ## Cells along one dimension -/

theorem lt_divCeil {n c g : Nat} (hc : 1 ≤ c) : g < divCeil n c ↔ g * c < n := by
  have hdm := Nat.div_add_mod' n c
  have hlt : n % c < c := Nat.mod_lt _ hc
  unfold divCeil
  constructor
  · intro h
    split at h
    · have hle : g * c ≤ n / c * c := Nat.mul_le_mul_right _ (by omega)
      omega
    · have hle : (g + 1) * c ≤ n / c * c := Nat.mul_le_mul_right _ h
      rw [Nat.succ_mul] at hle
      omega
  · intro h
    have hg : g ≤ n / c := (Nat.le_div_iff_mul_le hc).mpr h.le
    split
    · omega
    · rcases Nat.lt_or_ge g (n / c) with hlt | hge
      · exact hlt
      · obtain rfl : g = n / c := by omega
        omega

theorem divCeil_pos {n c : Nat} (hc : 1 ≤ c) (hn : 1 ≤ n) : 1 ≤ divCeil n c :=
  (lt_divCeil hc).mpr (by omega)

/-! ## Cells and offsets -/

def cellCounts (shape chunkShape : List Nat) : List Nat :=
  List.zipWith divCeil shape chunkShape

theorem expectedChunks_of_pos {b : Build} {D : Nat} {shape chunkShape : List.Vector Nat D}
    (h : ∀ c ∈ chunkShape.toList, 1 ≤ c) :
    Dataset.expectedChunks b shape chunkShape =
      productU64 b (cellCounts shape.toList chunkShape.toList) := by
  have hany : ¬ (chunkShape.toList.any (· = 0) = true) := by
    intro hany
    obtain ⟨c, hc, hzero⟩ := List.any_eq_true.mp hany
    have := h c hc
    simp only [decide_eq_true_eq] at hzero
    omega
  rw [Dataset.expectedChunks, if_neg hany, cellCounts]

def cellOffset (chunkShape cell : List Nat) : List Nat :=
  List.zipWith (· * ·) cell chunkShape

def cellOf (chunkShape x : List Nat) : List Nat :=
  List.zipWith (· / ·) x chunkShape

variable {shape cs x g : List Nat}

theorem cellOf_inBox (hcs : ∀ c ∈ cs, 1 ≤ c) (hlen : cs.length = shape.length)
    (hx : InBox shape x) : InBox (cellCounts shape cs) (cellOf cs x) := by
  induction hx generalizing cs with
  | nil => exact .nil
  | @cons i n x shape hi _ ih =>
      cases cs with
      | nil => simp at hlen
      | cons c cs =>
          have hc : 1 ≤ c := hcs c (by simp)
          refine .cons ?_ (ih (List.forall_mem_cons.mp hcs).2
            (by simpa using hlen))
          exact (lt_divCeil hc).mpr ((Nat.div_mul_le_self i c).trans_lt hi)

theorem cellOffset_inBox (hcs : ∀ c ∈ cs, 1 ≤ c)
    (hlen : cs.length = shape.length) (hg : InBox (cellCounts shape cs) g) :
    InBox shape (cellOffset cs g) := by
  induction shape generalizing cs g with
  | nil =>
      cases hg
      exact .nil
  | cons n shape ih =>
      cases cs with
      | nil => simp at hlen
      | cons c cs =>
          cases hg with
          | cons ho hg =>
              have hc : 1 ≤ c := hcs c (by simp)
              exact .cons ((lt_divCeil hc).mp ho)
                (ih (List.forall_mem_cons.mp hcs).2 (by simpa using hlen) hg)

theorem cellOf_cellOffset (hcs : ∀ c ∈ cs, 1 ≤ c)
    (hlen : g.length = cs.length) : cellOf cs (cellOffset cs g) = g := by
  induction cs generalizing g with
  | nil =>
      cases g with
      | nil => rfl
      | cons o g => simp at hlen
  | cons c cs ih =>
      cases g with
      | nil => simp at hlen
      | cons o g =>
          have hc : 0 < c := hcs c (by simp)
          have htail := ih (List.forall_mem_cons.mp hcs).2 (by simpa using hlen)
          simp only [cellOffset, cellOf, List.zipWith_cons_cons] at htail ⊢
          rw [Nat.mul_div_cancel _ hc, htail]

theorem cmpOffsets_cellOffset {ks g p : List Nat} (hcs : ∀ c ∈ cs, 1 ≤ c)
    (hlen : cs.length = ks.length) (hg : InBox ks g) (hp : InBox ks p) :
    cmpOffsets (cellOffset cs g) (cellOffset cs p) =
      compare (rank ks g) (rank ks p) := by
  induction hg generalizing cs p with
  | nil =>
      cases hp
      simp [cellOffset, cmpOffsets]
  | @cons i k g ks hi hg ih =>
      cases hp with
      | @cons j _ p _ hj hp =>
          cases cs with
          | nil => simp at hlen
          | cons c cs =>
              have hc : 0 < c := hcs c (by simp)
              have htail := ih (List.forall_mem_cons.mp hcs).2
                (by simpa using hlen) hp
              rw [compare_rank_cons hg hp, ← htail]
              change cmpOffsets (i * c :: cellOffset cs g) (j * c :: cellOffset cs p) = _
              rw [cmpOffsets_cons]
              rcases Nat.lt_trichotomy i j with h | rfl | h
              · rw [Nat.compare_eq_lt.mpr h, Nat.compare_eq_lt.mpr
                  (Nat.mul_lt_mul_of_pos_right h hc)]
              · rw [Nat.compare_eq_eq.mpr rfl, Nat.compare_eq_eq.mpr rfl]
              · rw [Nat.compare_eq_gt.mpr h, Nat.compare_eq_gt.mpr
                  (Nat.mul_lt_mul_of_pos_right h hc)]

theorem containsFrom_cellOffset {b : Build} {ks : List Nat}
    (hcs : ∀ c ∈ cs, 1 ≤ c) (hlen : cs.length = ks.length)
    (hx : InBox ks (cellOf cs x)) (hxlen : x.length = cs.length)
    (hg : InBox ks g)
    (hfit : List.Forall₂ (fun k c => k * c < 2 ^ 64) ks cs) :
    containsFrom b (cellOffset cs g) x cs =
      .ok (compare (rank ks (cellOf cs x)) (rank ks g)) := by
  induction hg generalizing cs x with
  | nil =>
      cases hfit
      simp [cellOffset, containsFrom]
  | @cons j k g ks hj hg ih =>
      cases hfit with
      | @cons _ c _ cs hk hfit =>
          cases x with
          | nil => simp at hxlen
          | cons i x =>
              have hc : 0 < c := hcs c (by simp)
              cases hx with
              | cons hi hx =>
                  have htail := ih (List.forall_mem_cons.mp hcs).2
                    (by simpa using hlen) hx (by simpa using hxlen) hfit
                  have hmul : (j + 1) * c ≤ k * c := Nat.mul_le_mul_right _ hj
                  rw [Nat.succ_mul] at hmul
                  change containsFrom b (j * c :: cellOffset cs g) (i :: x)
                    (c :: cs) = .ok (compare (rank (k :: ks)
                      (i / c :: cellOf cs x)) (rank (k :: ks) (j :: g)))
                  change InBox ks (cellOf cs x) at hx
                  rw [compare_rank_cons hx hg, containsFrom]
                  split
                  · rename_i hlt
                    have hlt : i / c < j := (Nat.div_lt_iff_lt_mul hc).mpr hlt
                    rw [Nat.compare_eq_lt.mpr hlt]
                    rfl
                  · rename_i hge
                    have hge : j ≤ i / c :=
                      (Nat.le_div_iff_mul_le hc).mpr (Nat.le_of_not_lt hge)
                    rw [addU64_eq (by omega), ok_bind]
                    split
                    · rename_i hgt
                      have hgt : j + 1 ≤ i / c :=
                        (Nat.le_div_iff_mul_le hc).mpr
                          (by rw [Nat.succ_mul]; exact hgt)
                      rw [Nat.compare_eq_gt.mpr hgt]
                      rfl
                    · rename_i hlt
                      have hlt : i / c < j + 1 :=
                        (Nat.div_lt_iff_lt_mul hc).mpr
                          (by rw [Nat.succ_mul]; omega)
                      have heq : i / c = j := by omega
                      rw [htail, heq, Nat.compare_eq_eq.mpr (Eq.refl j)]
                      rfl

/-! ## The sorted list of a complete grid -/

theorem rowMajor_pairwise (ks : List Nat) :
    (rowMajor ks).Pairwise fun g p => rank ks g < rank ks p := by
  rw [rowMajor_eq, List.pairwise_map]
  refine List.Pairwise.imp_of_mem ?_ List.pairwise_lt_range
  intro i j hi hj hlt
  rw [rank_unrank, rank_unrank, Nat.mod_eq_of_lt (List.mem_range.mp hi),
    Nat.mod_eq_of_lt (List.mem_range.mp hj)]
  exact hlt

theorem cmpOffsets_eq_compare {xs ys : List Nat} (h : xs.length = ys.length) :
    cmpOffsets xs ys = compare xs ys := by
  induction xs generalizing ys with
  | nil =>
      cases ys with
      | nil => rfl
      | cons y ys => simp at h
  | cons x xs ih =>
      cases ys with
      | nil => simp at h
      | cons y ys =>
          rw [cmpOffsets_cons, List.compare_cons_cons, ih (by simpa using h)]

theorem grid_pairwise {ks : List Nat} (hcs : ∀ c ∈ cs, 1 ≤ c)
    (hlen : cs.length = ks.length) :
    ((rowMajor ks).map (cellOffset cs)).Pairwise
      fun o p => cmpOffsets o p = .lt := by
  rw [List.pairwise_map]
  refine List.Pairwise.imp_of_mem ?_ (rowMajor_pairwise ks)
  intro g p hg hp hlt
  rw [cmpOffsets_cellOffset hcs hlen (mem_rowMajor.mp hg) (mem_rowMajor.mp hp)]
  exact Nat.compare_eq_lt.mpr hlt

/-- A strictly sorted list of all the offsets of a grid is the grid. -/
theorem offsets_eq_rowMajor {ks : List Nat} {offsets : List (List Nat)}
    (hcs : ∀ c ∈ cs, 1 ≤ c) (hlen : cs.length = ks.length)
    (hsorted : offsets.Pairwise fun o p => cmpOffsets o p = .lt)
    (hmem : ∀ o, o ∈ offsets ↔ ∃ g, InBox ks g ∧ o = cellOffset cs g) :
    offsets = (rowMajor ks).map (cellOffset cs) := by
  have hgrid := grid_pairwise hcs hlen
  have hasymm : ∀ o p, o ∈ offsets → p ∈ (rowMajor ks).map (cellOffset cs) →
      cmpOffsets o p = .lt → cmpOffsets p o = .lt → o = p := by
    intro o p ho hp hop hpo
    obtain ⟨g, hg, rfl⟩ := (hmem o).mp ho
    obtain ⟨q, hq, rfl⟩ := List.mem_map.mp hp
    have hq := mem_rowMajor.mp hq
    rw [cmpOffsets_cellOffset hcs hlen hg hq, Nat.compare_eq_lt] at hop
    rw [cmpOffsets_cellOffset hcs hlen hq hg, Nat.compare_eq_lt] at hpo
    omega
  have hirrefl : ∀ o, cmpOffsets o o ≠ .lt := by
    intro o
    rw [cmpOffsets_eq_compare rfl, Std.ReflOrd.compare_self]
    simp
  have hne : ∀ {o p : List Nat}, cmpOffsets o p = .lt → o ≠ p := by
    rintro o p h rfl
    exact hirrefl o h
  refine List.Perm.eq_of_pairwise hasymm hsorted hgrid ?_
  refine (List.perm_ext_iff_of_nodup (hsorted.imp hne) (hgrid.imp hne)).mpr ?_
  intro o
  rw [hmem, List.mem_map]
  constructor
  · rintro ⟨g, hg, rfl⟩
    exact ⟨g, mem_rowMajor.mpr hg, rfl⟩
  · rintro ⟨g, hg, rfl⟩
    exact ⟨g, mem_rowMajor.mp hg, rfl⟩

end Hidefix.Idx
