import Hidefix.Idx.WellFormed
import Mathlib.Data.List.Infix

/-!
# Looking up chunks

The HDF5 library reports distinct cells of the grid in any order.  Where their
number is the expected one they are the whole grid, and sorting puts each of
them at the place at which `chunk_at_coord` looks for it.
-/

namespace Hidefix.Idx

open MixedRadix
open Foundation

variable {D : Nat} {b : Build}

/-- The chunks of a dataset as the HDF5 library reports them. -/
structure Reported (shape chunkShape : List.Vector Nat D)
    (chunks : List (Chunk D)) : Prop where
  shape_lt : ∀ n ∈ shape.toList, n < 2 ^ 64
  chunk_pos : ∀ c ∈ chunkShape.toList, 1 ≤ c
  chunk_lt : ∀ c ∈ chunkShape.toList, c < 2 ^ 64
  distinct : (chunks.map Chunk.offsetU64).Nodup
  aligned : ∀ c ∈ chunks,
    List.Forall₂ (· ∣ ·) chunkShape.toList c.offsetU64
  inside : ∀ c ∈ chunks, InBox shape.toList c.offsetU64

/--
The chunk of a coordinate is found, the chunks before it answer `Greater` and
those after it `Less`.
-/
def FindsChunk (b : Build) (ds : Dataset D) (x : List Nat) : Prop :=
  ∃ before c after, ds.chunks = before ++ c :: after ∧
    ds.chunkAtCoord b x = .ok c ∧
    c.contains b x ds.chunkShape.toList = .ok .eq ∧
    (∀ p ∈ before, p.contains b x ds.chunkShape.toList = .ok .gt) ∧
    ∀ p ∈ after, p.contains b x ds.chunkShape.toList = .ok .lt

/--
A dataset is made of the sorted chunks, and it finds the chunk of every
coordinate.
-/
def FindsChunks (b : Build) (shape chunkShape : List.Vector Nat D)
    (chunks : List (Chunk D)) : Prop :=
  ∀ dtype order shuffle gzip, ∃ ds,
    Dataset.new b dtype order shape (sortChunks chunks) chunkShape shuffle
      gzip = .ok ds ∧ ∀ x, InBox shape.toList x → FindsChunk b ds x

def ScanFits (b : Build) (xs : List Nat) : Prop :=
  b = .release ∨ ∀ ys ∈ xs.tails, ys.prod < 2 ^ 64

/-- The products that `Dataset::new` computes do not overflow. -/
def NewFits (b : Build) (shape chunkShape : List Nat) : Prop :=
  ScanFits b (cellCounts shape chunkShape) ∧ ScanFits b shape ∧
    ScanFits b chunkShape

/-! ## Sorting by `Chunk::cmp` -/

theorem Chunk.cmp_eq_compare (c other : Chunk D) :
    c.cmp other = compare c.offsetU64 other.offsetU64 :=
  cmpOffsets_eq_compare (by simp)

theorem sortChunks_perm (chunks : List (Chunk D)) :
    (sortChunks chunks).Perm chunks := List.mergeSort_perm _ _

theorem sortChunks_pairwise (chunks : List (Chunk D)) :
    (sortChunks chunks).Pairwise fun c other => (c.cmp other).isLE = true := by
  refine List.pairwise_mergeSort ?_ ?_ chunks
  · intro c d e hcd hde
    rw [Chunk.cmp_eq_compare] at hcd hde ⊢
    exact Std.TransCmp.isLE_trans hcd hde
  · intro c d
    rw [Chunk.cmp_eq_compare, Chunk.cmp_eq_compare, Bool.or_eq_true]
    by_cases h : (compare c.offsetU64 d.offsetU64).isLE = true
    · exact .inl h
    · exact .inr (Ordering.isLE_of_eq_lt (Std.OrientedCmp.lt_of_not_isLE h))

theorem sortChunks_strict {chunks : List (Chunk D)}
    (h : (chunks.map Chunk.offsetU64).Nodup) :
    (sortChunks chunks).Pairwise fun c other => c.cmp other = .lt := by
  have hnodup : ((sortChunks chunks).map Chunk.offsetU64).Nodup :=
    ((sortChunks_perm chunks).map _).nodup_iff.mpr h
  have hne := List.pairwise_map.mp hnodup
  refine ((sortChunks_pairwise chunks).and hne).imp ?_
  rintro c other ⟨hle, hne⟩
  rcases Ordering.isLE_iff_eq_lt_or_eq_eq.mp hle with hlt | heq
  · exact hlt
  · rw [Chunk.cmp_eq_compare] at heq
    exact absurd (Std.LawfulEqOrd.eq_of_compare heq) hne

/-! ## Counting the cells -/

theorem cellOffset_cellOf {cs o : List Nat} (h : List.Forall₂ (· ∣ ·) cs o) :
    cellOffset cs (cellOf cs o) = o := by
  induction h with
  | nil => rfl
  | cons hdvd _ ih => exact congrArg₂ List.cons (Nat.div_mul_cancel hdvd) ih

theorem grid_nodup {ks cs : List Nat} (hcs : ∀ c ∈ cs, 1 ≤ c)
    (hlen : cs.length = ks.length) :
    ((rowMajor ks).map (cellOffset cs)).Nodup := by
  refine (grid_pairwise hcs hlen).imp ?_
  rintro o _ h rfl
  rw [cmpOffsets_eq_compare rfl, Std.ReflOrd.compare_self] at h
  cases h

namespace Reported

variable {shape chunkShape : List.Vector Nat D} {chunks : List (Chunk D)}

theorem cell (h : Reported shape chunkShape chunks) {c : Chunk D}
    (hc : c ∈ chunks) :
    ∃ g, InBox (cellCounts shape.toList chunkShape.toList) g ∧
      c.offsetU64 = cellOffset chunkShape.toList g :=
  ⟨_, cellOf_inBox h.chunk_pos (by simp) (h.inside c hc),
    (cellOffset_cellOf (h.aligned c hc)).symm⟩

theorem complete (h : Reported shape chunkShape chunks)
    (hcount : chunks.length =
      (cellCounts shape.toList chunkShape.toList).prod) {g : List Nat}
    (hg : InBox (cellCounts shape.toList chunkShape.toList) g) :
    ∃ c ∈ chunks, c.offsetU64 = cellOffset chunkShape.toList g := by
  have hsubset : chunks.map Chunk.offsetU64 ⊆
      (rowMajor (cellCounts shape.toList chunkShape.toList)).map
        (cellOffset chunkShape.toList) := by
    intro o ho
    obtain ⟨c, hc, rfl⟩ := List.mem_map.mp ho
    obtain ⟨g, hg, hoffset⟩ := h.cell hc
    exact List.mem_map.mpr ⟨g, mem_rowMajor.mpr hg, hoffset.symm⟩
  have hperm := (h.distinct.subperm hsubset).perm_of_length_le
    (by simp [hcount])
  have hmem : cellOffset chunkShape.toList g ∈ chunks.map Chunk.offsetU64 :=
    hperm.mem_iff.mpr (List.mem_map_of_mem (mem_rowMajor.mpr hg))
  obtain ⟨c, hc, hoffset⟩ := List.mem_map.mp hmem
  exact ⟨c, hc, hoffset⟩

theorem prod_le_length (h : Reported shape chunkShape chunks)
    (hall : ∀ g, InBox (cellCounts shape.toList chunkShape.toList) g →
      ∃ c ∈ chunks, c.offsetU64 = cellOffset chunkShape.toList g) :
    (cellCounts shape.toList chunkShape.toList).prod ≤ chunks.length := by
  have hsubset : (rowMajor (cellCounts shape.toList chunkShape.toList)).map
      (cellOffset chunkShape.toList) ⊆ chunks.map Chunk.offsetU64 := by
    intro o ho
    obtain ⟨g, hg, rfl⟩ := List.mem_map.mp ho
    obtain ⟨c, hc, hoffset⟩ := hall g (mem_rowMajor.mp hg)
    exact List.mem_map.mpr ⟨c, hc, hoffset⟩
  have hlen : chunkShape.toList.length =
      (cellCounts shape.toList chunkShape.toList).length := by simp [cellCounts]
  have hnodup := grid_nodup h.chunk_pos hlen
  simpa using (hnodup.subperm hsubset).length_le

theorem offsets_eq (h : Reported shape chunkShape chunks)
    (hcount : chunks.length =
      (cellCounts shape.toList chunkShape.toList).prod) :
    (sortChunks chunks).map Chunk.offsetU64 =
      (rowMajor (cellCounts shape.toList chunkShape.toList)).map
        (cellOffset chunkShape.toList) := by
  refine offsets_eq_rowMajor h.chunk_pos (by simp [cellCounts]) ?_ fun o => ?_
  · rw [List.pairwise_map]
    exact sortChunks_strict h.distinct
  · simp only [List.mem_map, (sortChunks_perm chunks).mem_iff]
    constructor
    · rintro ⟨c, hc, rfl⟩
      exact h.cell hc
    · rintro ⟨g, hg, rfl⟩
      exact h.complete hcount hg

end Reported

/-! ## A complete grid -/

section Complete

variable {ds : Dataset D} {x : List Nat}

theorem contains_at (hpos : ∀ c ∈ ds.chunkShape.toList, 1 ≤ c)
    (hgrid : ds.chunks.map Chunk.offsetU64 =
      (rowMajor ds.cells).map (cellOffset ds.chunkShape.toList))
    (hends : List.Forall₂ (fun k c => k * c < 2 ^ 64) ds.cells
      ds.chunkShape.toList)
    (hx : InBox ds.shape.toList x) {j : Nat} (hj : j < ds.chunks.length) :
    ds.chunks[j].contains b x ds.chunkShape.toList =
      .ok (compare (rank ds.cells (cellOf ds.chunkShape.toList x)) j) := by
  have hcell := cellOf_inBox hpos (by simp) hx
  have hlen : ds.chunks.length = ds.cells.prod := by
    simpa using congrArg List.length hgrid
  have hoffset : ds.chunks[j].offsetU64 =
      cellOffset ds.chunkShape.toList (unrank ds.cells j) := by
    have hget := congrArg (fun l : List (List Nat) => l[j]?) hgrid
    simpa [hj, hlen ▸ hj, getElem_rowMajor] using hget
  have hrank : rank ds.cells (unrank ds.cells j) = j := by
    rw [rank_unrank, Nat.mod_eq_of_lt (hlen ▸ hj)]
  rw [Chunk.contains_eq hoffset hpos ds.length_cells (by simp)
    (by simpa using hx.length_eq) hcell (unrank_inBox hcell.pos j) hends, hrank]

/-- The chunk of a coordinate splits a complete grid. -/
theorem findsChunk_of_grid (hpos : ∀ c ∈ ds.chunkShape.toList, 1 ≤ c)
    (hreduced : ds.chunkShapeReduced.toList.map StrengthReducedU64.get =
      ds.chunkShape.toList)
    (hscaled : ds.scaledDimSz.toList = strides ds.cells)
    (hgrid : ds.chunks.map Chunk.offsetU64 =
      (rowMajor ds.cells).map (cellOffset ds.chunkShape.toList))
    (hfit : ds.cells.prod < 2 ^ 64)
    (hends : List.Forall₂ (fun k c => k * c < 2 ^ 64) ds.cells
      ds.chunkShape.toList)
    (hx : InBox ds.shape.toList x) : FindsChunk b ds x := by
  have hcell := cellOf_inBox hpos (by simp) hx
  have hlen : ds.chunks.length = ds.cells.prod := by
    simpa using congrArg List.length hgrid
  have hlt : rank ds.cells (cellOf ds.chunkShape.toList x) < ds.chunks.length :=
    hlen ▸ rank_lt hcell
  have hat := fun j hj => contains_at (b := b) hpos hgrid hends hx (j := j) hj
  refine ⟨ds.chunks.take (rank ds.cells (cellOf ds.chunkShape.toList x)),
    ds.chunks[rank ds.cells (cellOf ds.chunkShape.toList x)],
    ds.chunks.drop (rank ds.cells (cellOf ds.chunkShape.toList x) + 1),
    ?_, ?_, ?_, ?_, ?_⟩
  · rw [List.getElem_cons_drop, List.take_append_drop]
  · rw [Dataset.chunkAtCoord_eq hreduced hscaled hfit
      (by simpa using hx.length_eq) hcell, List.getElem?_eq_getElem hlt]
  · rw [hat _ hlt, Nat.compare_eq_eq.mpr rfl]
  · intro p hp
    obtain ⟨j, hj, rfl⟩ := List.mem_take_iff_getElem.mp hp
    rw [hat, Nat.compare_eq_gt.mpr (by omega)]
  · intro p hp
    obtain ⟨j, hj, rfl⟩ := List.mem_drop_iff_getElem.mp hp
    rw [hat, Nat.compare_eq_lt.mpr (by omega)]

end Complete

/-! ## An incomplete grid -/

theorem cell_of_containsFrom {cs g p : List Nat}
    (hcs : ∀ c ∈ cs, 1 ≤ c ∧ c < 2 ^ 64) (hg : g.length = cs.length)
    (hp : p.length = cs.length) (hwords : ∀ o ∈ cellOffset cs g, o < 2 ^ 64)
    (h : containsFrom b (cellOffset cs g) (cellOffset cs p) cs = .ok .eq) :
    p = g ∧ List.Forall₂ (fun o c => (o + 1) * c < 2 ^ 64) p cs := by
  induction cs generalizing g p with
  | nil =>
      obtain rfl := List.eq_nil_of_length_eq_zero hg
      obtain rfl := List.eq_nil_of_length_eq_zero hp
      exact ⟨rfl, .nil⟩
  | cons c cs ih =>
      obtain ⟨o, g, rfl⟩ := List.exists_cons_of_length_eq_add_one hg
      obtain ⟨q, p, rfl⟩ := List.exists_cons_of_length_eq_add_one hp
      obtain ⟨hc, hcs⟩ := List.forall_mem_cons.mp hcs
      change ∀ w ∈ o * c :: cellOffset cs g, w < 2 ^ 64 at hwords
      obtain ⟨ho, htail⟩ := List.forall_mem_cons.mp hwords
      change containsFrom b (o * c :: cellOffset cs g)
        (q * c :: cellOffset cs p) (c :: cs) = .ok .eq at h
      rw [containsFrom] at h
      split at h
      · cases h
      · rename_i hge
        obtain ⟨stop, hstop, hrest⟩ := bind_eq_ok.mp h
        split at hrest
        · cases hrest
        · rename_i hlt
          have hend : stop = o * c + c ∧ o * c + c < 2 ^ 64 := by
            unfold addU64 at hstop
            split at hstop
            · cases hstop
              exact ⟨rfl, ‹_›⟩
            · cases b
              · cases hstop
              · cases hstop
                omega
          obtain ⟨rfl, hfit⟩ := hend
          have hle : o ≤ q := Nat.le_of_mul_le_mul_right (Nat.le_of_not_lt hge) hc.1
          have hlt : q < o + 1 := Nat.lt_of_mul_lt_mul_right
            (a := c) (by rw [Nat.succ_mul]; omega)
          obtain rfl : q = o := by omega
          obtain ⟨rfl, hends⟩ := ih hcs (by simpa using hg) (by simpa using hp)
            htail hrest
          exact ⟨rfl, .cons (by rw [Nat.succ_mul]; exact hfit) hends⟩

theorem foldlM_mulU64_lt {xs : List Nat} {p acc : Nat} (hacc : acc < 2 ^ 64)
    (h : xs.foldlM (mulU64 b) acc = .ok p) : p < 2 ^ 64 := by
  induction xs generalizing acc with
  | nil =>
      cases h
      exact hacc
  | cons x xs ih =>
      rw [List.foldlM_cons] at h
      obtain ⟨q, hq, h⟩ := bind_eq_ok.mp h
      refine ih ?_ h
      rw [mulU64_mod hq]
      exact Nat.mod_lt _ (by decide)

/-! ## When `Dataset::new` returns -/

theorem exists_mulU64_iff {x y : Nat} :
    (∃ z, mulU64 b x y = .ok z) ↔ b = .release ∨ x * y < 2 ^ 64 := by
  unfold mulU64
  split
  · exact iff_of_true ⟨_, rfl⟩ (.inr ‹_›)
  · cases b
    · refine iff_of_false nofun ?_
      rintro (h | h)
      · cases h
      · contradiction
    · exact iff_of_true ⟨_, rfl⟩ (.inl rfl)

theorem scanFits_cons {x : Nat} {xs : List Nat} :
    ScanFits b (x :: xs) ↔ ScanFits b xs ∧ (b = .release ∨ xs.prod * x < 2 ^ 64) := by
  unfold ScanFits
  rw [List.tails_cons, List.forall_mem_cons, List.prod_cons, Nat.mul_comm x]
  tauto

theorem exists_revScan_iff {xs : List Nat} :
    (∃ r, revScan b xs = .ok r) ↔ ScanFits b xs := by
  induction xs with
  | nil => exact iff_of_true ⟨_, rfl⟩ (.inr (by simp))
  | cons x xs ih =>
      rw [scanFits_cons, ← ih]
      -- where the last entries are multiplied, their product is exact or wrapped
      have hexact : ∀ q sizes, revScan b xs = .ok (q, sizes) →
          b = .release ∨ q = xs.prod := by
        intro q sizes hscan
        refine (ih.mp ⟨_, hscan⟩).imp_right fun hfits => ?_
        have hlt := hfits xs ((List.mem_tails _ _).mpr (List.suffix_refl xs))
        rw [(revScan_mod hscan).1, Nat.mod_eq_of_lt hlt]
      constructor
      · rintro ⟨r, h⟩
        obtain ⟨⟨q, sizes⟩, hscan, h⟩ := bind_eq_ok.mp h
        obtain ⟨p, hp, -⟩ := bind_eq_ok.mp h
        refine ⟨⟨_, hscan⟩, (hexact q sizes hscan).elim .inl ?_⟩
        rintro rfl
        exact exists_mulU64_iff.mp ⟨p, hp⟩
      · rintro ⟨⟨⟨q, sizes⟩, hscan⟩, hfit⟩
        obtain ⟨p, hp⟩ : ∃ p, mulU64 b q x = .ok p := by
          rw [exists_mulU64_iff]
          rcases hexact q sizes hscan with hrelease | rfl
          · exact .inl hrelease
          · exact hfit
        exact ⟨(p, q :: sizes), by simp [revScan, hscan, hp]⟩

/-- `Dataset::new` returns for a non-zero chunk shape and products that fit. -/
theorem Dataset.exists_new_iff {dtype : Datatype} {order : Filters.Order}
    {shape : List.Vector Nat D} {chunks : List (Chunk D)}
    {chunkShape : List.Vector Nat D} {shuffle : Bool} {gzip : Option Nat}
    (hpos : ∀ c ∈ chunkShape.toList, 1 ≤ c) :
    (∃ ds, Dataset.new b dtype order shape chunks chunkShape shuffle gzip =
      .ok ds) ↔ NewFits b shape.toList chunkShape.toList := by
  unfold NewFits
  rw [← exists_revScan_iff, ← exists_revScan_iff, ← exists_revScan_iff]
  constructor
  · rintro ⟨ds, h⟩
    unfold Dataset.new at h
    obtain ⟨_, -, h⟩ := bind_eq_ok.mp h
    obtain ⟨_, -, h⟩ := bind_eq_ok.mp h
    obtain ⟨scaled, hscaled, h⟩ := bind_eq_ok.mp h
    obtain ⟨_, -, h⟩ := bind_eq_ok.mp h
    obtain ⟨dims, hdims, h⟩ := bind_eq_ok.mp h
    obtain ⟨_, -, h⟩ := bind_eq_ok.mp h
    obtain ⟨chunkDims, hchunkDims, -⟩ := bind_eq_ok.mp h
    exact ⟨⟨scaled, hscaled⟩, ⟨dims, hdims⟩, ⟨chunkDims, hchunkDims⟩⟩
  · rintro ⟨⟨⟨p, scaled⟩, hscaled⟩, ⟨⟨q, dims⟩, hdims⟩, ⟨r, chunkDims⟩,
      hchunkDims⟩
    have hlen := length_revScan hscaled
    have hlenDims := length_revScan hdims
    have hlenChunk := length_revScan hchunkDims
    simp only [cellCounts, List.length_zipWith, List.Vector.toList_length, min_self]
      at hlen hlenDims hlenChunk
    exact ⟨_, bind_eq_ok.mpr ⟨_, mapM_new hpos, bind_eq_ok.mpr
      ⟨_, tryInto_eq (by simp), bind_eq_ok.mpr ⟨_, hscaled, bind_eq_ok.mpr
      ⟨_, tryInto_eq hlen, bind_eq_ok.mpr ⟨_, hdims, bind_eq_ok.mpr
      ⟨_, tryInto_eq hlenDims, bind_eq_ok.mpr ⟨_, hchunkDims, bind_eq_ok.mpr
      ⟨_, tryInto_eq hlenChunk, rfl⟩⟩⟩⟩⟩⟩⟩⟩⟩

theorem cell_of_findsChunks {shape chunkShape : List.Vector Nat D}
    {chunks : List (Chunk D)} (h : Reported shape chunkShape chunks)
    (hfinds : FindsChunks b shape chunkShape chunks) {p : List Nat}
    (hp : InBox (cellCounts shape.toList chunkShape.toList) p) :
    (∃ c ∈ chunks, c.offsetU64 = cellOffset chunkShape.toList p) ∧
      List.Forall₂ (fun o c => (o + 1) * c < 2 ^ 64) p chunkShape.toList := by
  obtain ⟨ds, hnew, hfound⟩ := hfinds (.uint 1) .le false none
  obtain ⟨hchunks, -, hshape, -, -⟩ := Dataset.new_fields h.chunk_pos hnew
  have hinside := cellOffset_inBox h.chunk_pos (by simp) hp
  obtain ⟨before, c, after, hsplit, -, hcontains, -, -⟩ := hfound _ hinside
  have hc : c ∈ chunks := by
    rw [← (sortChunks_perm chunks).mem_iff, ← hchunks, hsplit]
    simp
  obtain ⟨g, hg, hoffset⟩ := h.cell hc
  unfold Chunk.contains at hcontains
  obtain ⟨_, -, hcontains⟩ := bind_eq_ok.mp hcontains
  obtain ⟨_, -, hcontains⟩ := bind_eq_ok.mp hcontains
  rw [hoffset, hshape] at hcontains
  have hwords : ∀ o ∈ cellOffset chunkShape.toList g, o < 2 ^ 64 := by
    intro o ho
    rw [← hoffset] at ho
    obtain ⟨u, -, rfl⟩ := List.mem_map.mp ho
    exact u.get_lt
  obtain ⟨rfl, hends⟩ := cell_of_containsFrom
    (fun c hc => ⟨h.chunk_pos c hc, h.chunk_lt c hc⟩)
    (by simpa [cellCounts] using hg.length_eq)
    (by simpa [cellCounts] using hp.length_eq) hwords hcontains
  exact ⟨⟨c, hc, hoffset⟩, hends⟩

/-! ## When the chunks are found -/

theorem cellCounts_pos {shape cs : List Nat} (hcs : ∀ c ∈ cs, 1 ≤ c)
    (hshape : ∀ n ∈ shape, 1 ≤ n) : ∀ k ∈ cellCounts shape cs, 1 ≤ k := by
  intro k hk
  obtain ⟨n, hn, c, hc, rfl⟩ : ∃ n ∈ shape, ∃ c ∈ cs, divCeil n c = k := by
    obtain ⟨i, hi, rfl⟩ := List.getElem_of_mem hk
    simp only [cellCounts, List.length_zipWith, lt_min_iff] at hi
    exact ⟨_, List.getElem_mem hi.1, _, List.getElem_mem hi.2,
      (List.getElem_zipWith ..).symm⟩
  exact divCeil_pos (hcs c hc) (hshape n hn)

theorem ends_of_last {ks cs : List Nat} (hpos : ∀ k ∈ ks, 1 ≤ k)
    (h : List.Forall₂ (fun o c => (o + 1) * c < 2 ^ 64) (ks.map (· - 1)) cs) :
    List.Forall₂ (fun k c => k * c < 2 ^ 64) ks cs := by
  induction ks generalizing cs with
  | nil =>
      cases h
      exact .nil
  | cons k ks ih =>
      cases h with
      | cons hk hks =>
          obtain ⟨hone, hpos⟩ := List.forall_mem_cons.mp hpos
          rw [Nat.sub_add_cancel hone] at hk
          exact .cons hk (ih hpos hks)

theorem cells_fit_of_findsChunks {shape chunkShape : List.Vector Nat D}
    {chunks : List (Chunk D)} (h : Reported shape chunkShape chunks)
    (hproduct : productU64 b (cellCounts shape.toList chunkShape.toList) =
      .ok chunks.length)
    (hfinds : FindsChunks b shape chunkShape chunks) (hzero : 0 ∉ shape.toList) :
    (cellCounts shape.toList chunkShape.toList).prod < 2 ^ 64 ∧
      List.Forall₂ (fun k c => k * c < 2 ^ 64)
        (cellCounts shape.toList chunkShape.toList) chunkShape.toList := by
  have hcells := fun p hp => cell_of_findsChunks h hfinds (p := p) hp
  have hpos := cellCounts_pos h.chunk_pos fun n hn =>
    Nat.one_le_iff_ne_zero.mpr fun hn0 => hzero (hn0 ▸ hn)
  refine ⟨?_, ?_⟩
  · exact (h.prod_le_length fun g hg => (hcells g hg).1).trans_lt
      (foldlM_mulU64_lt (by decide) hproduct)
  · refine ends_of_last hpos (hcells _ ?_).2
    rw [InBox, List.forall₂_map_left_iff, List.forall₂_same]
    exact fun k hk => Nat.sub_lt (hpos k hk) Nat.one_pos

theorem findsChunk_of_cells_fit {shape chunkShape : List.Vector Nat D}
    {chunks : List (Chunk D)} (h : Reported shape chunkShape chunks)
    (hproduct : productU64 b (cellCounts shape.toList chunkShape.toList) =
      .ok chunks.length)
    (hprod : (cellCounts shape.toList chunkShape.toList).prod < 2 ^ 64)
    (hends : List.Forall₂ (fun k c => k * c < 2 ^ 64)
      (cellCounts shape.toList chunkShape.toList) chunkShape.toList)
    {dtype : Datatype} {order : Filters.Order} {shuffle : Bool} {gzip : Option Nat}
    {ds : Dataset D}
    (hnew : Dataset.new b dtype order shape (sortChunks chunks) chunkShape shuffle gzip =
      .ok ds) {x : List Nat} (hx : InBox shape.toList x) :
    FindsChunk b ds x := by
  have hpos := (cellOf_inBox h.chunk_pos (by simp) hx).pos
  have hfit := fitsU64_of_prod_lt hpos hprod
  have hlen : chunks.length = (cellCounts shape.toList chunkShape.toList).prod :=
    (Except.ok.inj ((productU64_eq hfit).symm.trans hproduct)).symm
  obtain ⟨hchunks, rfl, rfl, hreduced, p, hscaled⟩ := Dataset.new_fields h.chunk_pos hnew
  obtain ⟨-, hstrides⟩ :=
    Prod.mk.inj (Except.ok.inj ((revScan_eq hfit).symm.trans hscaled))
  refine findsChunk_of_grid h.chunk_pos hreduced hstrides.symm ?_ hprod hends hx
  rw [hchunks]
  exact h.offsets_eq hlen

/--
The chunk of every coordinate is found exactly where `Dataset::new` returns and
the shape is empty, or the number of cells and the end of every last chunk are
words.
-/
theorem findsChunks_iff (b : Build) {shape chunkShape : List.Vector Nat D}
    {chunks : List (Chunk D)} (h : Reported shape chunkShape chunks)
    (hcount : Dataset.expectedChunks b shape chunkShape = .ok chunks.length) :
    FindsChunks b shape chunkShape chunks ↔
      NewFits b shape.toList chunkShape.toList ∧
        (0 ∈ shape.toList ∨
          (cellCounts shape.toList chunkShape.toList).prod < 2 ^ 64 ∧
            List.Forall₂ (fun k c => k * c < 2 ^ 64)
              (cellCounts shape.toList chunkShape.toList) chunkShape.toList) := by
  have hproduct := (expectedChunks_of_pos h.chunk_pos).symm.trans hcount
  constructor
  · intro hfinds
    obtain ⟨ds, hnew, -⟩ := hfinds (.uint 1) .le false none
    refine ⟨(Dataset.exists_new_iff h.chunk_pos).mp ⟨ds, hnew⟩, ?_⟩
    by_cases hzero : 0 ∈ shape.toList
    · exact .inl hzero
    · exact .inr (cells_fit_of_findsChunks h hproduct hfinds hzero)
  · rintro ⟨hreturns, hfits⟩ dtype order shuffle gzip
    obtain ⟨ds, hnew⟩ := (Dataset.exists_new_iff h.chunk_pos).mpr hreturns
    refine ⟨ds, hnew, fun x hx => ?_⟩
    rcases hfits with hzero | ⟨hprod, hends⟩
    · exact absurd (hx.pos 0 hzero) (by decide)
    · exact findsChunk_of_cells_fit h hproduct hprod hends hnew hx

theorem findsChunks_iff_line :
    FindsChunks (D := 1) .debug ⟨[3], rfl⟩ ⟨[2], rfl⟩
        [⟨ULE.new 40, ULE.new 8, ⟨[ULE.new 2], rfl⟩⟩,
          ⟨ULE.new 80, ULE.new 8, ⟨[ULE.new 0], rfl⟩⟩] ↔
      NewFits .debug [3] [2] ∧ (0 ∈ [3] ∨ (cellCounts [3] [2]).prod < 2 ^ 64 ∧
        List.Forall₂ (fun k c => k * c < 2 ^ 64) (cellCounts [3] [2]) [2]) :=
  findsChunks_iff .debug
    { shape_lt := by decide
      chunk_pos := by decide
      chunk_lt := by decide
      distinct := by decide
      aligned := by decide
      inside := by decide } rfl

/--
The number of cells is `2 ^ 64`, which a release build takes for zero: a
dataset without any chunk is accepted, and no coordinate is found.  Of one chunk
with as many values a debug build does not make a dataset.
-/
theorem not_findsChunks_unallocated :
    (Reported (D := 2) ⟨[2 ^ 32, 2 ^ 32], rfl⟩ ⟨[1, 1], rfl⟩ [] ∧
      Dataset.expectedChunks (D := 2) .release ⟨[2 ^ 32, 2 ^ 32], rfl⟩
        ⟨[1, 1], rfl⟩ = .ok 0 ∧
      ¬ FindsChunks (D := 2) .release ⟨[2 ^ 32, 2 ^ 32], rfl⟩ ⟨[1, 1], rfl⟩
        []) ∧
    Reported (D := 2) ⟨[2 ^ 32, 2 ^ 32], rfl⟩ ⟨[2 ^ 32, 2 ^ 32], rfl⟩
        [⟨ULE.new 40, ULE.new 8, ⟨[ULE.new 0, ULE.new 0], rfl⟩⟩] ∧
      Dataset.expectedChunks (D := 2) .debug ⟨[2 ^ 32, 2 ^ 32], rfl⟩
        ⟨[2 ^ 32, 2 ^ 32], rfl⟩ = .ok 1 ∧
      ¬ FindsChunks (D := 2) .debug ⟨[2 ^ 32, 2 ^ 32], rfl⟩
        ⟨[2 ^ 32, 2 ^ 32], rfl⟩
        [⟨ULE.new 40, ULE.new 8, ⟨[ULE.new 0, ULE.new 0], rfl⟩⟩] := by
  refine ⟨⟨⟨by decide, by decide, by decide, by decide, by decide, by decide⟩, rfl,
    fun hfinds => ?_⟩, ⟨by decide, by decide, by decide, by decide, by decide,
    by decide⟩, rfl, fun hfinds => ?_⟩
  · obtain ⟨ds, hnew, hfound⟩ := hfinds (.uint 1) .le false none
    obtain ⟨hchunks, -⟩ := Dataset.new_fields (by decide) hnew
    obtain ⟨before, c, after, hsplit, -⟩ :=
      hfound [0, 0] (.cons (by decide) (.cons (by decide) .nil))
    rw [hchunks] at hsplit
    simp [sortChunks] at hsplit
  · obtain ⟨ds, hnew, -⟩ := hfinds (.uint 1) .le false none
    cases hnew

end Hidefix.Idx
