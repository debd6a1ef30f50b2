import Hidefix.Idx.Grid

/-!
# Well-formed datasets

A well-formed dataset holds one chunk for each cell of the grid, in the order
of `Chunk::cmp`, and the sizes derived from its shapes.  There `chunk_at_coord`
finds the chunk of a coordinate by the number of its cell.
-/

namespace Hidefix.Idx

open MixedRadix
open Foundation

variable {D : Nat} {b : Build}

namespace Dataset

def cells (ds : Dataset D) : List Nat :=
  cellCounts ds.shape.toList ds.chunkShape.toList

structure Derived (ds : Dataset D) : Prop where
  dsize : ds.dsize = ds.dtype.dsize
  reduced : ds.chunkShapeReduced.toList.map StrengthReducedU64.get =
    ds.chunkShape.toList
  scaled : ds.scaledDimSz.toList = strides ds.cells
  dimSz : ds.dimSz.toList = strides ds.shape.toList
  chunkDimSz : ds.chunkDimSz.toList = strides ds.chunkShape.toList

/-- The products that the crate forms of a dataset's sizes are words. -/
structure Fits (ds : Dataset D) : Prop where
  shape : FitsU64 (ds.shape.toList ++ [ds.dsize])
  chunk : FitsU64 (ds.chunkShape.toList ++ [ds.dsize])
  cells : FitsU64 ds.cells
  ends : List.Forall₂ (fun k c => k * c < 2 ^ 64) ds.cells ds.chunkShape.toList

theorem Fits.of_prod_lt {ds : Dataset D}
    (hshape : ∀ n ∈ ds.shape.toList ++ [ds.dsize], 1 ≤ n)
    (hchunk : ∀ c ∈ ds.chunkShape.toList ++ [ds.dsize], 1 ≤ c)
    (hshapeProd : (ds.shape.toList ++ [ds.dsize]).prod < 2 ^ 64)
    (hchunkProd : (ds.chunkShape.toList ++ [ds.dsize]).prod < 2 ^ 64)
    (hcells : ∀ k ∈ ds.cells, 1 ≤ k) (hcellsProd : ds.cells.prod < 2 ^ 64)
    (hends : List.Forall₂ (fun k c => k * c < 2 ^ 64) ds.cells
      ds.chunkShape.toList) : ds.Fits :=
  ⟨fitsU64_of_prod_lt hshape hshapeProd, fitsU64_of_prod_lt hchunk hchunkProd,
    fitsU64_of_prod_lt hcells hcellsProd, hends⟩

structure WellFormed (ds : Dataset D) : Prop where
  chunk_pos : ∀ c ∈ ds.chunkShape.toList, 1 ≤ c
  derived : ds.Derived
  fits : ds.Fits
  sorted : ds.chunks.Pairwise fun c other => c.cmp other = .lt
  aligned : ∀ c ∈ ds.chunks, ∃ g, InBox ds.cells g ∧
    c.offsetU64 = cellOffset ds.chunkShape.toList g
  complete : ∀ g, InBox ds.cells g → ∃ c ∈ ds.chunks,
    c.offsetU64 = cellOffset ds.chunkShape.toList g
  addr_nodup : (ds.chunks.map Chunk.addr).Nodup

@[simp] theorem length_cells (ds : Dataset D) : ds.cells.length = D := by
  simp [cells, cellCounts]

end Dataset

/-! ## The scan of suffix products -/

theorem revScan_eq {xs : List Nat} (h : FitsU64 xs) :
    revScan b xs = .ok (xs.prod, strides xs) := by
  induction xs with
  | nil => rfl
  | cons x xs ih =>
      have htail : FitsU64 xs := h.sublist (List.sublist_cons_self x xs)
      have hprod := h.prod_lt
      rw [List.prod_cons, Nat.mul_comm] at hprod
      rw [revScan, ih htail, ok_bind]
      simp only [mulU64_eq hprod, ok_bind, List.prod_cons, strides]
      rw [Nat.mul_comm]

theorem length_revScan {xs sizes : List Nat} {p : Nat}
    (h : revScan b xs = .ok (p, sizes)) : sizes.length = xs.length := by
  induction xs generalizing p sizes with
  | nil =>
      cases h
      rfl
  | cons x xs ih =>
      rw [revScan] at h
      obtain ⟨⟨q, tail⟩, htail, h⟩ := bind_eq_ok.mp h
      obtain ⟨p', -, h⟩ := bind_eq_ok.mp h
      cases h
      simp [ih htail]

theorem revScan_mod {xs sizes : List Nat} {p : Nat}
    (h : revScan b xs = .ok (p, sizes)) :
    p = xs.prod % 2 ^ 64 ∧ sizes = (strides xs).map (· % 2 ^ 64) := by
  induction xs generalizing p sizes with
  | nil =>
      cases h
      exact ⟨rfl, rfl⟩
  | cons x xs ih =>
      rw [revScan] at h
      rcases bind_eq_ok.mp h with ⟨⟨q, tail⟩, htail, h⟩
      rcases bind_eq_ok.mp h with ⟨p', hp', h⟩
      cases h
      rcases ih htail with ⟨rfl, rfl⟩
      refine ⟨?_, rfl⟩
      rw [mulU64_mod hp', List.prod_cons, Nat.mod_mul_mod, Nat.mul_comm]

theorem mapM_new {xs : List Nat} (h : ∀ x ∈ xs, 1 ≤ x) :
    xs.mapM StrengthReducedU64.new = .ok (xs.map StrengthReducedU64.reduced) := by
  refine mapM_ok _ _ _ fun x hx => ?_
  rw [StrengthReducedU64.new_eq (h x hx)]
  exact congrArg _ (StrengthReducedU64.eq_of_get
    (StrengthReducedU64.get_reduced (h x hx)).symm)

theorem map_get_reduced {xs : List Nat} (h : ∀ x ∈ xs, 1 ≤ x) :
    (xs.map StrengthReducedU64.reduced).map StrengthReducedU64.get = xs := by
  rw [List.map_map]
  conv_rhs => rw [← List.map_id xs]
  exact List.map_congr_left fun x hx => StrengthReducedU64.get_reduced (h x hx)

theorem tryInto_toList {α : Type} {xs : List α} {v : List.Vector α D}
    (h : tryInto D xs = .ok v) : v.toList = xs := by
  unfold tryInto at h
  split at h
  · cases h
    rfl
  · cases h

theorem Dataset.new_fields {dtype : Datatype} {order : Filters.Order}
    {shape chunkShape : List.Vector Nat D} {chunks : List (Chunk D)}
    {shuffle : Bool} {gzip : Option Nat} {ds : Dataset D}
    (hpos : ∀ c ∈ chunkShape.toList, 1 ≤ c)
    (h : Dataset.new b dtype order shape chunks chunkShape shuffle gzip =
      .ok ds) :
    ds.chunks = chunks ∧ ds.shape = shape ∧ ds.chunkShape = chunkShape ∧
      ds.chunkShapeReduced.toList.map StrengthReducedU64.get =
        chunkShape.toList ∧
      (∃ p, revScan b (cellCounts shape.toList chunkShape.toList) =
        .ok (p, ds.scaledDimSz.toList)) := by
  unfold Dataset.new at h
  rw [mapM_new hpos, ok_bind] at h
  obtain ⟨reduced, hreduced, h⟩ := bind_eq_ok.mp h
  obtain ⟨⟨p, scaled⟩, hscaled, h⟩ := bind_eq_ok.mp h
  obtain ⟨scaledV, hscaledV, h⟩ := bind_eq_ok.mp h
  obtain ⟨dims, -, h⟩ := bind_eq_ok.mp h
  obtain ⟨dimsV, -, h⟩ := bind_eq_ok.mp h
  obtain ⟨chunkDims, -, h⟩ := bind_eq_ok.mp h
  obtain ⟨chunkDimsV, -, h⟩ := bind_eq_ok.mp h
  cases h
  refine ⟨rfl, rfl, rfl, ?_, p, ?_⟩
  · rw [tryInto_toList hreduced, map_get_reduced hpos]
  · rw [tryInto_toList hscaledV]
    exact hscaled

theorem Dataset.new_chunkDimSz {dtype : Datatype} {order : Filters.Order}
    {shape chunkShape : List.Vector Nat D} {chunks : List (Chunk D)}
    {shuffle : Bool} {gzip : Option Nat} {ds : Dataset D}
    (h : Dataset.new b dtype order shape chunks chunkShape shuffle gzip =
      .ok ds) :
    ds.chunkShape = chunkShape ∧
      ∃ p, revScan b chunkShape.toList = .ok (p, ds.chunkDimSz.toList) := by
  unfold Dataset.new at h
  rcases bind_eq_ok.mp h with ⟨reduced, -, h⟩
  rcases bind_eq_ok.mp h with ⟨reducedV, -, h⟩
  rcases bind_eq_ok.mp h with ⟨scaled, -, h⟩
  rcases bind_eq_ok.mp h with ⟨scaledV, -, h⟩
  rcases bind_eq_ok.mp h with ⟨dims, -, h⟩
  rcases bind_eq_ok.mp h with ⟨dimsV, -, h⟩
  rcases bind_eq_ok.mp h with ⟨⟨p, chunkDims⟩, hchunkDims, h⟩
  rcases bind_eq_ok.mp h with ⟨chunkDimsV, hchunkDimsV, h⟩
  cases h
  refine ⟨rfl, p, ?_⟩
  rw [tryInto_toList hchunkDimsV]
  exact hchunkDims

/-! ## Finding a chunk -/

theorem sum_cellOf_mul (ks cs sizes x : List Nat)
    (reduced : List StrengthReducedU64)
    (hreduced : reduced.map StrengthReducedU64.get = cs)
    (hsizes : sizes = strides ks) :
    ((x.zip (reduced.zip sizes)).map fun p => p.1 / p.2.1.get * p.2.2).sum =
      rank ks (cellOf cs x) := by
  subst hreduced hsizes
  rw [← sum_mul_strides, cellOf]
  induction x generalizing reduced ks with
  | nil => simp
  | cons i x ih =>
      cases reduced with
      | nil => simp
      | cons c reduced =>
          cases ks with
          | nil => simp [strides]
          | cons k ks => simp [strides, ih]

theorem Dataset.chunkAtCoord_eq {ds : Dataset D} {x : List Nat}
    (hreduced : ds.chunkShapeReduced.toList.map StrengthReducedU64.get =
      ds.chunkShape.toList)
    (hscaled : ds.scaledDimSz.toList = strides ds.cells)
    (hfit : ds.cells.prod < 2 ^ 64) (hlen : x.length = D)
    (hx : InBox ds.cells (cellOf ds.chunkShape.toList x)) :
    ds.chunkAtCoord b x =
      match ds.chunks[rank ds.cells (cellOf ds.chunkShape.toList x)]? with
      | some chunk => .ok chunk
      | none => panicWith .index := by
  have hsum := sum_cellOf_mul ds.cells _ _ x _ hreduced hscaled
  have hlt := (rank_lt hx).trans hfit
  have hfold := foldlM_addU64 (b := b)
    (fun p : Nat × StrengthReducedU64 × Nat =>
      mulU64 b (p.1 / p.2.1.get) p.2.2)
    (fun p => p.1 / p.2.1.get * p.2.2)
    (x.zip (ds.chunkShapeReduced.toList.zip ds.scaledDimSz.toList)) 0
    (fun p hp => mulU64_eq ((List.single_le_sum (by simp) _
      (List.mem_map_of_mem hp)).trans_lt (hsum ▸ hlt)))
    (by rw [Nat.zero_add, hsum]; exact hlt)
  rw [Nat.zero_add, hsum] at hfold
  unfold Dataset.chunkAtCoord
  simp only [StrengthReducedU64.div_eq]
  rw [debugAssert_of (by simpa using hlen), ok_bind,
    debugAssert_of (by simpa using hlen), ok_bind]
  exact congrArg (· >>= _) hfold

theorem Chunk.contains_eq {ks cs x g : List Nat} {c : Chunk D}
    (hc : c.offsetU64 = cellOffset cs g) (hcs : ∀ c ∈ cs, 1 ≤ c)
    (hks : ks.length = D) (hlen : cs.length = D) (hxlen : x.length = D)
    (hx : InBox ks (cellOf cs x)) (hg : InBox ks g)
    (hfit : List.Forall₂ (fun k c => k * c < 2 ^ 64) ks cs) :
    c.contains b x cs = .ok (compare (rank ks (cellOf cs x)) (rank ks g)) := by
  unfold Chunk.contains
  rw [assertThat_of (by omega), ok_bind, assertThat_of (by simpa using hxlen),
    ok_bind, hc]
  exact containsFrom_cellOffset hcs (by omega) hx (by omega) hg hfit

namespace Dataset.WellFormed

variable {ds : Dataset D}

theorem offsets_eq (h : ds.WellFormed) :
    ds.chunks.map Chunk.offsetU64 =
      (rowMajor ds.cells).map (cellOffset ds.chunkShape.toList) := by
  refine offsets_eq_rowMajor h.chunk_pos (by simp) ?_ fun o => ?_
  · rw [List.pairwise_map]
    exact h.sorted
  · rw [List.mem_map]
    constructor
    · rintro ⟨c, hc, rfl⟩
      exact h.aligned c hc
    · rintro ⟨g, hg, rfl⟩
      exact h.complete g hg

theorem of_grid (hpos : ∀ c ∈ ds.chunkShape.toList, 1 ≤ c)
    (hderived : ds.Derived) (hfits : ds.Fits)
    (hgrid : ds.chunks.map Chunk.offsetU64 =
      (rowMajor ds.cells).map (cellOffset ds.chunkShape.toList))
    (haddr : (ds.chunks.map Chunk.addr).Nodup) : ds.WellFormed where
  chunk_pos := hpos
  derived := hderived
  fits := hfits
  sorted := by
    have hlen : ds.chunkShape.toList.length = ds.cells.length := by simp
    have hpairs := grid_pairwise hpos hlen
    rw [← hgrid, List.pairwise_map] at hpairs
    exact hpairs
  aligned := by
    intro c hc
    have hmem := List.mem_map.mpr ⟨c, hc, Eq.refl c.offsetU64⟩
    rw [hgrid] at hmem
    obtain ⟨g, hg, hoffset⟩ := List.mem_map.mp hmem
    exact ⟨g, mem_rowMajor.mp hg, hoffset.symm⟩
  complete := by
    intro g hg
    have hmem := List.mem_map.mpr
      ⟨g, mem_rowMajor.mpr hg, Eq.refl (cellOffset ds.chunkShape.toList g)⟩
    rw [← hgrid] at hmem
    obtain ⟨c, hc, hoffset⟩ := List.mem_map.mp hmem
    exact ⟨c, hc, hoffset⟩
  addr_nodup := haddr

/-- Every coordinate of the dataset lies in one chunk, which is found. -/
theorem chunkAtCoord_eq (h : ds.WellFormed) {x : List Nat}
    (hx : InBox ds.shape.toList x) :
    ∃ c ∈ ds.chunks, (∀ b, ds.chunkAtCoord b x = .ok c) ∧
      c.offsetU64 =
        cellOffset ds.chunkShape.toList (cellOf ds.chunkShape.toList x) := by
  have hcell := cellOf_inBox h.chunk_pos (by simp) hx
  have hlen : x.length = D := by simpa using hx.length_eq
  have hlt := rank_lt hcell
  have hrow : (rowMajor ds.cells)[rank ds.cells
      (cellOf ds.chunkShape.toList x)]? = some (cellOf ds.chunkShape.toList x) := by
    rw [List.getElem?_eq_getElem (by rw [length_rowMajor]; exact hlt),
      getElem_rowMajor]
    exact congrArg some (unrank_rank hcell)
  have hget := congrArg (fun l : List (List Nat) =>
    l[rank ds.cells (cellOf ds.chunkShape.toList x)]?) h.offsets_eq
  simp only [List.getElem?_map, hrow] at hget
  obtain ⟨c, hc, hoffset⟩ := Option.map_eq_some_iff.mp hget
  refine ⟨c, List.mem_of_getElem? hc, fun b => ?_, hoffset⟩
  rw [Dataset.chunkAtCoord_eq h.derived.reduced h.derived.scaled
    h.fits.cells.prod_lt hlen hcell]
  change (match ds.chunks[rank ds.cells _]? with | some c => _ | none => _) = _
  rw [hc]

theorem contains_eq (h : ds.WellFormed) {x : List Nat}
    (hx : InBox ds.shape.toList x) {c : Chunk D}
    (hc : c.offsetU64 =
      cellOffset ds.chunkShape.toList (cellOf ds.chunkShape.toList x)) :
    c.contains b x ds.chunkShape.toList = .ok .eq := by
  have hcell := cellOf_inBox h.chunk_pos (by simp) hx
  rw [Chunk.contains_eq hc h.chunk_pos ds.length_cells (by simp)
    (by simpa using hx.length_eq) hcell hcell h.fits.ends]
  exact congrArg _ (Nat.compare_eq_eq.mpr rfl)

/-! ## The size of a chunk -/

theorem chunkBytes_lt (h : ds.WellFormed) :
    ds.chunkShape.toList.prod * ds.dsize < 2 ^ 64 := by
  have hfits := h.fits.chunk.prod_lt
  rwa [List.prod_append, List.prod_singleton] at hfits

theorem chunkBytes_eq (h : ds.WellFormed) :
    ds.chunkBytes b = .ok (ds.chunkShape.toList.prod * ds.dsize) := by
  rw [Dataset.chunkBytes, productU64_eq
    (h.fits.chunk.sublist (List.sublist_append_left _ _)), ok_bind,
    mulU64_eq h.chunkBytes_lt]

end Dataset.WellFormed

/-! ## Four chunks -/

def tiles : Dataset 2 where
  dtype := .uint 1
  dsize := 1
  order := .le
  chunks := [⟨.new 64, .new 4, .new 0 ::ᵥ .new 0 ::ᵥ .nil⟩,
    ⟨.new 68, .new 4, .new 0 ::ᵥ .new 2 ::ᵥ .nil⟩,
    ⟨.new 72, .new 4, .new 2 ::ᵥ .new 0 ::ᵥ .nil⟩,
    ⟨.new 76, .new 4, .new 2 ::ᵥ .new 2 ::ᵥ .nil⟩]
  shape := 3 ::ᵥ 4 ::ᵥ .nil
  chunkShape := 2 ::ᵥ 2 ::ᵥ .nil
  chunkShapeReduced := 2 ::ᵥ 2 ::ᵥ .nil
  scaledDimSz := 2 ::ᵥ 1 ::ᵥ .nil
  dimSz := 4 ::ᵥ 1 ::ᵥ .nil
  chunkDimSz := 2 ::ᵥ 1 ::ᵥ .nil
  shuffle := false
  gzip := none

example : tiles.WellFormed :=
  .of_grid (by decide) ⟨rfl, rfl, rfl, rfl, rfl⟩
    (.of_prod_lt (by decide) (by decide) (by decide) (by decide) (by decide)
      (by decide) (.cons (by decide) (.cons (by decide) .nil)))
    (by decide) (by decide)

end Hidefix.Idx
