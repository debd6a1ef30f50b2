import Hidefix.Slices.Selection

/-!
# The slices cover the selection

Expanding the slices that `chunk_slices` yields into single positions gives
the walk over the selected coordinates in row-major order, each located in its
chunk, exactly for the selections that the dimension loop folds correctly.
-/

namespace Hidefix.Slices

open MixedRadix
open Foundation
open Idx

variable {D : Nat} {b : Build}

def expand (items : List (Item D)) : List (Chunk D × Nat) :=
  items.flatMap fun (c, start, stop) =>
    (List.range' start (stop - start)).map fun p => (c, p)

def walk (ds : Dataset D) (e : Extents) : List (List Nat) :=
  (rowMajor (e.counts ds.shape.toList)).map
    (List.zipWith (· + ·) (e.starts ds.shape.toList))

structure Located (ds : Dataset D) (p : Chunk D × Nat) (x : List Nat) :
    Prop where
  mem : p.1 ∈ ds.chunks
  contains : List.Forall₂ (fun i r => r.1 ≤ i ∧ i < r.1 + r.2) x
    (p.1.offsetU64.zip ds.chunkShape.toList)
  position : p.2 = (List.zipWith (· * ·)
    (List.zipWith (· - ·) x p.1.offsetU64) ds.chunkDimSz.toList).sum

/-- The slices join up to the selection. -/
def YieldsSelection (b : Build) (ds : Dataset D) (e : Extents) : Prop :=
  ∃ fuel items, ds.collectSlices b fuel e = .ok items ∧
    List.Forall₂ (Located ds) (expand items) (walk ds e)

theorem expand_cons (c : Chunk D) (start n : Nat) (items : List (Item D)) :
    expand ((c, start, start + n) :: items) =
      (List.range n).map (fun i => (c, start + i)) ++ expand items := by
  simp [expand, List.range'_eq_map_range, Function.comp_def]

/-! ## Positions of the dataset -/

section Positions

variable {ds : List Dim} {os ps : List Nat}

theorem contains_iff (h : InBounds ds) (hos : os.length = ds.length)
    (hps : ps.length = ds.length) :
    List.Forall₂ (fun i r => r.1 ≤ i ∧ i < r.1 + r.2) (coordsOf ds ps)
        ((cellOffset (chunkShape ds) (cells ds os)).zip (chunkShape ds)) ↔
      cells ds ps = cells ds os := by
  induction ds generalizing os ps with
  | nil =>
      obtain rfl := List.eq_nil_of_length_eq_zero hos
      obtain rfl := List.eq_nil_of_length_eq_zero hps
      simp [coordsOf, cells, cellOffset]
  | cons d ds ih =>
      obtain ⟨o, os, rfl⟩ := List.exists_cons_of_length_eq_add_one hos
      obtain ⟨p, ps, rfl⟩ := List.exists_cons_of_length_eq_add_one hps
      have hcell := d.cell_mul_add_within p
      have hlt := Dim.within_lt h.head.1 p
      have hhead : (d.cell o * d.chunk ≤ d.start + p ∧
          d.start + p < d.cell o * d.chunk + d.chunk) ↔ d.cell p = d.cell o := by
        constructor
        · rintro ⟨hlo, hhi⟩
          exact Nat.div_eq_of_lt_le hlo (by rw [Nat.succ_mul]; exact hhi)
        · intro heq
          rw [← heq]
          omega
      rw [cells_cons, cells_cons, List.cons.injEq, ← hhead,
        ← ih h.tail (by simpa using hos) (by simpa using hps)]
      exact List.forall₂_cons

theorem position_eq (hcells : cells ds ps = cells ds os)
    (hps : ps.length = ds.length) :
    (List.zipWith (· * ·) (List.zipWith (· - ·) (coordsOf ds ps)
      (cellOffset (chunkShape ds) (cells ds os)))
      (strides (chunkShape ds))).sum = place ds ps := by
  have hsub : List.zipWith (· - ·) (coordsOf ds ps)
      (cellOffset (chunkShape ds) (cells ds os)) = withins ds ps := by
    rw [← hcells]
    clear hcells
    induction ds generalizing ps with
    | nil => simp [coordsOf, withins]
    | cons d ds ih =>
        obtain ⟨p, ps, rfl⟩ := List.exists_cons_of_length_eq_add_one hps
        have hcell := d.cell_mul_add_within p
        have hhead : d.start + p - d.cell p * d.chunk = d.within p := by omega
        exact congrArg₂ List.cons hhead (ih (by simpa using hps))
  rw [hsub, sum_mul_strides]
  rfl

end Positions

namespace Selects

variable {ds : Dataset D} {e : Extents} {os ps : List Nat}

theorem walk_eq (h : Selects ds e) :
    walk ds e = (rowMajor (counts (dims ds e))).map (coordsOf (dims ds e)) := by
  obtain ⟨-, -, hstart, hcount⟩ := dims_fields h.ranked
  rw [walk, ← hstart, ← hcount]
  refine List.map_congr_left fun os _ => ?_
  rw [coordsOf, starts, List.zipWith_map_left]

theorem located_iff (h : Selects ds e) (hwf : ds.WellFormed)
    (hos : InBox (counts (dims ds e)) os) (hps : InBox (counts (dims ds e)) ps)
    {c : Chunk D} (hc : c ∈ ds.chunks)
    (hoffset : c.offsetU64 =
      cellOffset (chunkShape (dims ds e)) (cells (dims ds e) os)) (n : Nat) :
    Located ds (c, n) (coordsOf (dims ds e) ps) ↔
      cells (dims ds e) ps = cells (dims ds e) os ∧ n = place (dims ds e) ps := by
  have hin := h.inBounds hwf
  have hchunk := (dims_fields h.ranked).2.1
  have hcontains := contains_iff hin (h.length_coords hos) (h.length_coords hps)
  rw [← hoffset, hchunk] at hcontains
  have hposition := fun hcells : cells (dims ds e) ps = cells (dims ds e) os =>
    position_eq hcells (h.length_coords hps)
  rw [← hoffset, hchunk, ← hwf.derived.chunkDimSz] at hposition
  constructor
  · rintro ⟨-, hin, hpos⟩
    have hcells := hcontains.mp hin
    exact ⟨hcells, hpos.trans (hposition hcells)⟩
  · rintro ⟨hcells, rfl⟩
    exact ⟨hc, hcontains.mpr hcells, (hposition hcells).symm⟩

end Selects

/-! ## The walk, run by run -/

def walkFrom (ds : Dataset D) (e : Extents) (r : Nat) : List (List Nat) :=
  (List.range' r ((counts (dims ds e)).prod - r)).map fun j =>
    coordsOf (dims ds e) (unrank (counts (dims ds e)) j)

theorem walkFrom_split (ds : Dataset D) (e : Extents) {r n : Nat}
    (h : r + n ≤ (counts (dims ds e)).prod) :
    walkFrom ds e r =
      (List.range n).map (fun i =>
        coordsOf (dims ds e) (unrank (counts (dims ds e)) (r + i))) ++
        walkFrom ds e (r + n) := by
  have hsplit : (counts (dims ds e)).prod - r =
      n + ((counts (dims ds e)).prod - (r + n)) := by omega
  rw [walkFrom, hsplit, ← List.range'_append_1, List.map_append,
    List.range'_eq_map_range, List.map_map]
  rfl

theorem walkFrom_end (ds : Dataset D) (e : Extents) :
    walkFrom ds e (counts (dims ds e)).prod = [] := by
  simp [walkFrom]

@[simp] theorem length_walkFrom (ds : Dataset D) (e : Extents) (r : Nat) :
    (walkFrom ds e r).length = (counts (dims ds e)).prod - r := by
  simp [walkFrom]

theorem getElem_walkFrom (ds : Dataset D) (e : Extents) (r i : Nat)
    (h : i < (walkFrom ds e r).length) :
    (walkFrom ds e r)[i] =
      coordsOf (dims ds e) (unrank (counts (dims ds e)) (r + i)) := by
  simp [walkFrom]

namespace Selects

variable {ds : Dataset D} {e : Extents} {os : List Nat}

theorem walk_eq_walkFrom (h : Selects ds e) : walk ds e = walkFrom ds e 0 := by
  rw [h.walk_eq, rowMajor_eq, walkFrom, List.map_map, Nat.sub_zero,
    List.range_eq_range']
  rfl

theorem located_run (h : Selects ds e) (hwf : ds.WellFormed)
    (hos : InBox (counts (dims ds e)) os) (hrs : RunStart (dims ds e) os)
    {c : Chunk D} (hc : c ∈ ds.chunks)
    (hoffset : c.offsetU64 =
      cellOffset (chunkShape (dims ds e)) (cells (dims ds e) os)) :
    List.Forall₂ (Located ds)
      ((List.range (runLen (dims ds e) os)).map fun i =>
        (c, place (dims ds e) os + i))
      ((List.range (runLen (dims ds e) os)).map fun i =>
        coordsOf (dims ds e) (unrank (counts (dims ds e))
          (rank (counts (dims ds e)) os + i))) := by
  have hin := h.inBounds hwf
  rw [List.forall₂_map_left_iff, List.forall₂_map_right_iff, List.forall₂_same]
  intro i hi
  have hi := List.mem_range.mp hi
  obtain ⟨hcells, hplace⟩ := run_contiguous hin hos hrs hi
  exact (h.located_iff hwf hos (advanceBy_inBox hin os i) hc hoffset _).mpr
    ⟨hcells, hplace.symm⟩

/-- At a run start that folds correctly, `next` yields the run. -/
theorem next_of_foldOk (h : Selects ds e) (hwf : ds.WellFormed) (hD : D ≠ 0)
    (hos : InBox (counts (dims ds e)) os) (hrs : RunStart (dims ds e) os)
    (hfold : FoldOk [] (dims ds e) os) :
    ∃ c ∈ ds.chunks,
      c.offsetU64 =
        cellOffset (chunkShape (dims ds e)) (cells (dims ds e) os) ∧
      ∀ b, (slicerAt ds e (rank (counts (dims ds e)) os) os).next b =
        .ok (some ((c, place (dims ds e) os,
            place (dims ds e) os + runLen (dims ds e) os),
          slicerAt ds e
            (rank (counts (dims ds e)) os + runLen (dims ds e) os)
            (advanceBy (dims ds e) os (runLen (dims ds e) os)))) := by
  have hin := h.inBounds hwf
  have hne : dims ds e ≠ [] := by
    intro hnil
    have := h.length_dims
    rw [hnil] at this
    exact hD this.symm
  obtain ⟨c, hc, hoffset, hnext⟩ := h.next_eq hwf hD hos
  refine ⟨c, hc, hoffset, fun b => ?_⟩
  have hlen : runLen (dims ds e) os > 0 := runLen_pos hin hos
  have hinside := place_add_runLen_le hin hos hrs
  have hchunk : (chunkShape (dims ds e)).prod < 2 ^ 64 := by
    rw [(dims_fields h.ranked).2.1]
    exact hwf.fits.chunk _ (List.sublist_append_left _ _)
  rw [hnext, foldAxes_of_foldOk hin hne (h.fits hwf) (h.prod_lt hwf) hos hrs
    hfold, ok_bind]
  simp only [debugAssert_of hlen, ok_bind]
  rw [addU64_eq (by omega), ok_bind, debugAssert_of hinside, ok_bind]

/-- From a run start on, the slices of a foldable selection are the walk. -/
theorem run_of_foldable (h : Selects ds e) (hwf : ds.WellFormed) (hD : D ≠ 0)
    (hfold : Foldable (dims ds e)) (hos : InBox (counts (dims ds e)) os)
    (hrs : RunStart (dims ds e) os) :
    ∃ fuel items,
      (slicerAt ds e (rank (counts (dims ds e)) os) os).run b fuel =
        (items, .exhausted) ∧
      List.Forall₂ (Located ds) (expand items)
        (walkFrom ds e (rank (counts (dims ds e)) os)) ∧
      ∀ item ∈ items, item.2.1 ≤ item.2.2 := by
  generalize hn : (counts (dims ds e)).prod - rank (counts (dims ds e)) os = n
  induction n using Nat.strong_induction_on generalizing os with
  | _ n ih =>
      have hin := h.inBounds hwf
      have hend := rank_add_runLen_le hin hos hrs
      have hlen := runLen_pos hin hos
      obtain ⟨c, hc, hoffset, hnext⟩ := h.next_of_foldOk hwf hD hos hrs
        (hfold os (mem_rowMajor.mpr hos) hrs)
      have hnext := hnext b
      have hrun := h.located_run hwf hos hrs hc hoffset
      have hrest : ∃ fuel items,
          (slicerAt ds e
            (rank (counts (dims ds e)) os + runLen (dims ds e) os)
            (advanceBy (dims ds e) os (runLen (dims ds e) os))).run b fuel =
              (items, .exhausted) ∧
          List.Forall₂ (Located ds) (expand items) (walkFrom ds e
            (rank (counts (dims ds e)) os + runLen (dims ds e) os)) ∧
          ∀ item ∈ items, item.2.1 ≤ item.2.2 := by
        rcases Nat.eq_or_lt_of_le hend with hlast | hmore
        · rw [hlast, walkFrom_end]
          exact ⟨1, [], ChunkSlicer.run_none (ChunkSlicer.next_end (le_refl _)),
            .nil, by simp⟩
        · have hrank : rank (counts (dims ds e)) (advanceBy (dims ds e) os
              (runLen (dims ds e) os)) =
                rank (counts (dims ds e)) os + runLen (dims ds e) os := by
            rw [advanceBy, rank_unrank, Nat.mod_eq_of_lt hmore]
          have hnext := ih _ (by omega) (advanceBy_inBox hin os _)
            (runStart_advanceBy_runLen hin hos hrs) rfl
          rwa [hrank] at hnext
      obtain ⟨fuel, items, hitems, hwalk, hle⟩ := hrest
      refine ⟨fuel + 1, (c, place (dims ds e) os,
        place (dims ds e) os + runLen (dims ds e) os) :: items, ?_, ?_, ?_⟩
      · rw [ChunkSlicer.run_some hnext, hitems]
      · rw [expand_cons, walkFrom_split ds e hend]
        exact List.rel_append hrun hwalk
      · intro item hitem
        rcases List.mem_cons.mp hitem with rfl | hitem
        · exact Nat.le_add_right _ _
        · exact hle item hitem

/-- A debug run that is not folded correctly has a first slice that is too long. -/
theorem first_long_of_not_foldOk (h : Selects ds e) (hwf : ds.WellFormed)
    (hD : D ≠ 0) {fuel : Nat} {items : List (Item D)}
    (hos : InBox (counts (dims ds e)) os) (hrs : RunStart (dims ds e) os)
    (hrun : (slicerAt ds e (rank (counts (dims ds e)) os) os).run .debug fuel =
      (items, .exhausted))
    (hfold : ¬ FoldOk [] (dims ds e) os) :
    ∃ c ∈ ds.chunks, ∃ n rest,
      c.offsetU64 =
        cellOffset (chunkShape (dims ds e)) (cells (dims ds e) os) ∧
      runLen (dims ds e) os < n ∧
      items = (c, place (dims ds e) os, place (dims ds e) os + n) :: rest := by
  have hin := h.inBounds hwf
  cases fuel with
  | zero => cases hrun
  | succ fuel =>
      obtain ⟨c, hc, hoffset, hnext⟩ := h.next_eq hwf hD hos
      have hnext := hnext .debug
      cases hfoldAxes : foldAxes .debug (counts (dims ds e)).prod
          (axesOf 1 (points (dims ds e) os))
          (atStart 0 (rank (counts (dims ds e)) os) 0 0) with
      | error f =>
          rw [hfoldAxes] at hnext
          rw [ChunkSlicer.run_fault hnext] at hrun
          cases hrun
      | ok r =>
          obtain ⟨coords, offset, advance⟩ := r
          have hlong := lt_foldAxes_of_not_foldOk hin (h.fits hwf)
            (h.prod_lt hwf) hos hrs hfold hfoldAxes
          rw [hfoldAxes, ok_bind] at hnext
          cases hval : (slicerAt ds e (rank (counts (dims ds e)) os) os).next
              .debug with
          | error f =>
              rw [ChunkSlicer.run_fault hval] at hrun
              cases hrun
          | ok r =>
              rw [hval] at hnext
              obtain ⟨_, -, hnext⟩ := bind_eq_ok.mp hnext.symm
              obtain ⟨stop, hstop, hnext⟩ := bind_eq_ok.mp hnext
              obtain ⟨_, -, hnext⟩ := bind_eq_ok.mp hnext
              obtain ⟨rfl, -⟩ := addU64_debug hstop
              cases hnext
              obtain ⟨rest, rfl, -⟩ := ChunkSlicer.run_some_exhausted hval hrun
              exact ⟨c, hc, advance, rest, hoffset, hlong, rfl⟩

theorem foldOk_of_run (h : Selects ds e) (hwf : ds.WellFormed) (hD : D ≠ 0)
    {fuel : Nat} {items : List (Item D)}
    (hos : InBox (counts (dims ds e)) os) (hrs : RunStart (dims ds e) os)
    (hrun : (slicerAt ds e (rank (counts (dims ds e)) os) os).run .debug fuel =
      (items, .exhausted))
    (hwalk : List.Forall₂ (Located ds) (expand items)
      (walkFrom ds e (rank (counts (dims ds e)) os))) :
    FoldOk [] (dims ds e) os := by
  have hin := h.inBounds hwf
  by_contra hfold
  obtain ⟨c, hc, n, rest, hoffset, hlong, rfl⟩ :=
    h.first_long_of_not_foldOk hwf hD hos hrs hrun hfold
  rw [expand_cons] at hwalk
  -- the value behind the run would be stored behind it
  have hlen := hwalk.length_eq
  simp only [List.length_append, List.length_map, List.length_range,
    length_walkFrom] at hlen
  have hlt : rank (counts (dims ds e)) os + runLen (dims ds e) os <
      (counts (dims ds e)).prod := by omega
  have hat := hwalk.get (i := runLen (dims ds e) os)
    (by simp only [List.length_append, List.length_map, List.length_range]; omega)
    (by rw [length_walkFrom]; omega)
  simp only [List.get_eq_getElem] at hat
  rw [List.getElem_append_left (by simpa using hlong), List.getElem_map,
    List.getElem_range, getElem_walkFrom] at hat
  obtain ⟨hcells, hplace⟩ := (h.located_iff hwf hos
    (advanceBy_inBox hin os (runLen (dims ds e) os)) hc hoffset _).mp hat
  exact run_maximal hin hos hrs hlt hcells hplace.symm

theorem eq_of_runStart (h : Selects ds e) (hwf : ds.WellFormed)
    (hos : InBox (counts (dims ds e)) os) (hrs : RunStart (dims ds e) os)
    {ps : List Nat} (hps : InBox (counts (dims ds e)) ps)
    (hrps : RunStart (dims ds e) ps)
    (hle : rank (counts (dims ds e)) os ≤ rank (counts (dims ds e)) ps)
    (hlt : rank (counts (dims ds e)) ps <
      rank (counts (dims ds e)) os + runLen (dims ds e) os) : ps = os := by
  have hback : advanceBy (dims ds e) os (rank (counts (dims ds e)) ps -
      rank (counts (dims ds e)) os) = ps := by
    rw [advanceBy, Nat.add_sub_cancel' hle, unrank_rank hps]
  rcases Nat.eq_or_lt_of_le hle with heq | hmore
  · exact (rank_injective hos hps heq).symm
  · refine absurd hrps ?_
    rw [← hback]
    exact not_runStart_advanceBy (h.inBounds hwf) hos hrs (by omega) (by omega)

theorem foldOk_after (h : Selects ds e) (hwf : ds.WellFormed) (hD : D ≠ 0)
    {fuel : Nat} {items : List (Item D)}
    (hos : InBox (counts (dims ds e)) os) (hrs : RunStart (dims ds e) os)
    (hrun : (slicerAt ds e (rank (counts (dims ds e)) os) os).run .debug fuel =
      (items, .exhausted))
    (hwalk : List.Forall₂ (Located ds) (expand items)
      (walkFrom ds e (rank (counts (dims ds e)) os))) {ps : List Nat}
    (hps : InBox (counts (dims ds e)) ps) (hrps : RunStart (dims ds e) ps)
    (hle : rank (counts (dims ds e)) os ≤ rank (counts (dims ds e)) ps) :
    FoldOk [] (dims ds e) ps := by
  have hin := h.inBounds hwf
  have hfold := h.foldOk_of_run hwf hD hos hrs hrun hwalk
  induction fuel generalizing os items with
  | zero => cases hrun
  | succ fuel ih =>
      have hend := rank_add_runLen_le hin hos hrs
      have hlt := rank_lt hps
      rcases Nat.lt_or_ge (rank (counts (dims ds e)) ps)
        (rank (counts (dims ds e)) os + runLen (dims ds e) os) with hin' | hout
      · rwa [h.eq_of_runStart hwf hos hrs hps hrps hle hin']
      · have hrank : rank (counts (dims ds e)) (advanceBy (dims ds e) os
            (runLen (dims ds e) os)) =
              rank (counts (dims ds e)) os + runLen (dims ds e) os := by
          rw [advanceBy, rank_unrank, Nat.mod_eq_of_lt (by omega)]
        obtain ⟨c, hc, hoffset, hnext⟩ :=
          h.next_of_foldOk hwf hD hos hrs hfold
        have hnext := hnext .debug
        obtain ⟨rest, rfl, hrest⟩ := ChunkSlicer.run_some_exhausted hnext hrun
        rw [expand_cons, walkFrom_split ds e hend] at hwalk
        have htail := List.forall₂_drop_append _ _ _ hwalk
        rw [List.drop_left' (by simp), ← hrank] at htail
        rw [← hrank] at hrest hout
        have hinBox := advanceBy_inBox hin os (runLen (dims ds e) os)
        have hstart := runStart_advanceBy_runLen hin hos hrs
        exact ih hinBox hstart hrest htail hout
          (h.foldOk_of_run hwf hD hinBox hstart hrest htail)

theorem run_of_collect (h : Selects ds e) (hwf : ds.WellFormed) {fuel : Nat}
    {items : List (Item D)} (hcollect : ds.collectSlices b fuel e = .ok items) :
    (slicerAt ds e (rank (counts (dims ds e)) (List.replicate D 0))
      (List.replicate D 0)).run b fuel = (items, .exhausted) := by
  unfold Dataset.collectSlices at hcollect
  rw [h.chunkSlices_eq hwf, ok_bind] at hcollect
  rw [rank_replicate_zero]
  generalize (slicerAt ds e 0 (List.replicate D 0)).run b fuel = r at hcollect
  obtain ⟨items', halt⟩ := r
  cases halt with
  | exhausted =>
      cases hcollect
      rfl
  | fault f => cases hcollect
  | outOfFuel => cases hcollect

end Selects

theorem Selects.foldable_scalar {ds : Dataset 0} {e : Extents}
    (h : Selects ds e) : Foldable (dims ds e) := by
  rw [List.eq_nil_of_length_eq_zero h.length_dims]
  intro os _ _
  trivial

theorem Selects.collect_scalar {ds : Dataset 0} {e : Extents}
    (h : Selects ds e) (hwf : ds.WellFormed) (b : Build) :
    ∃ c, ds.collectSlices b 2 e = .ok [(c, 0, 1)] ∧ walk ds e = [[]] ∧
      Located ds (c, 0) [] := by
  have hnil : dims ds e = [] := List.eq_nil_of_length_eq_zero h.length_dims
  have hcells : ds.cells = [] := List.eq_nil_of_length_eq_zero ds.length_cells
  have hone : ds.chunks.length = 1 := by
    have := congrArg List.length hwf.offsets_eq
    simpa [hcells] using this
  obtain ⟨c, hc⟩ := List.length_eq_one_iff.mp hone
  have hnext : (slicerAt ds e 0 (List.replicate 0 0)).next b =
      .ok (some ((c, 0, 1), slicerAt ds e 1 (List.replicate 0 0))) := by
    unfold ChunkSlicer.next
    rw [if_neg (by simp [hnil, counts]),
      if_pos (show ds.isScalar = true from rfl), debugAssert_of hone, ok_bind,
      addU64_eq (show 0 + 1 < 2 ^ 64 by decide), ok_bind]
    simp only [hc]
    rfl
  have hend : (slicerAt ds e 1 (List.replicate 0 0)).next b = .ok none :=
    ChunkSlicer.next_end (by simp [hnil, counts])
  refine ⟨c, ?_, ?_, ⟨by simp [hc], ?_, ?_⟩⟩
  · unfold Dataset.collectSlices
    rw [h.chunkSlices_eq hwf, ok_bind, ChunkSlicer.run_some hnext,
      ChunkSlicer.run_none hend]
  · rw [h.walk_eq, hnil]
    rfl
  · simp
  · simp

/-! ## One chunk of edge two -/

def cube : Dataset 3 where
  dtype := .uint 1
  dsize := 1
  order := .le
  chunks := [⟨ULE.new 64, ULE.new 8, ⟨[ULE.new 0, ULE.new 0, ULE.new 0], rfl⟩⟩]
  shape := ⟨[2, 2, 2], rfl⟩
  chunkShape := ⟨[2, 2, 2], rfl⟩
  chunkShapeReduced := ⟨[2, 2, 2], rfl⟩
  scaledDimSz := ⟨[1, 1, 1], rfl⟩
  dimSz := ⟨[4, 2, 1], rfl⟩
  chunkDimSz := ⟨[4, 2, 1], rfl⟩
  shuffle := false
  gzip := none

theorem cube_wellFormed : cube.WellFormed :=
  .of_grid (by decide) ⟨rfl, rfl, rfl, rfl, rfl⟩
    (.of_prod_lt (by decide) (by decide) (by decide) (by decide) (by decide)
      (by decide) (.cons (by decide) (.cons (by decide) (.cons (by decide) .nil))))
    (by decide) (by decide)

def firstRows : Extents :=
  .extent [.sliceCount 0 2, .sliceCount 0 1, .sliceCount 0 2]

theorem cube_selects_firstRows : Selects cube firstRows :=
  ⟨by decide, by decide⟩

theorem Selects.collect_of_foldable {ds : Dataset D} {e : Extents}
    (h : Selects ds e) (hwf : ds.WellFormed) (hfold : Foldable (dims ds e))
    (b : Build) :
    ∃ fuel items, ds.collectSlices b fuel e = .ok items ∧
      List.Forall₂ (Located ds) (expand items) (walk ds e) ∧
      ∀ item ∈ items, item.2.1 ≤ item.2.2 := by
  by_cases hD : D = 0
  · subst hD
    obtain ⟨c, hcollect, hwalk, hlocated⟩ := h.collect_scalar hwf b
    refine ⟨2, [(c, 0, 1)], hcollect, ?_, by simp⟩
    rw [hwalk]
    exact .cons hlocated .nil
  · have hin := h.inBounds hwf
    obtain ⟨fuel, items, hrun, hwalk, hle⟩ := h.run_of_foldable (b := b) hwf hD
      hfold (h.zero_inBox hwf) h.zero_runStart
    rw [rank_replicate_zero] at hrun hwalk
    refine ⟨fuel, items, ?_, ?_, hle⟩
    · unfold Dataset.collectSlices
      rw [h.chunkSlices_eq hwf, ok_bind, hrun]
    · rwa [h.walk_eq_walkFrom]

/--
The slices join up to the selected values exactly where every run start of the
selection is folded correctly.
-/
theorem yieldsSelection_iff_foldable (ds : Dataset D) (hwf : ds.WellFormed)
    (e : Extents) (h : Selects ds e) :
    (∀ b, YieldsSelection b ds e) ↔ Foldable (dims ds e) := by
  constructor
  · intro hyields
    by_cases hD : D = 0
    · subst hD
      exact h.foldable_scalar
    · intro ps hps hrps
      obtain ⟨fuel, items, hcollect, hwalk⟩ := hyields .debug
      have hrank := rank_replicate_zero (counts (dims ds e)) D
      rw [h.walk_eq_walkFrom, ← hrank] at hwalk
      exact h.foldOk_after hwf hD (h.zero_inBox hwf) h.zero_runStart
        (h.run_of_collect hwf hcollect) hwalk (mem_rowMajor.mp hps) hrps
        (by rw [hrank]; exact Nat.zero_le _)
  · intro hfold b
    obtain ⟨fuel, items, hcollect, hwalk, -⟩ :=
      h.collect_of_foldable hwf hfold b
    exact ⟨fuel, items, hcollect, hwalk⟩

theorem yieldsSelection_iff_foldable_cube :
    (∀ b, YieldsSelection b cube .all) ↔ Foldable (dims cube .all) :=
  yieldsSelection_iff_foldable cube cube_wellFormed .all ⟨by decide, by decide⟩

/--
The row that is selected in the second layer is not yielded: the slice goes on
with the second row of the first layer.
-/
theorem not_yieldsSelection_firstRows :
    cube.WellFormed ∧ Selects cube firstRows ∧
      ∀ b, ¬ YieldsSelection b cube firstRows := by
  refine ⟨cube_wellFormed, cube_selects_firstRows, ?_⟩
  rintro b ⟨fuel, items, hcollect, hwalk⟩
  have hrun := cube_selects_firstRows.run_of_collect cube_wellFormed hcollect
  have hnext : (slicerAt cube firstRows 0 [0, 0, 0]).next b =
      .ok (some ((cube.chunks[0], 0, 4), slicerAt cube firstRows 4 [0, 0, 0])) := by
    cases b <;> rfl
  have hend : (slicerAt cube firstRows 4 [0, 0, 0]).next b = .ok none :=
    ChunkSlicer.next_end (by decide)
  cases fuel with
  | zero => cases hrun
  | succ fuel =>
      obtain ⟨rest, rfl, hrest⟩ := ChunkSlicer.run_some_exhausted hnext hrun
      cases fuel with
      | zero => cases hrest
      | succ fuel =>
          rw [ChunkSlicer.run_none hend] at hrest
          cases hrest
          have hthird := hwalk.get (i := 2) (by decide) (by decide)
          exact absurd hthird.position (by decide)

end Hidefix.Slices
