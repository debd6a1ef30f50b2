import Hidefix.Idx.Items
import Hidefix.Slices.Exact
import Mathlib.Data.List.Chain

/-!
# Slices are not fractured

A slice is a stretch of the selection that is stored without a gap in one chunk,
and it cannot be made longer at either end.  Two slices in a row are then never
two parts of one run.
-/

namespace Hidefix.Slices

open MixedRadix
open Foundation
open Idx

variable {D : Nat} {b : Build}

def Joins (i j : Item D) : Prop := i.1 = j.1 ∧ i.2.2 = j.2.1

/--
The values of a slice are a stretch of the selection.  The value selected before
them is not stored right before them in the chunk, and the one selected after them
not right behind them.
-/
def MaximalRun (ds : Dataset D) (e : Extents) (item : Item D) : Prop :=
  ∃ before run after, walk ds e = before ++ run ++ after ∧ run ≠ [] ∧
    List.Forall₂ (Located ds) (expand [item]) run ∧
    (∀ x ∈ before.getLast?, ∀ p, p + 1 = item.2.1 → ¬ Located ds (item.1, p) x) ∧
    ∀ x ∈ after.head?, ¬ Located ds (item.1, item.2.2) x

/-- The slices of the selection are maximal runs, and no two in a row join. -/
def Unfractured (b : Build) (ds : Dataset D) (e : Extents) : Prop :=
  ∃ fuel items, ds.collectSlices b fuel e = .ok items ∧
    items.IsChain (fun i j => ¬ Joins i j) ∧ ∀ item ∈ items, MaximalRun ds e item

/-! ## Positions and places -/

section Places

variable {ds : List Dim} {os ps : List Nat}

theorem eq_of_place (h : InBounds ds) (hos : InBox (counts ds) os)
    (hps : InBox (counts ds) ps) (hcells : cells ds ps = cells ds os)
    (hplace : place ds ps = place ds os) : ps = os := by
  have hwithins := rank_injective (withins_inBox h hps) (withins_inBox h hos) hplace
  clear hplace
  induction ds generalizing os ps with
  | nil =>
      cases hos
      cases hps
      rfl
  | cons d ds ih =>
      cases hos with
      | @cons o _ os _ ho hos =>
          cases hps with
          | @cons p _ ps _ hp hps =>
              rw [cells_cons, cells_cons, List.cons.injEq] at hcells
              rcases List.cons.inj hwithins with ⟨hwithin, hwithins⟩
              have hfirst : p = o := by
                have hpcell := d.cell_mul_add_within p
                have hocell := d.cell_mul_add_within o
                rw [hcells.1, hwithin] at hpcell
                omega
              rw [hfirst, ih h.tail hos hps hcells.2 hwithins]

def LeftMaximal (ds : List Dim) (os : List Nat) : Prop :=
  ∀ r, r + 1 = rank (counts ds) os →
    ¬ (cells ds (unrank (counts ds) r) = cells ds os ∧
      place ds (unrank (counts ds) r) + 1 = place ds os)

theorem leftMaximal_zero (n : Nat) : LeftMaximal ds (List.replicate n 0) := by
  intro r hr
  rw [rank_replicate_zero] at hr
  cases hr

theorem leftMaximal_advanceBy (h : InBounds ds) (hos : InBox (counts ds) os)
    (hrs : RunStart ds os)
    (hlt : rank (counts ds) os + runLen ds os < (counts ds).prod) :
    LeftMaximal ds (advanceBy ds os (runLen ds os)) := by
  have hlen := runLen_pos h hos
  have hrank : rank (counts ds) (advanceBy ds os (runLen ds os)) =
      rank (counts ds) os + runLen ds os := by
    rw [advanceBy, rank_unrank, Nat.mod_eq_of_lt hlt]
  intro r hr
  rw [hrank] at hr
  have hlast : unrank (counts ds) r = advanceBy ds os (runLen ds os - 1) := by
    rw [advanceBy]
    congr 1
    omega
  rcases run_contiguous h hos hrs (i := runLen ds os - 1) (by omega) with
    ⟨hcells, hplace⟩
  rw [hlast, hcells, hplace]
  rintro ⟨hsame, hnext⟩
  apply run_maximal h hos hrs hlt hsame.symm
  omega

theorem cells_inj (h : InBounds ds) (hos : os.length = ds.length)
    (hps : ps.length = ds.length)
    (heq : cellOffset (chunkShape ds) (cells ds os) =
      cellOffset (chunkShape ds) (cells ds ps)) : cells ds os = cells ds ps := by
  have hcell : ∀ {xs : List Nat}, xs.length = ds.length →
      cellOf (chunkShape ds) (cellOffset (chunkShape ds) (cells ds xs)) =
        cells ds xs := by
    intro xs hxs
    exact cellOf_cellOffset h.chunk_pos (by simp [cells, chunkShape, hxs])
  rw [← hcell hos, heq, hcell hps]

end Places

/-! ## Selections that are folded correctly -/

namespace Selects

variable {ds : Dataset D} {e : Extents} {os : List Nat}

theorem head?_walkFrom {r : Nat} {x : List Nat}
    (hx : x ∈ (walkFrom ds e r).head?) :
    r < (counts (dims ds e)).prod ∧
      x = coordsOf (dims ds e) (unrank (counts (dims ds e)) r) := by
  rw [List.head?_eq_getElem?, Option.mem_def, List.getElem?_eq_some_iff] at hx
  rcases hx with ⟨hlt, rfl⟩
  rw [getElem_walkFrom]
  rw [length_walkFrom] at hlt
  exact ⟨by omega, rfl⟩

theorem maximalRun (h : Selects ds e) (hwf : ds.WellFormed)
    (hos : InBox (counts (dims ds e)) os) (hrs : RunStart (dims ds e) os)
    (hleft : LeftMaximal (dims ds e) os) {c : Chunk D} (hc : c ∈ ds.chunks)
    (hoffset : c.offsetU64 =
      cellOffset (chunkShape (dims ds e)) (cells (dims ds e) os)) :
    MaximalRun ds e (c, place (dims ds e) os,
      place (dims ds e) os + runLen (dims ds e) os) := by
  have hin := h.inBounds hwf
  have hend := rank_add_runLen_le hin hos hrs
  have hlen := runLen_pos hin hos
  have hrun := h.located_run hwf hos hrs hc hoffset
  have hbefore := walkFrom_split ds e (r := 0) (n := rank (counts (dims ds e)) os)
    (by omega)
  rw [Nat.zero_add, walkFrom_split ds e hend, ← h.walk_eq_walkFrom,
    ← List.append_assoc] at hbefore
  refine ⟨_, _, _, hbefore, ?_, ?_, ?_, ?_⟩
  · intro hnil
    have hzero := congrArg List.length hnil
    simp only [List.length_map, List.length_range, List.length_nil] at hzero
    omega
  · rw [expand_cons]
    simpa [expand] using hrun
  · intro x hx p hp hlocated
    rw [List.getLast?_map, List.getLast?_range] at hx
    rcases Nat.eq_zero_or_pos (rank (counts (dims ds e)) os) with hzero | hpos
    · simp [hzero] at hx
    · rw [if_neg (by omega), Option.map_some, Option.mem_def, Option.some.injEq,
        Nat.zero_add] at hx
      subst hx
      have hprev := unrank_inBox hin.counts_pos (rank (counts (dims ds e)) os - 1)
      rcases (h.located_iff hwf hos hprev hc hoffset p).mp hlocated with
        ⟨hcells, rfl⟩
      exact hleft _ (by omega) ⟨hcells, hp⟩
  · intro x hx hlocated
    rcases head?_walkFrom hx with ⟨hlt, rfl⟩
    have hnext := advanceBy_inBox hin os (runLen (dims ds e) os)
    rcases (h.located_iff hwf hos hnext hc hoffset _).mp hlocated with
      ⟨hcells, hplace⟩
    exact run_maximal hin hos hrs hlt hcells hplace.symm

/-- From a run start on, the slices of a foldable selection are its runs. -/
theorem run_unfractured (h : Selects ds e) (hwf : ds.WellFormed) (hD : D ≠ 0)
    (hfold : Foldable (dims ds e)) (hos : InBox (counts (dims ds e)) os)
    (hrs : RunStart (dims ds e) os) (hleft : LeftMaximal (dims ds e) os) :
    ∃ fuel items,
      (slicerAt ds e (rank (counts (dims ds e)) os) os).run b fuel =
        (items, .exhausted) ∧
      items.IsChain (fun i j => ¬ Joins i j) ∧
      (∀ item ∈ items, MaximalRun ds e item) ∧
      ∀ item ∈ items.head?, item.2.1 = place (dims ds e) os ∧
        item.1.offsetU64 =
          cellOffset (chunkShape (dims ds e)) (cells (dims ds e) os) := by
  generalize hn : (counts (dims ds e)).prod - rank (counts (dims ds e)) os = n
  induction n using Nat.strong_induction_on generalizing os with
  | _ n ih =>
      have hin := h.inBounds hwf
      have hend := rank_add_runLen_le hin hos hrs
      have hlen := runLen_pos hin hos
      have hmaximal := fun c hc hoffset =>
        h.maximalRun hwf hos hrs hleft (c := c) hc hoffset
      rcases h.next_of_foldOk hwf hD hos hrs (hfold os (mem_rowMajor.mpr hos) hrs)
        with ⟨c, hc, hoffset, hnext⟩
      have hnext := hnext b
      rcases Nat.eq_or_lt_of_le hend with hlast | hmore
      · -- the last run
        have hrest : (slicerAt ds e
            (rank (counts (dims ds e)) os + runLen (dims ds e) os)
            (advanceBy (dims ds e) os (runLen (dims ds e) os))).run b 1 =
              ([], .exhausted) := by
          rw [hlast]
          exact ChunkSlicer.run_none (ChunkSlicer.next_end (le_refl _))
        refine ⟨2, _, by rw [ChunkSlicer.run_some hnext, hrest], ?_, ?_, ?_⟩
        · exact List.isChain_singleton _
        · simpa using hmaximal c hc hoffset
        · simpa using hoffset
      · have hrank : rank (counts (dims ds e)) (advanceBy (dims ds e) os
            (runLen (dims ds e) os)) =
              rank (counts (dims ds e)) os + runLen (dims ds e) os := by
          rw [advanceBy, rank_unrank, Nat.mod_eq_of_lt hmore]
        have hnextBox := advanceBy_inBox hin os (runLen (dims ds e) os)
        rcases ih _ (by omega) hnextBox (runStart_advanceBy_runLen hin hos hrs)
          (leftMaximal_advanceBy hin hos hrs hmore) rfl with
          ⟨fuel, items, hrest, hchain, hall, hhead⟩
        rw [hrank] at hrest
        refine ⟨fuel + 1, _, by rw [ChunkSlicer.run_some hnext, hrest], ?_, ?_, ?_⟩
        · rw [List.isChain_cons]
          refine ⟨?_, hchain⟩
          rintro item hitem ⟨hchunk, hstop⟩
          rcases hhead item hitem with ⟨hstart, hitemOffset⟩
          dsimp only at hchunk hstop
          rw [← hchunk, hoffset] at hitemOffset
          have hcells := cells_inj hin (h.length_coords hos)
            (h.length_coords hnextBox) hitemOffset
          exact run_maximal hin hos hrs hmore hcells.symm (by omega)
        · rw [List.forall_mem_cons]
          exact ⟨hmaximal c hc hoffset, hall⟩
        · simpa using hoffset

theorem unfractured_of_foldable (h : Selects ds e) (hwf : ds.WellFormed)
    (hfold : Foldable (dims ds e)) : Unfractured b ds e := by
  by_cases hD : D = 0
  · subst hD
    rcases h.collect_scalar hwf b with ⟨c, hcollect, hwalk, hlocated⟩
    refine ⟨2, [(c, 0, 1)], hcollect, List.isChain_singleton _, ?_⟩
    rw [List.forall_mem_singleton]
    exact ⟨[], [[]], [], hwalk, by simp, .cons hlocated .nil, by simp, by simp⟩
  · rcases h.run_unfractured (b := b) hwf hD hfold (h.zero_inBox hwf) h.zero_runStart
      (leftMaximal_zero D) with ⟨fuel, items, hrun, hchain, hall, -⟩
    rw [rank_replicate_zero] at hrun
    refine ⟨fuel, items, ?_, hchain, hall⟩
    unfold Dataset.collectSlices
    rw [h.chunkSlices_eq hwf, ok_bind, hrun]

/-! ## Selections that are not -/

theorem not_maximalRun_of_long (h : Selects ds e) (hwf : ds.WellFormed)
    (hos : InBox (counts (dims ds e)) os) (hrs : RunStart (dims ds e) os)
    {c : Chunk D} (hc : c ∈ ds.chunks)
    (hoffset : c.offsetU64 =
      cellOffset (chunkShape (dims ds e)) (cells (dims ds e) os)) {n : Nat}
    (hlong : runLen (dims ds e) os < n) :
    ¬ MaximalRun ds e (c, place (dims ds e) os, place (dims ds e) os + n) := by
  rintro ⟨before, run, after, hwalk, -, hlocated, -, -⟩
  have hin := h.inBounds hwf
  have hexpand : expand [(c, place (dims ds e) os, place (dims ds e) os + n)] =
      (List.range n).map fun i => (c, place (dims ds e) os + i) := by
    rw [expand_cons]
    simp [expand]
  rw [hexpand] at hlocated
  have hlen : run.length = n := by
    simpa using hlocated.length_eq.symm
  have htotal := congrArg List.length hwalk
  rw [h.walk_eq_walkFrom] at htotal hwalk
  simp only [length_walkFrom, List.length_append] at htotal
  -- The values of the stretch are stored from the place of `os` on.
  have hat : ∀ i < n, cells (dims ds e)
      (unrank (counts (dims ds e)) (before.length + i)) = cells (dims ds e) os ∧
      place (dims ds e) os + i =
        place (dims ds e) (unrank (counts (dims ds e)) (before.length + i)) := by
    intro i hi
    have hi' : i < run.length := by omega
    have hall : before.length + i < (walkFrom ds e 0).length := by
      rw [length_walkFrom]
      omega
    have hrun : run[i] = coordsOf (dims ds e)
        (unrank (counts (dims ds e)) (before.length + i)) := by
      have hindex : (walkFrom ds e 0)[before.length + i] = run[i] := by
        simp only [hwalk]
        rw [List.getElem_append_left (by simp; omega),
          List.getElem_append_right (by omega)]
        simp
      rw [← hindex, getElem_walkFrom, Nat.zero_add]
    have hget := hlocated.get (by simpa using hi) hi'
    simp only [List.get_eq_getElem, List.getElem_map, List.getElem_range] at hget
    rw [hrun] at hget
    exact (h.located_iff hwf hos (unrank_inBox hin.counts_pos _) hc hoffset _).mp hget
  rcases hat 0 (by omega) with ⟨hcells, hplace⟩
  have hfirst := eq_of_place hin hos (unrank_inBox hin.counts_pos _) hcells
    hplace.symm
  have hrank : before.length = rank (counts (dims ds e)) os := by
    rw [← hfirst, Nat.add_zero, rank_unrank, Nat.mod_eq_of_lt (by omega)]
  rcases hat _ hlong with ⟨hcells, hplace⟩
  rw [hrank] at hcells hplace
  exact run_maximal hin hos hrs (by omega) hcells hplace.symm

theorem foldOk_of_maximal (h : Selects ds e) (hwf : ds.WellFormed) (hD : D ≠ 0)
    {fuel : Nat} {items : List (Item D)}
    (hos : InBox (counts (dims ds e)) os) (hrs : RunStart (dims ds e) os)
    (hrun : (slicerAt ds e (rank (counts (dims ds e)) os) os).run .debug fuel =
      (items, .exhausted))
    (hall : ∀ item ∈ items, MaximalRun ds e item) {ps : List Nat}
    (hps : InBox (counts (dims ds e)) ps) (hrps : RunStart (dims ds e) ps)
    (hle : rank (counts (dims ds e)) os ≤ rank (counts (dims ds e)) ps) :
    FoldOk [] (dims ds e) ps := by
  have hin := h.inBounds hwf
  induction fuel generalizing os items with
  | zero => cases hrun
  | succ fuel ih =>
      have hfold : FoldOk [] (dims ds e) os := by
        by_contra hfold
        rcases h.first_long_of_not_foldOk hwf hD hos hrs hrun hfold with
          ⟨c, hc, n, rest, hoffset, hlong, rfl⟩
        exact h.not_maximalRun_of_long hwf hos hrs hc hoffset hlong
          (hall _ (by simp))
      have hend := rank_add_runLen_le hin hos hrs
      have hlt := rank_lt hps
      rcases Nat.lt_or_ge (rank (counts (dims ds e)) ps)
        (rank (counts (dims ds e)) os + runLen (dims ds e) os) with hin' | hout
      · rwa [h.eq_of_runStart hwf hos hrs hps hrps hle hin']
      · have hrank : rank (counts (dims ds e)) (advanceBy (dims ds e) os
            (runLen (dims ds e) os)) =
              rank (counts (dims ds e)) os + runLen (dims ds e) os := by
          rw [advanceBy, rank_unrank, Nat.mod_eq_of_lt (by omega)]
        rcases h.next_of_foldOk hwf hD hos hrs hfold with ⟨c, hc, hoffset, hnext⟩
        rcases ChunkSlicer.run_some_exhausted (hnext .debug) hrun with
          ⟨rest, rfl, hrest⟩
        rw [← hrank] at hrest hout
        apply ih (advanceBy_inBox hin os _)
          (runStart_advanceBy_runLen hin hos hrs) hrest _ hout
        intro item hitem
        exact hall item (by simp [hitem])

end Selects

theorem unfractured_of_empty {ds : Dataset D} {e : Extents} (h : Inside ds e)
    (hwf : ds.WellFormed) (hzero : 0 ∈ counts (dims ds e)) : Unfractured b ds e := by
  exact ⟨1, [], h.collect_empty hwf hzero 0, List.isChain_nil, by simp⟩

theorem foldable_of_empty {ds : List Dim} (hzero : 0 ∈ counts ds) : Foldable ds := by
  intro os hos
  exact absurd ((mem_rowMajor.mp hos).pos 0 hzero) (by decide)

/--
The slices are the maximal runs of the selection, none of which is fractured,
exactly where every run start of the selection is folded correctly.
-/
theorem unfractured_iff_foldable (ds : Dataset D) (hwf : ds.WellFormed) (e : Extents)
    (h : Inside ds e) : (∀ b, Unfractured b ds e) ↔ Foldable (dims ds e) := by
  by_cases hzero : 0 ∈ counts (dims ds e)
  · apply iff_of_true
    · intro b
      exact unfractured_of_empty h hwf hzero
    · exact foldable_of_empty hzero
  · have hselects := h.selects hzero
    constructor
    · intro hunfractured
      by_cases hD : D = 0
      · subst hD
        exact hselects.foldable_scalar
      · intro ps hps hrps
        rcases hunfractured .debug with ⟨fuel, items, hcollect, -, hall⟩
        apply hselects.foldOk_of_maximal hwf hD (hselects.zero_inBox hwf)
          hselects.zero_runStart (hselects.run_of_collect hwf hcollect) hall
          (mem_rowMajor.mp hps) hrps
        rw [rank_replicate_zero]
        exact Nat.zero_le _
    · intro hfold b
      exact hselects.unfractured_of_foldable hwf hfold

theorem unfractured_iff_foldable_cube :
    (∀ b, Unfractured b cube .all) ↔ Foldable (dims cube .all) :=
  unfractured_iff_foldable cube cube_wellFormed .all ⟨by decide, by decide⟩

/-! ## Two columns of chunks -/

def columns : Dataset 4 where
  dtype := .uint 1
  dsize := 1
  order := .le
  chunks := [⟨ULE.new 64, ULE.new 4,
      ⟨[ULE.new 0, ULE.new 0, ULE.new 0, ULE.new 0], rfl⟩⟩,
    ⟨ULE.new 68, ULE.new 4, ⟨[ULE.new 0, ULE.new 1, ULE.new 0, ULE.new 0], rfl⟩⟩]
  shape := ⟨[2, 2, 2, 1], rfl⟩
  chunkShape := ⟨[2, 1, 2, 1], rfl⟩
  chunkShapeReduced := ⟨[2, 1, 2, 1], rfl⟩
  scaledDimSz := ⟨[2, 1, 1, 1], rfl⟩
  dimSz := ⟨[4, 2, 1, 1], rfl⟩
  chunkDimSz := ⟨[2, 2, 1, 1], rfl⟩
  shuffle := false
  gzip := none

theorem columns_wellFormed : columns.WellFormed :=
  .of_grid (by decide) ⟨rfl, rfl, rfl, rfl, rfl⟩
    (.of_prod_lt (by decide) (by decide) (by decide) (by decide) (by decide)
      (by decide) (.cons (by decide) (.cons (by decide) (.cons (by decide)
        (.cons (by decide) .nil)))))
    (by decide) (by decide)

def firstColumns : Extents :=
  .extent [.sliceCount 0 2, .sliceCount 0 2, .sliceCount 0 1, .sliceCount 0 1]

/-- Both builds yield two slices of the first chunk, one where the other ends. -/
theorem not_unfractured_firstColumns :
    columns.WellFormed ∧ Inside columns firstColumns ∧
      (∀ b, columns.collectSlices b 3 firstColumns =
        .ok [(columns.chunks[0], 0, 2), (columns.chunks[0], 2, 4)]) ∧
      ∀ b, ¬ Unfractured b columns firstColumns := by
  have hselects : Selects columns firstColumns := ⟨by decide, by decide⟩
  have hcollect : ∀ b, columns.collectSlices b 3 firstColumns =
      .ok [(columns.chunks[0], 0, 2), (columns.chunks[0], 2, 4)] := by
    intro b
    cases b <;> rfl
  refine ⟨columns_wellFormed, hselects.toInside, hcollect, ?_⟩
  rintro b ⟨fuel, items, hcollect', hchain, -⟩
  have hsame := collectSlices_unique hcollect' (hcollect b)
  subst hsame
  rw [List.isChain_cons] at hchain
  exact hchain.1 _ rfl ⟨rfl, rfl⟩

end Hidefix.Slices
