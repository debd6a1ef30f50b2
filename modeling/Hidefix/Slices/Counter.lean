import Hidefix.Foundation.Transition
import Hidefix.Slices.Exact

/-!
# The counter and the coordinates of the slicer

`next` updates the counter of yielded values and the coordinates separately.
As long as every call starts at coordinates that the dimension loop folds
correctly, the counter is the number of selected elements before the
coordinates, no subtraction of the loop underflows, and the run that is yielded
is not empty and ends inside its chunk.
-/

namespace Hidefix.Slices

open MixedRadix
open Foundation
open Idx
open Transition (Reach)

variable {D : Nat}

/--
The counter is not past the end, and it is the number of selected elements
that precede the coordinates, or the end.
-/
structure CounterOk (s : ChunkSlicer D) : Prop where
  le_stop : s.offset ≤ s.stop
  counts : s.offset = (rowMajor s.counts).idxOf s.offsetCoords ∨
    s.offset = s.stop

/--
The next call yields a run.  Both builds return, and the same: a debug build
panics where `*offset - current` underflows.
-/
structure NextOk (s : ChunkSlicer D) (item : Item D) (s' : ChunkSlicer D) :
    Prop where
  debug : s.next .debug = .ok (some (item, s'))
  release : s.next .release = .ok (some (item, s'))
  advances : item.2.1 < item.2.2
  inside : item.2.2 ≤ s.dataset.chunkShape.toList.prod
  counter : CounterOk s'

def FoldedStep (b : Build) (ds : Dataset D) (e : Extents)
    (s s' : ChunkSlicer D) : Prop :=
  FoldOk [] (dims ds e) s.offsetCoords ∧
    ∃ item, s.next b = .ok (some (item, s'))

/-- The states that such calls reach from the start of the iteration. -/
abbrev Reached (b : Build) (ds : Dataset D) (e : Extents) :
    ChunkSlicer D → Prop :=
  Reach (fun s => ds.chunkSlices b e = .ok s) (FoldedStep b ds e)

def InStep (ds : Dataset D) (e : Extents) (s : ChunkSlicer D) : Prop :=
  (∃ os, InBox (counts (dims ds e)) os ∧ RunStart (dims ds e) os ∧
    s = slicerAt ds e (rank (counts (dims ds e)) os) os) ∨
  ∃ os, s = slicerAt ds e (counts (dims ds e)).prod os

namespace Selects

variable {ds : Dataset D} {e : Extents} {os : List Nat}

theorem inStep_advance (h : Selects ds e) (hwf : ds.WellFormed)
    (hos : InBox (counts (dims ds e)) os) (hrs : RunStart (dims ds e) os) :
    InStep ds e (slicerAt ds e
      (rank (counts (dims ds e)) os + runLen (dims ds e) os)
      (advanceBy (dims ds e) os (runLen (dims ds e) os))) := by
  have hin := h.inBounds hwf
  rcases Nat.eq_or_lt_of_le (rank_add_runLen_le hin hos hrs) with hlast | hmore
  · rw [hlast]
    exact .inr ⟨_, rfl⟩
  · refine .inl ⟨_, advanceBy_inBox hin os _,
      runStart_advanceBy_runLen hin hos hrs, ?_⟩
    rw [advanceBy, rank_unrank, Nat.mod_eq_of_lt hmore]

theorem inStep_start (h : Selects ds e) (hwf : ds.WellFormed) :
    InStep ds e (slicerAt ds e 0 (List.replicate D 0)) := by
  refine .inl ⟨_, h.zero_inBox hwf, h.zero_runStart, ?_⟩
  rw [rank_replicate_zero]

end Selects

namespace InStep

variable {ds : Dataset D} {e : Extents} {s s' : ChunkSlicer D}

theorem counterOk (hs : InStep ds e s) : CounterOk s := by
  rcases hs with ⟨os, hos, -, rfl⟩ | ⟨os, rfl⟩
  · exact ⟨(rank_lt hos).le, .inl (idxOf_rowMajor hos).symm⟩
  · exact ⟨le_refl _, .inr rfl⟩

theorem nextOk (hs : InStep ds e s) (h : Selects ds e) (hwf : ds.WellFormed)
    (hD : D ≠ 0) (hlt : s.offset < s.stop)
    (hfold : FoldOk [] (dims ds e) s.offsetCoords) :
    ∃ item s', NextOk s item s' ∧ InStep ds e s' := by
  rcases hs with ⟨os, hos, hrs, rfl⟩ | ⟨os, rfl⟩
  · have hin := h.inBounds hwf
    obtain ⟨c, -, -, hnext⟩ := h.next_of_foldOk hwf hD hos hrs hfold
    have hstep := h.inStep_advance hwf hos hrs
    have hlen := runLen_pos hin hos
    have hinside := place_add_runLen_le hin hos hrs
    rw [(dims_fields h.ranked).2.1] at hinside
    exact ⟨_, _, ⟨hnext .debug, hnext .release, Nat.lt_add_of_pos_right hlen,
      hinside, hstep.counterOk⟩, hstep⟩
  · exact absurd hlt (lt_irrefl _)

theorem step {b : Build} (hs : InStep ds e s) (h : Selects ds e)
    (hwf : ds.WellFormed) (hD : D ≠ 0) (hstep : FoldedStep b ds e s s') :
    InStep ds e s' := by
  obtain ⟨hfold, item, hnext⟩ := hstep
  rcases Nat.lt_or_ge s.offset s.stop with hlt | hge
  · obtain ⟨item', s'', hok, hin⟩ := hs.nextOk h hwf hD hlt hfold
    have hsame : s.next b = .ok (some (item', s'')) := by
      cases b
      · exact hok.debug
      · exact hok.release
    rw [hnext] at hsame
    cases hsame
    exact hin
  · rw [ChunkSlicer.next_end hge] at hnext
    cases hnext

end InStep

/--
In every state that calls at correctly folded coordinates reach, the counter
agrees with the coordinates, and the next such call is safe.
-/
theorem counter_of_reached (ds : Dataset D) (hwf : ds.WellFormed) (hD : D ≠ 0)
    (e : Extents) (h : Selects ds e) (b : Build) (s : ChunkSlicer D)
    (hs : Reached b ds e s) :
    CounterOk s ∧ (s.offset < s.stop → FoldOk [] (dims ds e) s.offsetCoords →
      ∃ item s', NextOk s item s') := by
  have hin : InStep ds e s := by
    refine hs.invariant (fun s hs => ?_) fun s s' hs hstep =>
      hs.step h hwf hD hstep
    rw [h.chunkSlices_eq hwf] at hs
    cases hs
    exact h.inStep_start hwf
  refine ⟨hin.counterOk, fun hlt hfold => ?_⟩
  obtain ⟨item, s', hok, -⟩ := hin.nextOk h hwf hD hlt hfold
  exact ⟨item, s', hok⟩

theorem counter_of_reached_cube :
    CounterOk (slicerAt cube .all 0 [0, 0, 0]) ∧
      (0 < 8 → FoldOk [] (dims cube .all) [0, 0, 0] →
        ∃ item s', NextOk (slicerAt cube .all 0 [0, 0, 0]) item s') :=
  counter_of_reached cube cube_wellFormed (by decide) .all
    ⟨by decide, by decide⟩ .release _ (.start rfl)

/-! ## A column at the edge of the dataset -/

def edge : Dataset 2 where
  dtype := .uint 1
  dsize := 1
  order := .le
  chunks := [⟨ULE.new 64, ULE.new 4, ⟨[ULE.new 0, ULE.new 0], rfl⟩⟩,
    ⟨ULE.new 68, ULE.new 4, ⟨[ULE.new 0, ULE.new 2], rfl⟩⟩]
  shape := ⟨[2, 3], rfl⟩
  chunkShape := ⟨[2, 2], rfl⟩
  chunkShapeReduced := ⟨[2, 2], rfl⟩
  scaledDimSz := ⟨[2, 1], rfl⟩
  dimSz := ⟨[3, 1], rfl⟩
  chunkDimSz := ⟨[2, 1], rfl⟩
  shuffle := false
  gzip := none

theorem edge_wellFormed : edge.WellFormed :=
  .of_grid (by decide) ⟨rfl, rfl, rfl, rfl, rfl⟩
    (.of_prod_lt (by decide) (by decide) (by decide) (by decide) (by decide)
      (by decide) (.cons (by decide) (.cons (by decide) .nil)))
    (by decide) (by decide)

def lastColumn : Extents := .extent [.sliceCount 0 2, .sliceCount 2 1]

theorem edge_selects_lastColumn : Selects edge lastColumn :=
  ⟨by decide, by decide⟩

/--
The first call counts three values of a selection of two; a debug build stops
at the assertion that the counter is not past the end.
-/
theorem not_nextOk_lastColumn :
    edge.WellFormed ∧ Selects edge lastColumn ∧
      (∀ b, edge.chunkSlices b lastColumn =
        .ok (slicerAt edge lastColumn 0 [0, 0])) ∧
      (slicerAt edge lastColumn 0 [0, 0]).next .debug = panicWith .assertion ∧
      ∃ item s', (slicerAt edge lastColumn 0 [0, 0]).next .release =
        .ok (some (item, s')) ∧ ¬ CounterOk s' :=
  ⟨edge_wellFormed, edge_selects_lastColumn, fun _ =>
    edge_selects_lastColumn.chunkSlices_eq edge_wellFormed, rfl,
    _, _, rfl, fun h => absurd h.le_stop (by decide)⟩

end Hidefix.Slices
