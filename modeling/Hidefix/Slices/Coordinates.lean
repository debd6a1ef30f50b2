import Hidefix.Idx.Items
import Hidefix.Slices.Counter

/-!
# The coordinates of the slicer

Every path through `next` writes a coordinate as a remainder by the count of its
dimension, or leaves it as it is.  So the coordinates stay in the selection,
whatever the counter does and however the arithmetic wraps, and the chunk of the
next call is there.
-/

namespace Hidefix.Slices

open MixedRadix
open Foundation
open Idx
open Transition (Reach)

variable {D : Nat} {b : Build}

/-! ## One call -/

section Loop

variable {stop : Nat} {a : Axis} {cur cur' : LoopState} {ks : List Nat}

def axisCount (a : Axis) : Nat := a.countSru.get

theorem mod_axisCount_lt (n : Nat) : n % a.countSru.get < axisCount a :=
  Nat.mod_lt n a.countSru.get_pos

theorem dimLoop_inBox {axes rest : List Axis}
    (h : dimLoop b stop axes cur = .ok (cur', rest)) (hin : InBox ks cur.coords) :
    ∃ visited, axes = visited ++ rest ∧
      InBox ((visited.map axisCount).reverse ++ ks) cur'.coords := by
  induction axes generalizing cur ks with
  | nil =>
      cases h
      exact ⟨[], rfl, hin⟩
  | cons a axes ih =>
      rw [dimLoop] at h
      rcases bind_eq_ok.mp h with ⟨⟨next, flag⟩, hvisit, h⟩
      rcases visitAxis_cases hvisit with ⟨⟨o, ho, hcoords⟩, -⟩
      have hnext : InBox (axisCount a :: ks) next.coords := by
        rw [hcoords]
        exact .cons ho hin
      dsimp only at h
      split at h
      · rcases ih h hnext with ⟨visited, rfl, hbox⟩
        refine ⟨a :: visited, rfl, ?_⟩
        simpa using hbox
      · cases h
        exact ⟨[a], rfl, by simpa using hnext⟩

theorem leftOver_inBox {rest : List Axis} {coords coords' : List Nat} {carry : Nat}
    (h : leftOver b rest coords carry = .ok coords') (hin : InBox ks coords)
    (hrest : ∀ a ∈ rest, a.offset < axisCount a) :
    InBox ((rest.map axisCount).reverse ++ ks) coords' := by
  induction rest generalizing coords ks carry with
  | nil =>
      cases h
      exact hin
  | cons a rest ih =>
      rw [List.forall_mem_cons] at hrest
      rw [leftOver] at h
      rcases bind_eq_ok.mp h with ⟨offset, -, h⟩
      have hnext : InBox (axisCount a :: ks) (offset % a.countSru.get :: coords) :=
        .cons (mod_axisCount_lt offset) hin
      simp only [StrengthReducedU64.div_eq, StrengthReducedU64.rem_eq] at h
      split at h
      · cases h
        have hsame : InBox (rest.map axisCount).reverse
            (rest.map Axis.offset).reverse := by
          apply List.forall₂_reverse_iff.mpr
          rw [List.forall₂_map_left_iff, List.forall₂_map_right_iff,
            List.forall₂_same]
          exact hrest.2
        have hall := List.rel_append hsame hnext
        simpa using hall
      · have htail := ih h hnext hrest.2
        simpa using htail

end Loop

/-! ## Points of the selection -/

theorem mem_axesOf {w : Nat} {pts : List Point} {a : Axis} (h : a ∈ axesOf w pts) :
    ∃ p ∈ pts, ∃ w', a = axisOf w' p.1 p.2 := by
  induction pts generalizing w with
  | nil => cases h
  | cons p pts ih =>
      rcases p with ⟨d, o⟩
      rw [axesOf_cons, List.mem_cons] at h
      rcases h with rfl | h
      · exact ⟨(d, o), by simp, w, rfl⟩
      · rcases ih h with ⟨p, hp, hw⟩
        exact ⟨p, by simp [hp], hw⟩

theorem map_axisCount_axesOf {w : Nat} {pts : List Point}
    (h : ∀ p ∈ pts, PointOk p.1 p.2) :
    (axesOf w pts).map axisCount = pts.map fun p => p.1.count := by
  induction pts generalizing w with
  | nil => rfl
  | cons p pts ih =>
      rcases p with ⟨d, o⟩
      rw [List.forall_mem_cons] at h
      have hcount : axisCount (axisOf w d o) = d.count :=
        StrengthReducedU64.get_reduced h.1.inBounds.2.1
      rw [axesOf_cons, List.map_cons, List.map_cons, ih h.2, hcount]

theorem map_count_points {ds : List Dim} {os : List Nat}
    (h : os.length = ds.length) :
    ((points ds os).map fun p => p.1.count).reverse = counts ds := by
  have hfst : (ds.zip os).map (fun p => p.1.count) =
      ((ds.zip os).map Prod.fst).map Dim.count := by
    simp
  rw [points, List.map_reverse, List.reverse_reverse, hfst,
    List.map_fst_zip h.ge, counts]

/-! ## The states of a run -/

/-- The states that calls of `next` reach from the start of the iteration. -/
abbrev Visited (b : Build) (ds : Dataset D) (e : Extents) : ChunkSlicer D → Prop :=
  Reach (fun s => ds.chunkSlices b e = .ok s)
    (fun s s' => ∃ item, s.next b = .ok (some (item, s')))

def Within (ds : Dataset D) (e : Extents) (s : ChunkSlicer D) : Prop :=
  ∃ offset os, InBox (counts (dims ds e)) os ∧ s = slicerAt ds e offset os

def coordinate (s : ChunkSlicer D) : List Nat :=
  List.zipWith (· + ·) s.indices s.offsetCoords

/--
The coordinates are in the selection, the chunk that is looked up is there and
contains them, and no subtraction on the way to the place in the chunk or to the
end of the chunk underflows.
-/
structure CoordsOk (ds : Dataset D) (s : ChunkSlicer D) : Prop where
  inBox : InBox s.counts s.offsetCoords
  coordinate_inBox : InBox ds.shape.toList (coordinate s)
  chunk : ∃ c ∈ ds.chunks,
    (∀ b, ds.chunkAtCoord b (coordinate s) = .ok c) ∧
    (∀ b, c.contains b (coordinate s) ds.chunkShape.toList = .ok .eq) ∧
    List.Forall₂ (fun offset x => offset ≤ x) c.offsetU64 (coordinate s) ∧
    (∀ b, ∀ a ∈ s.axes c, ∃ chunkSz, cutChunkSz b a = .ok chunkSz ∧
      a.chunkOffset + chunkSz < 2 ^ 64 ∧ a.idx ≤ a.chunkOffset + chunkSz) ∧
    ∃ start < ds.chunkShape.toList.prod, ∀ b, ChunkSlicer.chunkStart b
      (coordinate s) c.offsetU64 ds.chunkDimSz.toList = .ok start

namespace Selects

variable {ds : Dataset D} {e : Extents} {os : List Nat} {offset : Nat}

theorem pointsOk (h : Selects ds e) (hwf : ds.WellFormed)
    (hos : InBox (counts (dims ds e)) os) :
    ∀ p ∈ points (dims ds e) os, PointOk p.1 p.2 :=
  pointOk_points (h.inBounds hwf) (h.fits hwf) hos

theorem axes_eq (h : Selects ds e) (hwf : ds.WellFormed)
    (hos : InBox (counts (dims ds e)) os) {c : Chunk D}
    (hc : c.offsetU64 = cellOffset (chunkShape (dims ds e)) (cells (dims ds e) os)) :
    ((slicerAt ds e offset os).axes c).reverse = axesOf 1 (points (dims ds e) os) := by
  have hfields := dims_fields h.ranked
  rw [← axes_reverse (h.length_coords hos), ChunkSlicer.axes, hc, hfields.1,
    hfields.2.1]
  simp only [hwf.derived.chunkDimSz]

theorem item_at (h : Selects ds e) (hwf : ds.WellFormed)
    (hos : InBox (counts (dims ds e)) os) {item : Item D} {s' : ChunkSlicer D}
    {start coords : List Nat} {cur : LoopState} {rest : List Axis}
    (hadv : Advanced b (slicerAt ds e offset os) item s' start cur rest coords) :
    item.1.offsetU64 = cellOffset (chunkShape (dims ds e)) (cells (dims ds e) os) ∧
      item.2.1 = place (dims ds e) os := by
  have hin := h.inBounds hwf
  have hfields := dims_fields h.ranked
  have hbegins : ((starts (dims ds e)).zip os).mapM (fun p => addU64 b p.1 p.2) =
      .ok start := hadv.begins
  rw [starts_add (h.size_lt hwf) hos] at hbegins
  cases hbegins
  rcases h.chunkAt hwf hos with ⟨c, -, hat, -, hoffset⟩
  have hchunk := hadv.chunk
  rw [slicerAt, hat b] at hchunk
  rw [Except.ok.inj hchunk] at hoffset
  refine ⟨hoffset, ?_⟩
  have hplace := hadv.chunkStart
  rw [hoffset, slicerAt, hwf.derived.chunkDimSz, ← hfields.2.1,
    chunkStart_eq hin hos] at hplace
  · exact (Except.ok.inj hplace).symm
  · rw [hfields.2.1]
    exact hwf.fits.chunk _ (List.sublist_append_left _ _)

theorem next_within (h : Selects ds e) (hwf : ds.WellFormed)
    (hos : InBox (counts (dims ds e)) os) {item : Item D} {s' : ChunkSlicer D}
    (hnext : (slicerAt ds e offset os).next b = .ok (some (item, s'))) :
    Within ds e s' := by
  have hpts := h.pointsOk hwf hos
  rcases next_cases hnext with ⟨-, ⟨-, -, -, offset', -, rfl⟩ |
    ⟨-, start, cur, rest, coords, hadv⟩⟩
  · -- a scalar keeps its coordinates
    exact ⟨offset', os, hos, rfl⟩
  · have hloop := hadv.loop
    rw [h.axes_eq hwf hos (h.item_at hwf hos hadv).1] at hloop
    rcases dimLoop_inBox hloop .nil with ⟨visited, haxes, hvisited⟩
    have hrest : ∀ a ∈ rest, a.offset < axisCount a := by
      intro a ha
      have hmem : a ∈ axesOf 1 (points (dims ds e) os) := by
        rw [haxes]
        exact List.mem_append_right _ ha
      rcases mem_axesOf hmem with ⟨p, hp, w, rfl⟩
      have hcount : axisCount (axisOf w p.1 p.2) = p.1.count :=
        StrengthReducedU64.get_reduced (hpts p hp).inBounds.2.1
      rw [hcount]
      exact (hpts p hp).lt
    have hbox := leftOver_inBox hadv.carried hvisited hrest
    have hcounts : (rest.map axisCount).reverse ++
        ((visited.map axisCount).reverse ++ []) = counts (dims ds e) := by
      rw [List.append_nil, ← List.reverse_append, ← List.map_append, ← haxes,
        map_axisCount_axesOf hpts, map_count_points (h.length_coords hos)]
    rw [hcounts] at hbox
    exact ⟨_, _, hbox, hadv.state⟩

theorem within_of_visited (h : Selects ds e) (hwf : ds.WellFormed)
    {s : ChunkSlicer D} (hs : Visited b ds e s) : Within ds e s := by
  apply hs.invariant
  · intro s hs
    rw [h.chunkSlices_eq hwf] at hs
    cases hs
    exact ⟨0, _, h.zero_inBox hwf, rfl⟩
  · rintro s s' ⟨offset, os, hos, rfl⟩ ⟨item, hnext⟩
    exact h.next_within hwf hos hnext

theorem coordinate_eq (h : Selects ds e) (hos : InBox (counts (dims ds e)) os) :
    coordinate (slicerAt ds e offset os) = coordsOf (dims ds e) os := by
  have hlen := h.length_coords hos
  simp only [coordinate, starts, coordsOf]
  clear hos
  generalize dims ds e = xs at hlen
  induction xs generalizing os with
  | nil => rfl
  | cons d xs ih =>
      cases os with
      | nil => simp at hlen
      | cons o os => simp [ih (by simpa using hlen)]

theorem coordsOk (h : Selects ds e) (hwf : ds.WellFormed)
    (hos : InBox (counts (dims ds e)) os) : CoordsOk ds (slicerAt ds e offset os) := by
  have hin := h.inBounds hwf
  have hpts := h.pointsOk hwf hos
  have hfields := dims_fields h.ranked
  have hcoords := coordsOf_inBox hin hos
  rw [hfields.1] at hcoords
  rcases h.chunkAt hwf hos with ⟨c, hc, hat, hcontains, hoffset⟩
  constructor
  · exact hos
  · rw [h.coordinate_eq hos]
    exact hcoords
  · rw [h.coordinate_eq hos]
    refine ⟨c, hc, hat, hcontains, ?_, ?_, ?_⟩
    · rw [hoffset]
      exact cellOffset_le_coordsOf (h.length_coords hos)
    · intro b a ha
      rw [← List.mem_reverse, h.axes_eq hwf hos hoffset] at ha
      rcases mem_axesOf ha with ⟨p, hp, w, rfl⟩
      have hpoint := hpts p hp
      refine ⟨p.1.thick p.2, cutChunkSz_axisOf hpoint, ?_, hpoint.start_lt.le⟩
      have hthick : p.1.thick p.2 ≤ p.1.chunk := Nat.min_le_left _ _
      have hfit := hpoint.fits
      rw [Nat.succ_mul] at hfit
      simp only
      omega
    · refine ⟨place (dims ds e) os, ?_, ?_⟩
      · rw [← hfields.2.1]
        exact place_lt hin hos
      · intro b
        rw [hoffset, hwf.derived.chunkDimSz, ← hfields.2.1]
        apply chunkStart_eq hin hos
        rw [hfields.2.1]
        exact hwf.fits.chunk _ (List.sublist_append_left _ _)

end Selects

/--
In every state that calls of `next` reach, the coordinates are in the selection,
and the look-up and the subtractions of the next call are safe.
-/
theorem coordsOk_of_visited (ds : Dataset D) (hwf : ds.WellFormed) (e : Extents)
    (h : Selects ds e) (b : Build) (s : ChunkSlicer D) (hs : Visited b ds e s) :
    CoordsOk ds s := by
  rcases h.within_of_visited hwf hs with ⟨offset, os, hos, rfl⟩
  exact h.coordsOk hwf hos

theorem coordsOk_of_visited_lastColumn :
    ∃ item s', (slicerAt edge lastColumn 0 [0, 0]).next .release =
      .ok (some (item, s')) ∧ CoordsOk edge s' :=
  ⟨_, _, rfl, coordsOk_of_visited edge edge_wellFormed lastColumn
    edge_selects_lastColumn .release _
    (.step (.start (edge_selects_lastColumn.chunkSlices_eq edge_wellFormed))
      ⟨_, rfl⟩)⟩

end Hidefix.Slices
