import Hidefix.Idx.Positions
import Hidefix.Slices.Step

/-!
# The slicer on a selection

A dataset and a selection give a list of `Dim`; the slicer is in step with a
position of the selection when its counter and its coordinates name it.  Where
it is, `next` comes down to one pass of the dimension loop.
-/

namespace Hidefix.Slices

open MixedRadix
open Foundation
open Idx

def selection : (shape chunkShape starts counts : List Nat) → List Dim
  | n :: shape, c :: chunkShape, s :: starts, k :: counts =>
      ⟨n, c, s, k⟩ :: selection shape chunkShape starts counts
  | _, _, _, _ => []

def sizes (ds : List Dim) : List Nat := ds.map Dim.size

def starts (ds : List Dim) : List Nat := ds.map Dim.start

def coordsOf (ds : List Dim) (os : List Nat) : List Nat :=
  List.zipWith (fun d o => d.start + o) ds os

theorem selection_fields {shape chunk ss ks : List Nat}
    (hchunk : chunk.length = shape.length) (hs : ss.length = shape.length)
    (hk : ks.length = shape.length) :
    sizes (selection shape chunk ss ks) = shape ∧
      chunkShape (selection shape chunk ss ks) = chunk ∧
      starts (selection shape chunk ss ks) = ss ∧
      counts (selection shape chunk ss ks) = ks := by
  induction shape generalizing chunk ss ks with
  | nil =>
      obtain rfl := List.eq_nil_of_length_eq_zero hchunk
      obtain rfl := List.eq_nil_of_length_eq_zero hs
      obtain rfl := List.eq_nil_of_length_eq_zero hk
      exact ⟨rfl, rfl, rfl, rfl⟩
  | cons n shape ih =>
      obtain ⟨c, chunk, rfl⟩ := List.exists_cons_of_length_eq_add_one hchunk
      obtain ⟨s, ss, rfl⟩ := List.exists_cons_of_length_eq_add_one hs
      obtain ⟨k, ks, rfl⟩ := List.exists_cons_of_length_eq_add_one hk
      obtain ⟨h1, h2, h3, h4⟩ := @ih chunk ss ks
        (by simpa using hchunk) (by simpa using hs) (by simpa using hk)
      refine ⟨?_, ?_, ?_, ?_⟩
      · exact congrArg (n :: ·) h1
      · exact congrArg (c :: ·) h2
      · exact congrArg (s :: ·) h3
      · exact congrArg (k :: ·) h4

variable {ds : List Dim} {os : List Nat} {b : Build}

theorem cellOf_coordsOf (h : os.length = ds.length) :
    cellOf (chunkShape ds) (coordsOf ds os) = cells ds os := by
  induction ds generalizing os with
  | nil =>
      obtain rfl := List.eq_nil_of_length_eq_zero h
      rfl
  | cons d ds ih =>
      obtain ⟨o, os, rfl⟩ := List.exists_cons_of_length_eq_add_one h
      exact congrArg (d.cell o :: ·) (ih (by simpa using h))

theorem coordsOf_inBox (h : InBounds ds) (hos : InBox (counts ds) os) :
    InBox (sizes ds) (coordsOf ds os) := by
  induction ds generalizing os with
  | nil =>
      cases hos
      exact .nil
  | cons d ds ih =>
      cases hos with
      | @cons o _ os _ ho hos =>
          obtain ⟨-, -, hsize⟩ := h.head
          exact .cons (show d.start + o < d.size by omega) (ih h.tail hos)

theorem fromOffset_coordsOf (h : os.length = ds.length) :
    fromOffset (cellOffset (chunkShape ds) (cells ds os)) (coordsOf ds os) =
      withins ds os := by
  induction ds generalizing os with
  | nil =>
      obtain rfl := List.eq_nil_of_length_eq_zero h
      rfl
  | cons d ds ih =>
      obtain ⟨o, os, rfl⟩ := List.exists_cons_of_length_eq_add_one h
      have hcell := d.cell_mul_add_within o
      change (d.start + o - d.cell o * d.chunk) :: _ = d.within o :: _
      rw [show d.start + o - d.cell o * d.chunk = d.within o by omega]
      exact congrArg _ (ih (by simpa using h))

theorem cellOffset_le_coordsOf (h : os.length = ds.length) :
    List.Forall₂ (fun offset x => offset ≤ x)
      (cellOffset (chunkShape ds) (cells ds os)) (coordsOf ds os) := by
  induction ds generalizing os with
  | nil => exact .nil
  | cons d ds ih =>
      cases os with
      | nil => simp at h
      | cons o os =>
          have hcell := d.cell_mul_add_within o
          have hle : d.cell o * d.chunk ≤ d.start + o := by omega
          exact .cons hle (ih (by simpa using h))

theorem chunkStart_eq (h : InBounds ds) (hos : InBox (counts ds) os)
    (hfit : (chunkShape ds).prod < 2 ^ 64) :
    ChunkSlicer.chunkStart b (coordsOf ds os)
        (cellOffset (chunkShape ds) (cells ds os)) (strides (chunkShape ds)) =
      .ok (place ds os) := by
  have hlen : os.length = ds.length := by simpa [counts] using hos.length_eq
  have hsum := sum_mul_strides (chunkShape ds) (withins ds os)
  rw [← fromOffset_coordsOf hlen] at hsum
  have hlt : place ds os < 2 ^ 64 := (place_lt h hos).trans hfit
  rw [place, ← fromOffset_coordsOf hlen, ← hsum] at hlt ⊢
  exact chunkStart_of_sum (cellOffset_le_coordsOf hlen) hlt

theorem axes_reverse (hos : os.length = ds.length) :
    (((starts ds).zip (os.zip ((counts ds).zip
      (((counts ds).map StrengthReducedU64.reduced).zip
        ((cellOffset (chunkShape ds) (cells ds os)).zip
          ((chunkShape ds).zip
            ((strides (chunkShape ds)).zip (sizes ds)))))))).map
      fun (idx, offset, count, countSru, chunkOffset, chunkSz, chunkDimSz,
          shape) =>
        ({ idx, offset, count, countSru, chunkOffset, chunkSz, chunkDimSz,
           shape } : Axis)).reverse = axesOf 1 (points ds os) := by
  have happend : ∀ (w : Nat) (pts : List Point) (d : Dim) (o : Nat),
      axesOf w (pts ++ [(d, o)]) =
        axesOf w pts ++ [axisOf (w * (pts.map fun p => p.1.chunk).prod) d o] := by
    intro w pts d o
    induction pts generalizing w with
    | nil => simp
    | cons p pts ih =>
        obtain ⟨e, q⟩ := p
        simp [ih, Nat.mul_assoc]
  have hchunks : ∀ (ds : List Dim) (os : List Nat), os.length = ds.length →
      ((points ds os).map fun p => p.1.chunk).prod = (chunkShape ds).prod := by
    intro ds os hlen
    rw [points, List.map_reverse, List.prod_reverse]
    have hmap : (ds.zip os).map (fun p => p.1.chunk) =
        ((ds.zip os).map Prod.fst).map Dim.chunk := by simp
    rw [hmap, List.map_fst_zip hlen.ge, chunkShape]
  induction ds generalizing os with
  | nil =>
      obtain rfl := List.eq_nil_of_length_eq_zero hos
      rfl
  | cons d ds ih =>
      obtain ⟨o, os, rfl⟩ := List.exists_cons_of_length_eq_add_one hos
      have hlen : os.length = ds.length := by simpa using hos
      rw [points_cons, happend, ← ih hlen, hchunks ds os hlen, Nat.one_mul]
      exact List.reverse_cons

theorem fits_of_ends (h : InBounds ds)
    (hends : List.Forall₂ (fun k c => k * c < 2 ^ 64)
      (cellCounts (sizes ds) (chunkShape ds)) (chunkShape ds)) : Fits ds := by
  induction ds with
  | nil => intro d hd; cases hd
  | cons d ds ih =>
      cases hends with
      | cons hend hends =>
          intro e he o ho
          rcases List.mem_cons.mp he with rfl | he
          · obtain ⟨hc, -, hsize⟩ := h.head
            have hcell := e.cell_mul_add_within o
            have hlt : e.cell o < divCeil e.size e.chunk :=
              (lt_divCeil hc).mpr (by omega)
            exact (Nat.mul_le_mul_right _ hlt).trans_lt hend
          · exact ih h.tail hends e he o ho

/-! ## A selection of a dataset -/

variable {D : Nat}

def dims (ds : Dataset D) (e : Extents) : List Dim :=
  selection ds.shape.toList ds.chunkShape.toList
    (e.starts ds.shape.toList) (e.counts ds.shape.toList)

/-- The selection has the rank of the dataset and lies inside its shape. -/
structure Inside (ds : Dataset D) (e : Extents) : Prop where
  ranked : e.Ranked ds.shape.toList
  inside : ∀ d ∈ dims ds e, d.start + d.count ≤ d.size

/-- An in-bounds selection: every count at least one, every end in the shape. -/
structure Selects (ds : Dataset D) (e : Extents) : Prop where
  ranked : e.Ranked ds.shape.toList
  inside : ∀ d ∈ dims ds e, 1 ≤ d.count ∧ d.start + d.count ≤ d.size

theorem dims_fields {ds : Dataset D} {e : Extents}
    (h : e.Ranked ds.shape.toList) :
    sizes (dims ds e) = ds.shape.toList ∧
      chunkShape (dims ds e) = ds.chunkShape.toList ∧
      starts (dims ds e) = e.starts ds.shape.toList ∧
      counts (dims ds e) = e.counts ds.shape.toList :=
  selection_fields (by simp) (Extents.length_starts h) (Extents.length_counts h)

abbrev slicerAt (ds : Dataset D) (e : Extents) (offset : Nat) (os : List Nat) :
    ChunkSlicer D where
  dataset := ds
  offset := offset
  offsetCoords := os
  indices := starts (dims ds e)
  counts := counts (dims ds e)
  countsReduced := (counts (dims ds e)).map StrengthReducedU64.reduced
  stop := (counts (dims ds e)).prod

theorem exceeds_eq_false {ds : List Dim}
    (h : ∀ d ∈ ds, d.start + d.count ≤ d.size ∧ d.size < 2 ^ 64) :
    exceeds b (starts ds) (counts ds) (sizes ds) = .ok false := by
  induction ds with
  | nil => rfl
  | cons d ds ih =>
      obtain ⟨hend, hsize⟩ := h d (by simp)
      change (do
        let l ← addU64 b d.start d.count
        if l > d.size then .ok true
        else exceeds b (starts ds) (counts ds) (sizes ds)) = Except.ok false
      rw [addU64_eq (by omega), ok_bind, if_neg (by omega),
        ih fun d hd => h d (by simp [hd])]

theorem ends_eq {ds : List Dim}
    (h : ∀ d ∈ ds, d.start + d.count ≤ d.size ∧ d.size < 2 ^ 64) :
    ((starts ds).zip (counts ds)).mapM (fun p => addU64 b p.1 p.2) =
      .ok (ds.map fun d => d.start + d.count) := by
  induction ds with
  | nil => rfl
  | cons d ds ih =>
      obtain ⟨hend, hsize⟩ := h d (by simp)
      have htail := ih fun d hd => h d (by simp [hd])
      simp only [starts, counts, List.map_cons, List.zip_cons_cons,
        List.mapM_cons] at htail ⊢
      rw [addU64_eq (by omega), ok_bind, htail]
      rfl

theorem starts_add {ds : List Dim} {os : List Nat}
    (h : ∀ d ∈ ds, d.start + d.count ≤ d.size ∧ d.size < 2 ^ 64)
    (hos : InBox (counts ds) os) :
    ((starts ds).zip os).mapM (fun p => addU64 b p.1 p.2) =
      .ok (coordsOf ds os) := by
  induction ds generalizing os with
  | nil =>
      cases hos
      rfl
  | cons d ds ih =>
      cases hos with
      | @cons o _ os _ ho hos =>
          obtain ⟨hend, hsize⟩ := h d (by simp)
          have htail := ih (fun d hd => h d (by simp [hd])) hos
          simp only [starts, List.map_cons, List.zip_cons_cons,
            List.mapM_cons] at htail ⊢
          rw [addU64_eq (by omega), ok_bind, htail]
          rfl

namespace Inside

variable {ds : Dataset D} {e : Extents}

theorem size_lt (h : Inside ds e) (hwf : ds.WellFormed) :
    ∀ d ∈ dims ds e, d.start + d.count ≤ d.size ∧ d.size < 2 ^ 64 := by
  intro d hd
  refine ⟨h.inside d hd, ?_⟩
  have hmem : d.size ∈ ds.shape.toList := by
    rw [← (dims_fields h.ranked).1]
    exact List.mem_map_of_mem hd
  have := hwf.fits.shape [d.size] (by
    simpa using List.mem_append_left [ds.dsize] hmem)
  simpa using this

theorem fitsU64 (h : Inside ds e) (hwf : ds.WellFormed) :
    FitsU64 (counts (dims ds e) ++ [ds.dsize]) := by
  have hle : List.Forall₂ (· ≤ ·) (counts (dims ds e)) (sizes (dims ds e)) := by
    unfold counts sizes
    rw [List.forall₂_map_left_iff, List.forall₂_map_right_iff,
      List.forall₂_same]
    exact fun d hd => (Nat.le_add_left _ _).trans (h.inside d hd)
  rw [(dims_fields h.ranked).1] at hle
  exact hwf.fits.shape.mono (List.rel_append hle (.cons (le_refl _) .nil))

theorem fitsU64_counts (h : Inside ds e) (hwf : ds.WellFormed) :
    FitsU64 (counts (dims ds e)) :=
  (h.fitsU64 hwf).sublist (List.sublist_append_left _ _)

theorem selects (h : Inside ds e) (hpos : 0 ∉ counts (dims ds e)) : Selects ds e := by
  refine ⟨h.ranked, fun d hd => ⟨?_, h.inside d hd⟩⟩
  rw [Nat.one_le_iff_ne_zero]
  intro hcount
  exact hpos (hcount ▸ List.mem_map_of_mem hd)

theorem chunkSlices_empty (h : Inside ds e) (hwf : ds.WellFormed)
    (hzero : 0 ∈ counts (dims ds e)) :
    ds.chunkSlices b e = .ok (ChunkSlicer.empty ds) := by
  have hlen : ds.shape.toList.length = D := by simp
  obtain ⟨hsize, -, hstart, hcount⟩ := dims_fields h.ranked
  have hstarts : e.getStartCountSized D ds.shape.toList =
      .ok (starts (dims ds e), counts (dims ds e)) := by
    have := Extents.getStartCountSized_ranked h.ranked
    rw [hstart, hcount]
    rwa [hlen] at this
  have hany : (counts (dims ds e)).any (· = 0) = true :=
    List.any_eq_true.mpr ⟨0, hzero, by simp⟩
  unfold Dataset.chunkSlices
  rw [hstarts]
  simp only [unwrapResult, ok_bind]
  rw [← hsize, exceeds_eq_false (h.size_lt hwf), ok_bind, hany, if_pos (.inr rfl)]

theorem collect_empty (h : Inside ds e) (hwf : ds.WellFormed)
    (hzero : 0 ∈ counts (dims ds e)) (fuel : Nat) :
    ds.collectSlices b (fuel + 1) e = .ok [] := by
  rw [Dataset.collectSlices, h.chunkSlices_empty hwf hzero]
  rfl

theorem items_of_empty (h : Inside ds e) (hwf : ds.WellFormed)
    (hzero : 0 ∈ counts (dims ds e)) {fuel : Nat} {items : List (Item D)}
    (hitems : ds.collectSlices b fuel e = .ok items) : items = [] := by
  cases fuel with
  | zero =>
      rw [Dataset.collectSlices, h.chunkSlices_empty hwf hzero] at hitems
      cases hitems
  | succ fuel =>
      rw [h.collect_empty hwf hzero fuel] at hitems
      cases hitems
      rfl

end Inside

namespace Selects

variable {ds : Dataset D} {e : Extents}

theorem toInside (h : Selects ds e) : Inside ds e :=
  ⟨h.ranked, fun d hd => (h.inside d hd).2⟩

theorem inBounds (h : Selects ds e) (hwf : ds.WellFormed) :
    InBounds (dims ds e) := by
  intro d hd
  obtain ⟨hcount, hsize⟩ := h.inside d hd
  refine ⟨?_, hcount, hsize⟩
  refine hwf.chunk_pos _ ?_
  rw [← (dims_fields h.ranked).2.1]
  exact List.mem_map_of_mem hd

theorem fits (h : Selects ds e) (hwf : ds.WellFormed) : Fits (dims ds e) := by
  obtain ⟨hsize, hchunk, -, -⟩ := dims_fields h.ranked
  refine fits_of_ends (h.inBounds hwf) ?_
  rw [hsize, hchunk]
  exact hwf.fits.ends

theorem size_lt (h : Selects ds e) (hwf : ds.WellFormed) :
    ∀ d ∈ dims ds e, d.start + d.count ≤ d.size ∧ d.size < 2 ^ 64 :=
  h.toInside.size_lt hwf

theorem prod_lt (h : Selects ds e) (hwf : ds.WellFormed) :
    (counts (dims ds e)).prod < 2 ^ 64 :=
  (h.toInside.fitsU64_counts hwf).prod_lt

theorem fitsU64_counts (h : Selects ds e) (hwf : ds.WellFormed) :
    FitsU64 (counts (dims ds e)) :=
  h.toInside.fitsU64_counts hwf

theorem length_counts (h : Selects ds e) :
    (counts (dims ds e)).length = D := by
  rw [(dims_fields h.ranked).2.2.2, Extents.length_counts h.ranked]
  simp

theorem length_dims (h : Selects ds e) : (dims ds e).length = D := by
  simpa [counts] using h.length_counts

theorem length_coords (h : Selects ds e) {os : List Nat}
    (hos : InBox (counts (dims ds e)) os) : os.length = (dims ds e).length := by
  rw [hos.length_eq, h.length_counts, h.length_dims]

theorem zero_inBox (h : Selects ds e) (hwf : ds.WellFormed) :
    InBox (counts (dims ds e)) (List.replicate D 0) := by
  have hbox := unrank_inBox (h.inBounds hwf).counts_pos 0
  rwa [unrank_zero, h.length_counts] at hbox

theorem zero_runStart (h : Selects ds e) :
    RunStart (dims ds e) (List.replicate D 0) := by
  have hstart := runStart_zero (dims ds e)
  rwa [h.length_dims] at hstart

theorem chunkSlices_eq (h : Selects ds e) (hwf : ds.WellFormed) :
    ds.chunkSlices b e =
      .ok (slicerAt ds e 0 (List.replicate D 0)) := by
  have hlen : ds.shape.toList.length = D := by simp
  have hin := h.inBounds hwf
  obtain ⟨hsize, -, hstart, hcount⟩ := dims_fields h.ranked
  have hstarts : e.getStartCountSized D ds.shape.toList =
      .ok (starts (dims ds e), counts (dims ds e)) := by
    have := Extents.getStartCountSized_ranked h.ranked
    rw [hstart, hcount]
    rwa [hlen] at this
  have hzero : (counts (dims ds e)).any (· = 0) = false := by
    rw [List.any_eq_false]
    intro k hk
    have := hin.counts_pos k hk
    simp only [decide_eq_true_eq]
    omega
  have hends := h.size_lt hwf
  unfold Dataset.chunkSlices
  rw [hstarts]
  simp only [unwrapResult, ok_bind]
  rw [← hsize, exceeds_eq_false hends, ok_bind, hzero]
  simp only [Bool.false_eq_true, or_self, if_false]
  have hstop : ChunkSlicer.endOf b ds (counts (dims ds e)) =
      .ok (counts (dims ds e)).prod := by
    unfold ChunkSlicer.endOf
    split
    · rename_i hscalar
      have hD : D = 0 := by simpa [Dataset.isScalar] using hscalar
      have hnil : counts (dims ds e) = [] :=
        List.eq_nil_of_length_eq_zero (h.length_counts.trans hD)
      rw [hnil, List.prod_nil]
    · exact productU64_eq (h.fitsU64_counts hwf)
  have hassert : debugAssertM b (do
      let ends ← ((starts (dims ds e)).zip (counts (dims ds e))).mapM
        fun p => addU64 b p.1 p.2
      .ok ((ends.zip ds.shape.toList).all fun p => p.1 ≤ p.2)) = .ok () := by
    refine debugAssertM_of ?_
    rw [ends_eq hends, ok_bind, ← hsize]
    congr 1
    rw [List.all_eq_true]
    intro p hp
    rw [sizes, List.zip_map'] at hp
    obtain ⟨d, hd, rfl⟩ := List.mem_map.mp hp
    simpa using (hends d hd).1
  unfold ChunkSlicer.new
  rw [hstop, ok_bind, hassert, ok_bind, mapM_new hin.counts_pos, ok_bind]

theorem chunkAt (h : Selects ds e) (hwf : ds.WellFormed) {os : List Nat}
    (hos : InBox (counts (dims ds e)) os) :
    ∃ c ∈ ds.chunks,
      (∀ b, ds.chunkAtCoord b (coordsOf (dims ds e) os) = .ok c) ∧
      (∀ b, c.contains b (coordsOf (dims ds e) os) ds.chunkShape.toList =
        .ok .eq) ∧
      c.offsetU64 =
        cellOffset (chunkShape (dims ds e)) (cells (dims ds e) os) := by
  have hin := h.inBounds hwf
  obtain ⟨hsize, hchunk, -, -⟩ := dims_fields h.ranked
  have hx := coordsOf_inBox hin hos
  rw [hsize] at hx
  obtain ⟨c, hc, hat, hoffset⟩ := hwf.chunkAtCoord_eq hx
  refine ⟨c, hc, hat, fun b => hwf.contains_eq hx hoffset, ?_⟩
  have hlen := h.length_coords hos
  rw [hoffset, ← hchunk, cellOf_coordsOf hlen]

theorem next_eq (h : Selects ds e) (hwf : ds.WellFormed) (hD : D ≠ 0)
    {os : List Nat} (hos : InBox (counts (dims ds e)) os) :
    ∃ c ∈ ds.chunks,
      c.offsetU64 =
        cellOffset (chunkShape (dims ds e)) (cells (dims ds e) os) ∧
      ∀ b, (slicerAt ds e (rank (counts (dims ds e)) os) os).next b = (do
        let (coords, offset, advance) ←
          foldAxes b (counts (dims ds e)).prod (axesOf 1 (points (dims ds e) os))
            (atStart 0 (rank (counts (dims ds e)) os) 0 0)
        debugAssert b (advance > 0)
        let stop ← addU64 b (place (dims ds e) os) advance
        debugAssert b (stop ≤ (chunkShape (dims ds e)).prod)
        .ok (some ((c, place (dims ds e) os, stop),
          slicerAt ds e offset coords))) := by
  have hin := h.inBounds hwf
  obtain ⟨hsize, hchunk, -, -⟩ := dims_fields h.ranked
  have hlen := h.length_coords hos
  obtain ⟨c, hc, hat, hcontains, hoffset⟩ := h.chunkAt hwf hos
  refine ⟨c, hc, hoffset, fun b => ?_⟩
  have hlt := rank_lt hos
  have hstart : ((starts (dims ds e)).zip os).mapM
      (fun p => addU64 b p.1 p.2) = .ok (coordsOf (dims ds e) os) :=
    starts_add (h.size_lt hwf) hos
  have hchunkStart : ChunkSlicer.chunkStart b (coordsOf (dims ds e) os)
      c.offsetU64 ds.chunkDimSz.toList = .ok (place (dims ds e) os) := by
    rw [hoffset, hwf.derived.chunkDimSz, ← hchunk]
    refine chunkStart_eq hin hos ?_
    rw [hchunk]
    exact hwf.fits.chunk _ (List.sublist_append_left _ _)
  have haxes : ((slicerAt ds e (rank (counts (dims ds e)) os) os).axes
      c).reverse = axesOf 1 (points (dims ds e) os) := by
    rw [← axes_reverse hlen, ChunkSlicer.axes, hoffset, hsize, hchunk]
    simp only [hwf.derived.chunkDimSz]
  have hscalar : ¬ ds.isScalar = true := by simpa [Dataset.isScalar] using hD
  have hproduct : productU64 b ds.chunkShape.toList =
      .ok (chunkShape (dims ds e)).prod := by
    rw [hchunk]
    exact productU64_eq
      (hwf.fits.chunk.sublist (List.sublist_append_left _ _))
  unfold ChunkSlicer.next
  rw [if_neg (Nat.not_le.mpr hlt), if_neg hscalar, hstart, ok_bind, hat, ok_bind,
    debugAssertM_of (by rw [hcontains]; rfl), ok_bind, hchunkStart, ok_bind,
    haxes, hproduct]
  unfold foldAxes
  simp only [bind_assoc]
  refine bind_congr fun r => ?_
  simp only [ok_bind, debugAssertM_decide]

end Selects

end Hidefix.Slices
