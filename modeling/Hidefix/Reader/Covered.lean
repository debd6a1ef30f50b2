import Hidefix.Idx.Positions
import Hidefix.Reader.Pieces
import Hidefix.Slices.Lengths

/-!
# A selection that is read is covered

The counter of the slicer moves by the values of each slice, and the iteration
ends when it has reached the number of values selected.  So readers that
complete have written at least as many bytes as they report.
-/

namespace Hidefix.Reader

open Foundation
open Idx
open MixedRadix
open Slices

variable {D : Nat} {env : Env} {ds : Dataset D} {e : Extents} {chunkSz : Nat}

/-! ## One slice -/

theorem length_piece_congr {item : Item D} {piece : Bytes} {distance : Int}
    (hpiece : pieceOf env ds chunkSz item = .ok piece)
    (hdistance : (item.2.2 : Int) ≡ item.2.1 + distance [ZMOD 2 ^ 64]) :
    (piece.length : Int) ≡ distance * ds.dsize [ZMOD 2 ^ 64] := by
  unfold pieceOf at hpiece
  obtain ⟨data, -, hpiece⟩ := bind_eq_ok.mp hpiece
  obtain ⟨start, hstart, hpiece⟩ := bind_eq_ok.mp hpiece
  obtain ⟨stop, hstop, hpiece⟩ := bind_eq_ok.mp hpiece
  have hlen := length_indexRange hpiece
  obtain ⟨hle, -, -⟩ := indexRange_ok hpiece
  have hstart : (start : Int) ≡ item.2.1 * ds.dsize [ZMOD 2 ^ 64] := by
    have := mulU64_modEq hstart
    rw [← Nat.cast_mul]
    unfold Int.ModEq
    omega
  have hstop : (stop : Int) ≡ item.2.2 * ds.dsize [ZMOD 2 ^ 64] := by
    have := mulU64_modEq hstop
    rw [← Nat.cast_mul]
    unfold Int.ModEq
    omega
  have hsub : (piece.length : Int) = stop - start := by omega
  have hdiff : (item.2.2 : Int) - item.2.1 ≡ distance [ZMOD 2 ^ 64] := by
    simpa using hdistance.sub (Int.ModEq.refl (item.2.1 : Int))
  rw [hsub]
  refine (hstop.sub hstart).trans ?_
  rw [← sub_mul]
  exact hdiff.mul_right _

theorem length_piece_debug {item : Item D} {piece : Bytes}
    (henv : env.build = .debug)
    (hpiece : pieceOf env ds chunkSz item = .ok piece) :
    piece.length = sliceLen item * ds.dsize := by
  unfold pieceOf at hpiece
  rw [henv] at hpiece
  obtain ⟨data, -, hpiece⟩ := bind_eq_ok.mp hpiece
  obtain ⟨start, hstart, hpiece⟩ := bind_eq_ok.mp hpiece
  obtain ⟨rfl, -⟩ := mulU64_debug hstart
  obtain ⟨stop, hstop, hpiece⟩ := bind_eq_ok.mp hpiece
  obtain ⟨rfl, -⟩ := mulU64_debug hstop
  rw [length_indexRange hpiece, sliceLen, Nat.sub_mul]

theorem length_piece {item : Item D} {piece : Bytes} (hle : item.2.1 ≤ item.2.2)
    (hword : item.2.2 * ds.dsize < 2 ^ 64)
    (h : pieceOf env ds chunkSz item = .ok piece) :
    piece.length = sliceLen item * ds.dsize := by
  have hstart : item.2.1 * ds.dsize ≤ item.2.2 * ds.dsize := Nat.mul_le_mul_right _ hle
  obtain ⟨data, -, h⟩ := bind_eq_ok.mp h
  rw [mulU64_eq (hstart.trans_lt hword), ok_bind, mulU64_eq hword, ok_bind] at h
  rw [length_indexRange h, sliceLen, Nat.sub_mul]

/-- Sizes for which no step of a release build moves the counter around. -/
def SizesOk (b : Build) (D bound dsz : Nat) : Prop :=
  b = .debug ∨ D * bound * dsz < 2 ^ 63

theorem piece_step {bound : Nat} {s s' : ChunkSlicer D} {item : Item D}
    {piece : Bytes} (hs : RowsLe bound s) (hword : s.offset < 2 ^ 64)
    (hsize : SizesOk env.build D bound ds.dsize) (hdsz : ds.dsize < 2 ^ 64)
    (h : s.next env.build = .ok (some (item, s')))
    (hpiece : pieceOf env ds chunkSz item = .ok piece)
    (hsmall : piece.length < 2 ^ 63) :
    ∃ step : Int, (piece.length : Int) = step * ds.dsize ∧
      (s'.offset : Int) ≡ s.offset + step [ZMOD 2 ^ 64] ∧
      s'.offset < 2 ^ 64 ∧ s'.stop = s.stop ∧ RowsLe bound s' := by
  obtain ⟨step, hstep, hrange, hoffset, hword', hstop, hs'⟩ :=
    next_moved hs hword h
  rcases hsize with hdebug | hsize
  · have hlen := length_piece_debug hdebug hpiece
    rw [hdebug] at h
    obtain ⟨-, hcount, -, -⟩ := next_debug h
    refine ⟨sliceLen item, ?_, ?_, hword', hstop, hs'⟩
    · rw [hlen]
      push_cast
      rfl
    · rw [hcount]
      push_cast
      rfl
  · have hcongr := length_piece_congr hpiece hrange
    refine ⟨step, ?_, hoffset, hword', hstop, hs'⟩
    unfold Int.ModEq at hcongr
    rcases hstep with hstep | rfl
    · have hle : |step * ds.dsize| < 2 ^ 63 := by
        rw [abs_mul, Nat.abs_cast]
        calc |step| * (ds.dsize : Int)
            ≤ (D * bound : Int) * ds.dsize :=
              mul_le_mul_of_nonneg_right hstep (Int.natCast_nonneg _)
          _ = (D * bound * ds.dsize : Nat) := by push_cast; rfl
          _ < 2 ^ 63 := by exact_mod_cast hsize
      rw [abs_lt] at hle
      omega
    · rw [one_mul] at hcongr ⊢
      omega

/-! ## Slices of a selection that is folded correctly -/

theorem located_lt (hwf : ds.WellFormed) {p : Chunk D × Nat} {x : List Nat}
    (h : Located ds p x) : p.2 < ds.chunkShape.toList.prod := by
  rw [h.position, hwf.derived.chunkDimSz, sum_mul_strides]
  exact rank_lt (fromOffset_inBox (by simp) h.contains)

theorem stop_word (hwf : ds.WellFormed) {items : List (Item D)}
    (hwalk : List.Forall₂ (Located ds) (expand items) (walk ds e)) {item : Item D}
    (hitem : item ∈ items) (hlt : item.2.1 < item.2.2) :
    item.2.2 * ds.dsize < 2 ^ 64 := by
  obtain ⟨c, start, stop⟩ := item
  change start < stop at hlt
  -- the last position of the slice is in the chunk
  have hlast : (c, stop - 1) ∈ expand items := by
    rw [expand, List.mem_flatMap]
    refine ⟨_, hitem, List.mem_map.mpr ⟨stop - 1, ?_, rfl⟩⟩
    rw [List.mem_range'_1]
    omega
  have hbound : ∀ p ∈ expand items, p.2 < ds.chunkShape.toList.prod := by
    intro p hp
    obtain ⟨i, hi, rfl⟩ := List.mem_iff_getElem.mp hp
    exact located_lt hwf (hwalk.get hi (hwalk.length_eq ▸ hi))
  have hchunk : stop - 1 < ds.chunkShape.toList.prod := hbound _ hlast
  have hstop : stop ≤ ds.chunkShape.toList.prod := by omega
  have hfits := hwf.fits.chunk.prod_lt
  rw [List.prod_append, List.prod_singleton] at hfits
  exact (Nat.mul_le_mul_right _ hstop).trans_lt hfits

theorem sum_sliceLen {items : List (Item D)} {pieces : List Bytes}
    (hitems : ∀ item ∈ items, ∀ piece, pieceOf env ds chunkSz item = .ok piece →
      piece.length = sliceLen item * ds.dsize)
    (h : PiecesOf env ds chunkSz items pieces) :
    (items.map sliceLen).sum * ds.dsize = pieces.flatten.length := by
  induction h with
  | nil => simp
  | @cons item piece items pieces hpiece _ ih =>
      obtain ⟨hitem, hitems⟩ := List.forall_mem_cons.mp hitems
      simp [Nat.add_mul, ih hitems, hitem piece hpiece]

theorem length_pieces_of_foldable (h : Selects ds e) (hwf : ds.WellFormed)
    (hfold : Foldable (dims ds e)) {fuel : Nat} {items : List (Item D)}
    (hitems : ds.collectSlices env.build fuel e = .ok items) {pieces : List Bytes}
    (hpieces : PiecesOf env ds chunkSz items pieces) :
    pieces.flatten.length = (counts (dims ds e)).prod * ds.dsize := by
  obtain ⟨fuel', items', hcollect, hwalk, hordered⟩ :=
    h.collect_of_foldable hwf hfold env.build
  obtain rfl := collectSlices_unique hitems hcollect
  have hsum : (items.map sliceLen).sum = (counts (dims ds e)).prod := by
    rw [← length_expand, hwalk.length_eq, h.walk_eq_walkFrom, length_walkFrom,
      Nat.sub_zero]
  rw [← hsum]
  refine (sum_sliceLen (fun item hitem piece hpiece => ?_) hpieces).symm
  rcases (hordered item hitem).lt_or_eq with hlt | heq
  · exact length_piece hlt.le (stop_word hwf hwalk hitem hlt) hpiece
  · -- an empty slice ends where it starts, also where that has wrapped
    obtain ⟨data, -, hpiece⟩ := bind_eq_ok.mp hpiece
    obtain ⟨start, hstart, hpiece⟩ := bind_eq_ok.mp hpiece
    obtain ⟨stop, hstop, hpiece⟩ := bind_eq_ok.mp hpiece
    rw [← heq, hstart] at hstop
    cases hstop
    rw [length_indexRange hpiece, sliceLen, heq, Nat.sub_self, Nat.sub_self, Nat.zero_mul]

/-! ## The whole iteration -/

theorem next_none {b : Build} {s : ChunkSlicer D} (h : s.next b = .ok none) :
    s.stop ≤ s.offset := by
  unfold ChunkSlicer.next at h
  split at h
  · assumption
  · exfalso
    split at h
    · obtain ⟨_, -, h⟩ := bind_eq_ok.mp h
      obtain ⟨_, -, h⟩ := bind_eq_ok.mp h
      split at h <;> cases h
    · obtain ⟨_, -, h⟩ := bind_eq_ok.mp h
      obtain ⟨_, -, h⟩ := bind_eq_ok.mp h
      obtain ⟨_, -, h⟩ := bind_eq_ok.mp h
      obtain ⟨_, -, h⟩ := bind_eq_ok.mp h
      obtain ⟨_, -, h⟩ := bind_eq_ok.mp h
      obtain ⟨_, -, h⟩ := bind_eq_ok.mp h
      obtain ⟨_, -, h⟩ := bind_eq_ok.mp h
      obtain ⟨_, -, h⟩ := bind_eq_ok.mp h
      obtain ⟨_, -, h⟩ := bind_eq_ok.mp h
      cases h

theorem counter_eq {offset offset' dsz size : Nat} {step : Int}
    (hdsz : 0 < dsz) (hstep : (size : Int) = step * dsz)
    (hmoved : (offset' : Int) ≡ offset + step [ZMOD 2 ^ 64])
    (hword : offset' < 2 ^ 64) (hfit : offset * dsz + size < 2 ^ 64) :
    offset' * dsz = offset * dsz + size := by
  have hpos : (0 : Int) < dsz := by exact_mod_cast hdsz
  have hnonneg : 0 ≤ step := by
    refine nonneg_of_mul_nonneg_left ?_ hpos
    rw [← hstep]
    exact Int.natCast_nonneg _
  obtain ⟨n, rfl⟩ := Int.eq_ofNat_of_zero_le hnonneg
  have hsize : size = n * dsz := by exact_mod_cast hstep
  have hlt : offset + n < 2 ^ 64 := by
    refine lt_of_le_of_lt (Nat.le_mul_of_pos_right _ hdsz) ?_
    rwa [Nat.add_mul, ← hsize]
  have hoffset : offset' = offset + n := by
    unfold Int.ModEq at hmoved
    omega
  rw [hoffset, hsize, Nat.add_mul]

theorem pieces_cover {bound fuel : Nat} {s : ChunkSlicer D}
    {items : List (Item D)} {pieces : List Bytes} (hs : RowsLe bound s)
    (hsize : SizesOk env.build D bound ds.dsize) (hpos : 0 < ds.dsize)
    (hdsz : ds.dsize < 2 ^ 64) (hstop : s.stop * ds.dsize < 2 ^ 63)
    (hoffset : s.offset * ds.dsize < 2 ^ 64)
    (hrun : s.run env.build fuel = (items, .exhausted))
    (hpieces : PiecesOf env ds chunkSz items pieces)
    (hsmall : ∀ piece ∈ pieces, piece.length < 2 ^ 63) :
    s.stop * ds.dsize ≤ s.offset * ds.dsize + pieces.flatten.length ∧
      s.offset * ds.dsize + pieces.flatten.length < 2 ^ 64 := by
  induction fuel generalizing s items pieces with
  | zero => cases hrun
  | succ fuel ih =>
      cases hnext : s.next env.build with
      | error f =>
          rw [ChunkSlicer.run_fault hnext] at hrun
          cases hrun
      | ok r =>
          cases r with
          | none =>
              rw [ChunkSlicer.run_none hnext] at hrun
              cases hrun
              cases hpieces
              exact ⟨Nat.mul_le_mul_right _ (next_none hnext), hoffset⟩
          | some r =>
              obtain ⟨item, s'⟩ := r
              obtain ⟨rest, rfl, hrest⟩ :=
                ChunkSlicer.run_some_exhausted hnext hrun
              cases hpieces with
              | @cons _ piece _ pieces hpiece hpieces =>
                  obtain ⟨hfirst, hsmall⟩ := List.forall_mem_cons.mp hsmall
                  have hlt : s.offset < s.stop := by
                    by_contra hge
                    rw [ChunkSlicer.next_end (not_lt.mp hge)] at hnext
                    cases hnext
                  have hleft : s.offset * ds.dsize ≤ s.stop * ds.dsize :=
                    Nat.mul_le_mul_right _ hlt.le
                  have hword : s.offset < 2 ^ 64 :=
                    (Nat.le_mul_of_pos_right _ hpos).trans_lt hoffset
                  obtain ⟨step, hstep, hmoved, hword', hstop', hs'⟩ :=
                    piece_step hs hword hsize hdsz hnext hpiece hfirst
                  have hcount := counter_eq hpos hstep hmoved hword' (by omega)
                  obtain ⟨hcover, hfit⟩ := ih hs' (by rwa [hstop']) (by omega)
                    hrest hpieces hsmall
                  rw [hstop'] at hcover
                  rw [List.flatten_cons, List.length_append]
                  omega

end Hidefix.Reader
