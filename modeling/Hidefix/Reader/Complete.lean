import Hidefix.Reader.Destination
import Hidefix.Reader.Serialized

/-!
# Readers return what can be read

Where the bytes of every slice can be read and the destination holds them, the
reader with a cache, the direct reader and the direct reader with any schedule
return, and have written the bytes of the slices one after the other.
-/

namespace Hidefix.Reader

open Buffer (Write write writeAll layout)
open Caching (LruCache)
open Foundation
open Idx
open Slices
open Sorting (UnstableSort)

variable {D : Nat} {L : LruCache Nat Bytes} {env : Env} {ds : Dataset D}
variable {chunkSz : Nat} {e : Extents}

theorem pieceOf_eq {item : Item D} {data : Bytes} (hle : item.2.1 ≤ item.2.2)
    (hword : item.2.2 * ds.dsize < 2 ^ 64)
    (hdata : chunkData env ds chunkSz item.1 = .ok data)
    (hin : item.2.2 * ds.dsize ≤ data.length) :
    pieceOf env ds chunkSz item = .ok ((data.drop (item.2.1 * ds.dsize)).take
      (item.2.2 * ds.dsize - item.2.1 * ds.dsize)) := by
  have hstart : item.2.1 * ds.dsize ≤ item.2.2 * ds.dsize := Nat.mul_le_mul_right _ hle
  have hstartWord := hstart.trans_lt hword
  simp [pieceOf, hdata, mulU64_eq hstartWord, mulU64_eq hword, indexRange, hstart, hin]

/-! ## The reader with a cache -/

namespace CacheReader

theorem readSliceAgain_of {d : Dst} {item : Item D} {piece : Bytes}
    (hpiece : pieceOf env ds chunkSz item = .ok piece)
    (hfit : piece.length ≤ d.dst.length) :
    readSliceAgain env ds chunkSz d item =
      .ok ⟨d.written ++ piece, d.dst.drop piece.length⟩ := by
  obtain ⟨data, hdata, hpiece⟩ := bind_eq_ok.mp hpiece
  obtain ⟨start, hstart, hpiece⟩ := bind_eq_ok.mp hpiece
  obtain ⟨stop, hstop, hpiece⟩ := bind_eq_ok.mp hpiece
  have hlen := length_indexRange hpiece
  obtain ⟨hle, hin, -⟩ := indexRange_ok hpiece
  have hbounds : sliceBounds env.build ds.dsize item.2.1 item.2.2 =
      .ok (start, stop, stop - start) := by
    simp [sliceBounds, hstart, hstop, hle, subU64_eq]
  have hcopy : stop - start ≤ d.dst.length := hlen ▸ hfit
  simp [readSliceAgain, hbounds, hdata, copySlice, hle.trans hin, hin, hcopy, hpiece,
    hlen]

theorem foldlM_readSliceAgain_of {items : List (Item D)} {pieces : List Bytes} {d : Dst}
    (h : PiecesOf env ds chunkSz items pieces)
    (hfit : pieces.flatten.length ≤ d.dst.length) :
    items.foldlM (readSliceAgain env ds chunkSz) d =
      .ok ⟨d.written ++ pieces.flatten, d.dst.drop pieces.flatten.length⟩ := by
  induction h generalizing d with
  | nil => simp [pure, Except.pure]
  | @cons item piece items pieces hpiece _ ih =>
      rw [List.flatten_cons, List.length_append] at hfit
      rw [List.foldlM_cons, readSliceAgain_of hpiece (by omega), ok_bind,
        ih (by rw [List.length_drop]; omega)]
      simp

theorem Sound.readTo_eq {r : CacheReader D L} (hr : r.Sound env ds chunkSz)
    (haddr : (ds.chunks.map Chunk.addr).Nodup) {fuel n : Nat} {dst : Bytes}
    {items : List (Item D)} (hn : ensureCapacity env.build ds e dst.length = .ok n)
    (hitems : ds.collectSlices env.build fuel e = .ok items) :
    (r.readTo env fuel e dst).2 = (do
      let d ← items.foldlM (readSliceAgain env ds chunkSz) ⟨[], dst⟩
      .ok (d.written ++ d.dst, n)) := by
  obtain ⟨slicer, hslicer, hrun⟩ := collectSlices_ok hitems
  have hmem : ∀ item ∈ items, item.1 ∈ ds.chunks := fun item hitem =>
    (collectSlices_itemOk hitems item hitem).mem
  have hread := (hr.readSlices haddr hmem ⟨[], dst⟩).1
  rw [← hread]
  unfold CacheReader.readTo
  simp only [hr.ds_eq, hn, hslicer, ok_bind, hrun]
  generalize r.readSlices env ⟨[], dst⟩ items = step
  obtain ⟨r', res⟩ := step
  cases res with
  | error fault => rfl
  | ok d => rfl

theorem Sound.readTo_of {r : CacheReader D L} (hr : r.Sound env ds chunkSz)
    (haddr : (ds.chunks.map Chunk.addr).Nodup) {fuel n : Nat} {dst : Bytes}
    {items : List (Item D)} {pieces : List Bytes}
    (hn : ensureCapacity env.build ds e dst.length = .ok n)
    (hitems : ds.collectSlices env.build fuel e = .ok items)
    (hpieces : PiecesOf env ds chunkSz items pieces)
    (hfit : pieces.flatten.length ≤ dst.length) :
    (r.readTo env fuel e dst).2 =
      .ok (pieces.flatten ++ dst.drop pieces.flatten.length, n) := by
  rw [hr.readTo_eq haddr hn hitems, foldlM_readSliceAgain_of hpieces hfit, ok_bind,
    List.nil_append]

end CacheReader

/-! ## The direct reader -/

namespace Direct

variable {r : Direct D} {dst : Bytes}

theorem readSegmentAgain_of {s : Segment D} {w : Write UInt8}
    (hw : writeOf env r.ds r.chunkSz s = .ok w) (hfit : w.Fits dst.length)
    (hdst : dst.length < 2 ^ 64) :
    r.readSegmentAgain env dst s = .ok (write dst w.1 w.2) := by
  obtain ⟨piece, hpiece, hw⟩ := bind_eq_ok.mp hw
  obtain ⟨current, hcurrent, hw⟩ := bind_eq_ok.mp hw
  cases hw
  obtain ⟨data, hdata, hpiece⟩ := bind_eq_ok.mp hpiece
  obtain ⟨start, hstart, hpiece⟩ := bind_eq_ok.mp hpiece
  obtain ⟨stop, hstop, hpiece⟩ := bind_eq_ok.mp hpiece
  have hlen := length_indexRange hpiece
  obtain ⟨hle, hin, -⟩ := indexRange_ok hpiece
  have hfit : current + (stop - start) ≤ dst.length := hlen ▸ hfit
  have hend : addU64 env.build current (stop - start) =
      .ok (current + (stop - start)) := addU64_eq (hfit.trans_lt hdst)
  simp [readSegmentAgain, segmentBounds, copySegment, hdata, hstart, hstop, hcurrent,
    hle.trans hin, hin, subU64_eq hle, hend, hfit, hpiece]

theorem readSegmentRawAgain_of {s : Segment D} {w : Write UInt8}
    (hw : writeOf env r.ds r.chunkSz s = .ok w) (hfit : w.Fits dst.length) :
    r.readSegmentRawAgain env dst s = .ok (write dst w.1 w.2) := by
  obtain ⟨piece, hpiece, hw⟩ := bind_eq_ok.mp hw
  obtain ⟨current, hcurrent, hw⟩ := bind_eq_ok.mp hw
  cases hw
  obtain ⟨data, hdata, hpiece⟩ := bind_eq_ok.mp hpiece
  obtain ⟨start, hstart, hpiece⟩ := bind_eq_ok.mp hpiece
  obtain ⟨stop, hstop, hpiece⟩ := bind_eq_ok.mp hpiece
  have hlen := length_indexRange hpiece
  obtain ⟨hle, hin, -⟩ := indexRange_ok hpiece
  have hfit : current + (stop - start) ≤ dst.length := hlen ▸ hfit
  have hplace : current ≤ dst.length := (Nat.le_add_right _ _).trans hfit
  simp [readSegmentRawAgain, readSegmentRaw, segmentBounds, copyRaw, hdata, hstart,
    hstop, hcurrent, hle.trans hin, hin, subU64_eq hle, hplace, hfit, hpiece]

/-- Steps that each make the write of their segment make all the writes. -/
theorem foldlM_of_writes {step : Bytes → Segment D → Exec Bytes} {n : Nat}
    (hstep : ∀ dst s w, dst.length = n → writeOf env ds chunkSz s = .ok w →
      w.Fits dst.length → step dst s = .ok (write dst w.1 w.2))
    {segments : List (Segment D)} {ws : List (Write UInt8)}
    (hws : WritesOf env ds chunkSz segments ws) (hdst : dst.length = n)
    (hfits : ∀ w ∈ ws, w.Fits n) :
    segments.foldlM step dst = .ok (writeAll dst ws) := by
  induction hws generalizing dst with
  | nil => rfl
  | @cons s w segments ws hw _ ih =>
      obtain ⟨hfit, hfits⟩ := List.forall_mem_cons.mp hfits
      rw [← hdst] at hfit
      rw [List.foldlM_cons, hstep dst s w hdst hw hfit, ok_bind,
        ih ((Buffer.length_write hfit).trans hdst) hfits, Buffer.writeAll_cons]

theorem scheduled_groups {segments : List (Segment D)} (schedule : Schedule D)
    (hmem : ∀ s ∈ segments, s.1 ∈ ds.chunks) :
    ∀ group ∈ schedule.order (groupsOf segments), group ≠ [] ∧
      (∀ s ∈ group, s.1 ∈ ds.chunks) ∧ ∀ a ∈ group, ∀ b ∈ group, a.1.addr = b.1.addr := by
  intro group hgroup
  obtain ⟨hne, hsub, hsame⟩ := groupsOf_ok ((schedule.perm _).mem_iff.mp hgroup)
  exact ⟨hne, fun s hs => hmem s (hsub s hs), hsame⟩

theorem scheduled_flatten (segments : List (Segment D)) (schedule : Schedule D) :
    (schedule.order (groupsOf segments)).flatten.Perm segments := by
  have hflat := (schedule.perm (groupsOf segments)).flatten
  rwa [flatten_groupsOf] at hflat

theorem writesOf_tagged {items : List (Item D)} {pieces : List Bytes} {before : Nat}
    (hitems : ∀ item ∈ items, item.2.1 ≤ item.2.2 ∧ item.2.2 * ds.dsize < 2 ^ 64)
    (h : PiecesOf env ds chunkSz items pieces)
    (hfit : before * ds.dsize + pieces.flatten.length < 2 ^ 64) :
    WritesOf env ds chunkSz (tagged items before)
      (layout (before * ds.dsize) pieces) := by
  induction h generalizing before with
  | nil => exact .nil
  | @cons item piece items pieces hpiece _ ih =>
      obtain ⟨hitem, hitems⟩ := List.forall_mem_cons.mp hitems
      have hlen := length_piece hitem.1 hitem.2 hpiece
      rw [List.flatten_cons, List.length_append] at hfit
      have hplace : (before + sliceLen item) * ds.dsize =
          before * ds.dsize + piece.length := by rw [Nat.add_mul, hlen]
      have htail := @ih (before + sliceLen item) hitems (by rw [hplace]; omega)
      rw [hplace] at htail
      have hcurrent : mulU64 env.build before ds.dsize = .ok (before * ds.dsize) :=
        mulU64_eq (by omega)
      exact .cons (by simp [writeOf, hpiece, hcurrent]) htail

end Direct

/-! ## Streams -/

theorem StreamReader.yieldSliceAgain_of {item : Item D} {piece : Bytes}
    (hitem : item.2.1 ≤ item.2.2 ∧ item.2.2 * ds.dsize < 2 ^ 64)
    (hpiece : pieceOf env ds chunkSz item = .ok piece) :
    yieldSliceAgain env ⟨ds, chunkSz⟩ .ok .ok (sliceAt ds.dsize item) = .ok piece := by
  obtain ⟨data, hdata, hpiece⟩ := bind_eq_ok.mp hpiece
  have hstart : item.2.1 * ds.dsize ≤ item.2.2 * ds.dsize :=
    Nat.mul_le_mul_right _ hitem.1
  rw [mulU64_eq (hstart.trans_lt hitem.2), ok_bind, mulU64_eq hitem.2, ok_bind]
    at hpiece
  obtain ⟨hle, hin, -⟩ := indexRange_ok hpiece
  rw [yieldSliceAgain_eq (r := ⟨ds, chunkSz⟩) (x := 1) hitem.1 (by simp) (by simp)]
  simp [hdata, sliceBytes, hle.trans hin, hin, hpiece]

/-! ## All readers -/

structure Available (env : Env) (ds : Dataset D) (e : Extents) (fuel chunkSz : Nat)
    (items : List (Item D)) (pieces : List Bytes) : Prop where
  chunkSz_eq : ds.chunkBytes env.build = .ok chunkSz
  collected : ds.collectSlices env.build fuel e = .ok items
  ordered : ∀ item ∈ items, item.2.1 ≤ item.2.2 ∧ item.2.2 * ds.dsize < 2 ^ 64
  pieces_eq : PiecesOf env ds chunkSz items pieces
  length_eq : pieces.flatten.length = (counts (dims ds e)).prod * ds.dsize

namespace Available

variable {fuel : Nat} {items : List (Item D)} {pieces : List Bytes} {dst : Bytes}

theorem segments (h : Available env ds e fuel chunkSz items pieces) (hwf : ds.WellFormed)
    (hin : Inside ds e) (hpos : 0 < ds.dsize)
    (sort : UnstableSort (Segment D) Segment.addr) :
    ∃ ws, ds.groupChunkSlices sort env.build fuel e = .ok (sort.sort (tagged items 0)) ∧
      WritesOf env ds chunkSz (sort.sort (tagged items 0)) ws ∧
      ∀ w ∈ ws, w.Fits ((counts (dims ds e)).prod * ds.dsize) := by
  have hword := (hin.fitsU64 hwf).prod_lt
  rw [List.prod_append, List.prod_singleton, ← h.length_eq] at hword
  have hsum := sum_sliceLen (fun item hitem piece => length_piece (h.ordered item hitem).1
    (h.ordered item hitem).2) h.pieces_eq
  have htags : (items.map sliceLen).sum < 2 ^ 64 := by
    rw [← hsum] at hword
    exact (Nat.le_mul_of_pos_right _ hpos).trans_lt hword
  have hplaced := destOffsets_tagged (b := env.build)
    (fun item hitem => (h.ordered item hitem).1) htags
  have hwrites : WritesOf env ds chunkSz (tagged items 0) (layout (0 * ds.dsize) pieces) :=
    Direct.writesOf_tagged h.ordered h.pieces_eq (by omega)
  rw [Nat.zero_mul] at hwrites
  obtain ⟨ws, hws, hperm⟩ := writesOf_perm (sort.perm _) hwrites
  refine ⟨ws, ?_, hws, fun w hw => ?_⟩
  · simp [Dataset.groupChunkSlices, h.collected, hplaced]
  · rw [← h.length_eq]
    exact Buffer.fits_of_mem_layout (Nat.zero_add _).le w (hperm.mem_iff.mp hw)

theorem capacity (h : Available env ds e fuel chunkSz items pieces) (hwf : ds.WellFormed)
    (hin : Inside ds e) (hcap : (counts (dims ds e)).prod * ds.dsize ≤ dst.length) :
    ensureCapacity env.build ds e dst.length = .ok pieces.flatten.length := by
  rw [ensureCapacity_inside hin hwf, if_pos hcap, h.length_eq]

theorem direct_returns (h : Available env ds e fuel chunkSz items pieces)
    (hwf : ds.WellFormed) (hin : Inside ds e) (hpos : 0 < ds.dsize)
    (hcap : (counts (dims ds e)).prod * ds.dsize ≤ dst.length)
    (hdst : dst.length < 2 ^ 63) (sort : UnstableSort (Segment D) Segment.addr) :
    ∃ out, (⟨ds, chunkSz⟩ : Direct D).readTo env sort fuel e dst =
      .ok (out, pieces.flatten.length) := by
  have hn := h.capacity hwf hin hcap
  obtain ⟨ws, hsegments, hws, hfits⟩ := h.segments hwf hin hpos sort
  obtain ⟨-, -, -, -, -, hmem⟩ := Direct.groupChunkSlices_ok hsegments
  have hagain := Direct.foldlM_of_writes (n := dst.length)
    (fun dst' s w hlen hw hfit => Direct.readSegmentAgain_of (r := ⟨ds, chunkSz⟩)
      hw hfit (by omega)) hws rfl fun w hw => (hfits w hw).trans hcap
  have hlast : Direct.LastOk env ⟨ds, chunkSz⟩ none := by simp [Direct.LastOk]
  have hfold := Direct.foldlM_readSegment hwf.addr_nodup hmem hlast dst
  rw [hagain] at hfold
  obtain ⟨⟨last, out⟩, hstate, -⟩ := bind_eq_ok.mp hfold
  refine ⟨out, ?_⟩
  rw [Direct.readTo, hn, ok_bind, hsegments, ok_bind, hstate, ok_bind]

theorem par_returns (h : Available env ds e fuel chunkSz items pieces)
    (hwf : ds.WellFormed) (hin : Inside ds e) (hpos : 0 < ds.dsize)
    (hcap : (counts (dims ds e)).prod * ds.dsize ≤ dst.length)
    (sort : UnstableSort (Segment D) Segment.addr) (schedule : Schedule D) :
    ∃ out, (⟨ds, chunkSz⟩ : Direct D).readToPar env sort schedule fuel e dst =
      .ok (out, pieces.flatten.length) := by
  have hn := h.capacity hwf hin hcap
  obtain ⟨ws, hsegments, hws, hfits⟩ := h.segments hwf hin hpos sort
  obtain ⟨-, -, -, -, -, hmem⟩ := Direct.groupChunkSlices_ok hsegments
  obtain ⟨ws', hws', hperm⟩ := writesOf_perm (Direct.scheduled_flatten _ schedule) hws
  have hagain := Direct.foldlM_of_writes (n := dst.length)
    (fun dst' s w hlen hw hfit => Direct.readSegmentRawAgain_of (r := ⟨ds, chunkSz⟩)
      hw hfit) hws' rfl fun w hw => (hfits w (hperm.mem_iff.mp hw)).trans hcap
  have hgroups := Direct.scheduled_groups schedule hmem
  have hfold : (schedule.order _).foldlM
      ((⟨ds, chunkSz⟩ : Direct D).readGroup env) dst = _ :=
    Direct.foldlM_readGroup hwf.addr_nodup hgroups dst
  rw [hagain] at hfold
  refine ⟨writeAll dst ws', ?_⟩
  rw [Direct.readToPar, hn, ok_bind, hsegments, ok_bind, hfold, ok_bind]

theorem returns (h : Available env ds e fuel chunkSz items pieces) (hwf : ds.WellFormed)
    (hin : Inside ds e) (hpos : 0 < ds.dsize)
    (hcap : (counts (dims ds e)).prod * ds.dsize ≤ dst.length)
    (hdst : dst.length < 2 ^ 63) {read : Nat → ReadTo} (hread : Method env ds read) :
    ∃ out, read fuel e dst = .ok (out, pieces.flatten.length) := by
  cases hread with
  | cache hsz reader hreader =>
      obtain rfl := Except.ok.inj (hsz.symm.trans h.chunkSz_eq)
      have hsound := CacheReader.Reached.sound hwf.addr_nodup hreader
      exact ⟨_, hsound.readTo_of hwf.addr_nodup (h.capacity hwf hin hcap) h.collected
        h.pieces_eq (h.length_eq.trans_le hcap)⟩
  | direct r hr sort =>
      obtain ⟨chunkSz', hsz, hr⟩ := bind_eq_ok.mp hr
      obtain rfl := Except.ok.inj (hsz.symm.trans h.chunkSz_eq)
      cases hr
      exact h.direct_returns hwf hin hpos hcap hdst sort
  | directPar r hr sort schedule =>
      obtain ⟨chunkSz', hsz, hr⟩ := bind_eq_ok.mp hr
      obtain rfl := Except.ok.inj (hsz.symm.trans h.chunkSz_eq)
      cases hr
      exact h.par_returns hwf hin hpos hcap sort schedule

theorem reads (h : Available env ds e fuel chunkSz items pieces) (hwf : ds.WellFormed)
    (hin : Inside ds e) (hpos : 0 < ds.dsize)
    (hcap : (counts (dims ds e)).prod * ds.dsize ≤ dst.length)
    (hdst : dst.length < 2 ^ 63) {read : Nat → ReadTo} (hread : Method env ds read) :
    read fuel e dst = .ok (pieces.flatten ++ dst.drop pieces.flatten.length,
      pieces.flatten.length) := by
  obtain ⟨out, hok⟩ := h.returns hwf hin hpos hcap hdst hread
  obtain ⟨chunkSz', items', pieces', hf⟩ := hread.filled hwf.addr_nodup hok
  obtain rfl := Except.ok.inj (hf.chunkSz_eq.symm.trans h.chunkSz_eq)
  obtain rfl := collectSlices_unique hf.collected h.collected
  obtain rfl := piecesOf_unique hf.pieces_eq h.pieces_eq
  have hlen := h.length_eq
  rw [hok, hf.prefix_eq (by omega)]

theorem streams (h : Available env ds e fuel chunkSz items pieces) (hwf : ds.WellFormed)
    (hpos : 0 < ds.dsize) (L : LruCache Nat Bytes) {r : StreamReader D}
    (hr : StreamReader.withDataset env.build ds = .ok r) :
    r.stream L env fuel e = .ok (pieces, none) := by
  obtain ⟨chunkSz', hsz, hr⟩ := bind_eq_ok.mp hr
  obtain rfl := Except.ok.inj (hsz.symm.trans h.chunkSz_eq)
  cases hr
  have hchunk : chunkSz' ≠ 0 := by
    rw [hwf.chunkBytes_eq] at hsz
    rw [← Except.ok.inj hsz]
    exact (Nat.mul_pos (MixedRadix.prod_pos_of_forall hwf.chunk_pos) hpos).ne'
  have hall : (items.map fun item => StreamReader.yieldSliceAgain env ⟨ds, chunkSz'⟩
      .ok .ok (StreamReader.sliceAt ds.dsize item)) = pieces.map .ok := by
    have hordered := h.ordered
    have hpieces := h.pieces_eq
    clear h hr hsz
    induction hpieces with
    | nil => rfl
    | @cons item piece items pieces hpiece _ ih =>
        obtain ⟨hitem, hordered⟩ := List.forall_mem_cons.mp hordered
        simp [StreamReader.yieldSliceAgain_of hitem hpiece, ih hordered]
  have hok : ∀ pieces : List Bytes,
      StreamReader.yieldAll (pieces.map .ok) = (pieces, none) := by
    intro pieces
    induction pieces with
    | nil => rfl
    | cons piece pieces ih => simp [StreamReader.yieldAll, ih]
  rw [StreamReader.stream, StreamReader.streamWith_eq (r := ⟨ds, chunkSz'⟩) hwf.addr_nodup
    h.collected (fun item hitem => (h.ordered item hitem).1)
    (fun item hitem => (h.ordered item hitem).2) hchunk, hall, hok]

end Available

end Hidefix.Reader
