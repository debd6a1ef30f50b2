import Hidefix.Reader.Uncached
import Mathlib.Data.Nat.ModEq

/-!
# What the readers write

Every reader that completes writes the bytes of the slices, one piece for each
slice, at the places at which the pieces follow each other from the start.
-/

namespace Hidefix.Reader

open Buffer (Write write writeAll layout)
open Caching (LruCache)
open Foundation
open Idx
open Sorting (UnstableSort)

variable {D : Nat} {L : LruCache Nat Bytes} {env : Env} {ds : Dataset D}
variable {chunkSz : Nat}

def pieceOf (env : Env) (ds : Dataset D) (chunkSz : Nat) (item : Item D) :
    Exec Bytes := do
  let data ← chunkData env ds chunkSz item.1
  let start ← mulU64 env.build item.2.1 ds.dsize
  let stop ← mulU64 env.build item.2.2 ds.dsize
  indexRange data start stop

abbrev PiecesOf (env : Env) (ds : Dataset D) (chunkSz : Nat) :
    List (Item D) → List Bytes → Prop :=
  List.Forall₂ fun item piece => pieceOf env ds chunkSz item = .ok piece

theorem mulU64_lt {b : Build} {x y z : Nat} (h : mulU64 b x y = .ok z) :
    z < 2 ^ 64 := by
  rw [mulU64_mod h]
  exact Nat.mod_lt _ (by decide)

/-! ## The reader with a cache -/

namespace CacheReader

theorem readSliceAgain_ok {d d' : Dst} {item : Item D}
    (h : readSliceAgain env ds chunkSz d item = .ok d') :
    ∃ piece, pieceOf env ds chunkSz item = .ok piece ∧
      piece.length ≤ d.dst.length ∧
      d' = ⟨d.written ++ piece, d.dst.drop piece.length⟩ := by
  unfold readSliceAgain sliceBounds copySlice at h
  obtain ⟨bounds, hbounds, h⟩ := bind_eq_ok.mp h
  obtain ⟨start, hstart, hbounds⟩ := bind_eq_ok.mp hbounds
  obtain ⟨stop, hstop, hbounds⟩ := bind_eq_ok.mp hbounds
  obtain ⟨_, -, hbounds⟩ := bind_eq_ok.mp hbounds
  obtain ⟨sliceSz, hsize, hbounds⟩ := bind_eq_ok.mp hbounds
  cases hbounds
  obtain ⟨data, hdata, h⟩ := bind_eq_ok.mp h
  obtain ⟨_, -, h⟩ := bind_eq_ok.mp h
  obtain ⟨_, -, h⟩ := bind_eq_ok.mp h
  split at h
  · rename_i hfits
    obtain ⟨piece, hpiece, h⟩ := bind_eq_ok.mp h
    cases h
    have hlen := length_indexRange hpiece
    rw [subU64_eq (indexRange_ok hpiece).1] at hsize
    cases hsize
    refine ⟨piece, ?_, by omega, by rw [hlen]⟩
    rw [pieceOf, hdata, ok_bind, hstart, ok_bind, hstop, ok_bind, hpiece]
  · cases h

theorem foldlM_readSliceAgain {items : List (Item D)} {d d' : Dst}
    (h : items.foldlM (readSliceAgain env ds chunkSz) d = .ok d') :
    ∃ pieces, PiecesOf env ds chunkSz items pieces ∧
      pieces.flatten.length ≤ d.dst.length ∧
      d' = ⟨d.written ++ pieces.flatten, d.dst.drop pieces.flatten.length⟩ := by
  induction items generalizing d with
  | nil =>
      cases h
      exact ⟨[], .nil, Nat.zero_le _, by simp⟩
  | cons item items ih =>
      rw [List.foldlM_cons] at h
      obtain ⟨d₁, hfirst, h⟩ := bind_eq_ok.mp h
      obtain ⟨piece, hpiece, hfits, rfl⟩ := readSliceAgain_ok hfirst
      obtain ⟨pieces, hpieces, hrest, rfl⟩ := ih h
      rw [List.length_drop] at hrest
      refine ⟨piece :: pieces, .cons hpiece hpieces, ?_, ?_⟩
      · rw [List.flatten_cons, List.length_append]
        omega
      · simp [List.append_assoc]

theorem Sound.readTo_ok {r : CacheReader D L} (hr : r.Sound env ds chunkSz)
    (haddr : (ds.chunks.map Chunk.addr).Nodup) {fuel : Nat} {e : Extents}
    {dst dst' : Bytes} {n : Nat}
    (h : (r.readTo env fuel e dst).2 = .ok (dst', n)) :
    ensureCapacity env.build ds e dst.length = .ok n ∧
      ∃ items pieces, ds.collectSlices env.build fuel e = .ok items ∧
        PiecesOf env ds chunkSz items pieces ∧
        pieces.flatten.length ≤ dst.length ∧
        dst' = pieces.flatten ++ dst.drop pieces.flatten.length := by
  unfold CacheReader.readTo at h
  rw [hr.ds_eq] at h
  cases hstart : (do
      let vsz ← ensureCapacity env.build ds e dst.length
      .ok (vsz, ← ds.chunkSlices env.build e)) with
  | error f =>
      rw [hstart] at h
      cases h
  | ok p =>
      obtain ⟨vsz, slicer⟩ := p
      rw [hstart] at h
      obtain ⟨vsz', hvsz, hstart⟩ := bind_eq_ok.mp hstart
      obtain ⟨slicer', hslicer, hstart⟩ := bind_eq_ok.mp hstart
      cases hstart
      have hitems : ∀ item ∈ (slicer.run env.build fuel).1,
          item.1 ∈ ds.chunks := by
        intro item hitem
        have := (run_itemOk item hitem).mem
        rwa [chunkSlices_dataset hslicer] at this
      obtain ⟨hres, -⟩ := hr.readSlices haddr hitems ⟨[], dst⟩
      dsimp only at h
      generalize r.readSlices env ⟨[], dst⟩ (slicer.run env.build fuel).1 =
        step at h hres
      obtain ⟨r', res⟩ := step
      cases res with
      | error f => cases h
      | ok d =>
          obtain ⟨pieces, hpieces, hfits, rfl⟩ :=
            foldlM_readSliceAgain hres.symm
          generalize hrun : slicer.run env.build fuel = run at h hpieces
          obtain ⟨items, halt⟩ := run
          cases halt with
          | exhausted =>
              cases h
              refine ⟨hvsz, items, pieces, ?_, hpieces, hfits, by simp⟩
              rw [Dataset.collectSlices, hslicer, ok_bind, hrun]
          | fault f => cases h
          | outOfFuel => cases h

end CacheReader

/-! ## The direct reader -/

def writeOf (env : Env) (ds : Dataset D) (chunkSz : Nat) (s : Segment D) :
    Exec (Write UInt8) := do
  let piece ← pieceOf env ds chunkSz (s.1, s.2.2)
  let current ← mulU64 env.build s.2.1 ds.dsize
  .ok (current, piece)

abbrev WritesOf (env : Env) (ds : Dataset D) (chunkSz : Nat) :
    List (Segment D) → List (Write UInt8) → Prop :=
  List.Forall₂ fun s w => writeOf env ds chunkSz s = .ok w

namespace Direct

variable {r : Direct D} {dst dst' : Bytes}

theorem readSegmentAgain_ok {s : Segment D}
    (h : r.readSegmentAgain env dst s = .ok dst') :
    ∃ w, writeOf env r.ds r.chunkSz s = .ok w ∧ w.Fits dst.length ∧
      dst' = write dst w.1 w.2 := by
  unfold readSegmentAgain segmentBounds copySegment at h
  obtain ⟨data, hdata, h⟩ := bind_eq_ok.mp h
  obtain ⟨bounds, hbounds, h⟩ := bind_eq_ok.mp h
  obtain ⟨start, hstart, hbounds⟩ := bind_eq_ok.mp hbounds
  obtain ⟨stop, hstop, hbounds⟩ := bind_eq_ok.mp hbounds
  obtain ⟨current, hcurrent, hbounds⟩ := bind_eq_ok.mp hbounds
  cases hbounds
  obtain ⟨_, -, h⟩ := bind_eq_ok.mp h
  obtain ⟨_, -, h⟩ := bind_eq_ok.mp h
  obtain ⟨sz, hsz, h⟩ := bind_eq_ok.mp h
  obtain ⟨currentEnd, hend, h⟩ := bind_eq_ok.mp h
  split at h
  · rename_i hrange
    obtain ⟨piece, hpiece, h⟩ := bind_eq_ok.mp h
    cases h
    have hlen := length_indexRange hpiece
    have hstopLt := mulU64_lt hstop
    rw [subU64_eq (indexRange_ok hpiece).1] at hsz
    cases hsz
    obtain rfl := addU64_of_le hend (by omega) hrange.1 (mulU64_lt hcurrent)
    refine ⟨(current, piece), ?_, ?_, rfl⟩
    · rw [writeOf, pieceOf, hdata, ok_bind, hstart, ok_bind, hstop, ok_bind,
        hpiece, ok_bind, hcurrent, ok_bind]
    · change current + piece.length ≤ dst.length
      omega
  · cases h

theorem copyRaw_ok {b : Build} {chunk : Bytes} {current start stop : Nat}
    (h : copyRaw b dst chunk current start stop = .ok dst') :
    ∃ piece, indexRange chunk start stop = .ok piece ∧
      current + piece.length ≤ dst.length ∧ dst' = write dst current piece := by
  unfold copyRaw at h
  obtain ⟨_, -, h⟩ := bind_eq_ok.mp h
  obtain ⟨_, -, h⟩ := bind_eq_ok.mp h
  obtain ⟨sz, hsz, h⟩ := bind_eq_ok.mp h
  split at h
  · obtain ⟨piece, hpiece, h⟩ := bind_eq_ok.mp h
    split at h
    · cases h
      rw [subU64_eq (indexRange_ok hpiece).1] at hsz
      cases hsz
      refine ⟨piece, hpiece, ?_, rfl⟩
      rwa [length_indexRange hpiece]
    · cases h
  · cases h

theorem readSegmentRawAgain_ok {s : Segment D}
    (h : r.readSegmentRawAgain env dst s = .ok dst') :
    ∃ w, writeOf env r.ds r.chunkSz s = .ok w ∧ w.Fits dst.length ∧
      dst' = write dst w.1 w.2 := by
  unfold readSegmentRawAgain readSegmentRaw segmentBounds at h
  obtain ⟨data, hdata, h⟩ := bind_eq_ok.mp h
  obtain ⟨bounds, hbounds, h⟩ := bind_eq_ok.mp h
  obtain ⟨start, hstart, hbounds⟩ := bind_eq_ok.mp hbounds
  obtain ⟨stop, hstop, hbounds⟩ := bind_eq_ok.mp hbounds
  obtain ⟨current, hcurrent, hbounds⟩ := bind_eq_ok.mp hbounds
  cases hbounds
  obtain ⟨piece, hpiece, hfits, rfl⟩ := copyRaw_ok h
  refine ⟨(current, piece), ?_, hfits, rfl⟩
  rw [writeOf, pieceOf, hdata, ok_bind, hstart, ok_bind, hstop, ok_bind,
    hpiece, ok_bind, hcurrent, ok_bind]

theorem foldlM_writes {step : Bytes → Segment D → Exec Bytes}
    (hstep : ∀ dst dst' s, step dst s = .ok dst' →
      ∃ w, writeOf env ds chunkSz s = .ok w ∧ w.Fits dst.length ∧
        dst' = write dst w.1 w.2)
    {segments : List (Segment D)}
    (h : segments.foldlM step dst = .ok dst') :
    ∃ ws, WritesOf env ds chunkSz segments ws ∧
      (∀ w ∈ ws, w.Fits dst.length) ∧ dst' = writeAll dst ws := by
  induction segments generalizing dst with
  | nil =>
      cases h
      exact ⟨[], .nil, by simp, rfl⟩
  | cons s segments ih =>
      rw [List.foldlM_cons] at h
      obtain ⟨dst₁, hfirst, h⟩ := bind_eq_ok.mp h
      obtain ⟨w, hw, hfits, rfl⟩ := hstep _ _ _ hfirst
      obtain ⟨ws, hws, hall, rfl⟩ := ih h
      rw [Buffer.length_write hfits] at hall
      exact ⟨w :: ws, .cons hw hws, List.forall_mem_cons.mpr ⟨hfits, hall⟩, rfl⟩

end Direct

/-! ## Places in the destination -/

theorem length_piece_modEq {item : Item D} {piece : Bytes} {sliceSz : Nat}
    (hstart : item.2.1 < 2 ^ 64)
    (hpiece : pieceOf env ds chunkSz item = .ok piece)
    (hsize : subU64 env.build item.2.2 item.2.1 = .ok sliceSz) :
    sliceSz * ds.dsize ≡ piece.length [MOD 2 ^ 64] := by
  unfold pieceOf at hpiece
  obtain ⟨data, -, hpiece⟩ := bind_eq_ok.mp hpiece
  obtain ⟨start, hs, hpiece⟩ := bind_eq_ok.mp hpiece
  obtain ⟨stop, ht, hpiece⟩ := bind_eq_ok.mp hpiece
  have hlen := length_indexRange hpiece
  obtain ⟨hle, -, -⟩ := indexRange_ok hpiece
  have hs : start ≡ item.2.1 * ds.dsize [MOD 2 ^ 64] := mulU64_modEq hs
  have ht : stop ≡ item.2.2 * ds.dsize [MOD 2 ^ 64] := mulU64_modEq ht
  have hsum : sliceSz + item.2.1 ≡ item.2.2 [MOD 2 ^ 64] :=
    subU64_modEq hstart hsize
  refine Nat.ModEq.add_right_cancel hs.symm ?_
  calc sliceSz * ds.dsize + item.2.1 * ds.dsize
      = (sliceSz + item.2.1) * ds.dsize := (Nat.add_mul _ _ _).symm
    _ ≡ item.2.2 * ds.dsize [MOD 2 ^ 64] := hsum.mul_right _
    _ ≡ stop [MOD 2 ^ 64] := ht.symm
    _ = piece.length + start := by omega

theorem writes_eq_layout {items : List (Item D)} {segments : List (Segment D)}
    {pieces : List Bytes} {ws : List (Write UInt8)} {offset place : Nat}
    (hitems : ∀ item ∈ items, item.2.1 < 2 ^ 64)
    (hsegments : destOffsets env.build items offset = .ok segments)
    (hpieces : PiecesOf env ds chunkSz items pieces)
    (hws : WritesOf env ds chunkSz segments ws)
    (hplace : offset * ds.dsize ≡ place [MOD 2 ^ 64])
    (hfit : place + pieces.flatten.length < 2 ^ 64) :
    ws = layout place pieces := by
  induction hpieces generalizing segments ws offset place with
  | nil =>
      cases hsegments
      cases hws
      rfl
  | @cons item piece items pieces hpiece _ ih =>
      obtain ⟨c, start, stop⟩ := item
      obtain ⟨hstart, hitems⟩ := List.forall_mem_cons.mp hitems
      rw [destOffsets] at hsegments
      obtain ⟨sliceSz, hsize, hsegments⟩ := bind_eq_ok.mp hsegments
      obtain ⟨next, hnext, hsegments⟩ := bind_eq_ok.mp hsegments
      obtain ⟨rest, hrest, hsegments⟩ := bind_eq_ok.mp hsegments
      cases hsegments
      cases hws with
      | cons hw hws =>
          rw [List.flatten_cons, List.length_append] at hfit
          unfold writeOf at hw
          dsimp only at hw
          rw [hpiece, ok_bind] at hw
          obtain ⟨current, hcurrent, hw⟩ := bind_eq_ok.mp hw
          cases hw
          have hcurrent : current = place := by
            rw [mulU64_mod hcurrent]
            exact (Nat.mod_eq_of_modEq hplace (by omega))
          have hmoved : next * ds.dsize ≡ place + piece.length [MOD 2 ^ 64] := by
            have hsum : next ≡ offset + sliceSz [MOD 2 ^ 64] := addU64_modEq hnext
            refine (hsum.mul_right ds.dsize).trans ?_
            rw [Nat.add_mul]
            exact hplace.add (length_piece_modEq hstart hpiece hsize)
          rw [hcurrent, ih hitems hrest hws hmoved (by omega)]
          rfl

theorem piecesOf_writes {items : List (Item D)} {segments : List (Segment D)}
    {ws : List (Write UInt8)} {offset : Nat}
    (hsegments : destOffsets env.build items offset = .ok segments)
    (hws : WritesOf env ds chunkSz segments ws) :
    PiecesOf env ds chunkSz items (ws.map Prod.snd) := by
  induction items generalizing segments ws offset with
  | nil =>
      cases hsegments
      cases hws
      exact .nil
  | cons item items ih =>
      obtain ⟨c, start, stop⟩ := item
      rw [destOffsets] at hsegments
      obtain ⟨sliceSz, -, hsegments⟩ := bind_eq_ok.mp hsegments
      obtain ⟨next, -, hsegments⟩ := bind_eq_ok.mp hsegments
      obtain ⟨rest, hrest, hsegments⟩ := bind_eq_ok.mp hsegments
      cases hsegments
      cases hws with
      | cons hw hws =>
          unfold writeOf at hw
          obtain ⟨piece, hpiece, hw⟩ := bind_eq_ok.mp hw
          obtain ⟨current, -, hw⟩ := bind_eq_ok.mp hw
          cases hw
          exact .cons hpiece (ih hrest hws)

theorem mem_of_destOffsets {b : Build} {items : List (Item D)}
    {segments : List (Segment D)} {offset : Nat}
    (h : destOffsets b items offset = .ok segments) :
    ∀ s ∈ segments, ∃ item ∈ items, s.1 = item.1 := by
  induction items generalizing segments offset with
  | nil =>
      cases h
      simp
  | cons item items ih =>
      obtain ⟨c, start, stop⟩ := item
      rw [destOffsets] at h
      obtain ⟨sliceSz, -, h⟩ := bind_eq_ok.mp h
      obtain ⟨next, -, h⟩ := bind_eq_ok.mp h
      obtain ⟨rest, hrest, h⟩ := bind_eq_ok.mp h
      cases h
      intro s hs
      rcases List.mem_cons.mp hs with rfl | hs
      · exact ⟨(c, start, stop), by simp, rfl⟩
      · obtain ⟨item, hitem, heq⟩ := ih hrest s hs
        exact ⟨item, by simp [hitem], heq⟩

/-! ## Reading in any order -/

/-- What a direct read that succeeds has written, in the order it was written. -/
structure Written (env : Env) (ds : Dataset D) (chunkSz fuel : Nat)
    (e : Extents) (dst dst' : Bytes) (items : List (Item D))
    (segments : List (Segment D)) (ws : List (Write UInt8)) : Prop where
  collected : ds.collectSlices env.build fuel e = .ok items
  placed : destOffsets env.build items 0 = .ok segments
  written : WritesOf env ds chunkSz segments ws
  fits : ∀ w ∈ ws, w.Fits dst.length
  dst_eq : ∃ order, order.Perm ws ∧ dst' = writeAll dst order

theorem writesOf_perm {segments segments' : List (Segment D)}
    {ws : List (Write UInt8)} (hperm : segments.Perm segments')
    (h : WritesOf env ds chunkSz segments' ws) :
    ∃ ws', WritesOf env ds chunkSz segments ws' ∧ ws'.Perm ws := by
  have hcomp : Relation.Comp List.Perm (WritesOf env ds chunkSz) segments ws :=
    ⟨segments', hperm, h⟩
  rw [← List.forall₂_comp_perm_eq_perm_comp_forall₂] at hcomp
  exact hcomp

namespace Direct

variable {r : Direct D} {sort : UnstableSort (Segment D) Segment.addr}
variable {fuel n : Nat} {e : Extents} {dst dst' : Bytes}

theorem groupChunkSlices_ok {b : Build} {segments : List (Segment D)}
    (h : ds.groupChunkSlices sort b fuel e = .ok segments) :
    ∃ items inOrder, ds.collectSlices b fuel e = .ok items ∧
      destOffsets b items 0 = .ok inOrder ∧ segments.Perm inOrder ∧
      ∀ s ∈ segments, s.1 ∈ ds.chunks := by
  unfold Dataset.groupChunkSlices at h
  obtain ⟨items, hitems, h⟩ := bind_eq_ok.mp h
  obtain ⟨inOrder, hinOrder, h⟩ := bind_eq_ok.mp h
  cases h
  have hperm := sort.perm inOrder
  refine ⟨items, inOrder, hitems, hinOrder, hperm, fun s hs => ?_⟩
  obtain ⟨item, hitem, heq⟩ :=
    mem_of_destOffsets hinOrder s (hperm.mem_iff.mp hs)
  rw [heq]
  exact (collectSlices_itemOk hitems item hitem).mem

theorem written_of_foldlM {step : Bytes → Segment D → Exec Bytes}
    (hstep : ∀ dst dst' s, step dst s = .ok dst' →
      ∃ w, writeOf env ds chunkSz s = .ok w ∧ w.Fits dst.length ∧
        dst' = write dst w.1 w.2)
    {items : List (Item D)} {inOrder segments : List (Segment D)}
    (hitems : ds.collectSlices env.build fuel e = .ok items)
    (hinOrder : destOffsets env.build items 0 = .ok inOrder)
    (hperm : segments.Perm inOrder)
    (h : segments.foldlM step dst = .ok dst') :
    ∃ ws, Written env ds chunkSz fuel e dst dst' items inOrder ws := by
  obtain ⟨order, horder, hfits, hdst⟩ := foldlM_writes hstep h
  obtain ⟨ws, hws, hwsPerm⟩ := writesOf_perm hperm.symm horder
  exact ⟨ws, hitems, hinOrder, hws,
    fun w hw => hfits w (hwsPerm.mem_iff.mp hw), order, hwsPerm.symm, hdst⟩

theorem readTo_ok (haddr : (r.ds.chunks.map Chunk.addr).Nodup)
    (h : r.readTo env sort fuel e dst = .ok (dst', n)) :
    ensureCapacity env.build r.ds e dst.length = .ok n ∧
      ∃ items segments ws,
        Written env r.ds r.chunkSz fuel e dst dst' items segments ws := by
  unfold Direct.readTo at h
  obtain ⟨vsz, hvsz, h⟩ := bind_eq_ok.mp h
  obtain ⟨segments, hsegments, h⟩ := bind_eq_ok.mp h
  obtain ⟨⟨last, dst₁⟩, hfold, h⟩ := bind_eq_ok.mp h
  cases h
  obtain ⟨items, inOrder, hitems, hinOrder, hperm, hmem⟩ :=
    groupChunkSlices_ok hsegments
  have hnone : LastOk env r none := by simp [LastOk]
  have hagain := foldlM_readSegment haddr hmem hnone dst
  rw [hfold] at hagain
  obtain ⟨ws, hws⟩ := written_of_foldlM
    (fun _ _ _ h => readSegmentAgain_ok h) hitems hinOrder hperm hagain.symm
  exact ⟨hvsz, items, inOrder, ws, hws⟩

theorem readToPar_ok {schedule : Schedule D}
    (haddr : (r.ds.chunks.map Chunk.addr).Nodup)
    (h : r.readToPar env sort schedule fuel e dst = .ok (dst', n)) :
    ensureCapacity env.build r.ds e dst.length = .ok n ∧
      ∃ items segments ws,
        Written env r.ds r.chunkSz fuel e dst dst' items segments ws := by
  unfold Direct.readToPar at h
  obtain ⟨vsz, hvsz, h⟩ := bind_eq_ok.mp h
  obtain ⟨segments, hsegments, h⟩ := bind_eq_ok.mp h
  obtain ⟨dst₁, hfold, h⟩ := bind_eq_ok.mp h
  cases h
  obtain ⟨items, inOrder, hitems, hinOrder, hperm, hmem⟩ :=
    groupChunkSlices_ok hsegments
  have hschedule := schedule.perm (groupsOf segments)
  have hgroups : ∀ group ∈ schedule.order (groupsOf segments), group ≠ [] ∧
      (∀ s ∈ group, s.1 ∈ r.ds.chunks) ∧
      ∀ a ∈ group, ∀ b ∈ group, a.1.addr = b.1.addr := by
    intro group hgroup
    obtain ⟨hne, hsub, hsame⟩ := groupsOf_ok (hschedule.mem_iff.mp hgroup)
    exact ⟨hne, fun s hs => hmem s (hsub s hs), hsame⟩
  rw [foldlM_readGroup haddr hgroups] at hfold
  have hflat : (schedule.order (groupsOf segments)).flatten.Perm segments := by
    have := hschedule.flatten
    rwa [flatten_groupsOf] at this
  obtain ⟨ws, hws⟩ := written_of_foldlM
    (fun _ _ _ h => readSegmentRawAgain_ok h) hitems hinOrder
    (hflat.trans hperm) hfold
  exact ⟨hvsz, items, inOrder, ws, hws⟩

end Direct

/-- Writes laid out from the start, made in any order, are the pieces in order. -/
theorem Written.dst_eq_pieces {fuel : Nat} {e : Extents} {dst dst' : Bytes}
    {items : List (Item D)} {segments : List (Segment D)}
    {ws : List (Write UInt8)} {pieces : List Bytes}
    (h : Written env ds chunkSz fuel e dst dst' items segments ws)
    (hws : ws = layout 0 pieces) (hfit : pieces.flatten.length ≤ dst.length) :
    dst' = pieces.flatten ++ dst.drop pieces.flatten.length := by
  obtain ⟨order, hperm, hdst⟩ := h.dst_eq
  have hfits : ∀ w ∈ order, w.Fits dst.length := fun w hw =>
    h.fits w (hperm.mem_iff.mp hw)
  have hapart : order.Pairwise Write.Apart := by
    refine (hperm.pairwise_iff Write.Apart.symm).mpr ?_
    rw [hws]
    exact Buffer.layout_apart 0 pieces
  rw [hdst, Buffer.writeAll_perm hperm hfits hapart, hws]
  have hnil : writeAll ([] ++ dst) (layout ([] : Bytes).length pieces) = _ :=
    Buffer.writeAll_layout hfit
  simpa using hnil

/-! ## Streams -/

namespace StreamReader

variable {r : StreamReader D} {fuel : Nat} {e : Extents}

theorem sliceOk_of_slices {b : Build} {items : List (Item D)}
    {slices : List Slice} (hitems : ∀ item ∈ items, item.1 ∈ ds.chunks)
    (h : List.Forall₂ (fun item slice =>
      sliceOfItem b ds.dsize item = .ok slice) items slices) :
    ∀ slice ∈ slices, SliceOk ds slice := by
  induction h with
  | nil => simp
  | @cons item slice items slices hslice _ ih =>
      obtain ⟨hitem, hitems⟩ := List.forall_mem_cons.mp hitems
      refine List.forall_mem_cons.mpr ⟨?_, ih hitems⟩
      unfold sliceOfItem at hslice
      obtain ⟨start, -, hslice⟩ := bind_eq_ok.mp hslice
      obtain ⟨stop, -, hslice⟩ := bind_eq_ok.mp hslice
      cases hslice
      exact ⟨item.1, hitem, rfl, rfl⟩

theorem streamWith_ok (haddr : (r.ds.chunks.map Chunk.addr).Nodup)
    {scale : Nat → Exec Nat} {convert : Bytes → Exec Bytes}
    {yielded : Yielded}
    (h : r.streamWith L env fuel e scale convert = .ok yielded) :
    ∃ items slices, r.ds.collectSlices env.build fuel e = .ok items ∧
      List.Forall₂ (fun item slice =>
        sliceOfItem env.build r.ds.dsize item = .ok slice) items slices ∧
      yielded = yieldAll (slices.map (yieldSliceAgain env r scale convert)) := by
  unfold streamWith StreamReader.slices at h
  obtain ⟨slices, hslices, h⟩ := bind_eq_ok.mp h
  obtain ⟨items, hitems, hslices⟩ := bind_eq_ok.mp hslices
  obtain ⟨cacheSz, -, h⟩ := bind_eq_ok.mp h
  cases h
  have hforall := mapM_ok_forall₂ hslices
  refine ⟨items, slices, hitems, hforall, ?_⟩
  exact yieldSlices_eq haddr (LruCache.holds_new _)
    (sliceOk_of_slices (fun item hitem =>
      (collectSlices_itemOk hitems item hitem).mem) hforall)

theorem yieldAll_ok {results : List (Exec Bytes)} {yielded : List Bytes}
    (h : yieldAll results = (yielded, none)) :
    List.Forall₂ (fun result item => result = .ok item) results yielded := by
  induction results generalizing yielded with
  | nil =>
      cases h
      exact .nil
  | cons result results ih =>
      cases result with
      | error f => cases h
      | ok item =>
          obtain ⟨rfl, hending⟩ := Prod.mk.inj h
          exact .cons rfl (ih (Prod.ext rfl hending))

theorem pieceOf_of_yieldSliceAgain {item : Item D} {slice : Slice}
    {piece : Bytes}
    (hslice : sliceOfItem env.build r.ds.dsize item = .ok slice)
    (h : yieldSliceAgain env r .ok .ok slice = .ok piece) :
    pieceOf env r.ds r.chunkSz item = .ok piece := by
  unfold sliceOfItem at hslice
  obtain ⟨start, hstart, hslice⟩ := bind_eq_ok.mp hslice
  obtain ⟨stop, hstop, hslice⟩ := bind_eq_ok.mp hslice
  cases hslice
  unfold yieldSliceAgain scaledBounds readConverted sliceBytes at h
  obtain ⟨bounds, hbounds, h⟩ := bind_eq_ok.mp h
  rw [ok_bind, ok_bind] at hbounds
  obtain ⟨_, -, hbounds⟩ := bind_eq_ok.mp hbounds
  cases hbounds
  obtain ⟨data, hdata, h⟩ := bind_eq_ok.mp h
  obtain ⟨data', hread, hdata⟩ := bind_eq_ok.mp hdata
  cases hdata
  obtain ⟨_, -, h⟩ := bind_eq_ok.mp h
  obtain ⟨_, -, h⟩ := bind_eq_ok.mp h
  rw [pieceOf, chunkData, hread, ok_bind, hstart, ok_bind, hstop, ok_bind, h]

theorem stream_ok (haddr : (r.ds.chunks.map Chunk.addr).Nodup)
    {pieces : List Bytes} (h : r.stream L env fuel e = .ok (pieces, none)) :
    ∃ items, r.ds.collectSlices env.build fuel e = .ok items ∧
      PiecesOf env r.ds r.chunkSz items pieces := by
  obtain ⟨items, slices, hitems, hslices, hyielded⟩ := streamWith_ok haddr h
  refine ⟨items, hitems, ?_⟩
  have hall := yieldAll_ok hyielded.symm
  rw [List.forall₂_map_left_iff] at hall
  clear hyielded h hitems
  induction hslices generalizing pieces with
  | nil =>
      cases hall
      exact .nil
  | cons hslice _ ih =>
      cases hall with
      | cons hitem hall =>
          exact .cons (pieceOf_of_yieldSliceAgain hslice hitem) (ih hall)

end StreamReader

end Hidefix.Reader
