import Hidefix.Reader.Agreement
import Mathlib.Algebra.BigOperators.Ring.List

/-!
# Serialized streams

`stream_xdr` converts a chunk once, when it is read, and cuts the slices out of
the converted chunk.  Where the chunk is converted value by value, and becomes
longer by the factor of the bounds, that is the stream converted as a whole.
-/

namespace Hidefix.Reader

open Blocks (mapBlocks)
open Caching (LruCache)
open Filters (ByteSliceCast Elementwise Endian byteSliceCast Order xdr xdrFactor)
open Foundation
open Idx
open Slices (edge edge_wellFormed)

variable {D : Nat} {L L' : LruCache Nat Bytes} {env : Env} {ds : Dataset D}

namespace StreamReader

variable {r : StreamReader D}

/-! ## Items -/

theorem yieldAll_map (g : Bytes → Bytes) (results : List (Exec Bytes)) :
    yieldAll (results.map (Except.map g)) =
      ((yieldAll results).1.map g, (yieldAll results).2) := by
  induction results with
  | nil => rfl
  | cons result results ih =>
      cases result with
      | error f => rfl
      | ok item =>
          rw [List.map_cons, Except.map, yieldAll, ih]
          rfl

theorem mem_yieldAll {results : List (Exec Bytes)} {item : Bytes}
    (h : item ∈ (yieldAll results).1) : .ok item ∈ results := by
  induction results with
  | nil => cases h
  | cons result results ih =>
      cases result with
      | error f => cases h
      | ok first =>
          rcases List.mem_cons.mp h with rfl | h
          · exact List.mem_cons_self
          · exact List.mem_cons_of_mem _ (ih h)

def sliceAt (dsz : Nat) (item : Item D) : Slice where
  addr := item.1.addr.get
  size := item.1.size.get
  start := item.2.1 * dsz
  stop := item.2.2 * dsz

theorem sliceOfItem_eq {b : Build} {dsz : Nat} {item : Item D}
    (hle : item.2.1 ≤ item.2.2) (h : item.2.2 * dsz < 2 ^ 64) :
    sliceOfItem b dsz item = .ok (sliceAt dsz item) := by
  have hstart : item.2.1 * dsz < 2 ^ 64 :=
    (Nat.mul_le_mul_right dsz hle).trans_lt h
  rw [sliceOfItem, mulU64_eq hstart, ok_bind, mulU64_eq h, ok_bind]
  rfl

theorem streamWith_eq (haddr : (r.ds.chunks.map Chunk.addr).Nodup)
    {fuel : Nat} {e : Extents} {items : List (Item D)}
    (hitems : r.ds.collectSlices env.build fuel e = .ok items)
    (hle : ∀ item ∈ items, item.2.1 ≤ item.2.2)
    (hword : ∀ item ∈ items, item.2.2 * r.ds.dsize < 2 ^ 64)
    (hchunk : r.chunkSz ≠ 0) (scale : Nat → Exec Nat)
    (convert : Bytes → Exec Bytes) :
    r.streamWith L env fuel e scale convert =
      .ok (yieldAll (items.map fun item =>
        yieldSliceAgain env r scale convert (sliceAt r.ds.dsize item))) := by
  have hslices : r.slices env.build fuel e =
      .ok (items.map (sliceAt r.ds.dsize)) := by
    rw [slices, hitems, ok_bind]
    exact mapM_ok _ _ _ fun item hitem =>
      sliceOfItem_eq (hle item hitem) (hword item hitem)
  have hok : ∀ slice ∈ items.map (sliceAt r.ds.dsize), SliceOk r.ds slice := by
    intro slice hslice
    obtain ⟨item, hitem, rfl⟩ := List.mem_map.mp hslice
    exact ⟨item.1, (collectSlices_itemOk hitems item hitem).mem, rfl, rfl⟩
  rw [streamWith, hslices, ok_bind, divU64, if_neg hchunk, ok_bind]
  dsimp only
  rw [yieldSlices_eq haddr (LruCache.holds_new _) hok, List.map_map]
  rfl

theorem yieldSliceAgain_eq {scale : Nat → Exec Nat}
    {convert : Bytes → Exec Bytes} {item : Item D} {x : Nat}
    (hle : item.2.1 ≤ item.2.2)
    (hstart : scale (item.2.1 * r.ds.dsize) = .ok (item.2.1 * r.ds.dsize * x))
    (hstop : scale (item.2.2 * r.ds.dsize) = .ok (item.2.2 * r.ds.dsize * x)) :
    yieldSliceAgain env r scale convert (sliceAt r.ds.dsize item) = (do
      let data ← chunkData env r.ds r.chunkSz item.1
      let out ← convert data
      sliceBytes env.build out (item.2.1 * r.ds.dsize * x)
        (item.2.2 * r.ds.dsize * x)) := by
  have hbounds : scaledBounds env.build scale (sliceAt r.ds.dsize item) =
      .ok (item.2.1 * r.ds.dsize * x, item.2.2 * r.ds.dsize * x) := by
    unfold scaledBounds sliceAt
    rw [hstart, ok_bind, hstop, ok_bind, debugAssert_of, ok_bind]
    exact Nat.mul_le_mul_right x (Nat.mul_le_mul_right _ hle)
  rw [yieldSliceAgain, hbounds, ok_bind]
  dsimp only
  rw [readConverted, bind_assoc]
  rfl

theorem sliceBytes_eq {b : Build} {cache : Bytes} {start stop : Nat}
    (hle : start ≤ stop) (hin : stop ≤ cache.length) :
    sliceBytes b cache start stop =
      .ok ((cache.drop start).take (stop - start)) := by
  rw [sliceBytes, debugAssert_of (hle.trans hin), ok_bind, debugAssert_of hin,
    ok_bind, indexRange, if_pos ⟨hle, hin⟩]

/-! ## Converted items -/

theorem scale_eq {b : Build} {dtype : Datatype} {bound x : Nat}
    (hfactor : xdrFactor dtype = .ok x) (h : bound * x < 2 ^ 64) :
    (do mulU64 b bound (← xdrFactor dtype)) = Except.ok (bound * x) := by
  rw [hfactor, ok_bind, mulU64_eq h]

theorem yieldSliceAgain_xdr {width x : Nat} {f : Bytes → Bytes}
    (hfactor : xdrFactor r.ds.dtype = .ok x)
    (hf : Elementwise env.cast env.host r.ds.dtype r.order width x f) {item : Item D}
    (hle : item.2.1 ≤ item.2.2) (hword : item.2.2 * r.ds.dsize * x < 2 ^ 64)
    (hdsize : width ∣ r.ds.dsize)
    (hdata : ∀ data, chunkData env r.ds r.chunkSz item.1 = .ok data →
      width ∣ data.length ∧ item.2.2 * r.ds.dsize ≤ data.length) :
    yieldSliceAgain env r
        (fun bound => do mulU64 env.build bound (← xdrFactor r.ds.dtype))
        (fun cache => xdr env.cast env.host cache r.ds.dtype r.order)
        (sliceAt r.ds.dsize item) =
      (yieldSliceAgain env r .ok .ok (sliceAt r.ds.dsize item)).map
        (mapBlocks width f) := by
  have hbytes : item.2.1 * r.ds.dsize ≤ item.2.2 * r.ds.dsize :=
    Nat.mul_le_mul_right _ hle
  have hscaled := Nat.mul_le_mul_right x hbytes
  rw [yieldSliceAgain_eq hle (scale_eq hfactor (hscaled.trans_lt hword))
      (scale_eq hfactor hword),
    yieldSliceAgain_eq (x := 1) hle (by rw [Nat.mul_one]) (by rw [Nat.mul_one])]
  cases hread : chunkData env r.ds r.chunkSz item.1 with
  | error fault => rfl
  | ok data =>
      obtain ⟨hdvd, hin⟩ := hdata data hread
      have hlen := Blocks.length_mapBlocks hf.length_word hdvd
      rw [ok_bind, ok_bind, hf.xdr_eq data hdvd, ok_bind, ok_bind,
        sliceBytes_eq hscaled (by rw [hlen]; exact Nat.mul_le_mul_right x hin),
        Nat.mul_one, Nat.mul_one, sliceBytes_eq hbytes hin]
      exact congrArg Except.ok (Blocks.mapBlocks_range hf.length_word
        (hdsize.mul_left _) (hdsize.mul_left _) hbytes hin)

end StreamReader

/-! ## Which datatypes are serialized -/

structure SliceInside (ds : Dataset D) (item : Item D) : Prop where
  ordered : item.2.1 ≤ item.2.2
  inside : item.2.2 ≤ ds.chunkShape.toList.prod

/--
`stream_xdr` ends as `stream` does, having yielded what the conversion of its
items is; the factor of the bounds is the one by which a chunk becomes longer,
and no scaled slice leaves its chunk.
-/
structure Serializes (L L' : LruCache Nat Bytes) (env : Env) (fuel : Nat)
    (r : StreamReader D) (e : Extents) : Prop where
  converted : ∃ items items' ending,
    r.stream L env fuel e = .ok (items, ending) ∧
      r.streamXdr L' env fuel e = .ok (items', ending) ∧
      xdr env.cast env.host items.flatten r.ds.dtype r.order = .ok items'.flatten
  factor : ∀ data out x, data.length = r.chunkSz →
    xdr env.cast env.host data r.ds.dtype r.order = .ok out →
    xdrFactor r.ds.dtype = .ok x → out.length = data.length * x
  inside : ∀ slices, r.slices env.build fuel e = .ok slices →
    ∀ slice ∈ slices, ∀ data out x, data.length = r.chunkSz →
      xdr env.cast env.host data r.ds.dtype r.order = .ok out →
      xdrFactor r.ds.dtype = .ok x →
      slice.start * x ≤ slice.stop * x ∧ slice.stop * x ≤ out.length

theorem short_float {cast : ByteSliceCast} {host : Endian} {dtype : Datatype} {order : Order}
    {src out : Bytes} (hdtype : dtype = .float 1 ∨ dtype = .float 2)
    (h : xdr cast host src dtype order = .ok out) :
    ∃ width factor f, xdrFactor dtype = .ok factor ∧ 2 ≤ factor ∧
      Elementwise cast host dtype order width 1 f := by
  have hsized : ∀ src, xdr cast host src dtype order =
      Filters.toBigESized cast host src order dtype.dsize := by
    rcases hdtype with rfl | rfl <;> exact Filters.xdr_of_le nofun (.inr ⟨_, rfl⟩)
  obtain ⟨width, f, hf⟩ := Filters.elementwise_sized hsized h
  rcases hdtype with rfl | rfl
  · exact ⟨width, 4, f, rfl, by decide, hf⟩
  · exact ⟨width, 2, f, rfl, by decide, hf⟩

section Convert

variable {r : StreamReader D} {fuel : Nat} {e : Extents} {items : List (Item D)}
variable {width x : Nat} {f : Bytes → Bytes}

theorem converted_of_elementwise
    (haddr : (r.ds.chunks.map Chunk.addr).Nodup) (hchunk : r.chunkSz ≠ 0)
    (hitems : r.ds.collectSlices env.build fuel e = .ok items)
    (hfactor : xdrFactor r.ds.dtype = .ok x)
    (hf : Elementwise env.cast env.host r.ds.dtype r.order width x f)
    (hdsize : width ∣ r.ds.dsize) (hle : ∀ item ∈ items, item.2.1 ≤ item.2.2)
    (hbytes : ∀ item ∈ items, item.2.2 * r.ds.dsize < 2 ^ 64)
    (hword : ∀ item ∈ items, item.2.2 * r.ds.dsize * x < 2 ^ 64)
    (hdata : ∀ item ∈ items, ∀ data,
      chunkData env r.ds r.chunkSz item.1 = .ok data →
        width ∣ data.length ∧ item.2.2 * r.ds.dsize ≤ data.length) :
    ∃ pieces pieces' ending, r.stream L env fuel e = .ok (pieces, ending) ∧
      r.streamXdr L' env fuel e = .ok (pieces', ending) ∧
      xdr env.cast env.host pieces.flatten r.ds.dtype r.order = .ok pieces'.flatten := by
  have hmapped : items.map (fun item => StreamReader.yieldSliceAgain env r
        (fun bound => do mulU64 env.build bound (← xdrFactor r.ds.dtype))
        (fun cache => xdr env.cast env.host cache r.ds.dtype r.order)
        (StreamReader.sliceAt r.ds.dsize item)) =
      (items.map fun item => StreamReader.yieldSliceAgain env r .ok .ok
        (StreamReader.sliceAt r.ds.dsize item)).map
        (Except.map (mapBlocks width f)) := by
    rw [List.map_map]
    exact List.map_congr_left fun item hitem =>
      StreamReader.yieldSliceAgain_xdr hfactor hf (hle item hitem)
        (hword item hitem) hdsize (hdata item hitem)
  have hdvd : ∀ piece ∈ (StreamReader.yieldAll (items.map fun item =>
      StreamReader.yieldSliceAgain env r .ok .ok
        (StreamReader.sliceAt r.ds.dsize item))).1, width ∣ piece.length := by
    intro piece hpiece
    obtain ⟨item, hitem, hok⟩ :=
      List.mem_map.mp (StreamReader.mem_yieldAll hpiece)
    rw [StreamReader.yieldSliceAgain_eq (x := 1) (hle item hitem)
      (by rw [Nat.mul_one]) (by rw [Nat.mul_one])] at hok
    obtain ⟨data, hread, hok⟩ := bind_eq_ok.mp hok
    obtain ⟨out, -, hok⟩ := bind_eq_ok.mp hok
    obtain ⟨_, -, hok⟩ := bind_eq_ok.mp hok
    obtain ⟨_, -, hok⟩ := bind_eq_ok.mp hok
    rw [length_indexRange hok, Nat.mul_one, Nat.mul_one, ← Nat.sub_mul]
    exact hdsize.mul_left _
  have hstream : r.stream L env fuel e = _ :=
    StreamReader.streamWith_eq haddr hitems hle hbytes hchunk .ok .ok
  have hconverted : r.streamXdr L' env fuel e = _ :=
    StreamReader.streamWith_eq haddr hitems hle hbytes hchunk _ _
  rw [hmapped, StreamReader.yieldAll_map] at hconverted
  refine ⟨_, _, _, hstream, hconverted, ?_⟩
  rw [hf.xdr_eq, Blocks.mapBlocks_flatten hdvd]
  rw [List.length_flatten]
  refine List.dvd_sum fun n hn => ?_
  obtain ⟨piece, hpiece, rfl⟩ := List.mem_map.mp hn
  exact hdvd piece hpiece

end Convert

/--
A selection whose slices lie in their chunks is serialized, whatever is cached,
unless the values are floats of one or two bytes.
-/
theorem serializes_iff (ds : Dataset D) (hwf : ds.WellFormed)
    (hpos : 1 ≤ ds.dtype.dsize) (horder : ds.order ≠ .unknown) (env : Env)
    (r : StreamReader D) (hr : StreamReader.withDataset env.build ds = .ok r)
    (fuel : Nat) (e : Extents) (items : List (Item D))
    (hitems : ds.collectSlices env.build fuel e = .ok items)
    (hin : ∀ item ∈ items, SliceInside ds item)
    (hwhole : ∀ item ∈ items, ∀ data,
      chunkData env ds r.chunkSz item.1 = .ok data → data.length = r.chunkSz)
    (hxdr : ∀ data, data.length = r.chunkSz → ∃ out,
      xdr env.cast env.host data ds.dtype ds.order = .ok out ∧ out.length < 2 ^ 63) :
    Serializes L L' env fuel r e ↔
      ds.dtype ≠ .float 1 ∧ ds.dtype ≠ .float 2 := by
  rw [StreamReader.withDataset, hwf.chunkBytes_eq, ok_bind] at hr
  cases hr
  have hdsize := hwf.derived.dsize
  have hchunk : 0 < ds.chunkShape.toList.prod * ds.dsize :=
    Nat.mul_pos (List.prod_pos hwf.chunk_pos) (hdsize ▸ hpos)
  have hdvd : ∀ {width : Nat} {data : Bytes}, width ∣ ds.dtype.dsize →
      data.length = ds.chunkShape.toList.prod * ds.dsize →
      width ∣ data.length := by
    intro width data hwidth hdata
    rw [hdata, hdsize]
    exact hwidth.mul_left _
  obtain ⟨out, hout, hlt⟩ := hxdr
    (List.replicate (ds.chunkShape.toList.prod * ds.dsize) 0)
    List.length_replicate
  constructor
  · rintro ⟨-, hfactor, -⟩
    by_contra hshort
    rw [not_and_or, not_ne_iff, not_ne_iff] at hshort
    obtain ⟨width, x, f, hx, htwo, hf⟩ := short_float hshort hout
    have hlen := hf.length_eq (hdvd hf.width_dvd List.length_replicate) hout
    have hlonger := hfactor _ out x List.length_replicate hout hx
    rw [hlen, List.length_replicate, Nat.mul_one] at hlonger
    have := Nat.mul_le_mul_left (ds.chunkShape.toList.prod * ds.dsize) htwo
    omega
  · rintro ⟨hone, htwo⟩
    obtain ⟨width, x, f, hx, hf⟩ :=
      Filters.xdr_elementwise horder hpos hone htwo hout
    have hlen : ∀ data out, data.length = ds.chunkShape.toList.prod * ds.dsize →
        xdr env.cast env.host data ds.dtype ds.order = .ok out →
        out.length = data.length * x :=
      fun data out hdata h => hf.length_eq (hdvd hf.width_dvd hdata) h
    have hscaled : ds.chunkShape.toList.prod * ds.dsize * x < 2 ^ 63 := by
      have := hlen _ _ List.length_replicate hout
      rw [List.length_replicate] at this
      omega
    have hordered : ∀ item ∈ items, item.2.1 ≤ item.2.2 :=
      fun item hitem => (hin item hitem).ordered
    have hbytes : ∀ item ∈ items,
        item.2.2 * ds.dsize ≤ ds.chunkShape.toList.prod * ds.dsize :=
      fun item hitem => Nat.mul_le_mul_right _ (hin item hitem).inside
    have hends : ∀ item ∈ items, item.2.2 * ds.dsize * x ≤
        ds.chunkShape.toList.prod * ds.dsize * x :=
      fun item hitem => Nat.mul_le_mul_right x (hbytes item hitem)
    have hword : ∀ item ∈ items, item.2.2 * ds.dsize < 2 ^ 64 :=
      fun item hitem => (hbytes item hitem).trans_lt hwf.chunkBytes_lt
    refine ⟨?_, fun data out x' hdata h hx' => ?_, ?_⟩
    · refine converted_of_elementwise hwf.addr_nodup hchunk.ne' hitems hx hf
        (hdsize ▸ hf.width_dvd) hordered hword (fun item hitem => ?_)
        fun item hitem data hdata => ?_
      · have := hends item hitem
        dsimp only
        omega
      · have hdata := hwhole item hitem data hdata
        exact ⟨hdvd hf.width_dvd hdata, hdata ▸ hbytes item hitem⟩
    · rw [hx] at hx'
      cases hx'
      exact hlen data out hdata h
    · intro slices hslices slice hslice data out x' hdata h hx'
      rw [hx] at hx'
      cases hx'
      rw [StreamReader.slices, hitems, ok_bind,
        mapM_ok _ (StreamReader.sliceAt ds.dsize) _ fun item hitem =>
          StreamReader.sliceOfItem_eq (hordered item hitem) (hword item hitem)]
        at hslices
      cases hslices
      obtain ⟨item, hitem, rfl⟩ := List.mem_map.mp hslice
      rw [hlen data out hdata h, hdata]
      exact ⟨Nat.mul_le_mul_right x (Nat.mul_le_mul_right _ (hordered item hitem)),
        hends item hitem⟩

/-! ## A dataset that is serialized and one that is not -/

theorem edge_xdr (data : Bytes) (h : data.length = 4) : ∃ out,
    xdr byteSliceCast .little data edge.dtype edge.order = .ok out ∧ out.length < 2 ^ 63 := by
  have hcast : Elementwise byteSliceCast .little edge.dtype edge.order 1 4 _ :=
    Filters.elementwise_cast (S := .u8) (D := .u32) (by decide) (by decide)
      (by decide) rfl fun _ => rfl
  have hok := hcast.xdr_eq data (Nat.one_dvd _)
  refine ⟨_, hok, ?_⟩
  rw [hcast.length_eq (Nat.one_dvd _) hok, h]
  decide

theorem edge_whole {c : Chunk 2} (hc : c ∈ edge.chunks) {data : Bytes}
    (h : chunkData (.addresses .debug 72) edge 4 c = .ok data) :
    data.length = 4 := by
  rcases List.mem_cons.mp hc with rfl | hc
  · cases h
    rfl
  · obtain rfl := List.mem_singleton.mp hc
    cases h
    rfl

theorem serializes_iff_edge :
    Serializes (.recency _ _) (.recency _ _) (.addresses .debug 72) 5
      (⟨edge, 4⟩ : StreamReader 2) .all := by
  have hitems : edge.collectSlices .debug 5 .all = .ok [(edge.chunks[0], 0, 2),
    (edge.chunks[1], 0, 1), (edge.chunks[0], 2, 4), (edge.chunks[1], 2, 3)] := rfl
  exact (serializes_iff edge edge_wellFormed (by decide) (by decide)
    (.addresses .debug 72) ⟨edge, 4⟩ rfl 5 .all _ hitems
    (fun item hitem => ⟨by revert item; decide, by revert item; decide⟩)
    (fun item hitem _ => edge_whole (collectSlices_itemOk hitems item hitem).mem)
    edge_xdr).mpr ⟨nofun, nofun⟩

def halves : Dataset 1 where
  dtype := .float 2
  dsize := 2
  order := .be
  chunks := [⟨ULE.new 64, ULE.new 4, ⟨[ULE.new 0], rfl⟩⟩]
  shape := ⟨[2], rfl⟩
  chunkShape := ⟨[2], rfl⟩
  chunkShapeReduced := ⟨[2], rfl⟩
  scaledDimSz := ⟨[1], rfl⟩
  dimSz := ⟨[1], rfl⟩
  chunkDimSz := ⟨[1], rfl⟩
  shuffle := false
  gzip := none

theorem halves_wellFormed : halves.WellFormed :=
  .of_grid (by decide) ⟨rfl, rfl, rfl, rfl, rfl⟩
    (.of_prod_lt (by decide) (by decide) (by decide) (by decide) (by decide)
      (by decide) (.cons (by decide) .nil))
    (by decide) (by decide)

/-- The slice of all four bytes is taken to end behind eight. -/
theorem not_serializes_halves :
    halves.WellFormed ∧
      (⟨halves, 4⟩ : StreamReader 1).stream (.recency _ _) (.addresses .release 72)
        2 .all = .ok ([[64, 65, 66, 67]], none) ∧
      xdr byteSliceCast .little [64, 65, 66, 67] halves.dtype halves.order =
        .ok [64, 65, 66, 67] ∧
      (⟨halves, 4⟩ : StreamReader 1).streamXdr (.recency _ _)
        (.addresses .release 72) 2 .all = .ok ([], some (.panic .index)) ∧
      ¬ Serializes (.recency _ _) (.recency _ _) (.addresses .release 72) 2
        (⟨halves, 4⟩ : StreamReader 1) .all := by
  refine ⟨halves_wellFormed, rfl, rfl, rfl, fun h => ?_⟩
  obtain ⟨items, items', ending, hstream, hxdr, -⟩ := h.converted
  cases hstream
  cases hxdr

end Hidefix.Reader
