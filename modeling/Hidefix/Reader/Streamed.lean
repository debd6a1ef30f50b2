import Hidefix.Reader.Delivered

/-!
# Streams of arrays

A stream of a file that holds an array yields the slice in pieces.  The items as
values are these pieces in the native order, where their bytes happen to be aligned:
any other item is an error, and the stream goes on behind it.  Serialized, the items
are the slice as a whole serialized.
-/

namespace Hidefix.Reader

open Blocks
open Caching (LruCache)
open Filters (Scalar toNative xdr xdrFactor)
open Foundation
open Idx
open Slices
open StreamReader (itemValues)

variable {D dsz : Nat} {env : Env} {ds : Dataset D} {e : Extents} {A : Values dsz}
variable {fuel chunkSz : Nat} {items : List (Item D)} {pieces : List Bytes}

/-! ## Items as values -/

section Items

variable {T : Scalar}

theorem itemValues_aligned {address : Nat} {piece : Bytes} {order : Filters.Order}
    (halign : T.alignOf ∣ address) (h : T.sizeOf ∣ piece.length) :
    itemValues env T order address piece =
      .ok (toNative env.host T order piece) := by
  rw [StreamReader.itemValues, env.cast.asSliceOf_ok halign h, ok_bind]

theorem itemValues_misaligned {address : Nat} {order : Filters.Order}
    (halign : ¬ T.alignOf ∣ address) (piece : Bytes) :
    ∃ message, itemValues env T order address piece = bail message := by
  obtain ⟨message, herr⟩ := env.cast.asSliceOf_err piece fun h => halign h.1
  exact ⟨message, by rw [StreamReader.itemValues, herr]; rfl⟩

theorem PiecesOf.dvd (h : PiecesOf env ds chunkSz items pieces)
    (hitems : ∀ item ∈ items, item.2.1 ≤ item.2.2 ∧ item.2.2 * ds.dsize < 2 ^ 64) :
    ∀ piece ∈ pieces, ds.dsize ∣ piece.length := by
  induction h with
  | nil => simp
  | @cons item piece items pieces hpiece _ ih =>
      obtain ⟨hitem, hitems⟩ := List.forall_mem_cons.mp hitems
      have hlen := length_piece hitem.1 hitem.2 hpiece
      exact List.forall_mem_cons.mpr ⟨hlen ▸ Nat.dvd_mul_left _ _, ih hitems⟩

theorem toNative_flatten {host : Filters.Endian} {order : Filters.Order}
    (h : ∀ piece ∈ pieces, T.sizeOf ∣ piece.length) :
    (pieces.map (toNative host T order)).flatten =
      toNative host T order pieces.flatten := by
  induction pieces with
  | nil => simp
  | cons piece pieces ih =>
      obtain ⟨hpiece, hpieces⟩ := List.forall_mem_cons.mp h
      simp [toNative_append hpiece, ih hpieces]

end Items

namespace Available

theorem streamsValues (h : Available env ds e fuel chunkSz items pieces)
    (hwf : ds.WellFormed) (hpos : 0 < ds.dsize) (L : LruCache Nat Bytes)
    {r : StreamReader D} (hr : StreamReader.withDataset env.build ds = .ok r)
    (T : Scalar) (address : Nat → Nat) :
    r.streamValues L env T address fuel e = .ok (pieces.mapIdx fun i piece =>
      itemValues env T ds.order (address i) piece) := by
  have hds : r.ds = ds := by
    obtain ⟨_, -, hr⟩ := bind_eq_ok.mp hr
    cases hr
    rfl
  rw [StreamReader.streamValues, h.streams hwf hpos L hr, ok_bind]
  simp [StreamReader.order, hds]

theorem item_inside (h : Available env ds e fuel chunkSz items pieces) :
    ∀ item ∈ items, item.1 ∈ ds.chunks ∧
      ∃ data, chunkData env ds chunkSz item.1 = .ok data ∧
        item.2.2 * ds.dsize ≤ data.length := by
  intro item hitem
  obtain ⟨i, hi, rfl⟩ := List.mem_iff_getElem.mp hitem
  have hpiece := h.pieces_eq.get hi (h.pieces_eq.length_eq ▸ hi)
  obtain ⟨data, hdata, hpiece⟩ := bind_eq_ok.mp hpiece
  obtain ⟨hle, hword⟩ := h.ordered _ hitem
  have hstart := (Nat.mul_le_mul_right ds.dsize hle).trans_lt hword
  rw [List.get_eq_getElem, mulU64_eq hstart, ok_bind, mulU64_eq hword, ok_bind] at hpiece
  exact ⟨(collectSlices_itemOk h.collected _ hitem).mem, data, hdata,
    (indexRange_ok hpiece).2.1⟩

theorem streamsXdr (h : Available env ds e fuel (chunkSize ds) items pieces)
    (hwf : ds.WellFormed) (hpos : 0 < ds.dsize) (L : LruCache Nat Bytes)
    (horder : ds.order ≠ .unknown) (hone : ds.dtype ≠ .float 1)
    (htwo : ds.dtype ≠ .float 2) {r : StreamReader D}
    (hr : StreamReader.withDataset env.build ds = .ok r)
    (hwhole : ∀ c ∈ ds.chunks, ∀ data, chunkData env ds (chunkSize ds) c = .ok data →
      data.length = chunkSize ds)
    {data out : Bytes} (hdata : data.length = chunkSize ds)
    (hxdr : xdr env.cast env.host data ds.dtype ds.order = .ok out)
    (hout : out.length < 2 ^ 64) :
    ∃ items', r.streamXdr L env fuel e = .ok (items', none) ∧
      xdr env.cast env.host pieces.flatten ds.dtype ds.order = .ok items'.flatten := by
  have hstream := h.streams hwf hpos L hr
  obtain ⟨chunkSz', hsz, hr⟩ := bind_eq_ok.mp hr
  obtain rfl := Except.ok.inj (hsz.symm.trans h.chunkSz_eq)
  cases hr
  have hdsize := hwf.derived.dsize
  obtain ⟨width, x, f, hx, hf⟩ :=
    Filters.xdr_elementwise horder (hdsize ▸ hpos) hone htwo hxdr
  have hdvd : ∀ {data : Bytes}, data.length = chunkSize ds → width ∣ data.length := by
    intro data hdata
    rw [hdata, chunkSize, hdsize]
    exact hf.width_dvd.mul_left _
  have hin : ∀ item ∈ items, ∀ data,
      chunkData env ds (chunkSize ds) item.1 = .ok data →
        width ∣ data.length ∧ item.2.2 * ds.dsize ≤ data.length := by
    intro item hitem data hread
    obtain ⟨hmem, data', hread', hend⟩ := h.item_inside item hitem
    obtain rfl := Except.ok.inj (hread.symm.trans hread')
    exact ⟨hdvd (hwhole _ hmem _ hread), hend⟩
  have hword : ∀ item ∈ items, item.2.2 * ds.dsize * x < 2 ^ 64 := by
    intro item hitem
    obtain ⟨hmem, data', hread', hend⟩ := h.item_inside item hitem
    rw [hwhole _ hmem _ hread'] at hend
    rw [hf.length_eq (hdvd hdata) hxdr, hdata] at hout
    exact (Nat.mul_le_mul_right x hend).trans_lt hout
  have hchunk : chunkSize ds ≠ 0 :=
    (Nat.mul_pos (MixedRadix.prod_pos_of_forall hwf.chunk_pos) hpos).ne'
  let r : StreamReader D := ⟨ds, chunkSize ds⟩
  obtain ⟨pieces', items', ending, hplain, hconverted, hflatten⟩ : ∃ pieces items ending,
      r.stream L env fuel e = .ok (pieces, ending) ∧
        r.streamXdr L env fuel e = .ok (items, ending) ∧
        xdr env.cast env.host pieces.flatten ds.dtype ds.order = .ok items.flatten :=
    converted_of_elementwise hwf.addr_nodup hchunk h.collected hx hf
      (hdsize ▸ hf.width_dvd) (fun item hitem => (h.ordered item hitem).1)
      (fun item hitem => (h.ordered item hitem).2) hword hin
  cases hplain.symm.trans hstream
  exact ⟨items', hconverted, hflatten⟩

end Available

/--
What the streams of a file that holds an array yield: pieces that join up to the slice;
as values, each of them in the native order or an error where it is not aligned;
serialized, items that join up to the slice serialized.
-/
structure Streams (L L' : LruCache Nat Bytes) (env : Env) (r : StreamReader D)
    (A : Values dsz) (T : Scalar) (e : Extents) (fuel : Nat) (pieces : List Bytes) :
    Prop where
  stream : r.stream L env fuel e = .ok (pieces, none)
  joined : pieces.flatten = selectedBytes r.ds A e
  values : ∀ address, r.streamValues L env T address fuel e =
    .ok (pieces.mapIdx fun i piece => itemValues env T r.ds.order (address i) piece)
  aligned : ∀ piece ∈ pieces, ∀ address, T.alignOf ∣ address →
    itemValues env T r.ds.order address piece = .ok (toNative env.host T r.ds.order piece)
  misaligned : ∀ piece ∈ pieces, ∀ address, ¬ T.alignOf ∣ address →
    ∃ message, itemValues env T r.ds.order address piece = bail message
  native : (pieces.map (toNative env.host T r.ds.order)).flatten =
    selectedNative env.host r.ds A e
  serialized : ∃ items, r.streamXdr L' env fuel e = .ok (items, none) ∧
    xdr env.cast env.host (selectedBytes r.ds A e) r.ds.dtype r.ds.order = .ok items.flatten

theorem streams_array (L L' : LruCache Nat Bytes) (ds : Dataset D) (hwf : ds.WellFormed)
    (hpos : 0 < ds.dsize) (A : Values dsz) (hA : Carries env ds A) (e : Extents)
    (hin : Inside ds e) (hfold : Foldable (dims ds e)) (r : StreamReader D)
    (hr : StreamReader.withDataset env.build ds = .ok r) (T : Scalar)
    (hT : T.sizeOf = dsz) (hswap : env.host = .little ∨ T.isFloat = false)
    (horder : ds.order ≠ .unknown) (hone : ds.dtype ≠ .float 1)
    (htwo : ds.dtype ≠ .float 2) (data out : Bytes) (hdata : data.length = chunkSize ds)
    (hxdr : xdr env.cast env.host data ds.dtype ds.order = .ok out)
    (hout : out.length < 2 ^ 64) :
    ∃ fuel₀ pieces, ∀ fuel ≥ fuel₀, Streams L L' env r A T e fuel pieces := by
  obtain ⟨fuel₀, items, pieces, hflatten, havailable⟩ := hA.available hwf hin hfold
  have hds : r.ds = ds := by
    obtain ⟨_, -, hr⟩ := bind_eq_ok.mp hr
    cases hr
    rfl
  have hsize : T.sizeOf = ds.dsize := hT.trans hA.dsize_eq.symm
  refine ⟨fuel₀, pieces, fun fuel hfuel => ?_⟩
  have h := havailable fuel hfuel
  have hdvd := PiecesOf.dvd h.pieces_eq h.ordered
  rw [← hsize] at hdvd
  have hserialized := h.streamsXdr hwf hpos L' horder hone htwo hr hA.whole hdata hxdr hout
  rw [hflatten] at hserialized
  constructor
  · exact h.streams hwf hpos L hr
  · rw [hds, hflatten]
  · rw [hds]
    exact h.streamsValues hwf hpos L hr T
  · exact fun piece hpiece address halign => itemValues_aligned halign (hdvd piece hpiece)
  · exact fun piece _ address halign => itemValues_misaligned halign piece
  · rw [hds, toNative_flatten hdvd, hflatten]
    exact toNative_storedBytes hT hswap A
  · rw [hds]
    exact hserialized

theorem streams_array_pair : ∃ fuel₀ pieces, ∀ fuel ≥ fuel₀,
    Streams (.recency _ _) (.recency _ _) (.addresses .release 68) ⟨pair, 4⟩ pairValues
      .u16 .all fuel pieces :=
  streams_array (.recency _ _) (.recency _ _) pair pair_wellFormed (by decide) pairValues
    carries_pair .all ⟨by decide, by decide⟩ (by decide) ⟨pair, 4⟩ rfl .u16 rfl (.inl rfl)
    (by decide) (by decide) (by decide) [0, 0, 0, 0] [0, 0, 0, 0, 0, 0, 0, 0] rfl rfl
    (by decide)

end Hidefix.Reader
