import Hidefix.Reader.Reports

/-!
# Selections that are not reported as they should be

A stream never yields an `Err` on account of its selection, so no selection
outside the dataset is rejected by it.  The array for a selection without
elements has elements, which are not read.
-/

namespace Hidefix.Reader

open Caching (LruCache)
open Filters (Scalar byteSliceCast toNative)
open Foundation
open Idx
open MixedRadix
open Slices
open Sorting (UnstableSort)

variable {D : Nat} {ds : Dataset D} {e : Extents} {b : Build}

/-- The chunks lie at offsets that a file can have. -/
def Stored (ds : Dataset D) : Prop := ∀ c ∈ ds.chunks, c.addr.get < 2 ^ 63

instance (ds : Dataset D) : Decidable (Stored ds) :=
  inferInstanceAs (Decidable (∀ c ∈ ds.chunks, _))

/-! ## Streams -/

def plentiful (b : Build) (ds : Dataset D) : Env where
  host := .little
  cast := byteSliceCast
  build := b
  zlib := fun _ out => some (List.Vector.replicate out 0)
  file := List.replicate (ds.chunks.map fun c => c.addr.get + c.size.get).sum 0

abbrev NoErr {α : Type} (x : Exec α) : Prop :=
  FailsOnly (fun f => ∀ message, f ≠ .err message) x

theorem chunkData_plentiful (hstored : Stored ds) {c : Chunk D}
    (hc : c ∈ ds.chunks) (chunkSz : Nat) :
    NoErr (chunkData (plentiful b ds) ds chunkSz c) := by
  refine chunkData_fails (fun _ _ => nofun) ?_ fun chunk => ?_
  · have hend : c.addr.get + c.size.get ≤ (plentiful b ds).file.length := by
      rw [plentiful, List.length_replicate]
      exact List.single_le_sum (by simp) _ (List.mem_map_of_mem hc)
    unfold readChunkTo
    rw [if_neg (Nat.not_le.mpr (hstored c hc)), if_pos]
    · exact .ok _
    · rw [List.length_take, List.length_drop]
      omega
  · unfold inflate
    split
    · exact .bind (.allocate (fun _ _ => nofun) _ _) fun _ _ => .ok _
    · exact .ok _

theorem yieldAll_fault {results : List (Exec Bytes)} {f : Fault}
    (h : (StreamReader.yieldAll results).2 = some f) :
    Except.error f ∈ results := by
  induction results with
  | nil => cases h
  | cons result results ih =>
      cases result with
      | ok item => exact List.mem_cons_of_mem _ (ih h)
      | error f' =>
          cases h
          exact List.mem_cons_self

theorem yieldSliceAgain_noErr (hstored : Stored ds) {chunkSz : Nat}
    {slice : Slice} (hslice : StreamReader.SliceOk ds slice) :
    NoErr (StreamReader.yieldSliceAgain (plentiful b ds) ⟨ds, chunkSz⟩ .ok .ok
      slice) := by
  have hpanic : ∀ why message, Fault.panic why ≠ .err message :=
    fun _ _ => nofun
  obtain ⟨c, hc, haddr, hsize⟩ := hslice
  refine .bind (.bind (.ok _) fun _ _ => .bind (.ok _) fun _ _ =>
    .bind (.debugAssert hpanic _) fun _ _ => .ok _) fun bounds _ =>
    .bind (.bind ?_ fun _ _ => .ok _) fun data _ =>
    .bind (.debugAssert hpanic _) fun _ _ =>
    .bind (.debugAssert hpanic _) fun _ _ => .indexRange hpanic _ _ _
  rw [← haddr, ← hsize]
  exact chunkData_plentiful hstored hc chunkSz

theorem stream_noErr (hwf : ds.WellFormed) (hstored : Stored ds)
    {r : StreamReader D} (hr : r.ds = ds) {L : LruCache Nat Bytes} {fuel : Nat}
    {yielded : List Bytes} {message : String} :
    r.stream L (plentiful b ds) fuel e ≠ .ok (yielded, some (.err message)) := by
  intro h
  obtain ⟨_, chunkSz⟩ := r
  cases hr
  obtain ⟨items, slices, hitems, hslices, hyielded⟩ :=
    StreamReader.streamWith_ok hwf.addr_nodup h
  have hslicesOk := StreamReader.sliceOk_of_slices (fun item hitem =>
    (collectSlices_itemOk hitems item hitem).mem) hslices
  have hmem := yieldAll_fault (congrArg Prod.snd hyielded).symm
  obtain ⟨slice, hslice, hfault⟩ := List.mem_map.mp hmem
  exact yieldSliceAgain_noErr hstored (hslicesOk slice hslice) _ hfault message
    rfl

theorem Reports.inside (h : Reports b ds e) (hwf : ds.WellFormed)
    (hstored : Stored ds) : Inside ds e := by
  by_contra hout
  have hr : StreamReader.withDataset b ds =
      .ok ⟨ds, ds.chunkShape.toList.prod * ds.dsize⟩ := by
    rw [StreamReader.withDataset, hwf.chunkBytes_eq, ok_bind]
  obtain ⟨fuel, yielded, message, hstream⟩ :=
    h.streamed hout (plentiful b ds) rfl (.recency _ _) _ hr
  exact stream_noErr hwf hstored rfl hstream

/-! ## Arrays -/

theorem unshuffleSized_nil {sz : Nat} {out : Bytes}
    (h : Filters.unshuffleSized [] sz = .ok out) : out = [] := by
  unfold Filters.unshuffleSized at h
  split at h <;> cases h <;> rfl

theorem pieceOf_empty {chunkSz : Nat} {item : Item D} {piece : Bytes}
    (h : pieceOf (.addresses b 0) ds chunkSz item = .ok piece) : piece = [] := by
  obtain ⟨data, hdata, h⟩ := bind_eq_ok.mp h
  obtain ⟨start, -, h⟩ := bind_eq_ok.mp h
  obtain ⟨stop, -, h⟩ := bind_eq_ok.mp h
  obtain ⟨_, -, hdata⟩ := bind_eq_ok.mp hdata
  obtain ⟨chunk, hchunk, hdata⟩ := bind_eq_ok.mp hdata
  obtain ⟨_, -, hdata⟩ := bind_eq_ok.mp hdata
  obtain ⟨cache, hcache, hdata⟩ := bind_eq_ok.mp hdata
  have hchunk : chunk = [] := by
    unfold readChunkTo at hchunk
    split at hchunk
    · cases hchunk
    · split at hchunk
      · cases hchunk
        simp [Env.addresses]
      · cases hchunk
  have hcache : cache = [] := by
    unfold inflate at hcache
    split at hcache
    · obtain ⟨_, -, hcache⟩ := bind_eq_ok.mp hcache
      cases hcache
    · cases hcache
      exact hchunk
  have hdata : data = [] := by
    rw [hcache] at hdata
    split at hdata
    · exact unshuffleSized_nil hdata
    · cases hdata
      rfl
  obtain ⟨-, hstop, -⟩ := indexRange_ok h
  have hlen := length_indexRange h
  rw [hdata, List.length_nil] at hstop
  exact List.eq_nil_of_length_eq_zero (by omega)

theorem fromFile_empty {n : Nat} {bytes : Bytes}
    (h : FromFile (.addresses b 0) ds n bytes) : n = 0 := by
  obtain ⟨chunkSz, pieces, -, hpieces, hle, -⟩ := h
  have hnil : pieces.flatten = [] := by
    rw [List.flatten_eq_nil_iff]
    intro piece hpiece
    obtain ⟨item, -, heq⟩ := hpieces piece hpiece
    exact pieceOf_empty heq
  rw [hnil, List.length_nil] at hle
  omega

theorem readToPar_empty (h : Inside ds e) (hwf : ds.WellFormed)
    (hzero : 0 ∈ counts (dims ds e)) (env : Env) (chunkSz : Nat)
    (dst : Bytes) :
    (⟨ds, chunkSz⟩ : Direct D).readToPar env (.insertion _)
      ⟨id, fun _ => .refl _⟩ 1 e dst = .ok (dst, 0) := by
  have hsegments : ds.groupChunkSlices (.insertion _) env.build 1 e = .ok [] := by
    rw [Dataset.groupChunkSlices, h.collect_empty hwf hzero]
    rfl
  have hprod : (counts (dims ds e)).prod = 0 := List.prod_eq_zero hzero
  unfold Direct.readToPar
  rw [ensureCapacity_inside h hwf, hprod, Nat.zero_mul, if_pos (Nat.zero_le _),
    ok_bind, hsegments]
  rfl

theorem getitem_empty (h : Inside ds e) (hwf : ds.WellFormed)
    (hzero : 0 ∈ counts (dims ds e)) (env : Env) (memory : Memory)
    {T : Scalar} (hT : arrayType ds.dtype = some T)
    (hfits : (arrayDims (e.counts ds.shape.toList)).prod * T.sizeOf < 2 ^ 63) :
    getitem b env.host memory ds
        (fun r => r.readToPar env (.insertion _) ⟨id, fun _ => .refl _⟩ 1)
        (e.starts ds.shape.toList) (e.counts ds.shape.toList) =
      .ok (toNative env.host T ds.order
        (memory ((arrayDims (e.counts ds.shape.toList)).prod *
          T.sizeOf)).toList) := by
  obtain ⟨e', he', hin', hdims, -⟩ := ofStartCount_inside h
  unfold getitem
  rw [hT]
  dsimp only
  unfold readPyArray newArray allocate valuesTo
  rw [if_pos hfits, ok_bind, Direct.withDataset, hwf.chunkBytes_eq, ok_bind,
    ok_bind, he', ok_bind]
  dsimp only
  rw [readToPar_empty hin' hwf (hdims ▸ hzero)]
  rfl

theorem Reports.counts_pos (h : Reports b ds e) (hwf : ds.WellFormed)
    (hin : Inside ds e) (hfits : ArrayFits ds e) :
    ∀ k ∈ e.counts ds.shape.toList, 1 ≤ k := by
  by_contra hcounts
  push Not at hcounts
  obtain ⟨k, hk, hlt⟩ := hcounts
  obtain rfl : k = 0 := by omega
  rw [← (dims_fields hin.ranked).2.2.2] at hk
  obtain ⟨T, hT, hfits⟩ := hfits
  have hok := getitem_empty (b := b) hin hwf hk (.addresses b 0) .zeroed hT
    hfits
  obtain ⟨T', hT', raw, hout, hfile⟩ :=
    h.array hin.ranked (.addresses b 0) rfl _ _ _ _ _ hok
  rw [hT] at hT'
  cases hT'
  have hraw := List.eq_nil_of_length_eq_zero (fromFile_empty hfile)
  have hlen := congrArg List.length hout
  rw [hraw, Filters.toNative_nil, Filters.length_toNative
    (by rw [List.Vector.toList_length]; exact Nat.dvd_mul_left _ _),
    List.Vector.toList_length, List.length_nil, prod_arrayDims] at hlen
  have hpos : 0 < ((e.counts ds.shape.toList).filter (· > 1)).prod := by
    refine Nat.pos_of_ne_zero (List.prod_ne_zero fun hmem => ?_)
    have := List.of_mem_filter hmem
    simp at this
  have := Nat.mul_pos hpos T.sizeOf_pos
  omega

def wide : Dataset 4 where
  dtype := .uint 8
  dsize := 8
  order := .le
  chunks := [⟨.new 64, .new 32, .new 0 ::ᵥ .new 0 ::ᵥ .new 0 ::ᵥ .new 0 ::ᵥ .nil⟩,
    ⟨.new 96, .new 32, .new 1 ::ᵥ .new 0 ::ᵥ .new 0 ::ᵥ .new 0 ::ᵥ .nil⟩]
  shape := 2 ::ᵥ 2 ::ᵥ 1 ::ᵥ 1 ::ᵥ .nil
  chunkShape := 1 ::ᵥ 2 ::ᵥ 1152921504606846975 ::ᵥ 1 ::ᵥ .nil
  chunkShapeReduced := 1 ::ᵥ 2 ::ᵥ 1152921504606846975 ::ᵥ 1 ::ᵥ .nil
  scaledDimSz := 1 ::ᵥ 1 ::ᵥ 1 ::ᵥ 1 ::ᵥ .nil
  dimSz := 2 ::ᵥ 1 ::ᵥ 1 ::ᵥ 1 ::ᵥ .nil
  chunkDimSz := 2305843009213693950 ::ᵥ 1152921504606846975 ::ᵥ 1 ::ᵥ 1 ::ᵥ .nil
  shuffle := false
  gzip := none

end Hidefix.Reader
