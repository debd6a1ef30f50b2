import Hidefix.Reader.Covered
import Hidefix.Reader.Segments
import Hidefix.Reader.Stream
import Hidefix.Reader.Values
import Mathlib.Algebra.BigOperators.Ring.List

/-!
# What the readers report

A reader should return `Ok` only for a selection inside the dataset, with the
size of the selection and with every byte of it read from the file, and an `Err`
for any other selection.  The readers return `Ok`, or panic, for selections that
are not inside the dataset; for those that are, they do what they should, but
for arrays that have elements where the selection has none.
-/

namespace Hidefix.Reader

open Caching (LruCache)
open Filters (Scalar toNative)
open Foundation
open Idx
open MixedRadix
open Slices
open Sorting (UnstableSort)

variable {D : Nat} {env : Env} {ds : Dataset D} {e : Extents} {b : Build}

/-! ## What should be reported -/

/-- A value, or the first bytes of a destination, come from chunks of the file. -/
def FromFile (env : Env) (ds : Dataset D) (n : Nat) (bytes : Bytes) : Prop :=
  ∃ (chunkSz : Nat) (pieces : List Bytes),
    ds.chunkBytes env.build = .ok chunkSz ∧ (∀ piece ∈ pieces,
      ∃ item : Item D, item.1 ∈ ds.chunks ∧
        pieceOf env ds chunkSz item = .ok piece) ∧
    n ≤ pieces.flatten.length ∧ bytes.take n = pieces.flatten.take n

def Handed (env : Env) (ds : Dataset D) (T : Scalar) (out : Bytes) : Prop :=
  ∃ raw, out = toNative env.host T ds.order raw ∧
    FromFile env ds raw.length raw

/-- `read_to` of the reader with a cache, in any state that reads have led to,
and `read_to` and `read_to_par` of the direct reader. -/
inductive Method (env : Env) (ds : Dataset D) : (Nat → ReadTo) → Prop
  | cache {L : LruCache Nat Bytes} {chunkSz : Nat}
      (hsz : ds.chunkBytes env.build = .ok chunkSz) (reader : CacheReader D L)
      (h : reader.Reached env ds chunkSz) :
      Method env ds fun fuel e dst => (reader.readTo env fuel e dst).2
  | direct (r : Direct D) (h : Direct.withDataset env.build ds = .ok r)
      (sort : UnstableSort (Segment D) Segment.addr) :
      Method env ds fun fuel => r.readTo env sort fuel
  | directPar (r : Direct D) (h : Direct.withDataset env.build ds = .ok r)
      (sort : UnstableSort (Segment D) Segment.addr) (schedule : Schedule D) :
      Method env ds fun fuel => r.readToPar env sort schedule fuel

/-- The readers report what they do with a selection. -/
structure Reports (b : Build) (ds : Dataset D) (e : Extents) : Prop where
  returned : ∀ env : Env, env.build = b → ∀ read, Method env ds read →
    ∀ fuel dst dst' n, dst.length < 2 ^ 63 → read fuel e dst = .ok (dst', n) →
      Inside ds e ∧ n = (e.counts ds.shape.toList).prod * ds.dsize ∧
        FromFile env ds n dst'
  rejected : ¬ Inside ds e → ∀ env : Env, env.build = b →
    ∀ read, Method env ds read →
      ∀ dst, ∃ fuel message, read fuel e dst = bail message
  streamed : ¬ Inside ds e → ∀ env : Env, env.build = b →
    ∀ (L : LruCache Nat Bytes) r, StreamReader.withDataset b ds = .ok r →
      ∃ fuel yielded message,
        r.stream L env fuel e = .ok (yielded, some (.err message))
  values : ∀ env : Env, env.build = b → ∀ read, Method env ds read →
    ∀ fuel unstable memory T out,
      values b env.host unstable memory T ds (read fuel) e = .ok out →
        Handed env ds T out
  valuesDynPar : ∀ env : Env, env.build = b → ∀ read, Method env ds read →
    ∀ fuel memory T out,
      valuesDynPar b env.host memory T ds (read fuel) e = .ok out →
        Handed env ds T out
  array : e.Ranked ds.shape.toList → ∀ env : Env, env.build = b →
    ∀ sort schedule fuel memory out,
      getitem b env.host memory ds (fun r => r.readToPar env sort schedule fuel)
        (e.starts ds.shape.toList) (e.counts ds.shape.toList) = .ok out →
      ∃ T, arrayType ds.dtype = some T ∧ Handed env ds T out

/-- `__getitem__` can allocate the array for the selection. -/
def ArrayFits (ds : Dataset D) (e : Extents) : Prop :=
  ∃ T, arrayType ds.dtype = some T ∧
    (arrayDims (e.counts ds.shape.toList)).prod * T.sizeOf < 2 ^ 63

/-- The values of the longest row of chunks that a selection runs along. -/
def longestRow (ds : Dataset D) (e : Extents) : Nat :=
  ((e.counts ds.shape.toList).zip ds.chunkDimSz.toList).foldr
    (fun p longest => max (p.1 * p.2) longest) 0

/--
No counter goes around: in a debug build, which stops there; for a selection that is
folded correctly; and for sizes with which no step is a word long.
-/
def NoWrap (b : Build) (ds : Dataset D) (e : Extents) : Prop :=
  b = .debug ∨ Foldable (dims ds e) ∨ D * longestRow ds e * ds.dsize < 2 ^ 63

theorem le_longest {ps : List (Nat × Nat)} {p : Nat × Nat} (h : p ∈ ps) :
    p.1 * p.2 ≤ ps.foldr (fun p longest => max (p.1 * p.2) longest) 0 := by
  induction ps with
  | nil => cases h
  | cons q ps ih =>
      rcases List.mem_cons.mp h with rfl | h
      · exact Nat.le_max_left _ _
      · exact (ih h).trans (Nat.le_max_right _ _)

theorem rowsLe_slicerAt (h : Selects ds e) (hwf : ds.WellFormed)
    (offset : Nat) (os : List Nat) :
    RowsLe (longestRow ds e) (slicerAt ds e offset os) := by
  intro p hp
  obtain ⟨i, hi, rfl⟩ := List.mem_iff_getElem.mp hp
  simp only [List.length_zip, lt_min_iff, List.length_map] at hi
  obtain ⟨hcount, -, hw⟩ := hi
  simp only [List.getElem_zip, List.getElem_map]
  constructor
  · exact StrengthReducedU64.get_reduced
      ((h.inBounds hwf).counts_pos _ (List.getElem_mem hcount))
  · have hmem : ((counts (dims ds e))[i], ds.chunkDimSz.toList[i]) ∈
        (e.counts ds.shape.toList).zip ds.chunkDimSz.toList := by
      rw [← (dims_fields h.ranked).2.2.2]
      refine List.mem_iff_getElem.mpr ⟨i, ?_, ?_⟩
      · simp only [List.length_zip, lt_min_iff]
        exact ⟨hcount, hw⟩
      · simp only [List.getElem_zip]
    exact le_longest hmem

theorem ensureCapacity_ok (h : Inside ds e) (hwf : ds.WellFormed) {len n : Nat}
    (hn : ensureCapacity b ds e len = .ok n) :
    n = (counts (dims ds e)).prod * ds.dsize ∧ n ≤ len := by
  rw [ensureCapacity_inside h hwf] at hn
  split at hn
  · cases hn
    exact ⟨rfl, ‹_›⟩
  · cases hn

structure Filled (env : Env) (ds : Dataset D) (e : Extents) (fuel : Nat)
    (dst dst' : Bytes) (n chunkSz : Nat) (items : List (Item D))
    (pieces : List Bytes) : Prop where
  chunkSz_eq : ds.chunkBytes env.build = .ok chunkSz
  capacity : ensureCapacity env.build ds e dst.length = .ok n
  collected : ds.collectSlices env.build fuel e = .ok items
  pieces_eq : PiecesOf env ds chunkSz items pieces
  small : ∀ piece ∈ pieces, piece.length ≤ dst.length
  length_eq : dst'.length = dst.length
  prefix_eq : pieces.flatten.length < 2 ^ 64 →
    dst' = pieces.flatten ++ dst.drop pieces.flatten.length

theorem Written.filled {chunkSz fuel n : Nat} {dst dst' : Bytes}
    {items : List (Item D)} {segments : List (Segment D)}
    {ws : List (Buffer.Write UInt8)}
    (h : Written env ds chunkSz fuel e dst dst' items segments ws)
    (hsz : ds.chunkBytes env.build = .ok chunkSz)
    (hn : ensureCapacity env.build ds e dst.length = .ok n) :
    Filled env ds e fuel dst dst' n chunkSz items (ws.map Prod.snd) where
  chunkSz_eq := hsz
  capacity := hn
  collected := h.collected
  pieces_eq := piecesOf_writes h.placed h.written
  small := by
    intro piece hpiece
    obtain ⟨w, hw, rfl⟩ := List.mem_map.mp hpiece
    exact (Nat.le_add_left _ _).trans (h.fits w hw)
  length_eq := by
    obtain ⟨order, hperm, rfl⟩ := h.dst_eq
    exact Buffer.length_writeAll fun w hw => h.fits w (hperm.mem_iff.mp hw)
  prefix_eq := by
    intro hlt
    have hplaced : ws = Buffer.layout 0 (ws.map Prod.snd) :=
      writes_eq_layout (fun item hitem =>
          (collectSlices_itemOk h.collected item hitem).start_lt)
        h.placed (piecesOf_writes h.placed h.written) h.written
        (by rw [Nat.zero_mul]) (by rwa [Nat.zero_add])
    have hfit := Buffer.layout_fits (Nat.zero_le _) (hplaced ▸ h.fits)
    rw [Nat.zero_add] at hfit
    exact h.dst_eq_pieces hplaced hfit

theorem Method.filled {read : Nat → ReadTo} (hread : Method env ds read)
    (haddr : (ds.chunks.map Chunk.addr).Nodup) {fuel n : Nat}
    {dst dst' : Bytes} (h : read fuel e dst = .ok (dst', n)) :
    ∃ chunkSz items pieces,
      Filled env ds e fuel dst dst' n chunkSz items pieces := by
  cases hread with
  | @cache L chunkSz hsz reader hreader =>
      obtain ⟨hn, items, pieces, hitems, hpieces, hfit, rfl⟩ :=
        (CacheReader.Reached.sound haddr hreader).readTo_ok haddr h
      refine ⟨chunkSz, items, pieces, hsz, hn, hitems, hpieces, ?_, ?_,
        fun _ => rfl⟩
      · intro piece hpiece
        exact (List.sublist_flatten_of_mem hpiece).length_le.trans hfit
      · rw [List.length_append, List.length_drop]
        omega
  | direct r hr sort =>
      obtain ⟨chunkSz, hsz, hr⟩ := bind_eq_ok.mp hr
      cases hr
      obtain ⟨hn, items, segments, ws, hwritten⟩ := Direct.readTo_ok haddr h
      exact ⟨chunkSz, items, _, hwritten.filled hsz hn⟩
  | directPar r hr sort schedule =>
      obtain ⟨chunkSz, hsz, hr⟩ := bind_eq_ok.mp hr
      cases hr
      obtain ⟨hn, items, segments, ws, hwritten⟩ := Direct.readToPar_ok haddr h
      exact ⟨chunkSz, items, _, hwritten.filled hsz hn⟩

theorem mem_of_piecesOf {chunkSz : Nat} {items : List (Item D)}
    {pieces : List Bytes} (h : PiecesOf env ds chunkSz items pieces) :
    ∀ piece ∈ pieces, ∃ item ∈ items,
      pieceOf env ds chunkSz item = .ok piece := by
  induction h with
  | nil => simp
  | @cons item piece items pieces hpiece _ ih =>
      refine List.forall_mem_cons.mpr ⟨⟨item, by simp, hpiece⟩, ?_⟩
      intro piece hmem
      obtain ⟨item, hitem, heq⟩ := ih piece hmem
      exact ⟨item, List.mem_cons_of_mem _ hitem, heq⟩

theorem Filled.fromFile {fuel n chunkSz : Nat} {dst dst' : Bytes}
    {items : List (Item D)} {pieces : List Bytes}
    (hf : Filled env ds e fuel dst dst' n chunkSz items pieces)
    (hwf : ds.WellFormed) (h : Inside ds e) (hpos : 0 < ds.dsize)
    (hsize : NoWrap env.build ds e)
    (hdst : dst.length < 2 ^ 63) : FromFile env ds n dst' := by
  obtain ⟨hn, hle⟩ := ensureCapacity_ok h hwf hf.capacity
  by_cases hzero : 0 ∈ counts (dims ds e)
  · have hempty : n = 0 := by rw [hn, List.prod_eq_zero hzero, Nat.zero_mul]
    exact ⟨chunkSz, [], hf.chunkSz_eq, by simp, by simp [hempty], by simp [hempty]⟩
  · have hsel := h.selects hzero
    obtain ⟨s, hs, hrun⟩ := collectSlices_ok hf.collected
    rw [hsel.chunkSlices_eq hwf] at hs
    cases hs
    have hdsz : ds.dsize < 2 ^ 64 := by
      have := hwf.fits.shape [ds.dsize] (List.sublist_append_right _ _)
      rwa [List.prod_singleton] at this
    have hcovered : n ≤ pieces.flatten.length ∧ pieces.flatten.length < 2 ^ 64 := by
      have hsizes : SizesOk env.build D (longestRow ds e) ds.dsize →
          n ≤ pieces.flatten.length ∧ pieces.flatten.length < 2 ^ 64 := by
        intro hsize
        have hcover := pieces_cover (rowsLe_slicerAt hsel hwf _ _) hsize hpos hdsz
          (by rw [← hn]; omega) (by rw [Nat.zero_mul]; decide) hrun hf.pieces_eq
          fun piece hpiece => (hf.small piece hpiece).trans_lt hdst
        rwa [Nat.zero_mul, Nat.zero_add, ← hn] at hcover
      rcases hsize with hdebug | hfold | hsmall
      · exact hsizes (.inl hdebug)
      · have hlen := length_pieces_of_foldable hsel hwf hfold hf.collected hf.pieces_eq
        rw [← hn] at hlen
        omega
      · exact hsizes (.inr hsmall)
    obtain ⟨hcover, hlt⟩ := hcovered
    refine ⟨chunkSz, pieces, hf.chunkSz_eq, ?_, hcover, ?_⟩
    · intro piece hpiece
      obtain ⟨item, hitem, heq⟩ := mem_of_piecesOf hf.pieces_eq piece hpiece
      exact ⟨item, (collectSlices_itemOk hf.collected item hitem).mem, heq⟩
    · rw [hf.prefix_eq hlt, List.take_append_of_le_length hcover]

/-! ## Selections inside the dataset -/

theorem emptyVec_ok {unstable : Bool} {memory : Memory} {T : Scalar}
    {vsz : Nat} {dst : Bytes} (h : emptyVec unstable memory T vsz = .ok dst) :
    dst.length = vsz * T.sizeOf ∧ vsz * T.sizeOf < 2 ^ 63 := by
  unfold emptyVec at h
  split at h <;> exact allocate_ok h

theorem uninitArray_ok {memory : Memory} {T : Scalar} {shape : List Nat}
    {dst : Bytes} (h : uninitArray memory T shape = .ok dst) :
    dst.length = shape.prod * T.sizeOf ∧ shape.prod * T.sizeOf < 2 ^ 63 := by
  unfold uninitArray at h
  split at h
  · exact allocate_ok h
  · cases h

theorem ensureElements_ok {T : Scalar} {dsz vsz : Nat}
    (h : ensureElements b T dsz vsz = .ok ()) : T.sizeOf ∣ dsz := by
  unfold ensureElements at h
  split at h
  · cases h
  · rename_i hmod
    exact Nat.dvd_of_mod_eq_zero (not_not.mp hmod)

theorem prod_arrayDims (counts : List Nat) :
    (arrayDims counts).prod = (counts.filter (· > 1)).prod := by
  unfold arrayDims
  split
  · rename_i hempty
    rw [List.isEmpty_iff.mp hempty]
    rfl
  · rfl

theorem ofStartCount_inside (h : Inside ds e) :
    ∃ e', Extents.ofStartCount (e.starts ds.shape.toList)
        (e.counts ds.shape.toList) = .ok e' ∧
      Inside ds e' ∧ dims ds e' = dims ds e ∧
      longestRow ds e' = longestRow ds e := by
  obtain ⟨e', he', hranked, hstarts, hcounts⟩ :=
    Extents.ofStartCount_eq (Extents.length_starts h.ranked)
      (Extents.length_counts h.ranked)
  have hdims : dims ds e' = dims ds e := by
    rw [dims, dims, hstarts, hcounts]
  refine ⟨e', he', ⟨hranked, ?_⟩, hdims, by rw [longestRow, longestRow, hcounts]⟩
  rw [hdims]
  exact h.inside

section Sufficient

variable {read : Nat → ReadTo} {fuel : Nat} {out : Bytes} {T : Scalar}

theorem Method.handed (hread : Method env ds read) (hwf : ds.WellFormed)
    (h : Inside ds e) (hpos : 0 < ds.dsize)
    (hsize : NoWrap env.build ds e) {n : Nat}
    {dst raw : Bytes} (hdst : dst.length < 2 ^ 63)
    (hlen : dst.length ≤ (counts (dims ds e)).prod * ds.dsize)
    (hok : read fuel e dst = .ok (raw, n)) :
    Handed env ds T (toNative env.host T ds.order raw) := by
  obtain ⟨chunkSz, items, pieces, hf⟩ := hread.filled hwf.addr_nodup hok
  obtain ⟨hn, hle⟩ := ensureCapacity_ok h hwf hf.capacity
  have hraw : raw.length = n := by
    rw [hf.length_eq]
    omega
  refine ⟨raw, rfl, ?_⟩
  rw [hraw]
  exact hf.fromFile hwf h hpos hsize hdst

theorem Method.values (hread : Method env ds read) (hwf : ds.WellFormed)
    (h : Inside ds e) (hpos : 0 < ds.dsize)
    (hsize : NoWrap env.build ds e) {unstable : Bool}
    {memory : Memory}
    (hok : values env.build env.host unstable memory T ds (read fuel) e = .ok out) :
    Handed env ds T out := by
  have hfits := (h.fitsU64 hwf).prod_lt
  rw [List.prod_append, List.prod_singleton] at hfits
  unfold Reader.values valuesTo at hok
  rw [Extents.getCounts_ranked h.ranked, ok_bind,
    ← (dims_fields h.ranked).2.2.2, productU64_eq (h.fitsU64_counts hwf),
    ok_bind, mulU64_eq hfits, ok_bind] at hok
  obtain ⟨_, hensure, hok⟩ := bind_eq_ok.mp hok
  obtain ⟨dst, hdst, hok⟩ := bind_eq_ok.mp hok
  obtain ⟨⟨values, n'⟩, hvalues, hok⟩ := bind_eq_ok.mp hok
  cases hok
  obtain ⟨⟨raw, n⟩, hraw, hvalues⟩ := bind_eq_ok.mp hvalues
  cases hvalues
  obtain ⟨hlen, hlt⟩ := emptyVec_ok hdst
  exact hread.handed hwf h hpos hsize (hlen ▸ hlt)
    (hlen ▸ Nat.div_mul_le_self _ _) hraw

theorem Method.valuesDynPar (hread : Method env ds read) (hwf : ds.WellFormed)
    (h : Inside ds e) (hpos : 0 < ds.dsize)
    (hsize : NoWrap env.build ds e) {memory : Memory}
    (hok : valuesDynPar env.build env.host memory T ds (read fuel) e = .ok out) :
    Handed env ds T out := by
  unfold Reader.valuesDynPar valuesTo at hok
  rw [Extents.getCounts_ranked h.ranked, ok_bind,
    ← (dims_fields h.ranked).2.2.2] at hok
  obtain ⟨product, -, hok⟩ := bind_eq_ok.mp hok
  obtain ⟨bytes, -, hok⟩ := bind_eq_ok.mp hok
  obtain ⟨_, hensure, hok⟩ := bind_eq_ok.mp hok
  obtain ⟨dst, hdst, hok⟩ := bind_eq_ok.mp hok
  obtain ⟨⟨values, n'⟩, hvalues, hok⟩ := bind_eq_ok.mp hok
  cases hok
  obtain ⟨⟨raw, n⟩, hraw, hvalues⟩ := bind_eq_ok.mp hvalues
  cases hvalues
  obtain ⟨hlen, hlt⟩ := uninitArray_ok hdst
  have hle : T.sizeOf ≤ ds.dsize := Nat.le_of_dvd hpos (ensureElements_ok hensure)
  exact hread.handed hwf h hpos hsize (hlen ▸ hlt)
    (hlen ▸ Nat.mul_le_mul_left _ hle) hraw

end Sufficient

end Hidefix.Reader
