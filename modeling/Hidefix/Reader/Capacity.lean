import Hidefix.Filters.Xdr
import Hidefix.Foundation.Bounded
import Hidefix.Reader.Serialized

/-!
# The size of the caches

A cache is made for as many chunks as the maximum size holds, and for one chunk at
least.  Chunks are cached as they are decoded, but a stream of XDR caches them as they
are converted, and small integers become longer.
-/

namespace Hidefix.Reader

open Caching (BoundedCache LruCache)
open Filters (byteSliceCast castFactor xdr xdrFactor)
open Foundation
open Idx
open Slices (edge)
open Transition (Reach)

variable {D : Nat} {L : LruCache Nat Bytes} {B : BoundedCache Nat Bytes} {env : Env}
  {ds : Dataset D} {chunkSz : Nat}

/-! ## The states of the caches -/

namespace CacheReader

def pointsOf (env : Env) :
    CacheReader D L → Dst → List (Item D) → List (CacheReader D L)
  | r, _, [] => [r]
  | r, d, item :: items =>
      r :: match r.readSlice env d item with
        | (r, .ok d) => pointsOf env r d items
        | (r, .error _) => [r]

def points (env : Env) (fuel : Nat) (r : CacheReader D L) (e : Extents)
    (dst : Bytes) : List (CacheReader D L) :=
  match (do
    let _ ← ensureCapacity env.build r.ds e dst.length
    r.ds.chunkSlices env.build e) with
  | .error _ => [r]
  | .ok slicer => pointsOf env r ⟨[], dst⟩ (slicer.run env.build fuel).1

/-- The readers that calls of `read_to` leave behind, from `with_dataset` on. -/
abbrev ReadRun (L : LruCache Nat Bytes) (env : Env) (ds : Dataset D) :
    CacheReader D L → Prop :=
  Reach (fun r => withDataset L env.build ds = .ok r)
    fun r r' => ∃ fuel e dst, r' = (r.readTo env fuel e dst).1

end CacheReader

namespace StreamReader

def cachesOf (L : LruCache Nat Bytes) (env : Env) (r : StreamReader D)
    (scale : Nat → Exec Nat) (convert : Bytes → Exec Bytes) :
    L.State → List Slice → List L.State
  | cache, [] => [cache]
  | cache, slice :: slices =>
      cache :: match r.yieldSlice L env scale convert cache slice with
        | (cache, .ok _) => cachesOf L env r scale convert cache slices
        | (cache, .error _) => [cache]

def start (b : Build) (fuel : Nat) (r : StreamReader D) (e : Extents) :
    Exec (List Slice × Nat) := do
  let slices ← r.slices b fuel e
  let cacheSz := max (← divU64 CACHE_SZ r.chunkSz) 1
  .ok (slices, cacheSz)

/-- The caches of a stream; there are none where the stream is not made. -/
def cachesWith (L : LruCache Nat Bytes) (env : Env) (fuel : Nat)
    (r : StreamReader D) (e : Extents) (scale : Nat → Exec Nat)
    (convert : Bytes → Exec Bytes) : List L.State :=
  match r.start env.build fuel e with
  | .error _ => []
  | .ok (slices, cacheSz) => r.cachesOf L env scale convert (L.new cacheSz) slices

def streamCaches (L : LruCache Nat Bytes) (env : Env) (fuel : Nat)
    (r : StreamReader D) (e : Extents) : List L.State :=
  r.cachesWith L env fuel e .ok .ok

def streamXdrCaches (L : LruCache Nat Bytes) (env : Env) (fuel : Nat)
    (r : StreamReader D) (e : Extents) : List L.State :=
  r.cachesWith L env fuel e
    (fun bound => do mulU64 env.build bound (← xdrFactor r.ds.dtype))
    (fun cache => xdr env.cast env.host cache r.ds.dtype r.order)

end StreamReader

/-! ## What the caches should keep to -/

def heldBytes (B : BoundedCache Nat Bytes) (s : B.State) : Nat :=
  ((B.held s).map fun p => p.2.length).sum

def Bounded (B : BoundedCache Nat Bytes) (s : B.State) : Prop :=
  ∀ p ∈ B.held s, heldBytes B s ≤ max CACHE_SZ p.2.length

/-- The chunks that can be read have as many bytes as a chunk of values. -/
def DecodesTo (env : Env) (ds : Dataset D) (chunkSz : Nat) : Prop :=
  ∀ c ∈ ds.chunks, ∀ data, chunkData env ds chunkSz c = .ok data →
    data.length = chunkSz

/--
The caches are bounded at every point: of calls of `read_to`, of a stream, and of a
stream of XDR.
-/
structure CachesBounded (B : BoundedCache Nat Bytes) (env : Env) (ds : Dataset D)
    (fuel : Nat) (e : Extents) : Prop where
  read : ∀ r, CacheReader.ReadRun B.toLruCache env ds r → ∀ dst,
    ∀ p ∈ r.points env fuel e dst, Bounded B p.cache
  stream : ∀ r, StreamReader.withDataset env.build ds = .ok r →
    ∀ s ∈ r.streamCaches B.toLruCache env fuel e, Bounded B s
  streamXdr : ∀ r, StreamReader.withDataset env.build ds = .ok r →
    ∀ s ∈ r.streamXdrCaches B.toLruCache env fuel e, Bounded B s

def cacheEntries (chunkSz : Nat) : Nat := max (CACHE_SZ / chunkSz) 1

/--
The converted chunks that a stream can keep fit, or there is only one of them.  They are
the distinct chunks of the slices that `chunk_slices` yields.
-/
def ConvertedFit (b : Build) (ds : Dataset D) (chunkSz fuel : Nat) (e : Extents) :
    Prop :=
  ∀ items, ds.collectSlices b fuel e = .ok items →
    min (cacheEntries chunkSz) (items.map fun item => item.1.addr.get).toFinset.card *
        (chunkSz * castFactor ds.dtype) ≤
      max CACHE_SZ (chunkSz * castFactor ds.dtype)

/-! ## Buffers of one length -/

abbrev FilledBy (B : BoundedCache Nat Bytes) (size capacity : Nat)
    (seen : Finset Nat) (s : B.State) : Prop :=
  B.Filled (fun data => data.length = size) capacity seen s

section Filled

variable {size capacity : Nat} {seen : Finset Nat} {s : B.State}

theorem heldBytes_eq (h : FilledBy B size capacity seen s) :
    heldBytes B s = min capacity seen.card * size := by
  rw [heldBytes, List.map_congr_left h.value, List.map_const', List.sum_replicate_nat,
    h.length_eq]

theorem bounded_of_fit (h : FilledBy B size capacity seen s)
    (hfit : min capacity seen.card * size ≤ max CACHE_SZ size) : Bounded B s := by
  intro p hp
  rw [heldBytes_eq h, h.value p hp]
  exact hfit

theorem fit_of_bounded (h : FilledBy B size capacity seen s) (hbounded : Bounded B s) :
    min capacity seen.card * size ≤ max CACHE_SZ size := by
  rcases List.eq_nil_or_concat (B.held s) with hnil | ⟨held, p, hheld⟩
  · rw [← h.length_eq, hnil, List.length_nil, Nat.zero_mul]
    exact Nat.zero_le _
  · have hp : p ∈ B.held s := by simp [hheld]
    have hle := hbounded p hp
    rwa [heldBytes_eq h, h.value p hp] at hle

theorem cacheEntries_mul_le (chunkSz : Nat) :
    cacheEntries chunkSz * chunkSz ≤ max CACHE_SZ chunkSz := by
  rw [cacheEntries]
  rcases Nat.le_total (CACHE_SZ / chunkSz) 1 with hone | hle
  · rw [max_eq_right hone, Nat.one_mul]
    exact le_max_right _ _
  · rw [max_eq_left hle]
    exact (Nat.div_mul_le_self _ _).trans (le_max_left _ _)

theorem bounded_of_chunks (h : FilledBy B chunkSz (cacheEntries chunkSz) seen s) :
    Bounded B s :=
  bounded_of_fit h ((Nat.mul_le_mul_right chunkSz (Nat.min_le_left _ _)).trans
    (cacheEntries_mul_le chunkSz))

end Filled

/-! ## The reader with a cache -/

namespace CacheReader

structure Keeps (ds : Dataset D) (chunkSz : Nat)
    (r : CacheReader D B.toLruCache) : Prop where
  ds_eq : r.ds = ds
  chunkSz_eq : r.chunkSz = chunkSz
  filled : ∃ seen, FilledBy B chunkSz (cacheEntries chunkSz) seen r.cache

variable {r : CacheReader D B.toLruCache}

theorem keeps_withDataset (hsz : ds.chunkBytes env.build = .ok chunkSz)
    (h : withDataset B.toLruCache env.build ds = .ok r) : Keeps ds chunkSz r := by
  obtain ⟨sz, hsz', h⟩ := bind_eq_ok.mp h
  rw [hsz] at hsz'
  cases hsz'
  obtain ⟨q, hq, h⟩ := bind_eq_ok.mp h
  obtain rfl := divU64_ok hq
  cases h
  exact ⟨rfl, rfl, ∅, B.filled_new _⟩

theorem Keeps.readSlice (hr : Keeps ds chunkSz r) (hdecodes : DecodesTo env ds chunkSz)
    {item : Item D} (hitem : item.1 ∈ ds.chunks) (d : Dst) :
    Keeps ds chunkSz (r.readSlice env d item).1 := by
  obtain ⟨rfl, rfl, seen, hfilled⟩ := hr
  have hgot := hfilled.get item.1.addr.get
  have hmiss := fun hnone data => hfilled.miss (k := item.1.addr.get) (v := data) hnone
  unfold CacheReader.readSlice
  cases sliceBounds env.build r.ds.dsize item.2.1 item.2.2 with
  | error f => exact ⟨rfl, rfl, seen, hfilled⟩
  | ok bounds =>
      obtain ⟨start, stop, sliceSz⟩ := bounds
      dsimp only
      generalize B.get r.cache item.1.addr.get = got at hgot hmiss
      obtain ⟨found, cache⟩ := got
      cases found with
      | some data => exact ⟨rfl, rfl, seen, hgot⟩
      | none =>
          cases hdata : chunkData env r.ds r.chunkSz item.1 with
          | error f => exact ⟨rfl, rfl, seen, hgot⟩
          | ok data =>
              dsimp only
              cases copySlice env.build d data start stop sliceSz with
              | error f => exact ⟨rfl, rfl, seen, hgot⟩
              | ok d' =>
                  exact ⟨rfl, rfl, _, hmiss rfl data (hdecodes _ hitem data hdata)⟩

theorem Keeps.pointsOf (hr : Keeps ds chunkSz r) (hdecodes : DecodesTo env ds chunkSz)
    {items : List (Item D)} (hitems : ∀ item ∈ items, item.1 ∈ ds.chunks) (d : Dst) :
    ∀ p ∈ pointsOf env r d items, Keeps ds chunkSz p := by
  induction items generalizing r d with
  | nil => simpa [CacheReader.pointsOf] using hr
  | cons item items ih =>
      obtain ⟨hitem, hitems⟩ := List.forall_mem_cons.mp hitems
      have hnext := hr.readSlice hdecodes hitem d
      refine List.forall_mem_cons.mpr ⟨hr, ?_⟩
      generalize r.readSlice env d item = step at hnext
      obtain ⟨r', res⟩ := step
      cases res with
      | error f => simpa using hnext
      | ok d' => exact ih hnext hitems d'

theorem Keeps.points (hr : Keeps ds chunkSz r) (hdecodes : DecodesTo env ds chunkSz)
    (fuel : Nat) (e : Extents) (dst : Bytes) :
    ∀ p ∈ r.points env fuel e dst, Keeps ds chunkSz p := by
  unfold CacheReader.points
  cases hstart : (do
      let _ ← ensureCapacity env.build r.ds e dst.length
      r.ds.chunkSlices env.build e) with
  | error f => simpa using hr
  | ok slicer =>
      obtain ⟨_, -, hslicer⟩ := bind_eq_ok.mp hstart
      refine hr.pointsOf hdecodes (fun item hitem => ?_) ⟨[], dst⟩
      have hmem := (run_itemOk item hitem).mem
      rwa [chunkSlices_dataset hslicer, hr.ds_eq] at hmem

theorem readSlices_mem_pointsOf (env : Env) (r : CacheReader D L) (d : Dst)
    (items : List (Item D)) :
    (r.readSlices env d items).1 ∈ CacheReader.pointsOf env r d items := by
  induction items generalizing r d with
  | nil => exact List.mem_singleton_self r
  | cons item items ih =>
      rw [readSlices, CacheReader.pointsOf]
      generalize r.readSlice env d item = step
      obtain ⟨r', res⟩ := step
      cases res with
      | error f => simp
      | ok d' => exact List.mem_cons_of_mem _ (ih r' d')

theorem readTo_mem_points (env : Env) (fuel : Nat) (r : CacheReader D L) (e : Extents)
    (dst : Bytes) : (r.readTo env fuel e dst).1 ∈ r.points env fuel e dst := by
  unfold readTo points
  cases ensureCapacity env.build r.ds e dst.length with
  | error f => exact List.mem_singleton_self r
  | ok vsz =>
      simp only [ok_bind]
      cases r.ds.chunkSlices env.build e with
      | error f => exact List.mem_singleton_self r
      | ok slicer =>
          have hmem := readSlices_mem_pointsOf env r ⟨[], dst⟩ (slicer.run env.build fuel).1
          simp only [ok_bind]
          generalize r.readSlices env ⟨[], dst⟩ (slicer.run env.build fuel).1 =
            step at hmem
          obtain ⟨r', res⟩ := step
          cases res with
          | error f => exact hmem
          | ok d => cases (slicer.run env.build fuel).2 <;> exact hmem

theorem ReadRun.keeps (hsz : ds.chunkBytes env.build = .ok chunkSz)
    (hdecodes : DecodesTo env ds chunkSz) (hr : ReadRun B.toLruCache env ds r) :
    Keeps ds chunkSz r := by
  refine Reach.invariant ?_ ?_ hr
  · exact fun r hr => keeps_withDataset hsz hr
  · rintro r _ hr ⟨fuel, e, dst, rfl⟩
    exact hr.points hdecodes fuel e dst _ (readTo_mem_points env fuel r e dst)

end CacheReader

/-! ## Streams -/

namespace StreamReader

variable {r : StreamReader D} {scale : Nat → Exec Nat} {convert : Bytes → Exec Bytes}
  {size capacity : Nat} {seen : Finset Nat} {cache : B.State} {slice : Slice}
  {slices : List Slice}

theorem yieldSlice_filled (scale : Nat → Exec Nat)
    (h : FilledBy B size capacity seen cache)
    (hread : ∀ data, readConverted env r convert slice = .ok data →
      data.length = size) :
    (∃ seen' ⊆ insert slice.addr seen, FilledBy B size capacity seen'
        (r.yieldSlice B.toLruCache env scale convert cache slice).1) ∧
      ∀ item, (r.yieldSlice B.toLruCache env scale convert cache slice).2 = .ok item →
        FilledBy B size capacity (insert slice.addr seen)
          (r.yieldSlice B.toLruCache env scale convert cache slice).1 := by
  have hgot := h.get slice.addr
  have hhit := fun v => h.hit (k := slice.addr) (v := v)
  have hmiss := fun hnone data => h.miss (k := slice.addr) (v := data) hnone
  have hsub := Finset.subset_insert slice.addr seen
  unfold yieldSlice
  cases scaledBounds env.build scale slice with
  | error f => exact ⟨⟨seen, hsub, h⟩, nofun⟩
  | ok bounds =>
      obtain ⟨start, stop⟩ := bounds
      dsimp only
      generalize B.get cache slice.addr = got at hgot hhit hmiss
      obtain ⟨found, cache'⟩ := got
      cases found with
      | some data => exact ⟨⟨seen, hsub, hgot⟩, fun _ _ => hhit data rfl⟩
      | none =>
          cases hdata : readConverted env r convert slice with
          | error f => exact ⟨⟨seen, hsub, hgot⟩, nofun⟩
          | ok data =>
              have hput := hmiss rfl data (hread data hdata)
              exact ⟨⟨_, Finset.Subset.refl _, hput⟩, fun _ _ => hput⟩

theorem cachesOf_filled (h : FilledBy B size capacity seen cache)
    (hread : ∀ slice ∈ slices, ∀ data, readConverted env r convert slice = .ok data →
      data.length = size) :
    ∀ s ∈ r.cachesOf B.toLruCache env scale convert cache slices,
      ∃ seen' ⊆ seen ∪ (slices.map Slice.addr).toFinset,
        FilledBy B size capacity seen' s := by
  induction slices generalizing cache seen with
  | nil => simpa [cachesOf] using ⟨seen, Finset.Subset.refl _, h⟩
  | cons slice slices ih =>
      obtain ⟨hslice, hread⟩ := List.forall_mem_cons.mp hread
      obtain ⟨hfailed, hyielded⟩ := yieldSlice_filled scale h hslice
      have hunion : seen ∪ ((slice :: slices).map Slice.addr).toFinset =
          insert slice.addr seen ∪ (slices.map Slice.addr).toFinset := by
        rw [List.map_cons, List.toFinset_cons, Finset.union_insert, Finset.insert_union]
      rw [hunion]
      refine List.forall_mem_cons.mpr ⟨⟨seen, ?_, h⟩, ?_⟩
      · exact (Finset.subset_insert _ _).trans Finset.subset_union_left
      · generalize r.yieldSlice B.toLruCache env scale convert cache slice = step
          at hfailed hyielded
        obtain ⟨cache', res⟩ := step
        cases res with
        | ok item => exact ih (hyielded item rfl) hread
        | error f =>
            obtain ⟨seen', hsub, hfilled⟩ := hfailed
            exact List.forall_mem_singleton.mpr
              ⟨seen', hsub.trans Finset.subset_union_left, hfilled⟩

theorem cachesOf_filled_all (h : FilledBy B size capacity seen cache)
    (hread : ∀ slice ∈ slices, ∀ data, readConverted env r convert slice = .ok data →
      data.length = size) {items : List Bytes}
    (hitems : r.yieldSlices B.toLruCache env scale convert cache slices =
      (items, none)) :
    ∃ s ∈ r.cachesOf B.toLruCache env scale convert cache slices,
      FilledBy B size capacity (seen ∪ (slices.map Slice.addr).toFinset) s := by
  induction slices generalizing cache seen items with
  | nil => simpa [cachesOf] using h
  | cons slice slices ih =>
      obtain ⟨hslice, hread⟩ := List.forall_mem_cons.mp hread
      obtain ⟨-, hyielded⟩ := yieldSlice_filled scale h hslice
      rw [List.map_cons, List.toFinset_cons, Finset.union_insert, ← Finset.insert_union]
      rw [yieldSlices] at hitems
      rw [cachesOf]
      generalize r.yieldSlice B.toLruCache env scale convert cache slice = step
        at hyielded hitems
      obtain ⟨cache', res⟩ := step
      cases res with
      | error f => cases hitems
      | ok item =>
          obtain ⟨-, hending⟩ := Prod.mk.inj hitems
          obtain ⟨s, hs, hfilled⟩ := ih (hyielded item rfl) hread (Prod.ext rfl hending)
          exact ⟨s, List.mem_cons_of_mem _ hs, hfilled⟩

theorem length_readConverted (hdecodes : DecodesTo env r.ds r.chunkSz) {factor : Nat}
    (hconvert : ∀ data out, convert data = .ok out → out.length = data.length * factor)
    (hslice : SliceOk r.ds slice) :
    ∀ data, readConverted env r convert slice = .ok data →
      data.length = r.chunkSz * factor := by
  intro out hout
  obtain ⟨c, hc, haddr, hsize⟩ := hslice
  obtain ⟨data, hdata, hout⟩ := bind_eq_ok.mp hout
  rw [hconvert data out hout, hdecodes c hc data]
  rw [chunkData, haddr, hsize, hdata]

variable {fuel : Nat} {e : Extents}

theorem streamWith_start (L : LruCache Nat Bytes) (env : Env) (fuel : Nat)
    (r : StreamReader D) (e : Extents) (scale : Nat → Exec Nat)
    (convert : Bytes → Exec Bytes) :
    r.streamWith L env fuel e scale convert = (do
      let (slices, cacheSz) ← r.start env.build fuel e
      .ok (r.yieldSlices L env scale convert (L.new cacheSz) slices)) := by
  unfold streamWith start
  simp only [bind_assoc]
  rfl

theorem map_addr_of_slices {b : Build} {dsz : Nat} {items : List (Item D)}
    (h : List.Forall₂ (fun item slice => sliceOfItem b dsz item = .ok slice)
      items slices) :
    slices.map Slice.addr = items.map fun item => item.1.addr.get := by
  induction h with
  | nil => rfl
  | cons hslice _ ih =>
      obtain ⟨start, -, hslice⟩ := bind_eq_ok.mp hslice
      obtain ⟨stop, -, hslice⟩ := bind_eq_ok.mp hslice
      cases hslice
      rw [List.map_cons, List.map_cons, ih]

theorem start_ok {cacheSz : Nat}
    (h : r.start env.build fuel e = .ok (slices, cacheSz)) :
    cacheSz = cacheEntries r.chunkSz ∧
      ∃ items, r.ds.collectSlices env.build fuel e = .ok items ∧
        (∀ slice ∈ slices, SliceOk r.ds slice) ∧
        slices.map Slice.addr = items.map fun item => item.1.addr.get := by
  obtain ⟨slices', hslices, h⟩ := bind_eq_ok.mp h
  obtain ⟨items, hitems, hslices⟩ := bind_eq_ok.mp hslices
  obtain ⟨q, hq, h⟩ := bind_eq_ok.mp h
  cases h
  have hforall := mapM_ok_forall₂ hslices
  have hmem : ∀ item ∈ items, item.1 ∈ r.ds.chunks := fun item hitem =>
    (collectSlices_itemOk hitems item hitem).mem
  refine ⟨?_, items, hitems, sliceOk_of_slices hmem hforall, map_addr_of_slices hforall⟩
  rw [cacheEntries, divU64_ok hq]

theorem cachesWith_filled (hdecodes : DecodesTo env r.ds r.chunkSz) {factor : Nat}
    (hconvert : ∀ data out, convert data = .ok out → out.length = data.length * factor) :
    ∀ s ∈ r.cachesWith B.toLruCache env fuel e scale convert,
      ∃ items, r.ds.collectSlices env.build fuel e = .ok items ∧
        ∃ seen ⊆ (items.map fun item => item.1.addr.get).toFinset,
          FilledBy B (r.chunkSz * factor) (cacheEntries r.chunkSz) seen s := by
  intro s hs
  unfold cachesWith at hs
  cases hstart : r.start env.build fuel e with
  | error f =>
      rw [hstart] at hs
      cases hs
  | ok p =>
      obtain ⟨slices, cacheSz⟩ := p
      rw [hstart] at hs
      obtain ⟨rfl, items, hitems, hok, haddr⟩ := start_ok hstart
      obtain ⟨seen, hsub, hfilled⟩ := cachesOf_filled (B.filled_new _)
        (fun slice hslice => length_readConverted hdecodes hconvert (hok slice hslice))
        s hs
      rw [Finset.empty_union, haddr] at hsub
      exact ⟨items, hitems, seen, hsub, hfilled⟩

theorem cachesWith_filled_all (hdecodes : DecodesTo env r.ds r.chunkSz) {factor : Nat}
    (hconvert : ∀ data out, convert data = .ok out → out.length = data.length * factor)
    {yielded : List Bytes}
    (h : r.streamWith B.toLruCache env fuel e scale convert = .ok (yielded, none)) :
    ∃ items, r.ds.collectSlices env.build fuel e = .ok items ∧
      ∃ s ∈ r.cachesWith B.toLruCache env fuel e scale convert,
        FilledBy B (r.chunkSz * factor) (cacheEntries r.chunkSz)
          (items.map fun item => item.1.addr.get).toFinset s := by
  rw [streamWith_start] at h
  obtain ⟨⟨slices, cacheSz⟩, hstart, h⟩ := bind_eq_ok.mp h
  obtain ⟨rfl, items, hitems, hok, haddr⟩ := start_ok hstart
  obtain ⟨s, hs, hfilled⟩ := cachesOf_filled_all (B.filled_new _)
    (fun slice hslice => length_readConverted hdecodes hconvert (hok slice hslice))
    (Except.ok.inj h)
  rw [Finset.empty_union, haddr] at hfilled
  refine ⟨items, hitems, s, ?_, hfilled⟩
  rw [cachesWith, hstart]
  exact hs

end StreamReader

/-! ## All caches -/

theorem bounded_stream {r : StreamReader D} (hdecodes : DecodesTo env r.ds r.chunkSz)
    {fuel : Nat} {e : Extents} :
    ∀ s ∈ r.streamCaches B.toLruCache env fuel e, Bounded B s := by
  intro s hs
  have hconvert : ∀ data out : Bytes, (.ok data : Exec Bytes) = .ok out →
      out.length = data.length * 1 := by
    rintro data _ ⟨⟩
    exact (Nat.mul_one _).symm
  obtain ⟨_, -, seen, -, hfilled⟩ :=
    StreamReader.cachesWith_filled hdecodes hconvert s hs
  rw [Nat.mul_one] at hfilled
  exact bounded_of_chunks hfilled

theorem bounded_streamXdr {r : StreamReader D} (hdecodes : DecodesTo env r.ds r.chunkSz)
    {fuel : Nat} {e : Extents} (hfit : ConvertedFit env.build r.ds r.chunkSz fuel e) :
    ∀ s ∈ r.streamXdrCaches B.toLruCache env fuel e, Bounded B s := by
  intro s hs
  obtain ⟨items, hitems, seen, hsub, hfilled⟩ := StreamReader.cachesWith_filled hdecodes
    (fun data out h => Filters.length_xdr h) s hs
  refine bounded_of_fit hfilled (le_trans ?_ (hfit items hitems))
  exact Nat.mul_le_mul_right _ (min_le_min le_rfl (Finset.card_le_card hsub))

theorem convertedFit_of_bounded {r : StreamReader D}
    (hdecodes : DecodesTo env r.ds r.chunkSz) {fuel : Nat} {e : Extents}
    {yielded : List Bytes}
    (h : r.streamXdr B.toLruCache env fuel e = .ok (yielded, none))
    (hbounded : ∀ s ∈ r.streamXdrCaches B.toLruCache env fuel e, Bounded B s) :
    ConvertedFit env.build r.ds r.chunkSz fuel e := by
  obtain ⟨items, hitems, s, hs, hfilled⟩ := StreamReader.cachesWith_filled_all hdecodes
    (fun data out h => Filters.length_xdr h) h
  intro items' hitems'
  obtain rfl := collectSlices_unique hitems hitems'
  exact fit_of_bounded hfilled (hbounded s hs)

/--
The caches are bounded where the converted chunks fit, and for a stream of XDR that
ends well only there.
-/
theorem cachesBounded_of_convertedFit (B : BoundedCache Nat Bytes) (env : Env)
    (ds : Dataset D) (chunkSz : Nat) (hsz : ds.chunkBytes env.build = .ok chunkSz)
    (hdecodes : DecodesTo env ds chunkSz) (fuel : Nat) (e : Extents) :
    (ConvertedFit env.build ds chunkSz fuel e → CachesBounded B env ds fuel e) ∧
      ∀ r yielded, StreamReader.withDataset env.build ds = .ok r →
        r.streamXdr B.toLruCache env fuel e = .ok (yielded, none) →
          CachesBounded B env ds fuel e → ConvertedFit env.build ds chunkSz fuel e := by
  have hreader : ∀ r, StreamReader.withDataset env.build ds = .ok r → r = ⟨ds, chunkSz⟩ := by
    intro r hr
    rw [StreamReader.withDataset, hsz] at hr
    exact (Except.ok.inj hr).symm
  refine ⟨fun hfit => ⟨?_, ?_, ?_⟩, ?_⟩
  · intro r hr dst p hp
    obtain ⟨-, -, seen, hfilled⟩ := (hr.keeps hsz hdecodes).points hdecodes fuel e dst p hp
    exact bounded_of_chunks hfilled
  · intro r hr
    obtain rfl := hreader r hr
    exact bounded_stream hdecodes
  · intro r hr
    obtain rfl := hreader r hr
    exact bounded_streamXdr hdecodes hfit
  · intro r yielded hr hyielded hbounded
    have hxdr := hbounded.streamXdr r hr
    obtain rfl := hreader r hr
    exact convertedFit_of_bounded hdecodes hyielded hxdr

theorem decodesTo_edge : DecodesTo (.addresses .debug 72) edge 4 := by
  intro c hc data hdata
  rcases List.mem_pair.mp hc with rfl | rfl <;>
    · cases hdata
      rfl

theorem cachesBounded_of_convertedFit_edge :
    CachesBounded (.recency _ _) (.addresses .debug 72) edge 5 .all ∧
      ConvertedFit .debug edge 4 5 .all := by
  have hspec := cachesBounded_of_convertedFit (.recency _ _) (.addresses .debug 72) edge 4 rfl
    decodesTo_edge 5 .all
  have hfit : ConvertedFit .debug edge 4 5 .all := by
    intro items hitems
    obtain rfl := Except.ok.inj hitems
    decide
  have hbounded := hspec.1 hfit
  exact ⟨hbounded, hspec.2 ⟨edge, 4⟩ _ rfl rfl hbounded⟩

/-! ## Two chunks of bytes -/

def Env.zeros (n : Nat) : Env where
  host := .little
  cast := byteSliceCast
  build := .release
  zlib := fun _ _ => none
  file := List.replicate n 0

def twoChunks : Dataset 1 where
  dtype := .uint 1
  dsize := 1
  order := .le
  chunks := [⟨.new 0, .new (2 ^ 24), .new 0 ::ᵥ .nil⟩,
    ⟨.new (2 ^ 24), .new (2 ^ 24), .new (2 ^ 24) ::ᵥ .nil⟩]
  shape := 2 ^ 25 ::ᵥ .nil
  chunkShape := 2 ^ 24 ::ᵥ .nil
  chunkShapeReduced := 16777216 ::ᵥ .nil
  scaledDimSz := 1 ::ᵥ .nil
  dimSz := 1 ::ᵥ .nil
  chunkDimSz := 1 ::ᵥ .nil
  shuffle := false
  gzip := none

theorem chunkData_zeros {n chunkSz : Nat} {c : Chunk 1}
    (haddr : c.addr.get < 2 ^ 63) (hsize : c.size.get < 2 ^ 63)
    (hend : c.addr.get + c.size.get ≤ n) :
    chunkData (.zeros n) twoChunks chunkSz c = .ok (List.replicate c.size.get 0) := by
  have hread : readChunkTo (List.replicate n 0) c.addr.get c.size.get =
      .ok (List.replicate c.size.get 0) := by
    have htake : ((List.replicate n (0 : UInt8)).drop c.addr.get).take c.size.get =
        List.replicate c.size.get 0 := by
      rw [List.drop_replicate, List.take_replicate, Nat.min_eq_left (by omega)]
    rw [readChunkTo, if_neg (by omega), htake, if_pos List.length_replicate]
  rw [chunkData, readChunk_eq hsize, Env.zeros]
  dsimp only
  rw [hread, ok_bind]
  rfl

theorem chunk_twoChunks : ∀ c ∈ twoChunks.chunks, c.addr.get < 2 ^ 63 ∧
    c.addr.get + c.size.get ≤ 2 ^ 25 ∧ c.size.get = 2 ^ 24 := by decide

theorem decodesTo_twoChunks : DecodesTo (.zeros (2 ^ 25)) twoChunks (2 ^ 24) := by
  intro c hc data hdata
  obtain ⟨haddr, hend, hsize⟩ := chunk_twoChunks c hc
  rw [chunkData_zeros haddr (by omega) hend, hsize] at hdata
  cases hdata
  exact List.length_replicate

theorem yieldSliceAgain_twoChunks {c : Chunk 1} (hc : c ∈ twoChunks.chunks) :
    ∃ piece, StreamReader.yieldSliceAgain (.zeros (2 ^ 25)) ⟨twoChunks, 2 ^ 24⟩
      (fun bound => do mulU64 .release bound (← xdrFactor twoChunks.dtype))
      (fun cache => xdr byteSliceCast .little cache twoChunks.dtype twoChunks.order)
      (StreamReader.sliceAt twoChunks.dsize (c, 0, 2 ^ 24)) = .ok piece := by
  obtain ⟨haddr, hend, hsize⟩ := chunk_twoChunks c hc
  have hread : chunkData (.zeros (2 ^ 25)) twoChunks (2 ^ 24) c =
      .ok (List.replicate c.size.get 0) := chunkData_zeros haddr (by omega) hend
  obtain ⟨out, hout⟩ : ∃ out, xdr byteSliceCast .little (List.replicate c.size.get 0)
      twoChunks.dtype twoChunks.order = .ok out :=
    ⟨_, Filters.xdrCastSlice_eq (S := .u8) (D := .u32) (by decide) (by decide)
      (Nat.one_dvd _)⟩
  have hlen : out.length = 2 ^ 24 * 1 * 4 := by
    rw [Filters.length_xdr hout, List.length_replicate, hsize]
    rfl
  rw [StreamReader.yieldSliceAgain_eq (x := 4) (Nat.zero_le _)
      (StreamReader.scale_eq rfl (show 0 * 1 * 4 < 2 ^ 64 by decide))
      (StreamReader.scale_eq rfl (show 2 ^ 24 * 1 * 4 < 2 ^ 64 by decide)),
    hread, ok_bind, hout, ok_bind]
  exact ⟨_, StreamReader.sliceBytes_eq (Nat.mul_le_mul_right 4 (Nat.zero_le _)) hlen.ge⟩

theorem streamXdr_twoChunks (L : LruCache Nat Bytes) :
    ∃ yielded, (⟨twoChunks, 2 ^ 24⟩ : StreamReader 1).streamXdr L (.zeros (2 ^ 25)) 3 .all =
      .ok (yielded, none) := by
  have hitems : twoChunks.collectSlices .release 3 .all = .ok
      [(⟨.new 0, .new (2 ^ 24), .new 0 ::ᵥ .nil⟩, 0, 2 ^ 24),
        (⟨.new (2 ^ 24), .new (2 ^ 24), .new (2 ^ 24) ::ᵥ .nil⟩, 0, 2 ^ 24)] := rfl
  have hstream := @StreamReader.streamWith_eq 1 L (.zeros (2 ^ 25)) ⟨twoChunks, 2 ^ 24⟩
    (by decide) 3 .all _ hitems (by decide) (by decide) (by decide)
    (fun bound => do mulU64 .release bound (← xdrFactor twoChunks.dtype))
    (fun cache => xdr byteSliceCast .little cache twoChunks.dtype twoChunks.order)
  obtain ⟨first, hfirst⟩ := yieldSliceAgain_twoChunks List.mem_cons_self
  obtain ⟨last, hlast⟩ :=
    yieldSliceAgain_twoChunks (List.mem_cons_of_mem _ List.mem_cons_self)
  simp only [List.map_cons, List.map_nil, hfirst, hlast] at hstream
  exact ⟨[first, last], hstream⟩

/-- The bytes of two chunks become 128 MiB, of which a stream of XDR keeps all. -/
theorem not_cachesBounded_twoChunks :
    DecodesTo (.zeros (2 ^ 25)) twoChunks (2 ^ 24) ∧
      ¬ CachesBounded (.recency _ _) (.zeros (2 ^ 25)) twoChunks 3 .all := by
  refine ⟨decodesTo_twoChunks, fun h => ?_⟩
  obtain ⟨yielded, hyielded⟩ := streamXdr_twoChunks (BoundedCache.recency Nat Bytes).toLruCache
  have hfit := convertedFit_of_bounded decodesTo_twoChunks hyielded
    (h.streamXdr ⟨twoChunks, 2 ^ 24⟩ rfl) _ rfl
  revert hfit
  decide

end Hidefix.Reader
