import Hidefix.Foundation.Transition
import Hidefix.Idx.Items
import Hidefix.Reader.Cache
import Hidefix.Reader.Direct
import Hidefix.Reader.Stream
import Mathlib.Data.List.SplitBy

/-!
# Reading without a cache

Chunks of a dataset have distinct addresses, so that what a cache holds under
an address is what reading the chunk at that address returns.  Every reader is
the reader that reads the chunk of each slice again.
-/

namespace Hidefix.Reader

open Buffer (write)
open Caching (LruCache)
open Foundation
open Idx
open Sorting (UnstableSort)
open Transition (Reach)

variable {D : Nat} {L : LruCache Nat Bytes} {env : Env} {ds : Dataset D}

/-! ## The cached chunks -/

def CachedBy (ds : Dataset D) (f : Chunk D → Exec Bytes) (addr : Nat)
    (data : Bytes) : Prop :=
  ∃ c ∈ ds.chunks, c.addr.get = addr ∧ f c = .ok data

theorem chunk_eq_of_addr (haddr : (ds.chunks.map Chunk.addr).Nodup)
    {c c' : Chunk D} (hc : c ∈ ds.chunks) (hc' : c' ∈ ds.chunks)
    (h : c.addr = c'.addr) : c = c' :=
  List.inj_on_of_nodup_map haddr hc hc' h

theorem CachedBy.eq (haddr : (ds.chunks.map Chunk.addr).Nodup)
    {f : Chunk D → Exec Bytes} {c : Chunk D} {data : Bytes}
    (h : CachedBy ds f c.addr.get data) (hc : c ∈ ds.chunks) :
    f c = .ok data := by
  obtain ⟨c', hc', hget, hdata⟩ := h
  rwa [← chunk_eq_of_addr haddr hc' hc (ULE.ext hget)]

/-! ## The reader with a cache -/

namespace CacheReader

def readSliceAgain (env : Env) (ds : Dataset D) (chunkSz : Nat) (d : Dst)
    (item : Item D) : Exec Dst := do
  let (start, stop, sliceSz) ←
    sliceBounds env.build ds.dsize item.2.1 item.2.2
  let data ← chunkData env ds chunkSz item.1
  copySlice env.build d data start stop sliceSz

/-- The reader is one of the dataset, and its cache holds its chunks. -/
structure Sound (env : Env) (ds : Dataset D) (chunkSz : Nat)
    (r : CacheReader D L) : Prop where
  ds_eq : r.ds = ds
  chunkSz_eq : r.chunkSz = chunkSz
  cache : L.Holds (CachedBy ds (chunkData env ds chunkSz)) r.cache

variable {chunkSz : Nat} {r : CacheReader D L}

theorem Sound.readSlice (hr : r.Sound env ds chunkSz)
    (haddr : (ds.chunks.map Chunk.addr).Nodup) {item : Item D}
    (hitem : item.1 ∈ ds.chunks) (d : Dst) :
    (r.readSlice env d item).2 = readSliceAgain env ds chunkSz d item ∧
      (r.readSlice env d item).1.Sound env ds chunkSz := by
  obtain ⟨rfl, rfl, hcache⟩ := hr
  have hgotten := hcache.get item.1.addr.get
  have hhit : ∀ data, (L.get r.cache item.1.addr.get).1 = some data →
      CachedBy r.ds (chunkData env r.ds r.chunkSz) item.1.addr.get data :=
    fun _ h => hcache.hit h
  unfold CacheReader.readSlice readSliceAgain
  cases sliceBounds env.build r.ds.dsize item.2.1 item.2.2 with
  | error f => exact ⟨rfl, rfl, rfl, hcache⟩
  | ok bounds =>
      obtain ⟨start, stop, sliceSz⟩ := bounds
      dsimp only
      rw [ok_bind]
      generalize L.get r.cache item.1.addr.get = got at hgotten hhit
      obtain ⟨found, cache⟩ := got
      cases found with
      | some data =>
          have hdata := (hhit data rfl).eq haddr hitem
          rw [hdata]
          exact ⟨rfl, rfl, rfl, hgotten⟩
      | none =>
          cases hdata : chunkData env r.ds r.chunkSz item.1 with
          | error f => exact ⟨rfl, rfl, rfl, hgotten⟩
          | ok data =>
              dsimp only
              rw [ok_bind]
              cases copySlice env.build d data start stop sliceSz with
              | error f => exact ⟨rfl, rfl, rfl, hgotten⟩
              | ok d' =>
                  exact ⟨rfl, rfl, rfl, hgotten.put ⟨item.1, hitem, rfl, hdata⟩⟩

theorem Sound.readSlices (hr : r.Sound env ds chunkSz)
    (haddr : (ds.chunks.map Chunk.addr).Nodup) {items : List (Item D)}
    (hitems : ∀ item ∈ items, item.1 ∈ ds.chunks) (d : Dst) :
    (r.readSlices env d items).2 =
        items.foldlM (readSliceAgain env ds chunkSz) d ∧
      (r.readSlices env d items).1.Sound env ds chunkSz := by
  induction items generalizing r d with
  | nil => exact ⟨rfl, hr⟩
  | cons item items ih =>
      obtain ⟨hitem, hitems⟩ := List.forall_mem_cons.mp hitems
      obtain ⟨hres, hsound⟩ := hr.readSlice haddr hitem d
      rw [CacheReader.readSlices, List.foldlM_cons, ← hres]
      generalize r.readSlice env d item = step at hsound
      obtain ⟨r', res⟩ := step
      cases res with
      | error f => exact ⟨rfl, hsound⟩
      | ok d' => exact ih hsound hitems d'

/-- A call of `read_to`, whether it succeeds or not, leaves a sound cache. -/
theorem Sound.readTo (hr : r.Sound env ds chunkSz)
    (haddr : (ds.chunks.map Chunk.addr).Nodup) (fuel : Nat) (e : Extents)
    (dst : Bytes) : (r.readTo env fuel e dst).1.Sound env ds chunkSz := by
  unfold CacheReader.readTo
  cases hstart : (do
      let vsz ← ensureCapacity env.build r.ds e dst.length
      .ok (vsz, ← r.ds.chunkSlices env.build e)) with
  | error f => exact hr
  | ok p =>
      obtain ⟨vsz, slicer⟩ := p
      obtain ⟨_, -, hstart⟩ := bind_eq_ok.mp hstart
      obtain ⟨slicer', hslicer, hstart⟩ := bind_eq_ok.mp hstart
      cases hstart
      have hitems : ∀ item ∈ (slicer.run env.build fuel).1,
          item.1 ∈ ds.chunks := by
        intro item hitem
        have := (run_itemOk item hitem).mem
        rwa [chunkSlices_dataset hslicer, hr.ds_eq] at this
      obtain ⟨-, hsound⟩ := hr.readSlices haddr hitems ⟨[], dst⟩
      dsimp only
      generalize r.readSlices env ⟨[], dst⟩ (slicer.run env.build fuel).1 =
        step at hsound
      obtain ⟨r', res⟩ := step
      cases res with
      | error f => exact hsound
      | ok d =>
          cases (slicer.run env.build fuel).2 <;> exact hsound

/-- The readers that calls of `read_to` leave behind, from an empty cache on. -/
abbrev Reached (env : Env) (ds : Dataset D) (chunkSz : Nat) :
    CacheReader D L → Prop :=
  Reach (fun r => ∃ capacity, 1 ≤ capacity ∧
      r = { ds, cache := L.new capacity, chunkSz })
    fun r r' => ∃ fuel e dst, r' = (r.readTo env fuel e dst).1

theorem Reached.sound (haddr : (ds.chunks.map Chunk.addr).Nodup)
    (hr : Reached env ds chunkSz r) : r.Sound env ds chunkSz := by
  refine Reach.invariant ?_ ?_ hr
  · rintro _ ⟨capacity, -, rfl⟩
    exact ⟨rfl, rfl, LruCache.holds_new capacity⟩
  · rintro s _ hs ⟨fuel, e, dst, rfl⟩
    exact hs.readTo haddr fuel e dst

end CacheReader

/-! ## The direct reader -/

namespace Direct

def readSegmentAgain (env : Env) (r : Direct D) (dst : Bytes)
    (segment : Segment D) : Exec Bytes := do
  let data ← chunkData env r.ds r.chunkSz segment.1
  let (current, start, stop) ← segmentBounds env.build r.ds.dsize
    segment.2.1 segment.2.2.1 segment.2.2.2
  copySegment env.build dst data current start stop

def readSegmentRawAgain (env : Env) (r : Direct D) (dst : Bytes)
    (segment : Segment D) : Exec Bytes := do
  let data ← chunkData env r.ds r.chunkSz segment.1
  r.readSegmentRaw env data dst segment

variable {r : Direct D}

def LastOk (env : Env) (r : Direct D) (last : Option (Chunk D × Bytes)) : Prop :=
  ∀ p ∈ last, p.1 ∈ r.ds.chunks ∧ chunkData env r.ds r.chunkSz p.1 = .ok p.2

theorem lastOrRead_eq (haddr : (r.ds.chunks.map Chunk.addr).Nodup)
    {last : Option (Chunk D × Bytes)} (hlast : LastOk env r last) {c : Chunk D}
    (hc : c ∈ r.ds.chunks) :
    r.lastOrRead env last c = (do
      .ok (c, ← chunkData env r.ds r.chunkSz c)) := by
  unfold lastOrRead
  cases last with
  | none => rfl
  | some p =>
      obtain ⟨last, cache⟩ := p
      obtain ⟨hmem, hdata⟩ := hlast _ rfl
      dsimp only
      split
      · rename_i heq
        obtain rfl := chunk_eq_of_addr haddr hc hmem heq
        rw [hdata, ok_bind]
      · rfl

theorem foldlM_readSegment (haddr : (r.ds.chunks.map Chunk.addr).Nodup)
    {segments : List (Segment D)}
    (hsegments : ∀ segment ∈ segments, segment.1 ∈ r.ds.chunks)
    {last : Option (Chunk D × Bytes)} (hlast : LastOk env r last)
    (dst : Bytes) :
    (do
      let state ← segments.foldlM (r.readSegment env) (last, dst)
      .ok state.2) = segments.foldlM (r.readSegmentAgain env) dst := by
  induction segments generalizing last dst with
  | nil => rfl
  | cons segment segments ih =>
      obtain ⟨hsegment, hsegments⟩ := List.forall_mem_cons.mp hsegments
      rw [List.foldlM_cons, List.foldlM_cons, readSegment, readSegmentAgain,
        lastOrRead_eq haddr hlast hsegment]
      simp only [bind_assoc]
      cases hdata : chunkData env r.ds r.chunkSz segment.1 with
      | error f => rfl
      | ok data =>
          simp only [ok_bind]
          refine bind_congr fun bounds => bind_congr fun dst' => ?_
          refine ih hsegments (fun p hp => ?_) dst'
          obtain rfl := Option.some.inj hp
          exact ⟨hsegment, hdata⟩

theorem readGroup_eq (haddr : (r.ds.chunks.map Chunk.addr).Nodup)
    {group : List (Segment D)} (hne : group ≠ [])
    (hgroup : ∀ segment ∈ group, segment.1 ∈ r.ds.chunks)
    (hsame : ∀ a ∈ group, ∀ b ∈ group, a.1.addr = b.1.addr) (dst : Bytes) :
    r.readGroup env dst group =
      group.foldlM (r.readSegmentRawAgain env) dst := by
  obtain ⟨first, rest, rfl⟩ := List.exists_cons_of_ne_nil hne
  have hchunk : ∀ a ∈ first :: rest, a.1 = first.1 := fun a ha =>
    chunk_eq_of_addr haddr (hgroup a ha) (hgroup first (by simp))
      (hsame a ha first (by simp))
  rw [readGroup]
  cases hdata : chunkData env r.ds r.chunkSz first.1 with
  | error f =>
      rw [List.foldlM_cons, readSegmentRawAgain, hdata]
      rfl
  | ok data =>
      rw [ok_bind]
      refine foldlM_congr (fun dst segment hsegment => ?_) dst
      rw [readSegmentRawAgain, hchunk segment hsegment, hdata, ok_bind]

theorem foldlM_readGroup (haddr : (r.ds.chunks.map Chunk.addr).Nodup)
    {groups : List (List (Segment D))}
    (hgroups : ∀ group ∈ groups, group ≠ [] ∧
      (∀ segment ∈ group, segment.1 ∈ r.ds.chunks) ∧
      ∀ a ∈ group, ∀ b ∈ group, a.1.addr = b.1.addr) (dst : Bytes) :
    groups.foldlM (r.readGroup env) dst =
      groups.flatten.foldlM (r.readSegmentRawAgain env) dst := by
  induction groups generalizing dst with
  | nil => rfl
  | cons group groups ih =>
      obtain ⟨⟨hne, hmem, hsame⟩, hgroups⟩ := List.forall_mem_cons.mp hgroups
      rw [List.foldlM_cons, List.flatten_cons, List.foldlM_append,
        readGroup_eq haddr hne hmem hsame]
      exact bind_congr fun dst' => ih hgroups dst'

theorem flatten_groupsOf (segments : List (Segment D)) :
    (groupsOf segments).flatten = segments := List.flatten_splitBy _ _

theorem groupsOf_ok {segments group : List (Segment D)}
    (h : group ∈ groupsOf segments) :
    group ≠ [] ∧ (∀ a ∈ group, a ∈ segments) ∧
      ∀ a ∈ group, ∀ b ∈ group, a.1.addr = b.1.addr := by
  refine ⟨List.ne_nil_of_mem_splitBy h, fun a ha => ?_, ?_⟩
  · rw [← flatten_groupsOf segments]
    exact List.mem_flatten.mpr ⟨group, h, ha⟩
  · have hchain := (List.isChain_of_mem_splitBy h).imp
      (S := fun a b : Segment D => a.1.addr = b.1.addr)
      fun a b hab => by simpa using hab
    have hpairs := List.isChain_iff_pairwise.mp hchain
    have hsymm : Std.Symm fun a b : Segment D => a.1.addr = b.1.addr :=
      ⟨fun _ _ h => h.symm⟩
    intro a ha b hb
    exact hpairs.forall_of_forall (fun x _ => Eq.refl x.1.addr) ha hb

end Direct

/-! ## Streams -/

namespace StreamReader

variable {r : StreamReader D}

def yieldSliceAgain (env : Env) (r : StreamReader D) (scale : Nat → Exec Nat)
    (convert : Bytes → Exec Bytes) (slice : Slice) : Exec Bytes := do
  let (start, stop) ← scaledBounds env.build scale slice
  let data ← readConverted env r convert slice
  sliceBytes env.build data start stop

def yieldAll : List (Exec Bytes) → Yielded
  | [] => ([], none)
  | .ok item :: rest => (item :: (yieldAll rest).1, (yieldAll rest).2)
  | .error f :: _ => ([], some f)

def converted (env : Env) (r : StreamReader D) (convert : Bytes → Exec Bytes)
    (c : Chunk D) : Exec Bytes := do
  convert (← chunkData env r.ds r.chunkSz c)

def SliceOk (ds : Dataset D) (slice : Slice) : Prop :=
  ∃ c ∈ ds.chunks, c.addr.get = slice.addr ∧ c.size.get = slice.size

variable {scale : Nat → Exec Nat} {convert : Bytes → Exec Bytes}

theorem yieldSlice_eq (haddr : (r.ds.chunks.map Chunk.addr).Nodup)
    {cache : L.State}
    (hcache : L.Holds (CachedBy r.ds (converted env r convert)) cache)
    {slice : Slice} (hslice : SliceOk r.ds slice) :
    (r.yieldSlice L env scale convert cache slice).2 =
        yieldSliceAgain env r scale convert slice ∧
      L.Holds (CachedBy r.ds (converted env r convert))
        (r.yieldSlice L env scale convert cache slice).1 := by
  obtain ⟨c, hc, haddr', hsize⟩ := hslice
  have hgotten := hcache.get slice.addr
  have hhit : ∀ data, (L.get cache slice.addr).1 = some data →
      CachedBy r.ds (converted env r convert) slice.addr data :=
    fun _ h => hcache.hit h
  have hread : readConverted env r convert slice = converted env r convert c := by
    rw [readConverted, converted, chunkData, haddr', hsize]
  unfold yieldSlice yieldSliceAgain
  rw [hread]
  cases scaledBounds env.build scale slice with
  | error f => exact ⟨rfl, hcache⟩
  | ok bounds =>
      obtain ⟨start, stop⟩ := bounds
      dsimp only
      rw [ok_bind]
      generalize L.get cache slice.addr = got at hgotten hhit
      obtain ⟨found, cache'⟩ := got
      cases found with
      | some data =>
          have hdata := hhit data rfl
          rw [← haddr'] at hdata
          rw [hdata.eq haddr hc]
          exact ⟨rfl, hgotten⟩
      | none =>
          cases hdata : converted env r convert c with
          | error f => exact ⟨rfl, hgotten⟩
          | ok data => exact ⟨rfl, hgotten.put ⟨c, hc, haddr', hdata⟩⟩

/-- A stream yields what it would yield without its cache. -/
theorem yieldSlices_eq (haddr : (r.ds.chunks.map Chunk.addr).Nodup)
    {cache : L.State}
    (hcache : L.Holds (CachedBy r.ds (converted env r convert)) cache)
    {slices : List Slice} (hslices : ∀ slice ∈ slices, SliceOk r.ds slice) :
    r.yieldSlices L env scale convert cache slices =
      yieldAll (slices.map (yieldSliceAgain env r scale convert)) := by
  induction slices generalizing cache with
  | nil => rfl
  | cons slice slices ih =>
      obtain ⟨hslice, hslices⟩ := List.forall_mem_cons.mp hslices
      obtain ⟨hres, hnext⟩ := yieldSlice_eq haddr hcache hslice
      rw [yieldSlices, List.map_cons, ← hres]
      generalize r.yieldSlice L env scale convert cache slice = step at hnext
      obtain ⟨cache', res⟩ := step
      cases res with
      | error f => rfl
      | ok item =>
          dsimp only
          rw [ih hnext hslices]
          rfl

end StreamReader

end Hidefix.Reader
