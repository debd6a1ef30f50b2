import Hidefix.Foundation.Lru
import Hidefix.Reader.Chunk

/-!
# The reader with a cache

Chunks that have been decoded are kept in a cache that lives as long as the
reader.  The slices are copied one after the other to the destination.
-/

namespace Hidefix.Reader

open Caching (LruCache)
open Foundation
open Idx

variable {D : Nat} {L : LruCache Nat Bytes}

structure CacheReader (D : Nat) (L : LruCache Nat Bytes) where
  ds : Dataset D
  cache : L.State
  chunkSz : Nat

/-- The destination: what has been written, and what remains of `dst`. -/
structure Dst where
  written : Bytes
  dst : Bytes

namespace CacheReader

def withDataset (L : LruCache Nat Bytes) (b : Build) (ds : Dataset D) :
    Exec (CacheReader D L) := do
  let chunkSz ← ds.chunkBytes b
  let cacheSz := max (← divU64 CACHE_SZ chunkSz) 1
  .ok { ds, cache := L.new cacheSz, chunkSz }

def sliceBounds (b : Build) (dsz start stop : Nat) : Exec (Nat × Nat × Nat) := do
  let start ← mulU64 b start dsz
  let stop ← mulU64 b stop dsz
  debugAssert b (start ≤ stop)
  let sliceSz ← subU64 b stop start
  .ok (start, stop, sliceSz)

/-- `dst[..slice_sz].copy_from_slice(&cache[start..end])`, and move on in `dst`. -/
def copySlice (b : Build) (d : Dst) (cache : Bytes) (start stop sliceSz : Nat) :
    Exec Dst := do
  debugAssert b (start ≤ cache.length)
  debugAssert b (stop ≤ cache.length)
  if sliceSz ≤ d.dst.length then do
    let piece ← indexRange cache start stop
    .ok { written := d.written ++ piece, dst := d.dst.drop sliceSz }
  else panicWith .index

/-- One turn of the loop over the slices. -/
def readSlice (env : Env) (r : CacheReader D L) (d : Dst) (item : Item D) :
    CacheReader D L × Exec Dst :=
  match sliceBounds env.build r.ds.dsize item.2.1 item.2.2 with
  | .error f => (r, .error f)
  | .ok (start, stop, sliceSz) =>
      match L.get r.cache item.1.addr.get with
      | (some data, cache) =>
          ({ r with cache }, copySlice env.build d data start stop sliceSz)
      | (none, cache) =>
          match chunkData env r.ds r.chunkSz item.1 with
          | .error f => ({ r with cache }, .error f)
          | .ok data =>
              match copySlice env.build d data start stop sliceSz with
              | .error f => ({ r with cache }, .error f)
              | .ok d =>
                  ({ r with cache := L.put cache item.1.addr.get data }, .ok d)

def readSlices (env : Env) :
    CacheReader D L → Dst → List (Item D) → CacheReader D L × Exec Dst
  | r, d, [] => (r, .ok d)
  | r, d, item :: items =>
      match r.readSlice env d item with
      | (r, .ok d) => readSlices env r d items
      | (r, .error f) => (r, .error f)

/--
Read the selection; the destination buffer and the number of bytes read.  The
slices before one at which the iteration stops are read before it does.
-/
def readTo (env : Env) (fuel : Nat) (r : CacheReader D L) (e : Extents)
    (dst : Bytes) : CacheReader D L × Exec (Bytes × Nat) :=
  match (do
    let vsz ← ensureCapacity env.build r.ds e dst.length
    .ok (vsz, ← r.ds.chunkSlices env.build e)) with
  | .error f => (r, .error f)
  | .ok (vsz, slicer) =>
      match r.readSlices env ⟨[], dst⟩ (slicer.run env.build fuel).1 with
      | (r, .error f) => (r, .error f)
      | (r, .ok d) =>
          match (slicer.run env.build fuel).2 with
          | .exhausted => (r, .ok (d.written ++ d.dst, vsz))
          | .fault f => (r, .error f)
          | .outOfFuel => (r, .error .outOfFuel)

end CacheReader

end Hidefix.Reader
