import Hidefix.Filters.Xdr
import Hidefix.Foundation.Lru
import Hidefix.Reader.Chunk

/-!
# Streaming a selection

The slices are collected when the stream is made; its items are the slices in
order, read through a cache that is local to the stream.
-/

namespace Hidefix.Reader

open Caching (LruCache)
open Filters (Order Scalar toNative xdr xdrFactor)
open Foundation
open Idx

variable {D : Nat} {L : LruCache Nat Bytes}

structure StreamReader (D : Nat) where
  ds : Dataset D
  chunkSz : Nat

/-- Address and size of a chunk, start and end in bytes of a slice of it. -/
structure Slice where
  addr : Nat
  size : Nat
  start : Nat
  stop : Nat
  deriving DecidableEq, Repr

/-- The items yielded before the stream ends, and how it ends if not well. -/
abbrev Yielded := List Bytes × Option Fault

namespace StreamReader

def withDataset (b : Build) (ds : Dataset D) : Exec (StreamReader D) := do
  let chunkSz ← ds.chunkBytes b
  .ok { ds, chunkSz }

def sliceOfItem (b : Build) (dsz : Nat) (item : Item D) : Exec Slice := do
  let start ← mulU64 b item.2.1 dsz
  let stop ← mulU64 b item.2.2 dsz
  .ok { addr := item.1.addr.get, size := item.1.size.get, start, stop }

def slices (b : Build) (fuel : Nat) (r : StreamReader D) (e : Extents) :
    Exec (List Slice) := do
  (← r.ds.collectSlices b fuel e).mapM (sliceOfItem b r.ds.dsize)

def sliceBytes (b : Build) (cache : Bytes) (start stop : Nat) : Exec Bytes := do
  debugAssert b (start ≤ cache.length)
  debugAssert b (stop ≤ cache.length)
  indexRange cache start stop

def scaledBounds (b : Build) (scale : Nat → Exec Nat) (slice : Slice) :
    Exec (Nat × Nat) := do
  let start ← scale slice.start
  let stop ← scale slice.stop
  debugAssert b (start ≤ stop)
  .ok (start, stop)

def readConverted (env : Env) (r : StreamReader D)
    (convert : Bytes → Exec Bytes) (slice : Slice) : Exec Bytes := do
  let data ← readChunk env slice.addr slice.size r.chunkSz r.ds.dsize
    r.ds.gzip.isSome r.ds.shuffle
  convert data

/--
One item of a stream.  The bounds of the slice are scaled, and a chunk that is
read is converted before it is cached.
-/
def yieldSlice (L : LruCache Nat Bytes) (env : Env) (r : StreamReader D)
    (scale : Nat → Exec Nat) (convert : Bytes → Exec Bytes) (cache : L.State)
    (slice : Slice) : L.State × Exec Bytes :=
  match scaledBounds env.build scale slice with
  | .error f => (cache, .error f)
  | .ok (start, stop) =>
      match L.get cache slice.addr with
      | (some data, cache) => (cache, sliceBytes env.build data start stop)
      | (none, cache) =>
          match readConverted env r convert slice with
          | .error f => (cache, .error f)
          | .ok data =>
              (L.put cache slice.addr data,
                sliceBytes env.build data start stop)

def yieldSlices (L : LruCache Nat Bytes) (env : Env) (r : StreamReader D)
    (scale : Nat → Exec Nat) (convert : Bytes → Exec Bytes) :
    L.State → List Slice → Yielded
  | _, [] => ([], none)
  | cache, slice :: slices =>
      match r.yieldSlice L env scale convert cache slice with
      | (cache, .ok item) =>
          let (items, ending) :=
            yieldSlices L env r scale convert cache slices
          (item :: items, ending)
      | (_, .error f) => ([], some f)

def streamWith (L : LruCache Nat Bytes) (env : Env) (fuel : Nat)
    (r : StreamReader D) (e : Extents) (scale : Nat → Exec Nat)
    (convert : Bytes → Exec Bytes) : Exec Yielded := do
  let slices ← r.slices env.build fuel e
  let cacheSz := max (← divU64 CACHE_SZ r.chunkSz) 1
  .ok (r.yieldSlices L env scale convert (L.new cacheSz) slices)

def stream (L : LruCache Nat Bytes) (env : Env) (fuel : Nat)
    (r : StreamReader D) (e : Extents) : Exec Yielded :=
  r.streamWith L env fuel e .ok .ok

def order (r : StreamReader D) : Order := r.ds.order

def streamXdr (L : LruCache Nat Bytes) (env : Env) (fuel : Nat)
    (r : StreamReader D) (e : Extents) : Exec Yielded :=
  r.streamWith L env fuel e
    (fun bound => do mulU64 env.build bound (← xdrFactor r.ds.dtype))
    (fun cache => xdr env.cast env.host cache r.ds.dtype r.order)

/-- An item of a stream as values, at the address that it has. -/
def itemValues (env : Env) (T : Scalar) (order : Order) (address : Nat) (b : Bytes) :
    Exec Bytes := do
  let values ← env.cast.asSliceOf T address b
  .ok (toNative env.host T order values)

/-- Stream slice of dataset as `Vec<T>`, with the address that each item has. -/
def streamValues (L : LruCache Nat Bytes) (env : Env) (T : Scalar)
    (address : Nat → Nat) (fuel : Nat) (r : StreamReader D) (e : Extents) :
    Exec (List (Exec Bytes)) := do
  let (items, ending) ← r.stream L env fuel e
  let values := items.mapIdx fun i b => itemValues env T r.order (address i) b
  -- an item that is not cast does not end the stream
  .ok (values ++ ending.toList.map .error)

end StreamReader

end Hidefix.Reader
