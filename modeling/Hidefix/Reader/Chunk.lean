import Hidefix.Filters.ByteOrder
import Hidefix.Filters.Gzip
import Hidefix.Filters.Shuffle
import Hidefix.Idx.Slicer

/-!
# Reading and decoding a chunk
-/

namespace Hidefix.Reader

open Foundation
open Filters (ByteSliceCast Endian ZlibDecompress byteSliceCast decompress
  unshuffleSized)
open Idx

variable {D : Nat}

/-- What the readers run on: the target, the crate's build, libdeflater, the file. -/
structure Env where
  host : Endian
  cast : ByteSliceCast
  build : Build
  zlib : ZlibDecompress
  file : Bytes

/-- A file of `n` bytes, each its own address, and no decompression. -/
def Env.addresses (b : Build) (n : Nat) : Env where
  host := .little
  cast := byteSliceCast
  build := b
  zlib := fun _ _ => none
  file := (List.range n).map UInt8.ofNat

/-- Seek to `addr` and fill a buffer of length `size`. -/
def readChunkTo (file : Bytes) (addr size : Nat) : Exec Bytes :=
  if addr ≥ 2 ^ 63 then bail "Invalid argument (os error 22)"
  else if ((file.drop addr).take size).length = size then
    .ok ((file.drop addr).take size)
  else bail "failed to fill whole buffer"

def inflate (zlib : ZlibDecompress) (chunk : Bytes) (chunkSz : Nat)
    (gzipped : Bool) : Exec Bytes :=
  if gzipped then do
    let decache ← allocate .zeroed chunkSz
    decompress zlib chunk decache.length
  else .ok chunk

def decodeChunk (b : Build) (zlib : ZlibDecompress) (chunk : Bytes)
    (chunkSz dsz : Nat) (gzipped shuffled : Bool) : Exec Bytes := do
  debugAssert b (dsz < 16) -- unlikely data-size
  let cache ← inflate zlib chunk chunkSz gzipped
  if shuffled ∧ dsz > 1 then unshuffleSized cache dsz else .ok cache

def readChunk (env : Env) (addr size chunkSz dsz : Nat)
    (gzipped shuffled : Bool) : Exec Bytes := do
  let cache ← allocate .zeroed size
  let cache ← readChunkTo env.file addr cache.length
  decodeChunk env.build env.zlib cache chunkSz dsz gzipped shuffled

theorem readChunk_eq {env : Env} {addr size chunkSz dsz : Nat} {gzipped shuffled : Bool}
    (h : size < 2 ^ 63) :
    readChunk env addr size chunkSz dsz gzipped shuffled = (do
      let cache ← readChunkTo env.file addr size
      decodeChunk env.build env.zlib cache chunkSz dsz gzipped shuffled) := by
  rw [readChunk, allocate_eq _ h, ok_bind, List.Vector.toList_length]

/-- The decoded chunk, as every reader of the dataset asks for it. -/
def chunkData (env : Env) (ds : Dataset D) (chunkSz : Nat) (c : Chunk D) :
    Exec Bytes :=
  readChunk env c.addr.get c.size.get chunkSz ds.dsize ds.gzip.isSome ds.shuffle

def ensureCapacity (b : Build) (ds : Dataset D) (e : Extents) (len : Nat) :
    Exec Nat := do
  let counts ← e.getCounts ds.shape.toList
  let vsz ← mulU64 b (← productU64 b counts) ds.dsize
  if len ≥ vsz then .ok vsz
  else bail "destination buffer has insufficient capacity"

def CACHE_SZ : Nat := 32 * 1024 * 1024

end Hidefix.Reader
