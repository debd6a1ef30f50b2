import Hidefix.Foundation.Buffer
import Hidefix.Reader.Chunk

/-!
# The direct reader

The slices are visited in the order of the file addresses of their chunks, so
that each chunk is read once.  In parallel, the slices of one chunk are a group;
the groups are read in any order, and copied through a raw pointer.
-/

namespace Hidefix.Reader

open Buffer (write)
open Foundation
open Idx
open Sorting (UnstableSort)

variable {D : Nat}

structure Direct (D : Nat) where
  ds : Dataset D
  chunkSz : Nat

/-- The order in which the groups are processed. -/
structure Schedule (D : Nat) where
  order : List (List (Segment D)) → List (List (Segment D))
  perm : ∀ groups, (order groups).Perm groups

namespace Direct

def withDataset (b : Build) (ds : Dataset D) : Exec (Direct D) := do
  let chunkSz ← ds.chunkBytes b
  .ok { ds, chunkSz }

/-! ## Reading -/

/-- The chunk that is read, and its data: that of the last segment, or a new one. -/
def lastOrRead (env : Env) (r : Direct D) (last : Option (Chunk D × Bytes))
    (c : Chunk D) : Exec (Chunk D × Bytes) :=
  match last with
  | some (last, cache) =>
      if c.addr = last.addr then .ok (last, cache) -- still on same
      else do .ok (c, ← chunkData env r.ds r.chunkSz c)
  | none => do .ok (c, ← chunkData env r.ds r.chunkSz c)

def segmentBounds (b : Build) (dsz current start stop : Nat) :
    Exec (Nat × Nat × Nat) := do
  let start ← mulU64 b start dsz
  let stop ← mulU64 b stop dsz
  let current ← mulU64 b current dsz
  .ok (current, start, stop)

def copySegment (b : Build) (dst cache : Bytes) (current start stop : Nat) :
    Exec Bytes := do
  debugAssert b (start ≤ cache.length)
  debugAssert b (stop ≤ cache.length)
  let sz ← subU64 b stop start
  let currentEnd ← addU64 b current sz
  if current ≤ currentEnd ∧ currentEnd ≤ dst.length then do
    let piece ← indexRange cache start stop
    .ok (write dst current piece)
  else panicWith .index

def readSegment (env : Env) (r : Direct D)
    (state : Option (Chunk D × Bytes) × Bytes) (segment : Segment D) :
    Exec (Option (Chunk D × Bytes) × Bytes) := do
  let last ← r.lastOrRead env state.1 segment.1
  let (current, start, stop) ← segmentBounds env.build r.ds.dsize
    segment.2.1 segment.2.2.1 segment.2.2.2
  let dst ← copySegment env.build state.2 last.2 current start stop
  .ok (some last, dst)

def readTo (env : Env) (sort : UnstableSort (Segment D) Segment.addr)
    (fuel : Nat) (r : Direct D) (e : Extents) (dst : Bytes) :
    Exec (Bytes × Nat) := do
  let vsz ← ensureCapacity env.build r.ds e dst.length
  let groups ← r.ds.groupChunkSlices sort env.build fuel e
  let (_, dst) ← groups.foldlM (r.readSegment env) (none, dst)
  .ok (dst, vsz)

/-! ## Reading in parallel -/

/-- `chunk_by(|a, b| a.0.addr == b.0.addr)` -/
def groupsOf (segments : List (Segment D)) : List (List (Segment D)) :=
  segments.splitBy fun a b => a.1.addr == b.1.addr

/--
The raw copy of a segment.  `dst[current..]` is checked, the end of the copy is
not.
-/
def copyRaw (b : Build) (dst chunk : Bytes) (current start stop : Nat) :
    Exec Bytes := do
  debugAssert b (start ≤ chunk.length)
  debugAssert b (stop ≤ chunk.length)
  let sz ← subU64 b stop start
  if current ≤ dst.length then do
    let piece ← indexRange chunk start stop
    if current + sz ≤ dst.length then .ok (write dst current piece)
    else .error .outOfBuffer
  else panicWith .index

def readSegmentRaw (env : Env) (r : Direct D) (chunk : Bytes) (dst : Bytes)
    (segment : Segment D) : Exec Bytes := do
  let (current, start, stop) ← segmentBounds env.build r.ds.dsize
    segment.2.1 segment.2.2.1 segment.2.2.2
  copyRaw env.build dst chunk current start stop

def readGroup (env : Env) (r : Direct D) (dst : Bytes)
    (group : List (Segment D)) : Exec Bytes :=
  match group with
  | [] => panicWith .index
  | first :: _ => do
      let chunk ← chunkData env r.ds r.chunkSz first.1
      group.foldlM (r.readSegmentRaw env chunk) dst

def readToPar (env : Env) (sort : UnstableSort (Segment D) Segment.addr)
    (schedule : Schedule D) (fuel : Nat) (r : Direct D) (e : Extents)
    (dst : Bytes) : Exec (Bytes × Nat) := do
  let vsz ← ensureCapacity env.build r.ds e dst.length
  let segments ← r.ds.groupChunkSlices sort env.build fuel e
  let dst ← (schedule.order (groupsOf segments)).foldlM (r.readGroup env) dst
  .ok (dst, vsz)

end Direct

end Hidefix.Reader
