import Hidefix.Extent
import Hidefix.Filters.ByteOrder
import Hidefix.Idx.Chunk

/-!
# Datasets

The index of a single variable: its chunks, its shape and the sizes derived
from the shapes.  `Dataset.new` computes the derived sizes, `Dataset.index`
builds a dataset from what the HDF5 library reports.
-/

namespace Hidefix.Idx

open Foundation
open Filters (Order)

inductive Datatype where
  | uint (size : Nat)
  | int (size : Nat)
  | float (size : Nat)
  | custom (size : Nat)
  deriving DecidableEq, Repr

def Datatype.dsize : Datatype → Nat
  | uint sz | int sz | float sz | custom sz => sz

/--
`strength_reduce::StrengthReducedU64`: a divisor with the quotients and the
remainders by it as the crate computes them, which documents that they are those
of the divisor.
-/
structure StrengthReducedU64 where
  get : Nat
  div : Nat → Nat
  rem : Nat → Nat
  get_pos : 0 < get
  div_eq : ∀ n, div n = n / get
  rem_eq : ∀ n, rem n = n % get

namespace StrengthReducedU64

attribute [simp] div_eq rem_eq

theorem eq_of_get {d d' : StrengthReducedU64} (h : d.get = d'.get) : d = d' := by
  obtain ⟨get, div, rem, hpos, hdiv, hrem⟩ := d
  obtain ⟨get', div', rem', hpos', hdiv', hrem'⟩ := d'
  obtain rfl : get = get' := h
  obtain rfl : div = div' := funext fun n => (hdiv n).trans (hdiv' n).symm
  obtain rfl : rem = rem' := funext fun n => (hrem n).trans (hrem' n).symm
  rfl

instance : DecidableEq StrengthReducedU64 := fun d d' =>
  decidable_of_iff (d.get = d'.get) ⟨eq_of_get, congrArg get⟩

def ofPos (divisor : Nat) (h : 0 < divisor) : StrengthReducedU64 where
  get := divisor
  div n := n / divisor
  rem n := n % divisor
  get_pos := h
  div_eq _ := rfl
  rem_eq _ := rfl

def new (divisor : Nat) : Exec StrengthReducedU64 :=
  if h : 0 < divisor then .ok (ofPos divisor h) else panicWith .assertion

instance (n : Nat) : OfNat StrengthReducedU64 (n + 1) :=
  ⟨ofPos (n + 1) n.succ_pos⟩

theorem new_eq {divisor : Nat} (h : 0 < divisor) :
    new divisor = .ok (ofPos divisor h) := dif_pos h

/-- The divisor `n`, which is not zero. -/
def reduced (n : Nat) : StrengthReducedU64 :=
  ofPos (n - 1 + 1) (n - 1).succ_pos

theorem get_reduced {n : Nat} (h : 1 ≤ n) : (reduced n).get = n :=
  Nat.sub_add_cancel h

end StrengthReducedU64

/-- `slice.try_into()` for an array of `D` entries. -/
def tryInto {α : Type} (D : Nat) (xs : List α) : Exec (List.Vector α D) :=
  if h : xs.length = D then .ok ⟨xs, h⟩
  else bail "could not convert slice to array"

theorem tryInto_eq {α : Type} {D : Nat} {xs : List α} (h : xs.length = D) :
    tryInto D xs = .ok ⟨xs, h⟩ := dif_pos h

/-- `u64::div_ceil`; the divisor is checked before. -/
def divCeil (n c : Nat) : Nat :=
  if n % c > 0 then n / c + 1 else n / c

structure Dataset (D : Nat) where
  dtype : Datatype
  dsize : Nat
  order : Order
  chunks : List (Chunk D)
  shape : List.Vector Nat D
  chunkShape : List.Vector Nat D
  chunkShapeReduced : List.Vector StrengthReducedU64 D
  scaledDimSz : List.Vector Nat D
  dimSz : List.Vector Nat D
  chunkDimSz : List.Vector Nat D
  shuffle : Bool
  gzip : Option Nat
  deriving DecidableEq

/--
`.rev().scan(1, ..)` and the reversal that follows it: each entry is the
product of the entries after it.  The product itself is carried along.
-/
def revScan (b : Build) : List Nat → Exec (Nat × List Nat)
  | [] => .ok (1, [])
  | c :: cs => do
      let (p, sizes) ← revScan b cs
      let p' ← mulU64 b p c
      .ok (p', p :: sizes)

namespace Dataset

variable {D : Nat}

def new (b : Build) (dtype : Datatype) (order : Order)
    (shape : List.Vector Nat D) (chunks : List (Chunk D))
    (chunkShape : List.Vector Nat D) (shuffle : Bool) (gzip : Option Nat) :
    Exec (Dataset D) := do
  let dsize := dtype.dsize
  -- optimized divisor for chunk shape
  let reduced ← chunkShape.toList.mapM StrengthReducedU64.new
  let chunkShapeReduced ← tryInto D reduced
  -- dimension size of dataset in chunk offset coordinates, rounded up
  let (_, scaled) ← revScan b
    (List.zipWith divCeil shape.toList chunkShape.toList)
  let scaledDimSz ← tryInto D scaled
  let (_, dims) ← revScan b shape.toList
  let dimSz ← tryInto D dims
  let (_, chunkDims) ← revScan b chunkShape.toList
  let chunkDimSz ← tryInto D chunkDims
  .ok { dtype, dsize, order, chunks, shape, chunkShape, chunkShapeReduced,
        scaledDimSz, dimSz, chunkDimSz, shuffle, gzip }

/-- Number of chunks that `index` expects for a dataset of this shape. -/
def expectedChunks (b : Build) (shape chunkShape : List.Vector Nat D) :
    Exec Nat := do
  if chunkShape.toList.any (· = 0) then panicWith .divideByZero
  else productU64 b (List.zipWith divCeil shape.toList chunkShape.toList)

def isScalar (_ : Dataset D) : Bool := D = 0

def valid (b : Build) (ds : Dataset D) : Exec Bool := do
  for chunk in ds.chunks do
    let r ← chunk.contains b chunk.offsetU64 ds.chunkShape.toList
    if r ≠ .eq then bail "chunk does not contain its offset"
  .ok true

def chunkAtCoord (b : Build) (ds : Dataset D) (indices : List Nat) :
    Exec (Chunk D) := do
  debugAssert b (indices.length = ds.chunkShape.toList.length)
  debugAssert b (indices.length = ds.scaledDimSz.toList.length)
  let offset ← (indices.zip
      (ds.chunkShapeReduced.toList.zip ds.scaledDimSz.toList)).foldlM
    (fun offset p => do addU64 b offset (← mulU64 b (p.2.1.div p.1) p.2.2)) 0
  match ds.chunks[offset]? with
  | some chunk => .ok chunk
  | none => panicWith .index

def chunkBytes (b : Build) (ds : Dataset D) : Exec Nat := do
  mulU64 b (← productU64 b ds.chunkShape.toList) ds.dsize

end Dataset

/-! ## Indexing a dataset of the HDF5 library -/

inductive Filter where
  | shuffle
  | deflate (level : Nat)
  | other (name : String)
  deriving DecidableEq, Repr

structure ChunkInfo where
  offset : List Nat
  size : Nat
  addr : Nat
  deriving DecidableEq, Repr

/-- What the HDF5 library reports of a dataset. -/
structure Hdf5Dataset where
  name : String
  filters : List Filter
  dtype : Datatype
  order : Order
  shape : List Nat
  chunk : Option (List Nat)
  isChunked : Bool
  offset : Option Nat
  storageSize : Nat
  chunkInfos : List ChunkInfo
  deriving DecidableEq, Repr

/-- The flags that the filter loop of `index` leaves behind. -/
structure FilterFlags where
  shuffle : Bool
  gzip : Option Nat
  deriving DecidableEq, Repr

def indexFilters (name : String) :
    List Filter → FilterFlags → Exec FilterFlags
  | [], flags => .ok flags
  | .shuffle :: filters, flags =>
      indexFilters name filters { flags with shuffle := true }
  | .deflate z :: filters, flags =>
      indexFilters name filters { flags with gzip := some z }
  | .other _ :: _, _ => bail s!"{name}: Unsupported filter"

def ChunkInfo.toChunk (D : Nat) (ci : ChunkInfo) : Exec (Chunk D) :=
  if h : (ci.offset.map ULE.new).length = D then
    .ok { addr := ULE.new ci.addr, size := ULE.new ci.size,
          offset := ⟨ci.offset.map ULE.new, h⟩ }
  else panicWith .unwrap

def debugOption : Option Nat → String
  | none => "None"
  | some n => s!"Some({n})"

def Dataset.index (b : Build) (D : Nat) (h : Hdf5Dataset) :
    Exec (Dataset D) := do
  if h.shape.length ≠ D then bail "Dataset rank does not match."
  let flags ← indexFilters h.name h.filters ⟨false, none⟩
  let shape ← tryInto D h.shape
  let chunkShape ← match h.chunk with
    | none => .ok shape
    | some cs => if hc : cs.length = D then .ok ⟨cs, hc⟩ else panicWith .unwrap
  let chunks ← match h.isChunked, h.offset with
    | false, some offset =>
        .ok [{ addr := ULE.new offset, size := ULE.new h.storageSize,
               offset := List.Vector.replicate D (ULE.new 0) }]
    | true, none => h.chunkInfos.mapM (ChunkInfo.toChunk D)
    | chunked, offset =>
        bail s!"{h.name}: Unsupported data layout (chunked: {chunked}, offset: {debugOption offset})"
  let chunks := sortChunks chunks
  let expected ← expectedChunks b shape chunkShape
  if chunks.length ≠ expected then
    bail s!"{h.name}: unexpected number of chunks given dataset size (is_chunked: {h.isChunked}, chunks: {chunks.length} != {expected} (expected), shape: {shape.toList}, chunk shape: {chunkShape.toList})"
  Dataset.new b h.dtype h.order shape chunks chunkShape flags.shuffle flags.gzip

end Hidefix.Idx
