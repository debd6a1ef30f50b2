import Hidefix.Reader.Cache
import Hidefix.Reader.Direct

/-!
# Reading values

Values are read into the memory of a new vector or array.  What that memory
holds before is not known where it is not initialised.
-/

namespace Hidefix.Reader

open Caching (LruCache)
open Filters (Endian Order Scalar toNative)
open Foundation
open Idx

variable {D : Nat}

/-! ## Memory -/

/-- With the feature `unstable` the vector is not initialised. -/
def emptyVec (unstable : Bool) (memory : Memory) (T : Scalar) (vsz : Nat) :
    Exec Bytes :=
  if unstable then allocate memory (vsz * T.sizeOf)
  else allocate .zeroed (vsz * T.sizeOf)

/-- `ndarray::ArrayD::<T>::uninit(dims).assume_init()` -/
def uninitArray (memory : Memory) (T : Scalar) (dims : List Nat) :
    Exec Bytes :=
  if (dims.filter (· ≠ 0)).prod < 2 ^ 63 then
    allocate memory (dims.prod * T.sizeOf)
  else panicWith .capacityOverflow

/-! ## Values of a selection -/

abbrev ReadTo := Extents → Bytes → Exec (Bytes × Nat)

def valuesTo (host : Endian) (readTo : ReadTo) (T : Scalar) (order : Order)
    (e : Extents) (dst : Bytes) : Exec (Bytes × Nat) := do
  let (dst, r) ← readTo e dst
  .ok (toNative host T order dst, r)

def ensureElements (b : Build) (T : Scalar) (dsz vsz : Nat) : Exec Unit :=
  if dsz % T.sizeOf ≠ 0 then
    bail s!"size of datatype ({dsz}) not multiple of target {T.sizeOf}"
  else do
    let total ← mulU64 b dsz vsz
    if total % T.alignOf = 0 then .ok ()
    else bail s!"alignment of datatype ({T.alignOf}) not a multiple of datatype size and length {dsz}*{vsz}={total}, alignment may not match and result in unsoundness"

def values (b : Build) (host : Endian) (unstable : Bool) (memory : Memory)
    (T : Scalar) (ds : Dataset D) (readTo : ReadTo) (e : Extents) : Exec Bytes := do
  let counts ← e.getCounts ds.shape.toList
  let vsz := (← mulU64 b (← productU64 b counts) ds.dsize) / T.sizeOf
  ensureElements b T ds.dsize vsz
  let values ← emptyVec unstable memory T vsz
  let (values, _) ← valuesTo host readTo T ds.order e values
  .ok values

def valuesPar (b : Build) (host : Endian) (unstable : Bool) (memory : Memory)
    (T : Scalar) (ds : Dataset D) (readToPar : ReadTo) (e : Extents) :
    Exec Bytes :=
  values b host unstable memory T ds readToPar e

def valuesDynPar (b : Build) (host : Endian) (memory : Memory) (T : Scalar)
    (ds : Dataset D) (readToPar : ReadTo) (e : Extents) : Exec Bytes := do
  let dims ← e.getCounts ds.shape.toList
  let vsz := (← mulU64 b (← productU64 b dims) ds.dsize) / T.sizeOf
  ensureElements b T ds.dsize vsz
  let a ← uninitArray memory T dims
  let (a, _) ← valuesTo host readToPar T ds.order e a
  .ok a

/-! ## Arrays for Python -/

/-- Dimensions of the array: those longer than one, at least one. -/
def arrayDims (counts : List Nat) : List Nat :=
  if (counts.filter (· > 1)).isEmpty then [1] else counts.filter (· > 1)

/-- `PyArray::<T, _>::new(py, dims, false)` -/
def newArray (memory : Memory) (T : Scalar) (dims : List Nat) : Exec Bytes :=
  allocate memory (dims.prod * T.sizeOf)

def readPyArray (b : Build) (host : Endian) (memory : Memory) (T : Scalar)
    (ds : Dataset D) (readToPar : Direct D → ReadTo)
    (indices counts : List Nat) : Exec Bytes := do
  let dst ← newArray memory T (arrayDims counts)
  let r ← Direct.withDataset b ds
  let e ← Extents.ofStartCount indices counts
  let (a, _) ← valuesTo host (readToPar r) T ds.order e dst
  .ok a

def arrayType : Datatype → Option Scalar
  | .uint 1 => some .u8
  | .uint 2 => some .u16
  | .uint 4 => some .u32
  | .uint 8 => some .u64
  | .int 1 => some .i8
  | .int 2 => some .i16
  | .int 4 => some .i32
  | .int 8 => some .i64
  | .float 4 => some .f32
  | .float 8 => some .f64
  | _ => none

/-- The end of `__getitem__`, when the slices are indices and counts. -/
def getitem (b : Build) (host : Endian) (memory : Memory) (ds : Dataset D)
    (readToPar : Direct D → ReadTo) (indices counts : List Nat) : Exec Bytes :=
  match arrayType ds.dtype with
  | some T => readPyArray b host memory T ds readToPar indices counts
  | none => panicWith .unimplemented

theorem sizeOf_arrayType {dtype : Datatype} {T : Scalar}
    (h : arrayType dtype = some T) : T.sizeOf = dtype.dsize := by
  unfold arrayType at h
  split at h <;> cases h <;> rfl

end Hidefix.Reader
