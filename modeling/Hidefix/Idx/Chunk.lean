import Hidefix.Foundation.Checked
import Mathlib.Data.Vector.Basic

/-!
# Chunks

A chunk records where it is stored and the dataspace coordinates at which it
begins.  The words are little-endian in memory; `get` is their value.
-/

namespace Hidefix.Idx

open Foundation

/-- A `u64` in little-endian layout. -/
structure ULE where
  get : Nat
  get_lt : get < 2 ^ 64
  deriving DecidableEq, Repr

def ULE.new (value : Nat) : ULE :=
  ⟨value % 2 ^ 64, Nat.mod_lt _ (by decide)⟩

@[ext] theorem ULE.ext {u v : ULE} (h : u.get = v.get) : u = v := by
  cases u
  cases v
  congr

@[simp] theorem ULE.new_get (u : ULE) : ULE.new u.get = u :=
  ULE.ext (Nat.mod_eq_of_lt u.get_lt)

theorem ULE.get_new {value : Nat} (h : value < 2 ^ 64) :
    (ULE.new value).get = value := Nat.mod_eq_of_lt h

structure Chunk (D : Nat) where
  addr : ULE
  size : ULE
  offset : List.Vector ULE D
  deriving DecidableEq

def Chunk.offsetU64 {D : Nat} (c : Chunk D) : List Nat :=
  c.offset.toList.map ULE.get

@[simp] theorem Chunk.length_offsetU64 {D : Nat} (c : Chunk D) :
    c.offsetU64.length = D := by
  simp [offsetU64]

def containsFrom (b : Build) :
    (offset i chunkShape : List Nat) → Exec Ordering
  | off :: offset, i :: is, sz :: chunkShape =>
      if i < off then .ok .lt
      else do
        let stop ← addU64 b off sz
        if i ≥ stop then .ok .gt else containsFrom b offset is chunkShape
  | _, _, _ => .ok .eq

/--
Is the point described by the indices inside the chunk (`eq`), before (`lt`) or
after (`gt`).
-/
def Chunk.contains {D : Nat} (b : Build) (c : Chunk D)
    (i chunkShape : List Nat) : Exec Ordering := do
  assertThat (i.length = chunkShape.length)
  assertThat (i.length = c.offsetU64.length)
  containsFrom b c.offsetU64 i chunkShape

def cmpOffsets : List Nat → List Nat → Ordering
  | a :: as, b :: bs =>
      match compare a b with
      | .gt => .gt
      | .lt => .lt
      | .eq => cmpOffsets as bs
  | _, _ => .eq

theorem cmpOffsets_cons {a b : Nat} {as bs : List Nat} :
    cmpOffsets (a :: as) (b :: bs) = (compare a b).then (cmpOffsets as bs) := by
  rw [cmpOffsets]
  cases compare a b <;> rfl

def Chunk.cmp {D : Nat} (c other : Chunk D) : Ordering :=
  cmpOffsets c.offsetU64 other.offsetU64

/-- `chunks.sort()`: a stable sort by `Chunk::cmp`. -/
def sortChunks {D : Nat} (chunks : List (Chunk D)) : List (Chunk D) :=
  chunks.mergeSort fun c other => (c.cmp other).isLE

end Hidefix.Idx
