import Hidefix.Foundation.Blocks
import Hidefix.Idx.Slicer
import Hidefix.Idx.WellFormed

/-!
# The serialised index

Chunks are stored as the bytes of their words, as they lie in memory, and the
arrays of a dataset as vectors of words.  The format itself carries byte
strings and vectors unchanged.
-/

namespace Hidefix.Idx

open Blocks
open Foundation

variable {D : Nat}

/-! ## Chunks as words -/

def sizeOfULE : Nat := 8

def Chunk.sizeOf (D : Nat) : Nat := (D + 2) * sizeOfULE

namespace Chunk

def asU64s (c : Chunk D) : List ULE := c.addr :: c.size :: c.offset.toList

def fromU64s (D : Nat) : List ULE → Exec (Chunk D)
  | addr :: size :: offset =>
      if h : offset.length = D then .ok { addr, size, offset := ⟨offset, h⟩ }
      else panicWith .assertion
  | _ => panicWith .assertion

def sliceAsU64s (chunks : List (Chunk D)) : Exec (List ULE) := do
  let slice := chunks.flatMap asU64s
  assertThat (slice.length = chunks.length * sizeOf D / sizeOfULE)
  .ok slice

def sliceFromU64s (D : Nat) (slice : List ULE) : Exec (List (Chunk D)) := do
  assertThat (slice.length % (sizeOf D / sizeOfULE) = 0)
  let n := slice.length / (sizeOf D / sizeOfULE)
  let chunks ← (blocks (sizeOf D / sizeOfULE) n slice).mapM (fromU64s D)
  assertThat (slice.length = chunks.length * sizeOf D / sizeOfULE)
  .ok chunks

theorem sizeOf_div (D : Nat) : sizeOf D / sizeOfULE = D + 2 :=
  Nat.mul_div_cancel _ (by decide)

theorem mul_sizeOf_div (n D : Nat) : n * sizeOf D / sizeOfULE = n * (D + 2) := by
  rw [sizeOf, ← Nat.mul_assoc]
  exact Nat.mul_div_cancel _ (by decide)

@[simp] theorem length_asU64s (c : Chunk D) : c.asU64s.length = D + 2 := by
  simp [asU64s]

@[simp] theorem fromU64s_asU64s (c : Chunk D) :
    fromU64s D c.asU64s = .ok c := by
  obtain ⟨addr, size, ⟨offset, hoffset⟩⟩ := c
  exact dif_pos hoffset

theorem fromU64s_of_length {ws : List ULE} (h : ws.length = D + 2) :
    ∃ c : Chunk D, fromU64s D ws = .ok c ∧ c.asU64s = ws := by
  obtain ⟨addr, ws, rfl⟩ := List.exists_cons_of_length_eq_add_one h
  obtain ⟨size, ws, rfl⟩ :=
    List.exists_cons_of_length_eq_add_one (Nat.succ.inj h)
  have hlen : ws.length = D := by simpa using h
  exact ⟨⟨addr, size, ⟨ws, hlen⟩⟩, dif_pos hlen, rfl⟩

theorem sliceAsU64s_eq (chunks : List (Chunk D)) :
    sliceAsU64s chunks = .ok (chunks.flatMap asU64s) := by
  have hlen : (chunks.flatMap asU64s).length =
      chunks.length * sizeOf D / sizeOfULE := by
    rw [mul_sizeOf_div, length_flatMap_const _ length_asU64s]
  unfold sliceAsU64s
  dsimp only
  rw [assertThat_of hlen, ok_bind]

theorem sliceFromU64s_flatMap (chunks : List (Chunk D)) :
    sliceFromU64s D (chunks.flatMap asU64s) = .ok chunks := by
  have hlen := length_flatMap_const chunks length_asU64s
  have hwords : (chunks.flatMap asU64s).length =
      chunks.length * sizeOf D / sizeOfULE := by rw [mul_sizeOf_div, hlen]
  have hmap : (chunks.map asU64s).mapM (fromU64s D) = .ok chunks := by
    rw [List.mapM_map, mapM_ok (fromU64s D ∘ asU64s) id _
      fun c _ => fromU64s_asU64s c, List.map_id]
  unfold sliceFromU64s
  rw [sizeOf_div, assertThat_of (by rw [hlen, Nat.mul_mod_left]), ok_bind]
  simp only [hlen, Nat.mul_div_cancel _ (show 0 < D + 2 by omega)]
  rw [blocks_flatMap _ length_asU64s, hmap, ok_bind,
    assertThat_of (mul_sizeOf_div _ _).symm, ok_bind]

theorem sliceFromU64s_of_dvd {slice : List ULE}
    (h : slice.length % (D + 2) = 0) :
    ∃ chunks, sliceFromU64s D slice = .ok chunks ∧
      chunks.flatMap asU64s = slice := by
  have hlen : slice.length = slice.length / (D + 2) * (D + 2) :=
    (Nat.div_mul_cancel (Nat.dvd_of_mod_eq_zero h)).symm
  have hblocks : ∀ bs : List (List ULE), (∀ ws ∈ bs, ws.length = D + 2) →
      ∃ chunks, bs.mapM (fromU64s D) = .ok chunks ∧
        chunks.flatMap asU64s = bs.flatten := by
    intro bs hbs
    induction bs with
    | nil => exact ⟨[], rfl, rfl⟩
    | cons ws bs ih =>
        obtain ⟨hws, hbs⟩ := List.forall_mem_cons.mp hbs
        obtain ⟨c, hc, hwords⟩ := fromU64s_of_length hws
        obtain ⟨chunks, hchunks, hflat⟩ := ih hbs
        refine ⟨c :: chunks, ?_, ?_⟩
        · rw [List.mapM_cons, hc, ok_bind, hchunks, ok_bind]
          rfl
        · rw [List.flatMap_cons, hwords, hflat, List.flatten_cons]
  obtain ⟨chunks, hchunks, hflat⟩ := hblocks
    (blocks (D + 2) (slice.length / (D + 2)) slice)
    fun ws hws => length_of_mem_blocks hlen hws
  rw [flatten_blocks hlen] at hflat
  have hcount : slice.length = chunks.length * sizeOf D / sizeOfULE := by
    rw [mul_sizeOf_div, ← length_flatMap_const chunks length_asU64s, hflat]
  refine ⟨chunks, ?_, hflat⟩
  unfold sliceFromU64s
  dsimp only
  rw [sizeOf_div, assertThat_of h, ok_bind, hchunks, ok_bind,
    assertThat_of hcount, ok_bind]

end Chunk

/-! ## Words as bytes -/

def ULE.asBytes (u : ULE) : List UInt8 := LittleEndian.encode sizeOfULE u.get

def ULE.ofBytes (bytes : List UInt8) : ULE := ULE.new (LittleEndian.decode bytes)

@[simp] theorem ULE.length_asBytes (u : ULE) : u.asBytes.length = sizeOfULE :=
  LittleEndian.length_encode _ _

@[simp] theorem ULE.ofBytes_asBytes (u : ULE) : ULE.ofBytes u.asBytes = u := by
  rw [ofBytes, asBytes, LittleEndian.decode_encode u.get_lt, ULE.new_get]

theorem ULE.asBytes_ofBytes {bytes : List UInt8}
    (h : bytes.length = sizeOfULE) : (ULE.ofBytes bytes).asBytes = bytes := by
  have hlt := LittleEndian.decode_lt bytes
  rw [h] at hlt
  have hget : (ULE.ofBytes bytes).get = LittleEndian.decode bytes :=
    ULE.get_new hlt
  rw [asBytes, hget, ← h]
  exact LittleEndian.encode_decode bytes

theorem ULE.flatMap_asBytes_injective {us vs : List ULE}
    (h : us.flatMap ULE.asBytes = vs.flatMap ULE.asBytes) : us = vs := by
  have hwords : ∀ ws : List ULE,
      (blocks sizeOfULE ws.length (ws.flatMap ULE.asBytes)).map ULE.ofBytes = ws := by
    intro ws
    rw [blocks_flatMap _ ULE.length_asBytes, List.map_map]
    exact (List.map_congr_left fun u _ => ULE.ofBytes_asBytes u).trans (List.map_id ws)
  have hlen : us.length = vs.length := by
    have hbytes := congrArg List.length h
    rw [length_flatMap_const us ULE.length_asBytes,
      length_flatMap_const vs ULE.length_asBytes] at hbytes
    exact Nat.eq_of_mul_eq_mul_right (by decide) hbytes
  rw [← hwords us, h, hlen, hwords vs]

/--
`zerocopy`: bytes as a slice of words, which are in memory what the bytes are.  Bytes
that are not whole words are refused; alignment is not asked for.
-/
structure Zerocopy where
  newSliceUnaligned : List UInt8 → Option (List ULE)
  newSliceUnaligned_some : ∀ {bytes}, sizeOfULE ∣ bytes.length →
    ∃ slice, newSliceUnaligned bytes = some slice ∧ slice.flatMap ULE.asBytes = bytes
  newSliceUnaligned_none : ∀ {bytes}, ¬ sizeOfULE ∣ bytes.length →
    newSliceUnaligned bytes = none

theorem Zerocopy.newSliceUnaligned_flatMap (Z : Zerocopy) (slice : List ULE) :
    Z.newSliceUnaligned (slice.flatMap ULE.asBytes) = some slice := by
  have hlen := length_flatMap_const slice ULE.length_asBytes
  obtain ⟨slice', hslice, hbytes⟩ := Z.newSliceUnaligned_some (hlen ▸ Nat.dvd_mul_left _ _)
  rw [hslice, ULE.flatMap_asBytes_injective hbytes]

def zerocopy : Zerocopy where
  newSliceUnaligned bytes :=
    if bytes.length % sizeOfULE = 0 then
      some ((blocks sizeOfULE (bytes.length / sizeOfULE) bytes).map ULE.ofBytes)
    else none
  newSliceUnaligned_some h := by
    refine ⟨_, if_pos (Nat.mod_eq_zero_of_dvd h), ?_⟩
    have hlen := (Nat.div_mul_cancel h).symm
    rw [List.flatMap_map]
    conv_rhs => rw [← flatten_blocks hlen]
    rw [List.flatMap_def]
    congr 1
    conv_rhs => rw [← List.map_id (blocks _ _ _)]
    exact List.map_congr_left fun block hblock =>
      ULE.asBytes_ofBytes (length_of_mem_blocks hlen hblock)
  newSliceUnaligned_none h := if_neg fun hmod => h (Nat.dvd_of_mod_eq_zero hmod)

/-! ## The codecs of the fields -/

/-- Assign to the entries of an array in turn, until either ends. -/
def fillFrom {α : Type} (a : List.Vector α D) (xs : List α) :
    List.Vector α D :=
  ⟨xs.take D ++ a.toList.drop xs.length, by
    rw [List.length_append, List.length_take, List.length_drop,
      List.Vector.toList_length]
    omega⟩

theorem fillFrom_toList {α : Type} {a : List.Vector α D} {xs : List α}
    (h : xs.length = D) : (fillFrom a xs).toList = xs := by
  change xs.take D ++ a.toList.drop xs.length = xs
  rw [List.take_of_length_le (by omega), List.drop_of_length_le (by simp [h]),
    List.append_nil]

namespace SrU64

def serialize (v : List.Vector StrengthReducedU64 D) : List Nat :=
  v.toList.map StrengthReducedU64.get

def deserialize (D : Nat) (v : List Nat) :
    Exec (List.Vector StrengthReducedU64 D) := do
  let sr : List.Vector StrengthReducedU64 D := List.Vector.replicate D 1
  if v.length ≠ D then bail "length mismatch"
  else .ok (fillFrom sr (← v.mapM StrengthReducedU64.new))

end SrU64

namespace ArrU64

def serialize (v : List.Vector Nat D) : List Nat := v.toList

def deserialize (D : Nat) (v : List Nat) : List.Vector Nat D :=
  fillFrom (List.Vector.replicate D 0) v

end ArrU64

namespace ChunksU64s

def serialize (chunks : List (Chunk D)) : Exec (List UInt8) := do
  .ok ((← Chunk.sliceAsU64s chunks).flatMap ULE.asBytes)

def deserialize (Z : Zerocopy) (D : Nat) (bytes : List UInt8) :
    Exec (List (Chunk D)) := do
  let slice ← unwrap (Z.newSliceUnaligned bytes)
  Chunk.sliceFromU64s D slice

end ChunksU64s

structure Serialized where
  dtype : Datatype
  dsize : Nat
  order : Filters.Order
  chunks : List UInt8
  shape : List Nat
  chunkShape : List Nat
  chunkShapeReduced : List Nat
  scaledDimSz : List Nat
  dimSz : List Nat
  chunkDimSz : List Nat
  shuffle : Bool
  gzip : Option Nat

namespace Dataset

def serialize (ds : Dataset D) : Exec Serialized := do
  let chunks ← ChunksU64s.serialize ds.chunks
  .ok { dtype := ds.dtype, dsize := ds.dsize, order := ds.order, chunks,
        shape := ArrU64.serialize ds.shape,
        chunkShape := ArrU64.serialize ds.chunkShape,
        chunkShapeReduced := SrU64.serialize ds.chunkShapeReduced,
        scaledDimSz := ArrU64.serialize ds.scaledDimSz,
        dimSz := ArrU64.serialize ds.dimSz,
        chunkDimSz := ArrU64.serialize ds.chunkDimSz,
        shuffle := ds.shuffle, gzip := ds.gzip }

def ofFields (raw : Serialized) (chunks : List (Chunk D))
    (chunkShapeReduced : List.Vector StrengthReducedU64 D) : Dataset D where
  dtype := raw.dtype
  dsize := raw.dsize
  order := raw.order
  chunks := chunks
  shape := ArrU64.deserialize D raw.shape
  chunkShape := ArrU64.deserialize D raw.chunkShape
  chunkShapeReduced := chunkShapeReduced
  scaledDimSz := ArrU64.deserialize D raw.scaledDimSz
  dimSz := ArrU64.deserialize D raw.dimSz
  chunkDimSz := ArrU64.deserialize D raw.chunkDimSz
  shuffle := raw.shuffle
  gzip := raw.gzip

def deserialize (Z : Zerocopy) (D : Nat) (raw : Serialized) : Exec (Dataset D) := do
  let chunks ← ChunksU64s.deserialize Z D raw.chunks
  let chunkShapeReduced ← SrU64.deserialize D raw.chunkShapeReduced
  .ok (ofFields raw chunks chunkShapeReduced)

end Dataset

/-! ## Round trips -/

@[simp] theorem ArrU64.deserialize_of_serialize (v : List.Vector Nat D) :
    ArrU64.deserialize D (ArrU64.serialize v) = v :=
  List.Vector.toList_injective (fillFrom_toList (by simp [ArrU64.serialize]))

theorem StrengthReducedU64.new_get (d : StrengthReducedU64) :
    StrengthReducedU64.new d.get = .ok d :=
  (StrengthReducedU64.new_eq d.get_pos).trans
    (congrArg _ (StrengthReducedU64.eq_of_get rfl))

@[simp] theorem SrU64.deserialize_of_serialize
    (v : List.Vector StrengthReducedU64 D) :
    SrU64.deserialize D (SrU64.serialize v) = .ok v := by
  have hmap : (SrU64.serialize v).mapM StrengthReducedU64.new =
      .ok v.toList := by
    rw [SrU64.serialize, List.mapM_map,
      mapM_ok (StrengthReducedU64.new ∘ StrengthReducedU64.get) id _
        fun d _ => d.new_get, List.map_id]
  have hlen : (SrU64.serialize v).length = D := by simp [SrU64.serialize]
  unfold SrU64.deserialize
  dsimp only
  rw [if_neg (not_not.mpr hlen), hmap, ok_bind]
  congr 1
  exact List.Vector.toList_injective (fillFrom_toList (by simp))

theorem ChunksU64s.serialize_eq (chunks : List (Chunk D)) :
    ChunksU64s.serialize chunks =
      .ok ((chunks.flatMap Chunk.asU64s).flatMap ULE.asBytes) := by
  rw [ChunksU64s.serialize, Chunk.sliceAsU64s_eq, ok_bind]

theorem ChunksU64s.deserialize_of_serialize (Z : Zerocopy) (chunks : List (Chunk D)) :
    ChunksU64s.deserialize Z D
        ((chunks.flatMap Chunk.asU64s).flatMap ULE.asBytes) = .ok chunks := by
  rw [ChunksU64s.deserialize, Z.newSliceUnaligned_flatMap]
  exact Chunk.sliceFromU64s_flatMap chunks

theorem ChunksU64s.deserialize_of_dvd (Z : Zerocopy) {bytes : List UInt8}
    (h : bytes.length % Chunk.sizeOf D = 0) :
    ∃ chunks, ChunksU64s.deserialize Z D bytes = .ok chunks ∧
      ChunksU64s.serialize chunks = .ok bytes := by
  have hdvd : (D + 2) * sizeOfULE ∣ bytes.length := Nat.dvd_of_mod_eq_zero h
  obtain ⟨slice, hslice, hbytes⟩ :=
    Z.newSliceUnaligned_some ((Nat.dvd_mul_left _ _).trans hdvd)
  have hrecords : slice.length % (D + 2) = 0 := by
    rw [← hbytes, length_flatMap_const slice ULE.length_asBytes] at hdvd
    exact Nat.mod_eq_zero_of_dvd (Nat.dvd_of_mul_dvd_mul_right (by decide) hdvd)
  obtain ⟨chunks, hchunks, hflat⟩ := Chunk.sliceFromU64s_of_dvd hrecords
  refine ⟨chunks, ?_, ?_⟩
  · rw [ChunksU64s.deserialize, hslice]
    exact hchunks
  · rw [ChunksU64s.serialize_eq, hflat, hbytes]

/--
A dataset is read back as it was written, chunk by chunk with address, size
and offset, and bytes in whole records are written as they were read.
-/
theorem deserialize_serialize (Z : Zerocopy) (D : Nat) :
    (∀ ds : Dataset D, ∃ raw, ds.serialize = .ok raw ∧
      Dataset.deserialize Z D raw = .ok ds) ∧
    ∀ bytes : List UInt8, bytes.length % (8 * (D + 2)) = 0 →
      ∃ chunks : List (Chunk D), ChunksU64s.deserialize Z D bytes = .ok chunks ∧
        ChunksU64s.serialize chunks = .ok bytes := by
  constructor
  · intro ds
    refine ⟨_, by rw [Dataset.serialize, ChunksU64s.serialize_eq, ok_bind], ?_⟩
    simp [Dataset.deserialize, Dataset.ofFields,
      ChunksU64s.deserialize_of_serialize]
  · intro bytes h
    exact ChunksU64s.deserialize_of_dvd Z (by rwa [Nat.mul_comm] at h)

theorem deserialize_serialize_tiles :
    (∃ raw, tiles.serialize = .ok raw ∧ Dataset.deserialize zerocopy 2 raw = .ok tiles) ∧
      ∃ chunks : List (Chunk 2),
        ChunksU64s.deserialize zerocopy 2 (List.range 64 |>.map UInt8.ofNat) = .ok chunks ∧
          ChunksU64s.serialize chunks = .ok (List.range 64 |>.map UInt8.ofNat) :=
  ⟨(deserialize_serialize zerocopy 2).1 tiles,
    (deserialize_serialize zerocopy 2).2 _ (by decide)⟩

end Hidefix.Idx
