import Hidefix.Idx.Indexed
import Hidefix.Reader.Delivered

/-!
# Files that are written

The HDF5 library writes an array chunk by chunk, each of them through the filters of
the dataset.  What `index` makes of such a dataset holds the array: it is read back
from where it was written, by every reader.
-/

namespace Hidefix.Reader

open Blocks
open Filters (ZlibDecompress byteSliceCast)
open Foundation
open Idx
open MixedRadix
open NdArray (slice view)
open Slices

variable {D dsz : Nat} {env : Env} {ds : Dataset D} {A : Values dsz}

/-! ## What is written -/

/-- A shuffle and a deflate, both of them optional and in this order. -/
def pipeline (shuffle : Bool) (gzip : Option Nat) : List Filter :=
  List.replicate shuffle.toNat .shuffle ++ gzip.toList.map .deflate

/--
The file holds the array: where a chunk lies, at offsets that a file can have, there are
the values of its box through the filters.  Of a chunk at the edge the box goes beyond
the dataset.
-/
structure Stores (deflate : Nat → Bytes → Bytes) (file : Bytes) (h : Hdf5Dataset)
    (A : Values dsz) : Prop where
  dsize_eq : h.dtype.dsize = dsz
  end_lt : ∀ ci ∈ h.blocks, ci.addr + ci.size < 2 ^ 63
  stored : ∀ ci ∈ h.blocks, readChunkTo file ci.addr ci.size =
    .ok (encode deflate dsz h.filters (storedBytes A ci.offset h.chunkDims))

/-! ## What is decoded -/

section Decoded

variable {deflate : Nat → Bytes → Bytes} {zlib : ZlibDecompress} {b : Build}

theorem decodes_pipeline (hzlib : Inflates deflate zlib)
    (hdsz : dsz = 1 ∨ dsz = 2 ∨ dsz = 4 ∨ dsz = 8) (n : Nat) (shuffle : Bool)
    (gzip : Option Nat) (hbuffer : BufferFits dsz n (pipeline shuffle gzip))
    (flags : FilterFlags) (hshuffle : flags.shuffle = shuffle)
    (hgzip : flags.gzip.isSome = gzip.isSome) :
    Decodes b deflate zlib dsz n (pipeline shuffle gzip) flags := by
  have honce : ShufflesOnce dsz n shuffle.toNat := by
    cases shuffle with
    | false => exact .inl rfl
    | true => exact .inr fun _ _ => rfl
  have hflag : flags.shuffle = true ↔ shuffle.toNat ≠ 0 := by
    cases shuffle <;> simp [hshuffle]
  unfold pipeline at hbuffer ⊢
  cases gzip with
  | none =>
      simpa using (decodes_shuffles_iff hdsz hgzip hflag).mpr honce
  | some z =>
      exact (decodes_deflated_iff hzlib hdsz (.inl rfl) hgzip hflag).mpr
        ⟨honce, hbuffer ⟨z, by simp⟩⟩

end Decoded

/-! ## Where a value is -/

theorem storedBytes_at (A : Values dsz) (start : List Nat) {count os : List Nat}
    (h : InBox count os) :
    (rank count os + 1) * dsz ≤ (storedBytes A start count).length ∧
      ((storedBytes A start count).drop (rank count os * dsz)).take dsz =
        (view A start os).toList := by
  have hlt := rank_lt h
  have hlen := length_storedBytes A start count
  constructor
  · rw [hlen]
    exact Nat.mul_le_mul_right _ hlt
  · have hget : (blocks dsz count.prod (storedBytes A start count))[rank count os]? = _ :=
      getElem?_blocks hlt
    rw [blocks_storedBytes, List.getElem?_map, NdArray.getElem?_slice h] at hget
    exact (Option.some.inj hget).symm

theorem add_sub_offset {offset chunkShape x : List Nat}
    (hlen : offset.length = chunkShape.length)
    (h : List.Forall₂ (fun i r => r.1 ≤ i ∧ i < r.1 + r.2) x (offset.zip chunkShape)) :
    List.zipWith (· + ·) offset (List.zipWith (· - ·) x offset) = x := by
  induction offset generalizing chunkShape x with
  | nil =>
      cases h
      rfl
  | cons o offset ih =>
      cases chunkShape with
      | nil => simp at hlen
      | cons k chunkShape =>
          cases h with
          | cons hi hx =>
              simp [ih (Nat.succ.inj hlen) hx, Nat.add_sub_cancel' hi.1]

/-! ## What is written is read -/

namespace Stores

variable {deflate : Nat → Bytes → Bytes} {h : Hdf5Dataset}

theorem chunkData_eq (hs : Stores deflate env.file h A) (hzlib : Inflates deflate env.zlib)
    (hdsz : dsz = 1 ∨ dsz = 2 ∨ dsz = 4 ∨ dsz = 8) {shuffle : Bool} {gzip : Option Nat}
    (hfilters : h.filters = pipeline shuffle gzip)
    (hbuffer : BufferFits dsz h.chunkDims.prod h.filters) (hi : IndexedAs h ds) {c : Chunk D}
    (hc : c ∈ ds.chunks) :
    chunkData env ds (chunkSize ds) c =
      .ok (storedBytes A c.offsetU64 ds.chunkShape.toList) := by
  have hci : c.info ∈ h.blocks := hi.chunks.mem_iff.mp (List.mem_map_of_mem hc)
  have hdsize : ds.dsize = dsz := by
    rw [hi.wellFormed.derived.dsize, hi.dtype, hs.dsize_eq]
  have hshuffle : ds.shuffle = shuffle := by
    have hiff := hi.shuffle
    rw [hfilters] at hiff
    cases shuffle <;> simpa [pipeline] using hiff
  have hgzip : ds.gzip.isSome = gzip.isSome := by
    have hiff := hi.gzip
    rw [hfilters] at hiff
    cases gzip <;> simpa [pipeline] using hiff
  rw [hfilters, ← hi.chunkShape] at hbuffer
  have hdecodes := decodes_pipeline (b := env.build) hzlib hdsz ds.chunkShape.toList.prod
    shuffle gzip hbuffer ⟨ds.shuffle, ds.gzip⟩ hshuffle hgzip
  have hread := hs.stored _ hci
  have hraw := hdecodes (storedBytes A c.offsetU64 ds.chunkShape.toList)
    (length_storedBytes ..)
  rw [← hi.chunkShape, hfilters] at hread
  have hsize : c.info.size < 2 ^ 63 := by
    have := hs.end_lt _ hci
    omega
  rw [chunkData, show c.addr.get = c.info.addr from rfl,
    show c.size.get = c.info.size from rfl, readChunk_eq hsize, hread, ok_bind, chunkSize,
    hdsize]
  exact hraw

theorem carries (hs : Stores deflate env.file h A) (hzlib : Inflates deflate env.zlib)
    (hdsz : dsz = 1 ∨ dsz = 2 ∨ dsz = 4 ∨ dsz = 8) {shuffle : Bool} {gzip : Option Nat}
    (hfilters : h.filters = pipeline shuffle gzip)
    (hbuffer : BufferFits dsz h.chunkDims.prod h.filters) (hi : IndexedAs h ds) :
    Carries env ds A := by
  have hdsize : ds.dsize = dsz := by
    rw [hi.wellFormed.derived.dsize, hi.dtype, hs.dsize_eq]
  constructor
  · exact hdsize
  · intro c hc data hdata
    rw [hs.chunkData_eq hzlib hdsz hfilters hbuffer hi hc] at hdata
    rw [← Except.ok.inj hdata, length_storedBytes, chunkSize, hdsize]
  · intro x _ p hp
    have hbox := fromOffset_inBox (by simp) hp.contains
    have hposition : p.2 = rank ds.chunkShape.toList
        (List.zipWith (· - ·) x p.1.offsetU64) := by
      rw [hp.position, hi.wellFormed.derived.chunkDimSz, sum_mul_strides]
    obtain ⟨hend, hvalue⟩ := storedBytes_at A p.1.offsetU64 hbox
    rw [view, fromOffset, add_sub_offset (by simp) hp.contains] at hvalue
    refine ⟨_, hs.chunkData_eq hzlib hdsz hfilters hbuffer hi hp.mem, ?_, ?_⟩
    · rw [hdsize, hposition]
      exact hend
    · rw [hdsize, hposition]
      exact hvalue.symm

end Stores

/--
An array that was written is read: the dataset is indexed, and every selection of it
that is folded correctly is delivered, by every reader, as it is in the array.
-/
theorem reads_written (deflate : Nat → Bytes → Bytes) (env : Env)
    (hzlib : Inflates deflate env.zlib) (h : Hdf5Dataset) (hp : h.Promised)
    (hfits : h.SizesFit) (hi : Indexable D h)
    (hdsz : dsz = 1 ∨ dsz = 2 ∨ dsz = 4 ∨ dsz = 8) (shuffle : Bool) (gzip : Option Nat)
    (hfilters : h.filters = pipeline shuffle gzip)
    (hbuffer : BufferFits dsz h.chunkDims.prod h.filters) (A : Values dsz)
    (hs : Stores deflate env.file h A) :
    ∃ ds : Dataset D, Dataset.index env.build D h = .ok ds ∧ IndexedAs h ds ∧
      ∀ e, Inside ds e → Foldable (dims ds e) →
        ∃ fuel₀, ∀ fuel ≥ fuel₀, ∀ read, Method env ds read →
          Delivers (read fuel) ds A e := by
  obtain ⟨ds, hds, hindexed⟩ := hp.index_ok hfits hi env.build
  have hA := hs.carries hzlib hdsz hfilters hbuffer hindexed
  have hpos : 0 < ds.dsize := by
    rw [hA.dsize_eq]
    omega
  exact ⟨ds, hds, hindexed, fun e hin hfold =>
    hA.delivers hindexed.wellFormed hpos hin hfold⟩

/-! ## Three values in two chunks -/

def threeValues : Values 2 := fun x =>
  .ofFn fun i => UInt8.ofNat (x.headD 0 + i)

def threeFile : Env where
  host := .little
  cast := byteSliceCast
  build := .debug
  zlib := decompressStored
  file := List.replicate 64 0 ++ storedStream 4 [2, 3, 3, 4] ++ storedStream 4 [0, 1, 1, 2]

theorem stores_three : Stores storedStream threeFile.file threeDataset threeValues where
  dsize_eq := rfl
  end_lt := by decide
  stored := by decide

theorem reads_written_three :
    ∃ ds : Dataset 1, Dataset.index .debug 1 threeDataset = .ok ds ∧
      IndexedAs threeDataset ds ∧
      ∀ e, Inside ds e → Foldable (dims ds e) →
        ∃ fuel₀, ∀ fuel ≥ fuel₀, ∀ read, Method threeFile ds read →
          Delivers (read fuel) ds threeValues e :=
  reads_written storedStream threeFile inflates_stored threeDataset promised_three
    sizesFit_three indexable_three (by decide) true (some 4) rfl (fun _ => by decide)
    threeValues stores_three

end Hidefix.Reader
