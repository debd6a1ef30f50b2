import Hidefix.Foundation.NdArray
import Hidefix.Reader.Complete

/-!
# Arrays in files

What a dataset is for: a file holds an array, spread over chunks, and a selection is
a slice of it.  The file holds the array where every chunk, read and decoded, has at
each position the value of the coordinates that are stored there.
-/

namespace Hidefix.Reader

open Blocks
open Filters (Endian Order Scalar toNative)
open Foundation
open Idx
open MixedRadix
open NdArray (slice)
open Slices

abbrev Values (dsz : Nat) := List Nat → List.Vector UInt8 dsz

variable {D dsz : Nat} {env : Env} {ds : Dataset D} {e : Extents} {A : Values dsz}
variable {host : Endian}

def storedBytes (A : Values dsz) (start count : List Nat) : Bytes :=
  (slice A start count).flatMap List.Vector.toList

def nativeBytes (host : Endian) (order : Order) (A : Values dsz)
    (start count : List Nat) : Bytes :=
  (slice A start count).flatMap fun value => nativeWord host order value.toList

def chunkSize (ds : Dataset D) : Nat := ds.chunkShape.toList.prod * ds.dsize

/-- What can be read of a chunk is whole, and wherever coordinates are stored, their
value is. -/
structure Carries (env : Env) (ds : Dataset D) (A : Values dsz) : Prop where
  dsize_eq : ds.dsize = dsz
  whole : ∀ c ∈ ds.chunks, ∀ data, chunkData env ds (chunkSize ds) c = .ok data →
    data.length = chunkSize ds
  stored : ∀ x, InBox ds.shape.toList x → ∀ p, Located ds p x →
    StoredAt env ds (chunkSize ds) p (A x).toList

def selectedBytes (ds : Dataset D) (A : Values dsz) (e : Extents) : Bytes :=
  storedBytes A (e.starts ds.shape.toList) (e.counts ds.shape.toList)

def selectedNative (host : Endian) (ds : Dataset D) (A : Values dsz) (e : Extents) :
    Bytes :=
  nativeBytes host ds.order A (e.starts ds.shape.toList) (e.counts ds.shape.toList)

section Bytes

variable {order : Order} {T : Scalar} {start count : List Nat}

@[simp] theorem length_storedBytes (A : Values dsz) (start count : List Nat) :
    (storedBytes A start count).length = count.prod * dsz := by
  rw [storedBytes, length_flatMap_const _ fun value => value.toList_length]
  simp

theorem blocks_storedBytes (A : Values dsz) (start count : List Nat) :
    blocks dsz count.prod (storedBytes A start count) =
      (slice A start count).map List.Vector.toList := by
  have hlen := NdArray.length_slice A start count
  rw [← hlen]
  exact blocks_flatMap _ fun value => value.toList_length

theorem toNative_storedBytes (hT : T.sizeOf = dsz)
    (hswap : host = .little ∨ T.isFloat = false) (A : Values dsz) :
    toNative host T order (storedBytes A start count) =
      nativeBytes host order A start count := by
  subst hT
  have hlen := length_storedBytes A start count
  have hblocks : blocks T.sizeOf _ (toNative host T order _) = _ :=
    blocks_toNative hlen hswap
  have hout : (toNative host T order (storedBytes A start count)).length =
      count.prod * T.sizeOf := by
    rw [Filters.length_toNative (hlen ▸ Nat.dvd_mul_left _ _), hlen]
  rw [← flatten_blocks hout, hblocks, blocks_storedBytes]
  simp [nativeBytes, List.flatMap_def, Function.comp_def]

end Bytes

theorem length_selectedBytes (h : ds.dsize = dsz) (A : Values dsz) (e : Extents) :
    (selectedBytes ds A e).length = (e.counts ds.shape.toList).prod * ds.dsize := by
  simp [selectedBytes, h]

/-! ## Slices of the array -/

theorem StoredAt.unique {chunkSz : Nat} {p : Chunk D × Nat} {value value' : Bytes}
    (h : StoredAt env ds chunkSz p value) (h' : StoredAt env ds chunkSz p value') :
    value = value' := by
  obtain ⟨data, hdata, -, rfl⟩ := h
  obtain ⟨data', hdata', -, rfl⟩ := h'
  rw [Except.ok.inj (hdata.symm.trans hdata')]

theorem walk_inBox (h : Selects ds e) (hwf : ds.WellFormed) :
    ∀ x ∈ walk ds e, InBox ds.shape.toList x := by
  intro x hx
  rw [h.walk_eq] at hx
  obtain ⟨os, hos, rfl⟩ := List.mem_map.mp hx
  have hbox := coordsOf_inBox (h.inBounds hwf) (mem_rowMajor.mp hos)
  rwa [(dims_fields h.ranked).1] at hbox

def bytesOf (A : Values dsz) (xs : List (List Nat)) : Bytes :=
  xs.flatMap fun x => (A x).toList

theorem bytesOf_walk (ds : Dataset D) (A : Values dsz) (e : Extents) :
    bytesOf A (walk ds e) = selectedBytes ds A e := by
  simp [bytesOf, walk, selectedBytes, storedBytes, slice, NdArray.view, List.flatMap_map]

theorem chunk_holds (chunkSz : Nat) {item : Item D} (hlt : item.2.1 < item.2.2)
    (h : ∀ p ∈ expand [item], ∃ value, StoredAt env ds chunkSz p value) :
    ∃ data, chunkData env ds chunkSz item.1 = .ok data ∧
      item.2.2 * ds.dsize ≤ data.length := by
  obtain ⟨c, start, stop⟩ := item
  have hlt : start < stop := hlt
  have hlast : (c, stop - 1) ∈ expand [(c, start, stop)] := by
    simp [expand]
    omega
  obtain ⟨_, data, hdata, hend, -⟩ := h _ hlast
  rw [Nat.sub_add_cancel (by omega)] at hend
  exact ⟨data, hdata, hend⟩

theorem flatten_pieces {chunkSz : Nat} {items : List (Item D)} {pieces : List Bytes}
    {xs : List (List Nat)}
    (hxs : List.Forall₂ (fun p x => StoredAt env ds chunkSz p (A x).toList)
      (expand items) xs)
    (hordered : ∀ item ∈ items, item.2.1 ≤ item.2.2 ∧ item.2.2 * ds.dsize < 2 ^ 64)
    (hpieces : PiecesOf env ds chunkSz items pieces) :
    pieces.flatten = bytesOf A xs := by
  obtain ⟨hlen, hvalues⟩ := pieces_values hordered hpieces
  have hblocks : blocks ds.dsize (expand items).length pieces.flatten =
      xs.map fun x => (A x).toList := by
    rw [← List.forall₂_eq_eq_eq, List.forall₂_map_right_iff]
    refine ((forall₂_join hxs hvalues).imp ?_).flip
    rintro x value ⟨p, hx, hvalue⟩
    exact hvalue.unique hx
  rw [← flatten_blocks hlen, hblocks, bytesOf, List.flatMap_def]

end Hidefix.Reader
