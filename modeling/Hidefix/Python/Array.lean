import Hidefix.Python.Getitem
import Hidefix.Reader.Delivered

/-!
# Arrays in Python

What `__getitem__` returns of a dataset that holds an array is the slice of the array
that the keys select in Python, without the dimensions of one coordinate: the element
at each index is the value at the coordinates that this index stands for.
-/

namespace Hidefix.Python

open Blocks (blocks)
open Filters (Endian Order Scalar)
open Foundation
open Idx (Segment)
open MixedRadix
open NdArray (squeeze)
open Reader
open Slices
open Sorting (UnstableSort)

variable {D dsz : Nat} {env : Env} {ds : Idx.Dataset D} {A : Values dsz}

def arrayIndex (counts os : List Nat) : List Nat :=
  if (counts.filter (· > 1)).isEmpty then [0] else squeeze counts os

/--
An array in memory whose elements are the selected values: its dimensions are those
along which more than one coordinate is selected, or one of a single element.
-/
structure IsSelection (host : Endian) (order : Order) (A : Values dsz)
    (start count : List Nat) (a : Bytes) : Prop where
  length_eq : a.length = (arrayDims count).prod * dsz
  element : ∀ os, InBox count os →
    InBox (arrayDims count) (arrayIndex count os) ∧
      (blocks dsz (arrayDims count).prod a)[rank (arrayDims count) (arrayIndex count os)]? =
        some (nativeWord host order (A (List.zipWith (· + ·) start os)).toList)

/-! ## Elements of the array -/

theorem arrayIndex_inBox {count os : List Nat} (h : InBox count os) :
    InBox (arrayDims count) (arrayIndex count os) := by
  unfold arrayDims arrayIndex
  split
  · exact .cons Nat.one_pos .nil
  · exact NdArray.squeeze_inBox h

theorem rank_arrayIndex {count os : List Nat} (h : InBox count os) :
    rank (arrayDims count) (arrayIndex count os) = rank count os := by
  have hrank := NdArray.rank_squeeze h
  unfold arrayDims arrayIndex
  split
  · rename_i hempty
    rw [List.isEmpty_iff.mp hempty] at hrank
    simpa [rank] using hrank
  · exact hrank

theorem prod_arrayDims_of_pos {count : List Nat} (hpos : ∀ k ∈ count, 1 ≤ k) :
    (arrayDims count).prod = count.prod :=
  (prod_arrayDims count).trans (NdArray.prod_squeeze hpos)

theorem isSelection_nativeBytes {host : Endian} {order : Order} {start count : List Nat}
    (hpos : ∀ k ∈ count, 1 ≤ k) :
    IsSelection host order A start count (nativeBytes host order A start count) := by
  have hword : ∀ value : List.Vector UInt8 dsz,
      (nativeWord host order value.toList).length = dsz := by
    intro value
    unfold nativeWord
    split <;> simp
  have hlen := NdArray.length_slice A start count
  constructor
  · rw [nativeBytes, Blocks.length_flatMap_const _ hword, hlen,
      prod_arrayDims_of_pos hpos]
  · intro os hos
    refine ⟨arrayIndex_inBox hos, ?_⟩
    rw [rank_arrayIndex hos, prod_arrayDims_of_pos hpos, nativeBytes, ← hlen,
      Blocks.blocks_flatMap _ hword, List.getElem?_map, NdArray.getElem?_slice hos]
    rfl

/-! ## What `__getitem__` returns -/

section Getitem

variable {T : Scalar} {read : ReadTo} {e : Extents}

theorem readPyArray_eq {start count : List Nat} {r : Direct D}
    (hr : Direct.withDataset env.build ds = .ok r)
    (he : Extents.ofStartCount start count = .ok e)
    (hstart : e.starts ds.shape.toList = start) (hcount : e.counts ds.shape.toList = count)
    (readToPar : Direct D → ReadTo) (h : Delivers (readToPar r) ds A e)
    (hdsize : ds.dsize = dsz) (hT : T.sizeOf = dsz)
    (hswap : env.host = .little ∨ T.isFloat = false) (hpos : ∀ k ∈ count, 1 ≤ k)
    (hsize : count.prod * dsz < 2 ^ 63) (memory : Memory) :
    readPyArray env.build env.host memory T ds readToPar start count =
      .ok (nativeBytes env.host ds.order A start count) := by
  have hlen : (selectedBytes ds A e).length = count.prod * dsz := by
    rw [length_selectedBytes hdsize, hcount, hdsize]
  have hnew : (arrayDims count).prod * T.sizeOf = count.prod * dsz := by
    rw [prod_arrayDims_of_pos hpos, hT]
  obtain ⟨dst, halloc, hdst⟩ := allocate_exists memory (hnew ▸ hsize)
  have hread : valuesTo env.host (readToPar r) T ds.order e dst = _ :=
    h.valuesTo hT hswap ((hdst.trans hnew).trans hlen.symm) (by rwa [hdst, hnew])
  have hnative : selectedNative env.host ds A e =
      nativeBytes env.host ds.order A start count := by
    rw [selectedNative, hstart, hcount]
  simp [readPyArray, newArray, halloc, hr, he, hread, hnative]

/-- Keys that run forward, of at least one coordinate each, whose selection is folded
correctly and fits in memory. -/
structure Selected (shape chunkShape : List Nat) (dsz : Nat) (keys : List Key)
    (start count : List Nat) : Prop where
  rank : keys.length ≤ shape.length
  forward : ∀ p ∈ keys.zip shape, p.2 < 2 ^ 63 ∧ p.1.Allowed p.2 ∧ p.1.Forward p.2
  selection_eq : (pythonSelection keys shape).unzip = (start, count)
  pos : ∀ k ∈ count, 1 ≤ k
  size : count.prod * dsz < 2 ^ 63
  foldable : Foldable (selection shape chunkShape start count)

theorem Selected.inside {keys : List Key} {start count : List Nat}
    (h : Selected ds.shape.toList ds.chunkShape.toList dsz keys start count) :
    ∃ e, Extents.ofStartCount start count = .ok e ∧ Inside ds e ∧
      e.starts ds.shape.toList = start ∧ e.counts ds.shape.toList = count ∧
      dims ds e = selection ds.shape.toList ds.chunkShape.toList start count := by
  have hle := pythonSelection_le h.rank fun p hp => (h.forward p hp).2.1
  have hselection := h.selection_eq
  rw [List.unzip_eq_map, Prod.mk.injEq] at hselection
  obtain ⟨hfirst, hsecond⟩ := hselection
  have hstarts : start.length = ds.shape.toList.length := by
    rw [← hfirst, List.length_map, hle.length_eq]
  have hcounts : count.length = ds.shape.toList.length := by
    rw [← hsecond, List.length_map, hle.length_eq]
  obtain ⟨e, he, hranked, hstart, hcount⟩ := Extents.ofStartCount_eq hstarts hcounts
  have hdims : dims ds e =
      selection ds.shape.toList ds.chunkShape.toList start count := by
    rw [dims, hstart, hcount]
  refine ⟨e, he, ⟨hranked, ?_⟩, hstart, hcount, hdims⟩
  rw [hdims, ← hfirst, ← hsecond]
  exact selection_le hle

theorem Selected.returns {indices : Indices} (hindices : Normalises indices)
    (hwf : ds.WellFormed) (hdsz : 0 < ds.dsize) (hA : Carries env ds A) {keys : List Key}
    {start count : List Nat}
    (h : Selected ds.shape.toList ds.chunkShape.toList dsz keys start count)
    (hT : arrayType ds.dtype = some T) (hswap : env.host = .little ∨ T.isFloat = false) :
    ∃ fuel₀, ∀ fuel ≥ fuel₀, ∀ sort schedule memory, ∃ a,
      getitem env.build env.host memory indices ds
          (fun r => r.readToPar env sort schedule fuel) keys = .ok a ∧
        IsSelection env.host ds.order A start count a := by
  have hselects : indicesCounts env.build indices ds.shape.toList keys =
      .ok (start, count) := by
    rw [← h.selection_eq]
    exact (selects_iff hindices h.rank fun p hp => (h.forward p hp).2.1).mpr
      fun p hp => ⟨(h.forward p hp).1, (h.forward p hp).2.2⟩
  obtain ⟨e, he, hin, hstart, hcount, hdims⟩ := h.inside
  obtain ⟨fuel₀, hdelivers⟩ := hA.delivers hwf hdsz hin (hdims ▸ h.foldable)
  have hr : Direct.withDataset env.build ds = .ok ⟨ds, chunkSize ds⟩ := by
    simp [Direct.withDataset, hwf.chunkBytes_eq, chunkSize]
  have hTsize : T.sizeOf = dsz := by
    rw [sizeOf_arrayType hT, ← hwf.derived.dsize, hA.dsize_eq]
  refine ⟨fuel₀, fun fuel hfuel sort schedule memory => ⟨_, ?_,
    isSelection_nativeBytes h.pos⟩⟩
  have hread := hdelivers fuel hfuel _ (.directPar _ hr sort schedule)
  rw [getitem, hselects, ok_bind]
  simp only [Reader.getitem, hT]
  exact readPyArray_eq hr he hstart hcount _ hread hA.dsize_eq hTsize hswap h.pos h.size
    memory

end Getitem

/--
Keys that run forward, of at least one coordinate each, return the array that Python
would, read in any order of the chunks.
-/
theorem getitem_array (indices : Indices) (hindices : Normalises indices)
    (ds : Idx.Dataset D) (hwf : ds.WellFormed) (hdsz : 0 < ds.dsize) (A : Values dsz)
    (hA : Carries env ds A) (keys : List Key) (hlen : keys.length ≤ D)
    (hkeys : ∀ p ∈ keys.zip ds.shape.toList,
      p.2 < 2 ^ 63 ∧ p.1.Allowed p.2 ∧ p.1.Forward p.2)
    (start count : List Nat)
    (hselection : (pythonSelection keys ds.shape.toList).unzip = (start, count))
    (hpos : ∀ k ∈ count, 1 ≤ k) (hsize : count.prod * dsz < 2 ^ 63)
    (hfold : Foldable (selection ds.shape.toList ds.chunkShape.toList start count))
    (T : Scalar) (hT : arrayType ds.dtype = some T)
    (hswap : env.host = .little ∨ T.isFloat = false) :
    ∃ fuel₀, ∀ fuel ≥ fuel₀, ∀ sort schedule memory, ∃ a,
      getitem env.build env.host memory indices ds
          (fun r => r.readToPar env sort schedule fuel) keys = .ok a ∧
        IsSelection env.host ds.order A start count a := by
  have h : Selected ds.shape.toList ds.chunkShape.toList dsz keys start count :=
    ⟨by simpa using hlen, hkeys, hselection, hpos, hsize, hfold⟩
  exact h.returns hindices hwf hdsz hA hT hswap

theorem getitem_array_pair : ∃ fuel₀, ∀ fuel ≥ fuel₀, ∀ sort schedule memory, ∃ a,
    getitem .release .little memory getIndicesEx pair
        (fun r => r.readToPar (.addresses .release 68) sort schedule fuel)
        [.slice ⟨none, none, none⟩] = .ok a ∧
      IsSelection .little .be pairValues [0] [2] a :=
  getitem_array getIndicesEx normalises_getIndicesEx pair pair_wellFormed (by decide)
    pairValues carries_pair [.slice ⟨none, none, none⟩] (by decide) (by
      intro p hp
      obtain rfl := List.mem_singleton.mp hp
      exact ⟨by decide, .inl rfl, Nat.zero_le _⟩) [0] [2] rfl (by decide) (by decide)
    (by decide) .u16 rfl (.inl rfl)

end Hidefix.Python
