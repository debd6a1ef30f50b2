import Hidefix.Python.Index
import Hidefix.Python.Slices
import Hidefix.Reader.Values
import Hidefix.Slices.Selection
import Mathlib.Data.List.Zip

/-!
# Indexing a dataset in Python

`__getitem__` turns each key into a start and a count along its dimension.  An integer
becomes the slice from it to the next integer, and the count of a slice is the
difference of its bounds, cast to `u64`.
-/

namespace Hidefix.Python

open Filters (Endian)
open Foundation
open Reader (Direct ReadTo)
open Slices (Inside)

/-- An element of the tuple in the brackets. -/
inductive Key where
  | slice (s : Slice)
  | int (i : Int)
  | other
  deriving DecidableEq, Repr

/-! ## The source -/

/-- `extract::<isize>().unwrap()` -/
def extract (i : Int) : Exec Int :=
  if IsI64 i then .ok i else panicWith .unwrap

/-- `PySlice::new(py, start, stop, step)` -/
def Slice.new (start stop step : Int) : Slice :=
  { start := some start, stop := some stop, step := some step }

def toSlice (b : Build) : Key → Exec Slice
  | .slice s => .ok s
  | .int i => do
      let ind ← extract i
      let next ← addI64 b ind 1
      .ok (.new ind next 1)
  | .other => panicWith .unimplemented

/-- `(*dim_sz).try_into().unwrap()` -/
def tryIntoLength (dimSz : Nat) : Exec Nat :=
  if dimSz < 2 ^ 63 then .ok dimSz else panicWith .unwrap

/-- Start, count and stride along a dimension. -/
def dimIndices (b : Build) (indices : Indices) (slice : Slice) (dimSz : Nat) :
    Exec (Nat × Nat × Nat) := do
  let length ← tryIntoLength dimSz
  let i ← unwrap (indices slice length)
  let count ← subI64 b i.stop i.start
  .ok (asU64 i.start, asU64 count, asU64 i.step)

/-- The keys with `shape`: a key is turned into a slice before its dimension is taken. -/
def keyIndices (b : Build) (indices : Indices) :
    List Key → List Nat → Exec (List (Nat × Nat × Nat))
  | [], _ => .ok []
  | el :: _, [] => do
      let _ ← toSlice b el
      .ok []
  | el :: slice, dimSz :: shape => do
      let s ← toSlice b el
      let i ← dimIndices b indices s dimSz
      let is ← keyIndices b indices slice shape
      .ok (i :: is)

def resize (xs : List Nat) (n a : Nat) : List Nat :=
  xs.take n ++ List.replicate (n - xs.length) a

def indicesCounts (b : Build) (indices : Indices) (shape : List Nat)
    (slice : List Key) : Exec (List Nat × List Nat) := do
  let is ← keyIndices b indices slice shape
  let starts := resize (is.map fun i => i.1) shape.length 0
  let strides := resize (is.map fun i => i.2.2) shape.length 1
  let counts := is.map fun i => i.2.1
  let counts := counts ++ shape.drop counts.length
  assertThat (∀ i ∈ strides, i = 1)
  .ok (starts, counts)

def getitem {D : Nat} (b : Build) (host : Endian) (memory : Memory)
    (indices : Indices) (ds : Idx.Dataset D) (readToPar : Direct D → ReadTo)
    (slice : List Key) : Exec Bytes := do
  let (starts, counts) ← indicesCounts b indices ds.shape.toList slice
  Reader.getitem b host memory ds readToPar starts counts

def Dataset.getitem (self : Dataset) (b : Build) (host : Endian) (memory : Memory)
    (indices : Indices) (readToPar : (D : Nat) → Direct D → ReadTo)
    (slice : List Key) : Exec Bytes := do
  let d ← self.dataset
  Python.getitem b host memory indices d.ds (readToPar d.D) slice

/-! ## Indexing in Python -/

namespace Key

/-- An integer is an index of an element, a slice has step one. -/
def Allowed (n : Nat) : Key → Prop
  | slice s => s.UnitStep
  | int i => -n ≤ i ∧ i < n
  | other => False

/-- The start and the count that a key selects among `n` elements. -/
def select (n : Nat) : Key → Nat × Nat
  | slice s => (s.first n, s.last n - s.first n)
  | int i => ((i % n).toNat, 1)
  | other => (0, 0)

/-- The keys for which the difference of the bounds is the count. -/
def Forward (n : Nat) : Key → Prop
  | slice s => s.first n ≤ s.last n
  | int i => i ≠ -1
  | other => False

end Key

def alongDims (f : Nat → Key → Nat × Nat) : List Key → List Nat → List (Nat × Nat)
  | [], shape => shape.map fun n => (0, n)
  | _ :: _, [] => []
  | key :: keys, n :: shape => f n key :: alongDims f keys shape

def pythonSelection (keys : List Key) (shape : List Nat) : List (Nat × Nat) :=
  alongDims Key.select keys shape

/--
The starts and the counts are those of Python, so that a reader is only asked for a
selection inside the dataset: what it does with others makes no difference.
-/
structure IndexesAsPython {D : Nat} (b : Build) (indices : Indices)
    (ds : Idx.Dataset D) (keys : List Key) : Prop where
  selects : indicesCounts b indices ds.shape.toList keys =
    .ok (pythonSelection keys ds.shape.toList).unzip
  asks : ∀ (host : Endian) (memory : Memory) (read read' : Direct D → ReadTo),
    (∀ r e, Inside ds e → read r e = read' r e) →
      getitem b host memory indices ds read keys =
        getitem b host memory indices ds read' keys

/-! ## What the source computes -/

variable {b : Build} {indices : Indices} {key : Key} {keys : List Key} {n : Nat}
  {shape : List Nat}

namespace Key

def asSlice : Key → Slice
  | slice s => s
  | int i => .new i (i + 1) 1
  | other => .new 0 0 1

def readIndex (n : Nat) (key : Key) : Nat × Nat :=
  (key.asSlice.first n, asU64 (key.asSlice.last n - key.asSlice.first n))

theorem unitStep_asSlice (h : key.Allowed n) : key.asSlice.UnitStep := by
  cases key with
  | slice s => exact h
  | int i => exact .inr rfl
  | other => exact h.elim

theorem toSlice_eq (hn : n < 2 ^ 63) (h : key.Allowed n) :
    toSlice b key = .ok key.asSlice := by
  cases key with
  | slice s => rfl
  | int i =>
      obtain ⟨hlo, hhi⟩ := h
      have hind : IsI64 i := ⟨by omega, by omega⟩
      have hnext : IsI64 (i + 1) := ⟨by omega, by omega⟩
      rw [toSlice, extract, if_pos hind, ok_bind, addI64_eq hnext, ok_bind, asSlice]
  | other => exact h.elim

theorem select_le (h : key.Allowed n) : (key.select n).1 + (key.select n).2 ≤ n := by
  cases key with
  | slice s =>
      have hlast : s.last n ≤ n := clampTo_le n _
      have hfirst : s.first n ≤ n := clampTo_le n _
      simp only [select]
      omega
  | int i =>
      obtain ⟨hlo, hhi⟩ := h
      have hlt := Int.emod_lt_of_pos i (show (0 : Int) < n by omega)
      have hnonneg := Int.emod_nonneg i (show (n : Int) ≠ 0 by omega)
      simp only [select]
      omega
  | other => exact h.elim

theorem last_int {i : Int} (hlo : -n ≤ i) (hhi : i < n) :
    (int i).asSlice.last n = if i = -1 then 0 else (i % n).toNat + 1 := by
  change clampTo n (i + 1) = _
  rw [← clampTo_index hlo hhi, clampTo, clampTo]
  split_ifs <;> omega

theorem readIndex_eq_iff (hn : n < 2 ^ 63) (h : key.Allowed n) :
    key.readIndex n = key.select n ↔ key.Forward n := by
  have hlast : key.asSlice.last n < 2 ^ 63 := (clampTo_le n _).trans_lt hn
  have hfirst : key.asSlice.first n < 2 ^ 63 := (clampTo_le n _).trans_lt hn
  have hcast := asU64_sub_eq_iff hfirst hlast
  cases key with
  | slice s =>
      rw [readIndex, select, Prod.mk.injEq]
      exact (and_iff_right rfl).trans hcast
  | int i =>
      obtain ⟨hlo, hhi⟩ := h
      have hstart : (int i).asSlice.first n = (i % n).toNat := clampTo_index hlo hhi
      have hstop := last_int hlo hhi
      rw [readIndex, select, Prod.mk.injEq, and_iff_right hstart, Forward]
      by_cases hi : i = -1
      · -- from the last element to the first: the difference is at most zero
        subst hi
        rw [if_pos rfl] at hstop
        have hmod : ((-1 : Int) % n).toNat = n - 1 := by
          rw [← clampTo_index hlo hhi, clampTo, if_pos (by decide)]
          omega
        rw [hstop, hstart, hmod]
        refine iff_of_false (fun hone => ?_) (fun hne => hne rfl)
        rcases Nat.eq_or_lt_of_le (show 1 ≤ n by omega) with rfl | hlt
        · cases hone
        · rw [asU64_of_neg (by omega) (by omega)] at hone
          omega
      · rw [if_neg hi, ← hstart] at hstop
        rw [hstop] at hcast
        refine iff_of_true ?_ hi
        rw [hstop, hcast.mpr (Nat.le_succ _), Nat.add_sub_cancel_left]
  | other => exact h.elim

end Key

/-! ## All dimensions -/

theorem dimIndices_eq (hindices : Normalises indices) {s : Slice} (hn : n < 2 ^ 63)
    (hs : s.UnitStep) : dimIndices b indices s n =
      .ok (s.first n, asU64 (s.last n - s.first n), 1) := by
  have hfirst : s.first n ≤ n := clampTo_le n _
  have hlast : s.last n ≤ n := clampTo_le n _
  have hsub : IsI64 (s.last n - s.first n) := ⟨by omega, by omega⟩
  rw [dimIndices, tryIntoLength, if_pos hn, ok_bind, hindices s n hn hs, unwrap, ok_bind]
  dsimp only
  rw [subI64_eq hsub, ok_bind, asU64_of_nonneg (by omega) (by omega)]
  rfl

theorem keyIndices_eq (hindices : Normalises indices) (hlen : keys.length ≤ shape.length)
    (hkeys : ∀ p ∈ keys.zip shape, p.1.Allowed p.2 ∧ p.2 < 2 ^ 63) :
    keyIndices b indices keys shape = .ok ((keys.zip shape).map fun p =>
      ((p.1.readIndex p.2).1, (p.1.readIndex p.2).2, 1)) := by
  induction keys generalizing shape with
  | nil => rfl
  | cons key keys ih =>
      cases shape with
      | nil => simp at hlen
      | cons n shape =>
          obtain ⟨hkey, hn⟩ := hkeys (key, n) (by simp)
          rw [keyIndices, key.toSlice_eq hn hkey, ok_bind,
            dimIndices_eq hindices hn (key.unitStep_asSlice hkey), ok_bind,
            ih (by simpa using hlen) fun p hp => hkeys p (by simp [hp]), ok_bind]
          rfl

theorem lt_of_keyIndices {is : List (Nat × Nat × Nat)}
    (h : keyIndices b indices keys shape = .ok is) :
    ∀ p ∈ keys.zip shape, p.2 < 2 ^ 63 := by
  induction keys generalizing shape is with
  | nil => simp
  | cons key keys ih =>
      cases shape with
      | nil => simp
      | cons n shape =>
          obtain ⟨s, -, h⟩ := bind_eq_ok.mp h
          obtain ⟨i, hi, h⟩ := bind_eq_ok.mp h
          obtain ⟨is', his', -⟩ := bind_eq_ok.mp h
          obtain ⟨length, hlength, -⟩ := bind_eq_ok.mp hi
          have hn : n < 2 ^ 63 := by
            by_contra hge
            rw [tryIntoLength, if_neg hge] at hlength
            cases hlength
          rw [List.zip_cons_cons]
          exact List.forall_mem_cons.mpr ⟨hn, ih his'⟩

theorem map_fst_alongDims (f : Nat → Key → Nat × Nat) (hlen : keys.length ≤ shape.length) :
    (alongDims f keys shape).map Prod.fst =
      resize ((keys.zip shape).map fun p => (f p.2 p.1).1) shape.length 0 := by
  induction keys generalizing shape with
  | nil => simp [alongDims, resize, Function.comp_def]
  | cons key keys ih =>
      cases shape with
      | nil => simp at hlen
      | cons n shape =>
          have hle : keys.length ≤ shape.length := by simpa using hlen
          have htail := ih hle
          simpa [alongDims, resize] using htail

theorem map_snd_alongDims (f : Nat → Key → Nat × Nat) (hlen : keys.length ≤ shape.length) :
    (alongDims f keys shape).map Prod.snd =
      ((keys.zip shape).map fun p => (f p.2 p.1).2) ++ shape.drop keys.length := by
  induction keys generalizing shape with
  | nil => simp [alongDims, Function.comp_def]
  | cons key keys ih =>
      cases shape with
      | nil => simp at hlen
      | cons n shape =>
          have hle : keys.length ≤ shape.length := by simpa using hlen
          have htail := ih hle
          simpa [alongDims] using htail

theorem alongDims_inj {f g : Nat → Key → Nat × Nat} (hlen : keys.length ≤ shape.length) :
    alongDims f keys shape = alongDims g keys shape ↔
      ∀ p ∈ keys.zip shape, f p.2 p.1 = g p.2 p.1 := by
  induction keys generalizing shape with
  | nil => simp [alongDims]
  | cons key keys ih =>
      cases shape with
      | nil => simp at hlen
      | cons n shape =>
          rw [alongDims, alongDims, List.cons_eq_cons, ih (by simpa using hlen),
            List.zip_cons_cons, List.forall_mem_cons]

theorem indicesCounts_eq (hindices : Normalises indices)
    (hlen : keys.length ≤ shape.length)
    (hkeys : ∀ p ∈ keys.zip shape, p.1.Allowed p.2 ∧ p.2 < 2 ^ 63) :
    indicesCounts b indices shape keys =
      .ok (alongDims Key.readIndex keys shape).unzip := by
  have hstrides : ∀ i ∈ resize (((keys.zip shape).map fun p =>
      ((p.1.readIndex p.2).1, (p.1.readIndex p.2).2, 1)).map fun i => i.2.2)
        shape.length 1, i = 1 := by
    intro i hi
    rcases List.mem_append.mp hi with hi | hi
    · obtain ⟨j, hj, rfl⟩ := List.mem_map.mp (List.mem_of_mem_take hi)
      obtain ⟨p, -, rfl⟩ := List.mem_map.mp hj
      rfl
    · exact List.eq_of_mem_replicate hi
  rw [indicesCounts, keyIndices_eq hindices hlen hkeys, ok_bind]
  dsimp only
  rw [assertThat_of hstrides, ok_bind, List.unzip_eq_map, map_fst_alongDims _ hlen,
    map_snd_alongDims _ hlen, List.map_map, List.map_map, List.length_map,
    List.length_zip, Nat.min_eq_left hlen]
  rfl

theorem selects_iff (hindices : Normalises indices) (hlen : keys.length ≤ shape.length)
    (hkeys : ∀ p ∈ keys.zip shape, p.1.Allowed p.2) :
    indicesCounts b indices shape keys = .ok (pythonSelection keys shape).unzip ↔
      ∀ p ∈ keys.zip shape, p.2 < 2 ^ 63 ∧ p.1.Forward p.2 := by
  have hiff (hlt : ∀ p ∈ keys.zip shape, p.2 < 2 ^ 63) :
      indicesCounts b indices shape keys = .ok (pythonSelection keys shape).unzip ↔
        ∀ p ∈ keys.zip shape, p.1.Forward p.2 := by
    rw [indicesCounts_eq hindices hlen fun p hp => ⟨hkeys p hp, hlt p hp⟩,
      Except.ok.injEq, (Function.RightInverse.injective List.rightInverse_unzip_zip).eq_iff,
      pythonSelection, alongDims_inj hlen]
    exact forall₂_congr fun p hp => Key.readIndex_eq_iff (hlt p hp) (hkeys p hp)
  constructor
  · intro h
    obtain ⟨is, his, -⟩ := bind_eq_ok.mp h
    have hlt := lt_of_keyIndices his
    exact fun p hp => ⟨hlt p hp, (hiff hlt).mp h p hp⟩
  · exact fun h => (hiff fun p hp => (h p hp).1).mpr fun p hp => (h p hp).2

/-! ## What the reader is asked for -/

theorem pythonSelection_le (hlen : keys.length ≤ shape.length)
    (hkeys : ∀ p ∈ keys.zip shape, p.1.Allowed p.2) :
    List.Forall₂ (fun n i => i.1 + i.2 ≤ n) shape (pythonSelection keys shape) := by
  induction keys generalizing shape with
  | nil =>
      rw [pythonSelection, alongDims, List.forall₂_map_right_iff, List.forall₂_same]
      intro n _
      simp
  | cons key keys ih =>
      cases shape with
      | nil => simp at hlen
      | cons n shape =>
          exact .cons (key.select_le (hkeys (key, n) (by simp)))
            (ih (by simpa using hlen) fun p hp => hkeys p (by simp [hp]))

theorem selection_le {chunkShape : List Nat} {is : List (Nat × Nat)}
    (h : List.Forall₂ (fun n i => i.1 + i.2 ≤ n) shape is) :
    ∀ d ∈ Slices.selection shape chunkShape (is.map Prod.fst) (is.map Prod.snd),
      d.start + d.count ≤ d.size := by
  induction h generalizing chunkShape with
  | nil => simp [Slices.selection]
  | @cons n i shape is hi _ ih =>
      cases chunkShape with
      | nil => simp [Slices.selection]
      | cons c chunkShape =>
          exact List.forall_mem_cons.mpr ⟨hi, ih⟩

variable {D : Nat} {ds : Idx.Dataset D}

theorem reader_getitem_congr {is : List (Nat × Nat)}
    (h : List.Forall₂ (fun n i => i.1 + i.2 ≤ n) ds.shape.toList is) (host : Endian)
    (memory : Memory) {read read' : Direct D → ReadTo}
    (hread : ∀ r e, Inside ds e → read r e = read' r e) :
    Reader.getitem b host memory ds read (is.map Prod.fst) (is.map Prod.snd) =
      Reader.getitem b host memory ds read' (is.map Prod.fst) (is.map Prod.snd) := by
  have hlen : is.length = ds.shape.toList.length := h.length_eq.symm
  obtain ⟨e, he, hranked, hstarts, hcounts⟩ :=
    Extents.ofStartCount_eq ((List.length_map Prod.fst).trans hlen)
      ((List.length_map Prod.snd).trans hlen)
  have hinside : Inside ds e := by
    refine ⟨hranked, ?_⟩
    rw [Slices.dims, hstarts, hcounts]
    exact selection_le h
  unfold Reader.getitem Reader.readPyArray Reader.valuesTo
  simp only [he, ok_bind, hread _ e hinside]

/--
A dataset is indexed as in Python exactly where no key runs backwards: the slice of
the index `-1` does, and so does a slice whose end lies before its start.  The sizes of
the dimensions with a key are an `isize`.
-/
theorem indexesAsPython_iff (hindices : Normalises indices) (b : Build)
    (ds : Idx.Dataset D) (keys : List Key) (hlen : keys.length ≤ D)
    (hkeys : ∀ p ∈ keys.zip ds.shape.toList, p.1.Allowed p.2) :
    IndexesAsPython b indices ds keys ↔
      ∀ p ∈ keys.zip ds.shape.toList, p.2 < 2 ^ 63 ∧ p.1.Forward p.2 := by
  have hrank : keys.length ≤ ds.shape.toList.length := by simpa using hlen
  rw [← selects_iff hindices hrank hkeys]
  refine ⟨fun h => h.selects, fun hselects => ⟨hselects, ?_⟩⟩
  intro host memory read read' hread
  rw [getitem, getitem, hselects, List.unzip_eq_map]
  exact reader_getitem_congr (pythonSelection_le hrank hkeys) host memory hread

theorem getitem_found {self : Index} {s : Idx.Path} {group : Option Idx.Path}
    {ds : Dataset} (h : self.dataset s group = some ds) (host : Endian)
    (memory : Memory) (readToPar : (D : Nat) → Direct D → ReadTo) :
    ∃ d, ds.dataset = .ok d ∧
      ds.getitem b host memory indices readToPar keys =
        getitem b host memory indices d.ds (readToPar d.D) keys := by
  obtain ⟨d, hd⟩ := Index.dataset_found h
  refine ⟨d, hd, ?_⟩
  unfold Dataset.getitem
  rw [hd, ok_bind]

/-! ## Ten values -/

def tenValues : Idx.Dataset 1 where
  dtype := .uint 1
  dsize := 1
  order := .le
  chunks := [⟨.new 64, .new 10, .new 0 ::ᵥ .nil⟩]
  shape := 10 ::ᵥ .nil
  chunkShape := 10 ::ᵥ .nil
  chunkShapeReduced := 10 ::ᵥ .nil
  scaledDimSz := 1 ::ᵥ .nil
  dimSz := 1 ::ᵥ .nil
  chunkDimSz := 1 ::ᵥ .nil
  shuffle := false
  gzip := none

theorem indexesAsPython_iff_tenValues :
    IndexesAsPython .release getIndicesEx tenValues [.slice ⟨some (-3), none, none⟩] ↔
      ∀ p ∈ [Key.slice ⟨some (-3), none, none⟩].zip tenValues.shape.toList,
        p.2 < 2 ^ 63 ∧ p.1.Forward p.2 :=
  indexesAsPython_iff normalises_getIndicesEx .release tenValues _ (by decide) (by
    intro p hp
    obtain rfl := List.mem_singleton.mp hp
    exact .inl rfl)

/-- `[-1]` is read from `9` up to `0`, and `[5:2]` from `5` up to `2`. -/
theorem not_indexesAsPython_backwards :
    (indicesCounts .release getIndicesEx [10] [.int (-1)] = .ok ([9], [2 ^ 64 - 9]) ∧
        ¬ IndexesAsPython .release getIndicesEx tenValues [.int (-1)]) ∧
      indicesCounts .release getIndicesEx [10] [.slice ⟨some 5, some 2, none⟩] =
          .ok ([5], [2 ^ 64 - 3]) ∧
        ¬ IndexesAsPython .release getIndicesEx tenValues
          [.slice ⟨some 5, some 2, none⟩] :=
  ⟨⟨rfl, fun h => absurd h.selects (by decide)⟩,
    rfl, fun h => absurd h.selects (by decide)⟩

end Hidefix.Python
