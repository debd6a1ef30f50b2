import Hidefix.Reader.Delivered

/-!
# Slices of ndarray

The `s!` macro of ndarray describes a slice by one element for each dimension, with
indices that may be negative, steps and new axes.  The conversion to extents takes a
part of these only.  What it takes means the same to a reader and to ndarray: the same
slices are rejected, and what is read are the elements of the slice.
-/

namespace Hidefix

open Foundation

/-- `ndarray::SliceInfoElem` -/
inductive SliceInfoElem where
  | slice (start : Int) (stop : Option Int) (step : Int)
  | index (i : Int)
  | newAxis
  deriving DecidableEq, Repr

/-- `u64::try_from` of an `isize` -/
def tryFromIsize (i : Int) : Exec Nat :=
  if 0 ≤ i then .ok i.toNat else bail "out of range integral type conversion attempted"

def Extent.ofSliceInfoElem : SliceInfoElem → Exec Extent
  | .slice start stop step => do
      let start ← tryFromIsize start
      if step ≠ 1 then bail "Strides are not supported"
      else match stop with
        | some stop => do .ok (.sliceEnd start (← tryFromIsize stop))
        | none => .ok (.slice start)
  | .index i =>
      match tryFromIsize i with
      | .ok i => .ok (.index i)
      | .error _ => bail "Invalid index"
  | .newAxis => bail "Can't add new axis in this context"

/-- `TryFrom<&SliceInfo>` -/
def Extents.ofSliceInfo (elems : List SliceInfoElem) : Exec Extents := do
  .ok (.extent (← elems.mapM Extent.ofSliceInfoElem))

namespace SliceInfoElem

/--
What ndarray documents of a slice: the indices that an element picks in a dimension of
size `n`, and the positions of the elements of a slice, in logical order.  A panic is
`none`.  Negative indices, steps and new axes are left open.
-/
structure NdSlicing (picked : Nat → SliceInfoElem → Option (List Nat))
    (sliced : List SliceInfoElem → List Nat → Option (List (List Nat))) : Prop where
  /-- An index is in bounds. -/
  index : ∀ n i : Nat, picked n (index i) = if i < n then some [i] else none
  /-- The ends of a range are in bounds, and nothing lies in one that ends first. -/
  range : ∀ n start stop : Nat, picked n (slice start (some (stop : Int)) 1) =
    if max start stop ≤ n then some (List.range' start (stop - start)) else none
  /-- A range without an end extends to the end of the axis. -/
  open_range : ∀ n start : Nat,
    picked n (slice start none 1) = picked n (slice start (some (n : Int)) 1)
  /-- There is one element for each axis. -/
  rank : ∀ elems shape, newAxis ∉ elems → elems.length ≠ shape.length →
    sliced elems shape = none
  nil : sliced [] [] = some [[]]
  /-- The first axis varies slowest. -/
  cons : ∀ elem elems n shape, newAxis ∉ elem :: elems →
    sliced (elem :: elems) (n :: shape) = (picked n elem).bind fun indices =>
      (sliced elems shape).map fun rest =>
        indices.flatMap fun i => rest.map (i :: ·)

/-! ## What is converted -/

def Supported : SliceInfoElem → Prop
  | slice start stop step => 0 ≤ start ∧ (∀ i ∈ stop, 0 ≤ i) ∧ step = 1
  | index i => 0 ≤ i
  | newAxis => False

instance : DecidablePred Supported
  | slice _ none _ => inferInstanceAs (Decidable (_ ∧ (∀ i ∈ none, _) ∧ _))
  | slice _ (some _) _ => inferInstanceAs (Decidable (_ ∧ (∀ i ∈ some _, _) ∧ _))
  | index i => inferInstanceAs (Decidable (0 ≤ i))
  | newAxis => inferInstanceAs (Decidable False)

def extent : SliceInfoElem → Extent
  | slice start (some stop) _ => .sliceEnd start.toNat stop.toNat
  | slice start none _ => .slice start.toNat
  | index i => .index i.toNat
  | newAxis => .slice 0

abbrev extents (elems : List SliceInfoElem) : Extents := .extent (elems.map extent)

def Fits (elem : SliceInfoElem) (n : Nat) : Prop :=
  elem.extent.start + (elem.extent.canonicalise n).size ≤ n

instance (elem : SliceInfoElem) (n : Nat) : Decidable (elem.Fits n) :=
  inferInstanceAs (Decidable (_ ≤ _))

variable {elem : SliceInfoElem} {elems : List SliceInfoElem} {n : Nat}

theorem tryFromIsize_iff {i : Int} {x : Nat} :
    tryFromIsize i = .ok x ↔ 0 ≤ i ∧ i.toNat = x := by
  unfold tryFromIsize
  split <;> simp [*, bail]

theorem ofSliceInfoElem_iff {e : Extent} :
    Extent.ofSliceInfoElem elem = .ok e ↔ elem.Supported ∧ elem.extent = e := by
  cases elem with
  | slice start stop step =>
      simp only [Extent.ofSliceInfoElem, bind_eq_ok, tryFromIsize_iff]
      by_cases hstep : step = 1
      · cases stop <;>
          simp [hstep, Supported, extent, bind_eq_ok, tryFromIsize_iff, and_assoc]
      · simp [hstep, Supported, bail]
  | index i =>
      by_cases h : 0 ≤ i <;>
        simp [Extent.ofSliceInfoElem, tryFromIsize, Supported, extent, h, bail]
  | newAxis => simp [Extent.ofSliceInfoElem, Supported, bail]

theorem ofSliceInfo_iff {e : Extents} :
    Extents.ofSliceInfo elems = .ok e ↔
      (∀ elem ∈ elems, elem.Supported) ∧ extents elems = e := by
  unfold Extents.ofSliceInfo
  constructor
  · intro h
    obtain ⟨es, hall, h⟩ := bind_eq_ok.mp h
    have hall := (mapM_ok_forall₂ hall).imp fun _ _ => ofSliceInfoElem_iff.mp
    have hes : elems.map extent = es := by
      rw [← List.forall₂_eq_eq_eq, List.forall₂_map_left_iff]
      exact hall.imp fun _ _ => And.right
    refine ⟨fun elem helem => ?_, (congrArg _ hes).trans (Except.ok.inj h)⟩
    obtain ⟨i, hi, rfl⟩ := List.mem_iff_getElem.mp helem
    exact (hall.get hi (hall.length_eq ▸ hi)).1
  · rintro ⟨hsupported, rfl⟩
    have hall := mapM_ok _ extent elems fun elem helem =>
      ofSliceInfoElem_iff.mpr ⟨hsupported elem helem, rfl⟩
    simp [hall]

theorem ofSliceInfo_fails :
    FailsOnly (fun fault => ∃ message, fault = .err message)
      (Extents.ofSliceInfo elems) := by
  have hisize : ∀ i, FailsOnly (fun fault => ∃ message, fault = .err message)
      (tryFromIsize i) := fun i => by
    unfold tryFromIsize
    split
    · exact .ok _
    · exact .error ⟨_, rfl⟩
  refine .bind (.mapM fun elem _ => ?_) fun _ _ => .ok _
  cases elem with
  | slice start stop step =>
      refine .bind (hisize start) fun _ _ => ?_
      split
      · exact .error ⟨_, rfl⟩
      · split
        · exact .bind (hisize _) fun _ _ => .ok _
        · exact .ok _
  | index i =>
      simp only [Extent.ofSliceInfoElem]
      split
      · exact .ok _
      · exact .error ⟨_, rfl⟩
  | newAxis => exact .error ⟨_, rfl⟩

/-! ## What is picked -/

section NdSlicing

variable {picked : Nat → SliceInfoElem → Option (List Nat)}
  {sliced : List SliceInfoElem → List Nat → Option (List (List Nat))}

theorem NdSlicing.range_eq (hnd : NdSlicing picked sliced) (n start stop : Nat) :
    picked n (slice start (some (stop : Int)) 1) =
      if start + (stop - start) ≤ n then some (List.range' start (stop - start))
      else none := by
  have hbounds : max start stop ≤ n ↔ start + (stop - start) ≤ n := by omega
  rw [hnd.range]
  simp only [hbounds]

/-- An element that is supported picks indices that follow each other. -/
theorem NdSlicing.picked_eq (hnd : NdSlicing picked sliced) (h : elem.Supported) (n : Nat) :
    picked n elem =
      if elem.Fits n then some (List.range' elem.extent.start
        (elem.extent.canonicalise n).size) else none := by
  cases elem with
  | slice start stop step =>
      obtain ⟨hstart, hstop, rfl⟩ := h
      obtain ⟨first, rfl⟩ := Int.eq_ofNat_of_zero_le hstart
      cases stop with
      | none =>
          rw [hnd.open_range]
          exact hnd.range_eq n first n
      | some stop =>
          obtain ⟨last, rfl⟩ := Int.eq_ofNat_of_zero_le (hstop _ rfl)
          exact hnd.range_eq n first last
  | index i =>
      obtain ⟨i, rfl⟩ := Int.eq_ofNat_of_zero_le h
      exact hnd.index n i
  | newAxis => cases h

theorem newAxis_notMem (h : ∀ elem ∈ elems, elem.Supported) : newAxis ∉ elems :=
  fun hmem => h _ hmem

theorem NdSlicing.sliced_eq_some_iff (hnd : NdSlicing picked sliced)
    (h : ∀ elem ∈ elems, elem.Supported) {shape : List Nat} {positions : List (List Nat)} :
    sliced elems shape = some positions ↔
      List.Forall₂ Fits elems shape ∧
        NdArray.grid (List.zipWith List.range' ((extents elems).starts shape)
          ((extents elems).counts shape)) = positions := by
  induction elems generalizing shape positions with
  | nil =>
      cases shape with
      | nil => simp [hnd.nil, Extents.starts, NdArray.grid]
      | cons n shape => simp [hnd.rank [] (n :: shape) (by simp) (by simp)]
  | cons elem elems ih =>
      obtain ⟨helem, helems⟩ := List.forall_mem_cons.mp h
      cases shape with
      | nil => simp [hnd.rank (elem :: elems) [] (newAxis_notMem h) (by simp)]
      | cons n shape =>
          rw [hnd.cons elem elems n shape (newAxis_notMem h), hnd.picked_eq helem]
          by_cases hfits : elem.Fits n
          · simp [hfits, ih helems, Extents.starts, Extents.counts, NdArray.grid,
              and_assoc]
          · simp [hfits]

end NdSlicing

theorem ranked_of_fits {shape : List Nat} (h : List.Forall₂ Fits elems shape) :
    (extents elems).Ranked shape :=
  (List.length_map _).trans h.length_eq

theorem grid_of_fits {α : Type} (A : List Nat → α) {shape : List Nat}
    (h : List.Forall₂ Fits elems shape) :
    (NdArray.grid (List.zipWith List.range' ((extents elems).starts shape)
        ((extents elems).counts shape))).map A =
      NdArray.slice A ((extents elems).starts shape) ((extents elems).counts shape) := by
  have hranked := ranked_of_fits h
  exact NdArray.map_grid_ranges A
    ((Extents.length_starts hranked).trans (Extents.length_counts hranked).symm)

end SliceInfoElem

namespace Reader

open Idx
open SliceInfoElem
open Slices

variable {D dsz : Nat} {env : Env}

theorem selection_fits {elems : List SliceInfoElem} {shape chunkShape : List Nat}
    (hlen : elems.length = shape.length) (hchunk : shape.length = chunkShape.length) :
    (∀ d ∈ selection shape chunkShape ((extents elems).starts shape)
        ((extents elems).counts shape), d.start + d.count ≤ d.size) ↔
      List.Forall₂ Fits elems shape := by
  induction elems generalizing shape chunkShape with
  | nil =>
      obtain rfl := List.eq_nil_of_length_eq_zero hlen.symm
      simp [selection]
  | cons elem elems ih =>
      obtain ⟨n, shape, rfl⟩ := List.exists_cons_of_length_eq_add_one hlen.symm
      obtain ⟨c, chunkShape, rfl⟩ := List.exists_cons_of_length_eq_add_one hchunk.symm
      have hlen : elems.length = shape.length := by simpa using hlen
      have hchunk : shape.length = chunkShape.length := by simpa using hchunk
      have hcons : selection (n :: shape) (c :: chunkShape)
          ((extents (elem :: elems)).starts (n :: shape))
          ((extents (elem :: elems)).counts (n :: shape)) =
            ⟨n, c, elem.extent.start, (elem.extent.canonicalise n).size⟩ ::
              selection shape chunkShape ((extents elems).starts shape)
                ((extents elems).counts shape) := rfl
      rw [hcons, List.forall_mem_cons, ih hlen hchunk, List.forall₂_cons]
      exact Iff.rfl

theorem inside_iff_fits {ds : Dataset D} {elems : List SliceInfoElem} :
    Inside ds (extents elems) ↔ List.Forall₂ Fits elems ds.shape.toList := by
  have hchunk : ds.shape.toList.length = ds.chunkShape.toList.length := by simp
  constructor
  · rintro ⟨hranked, hin⟩
    have hlen : elems.length = ds.shape.toList.length := by
      simpa [Extents.Ranked] using hranked
    exact (selection_fits hlen hchunk).mp hin
  · intro hfits
    exact ⟨ranked_of_fits hfits, (selection_fits hfits.length_eq hchunk).mpr hfits⟩

/--
A slice of ndarray is converted where it has no negative index, step or new axis, and
is an error otherwise.  One that is converted lies in the dataset where ndarray takes it
for an array of this shape, and what every reader reads are its elements.
-/
theorem reads_sliced (ds : Dataset D) (hwf : ds.WellFormed) (hpos : 0 < ds.dsize)
    (A : Values dsz) (hA : Carries env ds A)
    (picked : Nat → SliceInfoElem → Option (List Nat))
    (sliced : List SliceInfoElem → List Nat → Option (List (List Nat)))
    (hnd : NdSlicing picked sliced) (elems : List SliceInfoElem) :
    (∀ fault, Extents.ofSliceInfo elems = .error fault →
        ∃ message, fault = .err message) ∧
      ((∃ e, Extents.ofSliceInfo elems = .ok e) ↔ ∀ elem ∈ elems, elem.Supported) ∧
      ∀ e, Extents.ofSliceInfo elems = .ok e →
        (Inside ds e ↔ ∃ positions, sliced elems ds.shape.toList = some positions) ∧
        ∀ positions, sliced elems ds.shape.toList = some positions →
          Foldable (dims ds e) →
          ∃ fuel₀, ∀ fuel ≥ fuel₀, ∀ read, Method env ds read → ∀ dst : Bytes,
            positions.length * dsz ≤ dst.length → dst.length < 2 ^ 63 →
            read fuel e dst = .ok (positions.flatMap (fun x => (A x).toList) ++
              dst.drop (positions.length * dsz), positions.length * dsz) := by
  refine ⟨?_, ?_, fun e he => ⟨?_, ?_⟩⟩
  · exact ofSliceInfo_fails
  · simp [ofSliceInfo_iff]
  · obtain ⟨hsupported, rfl⟩ := ofSliceInfo_iff.mp he
    simp [inside_iff_fits, hnd.sliced_eq_some_iff hsupported]
  · obtain ⟨hsupported, rfl⟩ := ofSliceInfo_iff.mp he
    intro positions hpositions hfold
    obtain ⟨hfits, hgrid⟩ := (hnd.sliced_eq_some_iff hsupported).mp hpositions
    obtain ⟨fuel₀, hdelivers⟩ := hA.delivers hwf hpos (inside_iff_fits.mpr hfits) hfold
    have hslice : NdArray.slice A ((extents elems).starts ds.shape.toList)
        ((extents elems).counts ds.shape.toList) = positions.map A := by
      rw [← grid_of_fits A hfits, hgrid]
    have hbytes : selectedBytes ds A (extents elems) =
        positions.flatMap fun x => (A x).toList :=
      (congrArg (List.flatMap _) hslice).trans (List.flatMap_map ..)
    have hlen : (selectedBytes ds A (extents elems)).length =
        positions.length * dsz := by
      rw [hbytes, Blocks.length_flatMap_const _ fun x => (A x).toList_length]
    refine ⟨fuel₀, fun fuel hfuel read hread dst hcap hdst => ?_⟩
    have hread := hdelivers fuel hfuel read hread dst (hlen.trans_le hcap) hdst
    rwa [hlen, hbytes] at hread

end Reader

/-! ## Slices as ndarray takes them -/

namespace SliceInfoElem

/-- `abs_index`: negative indices count from the end. -/
def absIndex (n : Nat) (i : Int) : Int := if i < 0 then n + i else i

def stepped (start m : Nat) (step : Int) : List Nat :=
  let count := Idx.divCeil m step.natAbs
  if 0 < step then List.range' start count step.natAbs
  else (List.range count).map fun i => start + m - 1 - i * step.natAbs

def picked (n : Nat) : SliceInfoElem → Option (List Nat)
  | slice start stop step =>
      let start := absIndex n start
      let stop := absIndex n (stop.getD n)
      if 0 ≤ start ∧ 0 ≤ stop ∧ max start stop ≤ n ∧ step ≠ 0 then
        some (stepped start.toNat (stop - start).toNat step)
      else none
  | index i =>
      let i := absIndex n i
      if 0 ≤ i ∧ i < n then some [i.toNat] else none
  | newAxis => none

def sliced : List SliceInfoElem → List Nat → Option (List (List Nat))
  | [], [] => some [[]]
  | newAxis :: elems, shape => sliced elems shape
  | elem :: elems, n :: shape => do
      let indices ← elem.picked n
      let rest ← sliced elems shape
      some (indices.flatMap fun i => rest.map (i :: ·))
  | _, _ => none

example : sliced [slice (-2) none 1, newAxis, slice 0 none (-2), index 1] [3, 4, 2] =
    some [[1, 3, 1], [1, 1, 1], [2, 3, 1], [2, 1, 1]] := by decide

@[simp] theorem absIndex_natCast (n i : Nat) : absIndex n i = i := by
  simp [absIndex]

@[simp] theorem stepped_one (start m : Nat) : stepped start m 1 = List.range' start m := by
  simp [stepped, Idx.divCeil, Nat.mod_one]

theorem sliced_cons {elem : SliceInfoElem} (h : elem ≠ newAxis) (elems : List SliceInfoElem)
    (n : Nat) (shape : List Nat) :
    sliced (elem :: elems) (n :: shape) = (elem.picked n).bind fun indices =>
      (sliced elems shape).map fun rest => indices.flatMap fun i => rest.map (i :: ·) := by
  cases elem with
  | newAxis => exact absurd rfl h
  | _ => simp [sliced, Option.map_eq_bind]

theorem sliced_of_length_ne {elems : List SliceInfoElem} {shape : List Nat}
    (h : newAxis ∉ elems) (hlen : elems.length ≠ shape.length) :
    sliced elems shape = none := by
  induction elems generalizing shape with
  | nil =>
      cases shape with
      | nil => exact absurd rfl hlen
      | cons n shape => rfl
  | cons elem elems ih =>
      have helem : elem ≠ newAxis := Ne.symm (List.ne_of_not_mem_cons h)
      have helems : newAxis ∉ elems := List.not_mem_of_not_mem_cons h
      cases shape with
      | nil =>
          cases elem with
          | newAxis => exact absurd rfl helem
          | _ => rfl
      | cons n shape =>
          rw [sliced_cons helem, ih helems (by simpa using hlen)]
          cases elem.picked n <;> rfl

theorem ndSlicing : NdSlicing (fun n elem => elem.picked n) sliced where
  index n i := by
    have hbounds : (0 ≤ (i : Int) ∧ (i : Int) < n) ↔ i < n := by omega
    simp only [picked, absIndex_natCast, Int.toNat_natCast, hbounds]
  range n start stop := by
    have hbounds : (0 ≤ (start : Int) ∧ 0 ≤ (stop : Int) ∧ max (start : Int) stop ≤ n ∧
        (1 : Int) ≠ 0) ↔ max start stop ≤ n := by omega
    have hcount : ((stop : Int) - start).toNat = stop - start := by omega
    simp only [picked, Option.getD_some, absIndex_natCast, Int.toNat_natCast, hcount,
      stepped_one, hbounds]
  open_range n start := rfl
  rank elems shape h hlen := sliced_of_length_ne h hlen
  nil := rfl
  cons elem elems n shape h := sliced_cons (Ne.symm (List.ne_of_not_mem_cons h)) elems n shape

end SliceInfoElem

namespace Reader

open SliceInfoElem

theorem reads_sliced_pair : ∃ fuel₀, ∀ fuel ≥ fuel₀, ∀ read,
    Method (.addresses .release 68) pair read → ∀ dst : Bytes,
      2 ≤ dst.length → dst.length < 2 ^ 63 →
      read fuel (.extent [.sliceEnd 1 2]) dst = .ok ([66, 67] ++ dst.drop 2, 2) :=
  ((reads_sliced pair pair_wellFormed (by decide) pairValues carries_pair _ _ ndSlicing
    [.slice 1 (some 2) 1]).2.2 _ rfl).2 [[1]] rfl (by decide)

end Reader

end Hidefix
