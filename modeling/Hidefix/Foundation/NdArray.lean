import Hidefix.Foundation.MixedRadix

/-!
# Slices of arrays

An array has an element at every list of coordinates.  A slice lists the elements
of a box of it in row-major order: slices of slices are slices, a slice is joined
from its parts along the first dimension, and dimensions in which only one
coordinate is selected do not matter.
-/

namespace NdArray

open MixedRadix

variable {α β : Type} {A B : List Nat → α}

def view (A : List Nat → α) (start : List Nat) : List Nat → α :=
  fun os => A (List.zipWith (· + ·) start os)

def slice (A : List Nat → α) (start count : List Nat) : List α :=
  (rowMajor count).map (view A start)

@[simp] theorem length_slice (A : List Nat → α) (start count : List Nat) :
    (slice A start count).length = count.prod := by
  simp [slice]

@[simp] theorem map_slice (f : α → β) (A : List Nat → α) (start count : List Nat) :
    (slice A start count).map f = slice (f ∘ A) start count := by
  simp [slice, view, Function.comp_def]

theorem getElem?_slice {start count os : List Nat} (h : InBox count os) :
    (slice A start count)[rank count os]? = some (view A start os) := by
  have hlt : rank count os < (rowMajor count).length := by
    simpa using rank_lt h
  simp [slice, List.getElem?_eq_getElem hlt, getElem_rowMajor, unrank_rank h]

/-! ## Parts -/

theorem slice_split (A : List Nat → α) (s m n : Nat) (start count : List Nat) :
    slice A (s :: start) ((m + n) :: count) =
      slice A (s :: start) (m :: count) ++ slice A ((s + m) :: start) (n :: count) := by
  have hsecond : ∀ o os, view A (s :: start) ((m + o) :: os) =
      view A ((s + m) :: start) (o :: os) := by
    intro o os
    simp [view, Nat.add_assoc]
  simp only [slice, rowMajor, List.range_add, List.flatMap_append, List.map_append]
  congr 1
  simp [List.flatMap_map, List.map_flatMap, Function.comp_def, hsecond]

theorem slice_parts (A : List Nat → α) (s : Nat) (parts start count : List Nat) :
    slice A (s :: start) (parts.sum :: count) =
      (parts.zip (parts.scanl (· + ·) s)).flatMap fun p =>
        slice A (p.2 :: start) (p.1 :: count) := by
  induction parts generalizing s with
  | nil => simp [slice, rowMajor]
  | cons m parts ih => simp [slice_split, ih]

/-! ## Picked indices -/

def grid : List (List Nat) → List (List Nat)
  | [] => [[]]
  | xs :: rest => xs.flatMap fun x => (grid rest).map (x :: ·)

theorem map_grid_ranges (A : List Nat → α) {start count : List Nat}
    (h : start.length = count.length) :
    (grid (List.zipWith List.range' start count)).map A = slice A start count := by
  induction start generalizing count A with
  | nil =>
      obtain rfl := List.eq_nil_of_length_eq_zero h.symm
      rfl
  | cons s start ih =>
      obtain ⟨k, count, rfl⟩ := List.exists_cons_of_length_eq_add_one h.symm
      have h : start.length = count.length := by simpa using h
      have hview : ∀ o os, view A (s :: start) (o :: os) =
          view (fun xs => A ((s + o) :: xs)) start os := fun _ _ => rfl
      have hrest : ∀ o, (grid (List.zipWith List.range' start count)).map
          (fun xs => A ((s + o) :: xs)) =
            (rowMajor count).map fun os => view A (s :: start) (o :: os) := fun o => by
        simp only [hview]
        exact ih _ h
      have hrange : List.range' s k = (List.range k).map (s + ·) :=
        List.range'_eq_map_range
      simp [slice, grid, rowMajor, hrange, List.flatMap_map, List.map_flatMap,
        Function.comp_def, hrest]

/-! ## Dimensions of one coordinate -/

/-- The coordinates in the dimensions where more than one is selected. -/
def squeeze (count os : List Nat) : List Nat :=
  ((count.zip os).filter (1 < ·.1)).map Prod.snd

@[simp] theorem squeeze_cons (k o : Nat) (count os : List Nat) :
    squeeze (k :: count) (o :: os) =
      if 1 < k then o :: squeeze count os else squeeze count os := by
  unfold squeeze
  split <;> simp [*]

theorem prod_squeeze {count : List Nat} (hpos : ∀ k ∈ count, 1 ≤ k) :
    (count.filter (1 < ·)).prod = count.prod := by
  induction count with
  | nil => rfl
  | cons k count ih =>
      obtain ⟨hk, hcount⟩ := List.forall_mem_cons.mp hpos
      by_cases hlarge : 1 < k
      · simp [hlarge, ih hcount]
      · have hone : k = 1 := by omega
        simp [hone, ih hcount]

theorem squeeze_inBox {count os : List Nat} (h : InBox count os) :
    InBox (count.filter (1 < ·)) (squeeze count os) := by
  induction h with
  | nil => exact .nil
  | @cons o k os count ho _ ih =>
      by_cases hlarge : 1 < k
      · simpa [hlarge] using List.Forall₂.cons ho ih
      · simpa [hlarge] using ih

theorem rank_squeeze {count os : List Nat} (h : InBox count os) :
    rank (count.filter (1 < ·)) (squeeze count os) = rank count os := by
  induction h with
  | nil => rfl
  | @cons o k os count ho hos ih =>
      by_cases hlarge : 1 < k
      · simp [hlarge, ih, prod_squeeze (InBox.pos hos)]
      · have hzero : o = 0 := by omega
        simp [hlarge, ih, hzero]

end NdArray
