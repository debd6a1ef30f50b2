import Hidefix.Foundation.Signed

/-!
# Slices of Python

What indexing means in Python along a dimension of `n` elements: a bound below zero
counts from the end, a bound outside the dimension is moved to its end, a missing bound
is an end of the dimension.  `PySlice::indices` gives the bounds in this normal form.
-/

namespace Hidefix.Python

open Foundation

structure Slice where
  start : Option Int
  stop : Option Int
  step : Option Int
  deriving DecidableEq, Repr

def clampTo (n : Nat) (x : Int) : Nat :=
  if x < 0 then (x + n).toNat else min x.toNat n

namespace Slice

def first (s : Slice) (n : Nat) : Nat := clampTo n (s.start.getD 0)

def last (s : Slice) (n : Nat) : Nat := clampTo n (s.stop.getD n)

def UnitStep (s : Slice) : Prop := s.step = none ∨ s.step = some 1

instance (s : Slice) : Decidable s.UnitStep :=
  inferInstanceAs (Decidable (_ ∨ _))

end Slice

theorem clampTo_le (n : Nat) (x : Int) : clampTo n x ≤ n := by
  unfold clampTo
  split <;> omega

theorem clampTo_index {n : Nat} {i : Int} (hlo : -n ≤ i) (hhi : i < n) :
    clampTo n i = (i % n).toNat := by
  unfold clampTo
  split
  · rw [← Int.add_emod_right, Int.emod_eq_of_lt (by omega) (by omega)]
  · rw [Int.emod_eq_of_lt (by omega) hhi]
    omega

/-! ## `PySlice::indices` -/

structure SliceIndices where
  start : Int
  stop : Int
  step : Int
  deriving DecidableEq, Repr

/-- `PySlice::indices(length)`; `None` is a Python exception. -/
abbrev Indices := (s : Slice) → (length : Nat) → Option SliceIndices

def Normalises (indices : Indices) : Prop :=
  ∀ s : Slice, ∀ n, n < 2 ^ 63 → s.UnitStep →
    indices s n = some { start := s.first n, stop := s.last n, step := 1 }

/-- `_PyEval_SliceIndex`: a bound is moved into the range of `Py_ssize_t`. -/
def evalSliceIndex (x : Int) : Int := max (-2 ^ 63) (min x (2 ^ 63 - 1))

/-- `PySlice_AdjustIndices`, for each of the bounds. -/
def adjustIndex (step : Int) (length : Nat) (x : Int) : Int :=
  if x < 0 then
    if x + length < 0 then (if step < 0 then -1 else 0) else x + length
  else if x ≥ length then (if step < 0 then length - 1 else length)
  else x

/-- `PySlice_GetIndicesEx` -/
def getIndicesEx : Indices := fun s length =>
  let step := max (-(2 ^ 63 - 1)) (evalSliceIndex (s.step.getD 1))
  if step = 0 then none
  else
    let start := (s.start.map evalSliceIndex).getD
      (if step < 0 then 2 ^ 63 - 1 else 0)
    let stop := (s.stop.map evalSliceIndex).getD
      (if step < 0 then -2 ^ 63 else 2 ^ 63 - 1)
    some { start := adjustIndex step length start
           stop := adjustIndex step length stop
           step }

theorem adjustIndex_evalSliceIndex {n : Nat} (hn : n < 2 ^ 63) (x : Int) :
    adjustIndex 1 n (evalSliceIndex x) = clampTo n x := by
  unfold adjustIndex evalSliceIndex clampTo
  simp only [show ¬ (1 : Int) < 0 by decide, if_false]
  split_ifs <;> omega

theorem adjustIndex_max {n : Nat} (hn : n < 2 ^ 63) :
    adjustIndex 1 n (2 ^ 63 - 1) = clampTo n n := by
  unfold adjustIndex clampTo
  simp only [show ¬ (1 : Int) < 0 by decide, if_false]
  split_ifs <;> omega

theorem normalises_getIndicesEx : Normalises getIndicesEx := by
  intro s n hn hstep
  have hone : max (-(2 ^ 63 - 1)) (evalSliceIndex (s.step.getD 1)) = 1 := by
    rcases hstep with h | h <;> rw [h] <;> rfl
  have hstart : adjustIndex 1 n ((s.start.map evalSliceIndex).getD 0) = s.first n := by
    rw [show (0 : Int) = evalSliceIndex 0 from rfl, Option.getD_map,
      adjustIndex_evalSliceIndex hn]
    rfl
  have hstop : adjustIndex 1 n ((s.stop.map evalSliceIndex).getD (2 ^ 63 - 1)) =
      s.last n := by
    cases hs : s.stop with
    | none => simpa [Slice.last, hs] using adjustIndex_max hn
    | some x => simpa [Slice.last, hs] using adjustIndex_evalSliceIndex hn x
  simp only [getIndicesEx, hone, show ¬ (1 : Int) < 0 by decide, if_false,
    one_ne_zero, hstart, hstop]

end Hidefix.Python
