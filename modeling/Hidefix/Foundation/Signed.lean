import Hidefix.Foundation.Checked

/-!
# Signed words

An `i64`, which is also an `isize`, is an integer in its range.  A debug build panics
where an operation leaves the range, a release build wraps.  A cast to `u64` keeps the
bits, so that a negative value becomes a large one.
-/

namespace Hidefix.Foundation

variable {b : Build} {x y : Int}

def IsI64 (x : Int) : Prop := -2 ^ 63 ≤ x ∧ x < 2 ^ 63

instance (x : Int) : Decidable (IsI64 x) :=
  inferInstanceAs (Decidable (_ ∧ _))

def addI64 (b : Build) (x y : Int) : Exec Int :=
  if IsI64 (x + y) then .ok (x + y)
  else match b with
    | .debug => panicWith .overflow
    | .release => .ok ((x + y).bmod (2 ^ 64))

def subI64 (b : Build) (x y : Int) : Exec Int :=
  if IsI64 (x - y) then .ok (x - y)
  else match b with
    | .debug => panicWith .overflow
    | .release => .ok ((x - y).bmod (2 ^ 64))

def asU64 (x : Int) : Nat := (x % 2 ^ 64).toNat

theorem addI64_eq (h : IsI64 (x + y)) : addI64 b x y = .ok (x + y) := if_pos h

theorem subI64_eq (h : IsI64 (x - y)) : subI64 b x y = .ok (x - y) := if_pos h

theorem asU64_of_nonneg (h : 0 ≤ x) (hlt : x < 2 ^ 64) : asU64 x = x.toNat := by
  rw [asU64, Int.emod_eq_of_lt h hlt]

theorem asU64_of_neg (h : x < 0) (hle : -2 ^ 64 ≤ x) : asU64 x = (x + 2 ^ 64).toNat := by
  rw [asU64, ← Int.add_emod_right, Int.emod_eq_of_lt (by omega) (by omega)]

theorem asU64_sub_eq_iff {start stop : Nat} (hstart : start < 2 ^ 63)
    (hstop : stop < 2 ^ 63) :
    asU64 (stop - start) = stop - start ↔ start ≤ stop := by
  rcases Nat.lt_or_ge stop start with hlt | hle
  · rw [asU64_of_neg (by omega) (by omega)]
    omega
  · rw [asU64_of_nonneg (by omega) (by omega)]
    omega

end Hidefix.Foundation
