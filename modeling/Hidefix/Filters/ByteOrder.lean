import Hidefix.Foundation.Blocks
import Hidefix.Foundation.Checked

/-!
# Byte orders of stored values

Values are words of bytes as they lie in memory.  What a word stands for depends
on the endianness of the target that the crate is compiled for.
-/

namespace Hidefix.Filters

open Blocks
open Foundation

inductive Endian where
  | little
  | big
  deriving DecidableEq, Repr

inductive Order where
  | be
  | le
  | unknown
  deriving DecidableEq, Repr

def Order.native : Endian → Order
  | .big => .be
  | .little => .le

/-- The types of values that have a `Swap`. -/
inductive Scalar where
  | u8
  | u16
  | u32
  | u64
  | i8
  | i16
  | i32
  | i64
  | f32
  | f64
  deriving DecidableEq, Repr

namespace Scalar

def sizeOf : Scalar → Nat
  | u8 | i8 => 1
  | u16 | i16 => 2
  | u32 | i32 | f32 => 4
  | u64 | i64 | f64 => 8

def alignOf (T : Scalar) : Nat := T.sizeOf

theorem sizeOf_pos (T : Scalar) : 0 < T.sizeOf := by
  cases T <;> decide

end Scalar

/-! ## Swapping one value -/

def swapBytes (n : Bytes) : Bytes := n.reverse

def toBe (host : Endian) (bits : Bytes) : Bytes :=
  match host with
  | .little => swapBytes bits
  | .big => bits

def Scalar.swap (host : Endian) (T : Scalar) (n : Bytes) : Bytes :=
  match T with
  | u8 | i8 => n
  | u16 | u32 | u64 | i16 | i32 | i64 => swapBytes n
  | f32 | f64 => toBe host n

/-- `to_native` of one value; `order` is the original order. -/
def toNativeValue (host : Endian) (T : Scalar) (order : Order) (n : Bytes) :
    Exec Bytes :=
  match host, order with
  | .big, .be => .ok n
  | .big, .le => .ok (T.swap host n)
  | .little, .be => .ok (T.swap host n)
  | .little, .le => .ok n
  | _, .unknown => panicWith .unimplemented

/-- `to_big_e` of one value; `order` is the original order. -/
def toBigEValue (host : Endian) (T : Scalar) (order : Order) (n : Bytes) : Bytes :=
  match order with
  | .be => n
  | .le => T.swap host n
  | .unknown => n

/-! ## Swapping slices -/

def swapAll (host : Endian) (T : Scalar) (values : Bytes) : Bytes :=
  mapBlocks T.sizeOf (T.swap host) values

def toNative (host : Endian) (T : Scalar) (order : Order) (values : Bytes) :
    Bytes :=
  match host, order with
  | .big, .be => values
  | .big, .le => swapAll host T values
  | .little, .be => swapAll host T values
  | .little, .le => values
  | _, .unknown => values

def toBigE (host : Endian) (T : Scalar) (order : Order) (values : Bytes) : Bytes :=
  match order with
  | .be => values
  | .le => swapAll host T values
  | .unknown => values

/--
`byte_slice_cast`: bytes in memory as a slice of values, where the address is aligned
for the type and the length is a multiple of its size.
-/
structure ByteSliceCast where
  asSliceOf : (T : Scalar) → (address : Nat) → Bytes → Exec Bytes
  asSliceOf_ok : ∀ {T address buf}, T.alignOf ∣ address → T.sizeOf ∣ buf.length →
    asSliceOf T address buf = .ok buf
  asSliceOf_err : ∀ {T address} buf, ¬ (T.alignOf ∣ address ∧ T.sizeOf ∣ buf.length) →
    ∃ message, asSliceOf T address buf = bail message

namespace ByteSliceCast

variable (cast : ByteSliceCast) {T : Scalar} {buf : Bytes}

/-- `as_mut_slice_of::<T>` of a `Vec`, whose buffer is aligned for every type. -/
def ofVec (T : Scalar) (buf : Bytes) : Exec Bytes := cast.asSliceOf T 0 buf

theorem ofVec_eq (h : T.sizeOf ∣ buf.length) : cast.ofVec T buf = .ok buf :=
  cast.asSliceOf_ok (Nat.dvd_zero _) h

theorem ofVec_ok {u : Bytes} (h : cast.ofVec T buf = .ok u) :
    u = buf ∧ T.sizeOf ∣ buf.length := by
  by_cases hdvd : T.sizeOf ∣ buf.length
  · rw [cast.ofVec_eq hdvd] at h
    exact ⟨(Except.ok.inj h).symm, hdvd⟩
  · obtain ⟨message, herr⟩ := cast.asSliceOf_err buf fun hcast => hdvd hcast.2
    cases h.symm.trans herr

end ByteSliceCast

def byteSliceCast : ByteSliceCast where
  asSliceOf T address buf :=
    if address % T.alignOf ≠ 0 then bail "the slice is not aligned for the type"
    else if buf.length % T.sizeOf ≠ 0 then bail "the length is not a multiple of the size"
    else .ok buf
  asSliceOf_ok halign hlen := by
    simp [Nat.mod_eq_zero_of_dvd halign, Nat.mod_eq_zero_of_dvd hlen]
  asSliceOf_err _ h := by
    simp only [Nat.dvd_iff_mod_eq_zero] at h
    split_ifs with halign hlen
    · exact ⟨_, rfl⟩
    · exact ⟨_, rfl⟩
    · exact absurd ⟨not_not.mp halign, not_not.mp hlen⟩ h

/--
Swap bytes of `buf` if necessary so that they are big-endian.  `dsz` is the size
of the data type.
-/
def toBigESized (cast : ByteSliceCast) (host : Endian) (buf : Bytes) (order : Order)
    (dsz : Nat) : Exec Bytes :=
  if order = .le then
    match dsz with
    | 1 => .ok buf
    | 2 => do .ok (toBigE host .u16 order (← cast.ofVec .u16 buf))
    | 4 => do .ok (toBigE host .u32 order (← cast.ofVec .u32 buf))
    | 8 => do .ok (toBigE host .u64 order (← cast.ofVec .u64 buf))
    | _ => panicWith .unimplemented
  else .ok buf

/-! ## Lengths -/

variable {host : Endian} {T : Scalar} {order : Order}

@[simp] theorem length_swap (host : Endian) (T : Scalar) (n : Bytes) :
    (T.swap host n).length = n.length := by
  cases T <;> cases host <;> simp [Scalar.swap, swapBytes, toBe]

@[simp] theorem swapAll_nil (host : Endian) (T : Scalar) :
    swapAll host T [] = [] :=
  mapBlocks_nil T.sizeOf (T.swap host)

theorem length_swapAll {values : Bytes} (h : T.sizeOf ∣ values.length) :
    (swapAll host T values).length = values.length := by
  have hswap : ∀ value : Bytes, value.length = T.sizeOf →
      (T.swap host value).length = T.sizeOf * 1 := by
    intro value hvalue
    rw [length_swap, hvalue, Nat.mul_one]
  rw [swapAll, length_mapBlocks hswap h, Nat.mul_one]

theorem length_toNative {values : Bytes} (h : T.sizeOf ∣ values.length) :
    (toNative host T order values).length = values.length := by
  have hswap : (swapAll host T values).length = values.length := length_swapAll h
  cases host <;> cases order <;> first | rfl | exact hswap

@[simp] theorem toNative_nil (host : Endian) (T : Scalar) (order : Order) :
    toNative host T order [] = [] := by
  cases host <;> cases order <;> simp [toNative]

@[simp] theorem length_toBigEValue (host : Endian) (T : Scalar) (order : Order)
    (n : Bytes) : (toBigEValue host T order n).length = n.length := by
  cases order
  · rfl
  · exact length_swap host T n
  · rfl

end Hidefix.Filters
