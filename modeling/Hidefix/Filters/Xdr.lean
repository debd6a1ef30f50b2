import Hidefix.Idx.Dataset

/-!
# XDR

Values of a datatype are converted to the external data representation: small
integers are cast to words of 32 bits, and everything is big-endian.  Where the
conversion succeeds it converts value by value.
-/

namespace Hidefix.Filters

open Blocks
open Foundation
open Idx (Datatype)

def xdrFactor : Datatype → Exec Nat
  | .custom _ => .ok 1
  | dtype => if dtype.dsize < 4 then divU64 4 dtype.dsize else .ok 1

def Endian.decode : Endian → Bytes → Nat
  | .little, word => LittleEndian.decode word
  | .big, word => LittleEndian.decode word.reverse

def Endian.encode : Endian → (wsz value : Nat) → Bytes
  | .little, wsz, value => LittleEndian.encode wsz value
  | .big, wsz, value => (LittleEndian.encode wsz value).reverse

/-- The value of an integer, for types with a sign in two's complement. -/
def Scalar.value (host : Endian) (S : Scalar) (word : Bytes) : Int :=
  match S with
  | i8 | i16 | i32 | i64 => (host.decode word : Int).bmod (256 ^ S.sizeOf)
  | u8 | u16 | u32 | u64 | f32 | f64 => host.decode word

/-- `Into::<D>::into` for integers: the same value, as a word of the type. -/
def intoWord (host : Endian) (S D : Scalar) (word : Bytes) : Bytes :=
  host.encode D.sizeOf (S.value host word % (256 ^ D.sizeOf : Nat)).toNat

def castWord (host : Endian) (S D : Scalar) (order : Order) (s : Bytes) :
    Exec Bytes := do
  let s ← toNativeValue host S order s
  let d := intoWord host S D s
  .ok (toBigEValue host D (Order.native host) d)

def xdrCastSlice (cast : ByteSliceCast) (host : Endian) (S D : Scalar) (src : Bytes)
    (order : Order) : Exec Bytes := do
  let u ← cast.ofVec S src
  let scale := D.sizeOf / S.sizeOf
  assertThat (scale > 1)
  let n ← (blocks S.sizeOf (u.length / S.sizeOf) u).mapM (castWord host S D order)
  .ok n.flatten

def xdr (cast : ByteSliceCast) (host : Endian) (src : Bytes) (dtype : Datatype)
    (order : Order) : Exec Bytes :=
  match dtype with
  | .custom _ => .ok src
  | .uint 1 => xdrCastSlice cast host .u8 .u32 src order
  | .uint 2 => xdrCastSlice cast host .u16 .u32 src order
  | .int 1 => xdrCastSlice cast host .i8 .i32 src order
  | .int 2 => xdrCastSlice cast host .i16 .i32 src order
  | dtype => toBigESized cast host src order dtype.dsize

example : xdr byteSliceCast .little [0, 0, 254, 255] (.int 2) .le =
    .ok [0, 0, 0, 0, 255, 255, 255, 254] := by decide

example : xdr byteSliceCast .big [1, 0, 255, 254] (.uint 2) .be =
    .ok [0, 0, 1, 0, 0, 0, 255, 254] := by decide

/-! ## Value by value -/

/--
The conversion takes words of `width` bytes, one after the other, to words that
are `factor` times as long.
-/
structure Elementwise (cast : ByteSliceCast) (host : Endian) (dtype : Datatype)
    (order : Order) (width factor : Nat) (f : Bytes → Bytes) : Prop where
  width_dvd : width ∣ dtype.dsize
  length_word : ∀ word, word.length = width → (f word).length = width * factor
  xdr_eq : ∀ src, width ∣ src.length →
    xdr cast host src dtype order = .ok (mapBlocks width f src)

section Elementwise

variable {cast : ByteSliceCast} {host : Endian} {dtype : Datatype} {order : Order}

theorem Elementwise.length_eq {width factor : Nat} {f : Bytes → Bytes}
    {src out : Bytes} (hf : Elementwise cast host dtype order width factor f)
    (hdvd : width ∣ src.length) (h : xdr cast host src dtype order = .ok out) :
    out.length = src.length * factor := by
  rw [hf.xdr_eq src hdvd] at h
  cases h
  exact length_mapBlocks hf.length_word hdvd

@[simp] theorem length_intoWord (host : Endian) (S D : Scalar) (word : Bytes) :
    (intoWord host S D word).length = D.sizeOf := by
  cases host <;> simp [intoWord, Endian.encode]

def nativeValue (host : Endian) (T : Scalar) (order : Order) (n : Bytes) : Bytes :=
  if order = Order.native host then n else T.swap host n

theorem toNativeValue_eq (horder : order ≠ .unknown) (T : Scalar) (n : Bytes) :
    toNativeValue host T order n = .ok (nativeValue host T order n) := by
  cases host <;> cases order <;> first | rfl | exact absurd rfl horder

def castTo (host : Endian) (S D : Scalar) (order : Order) (s : Bytes) : Bytes :=
  toBigEValue host D (Order.native host)
    (intoWord host S D (nativeValue host S order s))

theorem length_castTo (S D : Scalar) (s : Bytes) :
    (castTo host S D order s).length = D.sizeOf := by
  rw [castTo, length_toBigEValue, length_intoWord]

theorem castWord_eq (horder : order ≠ .unknown) (S D : Scalar) (s : Bytes) :
    castWord host S D order s = .ok (castTo host S D order s) := by
  rw [castWord, toNativeValue_eq horder, ok_bind]
  rfl

theorem xdrCastSlice_eq (horder : order ≠ .unknown) {S D : Scalar}
    (hscale : D.sizeOf / S.sizeOf > 1) {src : Bytes}
    (hsrc : S.sizeOf ∣ src.length) :
    xdrCastSlice cast host S D src order =
      .ok (mapBlocks S.sizeOf (castTo host S D order) src) := by
  have hwords : (blocks S.sizeOf (src.length / S.sizeOf) src).mapM
      (castWord host S D order) = .ok ((blocks S.sizeOf
        (src.length / S.sizeOf) src).map (castTo host S D order)) :=
    mapM_ok _ _ _ fun s _ => castWord_eq horder S D s
  rw [xdrCastSlice, cast.ofVec_eq hsrc, ok_bind]
  dsimp only
  rw [assertThat_of hscale, ok_bind, hwords, ok_bind]
  rfl

theorem elementwise_cast (horder : order ≠ .unknown) {S D : Scalar} {factor : Nat}
    (hdvd : S.sizeOf ∣ dtype.dsize) (hscale : D.sizeOf / S.sizeOf > 1)
    (hfactor : S.sizeOf * factor = D.sizeOf)
    (h : ∀ src, xdr cast host src dtype order = xdrCastSlice cast host S D src order) :
    Elementwise cast host dtype order S.sizeOf factor (castTo host S D order) where
  width_dvd := hdvd
  length_word _ _ := by rw [length_castTo, hfactor]
  xdr_eq src hsrc := by rw [h, xdrCastSlice_eq horder hscale hsrc]

theorem elementwise_id (h : ∀ src, xdr cast host src dtype order = .ok src) :
    Elementwise cast host dtype order 1 1 id where
  width_dvd := Nat.one_dvd _
  length_word _ hword := hword
  xdr_eq src _ := by rw [h, mapBlocks_one]

theorem elementwise_swap {T : Scalar} (hdsz : dtype.dsize = T.sizeOf)
    (h : ∀ src, xdr cast host src dtype .le =
      (do .ok (toBigE host T .le (← cast.ofVec T src)))) :
    Elementwise cast host dtype .le T.sizeOf 1 (T.swap host) where
  width_dvd := dvd_of_eq hdsz.symm
  length_word word hword := by rw [length_swap, hword, Nat.mul_one]
  xdr_eq src hsrc := by
    rw [h, cast.ofVec_eq hsrc, ok_bind]
    rfl

theorem elementwise_sized {src out : Bytes}
    (heq : ∀ src, xdr cast host src dtype order = toBigESized cast host src order dtype.dsize)
    (h : xdr cast host src dtype order = .ok out) :
    ∃ width f, Elementwise cast host dtype order width 1 f := by
  by_cases hle : order = .le
  · subst hle
    rw [heq] at h
    unfold toBigESized at h
    rw [if_pos rfl] at h
    split at h <;> rename_i hdsz
    · exact ⟨1, id, elementwise_id fun src => by rw [heq, hdsz]; rfl⟩
    · exact ⟨2, _, elementwise_swap (T := .u16) hdsz fun src => by
        rw [heq, hdsz]; rfl⟩
    · exact ⟨4, _, elementwise_swap (T := .u32) hdsz fun src => by
        rw [heq, hdsz]; rfl⟩
    · exact ⟨8, _, elementwise_swap (T := .u64) hdsz fun src => by
        rw [heq, hdsz]; rfl⟩
    · cases h
  · refine ⟨1, id, elementwise_id fun src => ?_⟩
    rw [heq]
    exact if_neg hle

end Elementwise

/-! ## The factor -/

theorem xdrFactor_of_le {dtype : Datatype} (h : 3 ≤ dtype.dsize) :
    xdrFactor dtype = .ok 1 := by
  have hdiv : (if dtype.dsize < 4 then divU64 4 dtype.dsize else .ok 1) =
      Except.ok 1 := by
    split
    · rw [show dtype.dsize = 3 by omega]
      rfl
    · rfl
  cases dtype with
  | custom sz => rfl
  | uint sz => exact hdiv
  | int sz => exact hdiv
  | float sz => exact hdiv

theorem xdr_of_le {cast : ByteSliceCast} {host : Endian} {dtype : Datatype}
    {order : Order} (hcustom : ∀ sz, dtype ≠ .custom sz)
    (h : 3 ≤ dtype.dsize ∨ ∃ sz, dtype = .float sz) (src : Bytes) :
    xdr cast host src dtype order = toBigESized cast host src order dtype.dsize := by
  unfold xdr
  split
  · exact absurd rfl (hcustom _)
  all_goals simp_all [Datatype.dsize]

/--
Where values are converted, they become longer by the factor; the exceptions are
floats of one or two bytes.
-/
theorem xdr_elementwise {cast : ByteSliceCast} {host : Endian} {dtype : Datatype}
    {order : Order} {src out : Bytes} (horder : order ≠ .unknown) (hpos : 1 ≤ dtype.dsize)
    (hone : dtype ≠ .float 1) (htwo : dtype ≠ .float 2)
    (h : xdr cast host src dtype order = .ok out) :
    ∃ width factor f, xdrFactor dtype = .ok factor ∧
      Elementwise cast host dtype order width factor f := by
  have hsized : 3 ≤ dtype.dsize → (∀ sz, dtype ≠ .custom sz) →
      ∃ width factor f, xdrFactor dtype = .ok factor ∧
        Elementwise cast host dtype order width factor f := by
    intro hle hcustom
    obtain ⟨width, f, hf⟩ := elementwise_sized (xdr_of_le hcustom (.inl hle)) h
    exact ⟨width, 1, f, xdrFactor_of_le hle, hf⟩
  cases dtype with
  | custom sz => exact ⟨1, 1, id, rfl, elementwise_id fun _ => rfl⟩
  | uint sz =>
      have hsz : sz = 1 ∨ sz = 2 ∨ 3 ≤ sz := by
        have : 1 ≤ sz := hpos
        omega
      rcases hsz with rfl | rfl | hle
      · exact ⟨1, 4, _, rfl, elementwise_cast (S := .u8) (D := .u32) horder (by decide)
          (by decide) rfl fun _ => rfl⟩
      · exact ⟨2, 2, _, rfl, elementwise_cast (S := .u16) (D := .u32) horder (by decide)
          (by decide) rfl fun _ => rfl⟩
      · exact hsized hle nofun
  | int sz =>
      have hsz : sz = 1 ∨ sz = 2 ∨ 3 ≤ sz := by
        have : 1 ≤ sz := hpos
        omega
      rcases hsz with rfl | rfl | hle
      · exact ⟨1, 4, _, rfl, elementwise_cast (S := .i8) (D := .i32) horder (by decide)
          (by decide) rfl fun _ => rfl⟩
      · exact ⟨2, 2, _, rfl, elementwise_cast (S := .i16) (D := .i32) horder (by decide)
          (by decide) rfl fun _ => rfl⟩
      · exact hsized hle nofun
  | float sz =>
      have hle : 3 ≤ sz := by
        have : 1 ≤ sz := hpos
        have : sz ≠ 1 := by rintro rfl; exact hone rfl
        have : sz ≠ 2 := by rintro rfl; exact htwo rfl
        omega
      exact hsized hle nofun

/-! ## Lengths -/

def castFactor : Datatype → Nat
  | .uint 1 | .int 1 => 4
  | .uint 2 | .int 2 => 2
  | _ => 1

section Lengths

variable {cast : ByteSliceCast} {host : Endian} {order : Order} {src out : Bytes}

theorem length_castWord {S D : Scalar} {s d : Bytes}
    (h : castWord host S D order s = .ok d) : d.length = D.sizeOf := by
  obtain ⟨s', -, h⟩ := bind_eq_ok.mp h
  cases h
  rw [length_toBigEValue, length_intoWord]

theorem length_xdrCastSlice {S D : Scalar} {factor : Nat}
    (hfactor : S.sizeOf * factor = D.sizeOf)
    (h : xdrCastSlice cast host S D src order = .ok out) :
    out.length = src.length * factor := by
  obtain ⟨u, hu, hout⟩ := bind_eq_ok.mp h
  obtain ⟨rfl, hdvd⟩ := cast.ofVec_ok hu
  obtain ⟨_, -, hout⟩ := bind_eq_ok.mp hout
  obtain ⟨n, hn, hout⟩ := bind_eq_ok.mp hout
  cases hout
  have hlen : ∀ d ∈ n, d.length = D.sizeOf := by
    intro d hd
    obtain ⟨s, -, hs⟩ := (mapM_ok_mem hn).2 d hd
    exact length_castWord hs
  rw [List.length_flatten, List.map_congr_left hlen, List.map_const',
    List.sum_replicate_nat, ← (mapM_ok_forall₂ hn).length_eq, length_blocks, ← hfactor,
    ← Nat.mul_assoc, Nat.div_mul_cancel hdvd]

theorem length_toBigE {T : Scalar} (h : T.sizeOf ∣ src.length) :
    (toBigE host T order src).length = src.length := by
  cases order with
  | le => exact length_swapAll h
  | be => rfl
  | unknown => rfl

theorem length_toBigESized {dsz : Nat} (h : toBigESized cast host src order dsz = .ok out) :
    out.length = src.length := by
  have hslice : ∀ T : Scalar,
      (do .ok (toBigE host T order (← cast.ofVec T src)) : Exec Bytes) = .ok out →
        out.length = src.length := by
    intro T hT
    obtain ⟨u, hu, hout⟩ := bind_eq_ok.mp hT
    obtain ⟨rfl, hdvd⟩ := cast.ofVec_ok hu
    cases hout
    exact length_toBigE hdvd
  unfold toBigESized at h
  split at h
  · split at h
    · cases h
      rfl
    · exact hslice .u16 h
    · exact hslice .u32 h
    · exact hslice .u64 h
    · cases h
  · cases h
    rfl

theorem length_xdr {dtype : Datatype} (h : xdr cast host src dtype order = .ok out) :
    out.length = src.length * castFactor dtype := by
  unfold xdr at h
  split at h
  · cases h
    exact (Nat.mul_one _).symm
  · exact length_xdrCastSlice rfl h
  · exact length_xdrCastSlice rfl h
  · exact length_xdrCastSlice rfl h
  · exact length_xdrCastSlice rfl h
  · have hone : castFactor dtype = 1 := by
      unfold castFactor
      split <;> simp_all
    rw [hone, Nat.mul_one, length_toBigESized h]

end Lengths

end Hidefix.Filters
