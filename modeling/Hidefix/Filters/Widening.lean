import Hidefix.Filters.Endianness

/-!
# Words of the external representation

Stored numbers become big-endian words of at least four bytes: small integers
are extended, with their sign if they have one, and all others keep their bits.
-/

namespace Hidefix.Filters

open Blocks
open Foundation
open Idx (Datatype)

def Endian.bits (E : Endian) (s : Nat) (word : Bytes) : BitVec (8 * s) :=
  BitVec.ofNat (8 * s) (E.decode word)

def extend (dtype : Datatype) {n : Nat} (m : Nat) (x : BitVec n) : BitVec m :=
  match dtype with
  | .int _ => x.signExtend m
  | _ => x.setWidth m

def IsNumeric : Datatype → Prop
  | .uint sz | .int sz => sz = 1 ∨ sz = 2 ∨ sz = 4 ∨ sz = 8
  | .float sz => sz = 4 ∨ sz = 8
  | .custom _ => False

/-- The `k` values become big-endian words of at least four bytes. -/
structure Widens (cast : ByteSliceCast) (host : Endian) (dtype : Datatype)
    (stored : Endian) (k : Nat) (src out : Bytes) : Prop where
  xdr_eq : xdr cast host src dtype (Order.native stored) = .ok out
  length_eq : out.length = k * max dtype.dsize 4
  bits_eq : (blocks (max dtype.dsize 4) k out).map
      (Endian.big.bits (max dtype.dsize 4)) =
    (blocks dtype.dsize k src).map fun word =>
      extend dtype (8 * max dtype.dsize 4) (stored.bits dtype.dsize word)

section Widening

variable {cast : ByteSliceCast} {host stored : Endian} {dtype : Datatype} {k : Nat}
  {src : Bytes}

@[simp] theorem extend_self {n : Nat} (x : BitVec n) : extend dtype n x = x := by
  cases dtype <;> simp [extend]

theorem widens_of_mapBlocks {f : Bytes → Bytes} (hpos : 0 < dtype.dsize)
    (h : src.length = k * dtype.dsize)
    (hxdr : xdr cast host src dtype (Order.native stored) =
      .ok (mapBlocks dtype.dsize f src))
    (hlen : ∀ word, word.length = dtype.dsize →
      (f word).length = max dtype.dsize 4)
    (hbits : ∀ word, word.length = dtype.dsize →
      Endian.big.bits (max dtype.dsize 4) (f word) =
        extend dtype (8 * max dtype.dsize 4) (stored.bits dtype.dsize word)) :
    ∃ out, Widens cast host dtype stored k src out := by
  have hblocks := blocks_mapBlocks hpos hlen h
  refine ⟨_, hxdr, ?_, ?_⟩
  · rw [mapBlocks_eq hpos h, List.length_flatMap]
    have hwords : ∀ word ∈ blocks dtype.dsize k src,
        (f word).length = max dtype.dsize 4 := by
      intro word hword
      exact hlen word (length_of_mem_blocks h hword)
    rw [List.map_congr_left hwords]
    simp
  · rw [hblocks, List.map_map]
    apply List.map_congr_left
    intro word hword
    exact hbits word (length_of_mem_blocks h hword)

/-! ## Values that keep their size -/

theorem toBigESized_eq {T : Scalar} (hT : T = .u32 ∨ T = .u64)
    (h : T.sizeOf ∣ src.length) :
    toBigESized cast host src (Order.native stored) T.sizeOf =
      .ok (mapBlocks T.sizeOf (if stored = .big then id else List.reverse) src) := by
  cases stored with
  | big => exact congrArg Except.ok (mapBlocks_id h).symm
  | little =>
      rcases hT with rfl | rfl
      · simp only [Order.native, toBigESized, Scalar.sizeOf, if_pos]
        rw [cast.ofVec_eq h]
        rfl
      · simp only [Order.native, toBigESized, Scalar.sizeOf, if_pos]
        rw [cast.ofVec_eq h]
        rfl

theorem bits_swapped (s : Nat) (word : Bytes) :
    Endian.big.bits s ((if stored = .big then id else List.reverse) word) =
      stored.bits s word := by
  unfold Endian.bits
  cases stored with
  | big => rfl
  | little => exact congrArg _ (Endian.decode_reverse (by decide) word)

theorem widens_sized {T : Scalar} (hT : T = .u32 ∨ T = .u64)
    (hdsz : dtype.dsize = T.sizeOf)
    (hxdr : xdr cast host src dtype (Order.native stored) =
      toBigESized cast host src (Order.native stored) T.sizeOf)
    (h : src.length = k * dtype.dsize) :
    ∃ out, Widens cast host dtype stored k src out := by
  have hmax : max dtype.dsize 4 = dtype.dsize := by
    rw [hdsz]
    rcases hT with rfl | rfl <;> rfl
  have hdvd : T.sizeOf ∣ src.length := ⟨k, by rw [h, hdsz, Nat.mul_comm]⟩
  apply widens_of_mapBlocks (f := if stored = .big then id else List.reverse)
  · rw [hdsz]
    exact T.sizeOf_pos
  · exact h
  · rw [hxdr, toBigESized_eq hT hdvd, hdsz]
  · intro word hword
    rw [hmax]
    cases stored <;> simp [hword]
  · rw [hmax]
    intro word _
    rw [bits_swapped, extend_self]

/-! ## Casts -/

theorem decode_nativeValue {S : Scalar} (hS : S.isFloat = false) {word : Bytes}
    (hword : word.length = S.sizeOf) :
    host.decode (nativeValue host S (Order.native stored) word) =
      stored.decode word := by
  unfold nativeValue
  split
  · rename_i heq
    rw [native_eq_native.mp heq]
  · rename_i hne
    rw [swap_reverse (.inr hS) hword]
    apply Endian.decode_reverse
    rintro rfl
    exact hne rfl

theorem decode_toBigEValue {D : Scalar} (hD : D.isFloat = false) {word : Bytes}
    (hword : word.length = D.sizeOf) :
    Endian.big.decode (toBigEValue host D (Order.native host) word) =
      host.decode word := by
  cases host with
  | big => rfl
  | little =>
      rw [Order.native, toBigEValue, swap_reverse (.inr hD) hword]
      exact Endian.decode_reverse (by decide) word

theorem decode_castTo {S D : Scalar} (hS : S.isFloat = false)
    (hD : D.isFloat = false) {word : Bytes} (hword : word.length = S.sizeOf) :
    Endian.big.decode (castTo host S D (Order.native stored) word) =
      (S.value stored word % (256 ^ D.sizeOf : Nat)).toNat := by
  have hpos : (0 : Int) < (256 ^ D.sizeOf : Nat) := by positivity
  have hlt : (S.value stored word % (256 ^ D.sizeOf : Nat)).toNat <
      256 ^ D.sizeOf := by
    have hnonneg := Int.emod_nonneg (S.value stored word) hpos.ne'
    have hbelow := Int.emod_lt_of_pos (S.value stored word) hpos
    omega
  rw [castTo, decode_toBigEValue hD (by simp), intoWord,
    value_congr (decode_nativeValue hS hword)]
  exact Endian.decode_encode host hlt

theorem bits_castTo {S D : Scalar} (hS : S.isFloat = false)
    (hD : D.isFloat = false) {word : Bytes} (hword : word.length = S.sizeOf) :
    Endian.big.bits D.sizeOf (castTo host S D (Order.native stored) word) =
      BitVec.ofInt (8 * D.sizeOf) (S.value stored word) := by
  have hpow : 256 ^ D.sizeOf = 2 ^ (8 * D.sizeOf) := by
    rw [Nat.pow_mul]
  apply BitVec.eq_of_toNat_eq
  rw [Endian.bits, decode_castTo hS hD hword, BitVec.toNat_ofInt, hpow,
    BitVec.toNat_ofNat]
  apply Nat.mod_eq_of_lt
  have hpos : (0 : Int) < (2 ^ (8 * D.sizeOf) : Nat) := by positivity
  have hnonneg := Int.emod_nonneg (S.value stored word) hpos.ne'
  have hbelow := Int.emod_lt_of_pos (S.value stored word) hpos
  omega

theorem value_unsigned {S : Scalar} (hS : S = .u8 ∨ S = .u16) {m : Nat}
    {word : Bytes} (hword : word.length = S.sizeOf) :
    BitVec.ofInt m (S.value stored word) = (stored.bits S.sizeOf word).setWidth m := by
  have hlt : stored.decode word < 2 ^ (8 * S.sizeOf) := by
    rw [Nat.pow_mul, ← hword]
    exact stored.decode_lt word
  have hvalue : S.value stored word = (stored.decode word : Int) := by
    rcases hS with rfl | rfl <;> rfl
  apply BitVec.eq_of_toNat_eq
  rw [hvalue, BitVec.toNat_setWidth, Endian.bits, BitVec.toNat_ofNat,
    Nat.mod_eq_of_lt hlt, BitVec.toNat_ofInt]
  rfl

theorem value_signed {S : Scalar} (hS : S = .i8 ∨ S = .i16) {m : Nat}
    {word : Bytes} :
    BitVec.ofInt m (S.value stored word) =
      (stored.bits S.sizeOf word).signExtend m := by
  rw [BitVec.signExtend, Endian.bits, BitVec.toInt_ofNat']
  rcases hS with rfl | rfl <;> rfl

theorem widens_cast {S D : Scalar} (hS : S.isFloat = false) (hD : D.isFloat = false)
    (hdsz : dtype.dsize = S.sizeOf) (hscale : D.sizeOf / S.sizeOf > 1)
    (hmax : max S.sizeOf 4 = D.sizeOf)
    (hxdr : xdr cast host src dtype (Order.native stored) =
      xdrCastSlice cast host S D src (Order.native stored))
    (hvalue : ∀ word : Bytes, word.length = S.sizeOf →
      BitVec.ofInt (8 * D.sizeOf) (S.value stored word) =
        extend dtype (8 * D.sizeOf) (stored.bits S.sizeOf word))
    (h : src.length = k * dtype.dsize) :
    ∃ out, Widens cast host dtype stored k src out := by
  have hdvd : S.sizeOf ∣ src.length := ⟨k, by rw [h, hdsz, Nat.mul_comm]⟩
  apply widens_of_mapBlocks (f := castTo host S D (Order.native stored))
  · rw [hdsz]
    exact S.sizeOf_pos
  · exact h
  · rw [hxdr, xdrCastSlice_eq native_known hscale hdvd, hdsz]
  · intro word _
    rw [length_castTo, hdsz, hmax]
  · rw [hdsz, hmax]
    intro word hword
    rw [bits_castTo hS hD hword, hvalue word hword]

end Widening

/--
On either kind of host, `xdr` makes big-endian words of stored numbers: integers
are extended to four bytes, all others keep their bits.
-/
theorem xdr_widens (cast : ByteSliceCast) (host stored : Endian) {dtype : Datatype}
    (hdtype : IsNumeric dtype) {k : Nat} {src : Bytes} (h : src.length = k * dtype.dsize) :
    ∃ out, Widens cast host dtype stored k src out := by
  cases dtype with
  | uint sz =>
      rcases hdtype with rfl | rfl | rfl | rfl
      · exact widens_cast (S := .u8) (D := .u32) rfl rfl rfl (by decide) rfl rfl
          (fun word hword => value_unsigned (.inl rfl) hword) h
      · exact widens_cast (S := .u16) (D := .u32) rfl rfl rfl (by decide) rfl rfl
          (fun word hword => value_unsigned (.inr rfl) hword) h
      · exact widens_sized (T := .u32) (.inl rfl) rfl rfl h
      · exact widens_sized (T := .u64) (.inr rfl) rfl rfl h
  | int sz =>
      rcases hdtype with rfl | rfl | rfl | rfl
      · exact widens_cast (S := .i8) (D := .i32) rfl rfl rfl (by decide) rfl rfl
          (fun word _ => value_signed (.inl rfl)) h
      · exact widens_cast (S := .i16) (D := .i32) rfl rfl rfl (by decide) rfl rfl
          (fun word _ => value_signed (.inr rfl)) h
      · exact widens_sized (T := .u32) (.inl rfl) rfl rfl h
      · exact widens_sized (T := .u64) (.inr rfl) rfl rfl h
  | float sz =>
      rcases hdtype with rfl | rfl
      · exact widens_sized (T := .u32) (.inl rfl) rfl rfl h
      · exact widens_sized (T := .u64) (.inr rfl) rfl rfl h
  | custom sz => exact absurd hdtype id

theorem xdr_widens_negative :
    ∃ out, Widens byteSliceCast .little (.int 2) .big 1 [0xff, 0xfe] out :=
  have hnumeric : IsNumeric (.int 2) := Or.inr (Or.inl rfl)
  xdr_widens byteSliceCast .little .big hnumeric rfl

end Hidefix.Filters
