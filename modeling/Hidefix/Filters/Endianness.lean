import Hidefix.Filters.Xdr

/-!
# Stored numbers on hosts of either endianness

A stored word is a number in the order of the file.  After a conversion it is to
be the same number in the order of the host, or big-endian.
-/

namespace Hidefix.Filters

open Blocks
open Foundation

/-! ## Numbers and words -/

section Numbers

variable {host stored : Endian}

@[simp] theorem Endian.length_encode (E : Endian) (wsz value : Nat) :
    (E.encode wsz value).length = wsz := by
  cases E <;> simp [Endian.encode]

theorem Endian.decode_encode (E : Endian) {wsz value : Nat}
    (h : value < 256 ^ wsz) : E.decode (E.encode wsz value) = value := by
  cases E <;> simp [Endian.decode, Endian.encode, LittleEndian.decode_encode h]

theorem Endian.encode_decode (E : Endian) (word : Bytes) :
    E.encode word.length (E.decode word) = word := by
  cases E with
  | little => exact LittleEndian.encode_decode word
  | big =>
      have h := LittleEndian.encode_decode word.reverse
      rw [List.length_reverse] at h
      simp [Endian.encode, Endian.decode, h]

theorem Endian.decode_lt (E : Endian) (word : Bytes) :
    E.decode word < 256 ^ word.length := by
  cases E with
  | little => exact LittleEndian.decode_lt word
  | big => simpa [Endian.decode] using LittleEndian.decode_lt word.reverse

theorem Endian.decode_reverse (h : host ≠ stored) (word : Bytes) :
    host.decode word.reverse = stored.decode word := by
  cases host <;> cases stored <;> simp_all [Endian.decode]

theorem Endian.encode_reverse (h : host ≠ stored) (wsz value : Nat) :
    (host.encode wsz value).reverse = stored.encode wsz value := by
  cases host <;> cases stored <;> simp_all [Endian.encode]

theorem native_eq_native : Order.native stored = Order.native host ↔ stored = host := by
  cases host <;> cases stored <;> simp [Order.native]

theorem native_known : Order.native stored ≠ .unknown := by
  cases stored <;> simp [Order.native]

end Numbers

/-! ## Swapping -/

def Scalar.isFloat : Scalar → Bool
  | .f32 | .f64 => true
  | _ => false

structure SwapsBytes (host : Endian) (T : Scalar) : Prop where
  reverse : ∀ n : Bytes, n.length = T.sizeOf → T.swap host n = n.reverse
  involutive : ∀ n : Bytes, n.length = T.sizeOf → T.swap host (T.swap host n) = n

section Swapping

variable {host stored : Endian} {T : Scalar}

theorem swap_reverse (h : host = .little ∨ T.isFloat = false) {n : Bytes}
    (hn : n.length = T.sizeOf) : T.swap host n = n.reverse := by
  have hsingle : n.length = 1 → n = n.reverse := by
    intro hone
    rcases List.length_eq_one_iff.mp hone with ⟨byte, rfl⟩
    rfl
  rcases h with rfl | hfloat
  · cases T <;> first | rfl | exact hsingle hn
  · cases T <;> first | rfl | exact hsingle hn | cases hfloat

theorem swap_float (hhost : host ≠ .little) (hfloat : T.isFloat ≠ false)
    (n : Bytes) : T.swap host n = n := by
  cases host <;> cases T <;> simp_all [Scalar.swap, toBe, Scalar.isFloat]

theorem swapsBytes_iff :
    SwapsBytes host T ↔ host = .little ∨ T.isFloat = false := by
  constructor
  · intro h
    by_contra hnot
    rw [not_or] at hnot
    have hswap := swap_float hnot.1 hnot.2
    -- A word that is not its own reverse.
    have hword : ∃ n : Bytes, n.length = T.sizeOf ∧ n.reverse ≠ n := by
      cases T <;> simp [Scalar.isFloat] at hnot
      · exact ⟨[0, 0, 0, 1], rfl, by decide⟩
      · exact ⟨[0, 0, 0, 0, 0, 0, 0, 1], rfl, by decide⟩
    rcases hword with ⟨n, hn, hne⟩
    apply hne
    rw [← h.reverse n hn, hswap]
  · intro h
    constructor
    · intro n hn
      exact swap_reverse h hn
    · intro n hn
      have hlen : n.reverse.length = T.sizeOf := by simpa using hn
      rw [swap_reverse h hn, swap_reverse h hlen, List.reverse_reverse]

/-! ## Slices -/

theorem toNative_native (values : Bytes) :
    toNative host T (Order.native stored) values =
      if host = stored then values else swapAll host T values := by
  cases host <;> cases stored <;> rfl

theorem toBigE_native (values : Bytes) :
    toBigE host T (Order.native stored) values =
      if stored = .big then values else swapAll host T values := by
  cases stored <;> rfl

theorem blocks_swapAll {values : Bytes} {k : Nat}
    (h : values.length = k * T.sizeOf) :
    blocks T.sizeOf k (swapAll host T values) =
      (blocks T.sizeOf k values).map (T.swap host) := by
  apply blocks_mapBlocks T.sizeOf_pos _ h
  intro block hblock
  rw [length_swap, hblock]

end Swapping

/--
The slice of `k` stored values is converted: to the same numbers in the order of
the host, and to their big-endian encodings.
-/
structure ConvertsOrder (host : Endian) (T : Scalar) (stored : Endian) (k : Nat)
    (values : Bytes) : Prop where
  native : (blocks T.sizeOf k (toNative host T (Order.native stored) values)).map
    (T.value host) = (blocks T.sizeOf k values).map (T.value stored)
  big : blocks T.sizeOf k (toBigE host T (Order.native stored) values) =
    (blocks T.sizeOf k values).map fun n => Endian.big.encode T.sizeOf (stored.decode n)
  length_native : (toNative host T (Order.native stored) values).length = values.length
  length_big : (toBigE host T (Order.native stored) values).length = values.length

section Slices

variable {host stored : Endian} {T : Scalar} {k : Nat} {values : Bytes}

theorem value_congr {word word' : Bytes} (h : host.decode word = stored.decode word') :
    T.value host word = T.value stored word' := by
  cases T <;> simp [Scalar.value, h]

theorem encode_big_decode {n : Bytes} (hn : n.length = T.sizeOf) :
    Endian.big.encode T.sizeOf (stored.decode n) =
      if stored = .big then n else n.reverse := by
  rw [← hn]
  cases stored with
  | big => exact Endian.encode_decode .big n
  | little =>
      have h := Endian.encode_decode .little n
      have hrev : (Endian.little.encode n.length (Endian.little.decode n)).reverse =
          Endian.big.encode n.length (Endian.little.decode n) :=
        Endian.encode_reverse (by decide) _ _
      rw [h] at hrev
      exact hrev.symm

theorem convertsOrder_of_swap (h : values.length = k * T.sizeOf)
    (hswap : stored = .big ∧ host = .big ∨
      ∀ n ∈ blocks T.sizeOf k values, T.swap host n = n.reverse) :
    ConvertsOrder host T stored k values := by
  have hdvd : T.sizeOf ∣ values.length := ⟨k, by rw [h, Nat.mul_comm]⟩
  have hlen : (swapAll host T values).length = values.length := length_swapAll hdvd
  have hwords : ∀ n ∈ blocks T.sizeOf k values, n.length = T.sizeOf :=
    fun n hn => length_of_mem_blocks h hn
  constructor
  · rw [toNative_native]
    split
    · subst stored
      rfl
    · rename_i hne
      rcases hswap with ⟨rfl, rfl⟩ | hswap
      · exact absurd rfl hne
      · rw [blocks_swapAll h, List.map_map]
        apply List.map_congr_left
        intro n hn
        apply value_congr
        rw [hswap n hn]
        exact Endian.decode_reverse hne n
  · rw [toBigE_native]
    split
    · rename_i hbig
      subst hbig
      conv_lhs => rw [← List.map_id (blocks T.sizeOf k values)]
      apply List.map_congr_left
      intro n hn
      rw [encode_big_decode (hwords n hn)]
      rfl
    · rename_i hne
      rcases hswap with ⟨rfl, rfl⟩ | hswap
      · exact absurd rfl hne
      · rw [blocks_swapAll h]
        apply List.map_congr_left
        intro n hn
        rw [encode_big_decode (hwords n hn), if_neg hne, hswap n hn]
  · rw [toNative_native]
    split
    · rfl
    · exact hlen
  · rw [toBigE_native]
    split
    · rfl
    · exact hlen

theorem convertsOrder_iff (h : values.length = k * T.sizeOf) :
    ConvertsOrder host T stored k values ↔ (host = .little ∨ T.isFloat = false) ∨
      stored = .big ∨ ∀ n ∈ blocks T.sizeOf k values, n.reverse = n := by
  by_cases hok : host = .little ∨ T.isFloat = false
  · apply iff_of_true _ (.inl hok)
    apply convertsOrder_of_swap h
    right
    intro n hn
    exact swap_reverse hok (length_of_mem_blocks h hn)
  · rw [not_or] at hok
    have hswap := swap_float hok.1 hok.2
    have hbig : host = .big := by
      cases host <;> simp_all
    constructor
    · intro hconv
      by_cases hstored : stored = .big
      · exact .inr (.inl hstored)
      · right
        right
        intro n hn
        have hmap := hconv.big
        rw [toBigE_native, if_neg hstored, blocks_swapAll h] at hmap
        have hword := List.map_inj_left.mp hmap n hn
        rw [hswap, encode_big_decode (length_of_mem_blocks h hn),
          if_neg hstored] at hword
        exact hword.symm
    · rintro (hfalse | hstored | hsame)
      · exact absurd hfalse (by simp [hok.1, hok.2])
      · exact convertsOrder_of_swap h (.inl ⟨hstored, hbig⟩)
      · apply convertsOrder_of_swap h
        right
        intro n hn
        rw [hswap, hsame n hn]

/--
Values are converted and swapped as the order says, except that floats are never
swapped on a big-endian host; there a slice is still converted where nothing is
to be swapped.
-/
theorem convertsOrder_and_swapsBytes_iff (h : values.length = k * T.sizeOf) :
    (ConvertsOrder host T stored k values ∧ SwapsBytes host T ↔
      host = .little ∨ T.isFloat = false) ∧
    (ConvertsOrder host T stored k values ↔ (host = .little ∨ T.isFloat = false) ∨
      stored = .big ∨ ∀ n ∈ blocks T.sizeOf k values, n.reverse = n) := by
  constructor
  · rw [swapsBytes_iff]
    constructor
    · intro hboth
      exact hboth.2
    · intro hok
      exact ⟨(convertsOrder_iff h).mpr (.inl hok), hok⟩
  · exact convertsOrder_iff h

theorem convertsOrder_and_swapsBytes_iff_one :
    ConvertsOrder .little .f32 .big 1 [0x3f, 0x80, 0, 0] ∧ SwapsBytes .little .f32 :=
  (convertsOrder_and_swapsBytes_iff rfl).1.mpr (.inl rfl)

/-- The number one, stored little-endian and read on a big-endian host. -/
theorem not_convertsOrder_float :
    ¬ ConvertsOrder .big .f32 .little 1 [0, 0, 0x80, 0x3f] := by
  intro h
  exact absurd h.native (by decide)

end Slices

end Hidefix.Filters
