import Hidefix.Foundation.Blocks
import Hidefix.Foundation.Checked

/-!
# Shuffle filter

The first bytes of all values come first, then their second bytes, and so on.
-/

namespace Hidefix.Filters

open Blocks
open Foundation

def shuffle (wsz : Nat) (src : Bytes) : Bytes :=
  let sz := src.length / wsz
  table wsz sz fun i j => src.getD (j * wsz + i) 0

/-- Inverse of `shuffle` for the word size `N`. -/
def unshuffleStructured (N : Nat) (src : Bytes) : Exec Bytes := do
  assertThat (src.length % N = 0)
  let n := src.length / N
  .ok (table n N fun j i => src.getD (i * n + j) 0)

def unshuffleSized (src : Bytes) (sz : Nat) : Exec Bytes :=
  match sz with
  | 1 => .ok src
  | 2 => unshuffleStructured 2 src
  | 4 => unshuffleStructured 4 src
  | 8 => unshuffleStructured 8 src
  | _ => panicWith .unimplemented

theorem length_shuffle {wsz n : Nat} {src : Bytes}
    (h : src.length = n * wsz) (hpos : 0 < wsz) :
    (shuffle wsz src).length = n * wsz := by
  rw [shuffle, length_table, h, Nat.mul_div_cancel _ hpos, Nat.mul_comm]

theorem unshuffleStructured_shuffle {N n : Nat} {src : Bytes} (hpos : 0 < N)
    (h : src.length = n * N) :
    unshuffleStructured N (shuffle N src) = .ok src := by
  have hlen := length_shuffle h hpos
  have hdiv : n * N / N = n := Nat.mul_div_cancel _ hpos
  have htable : (table n N fun j i => (shuffle N src).getD (i * n + j) 0) =
      table n N fun j i => src.getD (j * N + i) 0 := by
    refine List.flatMap_congr fun j hj => List.map_congr_left fun i hi => ?_
    rw [List.mem_range] at hj hi
    change (shuffle N src).getD (i * n + j) 0 = src.getD (j * N + i) 0
    rw [shuffle, h, hdiv, List.getD_eq_getElem?_getD, getElem?_table _ hi hj]
    rfl
  unfold unshuffleStructured
  dsimp only
  rw [hlen, assertThat_of (Nat.mul_mod_left _ _), ok_bind, hdiv, htable,
    table_getD 0 h]

theorem shuffle_single {wsz : Nat} {src : Bytes} (hpos : 0 < wsz)
    (h : src.length = wsz) : shuffle wsz src = src := by
  have hdiv : src.length / wsz = 1 := by rw [h, Nat.div_self hpos]
  have htable : (table wsz 1 fun i j => src.getD (j * wsz + i) 0) =
      table wsz 1 fun i j => src.getD (i * 1 + j) 0 := by
    refine List.flatMap_congr fun i _ => List.map_congr_left fun j hj => ?_
    obtain rfl : j = 0 := by simpa using hj
    simp
  unfold shuffle
  dsimp only
  rw [hdiv, htable, table_getD 0 (by rw [h, Nat.mul_one])]

theorem shuffle_one (src : Bytes) : shuffle 1 src = src := by
  have hrow : (fun i j => src.getD (j * 1 + i) 0) = fun i j =>
      src.getD (j + i) (0 : UInt8) := by simp
  have hmap : (List.range src.length).map (fun j => src.getD j 0) = src := by
    have hrow := table_getD (a := 1) (b := src.length) (0 : UInt8)
      (Nat.one_mul src.length).symm
    simpa [table] using hrow
  simpa [shuffle, table, hrow] using hmap

theorem shuffle_getElem?_zero {wsz n : Nat} {src : Bytes} (hpos : 0 < wsz)
    (hn : src.length / wsz = n) (hlt : 0 < n) :
    (shuffle wsz src)[0]? = src[0]? := by
  have hsrc : 0 < src.length := Nat.pos_of_div_pos (hn ▸ hlt)
  have := getElem?_table (fun i j => src.getD (j * wsz + i) 0) hpos hlt
  rw [Nat.zero_mul, Nat.zero_add] at this
  unfold shuffle
  dsimp only
  rw [hn, this, Nat.zero_mul, Nat.zero_add, List.getD_eq_getElem?_getD,
    List.getElem?_eq_getElem hsrc]
  rfl

theorem unshuffleSized_getElem?_zero {sz n : Nat} {src out : Bytes}
    (h : src.length = n * sz) (hlt : 0 < n)
    (hok : unshuffleSized src sz = .ok out) : out[0]? = src[0]? := by
  have hstructured : ∀ N, 0 < N → src.length = n * N →
      unshuffleStructured N src = .ok out → out[0]? = src[0]? := by
    intro N hpos hlen hok
    have hsrc : 0 < src.length := hlen ▸ Nat.mul_pos hlt hpos
    unfold unshuffleStructured at hok
    rw [assertThat_of (by rw [hlen, Nat.mul_mod_left]), ok_bind] at hok
    cases hok
    have := getElem?_table (fun j i => src.getD (i * n + j) 0) hlt hpos
    rw [Nat.zero_mul, Nat.zero_add] at this
    rw [hlen, Nat.mul_div_cancel _ hpos, this, Nat.zero_mul, Nat.zero_add,
      List.getD_eq_getElem?_getD, List.getElem?_eq_getElem hsrc]
    rfl
  unfold unshuffleSized at hok
  split at hok
  · cases hok
    rfl
  · exact hstructured 2 (by decide) h hok
  · exact hstructured 4 (by decide) h hok
  · exact hstructured 8 (by decide) h hok
  · cases hok

theorem unshuffleSized_shuffle {sz n : Nat} {src : Bytes}
    (hsz : sz = 1 ∨ sz = 2 ∨ sz = 4 ∨ sz = 8) (h : src.length = n * sz) :
    unshuffleSized (shuffle sz src) sz = .ok src := by
  rcases hsz with rfl | rfl | rfl | rfl
  · rw [shuffle_one]
    rfl
  · exact unshuffleStructured_shuffle (by decide) h
  · exact unshuffleStructured_shuffle (by decide) h
  · exact unshuffleStructured_shuffle (by decide) h

end Hidefix.Filters
