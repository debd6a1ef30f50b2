import Mathlib.Algebra.Order.Ring.Nat
import Mathlib.Data.List.Basic
import Mathlib.Tactic.Common

/-!
# Lists of blocks and little-endian numbers

A list is read as consecutive blocks of one length.  A byte string of given
width is read as a number, its first byte the least significant.
-/

namespace Blocks

variable {α β : Type}

def blocks (n : Nat) : Nat → List α → List (List α)
  | 0, _ => []
  | k + 1, xs => xs.take n :: blocks n k (xs.drop n)

@[simp] theorem length_blocks (n k : Nat) (xs : List α) :
    (blocks n k xs).length = k := by
  induction k generalizing xs with
  | zero => rfl
  | succ k ih => simp [blocks, ih]

theorem length_of_mem_blocks {n k : Nat} {xs block : List α}
    (hlen : xs.length = k * n) (h : block ∈ blocks n k xs) :
    block.length = n := by
  induction k generalizing xs with
  | zero => cases h
  | succ k ih =>
      rw [Nat.succ_mul] at hlen
      rcases List.mem_cons.mp h with rfl | h
      · rw [List.length_take]
        omega
      · exact ih (by rw [List.length_drop]; omega) h

theorem flatten_blocks {n k : Nat} {xs : List α} (hlen : xs.length = k * n) :
    (blocks n k xs).flatten = xs := by
  induction k generalizing xs with
  | zero =>
      rw [Nat.zero_mul] at hlen
      simp [blocks, List.eq_nil_of_length_eq_zero hlen]
  | succ k ih =>
      rw [Nat.succ_mul] at hlen
      rw [blocks, List.flatten_cons, ih (by rw [List.length_drop]; omega),
        List.take_append_drop]

theorem blocks_cons {n k : Nat} {block xs : List α} (h : block.length = n) :
    blocks n (k + 1) (block ++ xs) = block :: blocks n k xs := by
  rw [blocks, List.take_left' h, List.drop_left' h]

theorem blocks_flatMap {n : Nat} {f : α → List β} (as : List α)
    (h : ∀ a, (f a).length = n) :
    blocks n as.length (as.flatMap f) = as.map f := by
  induction as with
  | nil => rfl
  | cons a as ih =>
      rw [List.flatMap_cons, List.length_cons, blocks_cons (h a), ih]
      rfl

theorem blocks_append {n j k : Nat} {xs ys : List α} (hlen : xs.length = j * n) :
    blocks n (j + k) (xs ++ ys) = blocks n j xs ++ blocks n k ys := by
  induction j generalizing xs with
  | zero =>
      rw [Nat.zero_mul] at hlen
      simp [blocks, List.eq_nil_of_length_eq_zero hlen]
  | succ j ih =>
      rw [Nat.succ_mul] at hlen
      have hle : n ≤ xs.length := by omega
      rw [show j + 1 + k = (j + k) + 1 by omega, blocks, blocks,
        List.take_append_of_le_length hle, List.drop_append_of_le_length hle,
        ih (by rw [List.length_drop]; omega)]
      rfl

theorem blocks_range {n k start : Nat} {xs : List α} :
    blocks n k ((xs.drop (start * n)).take (k * n)) =
      (List.range' start k).map fun i => (xs.drop (i * n)).take n := by
  induction k generalizing start with
  | zero => rfl
  | succ k ih =>
      have hnext : (xs.drop (start * n)).drop n = xs.drop ((start + 1) * n) := by
        rw [List.drop_drop, Nat.succ_mul]
      have hlen : (k + 1) * n - n = k * n := by
        rw [Nat.succ_mul, Nat.add_sub_cancel]
      have hle : n ≤ (k + 1) * n := Nat.le_mul_of_pos_left n (Nat.succ_pos k)
      rw [blocks, List.take_take, Nat.min_eq_left hle, List.drop_take, hlen, hnext, ih,
        List.range'_succ, List.map_cons]

theorem getElem?_blocks {n k i : Nat} {xs : List α} (h : i < k) :
    (blocks n k xs)[i]? = some ((xs.drop (i * n)).take n) := by
  induction k generalizing i xs with
  | zero => omega
  | succ k ih =>
      cases i with
      | zero => simp [blocks]
      | succ i =>
          have hnext : (xs.drop n).drop (i * n) = xs.drop ((i + 1) * n) := by
            rw [List.drop_drop, Nat.succ_mul, Nat.add_comm]
          simp [blocks, ih (Nat.lt_of_succ_lt_succ h), hnext]

theorem length_flatMap_const {n : Nat} {f : α → List β} (as : List α)
    (h : ∀ a, (f a).length = n) :
    (as.flatMap f).length = as.length * n := by
  induction as with
  | nil => simp
  | cons a as ih =>
      rw [List.flatMap_cons, List.length_append, h, ih, List.length_cons,
        Nat.succ_mul, Nat.add_comm]

/-! ## Maps of blocks -/

def mapBlocks (n : Nat) (f : List α → List β) (xs : List α) : List β :=
  (blocks n (xs.length / n) xs).flatMap f

@[simp] theorem mapBlocks_nil (n : Nat) (f : List α → List β) :
    mapBlocks n f [] = [] := by
  simp [mapBlocks, blocks]

theorem mapBlocks_eq {n k : Nat} {f : List α → List β} {xs : List α}
    (hn : 0 < n) (h : xs.length = k * n) :
    mapBlocks n f xs = (blocks n k xs).flatMap f := by
  rw [mapBlocks, h, Nat.mul_div_cancel _ hn]

theorem mapBlocks_append {n : Nat} {f : List α → List β} {xs ys : List α}
    (h : n ∣ xs.length) :
    mapBlocks n f (xs ++ ys) = mapBlocks n f xs ++ mapBlocks n f ys := by
  obtain ⟨k, hk⟩ := h
  rw [Nat.mul_comm] at hk
  rcases Nat.eq_zero_or_pos n with rfl | hpos
  · rw [List.eq_nil_of_length_eq_zero hk, mapBlocks_nil]
    rfl
  · have hcount : (xs ++ ys).length / n = k + ys.length / n := by
      rw [List.length_append, hk, Nat.add_comm, Nat.add_mul_div_right _ _ hpos,
        Nat.add_comm]
    rw [mapBlocks, hcount, blocks_append hk, List.flatMap_append,
      mapBlocks_eq hpos hk, mapBlocks]

theorem mapBlocks_flatten {n : Nat} {f : List α → List β}
    {pieces : List (List α)} (h : ∀ piece ∈ pieces, n ∣ piece.length) :
    mapBlocks n f pieces.flatten = (pieces.map (mapBlocks n f)).flatten := by
  induction pieces with
  | nil => exact mapBlocks_nil n f
  | cons piece pieces ih =>
      obtain ⟨hpiece, hpieces⟩ := List.forall_mem_cons.mp h
      rw [List.flatten_cons, mapBlocks_append hpiece, ih hpieces]
      rfl

theorem length_mapBlocks {n m : Nat} {f : List α → List β} {xs : List α}
    (hf : ∀ block, block.length = n → (f block).length = n * m)
    (h : n ∣ xs.length) : (mapBlocks n f xs).length = xs.length * m := by
  obtain ⟨k, hk⟩ := h
  rw [Nat.mul_comm] at hk
  rcases Nat.eq_zero_or_pos n with rfl | hpos
  · rw [List.eq_nil_of_length_eq_zero hk]
    simp
  · have himage : ∀ block ∈ blocks n k xs, (f block).length = n * m :=
      fun block hblock => hf block (length_of_mem_blocks hk hblock)
    rw [mapBlocks_eq hpos hk, List.length_flatMap, List.map_congr_left himage,
      List.map_const', List.sum_replicate_nat, length_blocks, hk,
      Nat.mul_assoc]

theorem blocks_mapBlocks {n m k : Nat} {f : List α → List β} {xs : List α}
    (hn : 0 < n) (hf : ∀ block, block.length = n → (f block).length = m)
    (h : xs.length = k * n) :
    blocks m k (mapBlocks n f xs) = (blocks n k xs).map f := by
  rw [mapBlocks_eq hn h]
  induction k generalizing xs with
  | zero => rfl
  | succ k ih =>
      rw [Nat.succ_mul] at h
      have hfirst : (xs.take n).length = n := by
        rw [List.length_take]
        omega
      have hsplit : blocks n (k + 1) xs = xs.take n :: blocks n k (xs.drop n) := rfl
      rw [hsplit, List.flatMap_cons, List.map_cons, blocks_cons (hf _ hfirst)]
      congr 1
      apply ih
      rw [List.length_drop]
      omega

theorem mapBlocks_id {n : Nat} {xs : List α} (h : n ∣ xs.length) :
    mapBlocks n id xs = xs := by
  rw [mapBlocks, List.flatMap_id]
  exact flatten_blocks (Nat.div_mul_cancel h).symm

theorem mapBlocks_one (xs : List α) : mapBlocks 1 id xs = xs :=
  mapBlocks_id (Nat.one_dvd _)

theorem mapBlocks_range {n m start stop : Nat} {f : List α → List β}
    {xs : List α} (hf : ∀ block, block.length = n → (f block).length = n * m)
    (hstart : n ∣ start) (hstop : n ∣ stop)
    (hle : start ≤ stop) (hin : stop ≤ xs.length) :
    ((mapBlocks n f xs).drop (start * m)).take (stop * m - start * m) =
      mapBlocks n f ((xs.drop start).take (stop - start)) := by
  have htake : (xs.take start).length = start := by
    rw [List.length_take]
    omega
  have hpiece : ((xs.drop start).take (stop - start)).length = stop - start := by
    rw [List.length_take, List.length_drop]
    omega
  have hsplit : xs = xs.take start ++
      ((xs.drop start).take (stop - start) ++
        (xs.drop start).drop (stop - start)) := by
    rw [List.take_append_drop, List.take_append_drop]
  have hdvd : n ∣ stop - start := Nat.dvd_sub hstop hstart
  have hmapped : mapBlocks n f xs = mapBlocks n f (xs.take start) ++
      (mapBlocks n f ((xs.drop start).take (stop - start)) ++
        mapBlocks n f ((xs.drop start).drop (stop - start))) := by
    conv_lhs => rw [hsplit]
    rw [mapBlocks_append (htake.symm ▸ hstart),
      mapBlocks_append (hpiece.symm ▸ hdvd)]
  rw [hmapped, List.drop_left' (by
      rw [length_mapBlocks hf (htake.symm ▸ hstart), htake]),
    List.take_left' (by
      rw [length_mapBlocks hf (hpiece.symm ▸ hdvd), hpiece, Nat.sub_mul])]

/-! ## Tables -/

def table (a b : Nat) (f : Nat → Nat → α) : List α :=
  (List.range a).flatMap fun i => (List.range b).map (f i)

@[simp] theorem length_table (a b : Nat) (f : Nat → Nat → α) :
    (table a b f).length = a * b := by
  rw [table, length_flatMap_const (n := b) _ fun i => by simp, List.length_range]

theorem getElem?_table {a b i j : Nat} (f : Nat → Nat → α) (hi : i < a)
    (hj : j < b) : (table a b f)[i * b + j]? = some (f i j) := by
  induction a with
  | zero => omega
  | succ a ih =>
      have hsplit : table (a + 1) b f = table a b f ++ (List.range b).map (f a) := by
        simp [table, List.range_succ]
      rw [hsplit]
      rcases Nat.lt_or_ge i a with hlt | hge
      · have hle : (i + 1) * b ≤ a * b := Nat.mul_le_mul_right _ hlt
        rw [Nat.succ_mul] at hle
        rw [List.getElem?_append_left (by rw [length_table]; omega), ih hlt]
      · obtain rfl : i = a := by omega
        rw [List.getElem?_append_right (by rw [length_table]; omega),
          length_table, Nat.add_sub_cancel_left]
        simp [hj]

theorem table_getD {a b : Nat} {xs : List α} (z : α) (h : xs.length = a * b) :
    table a b (fun i j => xs.getD (i * b + j) z) = xs := by
  refine List.ext_getElem? fun k => ?_
  rcases Nat.lt_or_ge k (a * b) with hlt | hge
  · have hb : 0 < b := Nat.pos_of_mul_pos_left (by omega : 0 < a * b)
    have hi : k / b < a := (Nat.div_lt_iff_lt_mul hb).mpr hlt
    have hk : k / b * b + k % b = k := Nat.div_add_mod' k b
    conv_lhs => rw [← hk]
    rw [getElem?_table _ hi (Nat.mod_lt _ hb), hk, List.getD_eq_getElem?_getD,
      List.getElem?_eq_getElem (by omega)]
    rfl
  · rw [List.getElem?_eq_none (by rw [length_table]; exact hge),
      List.getElem?_eq_none (by omega)]

end Blocks

namespace LittleEndian

def encode : (width value : Nat) → List UInt8
  | 0, _ => []
  | width + 1, value =>
      UInt8.ofNat (value % 256) :: encode width (value / 256)

def decode : List UInt8 → Nat
  | [] => 0
  | byte :: bytes => byte.toNat + 256 * decode bytes

@[simp] theorem length_encode (width value : Nat) :
    (encode width value).length = width := by
  induction width generalizing value with
  | zero => rfl
  | succ width ih => simp [encode, ih]

theorem decode_encode {width value : Nat} (h : value < 256 ^ width) :
    decode (encode width value) = value := by
  induction width generalizing value with
  | zero =>
      have hzero : value = 0 := by simpa using h
      rw [hzero]
      rfl
  | succ width ih =>
      have hdiv : value / 256 < 256 ^ width := by
        rw [Nat.div_lt_iff_lt_mul (by decide), ← Nat.pow_succ]
        exact h
      have hbyte : (UInt8.ofNat (value % 256)).toNat = value % 256 := by
        rw [UInt8.toNat_ofNat']
        exact Nat.mod_eq_of_lt (Nat.mod_lt _ (by decide))
      rw [encode, decode, ih hdiv, hbyte]
      exact Nat.mod_add_div value 256

theorem decode_lt (bytes : List UInt8) :
    decode bytes < 256 ^ bytes.length := by
  induction bytes with
  | nil => decide
  | cons byte bytes ih =>
      have hbyte : byte.toNat < 256 := byte.toNat_lt
      rw [decode, List.length_cons, Nat.pow_succ]
      omega

theorem encode_decode (bytes : List UInt8) :
    encode bytes.length (decode bytes) = bytes := by
  induction bytes with
  | nil => rfl
  | cons byte bytes ih =>
      have hbyte : byte.toNat < 256 := byte.toNat_lt
      have hmod : (byte.toNat + 256 * decode bytes) % 256 = byte.toNat := by
        omega
      have hdiv : (byte.toNat + 256 * decode bytes) / 256 = decode bytes := by
        omega
      rw [List.length_cons, decode, encode, hmod, hdiv, ih, UInt8.ofNat_toNat]

end LittleEndian
