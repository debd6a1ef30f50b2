import Hidefix.Filters.Shuffle
import Hidefix.Foundation.Buffer

/-!
# The loops of the shuffle filter

Shuffling and unshuffling copy single bytes between two buffers, at places that
are not checked.  The copies of a call are listed in the order of its loops, a
place in the destination with the place that is read.
-/

namespace Hidefix.Filters

open Blocks
open Foundation

def copyUnchecked (src dest : Bytes) (k l : Nat) : Exec Bytes :=
  match src[l]? with
  | some byte => if k < dest.length then .ok (dest.set k byte) else .error .outOfBuffer
  | none => .error .outOfBuffer

def copyAll (src dest : Bytes) (copies : List (Nat × Nat)) : Exec Bytes :=
  copies.foldlM (fun dest copy => copyUnchecked src dest copy.1 copy.2) dest

/-- `for i in 0..wsz { for j in 0..sz { dest[i * sz + j] = src[j * wsz + i] } }` -/
def shuffleCopies (wsz sz : Nat) : List (Nat × Nat) :=
  table wsz sz fun i j => (i * sz + j, j * wsz + i)

/-- `for i in 0..wsz { for j in 0..sz { dest[j * wsz + i] = src[i * sz + j] } }` -/
def unshuffleCopies (wsz sz : Nat) : List (Nat × Nat) :=
  table wsz sz fun i j => (j * wsz + i, i * sz + j)

namespace Plain

def shuffle (wsz : Nat) (src dest : Bytes) : Exec Bytes := do
  let sz := src.length / wsz
  assertThat (dest.length = src.length)
  copyAll src dest (shuffleCopies wsz sz)

def unshuffle (wsz : Nat) (src dest : Bytes) : Exec Bytes := do
  let sz := dest.length / wsz
  assertThat (dest.length = src.length)
  copyAll src dest (unshuffleCopies wsz sz)

end Plain

/-- `unshuffle_structured`; word `d` of the destination is at `j * N`. -/
def unshuffleWords (N : Nat) (src dest : Bytes) : Exec Bytes := do
  assertThat (src.length = dest.length)
  assertThat (src.length % N = 0)
  let n := src.length / N
  copyAll src dest (table n N fun j i => (j * N + i, i * n + j))

/-! ## What the copies do -/

theorem copyAll_eq_setAll {src dest : Bytes} {copies : List (Nat × Nat)}
    (h : ∀ copy ∈ copies, copy.1 < dest.length ∧ copy.2 < src.length) :
    copyAll src dest copies = .ok (Buffer.setAll dest
      (copies.map fun copy => (copy.1, src.getD copy.2 0))) := by
  induction copies generalizing dest with
  | nil => rfl
  | cons copy copies ih =>
      rw [List.forall_mem_cons] at h
      have hbyte : src[copy.2]? = some (src.getD copy.2 0) := by
        simp [h.1.2]
      have hcopy : copyUnchecked src dest copy.1 copy.2 =
          .ok (dest.set copy.1 (src.getD copy.2 0)) := by
        rw [copyUnchecked, hbyte]
        exact if_pos h.1.1
      have hrest : ∀ c ∈ copies,
          c.1 < (dest.set copy.1 (src.getD copy.2 0)).length ∧ c.2 < src.length := by
        simpa using h.2
      rw [copyAll, List.foldlM_cons, hcopy, ok_bind]
      exact ih hrest

theorem copyAll_eq {src dest xs : Bytes} {copies : List (Nat × Nat)}
    (hlen : xs.length = dest.length)
    (hsrc : ∀ copy ∈ copies, copy.2 < src.length)
    (hcopies : ∀ copy ∈ copies, xs[copy.1]? = some (src.getD copy.2 0))
    (hcover : ∀ k < dest.length, k ∈ copies.map Prod.fst) :
    copyAll src dest copies = .ok xs := by
  have hin : ∀ copy ∈ copies, copy.1 < dest.length ∧ copy.2 < src.length := by
    intro copy hmem
    constructor
    · rw [← hlen]
      exact (List.getElem?_eq_some_iff.mp (hcopies copy hmem)).1
    · exact hsrc copy hmem
  rw [copyAll_eq_setAll hin]
  congr 1
  apply Buffer.setAll_eq hlen
  · intro w hw
    rcases List.mem_map.mp hw with ⟨copy, hmem, rfl⟩
    exact hcopies copy hmem
  · simpa [List.map_map] using hcover

/-! ## Places in a table -/

theorem mem_table {α : Type} {a b : Nat} {f : Nat → Nat → α} {x : α} :
    x ∈ table a b f ↔ ∃ i < a, ∃ j < b, f i j = x := by
  simp [table]

theorem place_lt_table {a b i j : Nat} (hi : i < a) (hj : j < b) :
    i * b + j < a * b := by
  have hrow : (i + 1) * b ≤ a * b := Nat.mul_le_mul_right b hi
  rw [Nat.succ_mul] at hrow
  omega

theorem exists_place {a b k : Nat} (hk : k < a * b) :
    ∃ i < a, ∃ j < b, i * b + j = k := by
  have hb : 0 < b := Nat.pos_of_mul_pos_left (by omega : 0 < a * b)
  refine ⟨k / b, ?_, k % b, Nat.mod_lt k hb, Nat.div_add_mod' k b⟩
  exact (Nat.div_lt_iff_lt_mul hb).mpr hk

theorem perm_range {n : Nat} {places : List Nat} (hlen : places.length = n)
    (hcover : ∀ k < n, k ∈ places) : places.Perm (List.range n) := by
  have hsub : List.range n ⊆ places := by
    intro k hk
    exact hcover k (List.mem_range.mp hk)
  apply List.Perm.symm
  apply (List.subperm_of_subset List.nodup_range hsub).perm_of_length_le
  simp [hlen]

theorem shuffleCopies_cover {wsz sz k : Nat} (hk : k < sz * wsz) :
    k ∈ (shuffleCopies wsz sz).map Prod.fst := by
  rw [Nat.mul_comm] at hk
  rcases exists_place hk with ⟨i, hi, j, hj, rfl⟩
  rw [List.mem_map]
  exact ⟨(i * sz + j, j * wsz + i), mem_table.mpr ⟨i, hi, j, hj, rfl⟩, rfl⟩

theorem unshuffleCopies_cover {wsz sz k : Nat} (hk : k < sz * wsz) :
    k ∈ (unshuffleCopies wsz sz).map Prod.fst := by
  rcases exists_place hk with ⟨j, hj, i, hi, rfl⟩
  rw [List.mem_map]
  exact ⟨(j * wsz + i, i * sz + j), mem_table.mpr ⟨i, hi, j, hj, rfl⟩, rfl⟩

theorem shuffleCopies_lt {wsz sz : Nat} {copy : Nat × Nat}
    (h : copy ∈ shuffleCopies wsz sz) :
    copy.1 < sz * wsz ∧ copy.2 < sz * wsz := by
  rcases mem_table.mp h with ⟨i, hi, j, hj, rfl⟩
  constructor
  · rw [Nat.mul_comm sz wsz]
    exact place_lt_table hi hj
  · exact place_lt_table hj hi

theorem unshuffleCopies_lt {wsz sz : Nat} {copy : Nat × Nat}
    (h : copy ∈ unshuffleCopies wsz sz) :
    copy.1 < sz * wsz ∧ copy.2 < sz * wsz := by
  rcases mem_table.mp h with ⟨i, hi, j, hj, rfl⟩
  constructor
  · exact place_lt_table hj hi
  · rw [Nat.mul_comm sz wsz]
    exact place_lt_table hi hj

/-! ## What the loops compute -/

section Loops

variable {w n : Nat} {src dest : Bytes}

def unshuffled (w : Nat) (src : Bytes) : Bytes :=
  let n := src.length / w
  table n w fun j i => src.getD (i * n + j) 0

theorem length_unshuffled (hw : 0 < w) (h : src.length = n * w) :
    (unshuffled w src).length = n * w := by
  simp [unshuffled, h, Nat.mul_div_cancel _ hw]

theorem getElem?_unshuffled (hw : 0 < w) (h : src.length = n * w) {i j : Nat}
    (hi : i < w) (hj : j < n) :
    (unshuffled w src)[j * w + i]? = some (src.getD (i * n + j) 0) := by
  simp only [unshuffled, h, Nat.mul_div_cancel _ hw]
  rw [getElem?_table _ hj hi]

theorem getElem?_shuffle (hw : 0 < w) (h : src.length = n * w) {i j : Nat}
    (hi : i < w) (hj : j < n) :
    (shuffle w src)[i * n + j]? = some (src.getD (j * w + i) 0) := by
  simp only [shuffle, h, Nat.mul_div_cancel _ hw]
  rw [getElem?_table _ hi hj]

theorem Plain.shuffle_eq (hw : 0 < w) (h : src.length = n * w)
    (hdest : dest.length = n * w) :
    Plain.shuffle w src dest = .ok (Filters.shuffle w src) := by
  simp only [Plain.shuffle, h, hdest, assertThat_of, ok_bind,
    Nat.mul_div_cancel _ hw]
  apply copyAll_eq
  · rw [length_shuffle h hw, hdest]
  · intro copy hcopy
    rw [h]
    exact (shuffleCopies_lt hcopy).2
  · intro copy hcopy
    rcases mem_table.mp hcopy with ⟨i, hi, j, hj, rfl⟩
    exact getElem?_shuffle hw h hi hj
  · intro k hk
    exact shuffleCopies_cover (hdest ▸ hk)

theorem Plain.unshuffle_eq (hw : 0 < w) (h : src.length = n * w)
    (hdest : dest.length = n * w) :
    Plain.unshuffle w src dest = .ok (unshuffled w src) := by
  simp only [Plain.unshuffle, h, hdest, assertThat_of, ok_bind,
    Nat.mul_div_cancel _ hw]
  apply copyAll_eq
  · rw [length_unshuffled hw h, hdest]
  · intro copy hcopy
    rw [h]
    exact (unshuffleCopies_lt hcopy).2
  · intro copy hcopy
    rcases mem_table.mp hcopy with ⟨i, hi, j, hj, rfl⟩
    exact getElem?_unshuffled hw h hi hj
  · intro k hk
    exact unshuffleCopies_cover (hdest ▸ hk)

theorem unshuffleWords_eq (hdest : dest.length = src.length) :
    unshuffleWords w src dest = unshuffleStructured w src := by
  unfold unshuffleWords unshuffleStructured
  rw [assertThat_of hdest.symm, ok_bind]
  by_cases hmod : src.length % w = 0
  · have hsrc : src.length / w * w = src.length := Nat.div_mul_cancel
      (Nat.dvd_of_mod_eq_zero hmod)
    rw [assertThat_of hmod, ok_bind]
    apply copyAll_eq
    · rw [length_table, hsrc, hdest]
    · intro copy hcopy
      rcases mem_table.mp hcopy with ⟨j, hj, i, hi, rfl⟩
      have hplace := place_lt_table hi hj
      rw [Nat.mul_comm w, hsrc] at hplace
      exact hplace
    · intro copy hcopy
      rcases mem_table.mp hcopy with ⟨j, hj, i, hi, rfl⟩
      exact getElem?_table _ hj hi
    · intro k hk
      rw [hdest, ← hsrc] at hk
      rcases exists_place hk with ⟨j, hj, i, hi, rfl⟩
      rw [List.mem_map]
      exact ⟨_, mem_table.mpr ⟨j, hj, i, hi, rfl⟩, rfl⟩
  · simp [assertThat, hmod, panicWith]

theorem unshuffled_shuffle (hw : 0 < w) (h : src.length = n * w) :
    unshuffled w (shuffle w src) = src := by
  have hlen := length_shuffle h hw
  apply List.ext_getElem?
  intro k
  rcases Nat.lt_or_ge k (n * w) with hk | hk
  · rcases exists_place hk with ⟨j, hj, i, hi, rfl⟩
    rw [getElem?_unshuffled hw hlen hi hj, List.getD_eq_getElem?_getD,
      getElem?_shuffle hw h hi hj, List.getElem?_eq_getElem (by omega)]
    simp [h, hk]
  · rw [List.getElem?_eq_none (by rw [length_unshuffled hw hlen]; exact hk),
      List.getElem?_eq_none (by omega)]

theorem shuffle_unshuffled (hw : 0 < w) (h : src.length = n * w) :
    shuffle w (unshuffled w src) = src := by
  have hlen := length_unshuffled hw h
  apply List.ext_getElem?
  intro k
  rcases Nat.lt_or_ge k (w * n) with hk | hk
  · rcases exists_place hk with ⟨i, hi, j, hj, rfl⟩
    rw [Nat.mul_comm w n] at hk
    rw [getElem?_shuffle hw hlen hi hj, List.getD_eq_getElem?_getD,
      getElem?_unshuffled hw h hi hj, List.getElem?_eq_getElem (by omega)]
    simp [h, hk]
  · rw [Nat.mul_comm w n] at hk
    rw [List.getElem?_eq_none (by rw [length_shuffle hlen hw]; exact hk),
      List.getElem?_eq_none (by omega)]

end Loops

/-- Shuffling and unshuffling `n` values of `w` bytes undo each other. -/
theorem shuffle_unshuffle {w : Nat} (hw : 1 ≤ w) (n : Nat) :
    (∀ src dest back : Bytes, src.length = n * w → dest.length = n * w →
      back.length = n * w →
      (do Plain.unshuffle w (← Plain.shuffle w src dest) back) = .ok src ∧
      (do Plain.shuffle w (← Plain.unshuffle w src dest) back) = .ok src) ∧
    (∀ copy ∈ shuffleCopies w n ++ unshuffleCopies w n,
      copy.1 < n * w ∧ copy.2 < n * w) ∧
    ((shuffleCopies w n).map Prod.fst).Perm (List.range (n * w)) ∧
    ((unshuffleCopies w n).map Prod.fst).Perm (List.range (n * w)) := by
  refine ⟨?_, ?_, ?_, ?_⟩
  · intro src dest back hsrc hdest hback
    constructor
    · rw [Plain.shuffle_eq hw hsrc hdest, ok_bind,
        Plain.unshuffle_eq hw (length_shuffle hsrc hw) hback,
        unshuffled_shuffle hw hsrc]
    · rw [Plain.unshuffle_eq hw hsrc hdest, ok_bind,
        Plain.shuffle_eq hw (length_unshuffled hw hsrc) hback,
        shuffle_unshuffled hw hsrc]
  · intro copy hcopy
    rcases List.mem_append.mp hcopy with h | h
    · exact shuffleCopies_lt h
    · exact unshuffleCopies_lt h
  · apply perm_range
    · simp [shuffleCopies, Nat.mul_comm]
    · intro k hk
      exact shuffleCopies_cover hk
  · apply perm_range
    · simp [unshuffleCopies, Nat.mul_comm]
    · intro k hk
      exact unshuffleCopies_cover hk

theorem shuffle_unshuffle_pair :
    (do Plain.unshuffle 2 (← Plain.shuffle 2 [1, 2, 3, 4] [0, 0, 0, 0]) [9, 9, 9, 9]) =
      .ok [1, 2, 3, 4] :=
  ((shuffle_unshuffle (by decide) 2).1 [1, 2, 3, 4] _ _ rfl rfl rfl).1

/-! ## The fast path -/

/--
The fast path returns `dest`: every byte in its place in its value, and the same
as the plain loops leave in any buffer.
-/
structure Unshuffles (w : Nat) (src dest : Bytes) : Prop where
  returns : unshuffleSized src w = .ok dest
  length_eq : dest.length = src.length
  byte_eq : ∀ i < w, ∀ j < src.length / w,
    dest[j * w + i]? = src[i * (src.length / w) + j]?
  plain_eq : ∀ buf : Bytes, buf.length = src.length →
    Plain.unshuffle w src buf = .ok dest

theorem unshuffled_one (src : Bytes) : unshuffled 1 src = src := by
  have h := unshuffled_shuffle (w := 1) Nat.one_pos (Nat.mul_one src.length).symm
  rwa [shuffle_one] at h

theorem unshuffleStructured_eq {N : Nat} {src : Bytes} (h : N ∣ src.length) :
    unshuffleStructured N src = .ok (unshuffled N src) := by
  unfold unshuffleStructured
  rw [assertThat_of (Nat.mod_eq_zero_of_dvd h)]
  rfl

theorem unshuffleSized_eq {w : Nat} {src : Bytes}
    (hw : w = 1 ∨ w = 2 ∨ w = 4 ∨ w = 8) (h : w ∣ src.length) :
    unshuffleSized src w = .ok (unshuffled w src) := by
  rcases hw with rfl | rfl | rfl | rfl
  · rw [unshuffled_one]
    rfl
  · exact unshuffleStructured_eq h
  · exact unshuffleStructured_eq h
  · exact unshuffleStructured_eq h

theorem unshuffleSized_unimplemented {w : Nat} {src : Bytes}
    (hw : ¬ (w = 1 ∨ w = 2 ∨ w = 4 ∨ w = 8)) :
    unshuffleSized src w = panicWith .unimplemented := by
  unfold unshuffleSized
  split <;> simp_all

theorem unshuffles_iff {w : Nat} {src : Bytes} (hw : 1 ≤ w) (h : w ∣ src.length) :
    (∃ dest, Unshuffles w src dest) ↔ w = 1 ∨ w = 2 ∨ w = 4 ∨ w = 8 := by
  constructor
  · rintro ⟨dest, hdest⟩
    by_contra hnot
    have hreturns := hdest.returns
    rw [unshuffleSized_unimplemented hnot] at hreturns
    cases hreturns
  · intro hsz
    have hlen : src.length = src.length / w * w := (Nat.div_mul_cancel h).symm
    refine ⟨unshuffled w src, unshuffleSized_eq hsz h, ?_, ?_, ?_⟩
    · rw [length_unshuffled hw hlen, ← hlen]
    · intro i hi j hj
      have hplace : i * (src.length / w) + j < src.length := by
        have hlt := place_lt_table hi hj
        rwa [Nat.mul_comm w, ← hlen] at hlt
      rw [getElem?_unshuffled hw hlen hi hj]
      simp [hplace]
    · intro buf hbuf
      exact Plain.unshuffle_eq hw hlen (hbuf.trans hlen)

theorem unshuffles_iff_words :
    (∃ dest, Unshuffles 2 [1, 3, 2, 4] dest) ↔ 2 = 1 ∨ 2 = 2 ∨ 2 = 4 ∨ 2 = 8 :=
  unshuffles_iff (by decide) (by decide)

/-- Values of three bytes. -/
theorem not_unshuffles_three : ¬ ∃ dest, Unshuffles 3 [1, 2, 3] dest := by
  rintro ⟨dest, hdest⟩
  cases hdest.returns

end Hidefix.Filters
