import Mathlib.Algebra.BigOperators.Group.List.Basic
import Mathlib.Algebra.Order.BigOperators.GroupWithZero.List
import Mathlib.Data.List.Basic
import Mathlib.Data.List.Forall2
import Mathlib.Data.List.Nodup
import Mathlib.Tactic.Ring
import Mathlib.Tactic.Linarith

/-!
# Mixed-radix numbering of a box

A list of radices `ks` spans the box of digit lists `os` with `os[d] < ks[d]`.
The last digit varies fastest (row-major order).  `rank` numbers the box from
zero and `unrank` inverts it; `unrank` reduces every digit, so that it also
reads off the digits of a sum whose carries have not been propagated yet.
-/

namespace MixedRadix

abbrev InBox (ks os : List Nat) : Prop :=
  List.Forall₂ (fun o k => o < k) os ks

def rank : List Nat → List Nat → Nat
  | _ :: ks, o :: os => o * ks.prod + rank ks os
  | _, _ => 0

def unrank : List Nat → Nat → List Nat
  | [], _ => []
  | k :: ks, j => j / ks.prod % k :: unrank ks j

/-- All digit lists of the box, nested loops from the first digit to the last. -/
def rowMajor : List Nat → List (List Nat)
  | [] => [[]]
  | k :: ks => (List.range k).flatMap fun o => (rowMajor ks).map (o :: ·)

def strides : List Nat → List Nat
  | [] => []
  | _ :: ks => ks.prod :: strides ks

@[simp] theorem rank_nil (os : List Nat) : rank [] os = 0 := by
  cases os <;> rfl

@[simp] theorem rank_cons (k o : Nat) (ks os : List Nat) :
    rank (k :: ks) (o :: os) = o * ks.prod + rank ks os := rfl

@[simp] theorem unrank_nil (j : Nat) : unrank [] j = [] := rfl

@[simp] theorem unrank_cons (k : Nat) (ks : List Nat) (j : Nat) :
    unrank (k :: ks) j = j / ks.prod % k :: unrank ks j := rfl

@[simp] theorem length_unrank (ks : List Nat) (j : Nat) :
    (unrank ks j).length = ks.length := by
  induction ks with
  | nil => rfl
  | cons k ks ih => simp [ih]

@[simp] theorem length_strides (ks : List Nat) :
    (strides ks).length = ks.length := by
  induction ks with
  | nil => rfl
  | cons k ks ih => simp [strides, ih]

theorem InBox.length_eq {ks os : List Nat} (h : InBox ks os) :
    os.length = ks.length := List.Forall₂.length_eq h

theorem InBox.prod_pos {ks os : List Nat} (h : InBox ks os) :
    0 < ks.prod := by
  induction h with
  | nil => simp
  | cons ho _ ih =>
      rw [List.prod_cons]
      exact Nat.mul_pos (by omega) ih

theorem InBox.pos {ks os : List Nat} (h : InBox ks os) :
    ∀ k ∈ ks, 1 ≤ k := by
  induction h with
  | nil => simp
  | cons ho _ ih =>
      intro k hk
      rcases List.mem_cons.mp hk with rfl | hk
      · omega
      · exact ih k hk

theorem prod_pos_of_forall {ks : List Nat} (h : ∀ k ∈ ks, 1 ≤ k) :
    0 < ks.prod :=
  List.prod_pos fun k hk => h k hk

theorem rank_lt {ks os : List Nat} (h : InBox ks os) :
    rank ks os < ks.prod := by
  induction h with
  | nil => simp
  | @cons o k os ks ho _ ih =>
      rw [rank_cons, List.prod_cons]
      calc
        o * ks.prod + rank ks os < o * ks.prod + ks.prod := by omega
        _ = (o + 1) * ks.prod := by ring
        _ ≤ k * ks.prod := Nat.mul_le_mul_right _ ho

theorem unrank_inBox {ks : List Nat} (hpos : ∀ k ∈ ks, 1 ≤ k) (j : Nat) :
    InBox ks (unrank ks j) := by
  induction ks with
  | nil => exact .nil
  | cons k ks ih =>
      refine .cons (Nat.mod_lt _ (hpos k (by simp))) ?_
      exact ih fun x hx => hpos x (by simp [hx])

theorem rank_unrank (ks : List Nat) (j : Nat) :
    rank ks (unrank ks j) = j % ks.prod := by
  induction ks with
  | nil => simp [Nat.mod_one]
  | cons k ks ih =>
      rw [unrank_cons, rank_cons, ih, List.prod_cons, Nat.mul_comm k,
        Nat.mod_mul]
      ring

theorem unrank_append (ks ls : List Nat) (j : Nat) :
    unrank (ks ++ ls) j = unrank ks (j / ls.prod) ++ unrank ls j := by
  induction ks with
  | nil => rfl
  | cons k ks ih =>
      rw [List.cons_append, unrank_cons, unrank_cons, ih, List.prod_append,
        Nat.mul_comm, ← Nat.div_div_eq_div_mul, List.cons_append]

theorem unrank_add_mul (ks : List Nat) (a j : Nat) :
    unrank ks (a * ks.prod + j) = unrank ks j := by
  induction ks generalizing a with
  | nil => rfl
  | cons k ks ih =>
      have hsplit : a * (k :: ks).prod + j = a * k * ks.prod + j := by
        rw [List.prod_cons]
        ring
      rw [unrank_cons, unrank_cons, hsplit, ih (a * k)]
      congr 1
      rcases Nat.eq_zero_or_pos ks.prod with h0 | hpos
      · simp [h0]
      · rw [Nat.add_comm, Nat.add_mul_div_right _ _ hpos,
          Nat.add_mul_mod_self_right]

theorem unrank_rank {ks os : List Nat} (h : InBox ks os) :
    unrank ks (rank ks os) = os := by
  induction h with
  | nil => rfl
  | @cons o k os ks ho hos ih =>
      have hlt := rank_lt hos
      rw [rank_cons, unrank_cons, unrank_add_mul, ih]
      congr 1
      rw [Nat.add_comm, Nat.add_mul_div_right _ _ (InBox.prod_pos hos),
        Nat.div_eq_of_lt hlt, Nat.zero_add, Nat.mod_eq_of_lt ho]

theorem rank_injective {ks os ps : List Nat} (ho : InBox ks os)
    (hp : InBox ks ps) (h : rank ks os = rank ks ps) : os = ps := by
  rw [← unrank_rank ho, ← unrank_rank hp, h]

theorem unrank_zero (ks : List Nat) :
    unrank ks 0 = List.replicate ks.length 0 := by
  induction ks with
  | nil => rfl
  | cons k ks ih => simp [ih, List.replicate_succ]

@[simp] theorem rank_replicate_zero (ks : List Nat) (n : Nat) :
    rank ks (List.replicate n 0) = 0 := by
  induction ks generalizing n with
  | nil => simp
  | cons k ks ih => cases n <;> simp [List.replicate_succ, rank, ih]

theorem rank_map_pred {ks : List Nat} (hpos : ∀ k ∈ ks, 1 ≤ k) :
    rank ks (ks.map (· - 1)) + 1 = ks.prod := by
  induction ks with
  | nil => simp
  | cons k ks ih =>
      have htail := ih fun x hx => hpos x (by simp [hx])
      have hk : 1 ≤ k := hpos k (by simp)
      obtain ⟨m, rfl⟩ := Nat.exists_eq_add_of_le' hk
      rw [List.map_cons, rank_cons, List.prod_cons, Nat.add_assoc, htail,
        Nat.add_sub_cancel, Nat.succ_mul]

theorem unrank_pred_prod {ks : List Nat} (hpos : ∀ k ∈ ks, 1 ≤ k) :
    unrank ks (ks.prod - 1) = ks.map (· - 1) := by
  have hbox : InBox ks (ks.map (· - 1)) := by
    rw [InBox, List.forall₂_map_left_iff, List.forall₂_same]
    intro k hk
    have := hpos k hk
    omega
  rw [← rank_map_pred hpos, Nat.add_sub_cancel, unrank_rank hbox]

/-! ## The nested loops number the box -/

theorem rowMajor_eq (ks : List Nat) :
    rowMajor ks = (List.range ks.prod).map (unrank ks) := by
  induction ks with
  | nil => rfl
  | cons k ks ih =>
      have hrange : ∀ k, List.range (k * ks.prod) =
          (List.range k).flatMap fun o =>
            (List.range ks.prod).map (o * ks.prod + ·) := by
        intro k
        induction k with
        | zero => simp
        | succ k ihk =>
            rw [Nat.succ_mul, List.range_add, ihk, List.range_succ,
              List.flatMap_append]
            simp
      rw [rowMajor, ih, List.prod_cons, hrange, List.map_flatMap]
      refine List.flatMap_congr fun o ho => ?_
      rw [List.map_map, List.map_map]
      refine List.map_congr_left fun j hj => ?_
      have hj : j < ks.prod := List.mem_range.mp hj
      have hpos : 0 < ks.prod := by omega
      simp only [Function.comp_apply, unrank_cons]
      rw [unrank_add_mul, Nat.add_comm, Nat.add_mul_div_right _ _ hpos,
        Nat.div_eq_of_lt hj, Nat.zero_add,
        Nat.mod_eq_of_lt (List.mem_range.mp ho)]

@[simp] theorem length_rowMajor (ks : List Nat) :
    (rowMajor ks).length = ks.prod := by
  simp [rowMajor_eq]

theorem mem_rowMajor {ks os : List Nat} :
    os ∈ rowMajor ks ↔ InBox ks os := by
  induction ks generalizing os with
  | nil => cases os <;> simp [rowMajor, InBox]
  | cons k ks ih => cases os <;> simp [rowMajor, ih, InBox]

theorem rowMajor_nodup (ks : List Nat) : (rowMajor ks).Nodup := by
  rw [rowMajor_eq]
  refine List.Nodup.map_on (fun i hi j hj h => ?_) List.nodup_range
  have := congrArg (rank ks) h
  rwa [rank_unrank, rank_unrank, Nat.mod_eq_of_lt (List.mem_range.mp hi),
    Nat.mod_eq_of_lt (List.mem_range.mp hj)] at this

theorem getElem_rowMajor (ks : List Nat) (j : Nat)
    (h : j < (rowMajor ks).length) : (rowMajor ks)[j] = unrank ks j := by
  simp [rowMajor_eq]

/-- `rank` counts the digit lists that come earlier in row-major order. -/
theorem idxOf_rowMajor {ks os : List Nat} (h : InBox ks os) :
    (rowMajor ks).idxOf os = rank ks os := by
  have hlt : rank ks os < (rowMajor ks).length := by
    simpa using rank_lt h
  have hget : (rowMajor ks)[rank ks os] = os := by
    rw [getElem_rowMajor, unrank_rank h]
  conv_lhs => rw [← hget]
  exact (rowMajor_nodup ks).idxOf_getElem _ hlt

/-! ## Weights and order -/

theorem sum_mul_strides (ks os : List Nat) :
    (List.zipWith (· * ·) os (strides ks)).sum = rank ks os := by
  induction ks generalizing os with
  | nil => cases os <;> simp [strides]
  | cons k ks ih =>
      cases os with
      | nil => rfl
      | cons o os => simp [strides, ih]

theorem sum_mul_strides_mod {ks os : List Nat} {w : Nat} (h : InBox ks os)
    (hfit : ks.prod ≤ w) :
    (List.zipWith (· * ·) os ((strides ks).map (· % w))).sum = rank ks os := by
  induction h with
  | nil => rfl
  | @cons o k os ks ho hos ih =>
      rw [List.prod_cons] at hfit
      have htail : ks.prod ≤ w :=
        (Nat.le_mul_of_pos_left _ (Nat.zero_lt_of_lt ho)).trans hfit
      have hhead : o * (ks.prod % w) = o * ks.prod := by
        rcases Nat.eq_zero_or_pos o with rfl | hpos
        · rw [Nat.zero_mul, Nat.zero_mul]
        · have hlt : 1 * ks.prod < k * ks.prod :=
            Nat.mul_lt_mul_of_pos_right (by omega) (InBox.prod_pos hos)
          rw [Nat.mod_eq_of_lt (by omega)]
      rw [strides, List.map_cons, List.zipWith_cons_cons, List.sum_cons, hhead, ih htail,
        rank_cons]

theorem rank_lt_rank {ks os ps : List Nat} (ho : InBox ks os) (hp : InBox ks ps)
    (h : os < ps) : rank ks os < rank ks ps := by
  induction ho generalizing ps with
  | nil =>
      cases hp
      exact absurd h (List.lt_irrefl [])
  | @cons o k os ks ho hos ih =>
      cases hp with
      | @cons p _ ps _ hp hps =>
          rw [rank_cons, rank_cons]
          rcases List.cons_lt_cons_iff.mp h with hlt | ⟨rfl, htail⟩
          · have hle : (o + 1) * ks.prod ≤ p * ks.prod := Nat.mul_le_mul_right _ hlt
            have hlast := rank_lt hos
            rw [Nat.succ_mul] at hle
            omega
          · exact Nat.add_lt_add_left (ih hps htail) _

theorem compare_rank_cons {k o p : Nat} {ks os ps : List Nat}
    (ho : InBox ks os) (hp : InBox ks ps) :
    compare (rank (k :: ks) (o :: os)) (rank (k :: ks) (p :: ps)) =
      (compare o p).then (compare (rank ks os) (rank ks ps)) := by
  have hos := rank_lt ho
  have hps := rank_lt hp
  rw [rank_cons, rank_cons]
  rcases Nat.lt_trichotomy o p with h | rfl | h
  · have hle : (o + 1) * ks.prod ≤ p * ks.prod := Nat.mul_le_mul_right _ h
    rw [Nat.compare_eq_lt.mpr h, Nat.compare_eq_lt.mpr (by rw [Nat.succ_mul] at hle; omega)]
    rfl
  · rw [Nat.compare_eq_eq.mpr rfl]
    rcases Nat.lt_trichotomy (rank ks os) (rank ks ps) with h | h | h
    · rw [Nat.compare_eq_lt.mpr h, Nat.compare_eq_lt.mpr (by omega)]
      rfl
    · rw [Nat.compare_eq_eq.mpr h, Nat.compare_eq_eq.mpr (by omega)]
      rfl
    · rw [Nat.compare_eq_gt.mpr h, Nat.compare_eq_gt.mpr (by omega)]
      rfl
  · have hle : (p + 1) * ks.prod ≤ o * ks.prod := Nat.mul_le_mul_right _ h
    rw [Nat.compare_eq_gt.mpr h, Nat.compare_eq_gt.mpr (by rw [Nat.succ_mul] at hle; omega)]
    rfl

end MixedRadix
