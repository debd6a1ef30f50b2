import Hidefix.Foundation.MixedRadix
import Mathlib.Data.Nat.Basic

/-!
# A selection laid over a grid of chunks

Each dimension has a size, a chunk edge and a selected interval.  A selected
position is given by its coordinates from the start of the selection.  This
file says which chunk a position falls in, where in the chunk it is stored, and
which positions in row-major order are stored next to each other.
-/

namespace Hidefix.Slices

open MixedRadix

structure Dim where
  size : Nat
  chunk : Nat
  start : Nat
  count : Nat
  deriving DecidableEq, Repr

namespace Dim

def InBounds (d : Dim) : Prop :=
  1 ≤ d.chunk ∧ 1 ≤ d.count ∧ d.start + d.count ≤ d.size

def cell (d : Dim) (o : Nat) : Nat := (d.start + o) / d.chunk

def within (d : Dim) (o : Nat) : Nat := (d.start + o) % d.chunk

/-- Layers of the chunk at `o` that lie inside the dataset. -/
def thick (d : Dim) (o : Nat) : Nat :=
  min d.chunk (d.size - d.cell o * d.chunk)

/-- Selected layers from `o` on that lie in the chunk at `o`. -/
def rows (d : Dim) (o : Nat) : Nat :=
  min (d.start + d.count) (d.cell o * d.chunk + d.chunk) - (d.start + o)

def Whole (d : Dim) : Prop := d.chunk ∣ d.start ∧ d.count = d.chunk

/-- The selection is the part of one chunk edge that lies in the dataset. -/
def Exact (d : Dim) : Prop :=
  d.chunk ∣ d.start ∧ d.count = min d.chunk (d.size - d.start)

instance (d : Dim) : Decidable d.Whole := instDecidableAnd
instance (d : Dim) : Decidable d.Exact := instDecidableAnd
instance (d : Dim) : Decidable d.InBounds := instDecidableAnd

variable {d : Dim} {o : Nat}

theorem cell_mul_add_within (d : Dim) (o : Nat) :
    d.cell o * d.chunk + d.within o = d.start + o :=
  Nat.div_add_mod' (d.start + o) d.chunk

theorem within_lt (h : 1 ≤ d.chunk) (o : Nat) : d.within o < d.chunk :=
  Nat.mod_lt _ h

theorem rows_pos (h : 1 ≤ d.chunk) (ho : o < d.count) : 1 ≤ d.rows o := by
  have hcell := d.cell_mul_add_within o
  have hlt := within_lt h o
  unfold rows
  omega

theorem add_rows_le (ho : o < d.count) : o + d.rows o ≤ d.count := by
  unfold rows
  omega

theorem cell_add {i : Nat} (hi : i < d.rows o) :
    d.cell (o + i) = d.cell o := by
  have hcell := d.cell_mul_add_within o
  have hlo : d.cell o * d.chunk ≤ d.start + (o + i) := by omega
  have hhi : d.start + (o + i) < (d.cell o + 1) * d.chunk := by
    unfold rows at hi
    rw [Nat.succ_mul]
    omega
  exact Nat.div_eq_of_lt_le hlo hhi

theorem within_add {i : Nat} (hi : i < d.rows o) :
    d.within (o + i) = d.within o + i := by
  have hnext := d.cell_mul_add_within (o + i)
  have hcell := d.cell_mul_add_within o
  rw [cell_add hi] at hnext
  omega

theorem add_rows_eq (h : 1 ≤ d.chunk) (hlt : o + d.rows o < d.count) :
    d.start + (o + d.rows o) = (d.cell o + 1) * d.chunk := by
  have hcell := d.cell_mul_add_within o
  have hwithin := within_lt h o
  rw [Nat.succ_mul]
  unfold rows at hlt ⊢
  omega

theorem dvd_add_rows (h : 1 ≤ d.chunk) (hlt : o + d.rows o < d.count) :
    d.chunk ∣ d.start + (o + d.rows o) :=
  ⟨d.cell o + 1, by rw [add_rows_eq h hlt, Nat.mul_comm]⟩

theorem cell_add_rows (h : 1 ≤ d.chunk) (hlt : o + d.rows o < d.count) :
    d.cell (o + d.rows o) = d.cell o + 1 := by
  unfold cell
  rw [add_rows_eq h hlt, Nat.mul_div_cancel _ h]
  rfl

theorem not_dvd_add {i : Nat} (hpos : 0 < i) (hi : i < d.rows o) :
    ¬ d.chunk ∣ d.start + (o + i) := by
  intro hdvd
  have hzero : d.within (o + i) = 0 := Nat.mod_eq_zero_of_dvd hdvd
  rw [within_add hi] at hzero
  omega

theorem Whole.within_eq (hw : d.Whole) (ho : o < d.count) :
    d.within o = o := by
  obtain ⟨⟨q, hq⟩, hcount⟩ := hw
  unfold within
  rw [hq, Nat.mul_add_mod, Nat.mod_eq_of_lt (hcount ▸ ho)]

theorem Whole.cell_eq (hw : d.Whole) (h : 1 ≤ d.chunk) (ho : o < d.count) :
    d.cell o = d.cell 0 := by
  obtain ⟨⟨q, hq⟩, hcount⟩ := hw
  unfold cell
  rw [hq, Nat.mul_add_div h, Nat.mul_add_div h, Nat.div_eq_of_lt (hcount ▸ ho),
    Nat.zero_div]

end Dim

/-! ## Positions of the selection -/

def counts (ds : List Dim) : List Nat := ds.map Dim.count

def chunkShape (ds : List Dim) : List Nat := ds.map Dim.chunk

def cells (ds : List Dim) (os : List Nat) : List Nat :=
  List.zipWith Dim.cell ds os

def withins (ds : List Dim) (os : List Nat) : List Nat :=
  List.zipWith Dim.within ds os

/-- Where in its chunk a position is stored. -/
def place (ds : List Dim) (os : List Nat) : Nat :=
  rank (chunkShape ds) (withins ds os)

def InBounds (ds : List Dim) : Prop := ∀ d ∈ ds, d.InBounds

def AllWhole (ds : List Dim) : Prop := ∀ d ∈ ds, d.Whole

instance (ds : List Dim) : Decidable (InBounds ds) :=
  inferInstanceAs (Decidable (∀ d ∈ ds, d.InBounds))

instance (ds : List Dim) : Decidable (AllWhole ds) :=
  inferInstanceAs (Decidable (∀ d ∈ ds, d.Whole))

@[simp] theorem counts_cons (d : Dim) (ds : List Dim) :
    counts (d :: ds) = d.count :: counts ds := rfl

@[simp] theorem chunkShape_cons (d : Dim) (ds : List Dim) :
    chunkShape (d :: ds) = d.chunk :: chunkShape ds := rfl

@[simp] theorem cells_cons (d : Dim) (ds : List Dim) (o : Nat) (os : List Nat) :
    cells (d :: ds) (o :: os) = d.cell o :: cells ds os := rfl

@[simp] theorem place_cons (d : Dim) (ds : List Dim) (o : Nat)
    (os : List Nat) :
    place (d :: ds) (o :: os) =
      d.within o * (chunkShape ds).prod + place ds os := rfl

theorem InBounds.tail {d : Dim} {ds : List Dim} (h : InBounds (d :: ds)) :
    InBounds ds := fun x hx => h x (by simp [hx])

theorem InBounds.head {d : Dim} {ds : List Dim} (h : InBounds (d :: ds)) :
    d.InBounds := h d (by simp)

theorem InBounds.counts_pos {ds : List Dim} (h : InBounds ds) :
    ∀ k ∈ counts ds, 1 ≤ k := by
  intro k hk
  obtain ⟨d, hd, rfl⟩ := List.mem_map.mp hk
  exact (h d hd).2.1

theorem InBounds.prod_pos {ds : List Dim} (h : InBounds ds) :
    0 < (counts ds).prod := prod_pos_of_forall h.counts_pos

theorem InBounds.chunk_pos {ds : List Dim} (h : InBounds ds) :
    ∀ c ∈ chunkShape ds, 1 ≤ c := by
  intro c hc
  obtain ⟨d, hd, rfl⟩ := List.mem_map.mp hc
  exact (h d hd).1

theorem AllWhole.tail {d : Dim} {ds : List Dim} (h : AllWhole (d :: ds)) :
    AllWhole ds := fun x hx => h x (by simp [hx])

theorem AllWhole.chunkShape_eq {ds : List Dim} (h : AllWhole ds) :
    chunkShape ds = counts ds :=
  List.map_congr_left fun d hd => ((h d hd).2).symm

theorem withins_inBox {ds : List Dim} {os : List Nat} (h : InBounds ds)
    (hos : InBox (counts ds) os) : InBox (chunkShape ds) (withins ds os) := by
  induction ds generalizing os with
  | nil =>
      cases hos
      exact .nil
  | cons d ds ih =>
      cases hos with
      | cons ho hos =>
          exact .cons (Dim.within_lt h.head.1 _) (ih h.tail hos)

theorem place_lt {ds : List Dim} {os : List Nat} (h : InBounds ds)
    (hos : InBox (counts ds) os) : place ds os < (chunkShape ds).prod :=
  rank_lt (withins_inBox h hos)

theorem AllWhole.place_eq {ds : List Dim} {os : List Nat} (hw : AllWhole ds)
    (hos : InBox (counts ds) os) : place ds os = rank (counts ds) os := by
  induction ds generalizing os with
  | nil =>
      cases hos
      rfl
  | cons d ds ih =>
      cases hos with
      | cons ho hos =>
          rw [place_cons, counts_cons, rank_cons, ih hw.tail hos,
            hw.tail.chunkShape_eq, (hw d (by simp)).within_eq ho]

theorem AllWhole.cells_eq {ds : List Dim} {os ps : List Nat}
    (h : InBounds ds) (hw : AllWhole ds) (hos : InBox (counts ds) os)
    (hps : InBox (counts ds) ps) : cells ds os = cells ds ps := by
  induction ds generalizing os ps with
  | nil =>
      cases hos
      cases hps
      rfl
  | cons d ds ih =>
      cases hos with
      | cons ho hos =>
          cases hps with
          | cons hp hps =>
              have hd : d.Whole := hw d (by simp)
              rw [cells_cons, cells_cons, ih h.tail hw.tail hos hps,
                hd.cell_eq h.head.1 ho, hd.cell_eq h.head.1 hp]

/-! ## Runs of positions that are stored next to each other -/

/-- Number of positions from `os` on that are stored contiguously. -/
def runLen : List Dim → List Nat → Nat
  | d :: ds, o :: os =>
      if AllWhole ds then d.rows o * (counts ds).prod else runLen ds os
  | _, _ => 1

/--
A position at which a contiguous run begins: the dimensions selected as whole
chunks are at their beginning, the dimension before them at the beginning of
the selection or of a chunk.
-/
def RunStart : List Dim → List Nat → Prop
  | d :: ds, o :: os =>
      if AllWhole ds then
        os = List.replicate ds.length 0 ∧ (o = 0 ∨ d.chunk ∣ d.start + o)
      else RunStart ds os
  | _, _ => True

instance : (ds : List Dim) → (os : List Nat) → Decidable (RunStart ds os)
  | [], _ => instDecidableTrue
  | _ :: _, [] => instDecidableTrue
  | d :: ds, o :: os =>
      if h : AllWhole ds then
        decidable_of_iff
          (os = List.replicate ds.length 0 ∧ (o = 0 ∨ d.chunk ∣ d.start + o))
          (by simp [RunStart, h])
      else
        have := instDecidableRunStart ds os
        decidable_of_iff (RunStart ds os) (by simp [RunStart, h])

theorem runStart_zero (ds : List Dim) :
    RunStart ds (List.replicate ds.length 0) := by
  induction ds with
  | nil => trivial
  | cons d ds ih =>
      rw [List.length_cons, List.replicate_succ]
      unfold RunStart
      split
      · exact ⟨rfl, .inl rfl⟩
      · exact ih

theorem runLen_pos {ds : List Dim} {os : List Nat} (h : InBounds ds)
    (hos : InBox (counts ds) os) : 1 ≤ runLen ds os := by
  induction ds generalizing os with
  | nil =>
      cases hos
      exact le_refl _
  | cons d ds ih =>
      cases hos with
      | cons ho hos =>
          unfold runLen
          split
          · exact Nat.mul_pos (Dim.rows_pos h.head.1 ho) h.tail.prod_pos
          · exact ih h.tail hos

theorem rank_add_runLen_le {ds : List Dim} {os : List Nat} (h : InBounds ds)
    (hos : InBox (counts ds) os) (hrs : RunStart ds os) :
    rank (counts ds) os + runLen ds os ≤ (counts ds).prod := by
  induction ds generalizing os with
  | nil =>
      cases hos
      exact le_refl _
  | @cons d ds ih =>
      cases hos with
      | @cons o _ os _ ho hos =>
          unfold runLen
          unfold RunStart at hrs
          rw [counts_cons, rank_cons, List.prod_cons]
          split
          · rename_i hw
            rw [if_pos hw] at hrs
            rw [hrs.1, rank_replicate_zero, Nat.add_zero, ← Nat.add_mul]
            exact Nat.mul_le_mul_right _ (Dim.add_rows_le ho)
          · rename_i hw
            rw [if_neg hw] at hrs
            have htail := ih h.tail hos hrs
            have hhead : (o + 1) * (counts ds).prod ≤
                d.count * (counts ds).prod := Nat.mul_le_mul_right _ ho
            rw [Nat.succ_mul] at hhead
            omega

end Hidefix.Slices
