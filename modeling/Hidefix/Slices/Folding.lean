import Hidefix.Slices.Runs

/-!
# Selections that the dimension loop folds correctly

Selecting whole chunks in the last dimensions lets a run continue into the
dimension before them.  The loop of `ChunkSlicer::next` counts the rows of that
dimension as it goes, and goes on outward where the selection covers the chunk
or where the chunk is one layer thick.  `Foldable` says at which selections it
neither counts a row too many nor steps outward past the end of a run; it looks
at the selection only.
-/

namespace Hidefix.Slices

open MixedRadix

/-- A dimension with a selected coordinate in it. -/
abbrev Point := Dim × Nat

def value : List Point → Nat
  | [] => 0
  | (d, o) :: rest => o + d.count * value rest

def volume (pts : List Point) : Nat := (pts.map fun p => p.1.count).prod

def rowsLeft (pts : List Point) : Nat := volume pts - value pts

/--
Rows of the dimension before them that are counted once the dimensions `ds`,
all selected as whole chunks, are passed.
-/
def rowsCounted : List Dim → Nat
  | [] => 0
  | d :: ds =>
      if d.chunk = 1 ∧ (chunkShape ds).prod ≠ 1 then rowsCounted ds
      else rowsCounted ds / d.chunk + 1

/--
A finished run is not extended by the outer dimensions, listed from the last:
the first of them whose chunk is more than one layer thick is carried into and
is at the last layer of its chunk, but not of the selection.
-/
def PassesOut : List Point → Nat → Prop
  | [], _ => True
  | (d, o) :: outer, carry =>
      if d.thick o = 1 then PassesOut outer ((o + carry) / d.count)
      else carry = 1 ∧ o + 1 < d.count ∧ d.rows o = 1

/--
The run in dimension `d`, inside which all dimensions are selected as whole
chunks, ends where the loop stops advancing.
-/
def PieceOk (outer : List Point) (d : Dim) (o : Nat) (inner : List Dim) : Prop :=
  if rowsLeft ((d, o) :: outer) ≤ rowsCounted inner then
    rowsLeft ((d, o) :: outer) = d.rows o
  else if d.thick o = 1 ∧ (chunkShape inner).prod ≠ 1 then
    rowsCounted inner = 1 ∧ PassesOut outer ((o + 1) / d.count)
  else
    o + rowsCounted inner < d.count ∧ rowsCounted inner ≤ d.rows o ∧
      (d.Exact ∧ d.rows o < rowsLeft ((d, o) :: outer) → PassesOut outer 1)

/-- `PieceOk` at the last dimension that is not selected as a whole chunk. -/
def FoldOk : List Point → List Dim → List Nat → Prop
  | outer, d :: ds, o :: os =>
      if AllWhole ds then d.Whole ∨ PieceOk outer d o ds
      else FoldOk ((d, o) :: outer) ds os
  | _, _, _ => True

def Foldable (ds : List Dim) : Prop :=
  ∀ os ∈ rowMajor (counts ds), RunStart ds os → FoldOk [] ds os

instance : (outer : List Point) → (carry : Nat) →
    Decidable (PassesOut outer carry)
  | [], _ => instDecidableTrue
  | (d, o) :: outer, carry =>
      have := instDecidablePassesOut outer ((o + carry) / d.count)
      inferInstanceAs (Decidable (if d.thick o = 1 then
        PassesOut outer ((o + carry) / d.count) else _))

instance (outer : List Point) (d : Dim) (o : Nat) (inner : List Dim) :
    Decidable (PieceOk outer d o inner) := by
  unfold PieceOk
  infer_instance

instance : (outer : List Point) → (ds : List Dim) → (os : List Nat) →
    Decidable (FoldOk outer ds os)
  | _, [], _ => instDecidableTrue
  | _, _ :: _, [] => instDecidableTrue
  | outer, d :: ds, o :: os =>
      have := instDecidableFoldOk ((d, o) :: outer) ds os
      inferInstanceAs (Decidable (if AllWhole ds then _ else
        FoldOk ((d, o) :: outer) ds os))

instance (ds : List Dim) : Decidable (Foldable ds) :=
  inferInstanceAs (Decidable (∀ os ∈ rowMajor (counts ds), _ → _))

/-! ## Splitting a position at a dimension -/

def plug : List Point → List Dim → List Dim
  | [], ds => ds
  | (d, _) :: outer, ds => plug outer (d :: ds)

def plugCoords : List Point → List Nat → List Nat
  | [], os => os
  | (_, o) :: outer, os => plugCoords outer (o :: os)

def points (ds : List Dim) (os : List Nat) : List Point :=
  (ds.zip os).reverse

theorem points_cons (d : Dim) (ds : List Dim) (o : Nat) (os : List Nat) :
    points (d :: ds) (o :: os) = points ds os ++ [(d, o)] := by
  simp [points]

theorem points_plug (outer : List Point) (ds : List Dim) (os : List Nat)
    (h : os.length = ds.length) :
    points (plug outer ds) (plugCoords outer os) = points ds os ++ outer := by
  induction outer generalizing ds os with
  | nil => simp [plug, plugCoords]
  | cons p outer ih =>
      obtain ⟨d, o⟩ := p
      rw [plug, plugCoords, ih (d :: ds) (o :: os) (by simp [h]), points_cons]
      simp

@[simp] theorem volume_nil : volume [] = 1 := rfl

@[simp] theorem volume_cons (d : Dim) (o : Nat) (pts : List Point) :
    volume ((d, o) :: pts) = d.count * volume pts := by
  simp [volume]

theorem counts_plug (outer : List Point) (ds : List Dim) :
    counts (plug outer ds) =
      (outer.map fun p => p.1.count).reverse ++ counts ds := by
  induction outer generalizing ds with
  | nil => simp [plug]
  | cons p outer ih => simp [plug, ih]

theorem prod_counts_plug (outer : List Point) (ds : List Dim) :
    (counts (plug outer ds)).prod = volume outer * (counts ds).prod := by
  rw [counts_plug, List.prod_append, List.prod_reverse, volume]

theorem rank_plug (outer : List Point) (ds : List Dim) (os : List Nat)
    (h : os.length = ds.length) :
    rank (counts (plug outer ds)) (plugCoords outer os) =
      value outer * (counts ds).prod + rank (counts ds) os := by
  induction outer generalizing ds os with
  | nil => simp [plug, plugCoords, value]
  | cons p outer ih =>
      obtain ⟨d, o⟩ := p
      rw [plug, plugCoords, ih (d :: ds) (o :: os) (by simp [h]), counts_cons,
        List.prod_cons, rank_cons, value]
      ring

theorem value_lt_volume {pts : List Point} (h : ∀ p ∈ pts, p.2 < p.1.count) :
    value pts < volume pts := by
  induction pts with
  | nil => simp [value]
  | cons p pts ih =>
      obtain ⟨d, o⟩ := p
      have htail := ih fun p hp => h p (by simp [hp])
      have ho : o < d.count := h (d, o) (by simp)
      have hle : d.count * (value pts + 1) ≤ d.count * volume pts :=
        Nat.mul_le_mul_left _ htail
      rw [Nat.mul_add] at hle
      rw [value, volume_cons]
      omega

theorem value_add_rowsLeft {pts : List Point} (h : ∀ p ∈ pts, p.2 < p.1.count) :
    value pts + rowsLeft pts = volume pts :=
  Nat.add_sub_cancel' (value_lt_volume h).le

theorem rowsLeft_pos {pts : List Point} (h : ∀ p ∈ pts, p.2 < p.1.count) :
    1 ≤ rowsLeft pts := by
  have := value_lt_volume h
  unfold rowsLeft
  omega

theorem rows_le_rowsLeft {d : Dim} {o : Nat} {outer : List Point}
    (h : ∀ p ∈ (d, o) :: outer, p.2 < p.1.count) :
    d.rows o ≤ rowsLeft ((d, o) :: outer) := by
  have ho : o < d.count := h (d, o) (by simp)
  have hrows := Dim.add_rows_le ho
  have hlt := value_lt_volume fun p hp => h p (List.mem_cons_of_mem (d, o) hp)
  have hle : d.count * (value outer + 1) ≤ d.count * volume outer :=
    Nat.mul_le_mul_left _ hlt
  rw [Nat.mul_add] at hle
  rw [rowsLeft, volume_cons, value]
  omega

theorem Dim.Whole.rows_zero {d : Dim} (hw : d.Whole) (h : 1 ≤ d.chunk) :
    d.rows 0 = d.count := by
  obtain ⟨⟨q, hq⟩, hcount⟩ := hw
  unfold rows cell
  rw [Nat.add_zero, hq, Nat.mul_div_cancel_left _ h, Nat.mul_comm q]
  omega

/--
A position of a selection that is not whole chunks throughout, split at the
last dimension that is not selected as a whole chunk.
-/
theorem exists_split (outer : List Point) {ds : List Dim} {os : List Nat}
    (hos : InBox (counts ds) os) (hrs : RunStart ds os)
    (hw : ¬ AllWhole ds) :
    ∃ outer' d o inner,
      plug outer ds = plug outer' (d :: inner) ∧
      plugCoords outer os =
        plugCoords outer' (o :: List.replicate inner.length 0) ∧
      AllWhole inner ∧ ¬ d.Whole ∧ (o = 0 ∨ d.chunk ∣ d.start + o) ∧
      (FoldOk outer ds os ↔ PieceOk outer' d o inner) ∧
      runLen ds os = d.rows o * (counts inner).prod := by
  induction ds generalizing outer os with
  | nil => exact absurd (fun d hd => by cases hd) hw
  | cons d ds ih =>
      cases hos with
      | @cons o _ os _ ho hos =>
          unfold RunStart at hrs
          by_cases htail : AllWhole ds
          · have hd : ¬ d.Whole := by
              intro hd
              refine hw fun x hx => ?_
              rcases List.mem_cons.mp hx with rfl | hx
              · exact hd
              · exact htail x hx
            rw [if_pos htail] at hrs
            obtain ⟨rfl, hstart⟩ := hrs
            refine ⟨outer, d, o, ds, rfl, rfl, htail, hd, hstart, ?_, ?_⟩
            · rw [FoldOk, if_pos htail]
              exact or_iff_right hd
            · rw [runLen, if_pos htail]
          · rw [if_neg htail] at hrs
            obtain ⟨outer', e, p, inner, hplug, hcoords, hwhole, he, hp, hfold,
              hlen⟩ := ih ((d, o) :: outer) hos hrs htail
            refine ⟨outer', e, p, inner, hplug, hcoords, hwhole, he, hp, ?_, ?_⟩
            · rw [FoldOk, if_neg htail]
              exact hfold
            · rw [runLen, if_neg htail]
              exact hlen

end Hidefix.Slices
