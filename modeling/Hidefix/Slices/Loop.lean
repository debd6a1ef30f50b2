import Hidefix.Idx.Slicer
import Hidefix.Slices.Folding

/-!
# The dimension loop at a run start

The loop of `ChunkSlicer::next` is followed through the dimensions selected as
whole chunks, the first dimension that is not, and the dimensions outside it.
Throughout, the coordinates written so far and the carry are the digits of one
number: the positions passed, counted from the start of the visited dimensions.
-/

namespace Hidefix.Slices

open MixedRadix
open Foundation
open Idx

abbrev axisOf (w : Nat) (d : Dim) (o : Nat) : Axis where
  idx := d.start
  offset := o
  count := d.count
  countSru := .reduced d.count
  chunkOffset := d.cell o * d.chunk
  chunkSz := d.chunk
  chunkDimSz := w
  shape := d.size

/-- The axes of points listed from the last; `w` is the weight of the first. -/
def axesOf : Nat → List Point → List Axis
  | _, [] => []
  | w, (d, o) :: pts => axisOf w d o :: axesOf (w * d.chunk) pts

@[simp] theorem axesOf_nil (w : Nat) : axesOf w [] = [] := rfl

@[simp] theorem axesOf_cons (w : Nat) (d : Dim) (o : Nat) (pts : List Point) :
    axesOf w ((d, o) :: pts) = axisOf w d o :: axesOf (w * d.chunk) pts := rfl

@[simp] theorem map_offset_axesOf (w : Nat) (pts : List Point) :
    (axesOf w pts).map Axis.offset = pts.map Prod.snd := by
  induction pts generalizing w with
  | nil => rfl
  | cons p pts ih =>
      obtain ⟨d, o⟩ := p
      simp [ih, axisOf]

structure PointOk (d : Dim) (o : Nat) : Prop where
  inBounds : d.InBounds
  lt : o < d.count
  fits : (d.cell o + 1) * d.chunk < 2 ^ 64

namespace PointOk

variable {d : Dim} {o : Nat}

theorem rows_le_thick (h : PointOk d o) : d.rows o ≤ d.thick o := by
  obtain ⟨⟨hc, -, hsize⟩, ho, -⟩ := h
  have hcell := d.cell_mul_add_within o
  have hlt := Dim.within_lt hc o
  unfold Dim.thick Dim.rows
  omega

theorem min_count (h : PointOk d o) :
    min d.count (d.cell o * d.chunk + d.thick o - d.start) = o + d.rows o := by
  obtain ⟨⟨hc, -, hsize⟩, ho, -⟩ := h
  have hcell := d.cell_mul_add_within o
  have hlt := Dim.within_lt hc o
  unfold Dim.thick Dim.rows
  omega

theorem start_lt (h : PointOk d o) :
    d.start < d.cell o * d.chunk + d.thick o := by
  obtain ⟨⟨hc, -, hsize⟩, ho, -⟩ := h
  have hcell := d.cell_mul_add_within o
  have hlt := Dim.within_lt hc o
  unfold Dim.thick
  omega

theorem covers_iff (h : PointOk d o) :
    (d.start = d.cell o * d.chunk ∧
      d.count = d.cell o * d.chunk + d.thick o - d.start) ↔ d.Exact := by
  obtain ⟨⟨hc, -, hsize⟩, ho, -⟩ := h
  constructor
  · rintro ⟨hstart, hcount⟩
    refine ⟨⟨d.cell o, by rw [Nat.mul_comm]; exact hstart⟩, ?_⟩
    unfold Dim.thick at hcount
    omega
  · rintro ⟨⟨q, hq⟩, hcount⟩
    have hcell : d.cell o = q := by
      unfold Dim.cell
      rw [hq, Nat.mul_add_div hc, Nat.div_eq_of_lt (by omega), Nat.add_zero]
    have hstart : d.start = d.cell o * d.chunk := by
      rw [hcell, hq, Nat.mul_comm]
    refine ⟨hstart, ?_⟩
    unfold Dim.thick
    omega

end PointOk

/-! ## One turn of the loop -/

abbrev landed (d : Dim) (o carry : Nat) : Nat := (o + carry) % d.count

variable {b : Build} {stop w : Nat} {d : Dim} {o : Nat} {cur : LoopState}

theorem cutChunkSz_axisOf (h : PointOk d o) :
    cutChunkSz b (axisOf w d o) = .ok (d.thick o) := by
  obtain ⟨⟨hc, -, hsize⟩, ho, hfit⟩ := h
  have hcell := d.cell_mul_add_within o
  have hlt := Dim.within_lt hc o
  rw [Nat.succ_mul] at hfit
  unfold cutChunkSz Dim.thick axisOf
  simp only [addU64_eq hfit, bind, Except.bind]
  split
  · rw [subU64_eq (by omega)]
    simp only
    rw [subU64_eq (by omega)]
    congr 1
    omega
  · congr 1
    omega

def skipped (d : Dim) (o : Nat) (cur : LoopState) : LoopState :=
  { cur with
    coords := landed d o cur.carry :: cur.coords
    carry := (o + cur.carry) / d.count }

def stride (w : Nat) (d : Dim) (o carry : Nat) : Nat :=
  (o + d.rows o - landed d o carry) * w

def advanced (w : Nat) (d : Dim) (o : Nat) (cur : LoopState) : LoopState where
  coords := (o + d.rows o) % d.count :: cur.coords
  offset := cur.offset + stride w d o cur.carry
  advance := cur.advance + stride w d o cur.carry
  carry := (o + cur.carry) / d.count + (o + d.rows o) / d.count

theorem visitAxis_skip (h : PointOk d o) (hsum : o + cur.carry + 1 < 2 ^ 64)
    (hthin : d.thick o = 1 ∧ w ≠ 1) :
    visitAxis b stop (axisOf w d o) cur = .ok (skipped d o cur, true) := by
  unfold visitAxis
  simp only [StrengthReducedU64.div_eq, StrengthReducedU64.rem_eq]
  rw [cutChunkSz_axisOf h]
  simp only [bind, Except.bind]
  rw [addU64_eq (by omega), StrengthReducedU64.get_reduced h.inBounds.2.1]
  simp only [if_pos hthin]
  rfl

theorem visitAxis_advance (h : PointOk d o) (hsum : o + cur.carry + 1 < 2 ^ 64)
    (hthick : ¬ (d.thick o = 1 ∧ w ≠ 1))
    (hback : landed d o cur.carry ≤ o + d.rows o)
    (hoffset : cur.offset + stride w d o cur.carry < 2 ^ 64)
    (hadvance : cur.advance + stride w d o cur.carry < 2 ^ 64) :
    visitAxis b stop (axisOf w d o) cur =
      if d.Exact ∧ cur.offset + stride w d o cur.carry < stop then
        .ok (advanced w d o cur, true)
      else (do
        debugAssert b (cur.offset + stride w d o cur.carry ≤ stop)
        .ok (advanced w d o cur, false)) := by
  have hk : 1 ≤ d.count := h.inBounds.2.1
  have hlanded : landed d o cur.carry < d.count := Nat.mod_lt _ hk
  have hthickLe : d.thick o ≤ d.chunk := Nat.min_le_left _ _
  have hfit := h.fits
  rw [Nat.succ_mul] at hfit
  have hone : (o + d.rows o) / d.count ≤ 1 := by
    rw [Nat.div_le_iff_le_mul_add_pred hk]
    have := Dim.add_rows_le h.lt
    omega
  have hcarry : (o + cur.carry) / d.count ≤ o + cur.carry := Nat.div_le_self _ _
  unfold stride landed at *
  unfold visitAxis
  simp only [StrengthReducedU64.div_eq, StrengthReducedU64.rem_eq]
  rw [cutChunkSz_axisOf h]
  simp only [bind, Except.bind]
  rw [addU64_eq (by omega), StrengthReducedU64.get_reduced hk]
  simp only [if_neg hthick, debugAssert_of hlanded]
  rw [addU64_eq (by omega)]
  simp only
  rw [subU64_eq h.start_lt.le]
  simp only [h.min_count]
  rw [subU64_eq hback]
  simp only
  rw [mulU64_eq (by omega)]
  simp only
  rw [addU64_eq hadvance]
  simp only
  rw [addU64_eq hoffset]
  simp only
  rw [addU64_eq (by omega)]
  simp only [← and_assoc, h.covers_iff]
  rfl

theorem visitAxis_debug (h : PointOk d o) {cur' : LoopState} {flag : Bool}
    (hok : visitAxis .debug stop (axisOf w d o) cur = .ok (cur', flag)) :
    (d.thick o = 1 ∧ w ≠ 1 ∧ cur' = skipped d o cur ∧ flag = true) ∨
      (¬ (d.thick o = 1 ∧ w ≠ 1) ∧ landed d o cur.carry ≤ o + d.rows o ∧
        cur' = advanced w d o cur ∧
        (flag = true ↔ d.Exact ∧ cur.offset + stride w d o cur.carry < stop)) := by
  have hk : 1 ≤ d.count := h.inBounds.2.1
  unfold visitAxis at hok
  simp only [StrengthReducedU64.div_eq, StrengthReducedU64.rem_eq] at hok
  rw [cutChunkSz_axisOf h, ok_bind] at hok
  obtain ⟨sum, hsum, hok⟩ := bind_eq_ok.mp hok
  obtain ⟨rfl, -⟩ := addU64_debug hsum
  rw [StrengthReducedU64.get_reduced hk] at hok
  by_cases hthin : d.thick o = 1 ∧ w ≠ 1
  · simp only [if_pos hthin] at hok
    cases hok
    exact .inl ⟨hthin.1, hthin.2, rfl, rfl⟩
  · simp only [if_neg hthin] at hok
    obtain ⟨-, -, hok⟩ := bind_eq_ok.mp hok
    obtain ⟨ends, hends, hok⟩ := bind_eq_ok.mp hok
    obtain ⟨rfl, -⟩ := addU64_debug hends
    rw [subU64_eq h.start_lt.le, ok_bind] at hok
    simp only [h.min_count] at hok
    obtain ⟨steps, hsteps, hok⟩ := bind_eq_ok.mp hok
    obtain ⟨rfl, hback⟩ := subU64_debug hsteps
    obtain ⟨diff, hdiff, hok⟩ := bind_eq_ok.mp hok
    obtain ⟨rfl, -⟩ := mulU64_debug hdiff
    obtain ⟨advance, hadvance, hok⟩ := bind_eq_ok.mp hok
    obtain ⟨rfl, -⟩ := addU64_debug hadvance
    obtain ⟨offset, hoffset, hok⟩ := bind_eq_ok.mp hok
    obtain ⟨rfl, -⟩ := addU64_debug hoffset
    obtain ⟨carry, hcarry, hok⟩ := bind_eq_ok.mp hok
    obtain ⟨rfl, -⟩ := addU64_debug hcarry
    simp only [← and_assoc, h.covers_iff] at hok
    refine .inr ⟨hthin, hback, ?_⟩
    split at hok
    · rename_i hgo
      cases hok
      exact ⟨rfl, iff_of_true rfl hgo⟩
    · rename_i hstay
      obtain ⟨-, -, hok⟩ := bind_eq_ok.mp hok
      cases hok
      exact ⟨rfl, iff_of_false (by simp) hstay⟩

/-! ## The whole loop -/

/-- The dimension loop and the left-over carry: coordinates, offset, advance. -/
def foldAxes (b : Build) (stop : Nat) (axes : List Axis) (cur : LoopState) :
    Exec (List Nat × Nat × Nat) := do
  let (cur, rest) ← dimLoop b stop axes cur
  let coords ← leftOver b rest cur.coords cur.carry
  .ok (coords, cur.offset, cur.advance)

theorem foldAxes_nil :
    foldAxes b stop [] cur = .ok (cur.coords, cur.offset, cur.advance) := rfl

theorem foldAxes_continue {a : Axis} {rest : List Axis} {cur' : LoopState}
    (h : visitAxis b stop a cur = .ok (cur', true)) :
    foldAxes b stop (a :: rest) cur = foldAxes b stop rest cur' := by
  unfold foldAxes
  rw [dimLoop, h]
  rfl

theorem foldAxes_break {a : Axis} {rest : List Axis} {cur' : LoopState}
    (h : visitAxis b stop a cur = .ok (cur', false)) :
    foldAxes b stop (a :: rest) cur = (do
      let coords ← leftOver b rest cur'.coords cur'.carry
      .ok (coords, cur'.offset, cur'.advance)) := by
  unfold foldAxes
  rw [dimLoop, h]
  rfl

theorem foldAxes_cons {a : Axis} {rest : List Axis} {coords : List Nat}
    {offset advance : Nat}
    (h : foldAxes b stop (a :: rest) cur = .ok (coords, offset, advance)) :
    ∃ cur' flag, visitAxis b stop a cur = .ok (cur', flag) ∧
      (flag = true → foldAxes b stop rest cur' = .ok (coords, offset, advance)) ∧
      (flag = false → cur'.advance = advance) := by
  cases hvisit : visitAxis b stop a cur with
  | error f =>
      unfold foldAxes at h
      rw [dimLoop, hvisit] at h
      cases h
  | ok r =>
      obtain ⟨cur', flag⟩ := r
      refine ⟨cur', flag, rfl, ?_, ?_⟩
      · rintro rfl
        rwa [foldAxes_continue hvisit] at h
      · rintro rfl
        rw [foldAxes_break hvisit] at h
        obtain ⟨_, -, h⟩ := bind_eq_ok.mp h
        cases h
        rfl

theorem advance_le_foldAxes {pts : List Point}
    (h : ∀ p ∈ pts, PointOk p.1 p.2) {coords : List Nat}
    {offset advance : Nat}
    (hok : foldAxes .debug stop (axesOf w pts) cur =
      .ok (coords, offset, advance)) : cur.advance ≤ advance := by
  induction pts generalizing w cur with
  | nil =>
      cases hok
      exact le_refl _
  | cons p pts ih =>
      obtain ⟨d, o⟩ := p
      have hp : PointOk d o := h (d, o) (by simp)
      have htail : ∀ p ∈ pts, PointOk p.1 p.2 := fun p hp => h p (by simp [hp])
      obtain ⟨cur', flag, hvisit, hgo, hstay⟩ := foldAxes_cons hok
      have hstep : cur.advance ≤ cur'.advance := by
        rcases visitAxis_debug hp hvisit with ⟨-, -, rfl, -⟩ | ⟨-, -, rfl, -⟩
        · exact le_refl _
        · exact Nat.le_add_right _ _
      cases flag with
      | true => exact hstep.trans (ih htail (hgo rfl))
      | false => exact hstep.trans (hstay rfl).le

/-! ## The digits of the positions passed -/

def outerCounts (pts : List Point) : List Nat :=
  (pts.map fun p => p.1.count).reverse

@[simp] theorem outerCounts_nil : outerCounts [] = [] := rfl

theorem outerCounts_cons (d : Dim) (o : Nat) (pts : List Point) :
    outerCounts ((d, o) :: pts) = outerCounts pts ++ [d.count] := by
  simp [outerCounts]

theorem unrank_value {pts : List Point} (h : ∀ p ∈ pts, PointOk p.1 p.2) :
    unrank (outerCounts pts) (value pts) = (pts.map Prod.snd).reverse := by
  induction pts with
  | nil => rfl
  | cons p pts ih =>
      obtain ⟨d, o⟩ := p
      have hp : PointOk d o := h (d, o) (by simp)
      have htail := ih fun p hp => h p (by simp [hp])
      rw [outerCounts_cons, value, unrank_append, List.map_cons,
        List.reverse_cons]
      simp [Nat.add_mul_div_left _ _ hp.inBounds.2.1, Nat.div_eq_of_lt hp.lt,
        Nat.mod_eq_of_lt hp.lt, htail]

theorem unrank_outerCounts_cons (d : Dim) (o : Nat) (pts : List Point)
    (ks : List Nat) (n : Nat) :
    unrank (outerCounts ((d, o) :: pts) ++ ks)
        (value ((d, o) :: pts) * ks.prod + n) =
      unrank (outerCounts pts ++ d.count :: ks)
        (value pts * (d.count :: ks).prod + (o * ks.prod + n)) := by
  have hnum : value ((d, o) :: pts) * ks.prod + n =
      value pts * (d.count :: ks).prod + (o * ks.prod + n) := by
    rw [value, List.prod_cons]
    ring
  rw [hnum, outerCounts_cons, List.append_assoc, List.singleton_append]

/-- The coordinates and the carry of a state are the digits of `n`. -/
structure Digits (ks : List Nat) (n : Nat) (cur : LoopState) : Prop where
  pos : 0 < ks.prod
  coords : cur.coords = unrank ks n
  carry : cur.carry = n / ks.prod

theorem Digits.skipped {ks : List Nat} {n : Nat} (hd : Digits ks n cur)
    (h : PointOk d o) :
    Digits (d.count :: ks) (o * ks.prod + n) (skipped d o cur) := by
  obtain ⟨hpos, hcoords, hcarry⟩ := hd
  have hsum : (o * ks.prod + n) / ks.prod = o + cur.carry := by
    rw [hcarry, Nat.add_comm, Nat.add_mul_div_right _ _ hpos, Nat.add_comm]
  refine ⟨?_, ?_, ?_⟩
  · rw [List.prod_cons]
    exact Nat.mul_pos h.inBounds.2.1 hpos
  · rw [unrank_cons, unrank_add_mul, hsum, ← hcoords]
    rfl
  · rw [List.prod_cons, Nat.mul_comm d.count, ← Nat.div_div_eq_div_mul, hsum]
    rfl

theorem Digits.advanced {ks : List Nat} {n : Nat} (hd : Digits ks n cur)
    (h : PointOk d o) (hback : landed d o cur.carry ≤ o + d.rows o) :
    Digits (d.count :: ks)
      (o * ks.prod + n + stride ks.prod d o cur.carry)
      (advanced w d o cur) := by
  obtain ⟨hpos, hcoords, hcarry⟩ := hd
  have hk : 0 < d.count := h.inBounds.2.1
  have hsum : (o * ks.prod + n + stride ks.prod d o cur.carry) / ks.prod =
      o + d.rows o + d.count * ((o + cur.carry) / d.count) := by
    have hdm := Nat.mod_add_div (o + cur.carry) d.count
    unfold landed at hback
    unfold stride landed
    rw [Nat.add_mul_div_right _ _ hpos, Nat.add_comm (o * _),
      Nat.add_mul_div_right _ _ hpos, ← hcarry]
    omega
  have hsplit : o * ks.prod + n + stride ks.prod d o cur.carry =
      (o + (o + d.rows o - landed d o cur.carry)) * ks.prod + n := by
    unfold stride
    ring
  refine ⟨?_, ?_, ?_⟩
  · rw [List.prod_cons]
    exact Nat.mul_pos hk hpos
  · rw [unrank_cons, hsum, Nat.add_mul_mod_self_left, hsplit, unrank_add_mul,
      ← hcoords]
    rfl
  · rw [List.prod_cons, Nat.mul_comm d.count, ← Nat.div_div_eq_div_mul, hsum,
      Nat.add_mul_div_left _ _ hk, Nat.add_comm]
    rfl

theorem leftOver_digits {pts : List Point}
    (h : ∀ p ∈ pts, PointOk p.1 p.2) {ks : List Nat} {n : Nat}
    (hd : Digits ks n cur) (hfit : value pts + cur.carry < 2 ^ 64) :
    leftOver b (axesOf w pts) cur.coords cur.carry =
      .ok (unrank (outerCounts pts ++ ks) (value pts * ks.prod + n)) := by
  induction pts generalizing w ks n cur with
  | nil => simp [leftOver, value, hd.coords]
  | cons p pts ih =>
      obtain ⟨d, o⟩ := p
      have hp : PointOk d o := h (d, o) (by simp)
      have htail : ∀ p ∈ pts, PointOk p.1 p.2 := fun p hp => h p (by simp [hp])
      have hk : 1 ≤ d.count := hp.inBounds.2.1
      have hvalue : value pts ≤ d.count * value pts := Nat.le_mul_of_pos_left _ hk
      have hnext := hd.skipped hp
      rw [value] at hfit
      have hcarry : (o + cur.carry) / d.count ≤ o + cur.carry :=
        Nat.div_le_self _ _
      rw [unrank_outerCounts_cons, axesOf_cons, leftOver,
        addU64_eq (show o + cur.carry < 2 ^ 64 by omega), ok_bind]
      simp only [StrengthReducedU64.div_eq, StrengthReducedU64.rem_eq]
      rw [StrengthReducedU64.get_reduced hk]
      split
      · rename_i hzero
        have hsmall := hnext.carry
        rw [show (skipped d o cur).carry = 0 from hzero] at hsmall
        rw [map_offset_axesOf, unrank_append, unrank_add_mul, ← hnext.coords,
          Nat.add_comm (_ * _), Nat.add_mul_div_right _ _ hnext.pos, ← hsmall,
          Nat.zero_add, unrank_value htail]
        rfl
      · exact ih htail hnext (by
          change value pts + (o + cur.carry) / d.count < 2 ^ 64
          omega)

end Hidefix.Slices
