import Hidefix.Slices.Exact
import Mathlib.Algebra.BigOperators.Group.List.Lemmas

/-!
# Selections along the chunks

The dimension loop folds a run correctly wherever the selection follows the chunks:
it is one chunk, it is made of whole chunks, it is a range of the first dimension
with whole chunks behind it, or in the last dimension it is not what a chunk holds of
the dataset.  Dimensions with chunks of one layer come first, as in a variable that
is stored one time step after the other.
-/

namespace Hidefix.Slices

open MixedRadix
open Foundation
open Idx

/-- Whole chunks along every dimension, thin ones first and the last ones not thin. -/
structure Tiled (ds : List Dim) : Prop where
  aligned : ∀ d ∈ ds, d.chunk ∣ d.start ∧ d.chunk ∣ d.count
  thin_first : ds.Pairwise fun d e => e.chunk = 1 → d.chunk = 1
  last_thick : ∀ d ∈ ds.getLast?, d.chunk ≠ 1

/-- The selection follows the chunks. -/
inductive Regular (ds : List Dim) : Prop
  | whole : AllWhole ds → Regular ds
  | short : (∀ d ∈ ds.getLast?, ¬ d.Exact) → Regular ds
  | tiled : Tiled ds → Regular ds
  | rows : Tiled ds.tail → (∀ d ∈ ds.tail, d.chunk ≠ 1) → Regular ds

/-! ## One dimension -/

namespace Dim

variable {d : Dim} {o : Nat}

theorem Exact.whole (he : d.Exact) (h : d.InBounds) (hdvd : d.chunk ∣ d.count) :
    d.Whole := by
  obtain ⟨-, hcount, -⟩ := h
  have hle := Nat.le_of_dvd hcount hdvd
  have hmin := he.2
  exact ⟨he.1, by omega⟩

theorem thick_of_thin (h : d.InBounds) (ho : o < d.count) (hthin : d.chunk = 1) :
    d.thick o = 1 := by
  obtain ⟨-, -, hsize⟩ := h
  simp only [thick, cell, hthin, Nat.div_one, Nat.mul_one]
  omega

theorem thick_of_aligned (h : d.InBounds) (ho : o < d.count)
    (hd : d.chunk ∣ d.start ∧ d.chunk ∣ d.count) : d.thick o = d.chunk := by
  obtain ⟨hchunk, -, hsize⟩ := h
  obtain ⟨q, hq⟩ := Nat.dvd_add hd.1 hd.2
  have hcell : d.cell o < q := by
    apply Nat.div_lt_of_lt_mul
    omega
  have hend : (d.cell o + 1) * d.chunk ≤ d.start + d.count := by
    rw [hq, Nat.mul_comm d.chunk]
    exact Nat.mul_le_mul_right _ hcell
  rw [Nat.succ_mul] at hend
  simp only [thick]
  omega

theorem add_chunk_le (ho : o < d.count) (hd : d.chunk ∣ d.start ∧ d.chunk ∣ d.count)
    (hstart : o = 0 ∨ d.chunk ∣ d.start + o) : o + d.chunk ≤ d.count := by
  have hdvd : d.chunk ∣ o := by
    rcases hstart with rfl | hstart
    · exact Nat.dvd_zero _
    · exact (Nat.dvd_add_right hd.1).mp hstart
  obtain ⟨p, rfl⟩ := hdvd
  obtain ⟨q, hq⟩ := hd.2
  have hlt : p < q := by
    rw [hq] at ho
    exact Nat.lt_of_mul_lt_mul_left ho
  rw [hq, ← Nat.mul_succ]
  exact Nat.mul_le_mul_left _ hlt

end Dim

/-! ## Rows that are counted -/

theorem prod_ne_one {ds : List Dim} (hne : ds ≠ [])
    (hlast : ∀ d ∈ ds.getLast?, d.chunk ≠ 1) : (chunkShape ds).prod ≠ 1 := by
  intro hprod
  have hdvd := List.dvd_prod (List.mem_map_of_mem (f := Dim.chunk)
    (List.getLast_mem hne))
  change _ ∣ (chunkShape ds).prod at hdvd
  rw [hprod, Nat.dvd_one] at hdvd
  exact hlast _ (List.getLast?_eq_some_getLast hne) hdvd

theorem rowsCounted_eq_one {ds : List Dim} (h : InBounds ds) (hne : ds ≠ [])
    (hlast : ∀ d ∈ ds.getLast?, d.chunk ≠ 1) : rowsCounted ds = 1 := by
  induction ds with
  | nil => exact absurd rfl hne
  | cons d ds ih =>
      obtain ⟨hchunk, -, -⟩ := h.head
      cases ds with
      | nil =>
          have hthick : d.chunk ≠ 1 := hlast d (by simp)
          simp [rowsCounted, hthick]
      | cons e ds =>
          have htail : ∀ d ∈ (e :: ds).getLast?, d.chunk ≠ 1 := by
            simpa [List.getLast?_cons_cons] using hlast
          have hone := ih h.tail (by simp) htail
          have hprod := prod_ne_one (by simp) htail
          rw [rowsCounted, hone]
          split
          · rfl
          · rename_i hcond
            have hthick : 1 < d.chunk := by
              rcases Nat.eq_or_lt_of_le hchunk with hthin | hthick
              · exact absurd ⟨hthin.symm, hprod⟩ hcond
              · exact hthick
            rw [Nat.div_eq_of_lt hthick]

theorem passesOut_of_thin {outer : List Point} {carry : Nat}
    (hin : ∀ p ∈ outer, p.1.InBounds ∧ p.2 < p.1.count)
    (hthin : ∀ p ∈ outer, p.1.chunk = 1) : PassesOut outer carry := by
  induction outer generalizing carry with
  | nil => trivial
  | cons p outer ih =>
      obtain ⟨d, o⟩ := p
      obtain ⟨⟨hd, ho⟩, hin⟩ := List.forall_mem_cons.mp hin
      obtain ⟨hone, hthin⟩ := List.forall_mem_cons.mp hthin
      unfold PassesOut
      rw [if_pos (Dim.thick_of_thin hd ho hone)]
      exact ih hin hthin

/-! ## Runs that are folded correctly -/

section Pieces

variable {outer : List Point} {d : Dim} {o : Nat} {inner : List Dim}

theorem rowsLeft_eq_rows (hin : ∀ p ∈ (d, o) :: outer, p.1.InBounds ∧ p.2 < p.1.count)
    (h : rowsLeft ((d, o) :: outer) ≤ 1) : rowsLeft ((d, o) :: outer) = d.rows o := by
  have hlt : ∀ p ∈ (d, o) :: outer, p.2 < p.1.count := fun p hp => (hin p hp).2
  have hrows : 1 ≤ d.rows o :=
    Dim.rows_pos (hin (d, o) (by simp)).1.1 (hlt (d, o) (by simp))
  have hle := rows_le_rowsLeft hlt
  omega

theorem rowsCounted_le_one (h : InBounds inner)
    (hlast : ∀ e ∈ inner.getLast?, e.chunk ≠ 1) : rowsCounted inner ≤ 1 := by
  by_cases hne : inner = []
  · simp [hne, rowsCounted]
  · exact (rowsCounted_eq_one h hne hlast).le

theorem pieceOk_of_aligned
    (hin : ∀ p ∈ (d, o) :: outer, p.1.InBounds ∧ p.2 < p.1.count)
    (hinner : InBounds inner) (hlast : ∀ e ∈ inner.getLast?, e.chunk ≠ 1)
    (hd : d.chunk ∣ d.start ∧ d.chunk ∣ d.count) (hw : ¬ d.Whole)
    (hstart : o = 0 ∨ d.chunk ∣ d.start + o)
    (hthin : d.chunk = 1 → ∀ p ∈ outer, p.1.chunk = 1) :
    PieceOk outer d o inner := by
  have hbounds : d.InBounds := (hin (d, o) (by simp)).1
  have ho : o < d.count := (hin (d, o) (by simp)).2
  have houter := (List.forall_mem_cons.mp hin).2
  have hcounted := rowsCounted_le_one hinner hlast
  have hthick := Dim.thick_of_aligned hbounds ho hd
  have hrows := Dim.rows_pos hbounds.1 ho
  unfold PieceOk
  split
  · exact rowsLeft_eq_rows hin (by omega)
  · split
    · rename_i hcond
      have hne : inner ≠ [] := by
        rintro rfl
        simp [chunkShape] at hcond
      exact ⟨rowsCounted_eq_one hinner hne hlast,
        passesOut_of_thin houter (hthin (hthick ▸ hcond.1))⟩
    · rename_i hcond
      refine ⟨?_, by omega, fun hexact =>
        absurd (hexact.1.whole hbounds hd.2) hw⟩
      by_cases hne : inner = []
      · simpa [hne, rowsCounted] using ho
      · have hchunk : d.chunk ≠ 1 := fun hone =>
          hcond ⟨hthick.trans hone, prod_ne_one hne hlast⟩
        have hend := Dim.add_chunk_le ho hd hstart
        have hpos := hbounds.1
        omega

theorem pieceOk_first (hd : d.InBounds) (ho : o < d.count) (hinner : InBounds inner)
    (hlast : ∀ e ∈ inner.getLast?, e.chunk ≠ 1) : PieceOk [] d o inner := by
  have hcounted := rowsCounted_le_one hinner hlast
  have hrows := Dim.rows_pos hd.1 ho
  have hleft : rowsLeft [(d, o)] = d.count - o := by
    simp [rowsLeft, value]
  unfold PieceOk
  split
  · exact rowsLeft_eq_rows (by simpa using ⟨hd, ho⟩) (by omega)
  · split
    · rename_i hcond
      have hne : inner ≠ [] := by
        rintro rfl
        simp [chunkShape] at hcond
      exact ⟨rowsCounted_eq_one hinner hne hlast, trivial⟩
    · exact ⟨by omega, by omega, fun _ => trivial⟩

end Pieces

theorem Tiled.tail {d : Dim} {ds : List Dim} (h : Tiled (d :: ds)) : Tiled ds where
  aligned := fun e he => h.aligned e (by simp [he])
  thin_first := h.thin_first.tail
  last_thick := by
    cases ds with
    | nil => simp
    | cons e ds => simpa [List.getLast?_cons_cons] using h.last_thick

theorem foldOk_of_tiled {outer : List Point} {ds : List Dim} {os : List Nat}
    (hin : InBounds ds) (houter : ∀ p ∈ outer, p.1.InBounds ∧ p.2 < p.1.count)
    (htiled : Tiled ds) (hthin : ∀ e ∈ ds, e.chunk = 1 → ∀ p ∈ outer, p.1.chunk = 1)
    (hos : InBox (counts ds) os) (hrs : RunStart ds os) : FoldOk outer ds os := by
  induction ds generalizing outer os with
  | nil => trivial
  | cons d ds ih =>
      cases hos with
      | @cons o _ os _ ho hos =>
          have hhead : ∀ p ∈ (d, o) :: outer, p.1.InBounds ∧ p.2 < p.1.count :=
            List.forall_mem_cons.mpr ⟨⟨hin.head, ho⟩, houter⟩
          unfold FoldOk
          unfold RunStart at hrs
          split
          · rename_i hw
            rw [if_pos hw] at hrs
            by_cases hwhole : d.Whole
            · exact .inl hwhole
            · exact .inr (pieceOk_of_aligned hhead hin.tail htiled.tail.last_thick
                (htiled.aligned d (by simp)) hwhole hrs.2 (hthin d (by simp)))
          · rename_i hw
            rw [if_neg hw] at hrs
            refine ih hin.tail hhead htiled.tail (fun e he hone => ?_) hos hrs
            have hd := (List.pairwise_cons.mp htiled.thin_first).1 e he hone
            exact List.forall_mem_cons.mpr ⟨hd, hthin e (by simp [he]) hone⟩

theorem foldOk_of_short {outer : List Point} {ds : List Dim} {os : List Nat}
    (hin : InBounds ds) (houter : ∀ p ∈ outer, p.2 < p.1.count)
    (hshort : ∀ d ∈ ds.getLast?, ¬ d.Exact) (hos : InBox (counts ds) os) :
    FoldOk outer ds os := by
  induction ds generalizing outer os with
  | nil => trivial
  | cons d ds ih =>
      cases hos with
      | @cons o _ os _ ho hos =>
          have hhead : ∀ p ∈ (d, o) :: outer, p.2 < p.1.count :=
            List.forall_mem_cons.mpr ⟨ho, houter⟩
          unfold FoldOk
          cases ds with
          | nil =>
              have hexact : ¬ d.Exact := hshort d (by simp)
              have hleft := rowsLeft_pos hhead
              have hpositive : ¬ rowsLeft ((d, o) :: outer) ≤ 0 := by omega
              simp [AllWhole, PieceOk, rowsCounted, chunkShape, hpositive, ho, hexact]
          | cons e ds =>
              have htail : ∀ d ∈ (e :: ds).getLast?, ¬ d.Exact := by
                simpa [List.getLast?_cons_cons] using hshort
              have hne : e :: ds ≠ [] := by simp
              rw [if_neg fun hw => ?_]
              · exact ih hin.tail hhead htail hos
              · have hmem := List.getLast_mem hne
                exact htail _ (List.getLast?_eq_some_getLast hne)
                  ((hw _ hmem).exact (hin.tail _ hmem))

/-- A selection that follows the chunks is folded correctly at every run start. -/
theorem Regular.foldable {ds : List Dim} (h : Regular ds) (hin : InBounds ds) :
    Foldable ds := by
  intro os hos hrs
  have hos := mem_rowMajor.mp hos
  cases h with
  | whole hw =>
      cases ds with
      | nil => trivial
      | cons d ds =>
          cases hos
          simp [FoldOk, hw.tail, hw d (by simp)]
  | short hshort => exact foldOk_of_short hin (by simp) hshort hos
  | tiled htiled => exact foldOk_of_tiled hin (by simp) htiled (by simp) hos hrs
  | rows htiled hthick =>
      cases ds with
      | nil => trivial
      | cons d ds =>
          cases hos with
          | @cons o _ os _ ho hos =>
              unfold FoldOk
              unfold RunStart at hrs
              split
              · exact .inr (pieceOk_first hin.head ho hin.tail htiled.last_thick)
              · rename_i hw
                rw [if_neg hw] at hrs
                refine foldOk_of_tiled hin.tail ?_ htiled (fun e he hone => ?_) hos hrs
                · simpa using ⟨hin.head, ho⟩
                · exact absurd hone (hthick e he)

/-! ## What is yielded -/

variable {D : Nat}

/-- The slices of a selection that follows the chunks join up to it. -/
theorem yieldsSelection_of_regular (ds : Dataset D) (hwf : ds.WellFormed)
    (e : Extents) (h : Selects ds e) (hregular : Regular (dims ds e)) (b : Build) :
    YieldsSelection b ds e := by
  have hfold := hregular.foldable (h.inBounds hwf)
  obtain ⟨fuel, items, hcollect, hwalk, -⟩ := h.collect_of_foldable hwf hfold b
  exact ⟨fuel, items, hcollect, hwalk⟩

theorem yieldsSelection_of_regular_cube : YieldsSelection .release cube .all :=
  yieldsSelection_of_regular cube cube_wellFormed .all ⟨by decide, by decide⟩
    (.tiled ⟨by decide, by decide, by decide⟩) .release

end Hidefix.Slices
