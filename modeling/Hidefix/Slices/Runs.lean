import Hidefix.Slices.Geometry

/-!
# Contiguous runs cover the selection

From a run start, the `runLen` positions that follow in row-major order are
stored one after the other in one chunk, the position after them is not stored
there, and it is the next run start.
-/

namespace Hidefix.Slices

open MixedRadix

variable {ds : List Dim} {os : List Nat}

def advanceBy (ds : List Dim) (os : List Nat) (i : Nat) : List Nat :=
  unrank (counts ds) (rank (counts ds) os + i)

theorem advanceBy_inBox (h : InBounds ds) (os : List Nat) (i : Nat) :
    InBox (counts ds) (advanceBy ds os i) :=
  unrank_inBox h.counts_pos _

@[simp] theorem advanceBy_nil (os : List Nat) (i : Nat) :
    advanceBy [] os i = [] := rfl

theorem advanceBy_cons_lt {d : Dim} {o i : Nat} (ho : o < d.count)
    (hi : rank (counts ds) os + i < (counts ds).prod) :
    advanceBy (d :: ds) (o :: os) i = o :: advanceBy ds os i := by
  unfold advanceBy
  rw [counts_cons, rank_cons, unrank_cons, Nat.add_assoc, unrank_add_mul,
    Nat.add_comm, Nat.add_mul_div_right _ _ (by omega), Nat.div_eq_of_lt hi,
    Nat.zero_add, Nat.mod_eq_of_lt ho]

theorem advanceBy_cons_zero {d : Dim} {o i : Nat} (h : InBounds ds) :
    advanceBy (d :: ds) (o :: List.replicate ds.length 0) i =
      (o + i / (counts ds).prod) % d.count :: unrank (counts ds) i := by
  unfold advanceBy
  rw [counts_cons, rank_cons, unrank_cons, rank_replicate_zero, Nat.add_zero,
    unrank_add_mul, Nat.add_comm (o * _), Nat.add_mul_div_right _ _ h.prod_pos,
    Nat.add_comm o]

theorem advanceBy_cons_end {d : Dim} {o i : Nat} (h : InBounds ds)
    (hend : rank (counts ds) os + i = (counts ds).prod) :
    advanceBy (d :: ds) (o :: os) i =
      (o + 1) % d.count :: List.replicate ds.length 0 := by
  unfold advanceBy
  have hsum : o * (counts ds).prod + rank (counts ds) os + i =
      (o + 1) * (counts ds).prod + 0 := by
    rw [Nat.succ_mul]
    omega
  rw [counts_cons, rank_cons, unrank_cons, hsum, unrank_add_mul, Nat.add_zero,
    Nat.mul_div_cancel _ h.prod_pos, unrank_zero, counts, List.length_map]

theorem run_contiguous (h : InBounds ds) (hos : InBox (counts ds) os)
    (hrs : RunStart ds os) {i : Nat} (hi : i < runLen ds os) :
    cells ds (advanceBy ds os i) = cells ds os ∧
      place ds (advanceBy ds os i) = place ds os + i := by
  induction ds generalizing os with
  | nil =>
      cases hos
      have hi : i < 1 := hi
      obtain rfl : i = 0 := by omega
      exact ⟨rfl, rfl⟩
  | cons d ds ih =>
      cases hos with
      | @cons o _ os _ ho hos =>
          have hB := h.tail.prod_pos
          unfold runLen at hi
          unfold RunStart at hrs
          by_cases hw : AllWhole ds
          · rw [if_pos hw] at hi hrs
            obtain ⟨rfl, -⟩ := hrs
            have hdiv : i / (counts ds).prod < d.rows o :=
              (Nat.div_lt_iff_lt_mul hB).mpr hi
            have hlt : o + i / (counts ds).prod < d.count := by
              have := Dim.add_rows_le ho
              omega
            have htail := unrank_inBox h.tail.counts_pos i
            rw [advanceBy_cons_zero h.tail, Nat.mod_eq_of_lt hlt]
            constructor
            · rw [cells_cons, cells_cons, Dim.cell_add hdiv,
                hw.cells_eq h.tail htail hos]
            · rw [place_cons, place_cons, Dim.within_add hdiv,
                hw.place_eq htail, hw.place_eq hos, rank_unrank,
                rank_replicate_zero, hw.chunkShape_eq, Nat.add_mul,
                Nat.add_zero, Nat.add_assoc, Nat.div_add_mod']
          · rw [if_neg hw] at hi hrs
            have hle := rank_add_runLen_le h.tail hos hrs
            obtain ⟨hcells, hplace⟩ := ih h.tail hos hrs hi
            rw [advanceBy_cons_lt ho (by omega), cells_cons, cells_cons,
              place_cons, place_cons, hcells, hplace]
            exact ⟨rfl, by omega⟩

theorem place_add_runLen_le (h : InBounds ds) (hos : InBox (counts ds) os)
    (hrs : RunStart ds os) :
    place ds os + runLen ds os ≤ (chunkShape ds).prod := by
  have hlen := runLen_pos h hos
  have hlast := (run_contiguous h hos hrs (i := runLen ds os - 1) (by omega)).2
  have hlt := place_lt h (advanceBy_inBox h os (runLen ds os - 1))
  omega

theorem runStart_advanceBy_runLen (h : InBounds ds)
    (hos : InBox (counts ds) os) (hrs : RunStart ds os) :
    RunStart ds (advanceBy ds os (runLen ds os)) := by
  induction ds generalizing os with
  | nil => trivial
  | cons d ds ih =>
      cases hos with
      | @cons o _ os _ ho hos =>
          unfold RunStart at hrs
          unfold runLen
          by_cases hw : AllWhole ds
          · rw [if_pos hw] at hrs ⊢
            obtain ⟨rfl, -⟩ := hrs
            rw [advanceBy_cons_zero h.tail, RunStart, if_pos hw,
              Nat.mul_div_cancel _ h.tail.prod_pos]
            constructor
            · have := unrank_add_mul (counts ds) (d.rows o) 0
              rw [Nat.add_zero, unrank_zero] at this
              simpa [counts] using this
            · rcases Nat.lt_or_ge (o + d.rows o) d.count with hlt | hge
              · rw [Nat.mod_eq_of_lt hlt]
                exact .inr (Dim.dvd_add_rows h.head.1 hlt)
              · have heq : o + d.rows o = d.count := by
                  have := Dim.add_rows_le ho
                  omega
                rw [heq, Nat.mod_self]
                exact .inl rfl
          · rw [if_neg hw] at hrs ⊢
            have htail := ih h.tail hos hrs
            unfold advanceBy at htail ⊢
            rw [counts_cons, rank_cons, unrank_cons, Nat.add_assoc,
              unrank_add_mul, RunStart, if_neg hw]
            exact htail

theorem not_runStart_advanceBy (h : InBounds ds)
    (hos : InBox (counts ds) os) (hrs : RunStart ds os) {i : Nat}
    (hpos : 0 < i) (hi : i < runLen ds os) :
    ¬ RunStart ds (advanceBy ds os i) := by
  induction ds generalizing os with
  | nil =>
      cases hos
      have hi : i < 1 := hi
      omega
  | cons d ds ih =>
      cases hos with
      | @cons o _ os _ ho hos =>
          have hB := h.tail.prod_pos
          unfold runLen at hi
          unfold RunStart at hrs
          by_cases hw : AllWhole ds
          · rw [if_pos hw] at hi hrs
            obtain ⟨rfl, -⟩ := hrs
            have hdiv : i / (counts ds).prod < d.rows o :=
              (Nat.div_lt_iff_lt_mul hB).mpr hi
            have hlt : o + i / (counts ds).prod < d.count := by
              have := Dim.add_rows_le ho
              omega
            rw [advanceBy_cons_zero h.tail, RunStart, if_pos hw,
              Nat.mod_eq_of_lt hlt]
            rintro ⟨hzero, hhead⟩
            have hmod : i % (counts ds).prod = 0 := by
              rw [← rank_unrank, hzero, rank_replicate_zero]
            have hquot : 0 < i / (counts ds).prod :=
              Nat.div_pos (Nat.le_of_dvd hpos (Nat.dvd_of_mod_eq_zero hmod)) hB
            rcases hhead with hhead | hhead
            · omega
            · exact Dim.not_dvd_add hquot hdiv hhead
          · rw [if_neg hw] at hi hrs
            have hle := rank_add_runLen_le h.tail hos hrs
            rw [advanceBy_cons_lt ho (by omega), RunStart, if_neg hw]
            exact ih h.tail hos hrs hi

private theorem allWhole_of_place (h : InBounds ds)
    (hfirst : place ds (List.replicate ds.length 0) = 0)
    (hlast : place ds ((counts ds).map (· - 1)) + 1 = (chunkShape ds).prod)
    (hcells : cells ds ((counts ds).map (· - 1)) =
      cells ds (List.replicate ds.length 0)) : AllWhole ds := by
  induction ds with
  | nil => intro d hd; cases hd
  | cons d ds ih =>
      have hW : 0 < (chunkShape ds).prod :=
        prod_pos_of_forall h.tail.chunk_pos
      have hbox : InBox (counts ds) ((counts ds).map (· - 1)) := by
        rw [← unrank_pred_prod h.tail.counts_pos]
        exact unrank_inBox h.tail.counts_pos _
      have hplt := place_lt h.tail hbox
      obtain ⟨hc, hk, -⟩ := h.head
      simp only [List.length_cons, List.replicate_succ, place_cons, counts_cons,
        List.map_cons, chunkShape_cons, List.prod_cons, cells_cons,
        List.cons.injEq] at hfirst hlast hcells
      have hwithin : d.within 0 = 0 := by
        rcases Nat.eq_zero_or_pos (d.within 0) with h0 | hpos
        · exact h0
        · have := Nat.mul_pos hpos hW
          omega
      have hlt := Dim.within_lt hc (d.count - 1)
      have htop : d.within (d.count - 1) = d.chunk - 1 := by
        by_contra hne
        have hle : (d.within (d.count - 1) + 2) * (chunkShape ds).prod ≤
            d.chunk * (chunkShape ds).prod :=
          Nat.mul_le_mul_right _ (by omega)
        rw [Nat.add_mul] at hle
        omega
      have htail : AllWhole ds := by
        refine ih h.tail (by omega) ?_ hcells.2
        rw [htop] at hlast
        obtain ⟨m, hm⟩ := Nat.exists_eq_add_of_le' hc
        rw [hm, Nat.add_sub_cancel, Nat.succ_mul] at hlast
        omega
      have hhead : d.Whole := by
        have h0 := d.cell_mul_add_within 0
        have hl := d.cell_mul_add_within (d.count - 1)
        rw [hcells.1, htop] at hl
        rw [hwithin] at h0
        exact ⟨⟨d.cell 0, by rw [Nat.mul_comm]; omega⟩, by omega⟩
      intro x hx
      rcases List.mem_cons.mp hx with rfl | hx
      · exact hhead
      · exact htail x hx

/-- A run is maximal: the next position is not stored behind it. -/
theorem run_maximal (h : InBounds ds) (hos : InBox (counts ds) os)
    (hrs : RunStart ds os)
    (hlt : rank (counts ds) os + runLen ds os < (counts ds).prod)
    (hcells : cells ds (advanceBy ds os (runLen ds os)) = cells ds os) :
    place ds (advanceBy ds os (runLen ds os)) ≠
      place ds os + runLen ds os := by
  induction ds generalizing os with
  | nil =>
      cases hos
      simp [runLen, counts] at hlt
  | cons d ds ih =>
      cases hos with
      | @cons o _ os _ ho hos =>
          have hB := h.tail.prod_pos
          have hrun := hrs
          unfold RunStart at hrs
          unfold runLen at hlt hcells ⊢
          by_cases hw : AllWhole ds
          · rw [if_pos hw] at hlt hcells hrs
            obtain ⟨rfl, -⟩ := hrs
            rw [counts_cons, rank_cons, rank_replicate_zero, Nat.add_zero,
              List.prod_cons, ← Nat.add_mul] at hlt
            have hnext : o + d.rows o < d.count :=
              Nat.lt_of_mul_lt_mul_right hlt
            rw [advanceBy_cons_zero h.tail, Nat.mul_div_cancel _ hB,
              Nat.mod_eq_of_lt hnext, cells_cons, cells_cons,
              Dim.cell_add_rows h.head.1 hnext, List.cons.injEq] at hcells
            omega
          · rw [if_neg hw] at hlt hcells hrs ⊢
            rcases Nat.lt_or_ge
                (rank (counts ds) os + runLen ds os) (counts ds).prod with hin | hout
            · rw [advanceBy_cons_lt ho hin] at hcells ⊢
              rw [cells_cons, cells_cons, List.cons.injEq] at hcells
              rw [place_cons, place_cons]
              have := ih h.tail hos hrs hin hcells.2
              omega
            · -- the later dimensions are exhausted: the next position is at
              -- the beginning of the next layer
              have hend : rank (counts ds) os + runLen ds os =
                  (counts ds).prod :=
                le_antisymm (rank_add_runLen_le h.tail hos hrs) hout
              have hadv : advanceBy (d :: ds) (o :: os) (runLen ds os) =
                  (o + 1) % d.count :: List.replicate ds.length 0 :=
                advanceBy_cons_end h.tail hend
              have hnext : o + 1 < d.count := by
                rw [counts_cons, rank_cons, List.prod_cons] at hlt
                have : (o + 1) * (counts ds).prod < d.count * (counts ds).prod := by
                  rw [Nat.succ_mul]
                  omega
                exact Nat.lt_of_mul_lt_mul_right this
              rw [hadv, Nat.mod_eq_of_lt hnext, cells_cons, cells_cons,
                List.cons.injEq] at hcells
              rw [hadv, Nat.mod_eq_of_lt hnext, place_cons, place_cons]
              intro hplace
              have hlen := runLen_pos h.tail hos
              have hstep : d.within (o + 1) = d.within o + 1 := by
                have h0 := d.cell_mul_add_within o
                have h1 := d.cell_mul_add_within (o + 1)
                rw [hcells.1] at h1
                omega
              have hlastPos : advanceBy ds os (runLen ds os - 1) =
                  (counts ds).map (· - 1) := by
                rw [← unrank_pred_prod h.tail.counts_pos, ← hend,
                  Nat.add_sub_assoc hlen]
                rfl
              obtain ⟨hlc, hlp⟩ := run_contiguous h.tail hos hrs
                (i := runLen ds os - 1) (by omega)
              rw [hlastPos] at hlc hlp
              have hbox := advanceBy_inBox h.tail os (runLen ds os - 1)
              rw [hlastPos] at hbox
              have hplt := place_lt h.tail hbox
              rw [hstep, Nat.succ_mul] at hplace
              exact hw (allWhole_of_place h.tail (by omega) (by omega)
                (hlc.trans hcells.2.symm))

end Hidefix.Slices
