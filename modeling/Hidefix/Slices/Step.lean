import Hidefix.Slices.Loop

/-!
# One pass of the dimension loop

From a run start the loop passes the dimensions selected as whole chunks,
advances in the dimension before them, and may go on outward.  Where `FoldOk`
holds the result is the run in both builds; where it does not, a debug build
that returns has gone past the end of the run.
-/

namespace Hidefix.Slices

open MixedRadix
open Foundation
open Idx

variable {b : Build} {w : Nat} {d : Dim} {o : Nat} {cur : LoopState}

/-! ## Dimensions selected as whole chunks -/

theorem Dim.Whole.thick_zero (hw : d.Whole) (h : d.InBounds) :
    d.thick 0 = d.chunk := by
  obtain ⟨⟨q, hq⟩, hcount⟩ := hw
  obtain ⟨hc, -, hsize⟩ := h
  unfold thick cell
  rw [Nat.add_zero, hq, Nat.mul_div_cancel_left _ hc, Nat.mul_comm q]
  omega

theorem Dim.Whole.exact (hw : d.Whole) (h : d.InBounds) : d.Exact := by
  obtain ⟨hdvd, hcount⟩ := hw
  obtain ⟨-, -, hsize⟩ := h
  exact ⟨hdvd, by omega⟩

theorem Dim.Whole.add_stride (hw : d.Whole) (h : d.InBounds) (w m : Nat) :
    m * w + stride w d 0 m = (m / d.count + 1) * (d.count * w) := by
  have hk : 0 < d.count := h.2.1
  have hlt : m % d.count < d.count := Nat.mod_lt _ hk
  have hdm := Nat.div_add_mod' m d.count
  have hsum : m + (d.count - m % d.count) = (m / d.count + 1) * d.count := by
    rw [Nat.succ_mul]
    omega
  unfold stride landed
  rw [hw.rows_zero h.1, Nat.zero_add, Nat.zero_add, ← Nat.add_mul, hsum,
    Nat.mul_assoc]

theorem rowsCounted_cons {d : Dim} {ds : List Dim} (hd : d.Whole)
    (hw : AllWhole ds) :
    rowsCounted (d :: ds) =
      if d.chunk = 1 ∧ (counts ds).prod ≠ 1 then rowsCounted ds
      else rowsCounted ds / d.count + 1 := by
  rw [rowsCounted, hw.chunkShape_eq, hd.2]

theorem rowsCounted_mul_le {d : Dim} {ds : List Dim} (h : d.InBounds)
    (hd : d.Whole) (hw : AllWhole ds) :
    rowsCounted ds * (counts ds).prod ≤
      rowsCounted (d :: ds) * (counts (d :: ds)).prod := by
  rw [rowsCounted_cons hd hw, counts_cons, List.prod_cons]
  split
  · rename_i hthin
    rw [hd.2, hthin.1, Nat.one_mul]
  · rw [← hd.add_stride h]
    exact Nat.le_add_right _ _

theorem round_up_le {m q n r : Nat} (hlt : m * n < r) (hdvd : q * n ∣ r)
    (hq : 0 < q) : (m / q + 1) * (q * n) ≤ r := by
  obtain ⟨s, rfl⟩ := hdvd
  rw [Nat.mul_comm (q * n)] at hlt ⊢
  refine Nat.mul_le_mul_right _ ?_
  rw [← Nat.mul_assoc] at hlt
  exact (Nat.div_lt_iff_lt_mul hq).mpr (Nat.lt_of_mul_lt_mul_right hlt)

def atStart (n offset advance carry : Nat) : LoopState :=
  ⟨List.replicate n 0, offset, advance, carry⟩

@[simp] theorem atStart_offset (n offset advance carry : Nat) :
    (atStart n offset advance carry).offset = offset := rfl

@[simp] theorem atStart_advance (n offset advance carry : Nat) :
    (atStart n offset advance carry).advance = advance := rfl

@[simp] theorem atStart_carry (n offset advance carry : Nat) :
    (atStart n offset advance carry).carry = carry := rfl

theorem Dim.Whole.skipped_atStart (hw : d.Whole) (hone : d.chunk = 1)
    (n offset advance m : Nat) :
    skipped d 0 (atStart n offset advance m) =
      atStart (n + 1) offset advance m := by
  obtain ⟨-, hcount⟩ := hw
  simp [skipped, atStart, landed, hcount, hone, Nat.mod_one,
    List.replicate_succ]

theorem Dim.Whole.advanced_atStart (hw : d.Whole) (h : d.InBounds)
    (n offset advance m : Nat) :
    advanced w d 0 (atStart n offset advance m) =
      atStart (n + 1) (offset + stride w d 0 m) (advance + stride w d 0 m)
        (m / d.count + 1) := by
  have hk : 0 < d.count := h.2.1
  simp [advanced, atStart, hw.rows_zero h.1, Nat.div_self hk,
    List.replicate_succ]

theorem digits_atStart {ds : List Dim} (h : InBounds ds)
    (offset advance m : Nat) :
    Digits (counts ds) (m * (counts ds).prod)
      (atStart ds.length offset advance m) := by
  refine ⟨h.prod_pos, ?_, ?_⟩
  · have := unrank_add_mul (counts ds) m 0
    rw [Nat.add_zero, unrank_zero] at this
    simpa [atStart, counts] using this.symm
  · exact (Nat.mul_div_cancel _ h.prod_pos).symm

theorem visitAxis_whole {remaining offset n m : Nat} (hd : d.Whole)
    (h : PointOk d 0) (hlt : m * w < remaining)
    (hdvd : d.count * w ∣ remaining) (hfit : offset + remaining < 2 ^ 64) :
    visitAxis b (offset + remaining) (axisOf w d 0)
        (atStart n (offset + m * w) (m * w) m) =
      if d.chunk = 1 ∧ w ≠ 1 then
        .ok (atStart (n + 1) (offset + m * w) (m * w) m, true)
      else
        let passed := (m / d.count + 1) * (d.count * w)
        .ok (atStart (n + 1) (offset + passed) passed (m / d.count + 1),
          decide (passed < remaining)) := by
  have hk : 0 < d.count := h.inBounds.2.1
  have hw : 0 < w := by
    rcases Nat.eq_zero_or_pos w with rfl | hpos
    · rw [Nat.mul_zero] at hdvd
      have := Nat.eq_zero_of_zero_dvd hdvd
      omega
    · exact hpos
  have hm : m ≤ m * w := Nat.le_mul_of_pos_right _ hw
  have hthick := hd.thick_zero h.inBounds
  split
  · rename_i hthin
    rw [visitAxis_skip h (by simp only [atStart]; omega)
      (by rw [hthick]; exact hthin), hd.skipped_atStart hthin.1]
  · rename_i hthin
    have hadd := hd.add_stride h.inBounds w m
    have hle := round_up_le hlt hdvd hk
    have hback : landed d 0 m ≤ 0 + d.rows 0 := by
      rw [hd.rows_zero h.inBounds.1, Nat.zero_add]
      exact (Nat.mod_lt _ hk).le
    rw [visitAxis_advance h (by simp only [atStart]; omega)
      (by rw [hthick]; exact hthin) hback (by simp only [atStart]; omega)
      (by simp only [atStart]; omega), hd.advanced_atStart h.inBounds]
    simp only [atStart, hd.exact h.inBounds, true_and, Nat.add_assoc, hadd]
    split
    · rename_i hgo
      simp [Nat.lt_of_add_lt_add_left hgo]
    · rename_i hstop
      rw [debugAssert_of (Nat.add_le_add_left hle _), ok_bind]
      have : ¬ (m / d.count + 1) * (d.count * w) < remaining := by omega
      simp [this]

/--
The loop passes dimensions selected as whole chunks, or it is stopped there by
the end of the selection.
-/
theorem foldAxes_inner {inner : List Dim} (hw : AllWhole inner)
    (hinner : ∀ d ∈ inner, PointOk d 0) {tail : List Point}
    (htail : ∀ p ∈ tail, PointOk p.1 p.2) {remaining : Nat}
    (hpos : 0 < remaining) (hdvd : (counts inner).prod ∣ remaining)
    (hfit : value tail * (counts inner).prod + remaining < 2 ^ 64) :
    let size := (counts inner).prod
    let offset := value tail * size
    let fold := foldAxes b (offset + remaining)
    let all := axesOf 1
      (points inner (List.replicate inner.length 0) ++ tail)
    let counted := rowsCounted inner * size
    (counted < remaining →
      fold all (atStart 0 offset 0 0) =
        fold (axesOf size tail)
          (atStart inner.length (offset + counted) counted
            (rowsCounted inner))) ∧
    (remaining ≤ counted →
      fold all (atStart 0 offset 0 0) =
        .ok (unrank (outerCounts tail ++ counts inner) (offset + remaining),
          offset + remaining, remaining)) := by
  induction inner generalizing tail with
  | nil =>
      refine ⟨fun _ => ?_, fun hle => ?_⟩
      · simp [points, counts, rowsCounted, atStart]
      · simp only [rowsCounted, Nat.zero_mul] at hle
        omega
  | cons e inner ih =>
      have he : e.Whole := hw e (by simp)
      have hpe : PointOk e 0 := hinner e (by simp)
      have hkpos : 0 < e.count := hpe.inBounds.2.1
      have hpts : ∀ p ∈ (e, 0) :: tail, PointOk p.1 p.2 := by
        intro p hp
        rcases List.mem_cons.mp hp with rfl | hp
        · exact hpe
        · exact htail p hp
      have hnum : value ((e, 0) :: tail) * (counts inner).prod =
          value tail * (counts (e :: inner)).prod := by
        rw [value, counts_cons, List.prod_cons]
        ring
      have hprod : (counts (e :: inner)).prod =
          e.count * (counts inner).prod := by simp
      have hall : points (e :: inner) (List.replicate (e :: inner).length 0) ++
          tail = points inner (List.replicate inner.length 0) ++
            (e, 0) :: tail := by
        rw [List.length_cons, List.replicate_succ, points_cons]
        simp
      have hmono := rowsCounted_mul_le hpe.inBounds he hw.tail
      obtain ⟨hgo, hhalt⟩ := ih hw.tail (fun d hd => hinner d (by simp [hd]))
        hpts (Dvd.dvd.trans (Dvd.intro_left _ hprod.symm) hdvd)
        (by rw [hnum]; exact hfit)
      simp only [hnum] at hgo hhalt
      simp only [hall]
      rcases Nat.lt_or_ge (rowsCounted inner * (counts inner).prod) remaining
        with hlt | hge
      · rw [hgo hlt, axesOf_cons]
        have hvisit := visitAxis_whole (b := b)
          (n := inner.length) he hpe hlt (hprod ▸ hdvd) hfit
        have hweight : (counts inner).prod * e.chunk =
            (counts (e :: inner)).prod := by
          rw [hprod, ← he.2, Nat.mul_comm]
        have hrows := rowsCounted_cons he hw.tail
        by_cases hthin : e.chunk = 1 ∧ (counts inner).prod ≠ 1
        · rw [if_pos hthin] at hvisit hrows
          have hsame : (counts (e :: inner)).prod = (counts inner).prod := by
            rw [hprod, he.2, hthin.1, Nat.one_mul]
          rw [foldAxes_continue hvisit, hweight, hrows, hsame]
          exact ⟨fun _ => rfl, fun hle => by omega⟩
        · rw [if_neg hthin] at hvisit hrows
          simp only [← hprod, ← hrows] at hvisit
          by_cases hgo : rowsCounted (e :: inner) *
              (counts (e :: inner)).prod < remaining
          · rw [decide_eq_true hgo] at hvisit
            rw [foldAxes_continue hvisit, hweight]
            exact ⟨fun _ => rfl, fun hle => by omega⟩
          · -- the values left are a multiple of the whole dimensions, so that
            -- the loop stops exactly at the end
            rw [decide_eq_false hgo] at hvisit
            have hend : rowsCounted (e :: inner) *
                (counts (e :: inner)).prod = remaining := by
              refine le_antisymm ?_ (Nat.le_of_not_lt hgo)
              rw [hrows, hprod]
              exact round_up_le hlt (hprod ▸ hdvd) hkpos
            have hsize : 0 < (counts (e :: inner)).prod :=
              Nat.pos_of_dvd_of_pos hdvd hpos
            have hvalue : value tail ≤
                value tail * (counts (e :: inner)).prod :=
              Nat.le_mul_of_pos_right _ hsize
            have hcarry : rowsCounted (e :: inner) ≤ remaining :=
              (Nat.le_mul_of_pos_right _ hsize).trans hend.le
            have hdigits := digits_atStart
              (fun d hd => (hinner d hd).inBounds)
              (value tail * (counts (e :: inner)).prod + remaining) remaining
              (rowsCounted (e :: inner))
            rw [hend] at hdigits hvisit
            have hleft := leftOver_digits (b := b)
              (w := (counts inner).prod * e.chunk) htail hdigits
              (by simp only [atStart]; omega)
            rw [List.length_cons] at hleft
            rw [foldAxes_break hvisit, hleft]
            exact ⟨fun hlt => absurd hlt hgo, fun _ => rfl⟩
      · refine ⟨fun hlt => absurd (hge.trans hmono) (by omega), fun _ => ?_⟩
        rw [hhalt hge, outerCounts_cons, List.append_assoc,
          List.singleton_append]
        rfl

/-! ## Dimensions outside the run -/

variable {stop : Nat}

theorem rows_eq_one_of_thick (h : PointOk d o) (hthin : d.thick o = 1) :
    d.rows o = 1 := by
  have hle := h.rows_le_thick
  have hpos := Dim.rows_pos h.inBounds.1 h.lt
  omega

theorem not_exact_of_rows (h : PointOk d o) (hlt : o + d.rows o < d.count) :
    ¬ d.Exact := by
  intro hexact
  have hcount := (h.covers_iff.mpr hexact).2
  have hmin := h.min_count
  omega

/-- The outer dimensions leave a finished run as it is. -/
theorem foldAxes_outer {pts : List Point} (hpts : ∀ p ∈ pts, PointOk p.1 p.2)
    {ks : List Nat} {n : Nat} (hw : 2 ≤ w) (hd : Digits ks n cur)
    (hpass : PassesOut pts cur.carry) (hoffset : cur.offset ≤ stop)
    (hstop : stop < 2 ^ 64) (hadvance : cur.advance < 2 ^ 64)
    (hfit : value pts + cur.carry + 1 < 2 ^ 64) :
    foldAxes b stop (axesOf w pts) cur =
      .ok (unrank (outerCounts pts ++ ks) (value pts * ks.prod + n),
        cur.offset, cur.advance) := by
  induction pts generalizing w ks n cur with
  | nil =>
      rw [axesOf_nil, foldAxes_nil, hd.coords]
      simp [value]
  | cons p pts ih =>
      obtain ⟨d, o⟩ := p
      have hp : PointOk d o := hpts (d, o) (by simp)
      have htail : ∀ p ∈ pts, PointOk p.1 p.2 :=
        fun p hp => hpts p (by simp [hp])
      have hk : 1 ≤ d.count := hp.inBounds.2.1
      have hvalue : value pts ≤ d.count * value pts := Nat.le_mul_of_pos_left _ hk
      rw [value] at hfit
      rw [unrank_outerCounts_cons, axesOf_cons]
      by_cases hthin : d.thick o = 1
      · rw [PassesOut, if_pos hthin] at hpass
        have hcarry : (o + cur.carry) / d.count ≤ o + cur.carry :=
          Nat.div_le_self _ _
        have hchunk : w * 1 ≤ w * d.chunk :=
          Nat.mul_le_mul_left _ hp.inBounds.1
        have hvisit : visitAxis b stop (axisOf w d o) cur = _ :=
          visitAxis_skip hp (by omega) ⟨hthin, by omega⟩
        rw [foldAxes_continue hvisit]
        exact ih htail (by omega) (hd.skipped hp) hpass hoffset hadvance (by
          change value pts + (o + cur.carry) / d.count + 1 < 2 ^ 64
          omega)
      · rw [PassesOut, if_neg hthin] at hpass
        obtain ⟨hone, hnext, hrows⟩ := hpass
        have hlanded : landed d o cur.carry = o + 1 := by
          rw [landed, hone, Nat.mod_eq_of_lt hnext]
        have hback : landed d o cur.carry ≤ o + d.rows o := by omega
        have hstride : stride w d o cur.carry = 0 := by
          rw [stride, hlanded, hrows, Nat.sub_self, Nat.zero_mul]
        have hvisit : visitAxis b stop (axisOf w d o) cur = _ :=
          visitAxis_advance hp (by omega) (by omega) hback (by omega) (by omega)
        rw [hstride, if_neg fun hgo => not_exact_of_rows hp (by omega) hgo.1,
          debugAssert_of (by omega), ok_bind] at hvisit
        have hcarry : (advanced w d o cur).carry = 0 := by
          simp [advanced, hone, hrows, Nat.div_eq_of_lt hnext]
        have hdigits := hd.advanced (w := w) hp hback
        have hzero : stride ks.prod d o cur.carry = 0 := by
          rw [stride, hlanded, hrows, Nat.sub_self, Nat.zero_mul]
        rw [hzero, Nat.add_zero] at hdigits
        rw [foldAxes_break hvisit, leftOver_digits htail hdigits (by omega)]
        simp [advanced, hstride]

theorem lt_foldAxes_outer {pts : List Point}
    (hpts : ∀ p ∈ pts, PointOk p.1 p.2) (hw : 2 ≤ w) (hcarry : cur.carry ≤ 1)
    (hpass : ¬ PassesOut pts cur.carry) {coords : List Nat}
    {offset advance : Nat}
    (hok : foldAxes .debug stop (axesOf w pts) cur =
      .ok (coords, offset, advance)) : cur.advance < advance := by
  induction pts generalizing w cur with
  | nil => exact absurd trivial hpass
  | cons p pts ih =>
      obtain ⟨d, o⟩ := p
      have hp : PointOk d o := hpts (d, o) (by simp)
      have htail : ∀ p ∈ pts, PointOk p.1 p.2 :=
        fun p hp => hpts p (by simp [hp])
      have hlt : o < d.count := hp.lt
      have hchunk : w * 1 ≤ w * d.chunk :=
        Nat.mul_le_mul_left _ hp.inBounds.1
      obtain ⟨cur', flag, hvisit, hgo, hstay⟩ := foldAxes_cons hok
      rcases visitAxis_debug hp hvisit with
        ⟨hthin, -, rfl, rfl⟩ | ⟨hthick, hback, rfl, -⟩
      · rw [PassesOut, if_pos hthin] at hpass
        have hle : (o + cur.carry) / d.count ≤ 1 := by
          rw [Nat.div_le_iff_le_mul_add_pred (by omega)]
          omega
        have hrest := ih htail (by omega)
          (show (skipped d o cur).carry ≤ 1 from hle) hpass (hgo rfl)
        exact hrest
      · rw [PassesOut, if_neg (by omega)] at hpass
        have hrows := Dim.rows_pos hp.inBounds.1 hlt
        have hstep : landed d o cur.carry < o + d.rows o := by
          rcases Nat.lt_or_ge (o + cur.carry) d.count with hin | hout
          · have hsum : landed d o cur.carry = o + cur.carry :=
              Nat.mod_eq_of_lt hin
            omega
          · have hsum : o + cur.carry = d.count := by omega
            rw [landed, hsum, Nat.mod_self]
            omega
        have hstride : 0 < stride w d o cur.carry :=
          Nat.mul_pos (by omega) (by omega)
        have hmore : cur.advance < (advanced w d o cur).advance :=
          Nat.lt_add_of_pos_right hstride
        cases flag with
        | true => exact hmore.trans_le (advance_le_foldAxes htail (hgo rfl))
        | false => exact hmore.trans_le (hstay rfl).le

/-! ## The first dimension that is not selected as a whole chunk -/

theorem rowsCounted_pos {inner : List Dim} (h : (chunkShape inner).prod ≠ 1) :
    1 ≤ rowsCounted inner := by
  induction inner with
  | nil => exact absurd rfl h
  | cons d ds ih =>
      rw [rowsCounted]
      split
      · rename_i hthin
        exact ih hthin.2
      · exact Nat.le_add_left 1 _

theorem Dim.Exact.add_rows (hexact : d.Exact) (h : PointOk d o) :
    o + d.rows o = d.count := by
  have hmin := h.min_count
  have hcount := (h.covers_iff.mpr hexact).2
  omega

theorem Dim.Exact.two_le_chunk (hexact : d.Exact) (h : d.InBounds)
    (hw : ¬ d.Whole) : 2 ≤ d.chunk := by
  obtain ⟨hdvd, hcount⟩ := hexact
  obtain ⟨hc, hk, -⟩ := h
  by_contra hone
  exact hw ⟨hdvd, by omega⟩

variable {outer : List Point} {inner : List Dim}

theorem visitAxis_focus (h : PointOk d o) {size offset n m : Nat}
    (hthick : ¬ (d.thick o = 1 ∧ size ≠ 1)) (hin : o + m < d.count)
    (hback : m ≤ d.rows o) (hsum : o + m + 1 < 2 ^ 64)
    (hrun : offset + d.rows o * size ≤ stop) (hstop : stop < 2 ^ 64) :
    ∃ cur', visitAxis b stop (axisOf size d o)
        (atStart n (offset + m * size) (m * size) m) =
          .ok (cur', decide (d.Exact ∧ offset + d.rows o * size < stop)) ∧
      cur'.offset = offset + d.rows o * size ∧
      cur'.advance = d.rows o * size ∧
      cur'.carry = (o + d.rows o) / d.count ∧
      ∀ ks : List Nat, ks.prod = size →
        Digits ks (m * size) (atStart n (offset + m * size) (m * size) m) →
        Digits (d.count :: ks) (o * size + d.rows o * size) cur' := by
  have hlanded : landed d o m = o + m := Nat.mod_eq_of_lt hin
  have hstride : m * size + stride size d o m = d.rows o * size := by
    rw [stride, hlanded, ← Nat.add_mul]
    congr 1
    omega
  have hvisit : visitAxis b stop (axisOf size d o)
      (atStart n (offset + m * size) (m * size) m) = _ :=
    visitAxis_advance h hsum hthick
    (by simp only [atStart_carry]; omega)
    (by simp only [atStart_carry, atStart_offset]; omega)
    (by simp only [atStart_carry, atStart_advance]; omega)
  simp only [atStart_carry, atStart_offset, Nat.add_assoc, hstride] at hvisit
  refine ⟨advanced size d o (atStart n (offset + m * size) (m * size) m),
    ?_, ?_, hstride, ?_, ?_⟩
  · rw [hvisit]
    split
    · rename_i hgo
      rw [decide_eq_true hgo]
    · rename_i hstay
      rw [debugAssert_of hrun, ok_bind, decide_eq_false hstay]
  · rw [advanced, atStart_offset, atStart_carry, Nat.add_assoc, hstride]
  · rw [advanced, atStart_carry, Nat.div_eq_of_lt hin, Nat.zero_add]
  · rintro ks rfl hd
    have hnext := hd.advanced (w := ks.prod) h
      (by simp only [atStart_carry]; omega)
    rwa [atStart_carry, Nat.add_assoc, hstride] at hnext

theorem foldAxes_focus (hw : AllWhole inner) (hinner : InBounds inner)
    (hd : ¬ d.Whole) (hpts : ∀ p ∈ (d, o) :: outer, PointOk p.1 p.2)
    (hlt : rowsCounted inner < rowsLeft ((d, o) :: outer))
    (hpiece : PieceOk outer d o inner)
    (hfit : volume ((d, o) :: outer) * (counts inner).prod < 2 ^ 64) :
    let size := (counts inner).prod
    let offset := value ((d, o) :: outer) * size
    let counted := rowsCounted inner * size
    let run := d.rows o * size
    foldAxes b (volume ((d, o) :: outer) * size)
        (axesOf size ((d, o) :: outer))
        (atStart inner.length (offset + counted) counted (rowsCounted inner)) =
      .ok (unrank (outerCounts ((d, o) :: outer) ++ counts inner)
        (offset + run), offset + run, run) := by
  intro size offset counted run
  change volume ((d, o) :: outer) * size < 2 ^ 64 at hfit
  have hp : PointOk d o := hpts (d, o) (by simp)
  have houter : ∀ p ∈ outer, PointOk p.1 p.2 := fun p hp => hpts p (by simp [hp])
  have hk : 1 ≤ d.count := hp.inBounds.2.1
  have hsize : 0 < size := hinner.prod_pos
  have hrows := Dim.rows_pos hp.inBounds.1 hp.lt
  have hle : d.rows o ≤ rowsLeft ((d, o) :: outer) :=
    rows_le_rowsLeft fun p hp => (hpts p hp).lt
  have hvalue : value outer ≤ d.count * value outer :=
    Nat.le_mul_of_pos_left _ hk
  have hval : value ((d, o) :: outer) = o + d.count * value outer := rfl
  have hleft : value ((d, o) :: outer) + rowsLeft ((d, o) :: outer) =
      volume ((d, o) :: outer) := value_add_rowsLeft fun p hp => (hpts p hp).lt
  have hvolume : volume ((d, o) :: outer) ≤
      volume ((d, o) :: outer) * size := Nat.le_mul_of_pos_right _ hsize
  have hstop : offset + run ≤ volume ((d, o) :: outer) * size := by
    rw [← Nat.add_mul]
    exact Nat.mul_le_mul_right _ (by omega)
  have hdigits := digits_atStart hinner (offset + counted) counted
    (rowsCounted inner)
  rw [PieceOk, if_neg (by omega)] at hpiece
  rw [axesOf_cons]
  by_cases hthin : d.thick o = 1 ∧ size ≠ 1
  · -- the dimension is one layer of the chunk thick: it is skipped
    rw [if_pos (by rwa [hw.chunkShape_eq])] at hpiece
    obtain ⟨hone, hpass⟩ := hpiece
    have hrun : run = counted := by
      simp only [run, counted, hone, rows_eq_one_of_thick hp hthin.1]
    have hvisit : visitAxis b (volume ((d, o) :: outer) * size) (axisOf size d o)
        (atStart inner.length (offset + counted) counted (rowsCounted inner)) = _ :=
      visitAxis_skip hp (by simp only [atStart_carry]; omega) hthin
    have hchunk : size * 1 ≤ size * d.chunk :=
      Nat.mul_le_mul_left _ hp.inBounds.1
    have hcarry : (o + 1) / d.count ≤ o + 1 := Nat.div_le_self _ _
    rw [foldAxes_continue hvisit, unrank_outerCounts_cons, hrun]
    refine foldAxes_outer houter (by omega) (hdigits.skipped hp) ?_
      (by simp only [skipped, atStart_offset]; omega) hfit
      (by simp only [skipped, atStart_advance]; omega) ?_
    · change PassesOut outer ((o + rowsCounted inner) / d.count)
      rwa [hone]
    · change value outer + (o + rowsCounted inner) / d.count + 1 < 2 ^ 64
      rw [hone]
      omega
  · rw [if_neg (by rwa [hw.chunkShape_eq])] at hpiece
    obtain ⟨hin, hback, hexact⟩ := hpiece
    have hlanded : landed d o (rowsCounted inner) = o + rowsCounted inner :=
      Nat.mod_eq_of_lt hin
    have hstride : counted + stride size d o (rowsCounted inner) = run := by
      rw [stride, hlanded, ← Nat.add_mul]
      congr 1
      omega
    obtain ⟨cur', hvisit, hoffset, hadvance, hcarry, hdigits'⟩ :=
      visitAxis_focus (b := b) (n := inner.length) hp hthin hin hback
        (by omega) hstop hfit
    have hnext := hdigits' (counts inner) rfl hdigits
    have hle1 : cur'.carry ≤ 1 := by
      rw [hcarry, Nat.div_le_iff_le_mul_add_pred hk]
      have := Dim.add_rows_le hp.lt
      omega
    change cur'.offset = offset + run at hoffset
    change cur'.advance = run at hadvance
    change Digits _ (o * size + run) cur' at hnext
    rw [unrank_outerCounts_cons, ← hoffset, ← hadvance]
    by_cases hgo : d.Exact ∧ offset + run < volume ((d, o) :: outer) * size
    · -- the chunk is covered: the loop goes on outward with one row carried
      have hmore : d.rows o < rowsLeft ((d, o) :: outer) := by
        have hlt := hgo.2
        rw [← hleft, Nat.add_mul] at hlt
        exact Nat.lt_of_mul_lt_mul_right (Nat.lt_of_add_lt_add_left hlt)
      have hone : cur'.carry = 1 := by
        rw [hcarry, hgo.1.add_rows hp, Nat.div_self hk]
      have hchunk : 1 * 2 ≤ size * d.chunk :=
        Nat.mul_le_mul hsize (hgo.1.two_le_chunk hp.inBounds hd)
      rw [decide_eq_true hgo] at hvisit
      rw [foldAxes_continue hvisit, foldAxes_outer houter (by omega) hnext
        (by rw [hone]; exact hexact ⟨hgo.1, hmore⟩) (by omega) hfit (by omega)
        (by omega), hadvance]
    · rw [decide_eq_false hgo] at hvisit
      rw [foldAxes_break hvisit, leftOver_digits houter hnext (by omega),
        hadvance]
      rfl

theorem lt_foldAxes_focus (hw : AllWhole inner) (hinner : InBounds inner)
    (hd : ¬ d.Whole) (hpts : ∀ p ∈ (d, o) :: outer, PointOk p.1 p.2)
    (hlt : rowsCounted inner < rowsLeft ((d, o) :: outer))
    (hpiece : ¬ PieceOk outer d o inner) {coords : List Nat}
    {offset advance : Nat} :
    let size := (counts inner).prod
    let counted := rowsCounted inner * size
    foldAxes .debug (volume ((d, o) :: outer) * size)
        (axesOf size ((d, o) :: outer))
        (atStart inner.length (value ((d, o) :: outer) * size + counted) counted
          (rowsCounted inner)) = .ok (coords, offset, advance) →
      d.rows o * size < advance := by
  intro size counted hok
  have hp : PointOk d o := hpts (d, o) (by simp)
  have houter : ∀ p ∈ outer, PointOk p.1 p.2 := fun p hp => hpts p (by simp [hp])
  have hk : 1 ≤ d.count := hp.inBounds.2.1
  have hsize : 0 < size := hinner.prod_pos
  have hrows := Dim.rows_pos hp.inBounds.1 hp.lt
  have ho : o < d.count := hp.lt
  rw [PieceOk, if_neg (by omega), hw.chunkShape_eq] at hpiece
  obtain ⟨cur', flag, hvisit, hgo, hstay⟩ := foldAxes_cons hok
  rcases visitAxis_debug hp hvisit with
    ⟨hthin, hsize1, rfl, rfl⟩ | ⟨hthick, hback, rfl, hflag⟩
  · rw [if_pos ⟨hthin, hsize1⟩] at hpiece
    have hpos : 1 ≤ rowsCounted inner := rowsCounted_pos (by rwa [hw.chunkShape_eq])
    have hchunk : size * 1 ≤ size * d.chunk :=
      Nat.mul_le_mul_left _ hp.inBounds.1
    rw [rows_eq_one_of_thick hp hthin, Nat.one_mul]
    by_cases hone : rowsCounted inner = 1
    · -- one layer is counted, but the outer dimensions are not passed
      have hcarry : (o + 1) / d.count ≤ 1 := by
        rw [Nat.div_le_iff_le_mul_add_pred hk]
        omega
      have hmore := lt_foldAxes_outer houter (by omega)
        (show (skipped d o (atStart _ _ _ (rowsCounted inner))).carry ≤ 1 by
          rw [hone]; exact hcarry)
        (fun hpass => hpiece ⟨hone, by rw [hone] at hpass; exact hpass⟩)
        (hgo rfl)
      change counted < advance at hmore
      rw [show counted = size by simp only [counted, hone, Nat.one_mul]] at hmore
      exact hmore
    · have hmore := advance_le_foldAxes houter (hgo rfl)
      change counted ≤ advance at hmore
      have htwo : 2 * size ≤ counted := Nat.mul_le_mul_right _ (by omega)
      omega
  · rw [if_neg hthick] at hpiece
    rw [atStart_carry] at hback
    have hstep : counted + stride size d o (rowsCounted inner) ≤ advance := by
      cases flag with
      | true => exact advance_le_foldAxes houter (hgo rfl)
      | false => exact (hstay rfl).le
    rcases Nat.lt_or_ge (o + rowsCounted inner) d.count with hin | hout
    · -- the run is right so far, but the outer dimensions are not passed
      have hlanded : landed d o (rowsCounted inner) = o + rowsCounted inner :=
        Nat.mod_eq_of_lt hin
      have hrun : counted + stride size d o (rowsCounted inner) =
          d.rows o * size := by
        rw [stride, hlanded, ← Nat.add_mul]
        congr 1
        omega
      have hpass : d.Exact ∧ d.rows o < rowsLeft ((d, o) :: outer) ∧
          ¬ PassesOut outer 1 := by
        by_contra hnot
        refine hpiece ⟨hin, by omega, fun hmore => ?_⟩
        by_contra hout
        exact hnot ⟨hmore.1, hmore.2, hout⟩
      obtain ⟨hexact, hmore, hpass⟩ := hpass
      have hleft : value ((d, o) :: outer) + rowsLeft ((d, o) :: outer) =
          volume ((d, o) :: outer) := value_add_rowsLeft fun p hp => (hpts p hp).lt
      have htrue : flag = true := by
        refine hflag.mpr ⟨hexact, ?_⟩
        rw [atStart_offset, atStart_carry, Nat.add_assoc, hrun, ← hleft,
          ← Nat.add_mul]
        exact Nat.mul_lt_mul_of_pos_right (by omega) hsize
      have hone : (advanced size d o (atStart inner.length
          (value ((d, o) :: outer) * size + counted) counted
          (rowsCounted inner))).carry = 1 := by
        rw [advanced, atStart_carry, Nat.div_eq_of_lt hin, hexact.add_rows hp,
          Nat.div_self hk]
      have hchunk : 1 * 2 ≤ size * d.chunk :=
        Nat.mul_le_mul hsize (hexact.two_le_chunk hp.inBounds hd)
      have hend := lt_foldAxes_outer houter (by omega) hone.le
        (by rwa [hone]) (hgo htrue)
      rw [← hrun]
      exact hend
    · -- more rows are counted than the selection has left in the dimension
      have hdm := Nat.mod_add_div (o + rowsCounted inner) d.count
      have hquot : 1 ≤ (o + rowsCounted inner) / d.count :=
        Nat.div_pos hout hk
      have hmul : d.count * 1 ≤ d.count * ((o + rowsCounted inner) / d.count) :=
        Nat.mul_le_mul_left _ hquot
      unfold landed at hback
      have hmore : (d.rows o + 1) * size ≤
          counted + stride size d o (rowsCounted inner) := by
        unfold stride landed
        rw [← Nat.add_mul]
        exact Nat.mul_le_mul_right _ (by omega)
      rw [Nat.succ_mul] at hmore
      omega

/-! ## The pass as a whole -/

variable {ds : List Dim} {os : List Nat}

/-- Every chunk that the selection touches ends at a word. -/
def Fits (ds : List Dim) : Prop :=
  ∀ d ∈ ds, ∀ o < d.count, (d.cell o + 1) * d.chunk < 2 ^ 64

theorem pointOk_points (h : InBounds ds) (hfits : Fits ds)
    (hos : InBox (counts ds) os) : ∀ p ∈ points ds os, PointOk p.1 p.2 := by
  induction ds generalizing os with
  | nil => simp [points]
  | cons d ds ih =>
      cases hos with
      | @cons o _ os _ ho hos =>
          intro p hp
          rw [points_cons, List.mem_append, List.mem_singleton] at hp
          rcases hp with hp | rfl
          · exact ih h.tail (fun d hd => hfits d (by simp [hd])) hos p hp
          · exact ⟨h.head, ho, hfits d (by simp) o ho⟩

/-- A run start seen from the dimension in which the run lies. -/
structure Focus (ds : List Dim) (os : List Nat) (outer : List Point) (d : Dim)
    (o : Nat) (inner : List Dim) : Prop where
  points_eq : points ds os =
    points inner (List.replicate inner.length 0) ++ (d, o) :: outer
  rank_eq : rank (counts ds) os =
    value ((d, o) :: outer) * (counts inner).prod
  prod_eq : (counts ds).prod = volume ((d, o) :: outer) * (counts inner).prod
  counts_eq : counts ds = outerCounts ((d, o) :: outer) ++ counts inner
  runLen_eq : runLen ds os = d.rows o * (counts inner).prod
  foldOk_iff : FoldOk [] ds os ↔ PieceOk outer d o inner
  allWhole : AllWhole inner
  not_whole : ¬ d.Whole

theorem exists_focus (hos : InBox (counts ds) os) (hrs : RunStart ds os)
    (hw : ¬ AllWhole ds) : ∃ outer d o inner, Focus ds os outer d o inner := by
  obtain ⟨outer, d, o, inner, hplug, hcoords, hwhole, hd, -, hfold, hlen⟩ :=
    exists_split [] hos hrs hw
  simp only [plug, plugCoords] at hplug hcoords
  subst hplug hcoords
  have hlength : (o :: List.replicate inner.length 0).length =
      (d :: inner).length := by simp
  refine ⟨outer, d, o, inner, ?_, ?_, ?_, ?_, hlen, hfold, hwhole, hd⟩
  · rw [points_plug _ _ _ hlength, points_cons, List.append_assoc]
    rfl
  · rw [rank_plug _ _ _ hlength, counts_cons, rank_cons, rank_replicate_zero,
      value, List.prod_cons]
    ring
  · rw [prod_counts_plug, counts_cons, List.prod_cons, volume_cons]
    ring
  · rw [counts_plug, outerCounts_cons]
    simp [outerCounts]

theorem FoldOk.of_allWhole (outer : List Point) (hw : AllWhole ds) :
    FoldOk outer ds os := by
  cases ds with
  | nil => trivial
  | cons d ds =>
      cases os with
      | nil => trivial
      | cons o os =>
          rw [FoldOk, if_pos hw.tail]
          exact .inl (hw d (by simp))

theorem mem_points_zero {inner : List Dim} (hd : d ∈ inner) :
    (d, 0) ∈ points inner (List.replicate inner.length 0) := by
  induction inner with
  | nil => cases hd
  | cons e inner ih =>
      rw [List.length_cons, List.replicate_succ, points_cons, List.mem_append,
        List.mem_singleton]
      rcases List.mem_cons.mp hd with rfl | hd
      · exact .inr rfl
      · exact .inl (ih hd)

namespace Focus

variable {outer : List Point} {inner : List Dim}

theorem inner_ok (hf : Focus ds os outer d o inner)
    (hpts : ∀ p ∈ points ds os, PointOk p.1 p.2) :
    ∀ e ∈ inner, PointOk e 0 := by
  intro e he
  refine hpts (e, 0) ?_
  rw [hf.points_eq]
  exact List.mem_append_left _ (mem_points_zero he)

theorem outer_ok (hf : Focus ds os outer d o inner)
    (hpts : ∀ p ∈ points ds os, PointOk p.1 p.2) :
    ∀ p ∈ (d, o) :: outer, PointOk p.1 p.2 := by
  intro p hp
  refine hpts p ?_
  rw [hf.points_eq]
  exact List.mem_append_right _ hp

theorem volume_eq (hf : Focus ds os outer d o inner)
    (hpts : ∀ p ∈ points ds os, PointOk p.1 p.2) :
    (counts ds).prod = value ((d, o) :: outer) * (counts inner).prod +
      rowsLeft ((d, o) :: outer) * (counts inner).prod := by
  have hlt := value_lt_volume fun p hp => (hf.outer_ok hpts p hp).lt
  rw [hf.prod_eq, ← Nat.add_mul, rowsLeft, Nat.add_sub_cancel' hlt.le]

theorem foldAxes_eq (hf : Focus ds os outer d o inner)
    (hpts : ∀ p ∈ points ds os, PointOk p.1 p.2)
    (hfit : (counts ds).prod < 2 ^ 64) :
    let size := (counts inner).prod
    let offset := value ((d, o) :: outer) * size
    let counted := rowsCounted inner * size
    foldAxes b (counts ds).prod (axesOf 1 (points ds os))
        (atStart 0 (rank (counts ds) os) 0 0) =
      if rowsCounted inner < rowsLeft ((d, o) :: outer) then
        foldAxes b (volume ((d, o) :: outer) * size)
          (axesOf size ((d, o) :: outer))
          (atStart inner.length (offset + counted) counted (rowsCounted inner))
      else
        .ok (unrank (counts ds) (counts ds).prod, (counts ds).prod,
          rowsLeft ((d, o) :: outer) * size) := by
  intro size offset counted
  have hinner := hf.inner_ok hpts
  have houter := hf.outer_ok hpts
  have hsize : 0 < size :=
    InBounds.prod_pos fun e he => (hinner e he).inBounds
  have hleft : 1 ≤ rowsLeft ((d, o) :: outer) :=
    rowsLeft_pos fun p hp => (houter p hp).lt
  have hvolume := hf.volume_eq hpts
  obtain ⟨hgo, hhalt⟩ := foldAxes_inner (b := b) hf.allWhole hinner houter
    (Nat.mul_pos hleft hsize) (Dvd.intro_left _ rfl) (hvolume ▸ hfit)
  rw [hf.points_eq, hf.rank_eq]
  split
  · rename_i hlt
    rw [hvolume, hgo (Nat.mul_lt_mul_of_pos_right hlt hsize), ← hf.prod_eq,
      hvolume]
  · rename_i hge
    rw [← hf.counts_eq, ← hvolume] at hhalt
    exact hhalt (Nat.mul_le_mul_right _ (Nat.le_of_not_lt hge))

end Focus

theorem one_le_rowsCounted (hne : ds ≠ []) : 1 ≤ rowsCounted ds := by
  cases ds with
  | nil => exact absurd rfl hne
  | cons d ds =>
      rw [rowsCounted]
      split
      · rename_i hthin
        exact rowsCounted_pos hthin.2
      · exact Nat.le_add_left 1 _

theorem allWhole_runStart (h : InBounds ds) (hne : ds ≠ []) (hw : AllWhole ds)
    (hos : InBox (counts ds) os) (hrs : RunStart ds os) :
    os = List.replicate ds.length 0 ∧ runLen ds os = (counts ds).prod := by
  cases ds with
  | nil => exact absurd rfl hne
  | cons d ds =>
      cases hos with
      | @cons o _ os _ ho hos =>
          rw [RunStart, if_pos hw.tail] at hrs
          obtain ⟨rfl, hstart⟩ := hrs
          have hd : d.Whole := hw d (by simp)
          have hzero : o = 0 := by
            rcases hstart with hzero | hdvd
            · exact hzero
            · have hdvd : d.chunk ∣ o := (Nat.dvd_add_right hd.1).mp hdvd
              rw [← hd.2] at hdvd
              exact Nat.eq_zero_of_dvd_of_lt hdvd ho
          subst hzero
          rw [runLen, if_pos hw.tail, hd.rows_zero h.head.1]
          exact ⟨rfl, rfl⟩

/-- Where `FoldOk` holds one pass of the loop advances by the run. -/
theorem foldAxes_of_foldOk (h : InBounds ds) (hne : ds ≠ [])
    (hfits : Fits ds) (hfit : (counts ds).prod < 2 ^ 64)
    (hos : InBox (counts ds) os) (hrs : RunStart ds os)
    (hfold : FoldOk [] ds os) :
    foldAxes b (counts ds).prod (axesOf 1 (points ds os))
        (atStart 0 (rank (counts ds) os) 0 0) =
      .ok (advanceBy ds os (runLen ds os),
        rank (counts ds) os + runLen ds os, runLen ds os) := by
  have hpts := pointOk_points h hfits hos
  by_cases hw : AllWhole ds
  · obtain ⟨rfl, hlen⟩ := allWhole_runStart h hne hw hos hrs
    have hone : 1 ≤ rowsCounted ds := one_le_rowsCounted hne
    have hpoints : ∀ d ∈ ds, PointOk d 0 := fun d hd =>
      hpts (d, 0) (mem_points_zero hd)
    have hnil : ∀ p ∈ ([] : List Point), PointOk p.1 p.2 := by simp
    obtain ⟨-, hhalt⟩ := foldAxes_inner (b := b) hw hpoints hnil h.prod_pos (dvd_refl _)
      (by simpa [value] using hfit)
    have hall := hhalt (Nat.le_mul_of_pos_left _ hone)
    simp only [value, Nat.zero_mul, Nat.zero_add, List.append_nil,
      outerCounts_nil, List.nil_append] at hall
    rw [advanceBy, rank_replicate_zero, hlen, Nat.zero_add, hall]
  · obtain ⟨outer, d, o, inner, hf⟩ := exists_focus hos hrs hw
    have hpiece := hf.foldOk_iff.mp hfold
    have hinner : InBounds inner := fun e he => (hf.inner_ok hpts e he).inBounds
    rw [hf.foldAxes_eq hpts hfit, advanceBy, hf.runLen_eq, hf.rank_eq]
    split
    · rename_i hlt
      rw [foldAxes_focus hf.allWhole hinner hf.not_whole (hf.outer_ok hpts) hlt
        hpiece (hf.prod_eq ▸ hfit), ← hf.counts_eq]
    · rename_i hge
      rw [PieceOk, if_pos (Nat.le_of_not_lt hge)] at hpiece
      rw [← hpiece, ← hf.volume_eq hpts]

/-- Where it does not, a debug build that returns has gone further. -/
theorem lt_foldAxes_of_not_foldOk (h : InBounds ds)
    (hfits : Fits ds) (hfit : (counts ds).prod < 2 ^ 64)
    (hos : InBox (counts ds) os) (hrs : RunStart ds os)
    (hfold : ¬ FoldOk [] ds os) {coords : List Nat} {offset advance : Nat}
    (hok : foldAxes .debug (counts ds).prod (axesOf 1 (points ds os))
        (atStart 0 (rank (counts ds) os) 0 0) = .ok (coords, offset, advance)) :
    runLen ds os < advance := by
  have hpts := pointOk_points h hfits hos
  have hw : ¬ AllWhole ds := fun hw => hfold (FoldOk.of_allWhole [] hw)
  obtain ⟨outer, d, o, inner, hf⟩ := exists_focus hos hrs hw
  have hpiece : ¬ PieceOk outer d o inner :=
    fun hp => hfold (hf.foldOk_iff.mpr hp)
  have hinner : InBounds inner := fun e he => (hf.inner_ok hpts e he).inBounds
  rw [hf.foldAxes_eq hpts hfit] at hok
  rw [hf.runLen_eq]
  split at hok
  · rename_i hlt
    exact lt_foldAxes_focus hf.allWhole hinner hf.not_whole (hf.outer_ok hpts)
      hlt hpiece hok
  · rename_i hge
    rw [PieceOk, if_pos (Nat.le_of_not_lt hge)] at hpiece
    have hle : d.rows o ≤ rowsLeft ((d, o) :: outer) :=
      rows_le_rowsLeft fun p hp => (hf.outer_ok hpts p hp).lt
    cases hok
    exact Nat.mul_lt_mul_of_pos_right (by omega) hinner.prod_pos

end Hidefix.Slices
