import Hidefix.Idx.Items
import Hidefix.Slices.Counter
import Mathlib.Algebra.Order.Ring.Abs
import Mathlib.Data.Int.ModEq

/-!
# The lengths of the slices

A debug build stops before the counter passes the end, and a selection that is
folded correctly is joined from its slices.  In both cases the slices are
together no longer than the selection.
-/

namespace Hidefix.Slices

open MixedRadix
open Foundation
open Idx

variable {D : Nat}

def sliceLen (item : Item D) : Nat := item.2.2 - item.2.1

structure LengthsOk (total : Nat) (items : List (Item D)) : Prop where
  ordered : ∀ item ∈ items, item.2.1 ≤ item.2.2
  sum_le : (items.map sliceLen).sum ≤ total

/-! ## Debug builds -/

structure CountOk (offset stop : Nat) (cur : LoopState) : Prop where
  counted : cur.offset = offset + cur.advance
  le_stop : cur.offset ≤ stop

section Debug

variable {offset stop : Nat} {cur cur' : LoopState}

theorem CountOk.visitAxis (hcur : CountOk offset stop cur) {a : Axis}
    {flag : Bool} (h : visitAxis .debug stop a cur = .ok (cur', flag)) :
    CountOk offset stop cur' := by
  obtain ⟨-, ⟨hoffset, hadvance⟩ |
    ⟨_, _, _, diff, -, -, -, -, hadvance, hoffset, hstop⟩⟩ := visitAxis_cases h
  · constructor
    · rw [hoffset, hadvance]
      exact hcur.counted
    · rw [hoffset]
      exact hcur.le_stop
  · obtain ⟨hadvance, -⟩ := addU64_debug hadvance
    obtain ⟨hoffset, -⟩ := addU64_debug hoffset
    refine ⟨by rw [hoffset, hadvance, hcur.counted, Nat.add_assoc], ?_⟩
    rcases hstop with hlt | hassert
    · exact hlt.le
    · exact debugAssert_debug hassert

theorem CountOk.dimLoop (hcur : CountOk offset stop cur)
    {axes rest : List Axis}
    (h : dimLoop .debug stop axes cur = .ok (cur', rest)) :
    CountOk offset stop cur' := by
  induction axes generalizing cur with
  | nil =>
      cases h
      exact hcur
  | cons a axes ih =>
      rw [Idx.dimLoop] at h
      obtain ⟨⟨cur₁, flag⟩, hvisit, h⟩ := bind_eq_ok.mp h
      have hcur₁ := hcur.visitAxis hvisit
      cases flag with
      | true => exact ih hcur₁ h
      | false =>
          cases h
          exact hcur₁

theorem next_debug {s s' : ChunkSlicer D} {item : Item D}
    (h : s.next .debug = .ok (some (item, s'))) :
    item.2.1 ≤ item.2.2 ∧ s'.offset = s.offset + sliceLen item ∧
      s'.offset ≤ s.stop ∧ s'.stop = s.stop := by
  obtain ⟨hlt, ⟨-, hitem, -, offset, hoffset, rfl⟩ |
    ⟨-, start, cur, rest, coords, hadv⟩⟩ := next_cases h
  · obtain ⟨rfl, -⟩ := addU64_debug hoffset
    rw [sliceLen, hitem]
    exact ⟨Nat.zero_le _, rfl, hlt, rfl⟩
  · obtain rfl := hadv.state
    obtain ⟨hend, -⟩ := addU64_debug hadv.chunkEnd
    have hcur := CountOk.dimLoop ⟨rfl, hlt.le⟩ hadv.loop
    refine ⟨?_, ?_, hcur.le_stop, rfl⟩
    · rw [hend]
      exact Nat.le_add_right _ _
    · rw [sliceLen, hend, Nat.add_sub_cancel_left]
      exact hcur.counted

theorem run_debug_nonempty {fuel : Nat} {s : ChunkSlicer D} :
    ∀ item ∈ (s.run .debug fuel).1, item.2.1 < item.2.2 := by
  refine run_forall (I := fun _ => True) (P := fun item => item.2.1 < item.2.2)
    (fun s item s' _ hnext => ⟨?_, trivial⟩) trivial
  rcases (next_cases hnext).2 with ⟨-, hitem, -⟩ | ⟨-, _, cur, _, _, hadv⟩
  · rw [hitem]
    exact Nat.zero_lt_one
  · have hpos : 0 < cur.advance := debugAssert_debug hadv.advances
    rw [(addU64_debug hadv.chunkEnd).1]
    exact Nat.lt_add_of_pos_right hpos

theorem run_debug {fuel : Nat} {s : ChunkSlicer D} (hs : s.offset ≤ s.stop) :
    LengthsOk (s.stop - s.offset) (s.run .debug fuel).1 := by
  induction fuel generalizing s with
  | zero => exact ⟨by simp [ChunkSlicer.run], by simp [ChunkSlicer.run]⟩
  | succ fuel ih =>
      rw [ChunkSlicer.run]
      cases hnext : s.next .debug with
      | error f => exact ⟨by simp, by simp⟩
      | ok r =>
          cases r with
          | none => exact ⟨by simp, by simp⟩
          | some r =>
              obtain ⟨item, s'⟩ := r
              obtain ⟨hle, hoffset, hend, hstop⟩ := next_debug hnext
              obtain ⟨hordered, hsum⟩ := ih (s := s') (by omega)
              refine ⟨List.forall_mem_cons.mpr ⟨hle, hordered⟩, ?_⟩
              rw [List.map_cons, List.sum_cons]
              omega

end Debug

/-! ## Any build -/

section AnyBuild

variable {b : Build} {stop : Nat} {cur cur' : LoopState}

/-- The loop has moved its two counters by the same distance. -/
structure Moved (offset : Nat) (distance : Int) (cur : LoopState) : Prop where
  advance : (cur.advance : Int) ≡ distance [ZMOD 2 ^ 64]
  offset : (cur.offset : Int) ≡ offset + distance [ZMOD 2 ^ 64]
  word : cur.offset < 2 ^ 64

structure AxisOk (bound : Nat) (a : Axis) : Prop where
  reduced : a.countSru.get = a.count
  row_le : a.count * a.chunkDimSz ≤ bound

theorem addU64_congr {x y z : Nat} {m n : Int} (h : addU64 b x y = .ok z)
    (hx : (x : Int) ≡ m [ZMOD 2 ^ 64]) (hy : (y : Int) ≡ n [ZMOD 2 ^ 64]) :
    (z : Int) ≡ m + n [ZMOD 2 ^ 64] := by
  have hsum : (z : Int) ≡ x + y [ZMOD 2 ^ 64] := by
    have := addU64_modEq h
    unfold Int.ModEq
    omega
  exact hsum.trans (hx.add hy)

/-- The distance to the end of the row; a release build takes it below zero. -/
theorem rowDistance {current last count w steps diff : Nat}
    (hcurrent : current < count) (hlast : last ≤ count)
    (hword : current < 2 ^ 64) (hsteps : subU64 b last current = .ok steps)
    (hdiff : mulU64 b steps w = .ok diff) :
    (diff : Int) ≡ ((last : Int) - current) * w [ZMOD 2 ^ 64] ∧
      |((last : Int) - current) * w| ≤ (count * w : Nat) := by
  constructor
  · have hmul : (diff : Int) ≡ (steps * w : Nat) [ZMOD 2 ^ 64] := by
      have := mulU64_modEq hdiff
      unfold Int.ModEq
      omega
    have hsub : (steps : Int) ≡ (last : Int) - current [ZMOD 2 ^ 64] := by
      have := subU64_modEq hword hsteps
      unfold Int.ModEq
      omega
    rw [Nat.cast_mul] at hmul
    exact hmul.trans (hsub.mul_right _)
  · have hsteps : |(last : Int) - current| ≤ count := by
      rw [abs_le]
      omega
    rw [abs_mul, Nat.abs_cast, Nat.cast_mul]
    exact mul_le_mul_of_nonneg_right hsteps (Int.natCast_nonneg _)

theorem Moved.visitAxis {offset bound : Nat} {distance : Int}
    (hcur : Moved offset distance cur) {a : Axis} (ha : AxisOk bound a)
    {flag : Bool} (h : visitAxis b stop a cur = .ok (cur', flag)) :
    ∃ step : Int, |step| ≤ bound ∧ Moved offset (distance + step) cur' := by
  obtain ⟨-, ⟨hoffset, hadvance⟩ | ⟨sum, last, rows, diff, hsum, hlast, hrows,
    hdiff, hadvance, hoffset, -⟩⟩ := visitAxis_cases h
  · refine ⟨0, by simp, ?_⟩
    constructor
    · rw [hadvance, add_zero]
      exact hcur.advance
    · rw [hoffset, add_zero]
      exact hcur.offset
    · rw [hoffset]
      exact hcur.word
  · have hcurrent : sum % a.countSru.get < a.count := by
      rw [← ha.reduced]
      exact Nat.mod_lt _ a.countSru.get_pos
    obtain ⟨hdiff, hle⟩ := rowDistance hcurrent hlast
      ((Nat.mod_le _ _).trans_lt (addU64_lt hsum)) hrows hdiff
    refine ⟨_, hle.trans (Nat.cast_le.mpr ha.row_le),
      addU64_congr hadvance hcur.advance hdiff, ?_, addU64_lt hoffset⟩
    rw [← add_assoc]
    exact addU64_congr hoffset hcur.offset hdiff

theorem Moved.dimLoop {offset bound : Nat} {distance : Int}
    (hcur : Moved offset distance cur) {axes rest : List Axis}
    (haxes : ∀ a ∈ axes, AxisOk bound a)
    (h : dimLoop b stop axes cur = .ok (cur', rest)) :
    ∃ step : Int, |step| ≤ axes.length * bound ∧
      Moved offset (distance + step) cur' := by
  induction axes generalizing cur distance with
  | nil =>
      cases h
      exact ⟨0, by simp, by rwa [add_zero]⟩
  | cons a axes ih =>
      obtain ⟨ha, haxes⟩ := List.forall_mem_cons.mp haxes
      rw [Idx.dimLoop] at h
      obtain ⟨⟨cur₁, flag⟩, hvisit, h⟩ := bind_eq_ok.mp h
      obtain ⟨first, hfirst, hcur₁⟩ := hcur.visitAxis ha hvisit
      have hlen : ((a :: axes).length : Int) * bound =
          bound + axes.length * bound := by
        rw [List.length_cons]
        push_cast
        ring
      rw [hlen]
      cases flag with
      | true =>
          obtain ⟨step, hstep, hcur'⟩ := ih hcur₁ haxes h
          refine ⟨first + step, (abs_add_le _ _).trans (add_le_add hfirst hstep), ?_⟩
          rwa [← add_assoc]
      | false =>
          have hrest : (0 : Int) ≤ axes.length * bound := by positivity
          cases h
          exact ⟨first, hfirst.trans (le_add_of_nonneg_right hrest), hcur₁⟩

def RowsLe (bound : Nat) (s : ChunkSlicer D) : Prop :=
  ∀ p ∈ s.counts.zip (s.countsReduced.zip s.dataset.chunkDimSz.toList),
    p.2.1.get = p.1 ∧ p.1 * p.2.2 ≤ bound

theorem RowsLe.axes {bound : Nat} {s : ChunkSlicer D} (hs : RowsLe bound s)
    (chunk : Chunk D) : ∀ a ∈ (s.axes chunk).reverse, AxisOk bound a := by
  intro a ha
  rw [List.mem_reverse, ChunkSlicer.axes] at ha
  obtain ⟨⟨idx, offset, count, sru, chunkOffset, chunkSz, w, shape⟩, hmem, rfl⟩ :=
    List.mem_map.mp ha
  obtain ⟨i, hi, heq⟩ := List.mem_iff_getElem.mp hmem
  simp only [List.length_zip, lt_min_iff] at hi
  simp only [List.getElem_zip, Prod.mk.injEq] at heq
  obtain ⟨-, -, hcount, hsru, -, -, hw, -⟩ := heq
  have hp : (count, sru, w) ∈
      s.counts.zip (s.countsReduced.zip s.dataset.chunkDimSz.toList) := by
    refine List.mem_iff_getElem.mpr ⟨i, ?_, ?_⟩
    · simp only [List.length_zip, lt_min_iff]
      exact ⟨hi.2.2.1, hi.2.2.2.1, hi.2.2.2.2.2.2.1⟩
    · simp only [List.getElem_zip, hcount, hsru, hw]
  exact ⟨(hs _ hp).1, (hs _ hp).2⟩

theorem next_moved {bound : Nat} {s s' : ChunkSlicer D} {item : Item D}
    (hs : RowsLe bound s) (hword : s.offset < 2 ^ 64)
    (h : s.next b = .ok (some (item, s'))) :
    ∃ step : Int, (|step| ≤ D * bound ∨ step = 1) ∧
      (item.2.2 : Int) ≡ item.2.1 + step [ZMOD 2 ^ 64] ∧
      (s'.offset : Int) ≡ s.offset + step [ZMOD 2 ^ 64] ∧
      s'.offset < 2 ^ 64 ∧ s'.stop = s.stop ∧ RowsLe bound s' := by
  obtain ⟨-, ⟨-, hitem, -, offset, hoffset, rfl⟩ |
    ⟨-, start, cur, rest, coords, hadv⟩⟩ := next_cases h
  · rw [hitem]
    exact ⟨1, .inr rfl, .refl _, addU64_congr hoffset (.refl _) (.refl _),
      addU64_lt hoffset, rfl, hs⟩
  · obtain rfl := hadv.state
    have hstart : Moved s.offset 0 ⟨[], s.offset, 0, 0⟩ :=
      ⟨.refl _, by rw [add_zero], hword⟩
    obtain ⟨step, hstep, hcur⟩ := hstart.dimLoop (hs.axes item.1) hadv.loop
    rw [zero_add] at hcur
    have hlen : (s.axes item.1).reverse.length ≤ D := by
      simp only [List.length_reverse, ChunkSlicer.axes, List.length_map,
        List.length_zip, List.Vector.toList_length]
      omega
    refine ⟨step, .inl (hstep.trans ?_),
      addU64_congr hadv.chunkEnd (.refl _) hcur.advance, hcur.offset, hcur.word,
      rfl, hs⟩
    exact mul_le_mul_of_nonneg_right (Nat.cast_le.mpr hlen)
      (Int.natCast_nonneg _)

end AnyBuild

/-! ## Selections that are folded correctly -/

theorem length_expand (items : List (Item D)) :
    (expand items).length = (items.map sliceLen).sum := by
  induction items with
  | nil => rfl
  | cons item items ih =>
      rw [expand, List.flatMap_cons, List.length_append, ← expand, ih]
      simp [sliceLen]

theorem Selects.lengthsOk {ds : Dataset D} {e : Extents} (h : Selects ds e)
    (hwf : ds.WellFormed) {b : Build}
    (hsafe : b = .debug ∨ Foldable (dims ds e)) {fuel : Nat}
    {items : List (Item D)} (hitems : ds.collectSlices b fuel e = .ok items) :
    LengthsOk (counts (dims ds e)).prod items := by
  obtain ⟨s, hs, hrun⟩ := collectSlices_ok hitems
  rcases hsafe with rfl | hfold
  · rw [h.chunkSlices_eq hwf] at hs
    cases hs
    have hrest : LengthsOk _ ((slicerAt ds e 0 (List.replicate D 0)).run .debug
        fuel).1 := run_debug (Nat.zero_le _)
    rwa [hrun] at hrest
  · obtain ⟨fuel', items', hcollect, hwalk, hordered⟩ :=
      h.collect_of_foldable hwf hfold b
    obtain rfl := collectSlices_unique hitems hcollect
    refine ⟨hordered, ?_⟩
    rw [← length_expand, hwalk.length_eq, h.walk_eq_walkFrom,
      length_walkFrom, Nat.sub_zero]

end Hidefix.Slices
