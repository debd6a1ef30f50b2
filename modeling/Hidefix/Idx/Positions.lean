import Hidefix.Idx.Slicer
import Hidefix.Idx.WellFormed
import Mathlib.Data.List.Lex
import Mathlib.Data.Set.Function

/-!
# Positions in a chunk

`chunk_start` counts the coordinates of a value from the offset of its chunk, and
weighs them with the chunk dimensions that `Dataset::new` has scanned.  Where the
positions and the coordinates of the chunk are words, this numbers the values of the
chunk in the lexicographic order of their coordinates.
-/

namespace Hidefix.Idx

open Foundation
open MixedRadix

variable {D : Nat} {b : Build} {offset chunkShape x y : List Nat}

def chunkCoords (offset chunkShape : List Nat) : Set (List Nat) :=
  {x | List.Forall₂ (fun i r => (r.1 ≤ i ∧ i < r.1 + r.2) ∧ i < 2 ^ 64) x
    (offset.zip chunkShape)}

def fromOffset (offset x : List Nat) : List Nat :=
  List.zipWith (· - ·) x offset

/--
The coordinates of a chunk are in bijection with the positions in it, and later
coordinates have larger positions.
-/
structure NumbersValues (b : Build) (ds : Dataset D) (c : Chunk D) : Prop where
  bijective : Set.BijOn
    (fun x => ChunkSlicer.chunkStart b x c.offsetU64 ds.chunkDimSz.toList)
    (chunkCoords c.offsetU64 ds.chunkShape.toList)
    (Set.image Except.ok (Set.Iio ds.chunkShape.toList.prod))
  increasing : ∀ x ∈ chunkCoords c.offsetU64 ds.chunkShape.toList,
    ∀ y ∈ chunkCoords c.offsetU64 ds.chunkShape.toList, x < y →
      ∃ p q, ChunkSlicer.chunkStart b x c.offsetU64 ds.chunkDimSz.toList = .ok p ∧
        ChunkSlicer.chunkStart b y c.offsetU64 ds.chunkDimSz.toList = .ok q ∧ p < q

/-- The positions of a chunk and the coordinates in it are words. -/
def ChunkFits (ds : Dataset D) (c : Chunk D) : Prop :=
  ds.chunkShape.toList.prod ≤ 2 ^ 64 ∧
    ∀ r ∈ c.offsetU64.zip ds.chunkShape.toList, r.1 + r.2 ≤ 2 ^ 64

/-! ## Counting from the offset -/

theorem fromOffset_inBox (hlen : offset.length = chunkShape.length)
    (h : List.Forall₂ (fun i r => r.1 ≤ i ∧ i < r.1 + r.2) x
      (offset.zip chunkShape)) :
    InBox chunkShape (fromOffset offset x) := by
  induction chunkShape generalizing offset x with
  | nil =>
      rw [List.eq_nil_of_length_eq_zero hlen] at h ⊢
      cases h
      exact .nil
  | cons k chunkShape ih =>
      cases offset with
      | nil => simp at hlen
      | cons o offset =>
          rw [List.zip_cons_cons] at h
          cases h with
          | cons hi hx =>
              exact .cons (Nat.sub_lt_left_of_lt_add hi.1 hi.2)
                (ih (by simpa using hlen) hx)

theorem mem_chunkCoords (h : x ∈ chunkCoords offset chunkShape) :
    List.Forall₂ (fun i r => r.1 ≤ i ∧ i < r.1 + r.2) x (offset.zip chunkShape) :=
  h.imp fun _ _ hi => hi.1

theorem fromOffset_lt (hx : x ∈ chunkCoords offset chunkShape)
    (hy : y ∈ chunkCoords offset chunkShape) (h : x < y) :
    fromOffset offset x < fromOffset offset y := by
  induction offset generalizing chunkShape x y with
  | nil =>
      cases hx
      cases hy
      exact h
  | cons o offset ih =>
      cases chunkShape with
      | nil =>
          cases hx
          cases hy
          exact absurd h (List.lt_irrefl [])
      | cons k chunkShape =>
          cases hx with
          | @cons i _ x _ hi hx =>
              cases hy with
              | @cons j _ y _ hj hy =>
                  apply List.cons_lt_cons_iff.mpr
                  rcases List.cons_lt_cons_iff.mp h with hlt | ⟨rfl, htail⟩
                  · exact .inl (Nat.sub_lt_sub_right hi.1.1 hlt)
                  · exact .inr ⟨rfl, ih hx hy htail⟩

theorem exists_fromOffset {os : List Nat} (hos : InBox chunkShape os)
    (hlen : offset.length = chunkShape.length)
    (hfit : ∀ r ∈ offset.zip chunkShape, r.1 + r.2 ≤ 2 ^ 64) :
    ∃ x ∈ chunkCoords offset chunkShape, fromOffset offset x = os := by
  induction hos generalizing offset with
  | nil =>
      rw [List.eq_nil_of_length_eq_zero hlen]
      exact ⟨[], .nil, rfl⟩
  | @cons p k os chunkShape hp _ ih =>
      cases offset with
      | nil => simp at hlen
      | cons o offset =>
          rw [List.zip_cons_cons, List.forall_mem_cons] at hfit
          rcases ih (by simpa using hlen) hfit.2 with ⟨x, hx, rfl⟩
          have hend : o + k ≤ 2 ^ 64 := hfit.1
          refine ⟨(o + p) :: x, .cons ?_ hx, ?_⟩
          · simp only
            omega
          · exact congrArg (· :: fromOffset offset x) (Nat.add_sub_cancel_left o p)

/-! ## Positions -/

theorem chunkStart_of_sum {sizes : List Nat}
    (hle : List.Forall₂ (fun o i => o ≤ i) offset x)
    (hsum : (List.zipWith (· * ·) (fromOffset offset x) sizes).sum < 2 ^ 64) :
    ChunkSlicer.chunkStart b x offset sizes =
      .ok (List.zipWith (· * ·) (fromOffset offset x) sizes).sum := by
  have hterms : (x.zip (offset.zip sizes)).map (fun p => (p.1 - p.2.1) * p.2.2) =
        List.zipWith (· * ·) (fromOffset offset x) sizes ∧
      ∀ p ∈ x.zip (offset.zip sizes), p.2.1 ≤ p.1 := by
    clear hsum
    induction hle generalizing sizes with
    | nil => exact ⟨rfl, by simp⟩
    | cons hi _ ih =>
        cases sizes with
        | nil => exact ⟨rfl, by simp⟩
        | cons s sizes =>
            obtain ⟨hmap, hle⟩ := @ih sizes
            exact ⟨congrArg (_ :: ·) hmap, List.forall_mem_cons.mpr ⟨hi, hle⟩⟩
  obtain ⟨hmap, hle⟩ := hterms
  rw [← hmap] at hsum ⊢
  have hfold := foldlM_addU64 (b := b)
    (fun p : Nat × Nat × Nat => do mulU64 b (← subU64 b p.1 p.2.1) p.2.2)
    (fun p => (p.1 - p.2.1) * p.2.2) _ 0
    (fun p hp => by
      have hterm := List.single_le_sum (by simp) _
        (List.mem_map_of_mem (f := fun p : Nat × Nat × Nat => (p.1 - p.2.1) * p.2.2) hp)
      rw [subU64_eq (hle p hp), ok_bind]
      exact mulU64_eq (hterm.trans_lt hsum))
    (by rwa [Nat.zero_add])
  rwa [Nat.zero_add] at hfold

theorem offset_le (hlen : offset.length = chunkShape.length)
    (hx : x ∈ chunkCoords offset chunkShape) :
    List.Forall₂ (fun o i => o ≤ i) offset x := by
  induction offset generalizing chunkShape x with
  | nil =>
      cases hx
      exact .nil
  | cons o offset ih =>
      cases chunkShape with
      | nil => simp at hlen
      | cons k chunkShape =>
          cases hx with
          | cons hi hx => exact .cons hi.1.1 (ih (by simpa using hlen) hx)

theorem chunkStart_coords (hlen : offset.length = chunkShape.length)
    (hx : x ∈ chunkCoords offset chunkShape) (hfit : chunkShape.prod ≤ 2 ^ 64) :
    ChunkSlicer.chunkStart b x offset ((strides chunkShape).map (· % 2 ^ 64)) =
      .ok (rank chunkShape (fromOffset offset x)) := by
  have hbox := fromOffset_inBox hlen (mem_chunkCoords hx)
  have hsum := sum_mul_strides_mod hbox hfit
  rw [← hsum]
  apply chunkStart_of_sum (offset_le hlen hx)
  rw [hsum]
  exact (rank_lt hbox).trans_le hfit

theorem ends_le_of_last (hpos : ∀ k ∈ chunkShape, 1 ≤ k)
    (hx : x ∈ chunkCoords offset chunkShape)
    (hlast : fromOffset offset x = chunkShape.map (· - 1)) :
    ∀ r ∈ offset.zip chunkShape, r.1 + r.2 ≤ 2 ^ 64 := by
  induction x generalizing offset chunkShape with
  | nil =>
      rw [List.forall₂_nil_left_iff.mp hx]
      simp
  | cons i x ih =>
      cases offset with
      | nil => simp
      | cons o offset =>
          cases chunkShape with
          | nil => simp
          | cons k chunkShape =>
              rw [List.forall_mem_cons] at hpos
              cases hx with
              | cons hi hx =>
                  rcases List.cons.inj hlast with ⟨hhead, htail⟩
                  rw [List.zip_cons_cons, List.forall_mem_cons]
                  refine ⟨?_, ih hpos.2 hx htail⟩
                  have hk : 1 ≤ k := hpos.1
                  simp only at hi hhead ⊢
                  omega

section Numbers

variable {ds : Dataset D} {c : Chunk D} {p : Nat}

theorem NumbersValues.fits (h : NumbersValues b ds c)
    (hpos : ∀ k ∈ ds.chunkShape.toList, 1 ≤ k)
    (hscan : revScan b ds.chunkShape.toList = .ok (p, ds.chunkDimSz.toList)) :
    ChunkFits ds c := by
  have hprod := prod_pos_of_forall hpos
  have hlen : c.offsetU64.length = ds.chunkShape.toList.length := by simp
  -- the coordinates of the last value
  rcases h.bijective.surjOn ⟨ds.chunkShape.toList.prod - 1, Nat.pred_lt hprod.ne', rfl⟩
    with ⟨x, hx, hlast⟩
  have hword : ds.chunkShape.toList.prod - 1 < 2 ^ 64 :=
    foldlM_addU64_lt (Nat.two_pow_pos 64) hlast
  have hfit : ds.chunkShape.toList.prod ≤ 2 ^ 64 := by omega
  have hbox := fromOffset_inBox hlen (mem_chunkCoords hx)
  simp only [(revScan_mod hscan).2] at hlast
  rw [chunkStart_coords hlen hx hfit, Except.ok.injEq] at hlast
  refine ⟨hfit, ends_le_of_last hpos hx ?_⟩
  rw [← unrank_pred_prod hpos, ← hlast, unrank_rank hbox]

theorem ChunkFits.numbersValues (h : ChunkFits ds c)
    (hscan : revScan b ds.chunkShape.toList = .ok (p, ds.chunkDimSz.toList))
    (hpos : ∀ k ∈ ds.chunkShape.toList, 1 ≤ k) : NumbersValues b ds c := by
  have hlen : c.offsetU64.length = ds.chunkShape.toList.length := by simp
  have hstart : ∀ x ∈ chunkCoords c.offsetU64 ds.chunkShape.toList,
      ChunkSlicer.chunkStart b x c.offsetU64 ds.chunkDimSz.toList =
        .ok (rank ds.chunkShape.toList (fromOffset c.offsetU64 x)) := by
    intro x hx
    rw [(revScan_mod hscan).2]
    exact chunkStart_coords hlen hx h.1
  have hbox : ∀ x ∈ chunkCoords c.offsetU64 ds.chunkShape.toList,
      InBox ds.chunkShape.toList (fromOffset c.offsetU64 x) := fun x hx =>
    fromOffset_inBox hlen (mem_chunkCoords hx)
  have hincreasing : ∀ x ∈ chunkCoords c.offsetU64 ds.chunkShape.toList,
      ∀ y ∈ chunkCoords c.offsetU64 ds.chunkShape.toList, x < y →
        rank ds.chunkShape.toList (fromOffset c.offsetU64 x) <
          rank ds.chunkShape.toList (fromOffset c.offsetU64 y) := fun x hx y hy hlt =>
    rank_lt_rank (hbox x hx) (hbox y hy) (fromOffset_lt hx hy hlt)
  refine ⟨⟨?_, ?_, ?_⟩, fun x hx y hy hlt =>
    ⟨_, _, hstart x hx, hstart y hy, hincreasing x hx y hy hlt⟩⟩
  · intro x hx
    exact ⟨_, rank_lt (hbox x hx), (hstart x hx).symm⟩
  · intro x hx y hy heq
    simp only [hstart x hx, hstart y hy, Except.ok.injEq] at heq
    rcases lt_trichotomy x y with hlt | rfl | hlt
    · exact absurd heq (hincreasing x hx y hy hlt).ne
    · rfl
    · exact absurd heq (hincreasing y hy x hx hlt).ne'
  · rintro _ ⟨q, hq, rfl⟩
    rcases exists_fromOffset (unrank_inBox hpos q) hlen h.2 with ⟨x, hx, hplace⟩
    refine ⟨x, hx, ?_⟩
    simp only
    rw [hstart x hx, hplace, rank_unrank, Nat.mod_eq_of_lt hq]

end Numbers

/--
`chunk_start` numbers the values of a chunk, with the chunk dimensions that
`Dataset::new` computes, exactly where the positions in the chunk and the coordinates
of its values are words.
-/
theorem numbersValues_iff (b : Build) (dtype : Datatype) (order : Filters.Order)
    (shape : List.Vector Nat D) (chunks : List (Chunk D))
    (chunkShape : List.Vector Nat D) (shuffle : Bool) (gzip : Option Nat)
    (hpos : ∀ k ∈ chunkShape.toList, 1 ≤ k) (ds : Dataset D)
    (hnew : Dataset.new b dtype order shape chunks chunkShape shuffle gzip = .ok ds)
    (c : Chunk D) : NumbersValues b ds c ↔ ChunkFits ds c := by
  rcases Dataset.new_chunkDimSz hnew with ⟨rfl, p, hscan⟩
  exact ⟨fun h => h.fits hpos hscan, fun h => h.numbersValues hscan hpos⟩

theorem numbersValues_iff_tile :
    ∃ ds : Dataset 2, Dataset.new .debug (.uint 1) .le (4 ::ᵥ 6 ::ᵥ .nil) []
        (2 ::ᵥ 3 ::ᵥ .nil) false none = .ok ds ∧
      (NumbersValues .debug ds ⟨ULE.new 64, ULE.new 6, ULE.new 2 ::ᵥ ULE.new 3 ::ᵥ .nil⟩ ↔
        ChunkFits ds ⟨ULE.new 64, ULE.new 6, ULE.new 2 ::ᵥ ULE.new 3 ::ᵥ .nil⟩) :=
  ⟨_, rfl, numbersValues_iff .debug (.uint 1) .le (4 ::ᵥ 6 ::ᵥ .nil) []
    (2 ::ᵥ 3 ::ᵥ .nil) false none (by decide) _ rfl _⟩

/-! ## Chunks that are too large, or too far out -/

def wide : Chunk 3 :=
  ⟨ULE.new 64, ULE.new 1, ULE.new 0 ::ᵥ ULE.new 0 ::ᵥ ULE.new 0 ::ᵥ .nil⟩

def outermost : Chunk 1 :=
  ⟨ULE.new 64, ULE.new 1, ULE.new (2 ^ 64 - 1) ::ᵥ .nil⟩

/--
The first weight of the wide chunk wraps to zero, so that two values share the first
position.  The second value of the outermost chunk has no coordinate.
-/
theorem not_numbersValues_wide :
    (∃ ds : Dataset 3, Dataset.new .release (.uint 1) .le
        (2 ::ᵥ 2 ^ 32 ::ᵥ 2 ^ 32 ::ᵥ .nil) [wide] (2 ::ᵥ 2 ^ 32 ::ᵥ 2 ^ 32 ::ᵥ .nil)
        false none = .ok ds ∧
      ChunkSlicer.chunkStart .release [0, 0, 0] wide.offsetU64 ds.chunkDimSz.toList =
        .ok 0 ∧
      ChunkSlicer.chunkStart .release [1, 0, 0] wide.offsetU64 ds.chunkDimSz.toList =
        .ok 0 ∧
      ¬ NumbersValues .release ds wide) ∧
    ∃ ds : Dataset 1, Dataset.new .debug (.uint 1) .le (2 ::ᵥ .nil) [outermost]
        (2 ::ᵥ .nil) false none = .ok ds ∧ ¬ NumbersValues .debug ds outermost := by
  refine ⟨⟨_, rfl, rfl, rfl, fun h => ?_⟩, _, rfl, fun h => ?_⟩
  · exact absurd (h.fits (p := 0) (by decide) rfl).1 (by decide)
  · have hend := (h.fits (p := 2) (by decide) rfl).2 (2 ^ 64 - 1, 2) List.mem_cons_self
    exact absurd hend (by decide)

end Hidefix.Idx
