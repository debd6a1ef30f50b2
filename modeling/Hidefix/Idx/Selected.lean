import Hidefix.Idx.Slicer
import Mathlib.Data.Set.Basic

/-!
# Selectors

What can be given for a dimension of a selection: an index, one of the ranges of
the language, or a start and a count.  A selector denotes a set of indices, with
no bound on its endpoints; its way through the conversions and the bounds test is
by arithmetic on words.
-/

namespace Hidefix

open Foundation

/-- What is converted to an `Extent`. -/
inductive Selector where
  | index (i : Nat)
  | rangeFrom (start : Nat)
  | range (start stop : Nat)
  | rangeTo (stop : Nat)
  | rangeToInclusive (stop : Nat)
  | rangeInclusive (start stop : Nat)
  | rangeFull
  | startCount (start count : Nat)
  deriving DecidableEq, Repr

/-- The `From` conversions. -/
def Extent.ofSelector (b : Build) : Selector → Exec Extent
  | .index i => .ok (.index i)
  | .rangeFrom start => .ok (.slice start)
  | .range start stop => .ok (.sliceEnd start stop)
  | .rangeTo stop => .ok (.sliceEnd 0 stop)
  | .rangeToInclusive stop => do .ok (.sliceEnd 0 (← addU64 b stop 1))
  | .rangeInclusive start stop => do .ok (.sliceEnd start (← addU64 b stop 1))
  | .rangeFull => .ok (.slice 0)
  | .startCount start count => .ok (.sliceCount start count)

namespace Selector

/-- The indices that are selected in a dimension of size `n`. -/
def indices (n : Nat) : Selector → Set Nat
  | index i => {i}
  | rangeFrom start => {x | start ≤ x ∧ x < n}
  | range start stop => {x | start ≤ x ∧ x < stop}
  | rangeTo stop => {x | x < stop}
  | rangeToInclusive stop => {x | x ≤ stop}
  | rangeInclusive start stop => {x | start ≤ x ∧ x ≤ stop}
  | rangeFull => {x | x < n}
  | startCount start count => {x | start ≤ x ∧ x < start + count}

def start : Selector → Nat
  | index i => i
  | rangeFrom start | range start _ | rangeInclusive start _ | startCount start _ => start
  | rangeTo _ | rangeToInclusive _ | rangeFull => 0

def count (n : Nat) : Selector → Nat
  | index _ => 1
  | rangeFrom start => n - start
  | range start stop => stop - start
  | rangeTo stop => stop
  | rangeToInclusive stop => stop + 1
  | rangeInclusive start stop => stop + 1 - start
  | rangeFull => n
  | startCount _ count => count

def extent : Selector → Extent
  | index i => .index i
  | rangeFrom start => .slice start
  | range start stop => .sliceEnd start stop
  | rangeTo stop => .sliceEnd 0 stop
  | rangeToInclusive stop => .sliceEnd 0 (stop + 1)
  | rangeInclusive start stop => .sliceEnd start (stop + 1)
  | rangeFull => .slice 0
  | startCount start count => .sliceCount start count

def EndFits : Selector → Prop
  | rangeToInclusive stop | rangeInclusive _ stop => stop + 1 < 2 ^ 64
  | _ => True

def NonemptyInside (s : Selector) (n : Nat) : Prop :=
  (s.indices n).Nonempty ∧ ∀ x ∈ s.indices n, x < n

variable {b : Build} {s : Selector} {n : Nat}

theorem mem_indices {x : Nat} :
    x ∈ s.indices n ↔ s.start ≤ x ∧ x < s.start + s.count n := by
  cases s <;> simp [indices, start, count] <;> omega

theorem nonemptyInside_iff :
    s.NonemptyInside n ↔ s.count n ≠ 0 ∧ s.start + s.count n ≤ n := by
  constructor
  · rintro ⟨⟨x, hx⟩, hin⟩
    rw [mem_indices] at hx
    have hlast := hin (s.start + s.count n - 1) (by rw [mem_indices]; omega)
    omega
  · rintro ⟨hne, hle⟩
    constructor
    · exact ⟨s.start, mem_indices.mpr (by omega)⟩
    · intro x hx
      rw [mem_indices] at hx
      omega

theorem ofSelector_eq (h : s.EndFits) : Extent.ofSelector b s = .ok s.extent := by
  cases s with
  | rangeToInclusive stop =>
      have hend : stop + 1 < 2 ^ 64 := h
      simp [Extent.ofSelector, addU64_eq hend, extent]
  | rangeInclusive start stop =>
      have hend : stop + 1 < 2 ^ 64 := h
      simp [Extent.ofSelector, addU64_eq hend, extent]
  | _ => rfl

theorem endFits_of_ofSelector {e : Extent} (h : Extent.ofSelector .debug s = .ok e) :
    s.EndFits := by
  cases s with
  | rangeToInclusive stop =>
      rcases bind_eq_ok.mp h with ⟨last, hadd, _⟩
      exact (addU64_debug hadd).2
  | rangeInclusive start stop =>
      rcases bind_eq_ok.mp h with ⟨last, hadd, _⟩
      exact (addU64_debug hadd).2
  | _ => trivial

@[simp] theorem start_extent : s.extent.start = s.start := by
  cases s <;> rfl

@[simp] theorem size_extent : (s.extent.canonicalise n).size = s.count n := by
  cases s <;> simp [extent, Extent.canonicalise, Extent.size, Extent.count, count,
    rangeCount]

end Selector

namespace Idx

open Selector

variable {D : Nat} {b : Build}

/-- What `chunk_slices` hands to `ChunkSlicer::new`, if anything. -/
def Dataset.handedOn (b : Build) (ds : Dataset D) (e : Extents) :
    Exec (Option (List Nat × List Nat)) := do
  let (indices, counts) ← unwrapResult (e.getStartCountSized D ds.shape.toList)
  let outside ← exceeds b indices counts ds.shape.toList
  if outside ∨ counts.any (· = 0) then .ok none
  else .ok (some (indices, counts))

theorem Dataset.chunkSlices_eq (ds : Dataset D) (e : Extents) :
    ds.chunkSlices b e = ds.handedOn b e >>= fun
      | some (indices, counts) => ChunkSlicer.new b ds indices counts
      | none => .ok (ChunkSlicer.empty ds) := by
  unfold Dataset.chunkSlices Dataset.handedOn
  cases unwrapResult (e.getStartCountSized D ds.shape.toList) with
  | error fault => rfl
  | ok p =>
      simp only [ok_bind]
      cases exceeds b p.1 p.2 ds.shape.toList with
      | error fault => rfl
      | ok outside =>
          simp only [ok_bind]
          split <;> rfl

/--
The selectors go through the conversions and the bounds test as sets of indices:
the starts and counts are those of the sets, and are handed on where every set is
non-empty and inside.
-/
def SelectsExactly (b : Build) (ds : Dataset D) (sels : List Selector) : Prop :=
  ∃ extents start count,
    sels.mapM (Extent.ofSelector b) = .ok extents ∧
    (Extents.extent extents).getStartCountSized D ds.shape.toList =
      .ok (start, count) ∧
    start.length = D ∧ count.length = D ∧
    List.Forall₂
      (fun (p : Selector × Nat) (r : Nat × Nat) =>
        ∀ x, x ∈ p.1.indices p.2 ↔ r.1 ≤ x ∧ x < r.1 + r.2)
      (sels.zip ds.shape.toList) (start.zip count) ∧
    ((∀ p ∈ sels.zip ds.shape.toList, p.1.NonemptyInside p.2) →
      ds.handedOn b (.extent extents) = .ok (some (start, count))) ∧
    ((¬ ∀ p ∈ sels.zip ds.shape.toList, p.1.NonemptyInside p.2) →
      ds.handedOn b (.extent extents) = .ok none)

/--
The sums of start and count are words, in all dimensions up to the first that
reaches past the shape.
-/
def SumsFit : List (Selector × Nat) → Prop
  | [] => True
  | (s, n) :: dims =>
      s.start + s.count n < 2 ^ 64 ∧ (s.start + s.count n ≤ n → SumsFit dims)

def starts (dims : List (Selector × Nat)) : List Nat :=
  dims.map fun p => p.1.start

def counts (dims : List (Selector × Nat)) : List Nat :=
  dims.map fun p => p.1.count p.2

/-! ## The bounds test -/

theorem exceeds_eq {dims : List (Selector × Nat)} (h : SumsFit dims) :
    exceeds b (starts dims) (counts dims) (dims.map Prod.snd) =
      .ok (dims.any fun p => decide (p.2 < p.1.start + p.1.count p.2)) := by
  induction dims with
  | nil => rfl
  | cons p dims ih =>
      rcases p with ⟨s, n⟩
      rcases h with ⟨hfit, hdims⟩
      simp only [starts, counts, List.map_cons, exceeds, addU64_eq hfit, ok_bind,
        List.any_cons]
      split
      · rename_i hgt
        simp [hgt]
      · rename_i hle
        have htail := ih (hdims (Nat.le_of_not_lt hle))
        simp only [starts, counts] at htail
        rw [htail]
        simp [hle]

theorem sumsFit_of_exceeds {dims : List (Selector × Nat)} {outside : Bool}
    (h : exceeds .debug (starts dims) (counts dims) (dims.map Prod.snd) =
      .ok outside) :
    SumsFit dims := by
  induction dims with
  | nil => trivial
  | cons p dims ih =>
      rcases p with ⟨s, n⟩
      simp only [starts, counts, List.map_cons, exceeds] at h
      rcases bind_eq_ok.mp h with ⟨l, hadd, h⟩
      rcases addU64_debug hadd with ⟨rfl, hfit⟩
      constructor
      · exact hfit
      · intro hle
        rw [if_neg (Nat.not_lt.mpr hle)] at h
        exact ih h

/-! ## The conversions -/

section Conversions

variable {ds : Dataset D} {sels : List Selector}

theorem starts_extent :
    (Extents.extent (sels.map extent)).starts ds.shape.toList =
      starts (sels.zip ds.shape.toList) := by
  simp [Extents.starts, starts, List.zip_map_left, Function.comp_def]

theorem counts_extent :
    (Extents.extent (sels.map extent)).counts ds.shape.toList =
      counts (sels.zip ds.shape.toList) := by
  simp [Extents.counts, counts, List.zip_map_left, Function.comp_def]

theorem getStartCountSized_extent (h : sels.length = D) :
    (Extents.extent (sels.map extent)).getStartCountSized D ds.shape.toList =
      .ok (starts (sels.zip ds.shape.toList), counts (sels.zip ds.shape.toList)) := by
  have hranked : (Extents.extent (sels.map extent)).Ranked ds.shape.toList := by
    simp [Extents.Ranked, h]
  have hsized := Extents.getStartCountSized_ranked hranked
  rw [starts_extent, counts_extent, List.Vector.toList_length] at hsized
  exact hsized

theorem handedOn_extent (h : sels.length = D) :
    ds.handedOn b (.extent (sels.map extent)) =
      exceeds b (starts (sels.zip ds.shape.toList))
          (counts (sels.zip ds.shape.toList)) ds.shape.toList >>= fun outside =>
        if outside ∨ (counts (sels.zip ds.shape.toList)).any (· = 0) then .ok none
        else .ok (some (starts (sels.zip ds.shape.toList),
          counts (sels.zip ds.shape.toList))) := by
  unfold Dataset.handedOn
  rw [getStartCountSized_extent h]
  rfl

theorem map_snd_zip_shape (h : sels.length = D) :
    (sels.zip ds.shape.toList).map Prod.snd = ds.shape.toList := by
  apply List.map_snd_zip
  simp [h]

theorem nonemptyInside_all {dims : List (Selector × Nat)} :
    (∀ p ∈ dims, p.1.NonemptyInside p.2) ↔
      ¬ ((dims.any fun p => decide (p.2 < p.1.start + p.1.count p.2)) = true ∨
        (counts dims).any (· = 0) = true) := by
  simp only [counts, nonemptyInside_iff, not_or, Bool.not_eq_true, List.any_eq_false,
    List.any_map, decide_eq_true_eq, Function.comp_apply, Nat.not_lt]
  constructor
  · intro h
    constructor
    · intro p hp
      exact (h p hp).2
    · intro p hp
      exact (h p hp).1
  · rintro ⟨hle, hne⟩ p hp
    exact ⟨hne p hp, hle p hp⟩

theorem selectsExactly_of_fit (h : sels.length = D) (hend : ∀ s ∈ sels, s.EndFits)
    (hsums : SumsFit (sels.zip ds.shape.toList)) : SelectsExactly b ds sels := by
  have hbounds := exceeds_eq (b := b) hsums
  rw [map_snd_zip_shape h] at hbounds
  have hhanded : ds.handedOn b (.extent (sels.map extent)) = _ := handedOn_extent h
  rw [hbounds, ok_bind] at hhanded
  refine ⟨sels.map extent, _, _, ?_, getStartCountSized_extent h, ?_, ?_, ?_, ?_, ?_⟩
  · exact mapM_ok _ _ _ fun s hs => ofSelector_eq (hend s hs)
  · simp [starts, h]
  · simp [counts, h]
  · rw [starts, counts, List.zip_map', List.forall₂_map_right_iff, List.forall₂_same]
    intro p _ x
    exact mem_indices
  · intro hall
    rw [hhanded, if_neg (nonemptyInside_all.mp hall)]
  · intro hnot
    rw [nonemptyInside_all, not_not] at hnot
    rw [hhanded, if_pos hnot]

theorem endFits_of_mapM {extents : List Extent}
    (h : sels.mapM (Extent.ofSelector .debug) = .ok extents) :
    ∀ s ∈ sels, s.EndFits := by
  intro s hs
  rcases (mapM_ok_mem h).1 s hs with ⟨e, -, he⟩
  exact endFits_of_ofSelector he

/--
Selectors are selected exactly in both builds where no inclusive end is the
largest word, and the sums of the bounds test are words up to the first dimension
that is not inside.
-/
theorem selectsExactly_iff (h : sels.length = D) :
    (∀ b, SelectsExactly b ds sels) ↔
      (∀ s ∈ sels, s.EndFits) ∧ SumsFit (sels.zip ds.shape.toList) := by
  constructor
  · intro hexact
    rcases hexact .debug with
      ⟨extents, start, count, hconv, -, -, -, -, hsome, hnone⟩
    have hend := endFits_of_mapM hconv
    have hextents := mapM_ok (Extent.ofSelector .debug) extent sels fun s hs =>
      ofSelector_eq (hend s hs)
    rw [hextents] at hconv
    cases hconv
    have hhanded : ∃ handed, ds.handedOn .debug (.extent (sels.map extent)) =
        .ok handed := by
      by_cases hall : ∀ p ∈ sels.zip ds.shape.toList, p.1.NonemptyInside p.2
      · exact ⟨_, hsome hall⟩
      · exact ⟨_, hnone hall⟩
    rcases hhanded with ⟨handed, hhanded⟩
    rw [handedOn_extent h] at hhanded
    rcases bind_eq_ok.mp hhanded with ⟨outside, hbounds, -⟩
    have hexceeds : exceeds .debug (starts (sels.zip ds.shape.toList))
        (counts (sels.zip ds.shape.toList))
        ((sels.zip ds.shape.toList).map Prod.snd) = .ok outside := by
      rw [map_snd_zip_shape h, hbounds]
    exact ⟨hend, sumsFit_of_exceeds hexceeds⟩
  · rintro ⟨hend, hsums⟩ b
    exact selectsExactly_of_fit h hend hsums

end Conversions

/-! ## Three values in a row -/

def line : Dataset 1 where
  dtype := .uint 1
  dsize := 1
  order := .le
  chunks := [⟨ULE.new 64, ULE.new 3, ULE.new 0 ::ᵥ .nil⟩]
  shape := 3 ::ᵥ .nil
  chunkShape := 3 ::ᵥ .nil
  chunkShapeReduced := 3 ::ᵥ .nil
  scaledDimSz := 1 ::ᵥ .nil
  dimSz := 1 ::ᵥ .nil
  chunkDimSz := 1 ::ᵥ .nil
  shuffle := false
  gzip := none

theorem selectsExactly_iff_line :
    (∀ b, SelectsExactly b line [.rangeInclusive 1 2]) ↔
      (∀ s ∈ [Selector.rangeInclusive 1 2], s.EndFits) ∧
        SumsFit [(.rangeInclusive 1 2, 3)] :=
  selectsExactly_iff rfl

/--
The largest word as an index: a debug build panics at the sum of the bounds test,
and a release build hands the index on, as the sum has wrapped.  As an inclusive
end it panics already in the conversion.
-/
theorem not_selectsExactly_largest :
    ¬ SelectsExactly .debug line [.index (2 ^ 64 - 1)] ∧
      ¬ SelectsExactly .release line [.index (2 ^ 64 - 1)] ∧
      ¬ SelectsExactly .debug line [.rangeToInclusive (2 ^ 64 - 1)] := by
  have houtside : ¬ ∀ p ∈ [Selector.index (2 ^ 64 - 1)].zip line.shape.toList,
      p.1.NonemptyInside p.2 := by
    intro h
    have hlast := (h (.index (2 ^ 64 - 1), 3) (by simp [line, List.Vector.toList])).2
      (2 ^ 64 - 1) rfl
    exact absurd hlast (by decide)
  refine ⟨?_, ?_, ?_⟩
  · rintro ⟨extents, start, count, hconv, -, -, -, -, -, hnone⟩
    cases hconv
    exact absurd (hnone houtside) (by decide)
  · rintro ⟨extents, start, count, hconv, -, -, -, -, -, hnone⟩
    cases hconv
    exact absurd (hnone houtside) (by decide)
  · rintro ⟨extents, start, count, hconv, -⟩
    cases hconv

end Idx

end Hidefix
