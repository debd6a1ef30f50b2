import Hidefix.Foundation.Checked

/-!
# Extents of a selection

An `Extent` selects along one dimension and `Extents` along all of them.
Canonicalising gives every extent a known count; the (start, count) pairs are
what the readers and the slicer work with.
-/

namespace Hidefix

open Foundation

inductive Extent where
  | slice (start : Nat)
  | sliceEnd (start stop : Nat)
  | sliceCount (start count : Nat)
  | index (i : Nat)
  deriving DecidableEq, Repr

inductive Extents where
  | all
  | extent (extents : List Extent)
  deriving DecidableEq, Repr

/-- `(start..stop).count() as u64` -/
def rangeCount (start stop : Nat) : Nat := stop - start

def unwrap {α : Type} : Option α → Exec α
  | some a => .ok a
  | none => panicWith .unwrap

namespace Extent

def start : Extent → Nat
  | index i => i
  | slice start => start
  | sliceCount start _ => start
  | sliceEnd start _ => start

def count : Extent → Option Nat
  | index _ => some 1
  | slice _ => none
  | sliceCount _ count => some count
  | sliceEnd start stop => some (rangeCount start stop)

def canonicalise (dimsize : Nat) : Extent → Extent
  | index start => index start
  | slice start => sliceCount start (rangeCount start dimsize)
  | sliceEnd start stop => sliceCount start (rangeCount start stop)
  | sliceCount start count => sliceCount start count

def size (e : Extent) : Nat := e.count.getD 0

theorem unwrap_count_canonicalise (e : Extent) (dimsize : Nat) :
    unwrap (e.canonicalise dimsize).count =
      .ok (e.canonicalise dimsize).size := by
  cases e <;> rfl

end Extent

namespace Extents

def canonicalise (dims : List Nat) : Extents → Exec (List Extent)
  | all => .ok (dims.map (Extent.sliceCount 0))
  | extent extents =>
      if extents.length ≠ dims.length then
        bail s!"Extents had length {extents.length} but dimension length is {dims.length}"
      else .ok ((extents.zip dims).map fun p => p.1.canonicalise p.2)

def getCounts (e : Extents) (dims : List Nat) : Exec (List Nat) := do
  let extents ← e.canonicalise dims
  extents.mapM fun e => unwrap e.count

def getStartCount (e : Extents) (dims : List Nat) :
    Exec (List Nat × List Nat) := do
  let extents ← e.canonicalise dims
  let counts ← extents.mapM fun e => unwrap e.count
  .ok (extents.map Extent.start, counts)

/-- Same as `getStartCount`, but errors if the rank `D` is not compatible. -/
def getStartCountSized (D : Nat) (e : Extents) (dims : List Nat) :
    Exec (List Nat × List Nat) := do
  let (start, count) ← e.getStartCount dims
  if start.length ≠ D then bail "shape is not compatible with extent"
  else .ok (start, count)

/-- `TryFrom<(&[u64], &[u64])>` -/
def ofStartCount (start count : List Nat) : Exec Extents :=
  if start.length = count.length then
    .ok (extent ((start.zip count).map fun p => .sliceCount p.1 p.2))
  else bail "Indices and count does not have the same length"

def starts (e : Extents) (dims : List Nat) : List Nat :=
  match e with
  | all => dims.map fun _ => 0
  | extent extents => (extents.zip dims).map fun p => p.1.start

def counts (e : Extents) (dims : List Nat) : List Nat :=
  match e with
  | all => dims
  | extent extents => (extents.zip dims).map fun p => (p.1.canonicalise p.2).size

def Ranked (e : Extents) (dims : List Nat) : Prop :=
  match e with
  | all => True
  | extent extents => extents.length = dims.length

instance (e : Extents) (dims : List Nat) : Decidable (e.Ranked dims) := by
  unfold Ranked
  cases e <;> infer_instance

@[simp] theorem length_starts {e : Extents} {dims : List Nat}
    (h : e.Ranked dims) : (e.starts dims).length = dims.length := by
  cases e with
  | all => simp [starts]
  | extent extents =>
      have h : extents.length = dims.length := h
      simp [starts, h]

@[simp] theorem length_counts {e : Extents} {dims : List Nat}
    (h : e.Ranked dims) : (e.counts dims).length = dims.length := by
  cases e with
  | all => rfl
  | extent extents =>
      have h : extents.length = dims.length := h
      simp [counts, h]

private theorem start_canonicalise (e : Extent) (d : Nat) :
    (e.canonicalise d).start = e.start := by
  cases e <;> rfl

theorem canonicalise_ranked {e : Extents} {dims : List Nat}
    (h : e.Ranked dims) :
    ∃ extents, e.canonicalise dims = .ok extents ∧
      (extents.mapM fun e => unwrap e.count) = .ok (e.counts dims) ∧
      extents.map Extent.start = e.starts dims := by
  cases e with
  | all =>
      refine ⟨_, rfl, ?_, ?_⟩
      · rw [mapM_ok _ Extent.size]
        · simp [counts, Function.comp_def, Extent.size, Extent.count]
        · intro e he
          obtain ⟨d, -, rfl⟩ := List.mem_map.mp he
          rfl
      · simp [starts, Function.comp_def, Extent.start]
  | extent extents =>
      have h : extents.length = dims.length := h
      refine ⟨_, if_neg (not_not.mpr h), ?_, ?_⟩
      · rw [mapM_ok _ Extent.size]
        · simp [counts]
        · intro e he
          obtain ⟨p, -, rfl⟩ := List.mem_map.mp he
          exact p.1.unwrap_count_canonicalise p.2
      · simp [starts, start_canonicalise]

theorem getCounts_ranked {e : Extents} {dims : List Nat} (h : e.Ranked dims) :
    e.getCounts dims = .ok (e.counts dims) := by
  obtain ⟨extents, hcanon, hcounts, -⟩ := canonicalise_ranked h
  unfold getCounts
  rw [hcanon]
  exact hcounts

theorem getStartCountSized_ranked {e : Extents} {dims : List Nat}
    (h : e.Ranked dims) :
    e.getStartCountSized dims.length dims =
      .ok (e.starts dims, e.counts dims) := by
  obtain ⟨extents, hcanon, hcounts, hstarts⟩ := canonicalise_ranked h
  have hlen : (e.starts dims).length = dims.length := length_starts h
  unfold getStartCountSized getStartCount
  simp [hcanon, hcounts, hstarts, hlen, bind, Except.bind]

theorem ofStartCount_eq {start count dims : List Nat}
    (hstart : start.length = dims.length) (hcount : count.length = dims.length) :
    ∃ e, ofStartCount start count = .ok e ∧ e.Ranked dims ∧
      e.starts dims = start ∧ e.counts dims = count := by
  refine ⟨_, if_pos (hstart.trans hcount.symm), ?_, ?_, ?_⟩
  · simp [Ranked, hstart, hcount]
  · refine List.ext_getElem (by simp [starts, hstart, hcount]) fun i hi hi' => ?_
    simp [starts, Extent.start]
  · refine List.ext_getElem (by simp [counts, hstart, hcount]) fun i hi hi' => ?_
    simp [counts, Extent.canonicalise, Extent.size, Extent.count]

theorem canonicalise_not_ranked {e : Extents} {dims : List Nat}
    (h : ¬ e.Ranked dims) :
    ∃ message, e.canonicalise dims = bail message := by
  cases e with
  | all => exact absurd trivial h
  | extent extents => exact ⟨_, if_pos h⟩

end Extents

end Hidefix
