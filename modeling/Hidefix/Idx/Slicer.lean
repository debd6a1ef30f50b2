import Hidefix.Foundation.Sort
import Hidefix.Idx.Dataset

/-!
# Iterating over the chunk slices of a selection

`ChunkSlicer` yields chunks with a start and an end in values.  `next` walks
the dimensions from the last to the first: it advances in the current chunk,
carries into the dimension before, and stops in the first dimension where the
slice does not span the whole chunk.
-/

namespace Hidefix.Idx

open Foundation
open Sorting (UnstableSort)

variable {D : Nat}

/-- A chunk, and the start and end of a run of values in it. -/
abbrev Item (D : Nat) := Chunk D × Nat × Nat

structure ChunkSlicer (D : Nat) where
  dataset : Dataset D
  offset : Nat
  offsetCoords : List Nat
  indices : List Nat
  counts : List Nat
  countsReduced : List StrengthReducedU64
  /-- The end of the slice in values. -/
  stop : Nat

/-- What the dimension loop of `next` reads in one dimension. -/
structure Axis where
  idx : Nat
  offset : Nat
  count : Nat
  countSru : StrengthReducedU64
  chunkOffset : Nat
  chunkSz : Nat
  chunkDimSz : Nat
  shape : Nat

/-- The variables of the dimension loop; `coords` holds the visited dimensions. -/
structure LoopState where
  coords : List Nat
  offset : Nat
  advance : Nat
  carry : Nat
  deriving DecidableEq, Repr

/-- `debug_assert!` of an expression that may itself panic. -/
def debugAssertM (b : Build) (cond : Exec Bool) : Exec Unit :=
  match b with
  | .debug => do if ← cond then .ok () else panicWith .assertion
  | .release => .ok ()

theorem debugAssertM_of {b : Build} {cond : Exec Bool} (h : cond = .ok true) :
    debugAssertM b cond = .ok () := by
  cases b
  · simp [debugAssertM, h]
  · rfl

@[simp] theorem debugAssertM_decide {b : Build} {p : Prop} [Decidable p] :
    debugAssertM b (.ok (decide p)) = debugAssert b p := by
  cases b
  · by_cases h : p <;> simp [debugAssertM, debugAssert, h]
  · rfl

def cutChunkSz (b : Build) (a : Axis) : Exec Nat := do
  let chunkDimEnd ← addU64 b a.chunkOffset a.chunkSz
  if chunkDimEnd > a.shape then
    subU64 b a.chunkSz (← subU64 b chunkDimEnd a.shape)
  else .ok a.chunkSz

/-- One turn of the dimension loop; the flag is `continue`. -/
def visitAxis (b : Build) (stop : Nat) (a : Axis) (cur : LoopState) :
    Exec (LoopState × Bool) := do
  let chunkSz ← cutChunkSz b a
  let offset ← addU64 b a.offset cur.carry
  let carry := a.countSru.div offset
  let offset := a.countSru.rem offset
  if chunkSz = 1 ∧ a.chunkDimSz ≠ 1 then
    .ok ({ cur with coords := offset :: cur.coords, carry }, true)
  else do
    debugAssert b (offset < a.count)
    -- advance to end of slice or to end of dimension
    let current := offset
    let countChunkEnd ← subU64 b (← addU64 b a.chunkOffset chunkSz) a.idx
    let offset := min a.count countChunkEnd
    let diff ← mulU64 b (← subU64 b offset current) a.chunkDimSz
    let advance ← addU64 b cur.advance diff
    let selfOffset ← addU64 b cur.offset diff
    let carry ← addU64 b carry (a.countSru.div offset)
    let offset := a.countSru.rem offset
    let cur' := { coords := offset :: cur.coords, offset := selfOffset,
                  advance, carry : LoopState }
    if a.idx = a.chunkOffset ∧ a.count = countChunkEnd ∧ selfOffset < stop then
      .ok (cur', true)
    else do
      debugAssert b (selfOffset ≤ stop)
      .ok (cur', false)

/-- The dimension loop, over the axes from the last; also the axes not visited. -/
def dimLoop (b : Build) (stop : Nat) :
    List Axis → LoopState → Exec (LoopState × List Axis)
  | [], cur => .ok (cur, [])
  | a :: rest, cur => do
      let (cur, continue_) ← visitAxis b stop a cur
      if continue_ then dimLoop b stop rest cur else .ok (cur, rest)

def leftOver (b : Build) : List Axis → List Nat → Nat → Exec (List Nat)
  | [], coords, _ => .ok coords
  | a :: rest, coords, carry => do
      let offset ← addU64 b a.offset carry
      let carry := a.countSru.div offset
      let offset := a.countSru.rem offset
      if carry = 0 then .ok ((rest.map Axis.offset).reverse ++ offset :: coords)
      else leftOver b rest (offset :: coords) carry

namespace ChunkSlicer

def empty (ds : Dataset D) : ChunkSlicer D where
  dataset := ds
  offset := 0
  offsetCoords := List.replicate D 0
  indices := List.replicate D 0
  counts := List.replicate D 0
  countsReduced := List.replicate D 1
  stop := 0

/-- The number of values of the slice, as `new` computes it. -/
def endOf (b : Build) (ds : Dataset D) (counts : List Nat) : Exec Nat :=
  if ds.isScalar then .ok 1 else productU64 b counts

def new (b : Build) (ds : Dataset D) (indices counts : List Nat) :
    Exec (ChunkSlicer D) := do
  let stop ← endOf b ds counts
  debugAssertM b (do
    let ends ← (indices.zip counts).mapM fun p => addU64 b p.1 p.2
    .ok ((ends.zip ds.shape.toList).all fun p => p.1 ≤ p.2))
  let countsReduced ← counts.mapM StrengthReducedU64.new
  .ok { dataset := ds, offset := 0, offsetCoords := List.replicate D 0,
        indices, counts, countsReduced, stop }

def chunkStart (b : Build) (coords chunkOffset dimSz : List Nat) : Exec Nat :=
  (coords.zip (chunkOffset.zip dimSz)).foldlM
    (fun start p => do
      addU64 b start (← (do mulU64 b (← subU64 b p.1 p.2.1) p.2.2))) 0

/-- `izip!(&indices, &mut offset_coords, &counts, ..)` -/
def axes (s : ChunkSlicer D) (chunk : Chunk D) : List Axis :=
  (s.indices.zip (s.offsetCoords.zip (s.counts.zip (s.countsReduced.zip
    (chunk.offsetU64.zip (s.dataset.chunkShape.toList.zip
      (s.dataset.chunkDimSz.toList.zip s.dataset.shape.toList))))))).map
    fun (idx, offset, count, countSru, chunkOffset, chunkSz, chunkDimSz, shape) =>
      { idx, offset, count, countSru, chunkOffset, chunkSz, chunkDimSz, shape }

def next (b : Build) (s : ChunkSlicer D) :
    Exec (Option (Item D × ChunkSlicer D)) :=
  if s.offset ≥ s.stop then .ok none
  else if s.dataset.isScalar then do
    debugAssert b (s.dataset.chunks.length = 1)
    let offset ← addU64 b s.offset 1
    match s.dataset.chunks[0]? with
    | some chunk => .ok (some ((chunk, 0, 1), { s with offset }))
    | none => panicWith .index
  else do
    let start ← (s.indices.zip s.offsetCoords).mapM fun p => addU64 b p.1 p.2
    let chunk ← s.dataset.chunkAtCoord b start
    debugAssertM b (do
      .ok (decide ((← chunk.contains b start s.dataset.chunkShape.toList) = .eq)))
    -- position in chunk of current offset
    let chunkStart ←
      chunkStart b start chunk.offsetU64 s.dataset.chunkDimSz.toList
    let (cur, rest) ← dimLoop b s.stop (s.axes chunk).reverse
      { coords := [], offset := s.offset, advance := 0, carry := 0 }
    let offsetCoords ← leftOver b rest cur.coords cur.carry
    debugAssert b (cur.advance > 0)
    -- position in chunk of new offset
    let chunkEnd ← addU64 b chunkStart cur.advance
    debugAssertM b (do
      .ok (decide (chunkEnd ≤ (← productU64 b s.dataset.chunkShape.toList))))
    .ok (some ((chunk, chunkStart, chunkEnd),
      { s with offset := cur.offset, offsetCoords }))

inductive Halt where
  | exhausted
  | fault (f : Fault)
  | outOfFuel
  deriving DecidableEq, Repr

/-- The items yielded by at most `fuel` calls of `next`. -/
def run (b : Build) : Nat → ChunkSlicer D → List (Item D) × Halt
  | 0, _ => ([], .outOfFuel)
  | fuel + 1, s =>
      match next b s with
      | .error f => ([], .fault f)
      | .ok none => ([], .exhausted)
      | .ok (some (item, s')) =>
          let (items, halt) := run b fuel s'
          (item :: items, halt)

theorem run_some {b : Build} {fuel : Nat} {s s' : ChunkSlicer D}
    {item : Item D} (h : next b s = .ok (some (item, s'))) :
    run b (fuel + 1) s = (item :: (run b fuel s').1, (run b fuel s').2) := by
  rw [run, h]

theorem run_some_exhausted {b : Build} {fuel : Nat} {s s' : ChunkSlicer D}
    {item : Item D} {items : List (Item D)}
    (h : next b s = .ok (some (item, s')))
    (hrun : run b (fuel + 1) s = (items, .exhausted)) :
    ∃ rest, items = item :: rest ∧ run b fuel s' = (rest, .exhausted) := by
  rw [run_some h] at hrun
  obtain ⟨rfl, hhalt⟩ := Prod.mk.inj hrun
  exact ⟨_, rfl, Prod.ext rfl hhalt⟩

theorem run_exhausted_unique {b : Build} {fuel fuel' : Nat}
    {s : ChunkSlicer D} {items items' : List (Item D)}
    (h : run b fuel s = (items, .exhausted))
    (h' : run b fuel' s = (items', .exhausted)) : items = items' := by
  induction fuel generalizing fuel' s items items' with
  | zero => cases h
  | succ fuel ih =>
      cases fuel' with
      | zero => cases h'
      | succ fuel' =>
          cases hnext : next b s with
          | error f =>
              rw [run, hnext] at h
              cases h
          | ok r =>
              cases r with
              | none =>
                  rw [run, hnext] at h h'
                  cases h
                  cases h'
                  rfl
              | some r =>
                  obtain ⟨item, s'⟩ := r
                  obtain ⟨rest, rfl, hrest⟩ := run_some_exhausted hnext h
                  obtain ⟨rest', rfl, hrest'⟩ := run_some_exhausted hnext h'
                  rw [ih hrest hrest']

theorem run_none {b : Build} {fuel : Nat} {s : ChunkSlicer D}
    (h : next b s = .ok none) : run b (fuel + 1) s = ([], .exhausted) := by
  rw [run, h]

theorem run_fault {b : Build} {fuel : Nat} {s : ChunkSlicer D} {f : Fault}
    (h : next b s = .error f) : run b (fuel + 1) s = ([], .fault f) := by
  rw [run, h]

theorem run_of_le {b : Build} {fuel fuel' : Nat} {s : ChunkSlicer D}
    {items : List (Item D)} (h : run b fuel s = (items, .exhausted))
    (hle : fuel ≤ fuel') : run b fuel' s = (items, .exhausted) := by
  induction fuel generalizing fuel' s items with
  | zero => cases h
  | succ fuel ih =>
      obtain ⟨fuel', rfl⟩ := Nat.exists_eq_add_of_le' (Nat.le_of_add_left_le hle)
      have hle : fuel ≤ fuel' := by omega
      cases hnext : next b s with
      | error f =>
          rw [run_fault hnext] at h
          cases h
      | ok r =>
          cases r with
          | none => rwa [run_none hnext] at h ⊢
          | some r =>
              obtain ⟨rest, rfl, hrest⟩ := run_some_exhausted hnext h
              rw [run_some hnext, ih hrest hle]

theorem next_end {b : Build} {s : ChunkSlicer D} (h : s.stop ≤ s.offset) :
    next b s = .ok none := if_pos h

end ChunkSlicer

/-- The bounds test of `chunk_slices`: `any` stops at the first excess. -/
def exceeds (b : Build) : (indices counts shape : List Nat) → Exec Bool
  | i :: indices, c :: counts, s :: shape => do
      let l ← addU64 b i c
      if l > s then .ok true else exceeds b indices counts shape
  | _, _, _ => .ok false

def unwrapResult {α : Type} : Exec α → Exec α
  | .error (.err _) => panicWith .unwrap
  | r => r

/--
Iterator over chunk, start and end which if joined will make up the specified
slice through the variable.  An `Err` from the extents is unwrapped.
-/
def Dataset.chunkSlices (b : Build) (ds : Dataset D) (e : Extents) :
    Exec (ChunkSlicer D) := do
  let (indices, counts) ←
    unwrapResult (e.getStartCountSized D ds.shape.toList)
  let outside ← exceeds b indices counts ds.shape.toList
  if outside ∨ counts.any (· = 0) then
    -- out of bounds or counts is zero in any dimension
    .ok (ChunkSlicer.empty ds)
  else ChunkSlicer.new b ds indices counts

/-- `chunk_slices(..).collect()` -/
def Dataset.collectSlices (b : Build) (fuel : Nat) (ds : Dataset D)
    (e : Extents) : Exec (List (Item D)) := do
  let slicer ← ds.chunkSlices b e
  match slicer.run b fuel with
  | (items, .exhausted) => .ok items
  | (_, .fault f) => .error f
  | (_, .outOfFuel) => .error .outOfFuel

theorem Dataset.collectSlices_of_le {b : Build} {fuel fuel' : Nat} {ds : Dataset D}
    {e : Extents} {items : List (Item D)} (h : ds.collectSlices b fuel e = .ok items)
    (hle : fuel ≤ fuel') : ds.collectSlices b fuel' e = .ok items := by
  obtain ⟨s, hs, h⟩ := bind_eq_ok.mp h
  cases hrun : s.run b fuel with
  | mk items' halt =>
      cases halt with
      | exhausted =>
          rw [hrun] at h
          simp [collectSlices, hs, ChunkSlicer.run_of_le hrun hle, Except.ok.inj h]
      | fault f => simp [hrun] at h
      | outOfFuel => simp [hrun] at h

/-- A slice with its destination offset: chunk, current, start, end. -/
abbrev Segment (D : Nat) := Chunk D × Nat × Nat × Nat

/-- The `scan` of `group_chunk_slices`: offsets in the destination vector. -/
def destOffsets (b : Build) :
    List (Item D) → Nat → Exec (List (Segment D))
  | [], _ => .ok []
  | (c, start, stop) :: items, offset => do
      let sliceSz ← subU64 b stop start
      let current := offset
      let offset ← addU64 b offset sliceSz
      let segments ← destOffsets b items offset
      .ok ((c, current, start, stop) :: segments)

/-- The key of `sort_unstable_by_key`: the file address of the chunk. -/
def Segment.addr (s : Segment D) : Nat := s.1.addr.get

/--
The slices with their offsets in the destination vector, sorted by the file
address of their chunk.
-/
def Dataset.groupChunkSlices (sort : UnstableSort (Segment D) Segment.addr)
    (b : Build) (fuel : Nat) (ds : Dataset D) (e : Extents) :
    Exec (List (Segment D)) := do
  let items ← ds.collectSlices b fuel e
  let chunks ← destOffsets b items 0
  .ok (sort.sort chunks)

end Hidefix.Idx
