import Hidefix.Idx.Slicer

/-!
# The slices of an iteration

Whatever the sizes of a dataset, a slice lies in one of its chunks, and an
iteration stays with its dataset.
-/

namespace Hidefix.Idx

open Foundation

variable {D : Nat} {ds : Dataset D}

/-! ## What a call has computed -/

/--
A turn of the dimension loop writes a coordinate below the count.  It skips the
dimension, or adds the rows to the end of the chunk or the slice, times their
size, to both counters.
-/
theorem visitAxis_cases {b : Build} {stop : Nat} {a : Axis} {cur cur' : LoopState}
    {flag : Bool} (h : visitAxis b stop a cur = .ok (cur', flag)) :
    (∃ o < a.countSru.get, cur'.coords = o :: cur.coords) ∧
      (cur'.offset = cur.offset ∧ cur'.advance = cur.advance ∨
        ∃ offset last rows diff, addU64 b a.offset cur.carry = .ok offset ∧
          last ≤ a.count ∧ subU64 b last (offset % a.countSru.get) = .ok rows ∧
          mulU64 b rows a.chunkDimSz = .ok diff ∧
          addU64 b cur.advance diff = .ok cur'.advance ∧
          addU64 b cur.offset diff = .ok cur'.offset ∧
          (cur'.offset < stop ∨ debugAssert b (cur'.offset ≤ stop) = .ok ())) := by
  have hcoord : ∀ n, n % a.countSru.get < a.countSru.get := fun n =>
    Nat.mod_lt n a.countSru.get_pos
  unfold visitAxis at h
  simp only [StrengthReducedU64.div_eq, StrengthReducedU64.rem_eq] at h
  obtain ⟨chunkSz, -, h⟩ := bind_eq_ok.mp h
  obtain ⟨offset, hsum, h⟩ := bind_eq_ok.mp h
  split at h
  · -- a dimension of single layers is skipped
    cases h
    exact ⟨⟨_, hcoord offset, rfl⟩, .inl ⟨rfl, rfl⟩⟩
  · obtain ⟨_, -, h⟩ := bind_eq_ok.mp h
    obtain ⟨ends, -, h⟩ := bind_eq_ok.mp h
    obtain ⟨countChunkEnd, -, h⟩ := bind_eq_ok.mp h
    obtain ⟨rows, hrows, h⟩ := bind_eq_ok.mp h
    obtain ⟨diff, hdiff, h⟩ := bind_eq_ok.mp h
    obtain ⟨advance, hadvance, h⟩ := bind_eq_ok.mp h
    obtain ⟨selfOffset, hoffset, h⟩ := bind_eq_ok.mp h
    obtain ⟨carry, -, h⟩ := bind_eq_ok.mp h
    have hlast := Nat.min_le_left a.count countChunkEnd
    split at h
    · rename_i hgo
      cases h
      exact ⟨⟨_, hcoord _, rfl⟩, .inr ⟨offset, _, rows, diff, hsum, hlast, hrows,
        hdiff, hadvance, hoffset, .inl hgo.2.2⟩⟩
    · -- the loop stops here
      obtain ⟨_, hassert, h⟩ := bind_eq_ok.mp h
      cases h
      exact ⟨⟨_, hcoord _, rfl⟩, .inr ⟨offset, _, rows, diff, hsum, hlast, hrows,
        hdiff, hadvance, hoffset, .inr hassert⟩⟩

structure Advanced (b : Build) (s : ChunkSlicer D) (item : Item D)
    (s' : ChunkSlicer D) (start : List Nat) (cur : LoopState) (rest : List Axis)
    (coords : List Nat) : Prop where
  begins : (s.indices.zip s.offsetCoords).mapM (fun p => addU64 b p.1 p.2) = .ok start
  chunk : s.dataset.chunkAtCoord b start = .ok item.1
  chunkStart : ChunkSlicer.chunkStart b start item.1.offsetU64
    s.dataset.chunkDimSz.toList = .ok item.2.1
  loop : dimLoop b s.stop (s.axes item.1).reverse
    { coords := [], offset := s.offset, advance := 0, carry := 0 } = .ok (cur, rest)
  carried : leftOver b rest cur.coords cur.carry = .ok coords
  advances : debugAssert b (cur.advance > 0) = .ok ()
  chunkEnd : addU64 b item.2.1 cur.advance = .ok item.2.2
  state : s' = { s with offset := cur.offset, offsetCoords := coords }

/-- A call of `next` that yields: a scalar has one value, in its one chunk. -/
theorem next_cases {b : Build} {s s' : ChunkSlicer D} {item : Item D}
    (h : s.next b = .ok (some (item, s'))) :
    s.offset < s.stop ∧
      ((D = 0 ∧ item.2 = (0, 1) ∧ s.dataset.chunks[0]? = some item.1 ∧
          ∃ offset, addU64 b s.offset 1 = .ok offset ∧ s' = { s with offset }) ∨
        (D ≠ 0 ∧ ∃ start cur rest coords, Advanced b s item s' start cur rest coords)) := by
  unfold ChunkSlicer.next at h
  split at h
  · cases h
  · rename_i hlt
    refine ⟨Nat.lt_of_not_ge hlt, ?_⟩
    split at h
    · rename_i hscalar
      have hD : D = 0 := by simpa [Dataset.isScalar] using hscalar
      obtain ⟨_, -, h⟩ := bind_eq_ok.mp h
      obtain ⟨offset, hoffset, h⟩ := bind_eq_ok.mp h
      split at h
      · rename_i chunk hget
        cases h
        exact .inl ⟨hD, rfl, hget, offset, hoffset, rfl⟩
      · cases h
    · rename_i hscalar
      have hD : D ≠ 0 := by simpa [Dataset.isScalar] using hscalar
      obtain ⟨start, hstart, h⟩ := bind_eq_ok.mp h
      obtain ⟨chunk, hchunk, h⟩ := bind_eq_ok.mp h
      obtain ⟨_, -, h⟩ := bind_eq_ok.mp h
      obtain ⟨chunkStart, hchunkStart, h⟩ := bind_eq_ok.mp h
      obtain ⟨⟨cur, rest⟩, hloop, h⟩ := bind_eq_ok.mp h
      obtain ⟨coords, hcarried, h⟩ := bind_eq_ok.mp h
      obtain ⟨_, hadvances, h⟩ := bind_eq_ok.mp h
      obtain ⟨chunkEnd, hchunkEnd, h⟩ := bind_eq_ok.mp h
      obtain ⟨_, -, h⟩ := bind_eq_ok.mp h
      cases h
      exact .inr ⟨hD, start, cur, rest, coords, hstart, hchunk, hchunkStart, hloop,
        hcarried, hadvances, hchunkEnd, rfl⟩

theorem run_forall {b : Build} {I : ChunkSlicer D → Prop} {P : Item D → Prop}
    (hstep : ∀ s item s', I s → s.next b = .ok (some (item, s')) → P item ∧ I s')
    {fuel : Nat} {s : ChunkSlicer D} (hs : I s) : ∀ item ∈ (s.run b fuel).1, P item := by
  induction fuel generalizing s with
  | zero => simp [ChunkSlicer.run]
  | succ fuel ih =>
      intro item hitem
      cases hnext : s.next b with
      | error f =>
          rw [ChunkSlicer.run_fault hnext] at hitem
          cases hitem
      | ok r =>
          cases r with
          | none =>
              rw [ChunkSlicer.run_none hnext] at hitem
              cases hitem
          | some r =>
              obtain ⟨first, s'⟩ := r
              obtain ⟨hfirst, hs'⟩ := hstep s first s' hs hnext
              rw [ChunkSlicer.run_some hnext] at hitem
              rcases List.mem_cons.mp hitem with rfl | hitem
              · exact hfirst
              · exact ih hs' item hitem

/-! ## The chunks of the slices -/

theorem chunkAtCoord_mem {b : Build} {x : List Nat} {c : Chunk D}
    (h : ds.chunkAtCoord b x = .ok c) : c ∈ ds.chunks := by
  unfold Dataset.chunkAtCoord at h
  obtain ⟨_, -, h⟩ := bind_eq_ok.mp h
  obtain ⟨_, -, h⟩ := bind_eq_ok.mp h
  obtain ⟨i, -, h⟩ := bind_eq_ok.mp h
  split at h
  · rename_i chunk hget
    cases h
    exact List.mem_of_getElem? hget
  · cases h

structure ItemOk (ds : Dataset D) (item : Item D) : Prop where
  mem : item.1 ∈ ds.chunks
  start_lt : item.2.1 < 2 ^ 64

theorem next_itemOk {b : Build} {s s' : ChunkSlicer D} {item : Item D}
    (h : s.next b = .ok (some (item, s'))) :
    ItemOk s.dataset item ∧ s'.dataset = s.dataset := by
  obtain ⟨-, ⟨-, hitem, hget, offset, -, rfl⟩ |
    ⟨-, start, cur, rest, coords, hadv⟩⟩ := next_cases h
  · refine ⟨⟨List.mem_of_getElem? hget, ?_⟩, rfl⟩
    rw [hitem]
    exact Nat.two_pow_pos 64
  · obtain rfl := hadv.state
    exact ⟨⟨chunkAtCoord_mem hadv.chunk,
      foldlM_addU64_lt (by decide) hadv.chunkStart⟩, rfl⟩

theorem run_itemOk {b : Build} {fuel : Nat} {s : ChunkSlicer D} :
    ∀ item ∈ (s.run b fuel).1, ItemOk s.dataset item := by
  have hstep : ∀ (s' : ChunkSlicer D) (item : Item D) (s'' : ChunkSlicer D),
      s'.dataset = s.dataset → s'.next b = .ok (some (item, s'')) →
      ItemOk s.dataset item ∧ s''.dataset = s.dataset := by
    intro s' item s'' hds hnext
    rw [← hds]
    exact next_itemOk hnext
  exact run_forall hstep rfl

theorem chunkSlices_dataset {b : Build} {e : Extents} {s : ChunkSlicer D}
    (h : ds.chunkSlices b e = .ok s) : s.dataset = ds := by
  unfold Dataset.chunkSlices at h
  obtain ⟨⟨indices, counts⟩, -, h⟩ := bind_eq_ok.mp h
  obtain ⟨outside, -, h⟩ := bind_eq_ok.mp h
  split at h
  · cases h
    rfl
  · unfold ChunkSlicer.new at h
    obtain ⟨_, -, h⟩ := bind_eq_ok.mp h
    obtain ⟨_, -, h⟩ := bind_eq_ok.mp h
    obtain ⟨_, -, h⟩ := bind_eq_ok.mp h
    cases h
    rfl

theorem collectSlices_ok {b : Build} {fuel : Nat} {e : Extents}
    {items : List (Item D)} (h : ds.collectSlices b fuel e = .ok items) :
    ∃ s, ds.chunkSlices b e = .ok s ∧ s.run b fuel = (items, .exhausted) := by
  unfold Dataset.collectSlices at h
  obtain ⟨s, hs, h⟩ := bind_eq_ok.mp h
  refine ⟨s, hs, ?_⟩
  generalize hrun : s.run b fuel = r at h
  obtain ⟨items', halt⟩ := r
  cases halt with
  | exhausted =>
      cases h
      rfl
  | fault f => cases h
  | outOfFuel => cases h

theorem collectSlices_unique {b : Build} {fuel fuel' : Nat} {e : Extents}
    {items items' : List (Item D)}
    (h : ds.collectSlices b fuel e = .ok items)
    (h' : ds.collectSlices b fuel' e = .ok items') : items = items' := by
  obtain ⟨s, hs, hrun⟩ := collectSlices_ok h
  obtain ⟨s', hs', hrun'⟩ := collectSlices_ok h'
  rw [hs] at hs'
  cases hs'
  exact ChunkSlicer.run_exhausted_unique hrun hrun'

theorem collectSlices_itemOk {b : Build} {fuel : Nat} {e : Extents}
    {items : List (Item D)} (h : ds.collectSlices b fuel e = .ok items) :
    ∀ item ∈ items, ItemOk ds item := by
  obtain ⟨s, hs, hrun⟩ := collectSlices_ok h
  have hok : ∀ item ∈ (s.run b fuel).1, ItemOk s.dataset item := run_itemOk
  rwa [hrun, chunkSlices_dataset hs] at hok

end Hidefix.Idx
