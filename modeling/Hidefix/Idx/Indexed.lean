import Hidefix.Idx.Accepted
import Hidefix.Reader.Pipeline

/-!
# What is indexed

The HDF5 library reports a dataset whose chunks lie on the grid of its chunk shape.
Where it has the rank that is asked for, filters that are known and storage, and where
none of its chunks is missing, it is indexed: the dataset that is made of it is well
formed and has its chunks.  Any other is refused with an error, in both builds.
-/

namespace Hidefix.Idx

open MixedRadix
open Foundation

variable {D : Nat} {b : Build} {h : Hdf5Dataset}

/-! ## What the library promises -/

namespace Hdf5Dataset

def chunkDims (h : Hdf5Dataset) : List Nat := h.chunk.getD h.shape

/-- The parts of the file that hold the data: one, if the dataset is contiguous. -/
def blocks (h : Hdf5Dataset) : List ChunkInfo :=
  match h.isChunked, h.offset with
  | false, some offset =>
      [{ offset := h.shape.map fun _ => 0, size := h.storageSize, addr := offset }]
  | true, none => h.chunkInfos
  | _, _ => []

/-- A dataset is chunked, or it is contiguous and has been written. -/
def Allocated (h : Hdf5Dataset) : Prop := h.isChunked = h.offset.isNone

instance (h : Hdf5Dataset) : Decidable h.Allocated := inferInstanceAs (Decidable (_ = _))

/--
What the library promises of a dataset: the chunks have its rank and lie at distinct
places of the grid and of the file, and what is reported are words.
-/
structure Promised (h : Hdf5Dataset) : Prop where
  rank_chunk : h.chunkDims.length = h.shape.length
  rank_blocks : ∀ ci ∈ h.blocks, ci.offset.length = h.shape.length
  chunk_pos : h.Allocated → ∀ c ∈ h.chunkDims, 1 ≤ c
  chunk_lt : ∀ c ∈ h.chunkDims, c < 2 ^ 64
  words : ∀ ci ∈ h.blocks, ci.size < 2 ^ 64 ∧ ci.addr < 2 ^ 64
  shape_lt : ∀ n ∈ h.shape, n < 2 ^ 64
  distinct : (h.blocks.map ChunkInfo.offset).Nodup
  aligned : ∀ ci ∈ h.blocks, List.Forall₂ (· ∣ ·) h.chunkDims ci.offset
  inside : ∀ ci ∈ h.blocks, InBox h.shape ci.offset
  addr_nodup : (h.blocks.map ChunkInfo.addr).Nodup

/--
The products of the sizes are words, which the library does not promise: extents that are
mostly not allocated can be of any size.
-/
structure SizesFit (h : Hdf5Dataset) : Prop where
  shape : FitsU64 (h.shape ++ [h.dtype.dsize])
  chunk : FitsU64 (h.chunkDims ++ [h.dtype.dsize])
  cells : FitsU64 (cellCounts h.shape h.chunkDims)
  ends : List.Forall₂ (fun k c => k * c < 2 ^ 64) (cellCounts h.shape h.chunkDims)
    h.chunkDims

end Hdf5Dataset

def Chunk.info (c : Chunk D) : ChunkInfo where
  offset := c.offsetU64
  size := c.size.get
  addr := c.addr.get

/-- A dataset of rank `D` whose filters are known and whose chunks are all there. -/
structure Indexable (D : Nat) (h : Hdf5Dataset) : Prop where
  rank : h.shape.length = D
  filters : ∀ f ∈ h.filters, f = .shuffle ∨ ∃ z, f = .deflate z
  allocated : h.Allocated
  count : h.blocks.length = (cellCounts h.shape h.chunkDims).prod

/-- The dataset of the index is the one of the file. -/
structure IndexedAs (h : Hdf5Dataset) (ds : Dataset D) : Prop where
  wellFormed : ds.WellFormed
  dtype : ds.dtype = h.dtype
  order : ds.order = h.order
  shape : ds.shape.toList = h.shape
  chunkShape : ds.chunkShape.toList = h.chunkDims
  chunks : (ds.chunks.map Chunk.info).Perm h.blocks
  shuffle : ds.shuffle = true ↔ .shuffle ∈ h.filters
  gzip : ds.gzip.isSome = true ↔ ∃ z, .deflate z ∈ h.filters

/-! ## The parts of `index` -/

theorem indexFilters_cases (name : String) (filters : List Filter) (flags : FilterFlags) :
    ((∀ f ∈ filters, f = .shuffle ∨ ∃ z, f = .deflate z) ∧
        ∃ flags', indexFilters name filters flags = .ok flags') ∨
      (¬ ∀ f ∈ filters, f = .shuffle ∨ ∃ z, f = .deflate z) ∧
        ∃ message, indexFilters name filters flags = bail message := by
  induction filters generalizing flags with
  | nil => exact .inl ⟨by simp, flags, rfl⟩
  | cons f filters ih =>
      cases f with
      | shuffle => simpa [indexFilters] using ih { flags with shuffle := true }
      | deflate z => simpa [indexFilters] using ih { flags with gzip := some z }
      | other filter => exact .inr ⟨by simp, _, rfl⟩

theorem map_get_new {offset : List Nat} (h : ∀ o ∈ offset, o < 2 ^ 64) :
    (offset.map ULE.new).map ULE.get = offset := by
  rw [List.map_map]
  exact (List.map_congr_left fun o ho => ULE.get_new (h o ho)).trans (List.map_id _)

theorem toChunk_exists {ci : ChunkInfo} (hrank : ci.offset.length = D)
    (hoffset : ∀ o ∈ ci.offset, o < 2 ^ 64)
    (hwords : ci.size < 2 ^ 64 ∧ ci.addr < 2 ^ 64) :
    ∃ c, ci.toChunk D = .ok c ∧ c.info = ci := by
  refine ⟨_, dif_pos (by simpa using hrank), ?_⟩
  simp only [Chunk.info, Chunk.offsetU64, List.Vector.toList, map_get_new hoffset,
    ULE.get_new hwords.1, ULE.get_new hwords.2]

theorem toChunk_mapM {infos : List ChunkInfo} (hrank : ∀ ci ∈ infos, ci.offset.length = D)
    (hoffset : ∀ ci ∈ infos, ∀ o ∈ ci.offset, o < 2 ^ 64)
    (hwords : ∀ ci ∈ infos, ci.size < 2 ^ 64 ∧ ci.addr < 2 ^ 64) :
    ∃ chunks : List (Chunk D), infos.mapM (ChunkInfo.toChunk D) = .ok chunks ∧
      chunks.map Chunk.info = infos := by
  induction infos with
  | nil => exact ⟨[], rfl, rfl⟩
  | cons ci infos ih =>
      obtain ⟨hci, hrank⟩ := List.forall_mem_cons.mp hrank
      obtain ⟨hoffset, hoffsets⟩ := List.forall_mem_cons.mp hoffset
      obtain ⟨hword, hwords⟩ := List.forall_mem_cons.mp hwords
      obtain ⟨c, hc, hinfo⟩ := toChunk_exists hci hoffset hword
      obtain ⟨chunks, hchunks, hinfos⟩ := ih hrank hoffsets hwords
      exact ⟨c :: chunks, by simp [List.mapM_cons, hc, hchunks, pure, Except.pure],
        by simp [hinfo, hinfos]⟩

def Hdf5Dataset.chunksOf (D : Nat) (h : Hdf5Dataset) : Exec (List (Chunk D)) :=
  match h.isChunked, h.offset with
  | false, some offset =>
      .ok [{ addr := ULE.new offset, size := ULE.new h.storageSize,
             offset := List.Vector.replicate D (ULE.new 0) }]
  | true, none => h.chunkInfos.mapM (ChunkInfo.toChunk D)
  | chunked, offset =>
      bail s!"{h.name}: Unsupported data layout (chunked: {chunked}, offset: {debugOption offset})"

def Hdf5Dataset.chunkShapeOf (h : Hdf5Dataset) (shape : List.Vector Nat D) :
    Exec (List.Vector Nat D) :=
  match h.chunk with
  | none => .ok shape
  | some cs => if hc : cs.length = D then .ok ⟨cs, hc⟩ else panicWith .unwrap

namespace Hdf5Dataset.Promised

variable (hp : h.Promised)
include hp

theorem offset_lt : ∀ ci ∈ h.blocks, ∀ o ∈ ci.offset, o < 2 ^ 64 := by
  intro ci hci o ho
  obtain ⟨i, hi, rfl⟩ := List.mem_iff_getElem.mp ho
  have hlt := (hp.inside ci hci).get hi ((hp.rank_blocks ci hci) ▸ hi)
  exact hlt.trans (hp.shape_lt _ (List.get_mem _ _))

theorem chunksOf_eq (hrank : h.shape.length = D) (hall : h.Allocated) :
    ∃ chunks, h.chunksOf D = .ok chunks ∧ chunks.map Chunk.info = h.blocks := by
  have hranks := hp.rank_blocks
  have hoffsets := hp.offset_lt
  have hwords := hp.words
  rw [hrank] at hranks
  unfold Allocated at hall
  unfold chunksOf
  unfold blocks at hranks hoffsets hwords ⊢
  cases hoffset : h.offset with
  | none =>
      obtain hchunked : h.isChunked = true := by simpa [hoffset] using hall
      simp only [hoffset, hchunked] at hranks hoffsets hwords ⊢
      exact toChunk_mapM hranks hoffsets hwords
  | some offset =>
      obtain hchunked : h.isChunked = false := by simpa [hoffset] using hall
      simp only [hoffset, hchunked] at hwords ⊢
      obtain ⟨hsize, haddr⟩ := hwords _ (List.mem_singleton_self _)
      refine ⟨_, rfl, ?_⟩
      have hzero : (ULE.new 0).get = 0 := rfl
      have horigin : (List.Vector.replicate D (ULE.new 0)).toList =
          List.replicate D (ULE.new 0) := rfl
      simp [Chunk.info, Chunk.offsetU64, ULE.get_new hsize, ULE.get_new haddr, hzero,
        horigin, hrank]

theorem chunkShapeOf_eq {shape : List.Vector Nat D} (hshape : shape.toList = h.shape) :
    ∃ chunkShape, h.chunkShapeOf shape = .ok chunkShape ∧
      chunkShape.toList = h.chunkDims := by
  have hrank := hp.rank_chunk
  rw [← hshape, List.Vector.toList_length] at hrank
  unfold chunkShapeOf
  unfold chunkDims at hrank ⊢
  cases hchunk : h.chunk with
  | none => exact ⟨shape, rfl, by simpa using hshape⟩
  | some cs =>
      simp only [hchunk, Option.getD_some] at hrank
      exact ⟨_, dif_pos hrank, by simp⟩

theorem reported {shape chunkShape : List.Vector Nat D} {chunks : List (Chunk D)}
    (hall : h.Allocated) (hshape : shape.toList = h.shape)
    (hchunk : chunkShape.toList = h.chunkDims)
    (hchunks : chunks.map Chunk.info = h.blocks) : Reported shape chunkShape chunks := by
  have hmem : ∀ c ∈ chunks, c.info ∈ h.blocks := by
    intro c hc
    rw [← hchunks]
    exact List.mem_map_of_mem hc
  have hoffsets : chunks.map Chunk.offsetU64 = h.blocks.map ChunkInfo.offset := by
    simp [← hchunks, Chunk.info, Function.comp_def]
  constructor
  · rw [hshape]
    exact hp.shape_lt
  · rw [hchunk]
    exact hp.chunk_pos hall
  · rw [hchunk]
    exact hp.chunk_lt
  · rw [hoffsets]
    exact hp.distinct
  · rw [hchunk]
    exact fun c hc => hp.aligned _ (hmem c hc)
  · rw [hshape]
    exact fun c hc => hp.inside _ (hmem c hc)

theorem expectedChunks_eq {shape chunkShape : List.Vector Nat D} (hfits : h.SizesFit)
    (hall : h.Allocated)
    (hshape : shape.toList = h.shape) (hchunk : chunkShape.toList = h.chunkDims) :
    Dataset.expectedChunks b shape chunkShape =
      .ok (cellCounts h.shape h.chunkDims).prod := by
  have hpos : ∀ c ∈ chunkShape.toList, 1 ≤ c := by
    rw [hchunk]
    exact hp.chunk_pos hall
  rw [expectedChunks_of_pos hpos, hshape, hchunk]
  exact productU64_eq hfits.cells

/-- The chunks that are kept, in their order, are a well-formed dataset. -/
theorem wellFormed {ds : Dataset D} (hfits : h.SizesFit) (hall : h.Allocated)
    (hcount : h.blocks.length = (cellCounts h.shape h.chunkDims).prod)
    (hderived : ds.Derived) (hdtype : ds.dtype = h.dtype) (hshape : ds.shape.toList = h.shape)
    (hchunk : ds.chunkShape.toList = h.chunkDims) {chunks : List (Chunk D)}
    (hchunks : chunks.map Chunk.info = h.blocks) (hsorted : ds.chunks = sortChunks chunks) :
    ds.WellFormed := by
  have hreported := hp.reported hall hshape hchunk hchunks
  have hperm := sortChunks_perm chunks
  have hcells : ds.cells = cellCounts h.shape h.chunkDims := by
    rw [Dataset.cells, hshape, hchunk]
  have hlength : chunks.length =
      (cellCounts ds.shape.toList ds.chunkShape.toList).prod := by
    rw [hshape, hchunk, ← hcount, ← hchunks, List.length_map]
  have haddr : (chunks.map Chunk.addr).Nodup := by
    refine List.Nodup.of_map ULE.get ?_
    have hnodup := hp.addr_nodup
    rw [← hchunks, List.map_map] at hnodup
    rwa [List.map_map]
  constructor
  · exact hreported.chunk_pos
  · exact hderived
  · refine ⟨?_, ?_, ?_, ?_⟩
    · rw [hshape, hderived.dsize, hdtype]
      exact hfits.shape
    · rw [hchunk, hderived.dsize, hdtype]
      exact hfits.chunk
    · rw [hcells]
      exact hfits.cells
    · rw [hcells, hchunk]
      exact hfits.ends
  · rw [hsorted]
    exact sortChunks_strict hreported.distinct
  · rw [hsorted]
    exact fun c hc => hreported.cell (hperm.mem_iff.mp hc)
  · intro g hg
    obtain ⟨c, hc, hoffset⟩ := hreported.complete hlength hg
    exact ⟨c, hsorted ▸ hperm.mem_iff.mpr hc, hoffset⟩
  · rw [hsorted]
    exact (hperm.map _).nodup_iff.mpr haddr

theorem new_exists {shape chunkShape : List.Vector Nat D} (chunks : List (Chunk D))
    (hfits : h.SizesFit) (hall : h.Allocated) (hshape : shape.toList = h.shape)
    (hchunk : chunkShape.toList = h.chunkDims) (b : Build) (shuffle : Bool)
    (gzip : Option Nat) :
    ∃ ds, Dataset.new b h.dtype h.order shape chunks chunkShape shuffle gzip = .ok ds ∧
      ds.Derived ∧ ds.dtype = h.dtype ∧ ds.order = h.order ∧ ds.shape = shape ∧
      ds.chunkShape = chunkShape ∧ ds.chunks = chunks ∧ ds.shuffle = shuffle ∧
      ds.gzip = gzip := by
  have hpos : ∀ c ∈ chunkShape.toList, 1 ≤ c := hchunk ▸ hp.chunk_pos hall
  have hcells : FitsU64 (cellCounts shape.toList chunkShape.toList) := by
    rw [hshape, hchunk]
    exact hfits.cells
  have hsizes : FitsU64 shape.toList := by
    rw [hshape]
    exact hfits.shape.sublist (List.sublist_append_left _ _)
  have hchunks : FitsU64 chunkShape.toList := by
    rw [hchunk]
    exact hfits.chunk.sublist (List.sublist_append_left _ _)
  let ds : Dataset D :=
    { dtype := h.dtype, dsize := h.dtype.dsize, order := h.order, chunks, shape, chunkShape
      chunkShapeReduced := ⟨chunkShape.toList.map StrengthReducedU64.reduced, by simp⟩
      scaledDimSz := ⟨strides (cellCounts shape.toList chunkShape.toList), by
        simp [cellCounts]⟩
      dimSz := ⟨strides shape.toList, by simp⟩
      chunkDimSz := ⟨strides chunkShape.toList, by simp⟩
      shuffle, gzip }
  have hreduced : ds.chunkShapeReduced.toList.map StrengthReducedU64.get =
      chunkShape.toList := map_get_reduced hpos
  refine ⟨ds, Dataset.new_eq_ok_iff.mpr ⟨hpos, rfl, hreduced, ⟨_, revScan_eq hcells⟩,
    ⟨_, revScan_eq hsizes⟩, ⟨_, revScan_eq hchunks⟩⟩, ⟨rfl, hreduced, rfl, rfl, rfl⟩, rfl,
    rfl, rfl, rfl, rfl, rfl, rfl⟩

end Hdf5Dataset.Promised

/-! ## `index` -/

theorem index_eq (b : Build) (D : Nat) (h : Hdf5Dataset) :
    Dataset.index b D h = (do
      if h.shape.length ≠ D then bail "Dataset rank does not match."
      let flags ← indexFilters h.name h.filters ⟨false, none⟩
      let shape ← tryInto D h.shape
      let chunkShape ← h.chunkShapeOf shape
      let chunks ← h.chunksOf D
      let chunks := sortChunks chunks
      let expected ← Dataset.expectedChunks b shape chunkShape
      if chunks.length ≠ expected then
        bail s!"{h.name}: unexpected number of chunks given dataset size (is_chunked: {h.isChunked}, chunks: {chunks.length} != {expected} (expected), shape: {shape.toList}, chunk shape: {chunkShape.toList})"
      Dataset.new b h.dtype h.order shape chunks chunkShape flags.shuffle flags.gzip) := by
  unfold Dataset.index Hdf5Dataset.chunkShapeOf Hdf5Dataset.chunksOf
  obtain ⟨name, filters, dtype, order, shape, chunk, chunked, offset, size, infos⟩ := h
  cases chunk with
  | none => cases chunked <;> cases offset <;> rfl
  | some cs =>
      by_cases hc : cs.length = D <;> cases chunked <;> cases offset <;>
        simp only [hc, reduceDIte]

theorem Hdf5Dataset.shapeOf_eq (hrank : h.shape.length = D) :
    ∃ shape : List.Vector Nat D, tryInto D h.shape = .ok shape ∧ shape.toList = h.shape :=
  ⟨_, tryInto_eq hrank, rfl⟩

theorem Hdf5Dataset.chunksOf_bail (D : Nat) (hall : ¬ h.Allocated) :
    ∃ message, h.chunksOf D = bail message := by
  unfold Allocated at hall
  unfold chunksOf
  cases hchunked : h.isChunked <;> cases hoffset : h.offset <;>
    simp_all [bail]

namespace Hdf5Dataset.Promised

variable (hp : h.Promised)
include hp

theorem index_ok (hfits : h.SizesFit) (hi : Indexable D h) (b : Build) :
    ∃ ds, Dataset.index b D h = .ok ds ∧ IndexedAs h ds := by
  obtain ⟨hrank, hfilters, hall, hcount⟩ := hi
  obtain ⟨-, flags, hflags⟩ :=
    (indexFilters_cases h.name h.filters ⟨false, none⟩).resolve_right fun h => h.1 hfilters
  obtain ⟨hshuffle, hgzip, -⟩ := Reader.indexFilters_ok hflags
  obtain ⟨shape, hinto, hshape⟩ := Hdf5Dataset.shapeOf_eq hrank
  obtain ⟨chunkShape, hchunkShape, hchunk⟩ := hp.chunkShapeOf_eq hshape
  obtain ⟨chunks, hchunks, hinfos⟩ := hp.chunksOf_eq hrank hall
  have hexpected := hp.expectedChunks_eq (b := b) hfits hall hshape hchunk
  obtain ⟨ds, hnew, hderived, hdtype, horder, rfl, rfl, hsorted, hsh, hgz⟩ :=
    hp.new_exists (sortChunks chunks) hfits hall hshape hchunk b flags.shuffle flags.gzip
  have hperm := sortChunks_perm chunks
  have hlength : (sortChunks chunks).length = (cellCounts h.shape h.chunkDims).prod := by
    rw [hperm.length_eq, ← hcount, ← hinfos, List.length_map]
  refine ⟨ds, ?_, ?_⟩
  · rw [index_eq]
    simp [hrank, hflags, hinto, hchunkShape, hchunks, hexpected, hlength, hnew]
  · constructor
    · exact hp.wellFormed hfits hall hcount hderived hdtype hshape hchunk hinfos hsorted
    · exact hdtype
    · exact horder
    · exact hshape
    · exact hchunk
    · rw [hsorted, ← hinfos]
      exact hperm.map _
    · rw [hsh, hshuffle]
      simp
    · rw [hgz, hgzip]
      simp

theorem index_bail (hfits : h.SizesFit) (hi : ¬ Indexable D h) (b : Build) :
    ∃ message, Dataset.index b D h = bail message := by
  rw [index_eq]
  by_cases hrank : h.shape.length = D
  · rcases indexFilters_cases h.name h.filters ⟨false, none⟩ with
      ⟨hfilters, flags, hflags⟩ | ⟨hfilters, message, hflags⟩
    · obtain ⟨shape, hinto, hshape⟩ := Hdf5Dataset.shapeOf_eq hrank
      obtain ⟨chunkShape, hchunkShape, hchunk⟩ := hp.chunkShapeOf_eq hshape
      by_cases hall : h.Allocated
      · obtain ⟨chunks, hchunks, hinfos⟩ := hp.chunksOf_eq hrank hall
        have hexpected := hp.expectedChunks_eq (b := b) hfits hall hshape hchunk
        have hlength : (sortChunks chunks).length = h.blocks.length := by
          rw [(sortChunks_perm chunks).length_eq, ← hinfos, List.length_map]
        -- what is left to fail is the number of the chunks
        have hcount : h.blocks.length ≠ (cellCounts h.shape h.chunkDims).prod :=
          fun hcount => hi ⟨hrank, hfilters, hall, hcount⟩
        simp only [hrank, hflags, hinto, hchunkShape, hchunks, hexpected, hlength, hcount,
          ok_bind, ne_eq, not_true_eq_false, not_false_eq_true, if_false, if_true]
        exact ⟨_, rfl⟩
      · obtain ⟨message, hmessage⟩ := h.chunksOf_bail D hall
        refine ⟨message, ?_⟩
        simp [hrank, hflags, hinto, hchunkShape, hmessage, bail]
    · exact ⟨message, by simp [hrank, hflags, bail]⟩
  · rw [if_pos hrank]
    exact ⟨_, rfl⟩

end Hdf5Dataset.Promised

/--
A dataset whose sizes fit is indexed, as it is in the file, exactly where it is
indexable.  Any other is refused with an error.
-/
theorem index_promised (h : Hdf5Dataset) (hp : h.Promised) (hfits : h.SizesFit) (b : Build)
    (D : Nat) :
    (Indexable D h → ∃ ds, Dataset.index b D h = .ok ds ∧ IndexedAs h ds) ∧
      (¬ Indexable D h → ∃ message, Dataset.index b D h = bail message) :=
  ⟨fun hi => hp.index_ok hfits hi b, fun hi => hp.index_bail hfits hi b⟩

/-! ## Three values in two chunks -/

def threeDataset : Hdf5Dataset where
  name := "/v"
  filters := [.shuffle, .deflate 4]
  dtype := .uint 2
  order := .le
  shape := [3]
  chunk := some [2]
  isChunked := true
  offset := none
  storageSize := 30
  chunkInfos := [⟨[2], 15, 64⟩, ⟨[0], 15, 79⟩]

theorem promised_three : threeDataset.Promised where
  rank_chunk := by decide
  rank_blocks := by decide
  chunk_pos := by decide
  chunk_lt := by decide
  words := by decide
  shape_lt := by decide
  distinct := by decide
  aligned := by decide
  inside := by decide
  addr_nodup := by decide

theorem sizesFit_three : threeDataset.SizesFit where
  shape := fitsU64_of_prod_lt (by decide) (by decide)
  chunk := fitsU64_of_prod_lt (by decide) (by decide)
  cells := fitsU64_of_prod_lt (by decide) (by decide)
  ends := by decide

theorem indexable_three : Indexable 1 threeDataset :=
  ⟨rfl, by simp [threeDataset], rfl, rfl⟩

theorem index_promised_three :
    (Indexable 1 threeDataset → ∃ ds, Dataset.index .debug 1 threeDataset = .ok ds ∧
        IndexedAs threeDataset ds) ∧
      (¬ Indexable 1 threeDataset → ∃ message,
        Dataset.index .debug 1 threeDataset = bail message) :=
  index_promised threeDataset promised_three sizesFit_three .debug 1

end Hidefix.Idx
