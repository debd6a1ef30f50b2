import Hidefix.Foundation.Faults
import Hidefix.Reader.Pieces
import Hidefix.Slices.Lengths

/-!
# The parallel reader stays inside its buffer

The raw copy does not test its end against the destination.  Where the slices
are together no longer than the selection, their places follow each other
inside the destination, and no raw copy leaves it.
-/

namespace Hidefix.Reader

open Foundation
open Idx
open MixedRadix
open Slices
open Sorting (UnstableSort)

variable {D : Nat} {env : Env} {ds : Dataset D} {e : Extents} {b : Build}

def destRange (dsz : Nat) (s : Segment D) : Nat × Nat :=
  (s.2.1 * dsz, s.2.1 * dsz + (s.2.2.2 - s.2.2.1) * dsz)

structure SegmentsSafe (dsz total : Nat) (segments : List (Segment D)) :
    Prop where
  ordered : ∀ s ∈ segments, s.2.2.1 ≤ s.2.2.2
  inside : ∀ s ∈ segments, (destRange dsz s).2 ≤ total * dsz
  apart : segments.Pairwise fun s t =>
    (destRange dsz s).2 ≤ (destRange dsz t).1 ∨
      (destRange dsz t).2 ≤ (destRange dsz s).1

instance (dsz total : Nat) (segments : List (Segment D)) :
    Decidable (SegmentsSafe dsz total segments) :=
  decidable_of_iff (_ ∧ _ ∧ _)
    ⟨fun ⟨h, h', h''⟩ => ⟨h, h', h''⟩, fun ⟨h, h', h''⟩ => ⟨h, h', h''⟩⟩

theorem SegmentsSafe.perm {dsz total : Nat} {segments segments' : List (Segment D)}
    (h : SegmentsSafe dsz total segments) (hperm : segments'.Perm segments) :
    SegmentsSafe dsz total segments' :=
  ⟨fun s hs => h.ordered s (hperm.mem_iff.mp hs),
    fun s hs => h.inside s (hperm.mem_iff.mp hs),
    (hperm.pairwise_iff fun h => Or.symm h).mpr h.apart⟩

/-! ## Places that follow each other -/

def tagged : List (Item D) → Nat → List (Segment D)
  | [], _ => []
  | item :: items, before =>
      (item.1, before, item.2) :: tagged items (before + sliceLen item)

section Tags

variable {items : List (Item D)} {before : Nat}

theorem le_tag : ∀ s ∈ tagged items before, before ≤ s.2.1 := by
  induction items generalizing before with
  | nil => simp [tagged]
  | cons item items ih =>
      rw [tagged, List.forall_mem_cons]
      refine ⟨le_refl _, fun s hs => ?_⟩
      exact (Nat.le_add_right _ _).trans (ih s hs)

theorem addU64_release (x y : Nat) : ∃ z, addU64 .release x y = .ok z := by
  unfold addU64
  split
  · exact ⟨_, rfl⟩
  · exact ⟨_, rfl⟩

/-- The last addition may wrap in a release build: nothing is placed behind it. -/
theorem destOffsets_eq (hordered : ∀ item ∈ items, item.2.1 ≤ item.2.2)
    (hsum : before + (items.dropLast.map sliceLen).sum < 2 ^ 64)
    (hb : b = .release ∨ before + (items.map sliceLen).sum < 2 ^ 64) :
    destOffsets b items before = .ok (tagged items before) := by
  induction items generalizing before with
  | nil => rfl
  | cons item items ih =>
      rcases item with ⟨c, start, stop⟩
      rw [List.forall_mem_cons] at hordered
      rw [destOffsets, subU64_eq hordered.1, ok_bind]
      simp only [tagged, sliceLen]
      cases items with
      | nil =>
          have hadd : ∃ z, addU64 b before (stop - start) = .ok z := by
            rcases hb with rfl | hlt
            · exact addU64_release _ _
            · exact ⟨_, addU64_eq (by simpa [sliceLen] using hlt)⟩
          rcases hadd with ⟨z, hz⟩
          rw [hz]
          rfl
      | cons j items =>
          rw [List.dropLast_cons_cons, List.map_cons, List.sum_cons, sliceLen] at hsum
          rw [List.map_cons, List.sum_cons, sliceLen] at hb
          simp only at hsum hb
          rw [addU64_eq (by omega), ok_bind,
            ih hordered.2 (by rwa [Nat.add_assoc]) (by rwa [Nat.add_assoc])]
          rfl

theorem sum_dropLast_le (items : List (Item D)) :
    (items.dropLast.map sliceLen).sum ≤ (items.map sliceLen).sum :=
  ((List.dropLast_sublist items).map sliceLen).sum_le_sum fun _ _ => Nat.zero_le _

theorem destOffsets_tagged (hordered : ∀ item ∈ items, item.2.1 ≤ item.2.2)
    (hsum : (items.map sliceLen).sum < 2 ^ 64) :
    destOffsets b items 0 = .ok (tagged items 0) := by
  apply destOffsets_eq hordered
  · rw [Nat.zero_add]
    exact (sum_dropLast_le items).trans_lt hsum
  · rw [Nat.zero_add]
    exact .inr hsum

theorem tagged_safe {dsz total : Nat}
    (hordered : ∀ item ∈ items, item.2.1 ≤ item.2.2)
    (hsum : before + (items.map sliceLen).sum ≤ total) :
    SegmentsSafe dsz total (tagged items before) := by
  induction items generalizing before with
  | nil => exact ⟨by simp [tagged], by simp [tagged], .nil⟩
  | cons item items ih =>
      rw [List.forall_mem_cons] at hordered
      rw [List.map_cons, List.sum_cons, ← Nat.add_assoc] at hsum
      have hsafe := ih hordered.2 hsum
      have hend : before * dsz + (item.2.2 - item.2.1) * dsz ≤ total * dsz := by
        rw [← Nat.add_mul]
        exact Nat.mul_le_mul_right _ ((Nat.le_add_right _ _).trans hsum)
      constructor
      · exact List.forall_mem_cons.mpr ⟨hordered.1, hsafe.ordered⟩
      · exact List.forall_mem_cons.mpr ⟨hend, hsafe.inside⟩
      · refine .cons (fun s hs => .inl ?_) hsafe.apart
        change before * dsz + (item.2.2 - item.2.1) * dsz ≤ s.2.1 * dsz
        rw [← Nat.add_mul]
        exact Nat.mul_le_mul_right _ (le_tag s hs)

end Tags

theorem groupChunkSlices_safe {sort : UnstableSort (Segment D) Segment.addr}
    {fuel : Nat} {segments : List (Segment D)} (h : Selects ds e)
    (hwf : ds.WellFormed) (hsafe : b = .debug ∨ Foldable (dims ds e))
    (hsegments : ds.groupChunkSlices sort b fuel e = .ok segments) :
    SegmentsSafe ds.dsize (counts (dims ds e)).prod segments := by
  obtain ⟨items, inOrder, hitems, hinOrder, hperm, -⟩ :=
    Direct.groupChunkSlices_ok hsegments
  obtain ⟨hordered, hsum⟩ := h.lengthsOk hwf hsafe hitems
  rw [destOffsets_tagged hordered (hsum.trans_lt (h.prod_lt hwf))] at hinOrder
  cases hinOrder
  exact (tagged_safe hordered (by rwa [Nat.zero_add])).perm hperm

theorem groupChunkSlices_of_foldable
    (sort : UnstableSort (Segment D) Segment.addr) (h : Selects ds e)
    (hwf : ds.WellFormed) (hfold : Foldable (dims ds e)) (b : Build) :
    ∃ fuel segments, ds.groupChunkSlices sort b fuel e = .ok segments := by
  obtain ⟨fuel, items, hitems, -⟩ := h.collect_of_foldable hwf hfold b
  obtain ⟨hordered, hsum⟩ := h.lengthsOk hwf (.inr hfold) hitems
  have hlt := hsum.trans_lt (h.prod_lt hwf)
  refine ⟨fuel, sort.sort (tagged items 0), ?_⟩
  rw [Dataset.groupChunkSlices, hitems, ok_bind, destOffsets_tagged hordered hlt,
    ok_bind]

/-! ## Copies that stay in the buffer -/

section Faults

variable {P : Fault → Prop} (hpanic : ∀ why, P (.panic why))
include hpanic

theorem unshuffleSized_fails (src : Bytes) (sz : Nat) :
    FailsOnly P (Filters.unshuffleSized src sz) := by
  have hstructured : ∀ N, FailsOnly P (Filters.unshuffleStructured N src) :=
    fun N => .bind (.assertThat hpanic _) fun _ _ => .ok _
  unfold Filters.unshuffleSized
  split
  · exact .ok _
  · exact hstructured 2
  · exact hstructured 4
  · exact hstructured 8
  · exact .error (hpanic _)

theorem chunkData_fails {env : Env} {ds : Dataset D} {chunkSz : Nat}
    {c : Chunk D}
    (hread : FailsOnly P (readChunkTo env.file c.addr.get c.size.get))
    (hinflate : ∀ chunk,
      FailsOnly P (inflate env.zlib chunk chunkSz ds.gzip.isSome)) :
    FailsOnly P (chunkData env ds chunkSz c) := by
  refine .bind (.allocate hpanic _ _) fun buf hbuf => .bind ?_ fun chunk _ =>
    .bind (.debugAssert hpanic _) fun _ _ => (hinflate chunk).bind fun cache _ => ?_
  · rwa [(allocate_ok hbuf).1]
  split
  · exact unshuffleSized_fails hpanic _ _
  · exact .ok _

end Faults

abbrev InBuffer {α : Type} (x : Exec α) : Prop :=
  FailsOnly (· ≠ .outOfBuffer) x

theorem chunkData_inBuffer (env : Env) (ds : Dataset D) (chunkSz : Nat)
    (c : Chunk D) : InBuffer (chunkData env ds chunkSz c) := by
  refine chunkData_fails (fun _ => nofun) ?_ fun chunk => ?_
  · unfold readChunkTo
    split
    · exact .error nofun
    · split
      · exact .ok _
      · exact .error nofun
  · unfold inflate Filters.decompress
    split
    · refine .bind (.allocate (fun _ => nofun) _ _) fun _ _ => ?_
      split
      · exact .ok _
      · exact .error nofun
    · exact .ok _

namespace Direct

variable {r : Direct D} {n : Nat}

theorem readSegmentRaw_inBuffer {s : Segment D} {chunk dst : Bytes}
    (hordered : s.2.2.1 ≤ s.2.2.2) (hfit : (destRange r.ds.dsize s).2 ≤ n)
    (hn : n < 2 ^ 63) (hdst : dst.length = n) :
    InBuffer (r.readSegmentRaw env chunk dst s) ∧
      ∀ dst', r.readSegmentRaw env chunk dst s = .ok dst' →
        dst'.length = n := by
  obtain ⟨c, current, start, stop⟩ := s
  unfold destRange at hfit
  dsimp only at hordered hfit
  have hlen : (stop - start) * r.ds.dsize + start * r.ds.dsize =
      stop * r.ds.dsize := by
    rw [← Nat.add_mul, Nat.sub_add_cancel hordered]
  unfold readSegmentRaw segmentBounds
  dsimp only
  rw [mulU64_eq (x := current) (by omega)]
  have hpanic : ∀ why, Fault.panic why ≠ .outOfBuffer := fun _ => nofun
  refine ⟨.bind (.bind (.mulU64 hpanic _ _) fun _ _ =>
    .bind (.mulU64 hpanic _ _) fun _ _ => .ok _) fun bounds hbounds => ?_,
    fun dst' h => ?_⟩
  · obtain ⟨start', hstart, hbounds⟩ := bind_eq_ok.mp hbounds
    obtain ⟨stop', hstop, hbounds⟩ := bind_eq_ok.mp hbounds
    cases hbounds
    change InBuffer (copyRaw env.build dst chunk (current * r.ds.dsize) start'
      stop')
    refine .bind (.debugAssert hpanic _) fun _ _ =>
      .bind (.debugAssert hpanic _) fun _ _ =>
      .bind (.subU64 hpanic _ _) fun sz hsz => ?_
    rw [if_pos (by omega)]
    refine .bind (.indexRange hpanic _ _ _) fun piece hpiece => ?_
    have hle := (indexRange_ok hpiece).1
    rw [subU64_eq hle] at hsz
    cases hsz
    have hstart := mulU64_mod hstart
    have hstop := mulU64_mod hstop
    rw [if_pos (by omega)]
    exact .ok _
  · obtain ⟨bounds, hbounds, h⟩ := bind_eq_ok.mp h
    obtain ⟨piece, -, hfits, rfl⟩ := copyRaw_ok h
    rw [Buffer.length_write hfits, hdst]

theorem readToPar_inBuffer {sort : UnstableSort (Segment D) Segment.addr}
    {schedule : Schedule D} {fuel total : Nat} {dst : Bytes}
    {segments : List (Segment D)}
    (hcapacity : InBuffer (ensureCapacity env.build r.ds e dst.length))
    (hsegments : r.ds.groupChunkSlices sort env.build fuel e = .ok segments)
    (hsafe : SegmentsSafe r.ds.dsize total segments)
    (htotal : total * r.ds.dsize ≤ dst.length) (hdst : dst.length < 2 ^ 63) :
    InBuffer (r.readToPar env sort schedule fuel e dst) := by
  unfold readToPar
  rw [hsegments]
  refine .bind hcapacity fun _ _ => .bind (.ok _) fun groups hgroups =>
    .bind ?_ fun _ _ => .ok _
  cases hgroups
  refine (FailsOnly.foldlM (Q := fun buf : Bytes => buf.length = dst.length)
    (fun buf hbuf group hgroup => ?_) rfl).1
  have hmem : ∀ s ∈ group, s ∈ segments := (groupsOf_ok
    ((schedule.perm _).mem_iff.mp hgroup)).2.1
  have hcopy : ∀ chunk : Bytes,
      InBuffer (group.foldlM (r.readSegmentRaw env chunk) buf) ∧
        ∀ buf', group.foldlM (r.readSegmentRaw env chunk) buf = .ok buf' →
          buf'.length = dst.length := fun chunk =>
    FailsOnly.foldlM (Q := fun buf : Bytes => buf.length = dst.length)
      (fun buf hbuf s hs => readSegmentRaw_inBuffer (hsafe.ordered s (hmem s hs))
        ((hsafe.inside s (hmem s hs)).trans htotal) hdst hbuf) hbuf
  unfold readGroup
  split
  · exact ⟨.error nofun, fun _ h => by cases h⟩
  · refine ⟨.bind (chunkData_inBuffer _ _ _ _) fun chunk _ => (hcopy chunk).1,
      fun buf' h => ?_⟩
    obtain ⟨chunk, -, h⟩ := bind_eq_ok.mp h
    exact (hcopy chunk).2 buf' h

end Direct

/-! ## Selections that are read safely in parallel -/

theorem ensureCapacity_inside (h : Inside ds e) (hwf : ds.WellFormed)
    (len : Nat) : ensureCapacity b ds e len =
      if (counts (dims ds e)).prod * ds.dsize ≤ len then
        .ok ((counts (dims ds e)).prod * ds.dsize)
      else bail "destination buffer has insufficient capacity" := by
  have hfits := (h.fitsU64 hwf).prod_lt
  rw [List.prod_append, List.prod_singleton] at hfits
  unfold ensureCapacity
  rw [Extents.getCounts_ranked h.ranked, ok_bind,
    ← (dims_fields h.ranked).2.2.2, productU64_eq (h.fitsU64_counts hwf),
    ok_bind, mulU64_eq hfits, ok_bind]

/--
Whatever sort is used, the segments of all groups go to disjoint places inside
the values selected, and with any schedule no raw copy leaves a destination
that holds these.
-/
def ParSafe (b : Build) (ds : Dataset D) (e : Extents) : Prop :=
  ∀ sort fuel segments, ds.groupChunkSlices sort b fuel e = .ok segments →
    SegmentsSafe ds.dsize (e.counts ds.shape.toList).prod
        (Direct.groupsOf segments).flatten ∧
      ∀ (env : Env) (r : Direct D) (schedule : Schedule D) (dst : Bytes),
        env.build = b → r.ds = ds →
        (e.counts ds.shape.toList).prod * ds.dsize ≤ dst.length →
        dst.length < 2 ^ 63 →
        InBuffer (r.readToPar env sort schedule fuel e dst)

/-- Debug builds, and selections that are folded correctly, are read safely. -/
theorem parSafe_of_foldable (ds : Dataset D) (hwf : ds.WellFormed) (e : Extents)
    (h : Selects ds e) (b : Build)
    (hsafe : b = .debug ∨ Foldable (dims ds e)) :
    ParSafe b ds e ∧ (Foldable (dims ds e) → ∀ sort, ∃ fuel segments,
      ds.groupChunkSlices sort b fuel e = .ok segments) := by
  refine ⟨?_, fun hfold sort =>
    groupChunkSlices_of_foldable sort h hwf hfold b⟩
  intro sort fuel segments hsegments
  have hsegmentsSafe := groupChunkSlices_safe h hwf hsafe hsegments
  rw [Direct.flatten_groupsOf, ← (dims_fields h.ranked).2.2.2]
  refine ⟨hsegmentsSafe, ?_⟩
  rintro env r schedule dst rfl rfl htotal hdst
  refine Direct.readToPar_inBuffer ?_ hsegments hsegmentsSafe htotal hdst
  rw [ensureCapacity_inside h.toInside hwf, if_pos htotal]
  exact .ok _

theorem parSafe_of_foldable_edge :
    ParSafe .release edge .all ∧ (Foldable (dims edge .all) →
      ∀ sort, ∃ fuel segments,
        edge.groupChunkSlices sort .release fuel .all = .ok segments) :=
  parSafe_of_foldable edge edge_wellFormed .all ⟨by decide, by decide⟩ .release
    (.inr (by decide))

/--
A release build copies three bytes of the last chunk for a column of two, into
a destination of two bytes.
-/
theorem not_parSafe_lastColumn :
    edge.WellFormed ∧ Selects edge lastColumn ∧
      (⟨edge, 4⟩ : Direct 2).readToPar (.addresses .release 72) (.insertion _)
        ⟨id, fun _ => .refl _⟩ 2 lastColumn [0, 0] = .error .outOfBuffer ∧
      ¬ ParSafe .release edge lastColumn := by
  have hleaves : (⟨edge, 4⟩ : Direct 2).readToPar (.addresses .release 72)
      (.insertion _) ⟨id, fun _ => .refl _⟩ 2 lastColumn [0, 0] =
        .error .outOfBuffer := rfl
  refine ⟨edge_wellFormed, edge_selects_lastColumn, hleaves, fun hsafe => ?_⟩
  obtain ⟨-, hin⟩ := hsafe (.insertion _) 2 _ rfl
  exact hin (.addresses .release 72) ⟨edge, 4⟩ ⟨id, fun _ => .refl _⟩ [0, 0] rfl
    rfl (by decide) (by decide) _ hleaves rfl

end Hidefix.Reader
