import Hidefix.Reader.Reports
import Hidefix.Slices.Coordinates
import Hidefix.Slices.Maximal

/-!
# The segments of a selection, grouped by chunk

Each slice is tagged with the number of values before it, and the segments are
sorted by the file address of their chunk.  The addresses of the chunks differ, so
that the segments of a chunk end up next to each other: a parallel read reads and
decodes each chunk once.  The tags keep the order of the slices as long as no slice
is empty and the slices are together shorter than a word counts.  In a debug build,
and for a selection that folds correctly, that is always so.
-/

namespace Hidefix.Reader

open Foundation
open Idx
open MixedRadix
open Slices
open Sorting (UnstableSort)

variable {D : Nat} {ds : Dataset D} {e : Extents} {b : Build}

/-! ## The segments of the slices -/

def readsOf (groups : List (List (Segment D))) : List (Chunk D) :=
  groups.filterMap fun group => group.head?.map Prod.fst

def readChunkGroup (env : Env) (r : Direct D) (dst : Bytes)
    (p : Chunk D × List (Segment D)) : Exec Bytes := do
  let chunk ← chunkData env r.ds r.chunkSz p.1
  p.2.foldlM (r.readSegmentRaw env chunk) dst

/--
The segments are the slices, tagged such that only the order of the slices sorts
them by tag.  They are sorted by file address, and the groups are of different
chunks, hold every segment, and make a parallel read read each chunk of the
selection once.
-/
structure Grouped (items : List (Item D)) (segments : List (Segment D)) : Prop where
  perm : segments.Perm (tagged items 0)
  sorts_back : ∀ sorted : List (Segment D), sorted.Perm segments →
    (sorted.Pairwise fun s t => s.2.1 ≤ t.2.1) → sorted = tagged items 0
  by_addr : segments.Pairwise fun s t => s.addr ≤ t.addr
  flatten : (Direct.groupsOf segments).flatten = segments
  one_chunk : ∀ group ∈ Direct.groupsOf segments,
    ∀ s ∈ group, ∀ t ∈ group, s.1 = t.1
  chunks_differ : (Direct.groupsOf segments).Pairwise fun g g' =>
    ∀ s ∈ g, ∀ t ∈ g', s.1 ≠ t.1
  reads_once : ∀ schedule : Schedule D,
    (readsOf (schedule.order (Direct.groupsOf segments))).Nodup ∧
      (∀ c, c ∈ readsOf (schedule.order (Direct.groupsOf segments)) ↔
        ∃ item ∈ items, item.1 = c) ∧
      ∀ (env : Env) (r : Direct D) (dst : Bytes),
        (schedule.order (Direct.groupsOf segments)).foldlM (r.readGroup env) dst =
          ((readsOf (schedule.order (Direct.groupsOf segments))).zip
            (schedule.order (Direct.groupsOf segments))).foldlM
              (readChunkGroup env r) dst

/-- Whatever sort is used, the slices are grouped. -/
def GroupsSlices (b : Build) (ds : Dataset D) (fuel : Nat) (e : Extents)
    (items : List (Item D)) : Prop :=
  ∀ sort, ∃ segments, ds.groupChunkSlices sort b fuel e = .ok segments ∧
    Grouped items segments

/-- No slice is empty, and a word counts the values before the last one. -/
def TagsApart (items : List (Item D)) : Prop :=
  (∀ item ∈ items, item.2.1 < item.2.2) ∧
    (items.dropLast.map sliceLen).sum < 2 ^ 64

/-! ## Empty slices -/

section Empty

variable {offset : Nat} {os : List Nat} {item : Item D} {s' : ChunkSlicer D}

theorem offset_of_empty (h : Selects ds e) (hwf : ds.WellFormed)
    (hword : offset < 2 ^ 64)
    (hnext : (slicerAt ds e offset os).next b = .ok (some (item, s')))
    (hempty : item.2.1 = item.2.2) : s'.offset = offset := by
  rcases next_moved (rowsLe_slicerAt h hwf offset os) hword hnext with
    ⟨step, -, hrange, hoffset, hword', -, -⟩
  rw [← hempty] at hrange
  unfold Int.ModEq at hrange hoffset
  simp only at hoffset
  omega

theorem state_of_repeated (h : Selects ds e) (hwf : ds.WellFormed)
    (hos : InBox (counts (dims ds e)) os) (hword : offset < 2 ^ 64)
    (hnext : (slicerAt ds e offset os).next b = .ok (some (item, s')))
    (hempty : item.2.1 = item.2.2) {s'' : ChunkSlicer D}
    (hagain : s'.next b = .ok (some (item, s''))) : s' = slicerAt ds e offset os := by
  have hoffset := offset_of_empty h hwf hword hnext hempty
  rcases h.next_within hwf hos hnext with ⟨offset', ps, hps, rfl⟩
  simp only at hoffset
  subst hoffset
  rcases next_cases hnext with ⟨-, ⟨-, hitem, -⟩ | ⟨-, _, _, _, _, hadv⟩⟩
  · rw [hitem] at hempty
    cases hempty
  · rcases next_cases hagain with ⟨-, ⟨-, hitem, -⟩ | ⟨-, _, _, _, _, hadv'⟩⟩
    · rw [hitem] at hempty
      cases hempty
    · rcases h.item_at hwf hos hadv with ⟨hchunk, hplace⟩
      rcases h.item_at hwf hps hadv' with ⟨hchunk', hplace'⟩
      have hin := h.inBounds hwf
      have hcells := cells_inj hin (h.length_coords hps) (h.length_coords hos)
        (hchunk'.symm.trans hchunk)
      rw [eq_of_place hin hos hps hcells (hplace'.symm.trans hplace)]

theorem run_exhausted_cases {s : ChunkSlicer D} {fuel : Nat} {items : List (Item D)}
    (hrun : s.run b fuel = (items, .exhausted)) :
    (items = [] ∧ s.stop ≤ s.offset) ∨ ∃ item s' rest fuel', fuel = fuel' + 1 ∧
      items = item :: rest ∧ s.next b = .ok (some (item, s')) ∧
      s'.run b fuel' = (rest, .exhausted) := by
  cases fuel with
  | zero => cases hrun
  | succ fuel =>
      cases hnext : s.next b with
      | error f =>
          rw [ChunkSlicer.run_fault hnext] at hrun
          cases hrun
      | ok yielded =>
          cases yielded with
          | none =>
              rw [ChunkSlicer.run_none hnext] at hrun
              cases hrun
              exact .inl ⟨rfl, next_none hnext⟩
          | some yielded =>
              rcases ChunkSlicer.run_some_exhausted hnext hrun with ⟨rest, hitems, hrest⟩
              exact .inr ⟨_, _, rest, fuel, rfl, hitems, rfl, hrest⟩

theorem run_ne_exhausted {s : ChunkSlicer D} (hnext : s.next b = .ok (some (item, s)))
    (fuel : Nat) (items : List (Item D)) : s.run b fuel ≠ (items, .exhausted) := by
  induction fuel generalizing items with
  | zero =>
      intro hrun
      cases hrun
  | succ fuel ih =>
      intro hrun
      rcases ChunkSlicer.run_some_exhausted hnext hrun with ⟨rest, -, hrest⟩
      exact ih rest hrest

theorem empty_followed (h : Selects ds e) (hwf : ds.WellFormed)
    (hos : InBox (counts (dims ds e)) os) (hword : offset < 2 ^ 64) {fuel : Nat}
    {items : List (Item D)}
    (hrun : (slicerAt ds e offset os).run b fuel = (items, .exhausted)) :
    (items.IsChain fun i j => i.2.1 = i.2.2 → i ≠ j) ∧
      ∀ item ∈ items.getLast?, item.2.1 ≠ item.2.2 := by
  induction fuel generalizing offset os items with
  | zero => cases hrun
  | succ fuel ih =>
      rcases run_exhausted_cases hrun with ⟨rfl, -⟩ |
        ⟨item, s', rest, _, ⟨⟩, rfl, hnext, hrest⟩
      · exact ⟨.nil, by simp⟩
      · have hlt := (next_cases hnext).1
        rcases next_moved (rowsLe_slicerAt h hwf offset os) hword hnext with
          ⟨-, -, -, -, hword', hstop, -⟩
        have htail : (rest.IsChain fun i j => i.2.1 = i.2.2 → i ≠ j) ∧
            ∀ item ∈ rest.getLast?, item.2.1 ≠ item.2.2 := by
          rcases h.next_within hwf hos hnext with ⟨offset', ps, hps, rfl⟩
          exact ih hps hword' hrest
        rcases run_exhausted_cases hrest with ⟨rfl, hend⟩ |
          ⟨j, s'', rest, _, -, rfl, hagain, -⟩
        · refine ⟨.singleton item, ?_⟩
          simp only [List.getLast?_singleton, Option.mem_def, Option.some.injEq,
            forall_eq']
          intro hempty
          -- the counter has not moved, so the run does not end here
          rw [offset_of_empty h hwf hword hnext hempty, hstop] at hend
          exact absurd hlt (Nat.not_lt.mpr hend)
        · refine ⟨.cons_cons ?_ htail.1, by simpa using htail.2⟩
          rintro hempty rfl
          have hstate := state_of_repeated h hwf hos hword hnext hempty hagain
          rw [hstate] at hnext
          exact run_ne_exhausted hnext _ _ hrun

end Empty

/-! ## Tags -/

section Tags

variable {items : List (Item D)} {before : Nat}

theorem map_tagged (items : List (Item D)) (before : Nat) :
    (tagged items before).map Prod.fst = items.map Prod.fst := by
  induction items generalizing before with
  | nil => rfl
  | cons item items ih => rw [tagged, List.map_cons, List.map_cons, ih]

theorem tagged_sorted : (tagged items before).Pairwise fun s t => s.2.1 ≤ t.2.1 := by
  induction items generalizing before with
  | nil => exact .nil
  | cons item items ih =>
      refine .cons (fun s hs => ?_) ih
      exact (Nat.le_add_right _ _).trans (le_tag s hs)

theorem tagged_apart (h : ∀ item ∈ items, item.2.1 < item.2.2) :
    (tagged items before).Pairwise fun s t => s.2.1 < t.2.1 := by
  induction items generalizing before with
  | nil => exact .nil
  | cons item items ih =>
      rw [List.forall_mem_cons] at h
      refine .cons (fun s hs => ?_) (ih h.2)
      have hle := le_tag s hs
      have hlen : 0 < sliceLen item := Nat.sub_pos_of_lt h.1
      simp only
      omega

theorem sum_lt_of_tagged (hbefore : before < 2 ^ 64)
    (h : ∀ s ∈ tagged items before, s.2.1 < 2 ^ 64) :
    before + (items.dropLast.map sliceLen).sum < 2 ^ 64 := by
  induction items generalizing before with
  | nil => exact hbefore
  | cons item items ih =>
      rw [tagged, List.forall_mem_cons] at h
      cases items with
      | nil => exact hbefore
      | cons j items =>
          have hnext : before + sliceLen item < 2 ^ 64 := h.2 _ List.mem_cons_self
          rw [List.dropLast_cons_cons, List.map_cons, List.sum_cons, ← Nat.add_assoc]
          exact ih hnext h.2

theorem nonempty_of_chain (hordered : ∀ item ∈ items, item.2.1 ≤ item.2.2)
    (hfollowed : items.IsChain fun i j => i.2.1 = i.2.2 → i ≠ j)
    (hlast : ∀ item ∈ items.getLast?, item.2.1 ≠ item.2.2)
    (hchain : (tagged items before).IsChain fun s t => s.2.1 = t.2.1 → s = t) :
    ∀ item ∈ items, item.2.1 < item.2.2 := by
  induction items generalizing before with
  | nil => simp
  | cons item items ih =>
      rw [List.forall_mem_cons] at hordered ⊢
      cases items with
      | nil =>
          have hne : item.2.1 ≠ item.2.2 := hlast item (by simp)
          exact ⟨Nat.lt_of_le_of_ne hordered.1 hne, by simp⟩
      | cons j items =>
          rw [List.isChain_cons_cons] at hfollowed
          rw [tagged, tagged, List.isChain_cons_cons] at hchain
          refine ⟨?_, ih hordered.2 hfollowed.2 (by simpa using hlast) hchain.2⟩
          apply Nat.lt_of_le_of_ne hordered.1
          intro hempty
          apply hfollowed.1 hempty
          have hlen : sliceLen item = 0 := by rw [sliceLen, hempty, Nat.sub_self]
          have hsame := hchain.1 (by rw [hlen, Nat.add_zero])
          rw [Prod.mk.injEq, Prod.mk.injEq] at hsame
          exact Prod.ext hsame.1 hsame.2.2

theorem destOffsets_words {segments : List (Segment D)} (hbefore : before < 2 ^ 64)
    (h : destOffsets b items before = .ok segments) :
    ∀ s ∈ segments, s.2.1 < 2 ^ 64 := by
  induction items generalizing before segments with
  | nil =>
      cases h
      simp
  | cons item items ih =>
      rcases item with ⟨c, start, stop⟩
      rw [destOffsets] at h
      rcases bind_eq_ok.mp h with ⟨sliceSz, -, h⟩
      rcases bind_eq_ok.mp h with ⟨next, hnext, h⟩
      rcases bind_eq_ok.mp h with ⟨rest, hrest, h⟩
      cases h
      rw [List.forall_mem_cons]
      exact ⟨hbefore, ih (addU64_lt hnext) hrest⟩

end Tags

/-! ## Groups -/

section Groups

variable {segments : List (Segment D)} {groups : List (List (Segment D))}

theorem groupsOf_eq (segments : List (Segment D)) :
    Direct.groupsOf segments = segments.splitBy fun s t => s.addr == t.addr := by
  unfold Direct.groupsOf
  congr
  funext s t
  rw [Bool.eq_iff_iff, beq_iff_eq, beq_iff_eq]
  exact ⟨congrArg ULE.get, ULE.ext⟩

theorem addr_apart (h : segments.Pairwise fun s t => s.addr ≤ t.addr) :
    (Direct.groupsOf segments).Pairwise fun g g' =>
      ∀ s ∈ g, ∀ t ∈ g', s.1 ≠ t.1 := by
  rw [groupsOf_eq]
  apply (Sorting.pairwise_splitBy h).imp
  intro g g' hlt s hs t ht heq
  have haddr : s.addr = t.addr := congrArg (fun c : Chunk D => c.addr.get) heq
  exact absurd haddr (hlt s hs t ht).ne

theorem mem_readsOf (hne : ∀ g ∈ groups, g ≠ [])
    (hone : ∀ g ∈ groups, ∀ s ∈ g, ∀ t ∈ g, s.1 = t.1) {c : Chunk D} :
    c ∈ readsOf groups ↔ ∃ s ∈ groups.flatten, s.1 = c := by
  rw [readsOf, List.mem_filterMap]
  constructor
  · rintro ⟨g, hg, hhead⟩
    rcases Option.map_eq_some_iff.mp hhead with ⟨s, hs, rfl⟩
    exact ⟨s, List.mem_flatten.mpr ⟨g, hg, List.mem_of_head? hs⟩, rfl⟩
  · rintro ⟨s, hs, rfl⟩
    rcases List.mem_flatten.mp hs with ⟨g, hg, hsg⟩
    refine ⟨g, hg, ?_⟩
    rw [List.head?_eq_some_head (hne g hg), Option.map_some]
    rw [hone g hg _ (List.head_mem (hne g hg)) s hsg]

theorem readsOf_nodup
    (h : groups.Pairwise fun g g' => ∀ s ∈ g, ∀ t ∈ g', s.1 ≠ t.1) :
    (readsOf groups).Nodup := by
  rw [List.Nodup, readsOf, List.pairwise_filterMap]
  apply h.imp
  intro g g' hapart c hc c' hc'
  rcases Option.map_eq_some_iff.mp hc with ⟨s, hs, rfl⟩
  rcases Option.map_eq_some_iff.mp hc' with ⟨t, ht, rfl⟩
  exact hapart s (List.mem_of_head? hs) t (List.mem_of_head? ht)

theorem foldlM_readGroup_eq (env : Env) (r : Direct D) (hne : ∀ g ∈ groups, g ≠ [])
    (dst : Bytes) :
    groups.foldlM (r.readGroup env) dst =
      ((readsOf groups).zip groups).foldlM (readChunkGroup env r) dst := by
  induction groups generalizing dst with
  | nil => rfl
  | cons g groups ih =>
      rw [List.forall_mem_cons] at hne
      cases g with
      | nil => exact absurd rfl hne.1
      | cons s g =>
          have hreads : readsOf ((s :: g) :: groups) = s.1 :: readsOf groups := rfl
          rw [hreads, List.zip_cons_cons, List.foldlM_cons, List.foldlM_cons]
          exact bind_congr fun dst' => ih hne.2 dst'

theorem sorted_grouped {items : List (Item D)} (hwf : ds.WellFormed)
    (hchunks : ∀ item ∈ items, item.1 ∈ ds.chunks)
    (hne : ∀ item ∈ items, item.2.1 < item.2.2)
    (sort : UnstableSort (Segment D) Segment.addr) :
    Grouped items (sort.sort (tagged items 0)) := by
  have hperm := sort.perm (tagged items 0)
  have hmem : ∀ c : Chunk D, (∃ s ∈ sort.sort (tagged items 0), s.1 = c) ↔
      ∃ item ∈ items, item.1 = c := by
    intro c
    rw [← List.mem_map, ← List.mem_map, (hperm.map Prod.fst).mem_iff, map_tagged]
  have hsorted := sort.sorted (tagged items 0)
  generalize sort.sort (tagged items 0) = segments at hperm hmem hsorted
  have hone : ∀ group ∈ Direct.groupsOf segments,
      ∀ s ∈ group, ∀ t ∈ group, s.1 = t.1 := by
    intro group hgroup s hs t ht
    rcases Direct.groupsOf_ok hgroup with ⟨-, hsub, hsame⟩
    have hin : ∀ s ∈ group, s.1 ∈ ds.chunks := by
      intro s hs
      rcases (hmem s.1).mp ⟨s, hsub s hs, rfl⟩ with ⟨item, hitem, heq⟩
      rw [← heq]
      exact hchunks item hitem
    exact chunk_eq_of_addr hwf.addr_nodup (hin s hs) (hin t ht) (hsame s hs t ht)
  refine ⟨hperm, ?_, hsorted, Direct.flatten_groupsOf segments, hone,
    addr_apart hsorted, ?_⟩
  · intro sorted hsort hpairs
    exact Sorting.eq_of_perm_sorted (tagged_apart hne) (hsort.trans hperm) hpairs
  · intro schedule
    have horder := schedule.perm (Direct.groupsOf segments)
    have hgroups : ∀ g ∈ schedule.order (Direct.groupsOf segments), g ≠ [] := by
      intro g hg
      exact (Direct.groupsOf_ok (horder.mem_iff.mp hg)).1
    refine ⟨readsOf_nodup ?_, fun c => ?_, fun env r dst =>
      foldlM_readGroup_eq env r hgroups dst⟩
    · apply (horder.pairwise_iff ?_).mpr (addr_apart hsorted)
      intro g g' hapart s hs t ht heq
      exact hapart t ht s hs heq.symm
    · rw [mem_readsOf hgroups fun g hg => hone g (horder.mem_iff.mp hg), ← hmem]
      have hflat := horder.flatten
      rw [Direct.flatten_groupsOf] at hflat
      simp only [hflat.mem_iff]

end Groups

/-! ## Slices that are grouped -/

variable {fuel : Nat} {items : List (Item D)}

theorem tagsApart_of_safe (h : Selects ds e) (hwf : ds.WellFormed)
    (hsafe : b = .debug ∨ Foldable (dims ds e))
    (hitems : ds.collectSlices b fuel e = .ok items) :
    TagsApart items ∧ (items.map sliceLen).sum < 2 ^ 64 := by
  have hsum := (h.lengthsOk hwf hsafe hitems).sum_le.trans_lt (h.prod_lt hwf)
  refine ⟨⟨?_, (sum_dropLast_le items).trans_lt hsum⟩, hsum⟩
  rcases hsafe with rfl | hfold
  · rcases collectSlices_ok hitems with ⟨s, -, hrun⟩
    have hall : ∀ item ∈ (s.run .debug fuel).1, item.2.1 < item.2.2 :=
      run_debug_nonempty
    rwa [hrun] at hall
  · rcases h.unfractured_of_foldable (b := b) hwf hfold with
      ⟨fuel', items', hcollect, -, hall⟩
    have hsame := collectSlices_unique hitems hcollect
    subst hsame
    intro item hitem
    rcases hall item hitem with ⟨_, run, _, -, hrun, hlocated, -⟩
    by_contra hle
    have hlen := hlocated.length_eq
    rw [length_expand, List.map_singleton, List.sum_singleton, sliceLen,
      Nat.sub_eq_zero_of_le (Nat.le_of_not_lt hle)] at hlen
    exact hrun (List.eq_nil_of_length_eq_zero hlen.symm)

theorem tagsApart_of_grouped (h : Selects ds e) (hwf : ds.WellFormed)
    (hitems : ds.collectSlices b fuel e = .ok items)
    (hordered : ∀ item ∈ items, item.2.1 ≤ item.2.2)
    (hgroups : GroupsSlices b ds fuel e items) : TagsApart items := by
  rcases hgroups (.insertion _) with ⟨segments, hsegments, hgrouped⟩
  rcases Direct.groupChunkSlices_ok hsegments with
    ⟨items', inOrder, hitems', hinOrder, hperm, -⟩
  constructor
  · have hchain : (tagged items 0).IsChain fun s t => s.2.1 = t.2.1 → s = t :=
      Sorting.chain_of_sorted_unique tagged_sorted fun sorted hsort hpairs =>
        hgrouped.sorts_back sorted (hsort.trans hgrouped.perm.symm) hpairs
    have hrun := h.run_of_collect hwf hitems
    rw [rank_replicate_zero] at hrun
    rcases empty_followed h hwf (h.zero_inBox hwf) (Nat.two_pow_pos 64) hrun with
      ⟨hfollowed, hlast⟩
    exact nonempty_of_chain hordered hfollowed hlast hchain
  · have hwords := destOffsets_words (Nat.two_pow_pos 64) hinOrder
    have hlt : 0 + (items.dropLast.map sliceLen).sum < 2 ^ 64 :=
      sum_lt_of_tagged (Nat.two_pow_pos 64) fun s hs =>
        hwords s (hperm.mem_iff.mp (hgrouped.perm.mem_iff.mpr hs))
    rwa [Nat.zero_add] at hlt

/--
The slices that are collected are grouped exactly where no slice is empty and a
word counts the values before the last one.
-/
theorem groupsSlices_iff (ds : Dataset D) (hwf : ds.WellFormed) (e : Extents)
    (h : Inside ds e) (b : Build) (fuel : Nat) (items : List (Item D))
    (hitems : ds.collectSlices b fuel e = .ok items)
    (hordered : ∀ item ∈ items, item.2.1 ≤ item.2.2) :
    (GroupsSlices b ds fuel e items ↔ TagsApart items) ∧
      (b = .debug ∨ Foldable (dims ds e) → TagsApart items) := by
  by_cases hzero : 0 ∈ counts (dims ds e)
  · -- nothing is selected, and nothing is tagged
    have hempty := h.items_of_empty hwf hzero hitems
    subst hempty
    have hapart : TagsApart ([] : List (Item D)) := ⟨by simp, Nat.two_pow_pos 64⟩
    refine ⟨⟨fun _ => hapart, fun _ sort => ?_⟩, fun _ => hapart⟩
    refine ⟨sort.sort [], ?_, sorted_grouped hwf (by simp) (by simp) sort⟩
    rw [Dataset.groupChunkSlices, hitems]
    rfl
  · have hselects := h.selects hzero
    refine ⟨⟨tagsApart_of_grouped hselects hwf hitems hordered, fun hapart sort => ?_⟩,
      fun hsafe => (tagsApart_of_safe hselects hwf hsafe hitems).1⟩
    have hb : b = .release ∨ (items.map sliceLen).sum < 2 ^ 64 := by
      cases b with
      | debug => exact .inr (tagsApart_of_safe hselects hwf (.inl rfl) hitems).2
      | release => exact .inl rfl
    have hplaced : destOffsets b items 0 = .ok (tagged items 0) :=
      destOffsets_eq hordered (by rw [Nat.zero_add]; exact hapart.2)
        (by rwa [Nat.zero_add])
    refine ⟨sort.sort (tagged items 0), ?_, sorted_grouped hwf (fun item hitem =>
      (collectSlices_itemOk hitems item hitem).mem) hapart.1 sort⟩
    rw [Dataset.groupChunkSlices, hitems, ok_bind, hplaced, ok_bind]

def edgeSlices : List (Item 2) :=
  [(edge.chunks[0], 0, 2), (edge.chunks[1], 0, 1), (edge.chunks[0], 2, 4),
    (edge.chunks[1], 2, 3)]

theorem groupsSlices_iff_edge :
    (GroupsSlices .release edge 5 .all edgeSlices ↔ TagsApart edgeSlices) ∧
      (Build.release = .debug ∨ Foldable (dims edge .all) → TagsApart edgeSlices) :=
  groupsSlices_iff edge edge_wellFormed .all ⟨by decide, by decide⟩ .release 5 edgeSlices
    rfl (by decide)

/-! ## A slice that is empty -/

/--
A dataset of one column in two chunks of two columns, the second of which is stored
first.
-/
def strip : Dataset 3 where
  dtype := .uint 1
  dsize := 1
  order := .le
  chunks := [⟨ULE.new 68, ULE.new 4, ULE.new 0 ::ᵥ ULE.new 0 ::ᵥ ULE.new 0 ::ᵥ .nil⟩,
    ⟨ULE.new 64, ULE.new 4, ULE.new 2 ::ᵥ ULE.new 0 ::ᵥ ULE.new 0 ::ᵥ .nil⟩]
  shape := 4 ::ᵥ 1 ::ᵥ 1 ::ᵥ .nil
  chunkShape := 2 ::ᵥ 2 ::ᵥ 1 ::ᵥ .nil
  chunkShapeReduced := 2 ::ᵥ 2 ::ᵥ 1 ::ᵥ .nil
  scaledDimSz := 1 ::ᵥ 1 ::ᵥ 1 ::ᵥ .nil
  dimSz := 1 ::ᵥ 1 ::ᵥ 1 ::ᵥ .nil
  chunkDimSz := 2 ::ᵥ 1 ::ᵥ 1 ::ᵥ .nil
  shuffle := false
  gzip := none

theorem strip_wellFormed : strip.WellFormed :=
  .of_grid (by decide) ⟨rfl, rfl, rfl, rfl, rfl⟩
    (.of_prod_lt (by decide) (by decide) (by decide) (by decide) (by decide)
      (by decide) (.cons (by decide) (.cons (by decide) (.cons (by decide) .nil))))
    (by decide) (by decide)

def lastRows : Extents := .extent [.sliceCount 1 3, .sliceCount 0 1, .sliceCount 0 1]

/--
The first slice is empty, and both have the tag 0: the segments are sorted by tag as
they are, in the other order.
-/
theorem not_groupsSlices_lastRows :
    strip.WellFormed ∧ Inside strip lastRows ∧
      strip.collectSlices .release 3 lastRows =
        .ok [(strip.chunks[0], 2, 2), (strip.chunks[1], 0, 8)] ∧
      strip.groupChunkSlices (.insertion _) .release 3 lastRows =
        .ok [(strip.chunks[1], 0, 0, 8), (strip.chunks[0], 0, 2, 2)] ∧
      ¬ GroupsSlices .release strip 3 lastRows
        [(strip.chunks[0], 2, 2), (strip.chunks[1], 0, 8)] := by
  have hgroup : strip.groupChunkSlices (.insertion _) .release 3 lastRows =
      .ok [(strip.chunks[1], 0, 0, 8), (strip.chunks[0], 0, 2, 2)] := rfl
  refine ⟨strip_wellFormed, ⟨by decide, by decide⟩, rfl, hgroup, fun hgroups => ?_⟩
  rcases hgroups (.insertion _) with ⟨segments, hsegments, hgrouped⟩
  rw [hgroup] at hsegments
  cases hsegments
  have hback := hgrouped.sorts_back _ (.refl _) (by simp)
  exact absurd (congrArg (List.map fun s : Segment 3 => s.1.addr.get) hback) (by decide)

end Hidefix.Reader
