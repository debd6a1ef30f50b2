import Hidefix.Reader.Delivered
import Hidefix.Reader.Threads

/-!
# Reading in threads is safe

Wherever the file carries an array in the chunks that can be read, the bytes that the
tasks copy are those of the selection, each to its own place.  Whatever the order of
the steps, the destination is never more than partly filled: bytes are what they were
or what they should be, tasks fail only for their file or their chunk, and when all
have finished the destination is what is read one chunk after the other.
-/

namespace Hidefix.Reader

open Blocks
open Buffer (Write layout)
open Foundation
open Idx
open Interleaving (Run State)
open MixedRadix
open Slices
open Sorting (UnstableSort)

variable {D dsz : Nat} {env : Env} {ds : Dataset D} {e : Extents} {A : Values dsz}

namespace Direct

variable {r : Direct D} {len : Nat}

/-! ## Bytes in their places -/

theorem placed_append (dptr : Nat) (xs ys : Bytes) :
    placed dptr (xs ++ ys) = placed dptr xs ++ placed (dptr + xs.length) ys := by
  induction xs generalizing dptr with
  | nil => rfl
  | cons x xs ih => simp [placed, ih, Nat.add_assoc, Nat.add_comm 1]

theorem map_fst_placed (dptr : Nat) (src : Bytes) :
    (placed dptr src).map Prod.fst = List.range' dptr src.length := by
  induction src generalizing dptr with
  | nil => rfl
  | cons byte src ih => simp [placed, ih, List.range'_succ]

theorem getElem?_of_mem_placed {src : Bytes} {dptr : Nat} :
    ∀ w ∈ placed dptr src, dptr ≤ w.1 ∧ src[w.1 - dptr]? = some w.2 := by
  induction src generalizing dptr with
  | nil => simp [placed]
  | cons byte src ih =>
      rw [placed, List.forall_mem_cons]
      refine ⟨by simp, fun w hw => ?_⟩
      obtain ⟨hle, hget⟩ := ih w hw
      have hnext : w.1 - dptr = w.1 - (dptr + 1) + 1 := by omega
      exact ⟨by omega, by rwa [hnext, List.getElem?_cons_succ]⟩

theorem flatMap_placed_layout (start : Nat) (pieces : List Bytes) :
    (layout start pieces).flatMap (fun w => placed w.1 w.2) =
      placed start pieces.flatten := by
  induction pieces generalizing start with
  | nil => rfl
  | cons piece pieces ih => simp [layout, ih, placed_append]

/-! ## The copies of a segment -/

def segmentCopies (env : Env) (r : Direct D) (len : Nat) (segment : Segment D) :
    List (Nat × UInt8) :=
  match chunkData env r.ds r.chunkSz segment.1 with
  | .ok chunk =>
      match r.segmentPointers env len chunk segment with
      | .ok (dptr, src) => placed dptr src
      | .error _ => []
  | .error _ => []

def CopiedBy (env : Env) (r : Direct D) (len : Nat) (segment : Segment D)
    (w : Write UInt8) : Prop :=
  ∀ chunk, chunkData env r.ds r.chunkSz segment.1 = .ok chunk →
    r.segmentPointers env len chunk segment = .ok w

theorem segmentPointers_eq {chunk : Bytes} {s : Segment D} (hle : s.2.2.1 ≤ s.2.2.2)
    (hend : s.2.2.2 * r.ds.dsize ≤ chunk.length)
    (hword : s.2.2.2 * r.ds.dsize < 2 ^ 64) (hfit : (destRange r.ds.dsize s).2 ≤ len)
    (hlen : len < 2 ^ 64) :
    r.segmentPointers env len chunk s = .ok (s.2.1 * r.ds.dsize,
      (chunk.drop (s.2.2.1 * r.ds.dsize)).take
        (s.2.2.2 * r.ds.dsize - s.2.2.1 * r.ds.dsize)) := by
  obtain ⟨c, current, start, stop⟩ := s
  simp only [destRange] at hle hend hword hfit
  have hstart : start * r.ds.dsize ≤ stop * r.ds.dsize := Nat.mul_le_mul_right _ hle
  rw [Nat.sub_mul] at hfit
  simp [segmentPointers, segmentBounds, copyPointers, indexRange,
    mulU64_eq (hstart.trans_lt hword), mulU64_eq hword,
    mulU64_eq (x := current) (y := r.ds.dsize) (by omega), subU64_eq hstart, hstart, hend,
    hstart.trans hend, hfit, (Nat.le_add_right _ _).trans hfit]

theorem copiedBy_laidOut {s : Segment D} {w : Write UInt8} (h : LaidOut env ds len s w)
    (hlen : len < 2 ^ 64) : CopiedBy env ⟨ds, chunkSize ds⟩ len s w := by
  intro chunk hchunk
  obtain ⟨hcut, hplace, hfit⟩ := h
  obtain ⟨dptr, piece⟩ := w
  obtain rfl : dptr = s.2.1 * ds.dsize := hplace
  have hend := hcut.inside chunk hchunk
  have hpiece := hcut.read chunk hchunk
  have hrange : (destRange ds.dsize s).2 ≤ len := by
    have hsize : piece.length = (s.2.2.2 - s.2.2.1) * ds.dsize := hcut.length_eq
    rw [destRange, ← hsize]
    exact hfit
  rw [pieceOf_eq hcut.ordered.le hcut.word hchunk hend] at hpiece
  obtain rfl : _ = piece := Except.ok.inj hpiece
  exact segmentPointers_eq hcut.ordered.le hend hcut.word hrange hlen

/-! ## What the tasks have to write -/

theorem copiedBy_selected (hA : PartlyCarries env ds A) (hwf : ds.WellFormed)
    (hin : Inside ds e) (hfold : Foldable (dims ds e)) {fuel : Nat}
    {items : List (Item D)} (hitems : ds.collectSlices env.build fuel e = .ok items)
    (hcap : (counts (dims ds e)).prod * ds.dsize ≤ len) (hlen : len < 2 ^ 64) :
    ∃ pieces, pieces.flatten = selectedBytes ds A e ∧
      List.Forall₂ (CopiedBy env ⟨ds, chunkSize ds⟩ len) (tagged items 0)
        (layout 0 pieces) := by
  obtain ⟨pieces, hflatten, hcut⟩ := hA.cut hwf hin hfold hitems
  have hroom : 0 * ds.dsize + pieces.flatten.length ≤ len := by
    rw [Nat.zero_mul, Nat.zero_add, hflatten, length_selectedBytes hA.dsize_eq,
      ← (dims_fields hin.ranked).2.2.2]
    exact hcap
  have hlaid := laidOut_tagged hcut hroom
  rw [Nat.zero_mul] at hlaid
  exact ⟨pieces, hflatten, hlaid.imp fun _ _ h => copiedBy_laidOut h hlen⟩

theorem segments_perm (hwf : ds.WellFormed) (hin : Inside ds e)
    (hfold : Foldable (dims ds e)) {b : Build}
    {sort : UnstableSort (Segment D) Segment.addr} {fuel : Nat}
    {segments : List (Segment D)}
    (hsegments : ds.groupChunkSlices sort b fuel e = .ok segments) :
    ∃ items, ds.collectSlices b fuel e = .ok items ∧
      segments.Perm (tagged items 0) := by
  obtain ⟨items, inOrder, hitems, hinOrder, hperm, -⟩ := groupChunkSlices_ok hsegments
  refine ⟨items, hitems, ?_⟩
  by_cases hzero : 0 ∈ counts (dims ds e)
  · obtain rfl := hin.items_of_empty hwf hzero hitems
    cases hinOrder
    exact hperm
  · have h := hin.selects hzero
    obtain ⟨hordered, hsum⟩ := h.lengthsOk hwf (.inr hfold) hitems
    rw [destOffsets_tagged hordered (hsum.trans_lt (h.prod_lt hwf))] at hinOrder
    cases hinOrder
    exact hperm

theorem copiedBy_segments (hA : PartlyCarries env ds A) (hwf : ds.WellFormed)
    (hin : Inside ds e) (hfold : Foldable (dims ds e))
    {sort : UnstableSort (Segment D) Segment.addr} {fuel : Nat}
    {segments : List (Segment D)}
    (hsegments : ds.groupChunkSlices sort env.build fuel e = .ok segments)
    (hcap : (counts (dims ds e)).prod * ds.dsize ≤ len) (hlen : len < 2 ^ 64) :
    ∃ ws, List.Forall₂ (CopiedBy env ⟨ds, chunkSize ds⟩ len) segments ws ∧
      (ws.flatMap fun w => placed w.1 w.2).Perm (placed 0 (selectedBytes ds A e)) := by
  obtain ⟨items, hitems, hperm⟩ := segments_perm hwf hin hfold hsegments
  obtain ⟨pieces, hflatten, hcopied⟩ :=
    copiedBy_selected hA hwf hin hfold hitems hcap hlen
  obtain ⟨ws, hws, hpermWs⟩ := List.perm_comp_forall₂ hperm hcopied
  refine ⟨ws, hws, ?_⟩
  rw [← hflatten, ← flatMap_placed_layout]
  exact hpermWs.flatMap_right _

/-! ## Groups and tasks -/

def tasks (segments : List (Segment D)) : List (Task D) :=
  (groupsOf segments).map .waiting

/-- The segments of a group are of one chunk, and are copied where it can be read. -/
structure Prepared (env : Env) (r : Direct D) (len : Nat) (group : List (Segment D)) :
    Prop where
  nonempty : group ≠ []
  one : ∀ s ∈ group, ∀ t ∈ group, s.1 = t.1
  copied : ∀ s ∈ group, ∃ w, CopiedBy env r len s w

def Excused (env : Env) (r : Direct D) (segments : List (Segment D)) (fault : Fault) :
    Prop :=
  fault = notOpened ∨ ∃ s ∈ segments, chunkData env r.ds r.chunkSz s.1 = .error fault

def Became (env : Env) (r : Direct D) (group : List (Segment D)) : Task D → Prop
  | .waiting group' => group' = group
  | .copying chunk _ _ segments =>
      (∀ s ∈ group, chunkData env r.ds r.chunkSz s.1 = .ok chunk) ∧
        ∀ s ∈ segments, s ∈ group
  | .finished => ∀ s ∈ group, ∃ chunk, chunkData env r.ds r.chunkSz s.1 = .ok chunk
  | .failed fault => Excused env r group fault
  | .skipped => True

theorem Became.step {group : List (Segment D)} (hgroup : Prepared env r len group)
    {ts : List (Task D)} {t t' : Task D} {w : Option (Nat × UInt8)}
    (hstep : TaskStep env r len ts t t' w) (h : Became env r group t) :
    Became env r group t' := by
  cases hstep with
  | notOpened => exact .inl rfl
  | empty => exact absurd (Eq.symm h) hgroup.nonempty
  | read hread =>
      cases h
      refine ⟨fun s hs => ?_, fun s hs => hs⟩
      rwa [hgroup.one s hs _ List.mem_cons_self]
  | notRead hread =>
      cases h
      exact .inr ⟨_, List.mem_cons_self, hread⟩
  | segment hcopy => exact ⟨h.1, fun s hs => h.2 s (List.mem_cons_of_mem _ hs)⟩
  | @notCopied chunk _ segment _ _ hcopy =>
      have hmem : segment ∈ group := h.2 segment List.mem_cons_self
      obtain ⟨w, hw⟩ := hgroup.copied segment hmem
      rw [hw chunk (h.1 segment hmem)] at hcopy
      cases hcopy
  | byte => exact h
  | finish => exact fun s hs => ⟨_, h.1 s hs⟩
  | skip => trivial

theorem segmentWrites_eq {chunk : Bytes} {segments : List (Segment D)}
    (hread : ∀ s ∈ segments, chunkData env r.ds r.chunkSz s.1 = .ok chunk)
    (hcopied : ∀ s ∈ segments, ∃ w, CopiedBy env r len s w) :
    r.segmentWrites env len chunk segments =
      segments.flatMap (r.segmentCopies env len) := by
  induction segments with
  | nil => rfl
  | cons segment segments ih =>
      rw [List.forall_mem_cons] at hread hcopied
      obtain ⟨w, hw⟩ := hcopied.1
      simp [segmentWrites, segmentCopies, hread.1, hw chunk hread.1,
        ih hread.2 hcopied.2]

theorem Prepared.taskWrites_eq {group : List (Segment D)}
    (h : Prepared env r len group) :
    r.taskWrites env len (.waiting group) = group.flatMap (r.segmentCopies env len) := by
  cases group with
  | nil => exact absurd rfl h.nonempty
  | cons first group =>
      have hone : ∀ s ∈ first :: group, s.1 = first.1 := fun s hs =>
        h.one s hs first List.mem_cons_self
      cases hread : chunkData env r.ds r.chunkSz first.1 with
      | ok chunk =>
          simp only [taskWrites, hread]
          refine segmentWrites_eq (fun s hs => ?_) h.copied
          rwa [hone s hs]
      | error fault =>
          have hnone : ∀ s ∈ first :: group, r.segmentCopies env len s = [] := by
            intro s hs
            simp [segmentCopies, hone s hs, hread]
          rw [List.flatMap_eq_nil_iff.mpr hnone]
          simp [taskWrites, hread]

theorem pending_tasks {segments : List (Segment D)} (dst : Bytes)
    (h : ∀ group ∈ groupsOf segments, Prepared env r len group) :
    State.pending (r.pool env len) ⟨dst, tasks segments⟩ =
      segments.flatMap (r.segmentCopies env len) := by
  have htasks : ∀ group ∈ groupsOf segments, r.taskWrites env len (.waiting group) =
      group.flatMap (r.segmentCopies env len) := fun group hgroup =>
    (h group hgroup).taskWrites_eq
  conv_rhs => rw [← flatten_groupsOf segments, ← List.flatMap_id, List.flatMap_assoc]
  simp only [State.pending, tasks, List.flatMap_map]
  exact List.flatMap_congr htasks

theorem prepared_groups {segments : List (Segment D)} {ws : List (Write UInt8)}
    (haddr : (r.ds.chunks.map Chunk.addr).Nodup)
    (hmem : ∀ s ∈ segments, s.1 ∈ r.ds.chunks)
    (hws : List.Forall₂ (CopiedBy env r len) segments ws) :
    ∀ group ∈ groupsOf segments, Prepared env r len group := by
  intro group hgroup
  obtain ⟨hne, hsub, hsame⟩ := groupsOf_ok hgroup
  refine ⟨hne, fun s hs t ht => ?_, fun s hs => ?_⟩
  · exact chunk_eq_of_addr haddr (hmem s (hsub s hs)) (hmem t (hsub t ht))
      (hsame s hs t ht)
  · obtain ⟨i, hi, rfl⟩ := List.mem_iff_getElem.mp (hsub s hs)
    exact ⟨_, hws.get hi (hws.length_eq ▸ hi)⟩

/-! ## Any order of the steps -/

/-- What holds at any time: the read is done in part, and nothing else is done. -/
structure PartlyRead (env : Env) (r : Direct D) (segments : List (Segment D))
    (selected dst : Bytes) (s : State (Task D) UInt8) : Prop where
  length_eq : s.mem.length = dst.length
  byte : ∀ k, s.mem[k]? = dst[k]? ∨ k < selected.length ∧ s.mem[k]? = selected[k]?
  excused : ∀ fault, .failed fault ∈ s.threads → Excused env r segments fault

section Runs

variable {sort : UnstableSort (Segment D) Segment.addr} {fuel : Nat}
variable {segments : List (Segment D)} {ws : List (Write UInt8)} {n : Nat}
variable {selected dst : Bytes} {s : State (Task D) UInt8}

theorem became_of_run (hgroups : ∀ group ∈ groupsOf segments, Prepared env r len group)
    (hrun : Run (r.pool env len) ⟨dst, tasks segments⟩ n s) :
    List.Forall₂ (Became env r) (groupsOf segments) s.threads := by
  have hall := hrun.forall₂
    (R := fun u t => ∃ group, u = .waiting group ∧ group ∈ groupsOf segments ∧
      Became env r group t)
    (fun hstep => by
      rintro ⟨group, rfl, hgroup, hbecame⟩
      exact ⟨group, rfl, hgroup, hbecame.step (hgroups group hgroup) hstep⟩)
    (fun t ht => by
      obtain ⟨group, hgroup, rfl⟩ := List.mem_map.mp ht
      exact ⟨group, rfl, hgroup, rfl⟩)
  simp only [tasks, List.forall₂_map_left_iff] at hall
  refine hall.imp ?_
  rintro group t ⟨group', heq, -, hbecame⟩
  cases heq
  exact hbecame

theorem pending_selected (hws : List.Forall₂ (CopiedBy env r len) segments ws)
    (hplaced : (ws.flatMap fun w => placed w.1 w.2).Perm (placed 0 selected)) :
    ∀ w ∈ segments.flatMap (r.segmentCopies env len), selected[w.1]? = some w.2 := by
  intro w hw
  obtain ⟨segment, hsegment, hw⟩ := List.mem_flatMap.mp hw
  obtain ⟨i, hi, rfl⟩ := List.mem_iff_getElem.mp hsegment
  have hcopied := hws.get hi (hws.length_eq ▸ hi)
  simp only [List.get_eq_getElem] at hcopied
  simp only [segmentCopies] at hw
  split at hw
  · rename_i chunk hread
    rw [hcopied chunk hread] at hw
    have hin : w ∈ ws.flatMap fun w => placed w.1 w.2 :=
      List.mem_flatMap.mpr ⟨_, List.getElem_mem _, hw⟩
    exact (getElem?_of_mem_placed w (hplaced.mem_iff.mp hin)).2
  · simp at hw

theorem partlyRead_of_run (hgroups : ∀ group ∈ groupsOf segments, Prepared env r len group)
    (hws : List.Forall₂ (CopiedBy env r len) segments ws)
    (hplaced : (ws.flatMap fun w => placed w.1 w.2).Perm (placed 0 selected))
    (hrun : Run (r.pool env len) ⟨dst, tasks segments⟩ n s) :
    PartlyRead env r segments selected dst s where
  length_eq := hrun.length_mem pool_lawful
  byte k := by
    refine (hrun.entry pool_lawful k).imp_right ?_
    rintro ⟨byte, hpending, hget⟩
    rw [pending_tasks _ hgroups] at hpending
    have hselected := pending_selected hws hplaced _ hpending
    exact ⟨(List.getElem?_eq_some_iff.mp hselected).1, hget.trans hselected.symm⟩
  excused fault hfailed := by
    have hbecame := became_of_run hgroups hrun
    obtain ⟨i, hi, hget⟩ := List.mem_iff_getElem.mp hfailed
    have hgroup := hbecame.get (hbecame.length_eq ▸ hi) hi
    simp only [List.get_eq_getElem, hget] at hgroup
    refine Or.imp_right ?_ hgroup
    rintro ⟨segment, hsegment, hread⟩
    have hmem := (groupsOf_ok (List.getElem_mem (hbecame.length_eq ▸ hi))).2.1
    exact ⟨segment, hmem segment hsegment, hread⟩

/-! ## Runs that cannot go on -/

theorem failed_of_skipped (hrun : Run (r.pool env len) ⟨dst, tasks segments⟩ n s)
    (h : .skipped ∈ s.threads) : ∃ fault, .failed fault ∈ s.threads := by
  refine hrun.invariant (I := fun ts => .skipped ∈ ts → ∃ fault, .failed fault ∈ ts)
    (fun {before after t t' w} hstep ih hskipped => ?_) (by simp [tasks]) h
  have hfailed : ∃ fault, .failed fault ∈ before ++ t :: after := by
    cases hstep with
    | skip hmem => exact ⟨_, hmem⟩
    | _ =>
        refine ih ?_
        simp at hskipped ⊢
        exact hskipped
  obtain ⟨fault, hmem⟩ := hfailed
  have hne : t ≠ .failed fault := by
    rintro rfl
    cases hstep
  refine ⟨fault, ?_⟩
  simp only [List.mem_append, List.mem_cons] at hmem ⊢
  exact hmem.imp_right fun h => .inr (h.resolve_left hne.symm)

theorem ended_of_stuck (h : ∀ s', ¬ Interleaving.Step (r.pool env len) s s') :
    ∀ t ∈ s.threads, t = .finished ∨ Stopped t := by
  intro t ht
  by_contra hgoes
  rw [not_or] at hgoes
  obtain ⟨mem, threads⟩ := s
  obtain ⟨before, after, rfl⟩ := List.append_of_mem ht
  obtain ⟨t', w, hstep⟩ : ∃ t' w, TaskStep env r len (before ++ t :: after) t t' w :=
    exists_step hgoes.2 hgoes.1
  exact h _ (.step hstep)

theorem finished_of_stuck (hrun : Run (r.pool env len) ⟨dst, tasks segments⟩ n s)
    (h : ∀ s', ¬ Interleaving.Step (r.pool env len) s s')
    (hnone : ∀ fault, .failed fault ∉ s.threads) : ∀ t ∈ s.threads, t = .finished := by
  intro t ht
  rcases ended_of_stuck h t ht with hfinished | hstopped
  · exact hfinished
  · cases t with
    | failed fault => exact absurd ht (hnone fault)
    | skipped =>
        obtain ⟨fault, hfailed⟩ := failed_of_skipped hrun ht
        exact absurd hfailed (hnone fault)
    | _ => cases hstopped

theorem read_of_finished
    (hgroups : ∀ group ∈ groupsOf segments, Prepared env r len group)
    (hrun : Run (r.pool env len) ⟨dst, tasks segments⟩ n s)
    (hall : ∀ t ∈ s.threads, t = .finished) :
    ∀ segment ∈ segments, ∃ chunk, chunkData env r.ds r.chunkSz segment.1 = .ok chunk := by
  have hbecame := became_of_run hgroups hrun
  intro segment hsegment
  rw [← flatten_groupsOf segments] at hsegment
  obtain ⟨group, hgroup, hsegment⟩ := List.mem_flatten.mp hsegment
  obtain ⟨i, hi, rfl⟩ := List.mem_iff_getElem.mp hgroup
  have hlast := hbecame.get hi (hbecame.length_eq ▸ hi)
  rw [hall _ (List.get_mem _ _)] at hlast
  exact hlast segment hsegment

theorem copies_eq (hws : List.Forall₂ (CopiedBy env r len) segments ws)
    (hread : ∀ segment ∈ segments,
      ∃ chunk, chunkData env r.ds r.chunkSz segment.1 = .ok chunk) :
    segments.flatMap (r.segmentCopies env len) =
      ws.flatMap fun w => placed w.1 w.2 := by
  induction hws with
  | nil => rfl
  | cons hw _ ih =>
      obtain ⟨⟨chunk, hchunk⟩, hread⟩ := List.forall_mem_cons.mp hread
      simp [segmentCopies, hchunk, hw chunk hchunk, ih hread]

theorem mem_of_finished (hgroups : ∀ group ∈ groupsOf segments, Prepared env r len group)
    (hws : List.Forall₂ (CopiedBy env r len) segments ws)
    (hplaced : (ws.flatMap fun w => placed w.1 w.2).Perm (placed 0 selected))
    (hcap : selected.length ≤ dst.length)
    (hrun : Run (r.pool env len) ⟨dst, tasks segments⟩ n s)
    (hall : ∀ t ∈ s.threads, t = .finished) :
    s.mem = selected ++ dst.drop selected.length := by
  have hpending := pending_tasks dst hgroups
  have hcopies := copies_eq hws (read_of_finished hgroups hrun hall)
  have hdone : State.pending (r.pool env len) s = [] :=
    List.flatMap_eq_nil_iff.mpr fun t ht => by
      rw [hall t ht]
      rfl
  have hlen : s.mem.length = dst.length := hrun.length_mem pool_lawful
  apply List.ext_getElem?
  intro k
  rcases Nat.lt_or_ge k dst.length with hk | hk
  · have hget := hrun.complete pool_lawful
      (by rw [hpending]; exact pending_selected hws hplaced) hdone
      (fun t ht => by rw [hall t ht]; exact id) hk
    have hplaces : k ∈ (segments.flatMap (r.segmentCopies env len)).map Prod.fst ↔
        k < selected.length := by
      rw [hcopies, (hplaced.map Prod.fst).mem_iff, map_fst_placed]
      simp
    rw [hget, hpending]
    simp only [hplaces]
    split
    · rename_i hsel
      rw [List.getElem?_append_left hsel]
    · rename_i hsel
      rw [List.getElem?_append_right (by omega), List.getElem?_drop,
        Nat.add_sub_cancel' (by omega)]
  · rw [List.getElem?_eq_none (by omega), List.getElem?_eq_none (by simp; omega)]

end Runs

theorem readToPar_of_read (hA : PartlyCarries env ds A) (hwf : ds.WellFormed)
    (hpos : 0 < ds.dsize) (hin : Inside ds e) (hfold : Foldable (dims ds e))
    {sort : UnstableSort (Segment D) Segment.addr} {fuel : Nat}
    {segments : List (Segment D)} {dst : Bytes}
    (hsegments : ds.groupChunkSlices sort env.build fuel e = .ok segments)
    (hread : ∀ segment ∈ segments,
      ∃ chunk, chunkData env ds (chunkSize ds) segment.1 = .ok chunk)
    (hcap : (counts (dims ds e)).prod * ds.dsize ≤ dst.length)
    (hdst : dst.length < 2 ^ 63) (schedule : Schedule D) :
    readToPar env sort schedule fuel ⟨ds, chunkSize ds⟩ e dst =
      .ok (selectedBytes ds A e ++ dst.drop (selectedBytes ds A e).length,
        (selectedBytes ds A e).length) := by
  have hreader : withDataset env.build ds = .ok ⟨ds, chunkSize ds⟩ := by
    simp [withDataset, hwf.chunkBytes_eq, chunkSize]
  have hmethod : Method env ds fun fuel =>
      readToPar env sort schedule fuel ⟨ds, chunkSize ds⟩ :=
    .directPar _ hreader sort schedule
  obtain ⟨items, hitems, hperm⟩ := segments_perm hwf hin hfold hsegments
  have hchunk : ∀ item ∈ items,
      ∃ chunk, chunkData env ds (chunkSize ds) item.1 = .ok chunk := by
    intro item hitem
    have hfirst : item.1 ∈ (tagged items 0).map Prod.fst := by
      rw [map_tagged]
      exact List.mem_map_of_mem hitem
    obtain ⟨segment, hsegment, heq⟩ := List.mem_map.mp hfirst
    rw [← heq]
    exact hread segment (hperm.mem_iff.mpr hsegment)
  obtain ⟨pieces, hflatten, hcut⟩ := hA.cut hwf hin hfold hitems
  have havailable := available_cut hcut hwf hA.dsize_eq hin.ranked hitems hflatten hchunk
  rw [← hflatten]
  exact havailable.reads hwf hin hpos hcap hdst hmethod

end Direct

/--
While a selection is read in threads, with chunks that may be unreadable and files that
may not open, every byte of the destination is what it was or the selected byte that
belongs there, and a task fails only for its file or its chunk.
-/
theorem threads_safe (ds : Dataset D) (hwf : ds.WellFormed) (A : Values dsz)
    (hA : PartlyCarries env ds A) (e : Extents) (hin : Inside ds e)
    (hfold : Foldable (dims ds e)) (sort : UnstableSort (Segment D) Segment.addr)
    (fuel : Nat) (segments : List (Segment D))
    (hsegments : ds.groupChunkSlices sort env.build fuel e = .ok segments) (dst : Bytes)
    (hcap : (selectedBytes ds A e).length ≤ dst.length) (hdst : dst.length < 2 ^ 63) :
    ∀ n s, Run (Direct.pool env ⟨ds, chunkSize ds⟩ dst.length)
        ⟨dst, Direct.tasks segments⟩ n s →
      Direct.PartlyRead env ⟨ds, chunkSize ds⟩ segments (selectedBytes ds A e) dst s := by
  have hcounts := length_selectedBytes hA.dsize_eq A e
  rw [← (dims_fields hin.ranked).2.2.2] at hcounts
  obtain ⟨ws, hws, hplaced⟩ := Direct.copiedBy_segments hA hwf hin hfold hsegments
    (hcounts ▸ hcap) (by omega : dst.length < 2 ^ 64)
  obtain ⟨-, -, -, -, -, hmem⟩ := Direct.groupChunkSlices_ok hsegments
  have hgroups := Direct.prepared_groups (r := ⟨ds, chunkSize ds⟩) hwf.addr_nodup hmem hws
  exact fun n s hrun => Direct.partlyRead_of_run hgroups hws hplaced hrun

def pairSegments : List (Segment 1) :=
  [(splitPair.chunks[0], 0, 0, 1), (splitPair.chunks[1], 1, 0, 1)]

theorem halfway_splitPair :
    Run (Direct.pool (.addresses .release 68) ⟨splitPair, chunkSize splitPair⟩ 4)
      ⟨[0, 0, 0, 0], Direct.tasks pairSegments⟩ 6
      ⟨[64, 0, 66, 0], [.copying [64, 65] 1 [65] [], .copying [66, 67] 3 [67] []]⟩ := by
  let M := Direct.pool (.addresses .release 68) ⟨splitPair, chunkSize splitPair⟩ 4
  have first : ∀ {s₀ n mem t t' u w}, Run M s₀ n ⟨mem, [t, u]⟩ → M.step [t, u] t t' w →
      Run M s₀ (n + 1) ⟨Buffer.setAll mem w.toList, [t', u]⟩ := fun hrun hstep =>
    .step hrun (@Interleaving.Step.step _ _ M _ [] [_] _ _ _ hstep)
  have second : ∀ {s₀ n mem t u u' w}, Run M s₀ n ⟨mem, [t, u]⟩ → M.step [t, u] u u' w →
      Run M s₀ (n + 1) ⟨Buffer.setAll mem w.toList, [t, u']⟩ := fun hrun hstep =>
    .step hrun (@Interleaving.Step.step _ _ M _ [_] [] _ _ _ hstep)
  have hread : Run M ⟨[0, 0, 0, 0], Direct.tasks pairSegments⟩ 2
      ⟨[0, 0, 0, 0], [.copying [64, 65] 0 [] [(splitPair.chunks[0], 0, 0, 1)],
        .copying [66, 67] 0 [] [(splitPair.chunks[1], 1, 0, 1)]]⟩ :=
    second (first .refl (Direct.TaskStep.read rfl)) (Direct.TaskStep.read rfl)
  have hcopying : Run M _ 4
      ⟨[0, 0, 0, 0], [.copying [64, 65] 0 [64, 65] [], .copying [66, 67] 2 [66, 67] []]⟩ :=
    first (second hread (Direct.TaskStep.segment rfl)) (Direct.TaskStep.segment rfl)
  exact first (second hcopying .byte) .byte

theorem threads_safe_splitPair :
    Direct.PartlyRead (.addresses .release 68) ⟨splitPair, chunkSize splitPair⟩
      pairSegments (selectedBytes splitPair pairValues .all) [0, 0, 0, 0]
      ⟨[64, 0, 66, 0], [.copying [64, 65] 1 [65] [], .copying [66, 67] 3 [67] []]⟩ :=
  threads_safe splitPair splitPair_wellFormed pairValues (carries_splitPair (.inr rfl)) .all
    ⟨by decide, by decide⟩ (by decide) (.insertion _) 3 pairSegments rfl [0, 0, 0, 0]
    (by decide) (by decide) 6 _ halfway_splitPair

/--
Threads do only so many steps.  When none can go on, some task has failed, or the
destination is the one that the groups read one after the other give, in any order.
-/
theorem threads_complete (ds : Dataset D) (hwf : ds.WellFormed) (hpos : 0 < ds.dsize)
    (A : Values dsz) (hA : PartlyCarries env ds A) (e : Extents) (hin : Inside ds e)
    (hfold : Foldable (dims ds e)) (sort : UnstableSort (Segment D) Segment.addr)
    (fuel : Nat) (segments : List (Segment D))
    (hsegments : ds.groupChunkSlices sort env.build fuel e = .ok segments) (dst : Bytes)
    (hcap : (selectedBytes ds A e).length ≤ dst.length) (hdst : dst.length < 2 ^ 63) :
    ∃ bound, ∀ n s, Run (Direct.pool env ⟨ds, chunkSize ds⟩ dst.length)
        ⟨dst, Direct.tasks segments⟩ n s →
      n ≤ bound ∧
      ((∀ s', ¬ Interleaving.Step (Direct.pool env ⟨ds, chunkSize ds⟩ dst.length) s s') →
        (∃ fault, .failed fault ∈ s.threads) ∨
        s.mem = selectedBytes ds A e ++ dst.drop (selectedBytes ds A e).length ∧
          ∀ schedule, Direct.readToPar env sort schedule fuel ⟨ds, chunkSize ds⟩ e dst =
            .ok (s.mem, (selectedBytes ds A e).length)) := by
  have hcounts := length_selectedBytes hA.dsize_eq A e
  rw [← (dims_fields hin.ranked).2.2.2] at hcounts
  have hroom : (counts (dims ds e)).prod * ds.dsize ≤ dst.length := hcounts ▸ hcap
  obtain ⟨ws, hws, hplaced⟩ := Direct.copiedBy_segments hA hwf hin hfold hsegments
    hroom (by omega : dst.length < 2 ^ 64)
  obtain ⟨-, -, -, -, -, hmem⟩ := Direct.groupChunkSlices_ok hsegments
  have hgroups := Direct.prepared_groups (r := ⟨ds, chunkSize ds⟩) hwf.addr_nodup hmem hws
  refine ⟨State.measure (Direct.pool env ⟨ds, chunkSize ds⟩ dst.length)
    ⟨dst, Direct.tasks segments⟩, fun n s hrun => ⟨?_, fun hstuck => ?_⟩⟩
  · have hsteps := hrun.measure_le Direct.pool_lawful
    omega
  · by_cases hnone : ∀ fault, .failed fault ∉ s.threads
    · right
      have hall := Direct.finished_of_stuck hrun hstuck hnone
      have hfilled := Direct.mem_of_finished hgroups hws hplaced hcap hrun hall
      refine ⟨hfilled, fun schedule => ?_⟩
      rw [hfilled]
      exact Direct.readToPar_of_read hA hwf hpos hin hfold hsegments
        (Direct.read_of_finished hgroups hrun hall) hroom hdst schedule
    · left
      simpa using hnone

theorem threads_complete_splitPair : ∃ bound, ∀ n s,
    Run (Direct.pool (.addresses .release 68) ⟨splitPair, chunkSize splitPair⟩ 4)
        ⟨[0, 0, 0, 0], Direct.tasks pairSegments⟩ n s →
      n ≤ bound ∧
      ((∀ s', ¬ Interleaving.Step
          (Direct.pool (.addresses .release 68) ⟨splitPair, chunkSize splitPair⟩ 4) s s') →
        (∃ fault, .failed fault ∈ s.threads) ∨
        s.mem = selectedBytes splitPair pairValues .all ++
            [0, 0, 0, 0].drop (selectedBytes splitPair pairValues .all).length ∧
          ∀ schedule, Direct.readToPar (.addresses .release 68) (.insertion _) schedule 3
              ⟨splitPair, chunkSize splitPair⟩ .all [0, 0, 0, 0] =
            .ok (s.mem, (selectedBytes splitPair pairValues .all).length)) :=
  threads_complete splitPair splitPair_wellFormed (by decide) pairValues
    (carries_splitPair (.inr rfl)) .all ⟨by decide, by decide⟩ (by decide) (.insertion _) 3
    pairSegments rfl [0, 0, 0, 0] (by decide) (by decide)

end Hidefix.Reader
