import Hidefix.Reader.Delivered

/-!
# Damaged files

Chunks that a selection does not need may be lost: every reader delivers the selection
without them.  Where one that it needs is lost, a read fails as a lost chunk does, and
never in another way; a stream yields all the values before the first that is lost.
-/

namespace Hidefix.Reader

open Buffer (Write write layout)
open Caching (LruCache)
open Foundation
open Idx
open MixedRadix
open Slices
open Sorting (UnstableSort)

variable {D dsz : Nat} {env : Env} {ds : Dataset D} {e : Extents} {A : Values dsz}
variable {items : List (Item D)} {pieces : List Bytes} {fuel : Nat}

/-! ## What is needed, and what is lost -/

def Needed (ds : Dataset D) (e : Extents) (c : Chunk D) : Prop :=
  ∃ x ∈ walk ds e, ∃ p, Located ds p x ∧ p.1 = c

def Kept (env : Env) (ds : Dataset D) (c : Chunk D) : Prop :=
  ∃ data, chunkData env ds (chunkSize ds) c = .ok data

def Lost (env : Env) (ds : Dataset D) (chunks : Chunk D → Prop) (fault : Fault) : Prop :=
  ∃ c, chunks c ∧ chunkData env ds (chunkSize ds) c = .error fault

theorem needed_iff (hwf : ds.WellFormed) {yss : List (List (List Nat))}
    (hflatten : yss.flatten = walk ds e) (h : List.Forall₂ (Covers ds) items yss)
    {c : Chunk D} : Needed ds e c ↔ ∃ item ∈ items, item.1 = c := by
  constructor
  · rintro ⟨x, hx, p, hp, rfl⟩
    rw [← hflatten] at hx
    obtain ⟨ys, hys, hx⟩ := List.mem_flatten.mp hx
    obtain ⟨i, hi, rfl⟩ := List.mem_iff_getElem.mp hys
    have hitem : i < items.length := h.length_eq ▸ hi
    obtain ⟨q, hq, hchunk⟩ := (h.get hitem hi).located_at x hx
    refine ⟨_, List.get_mem _ ⟨i, hitem⟩, ?_⟩
    rw [located_unique hwf hp hq, ← hchunk]
  · rintro ⟨item, hitem, rfl⟩
    obtain ⟨i, hi, rfl⟩ := List.mem_iff_getElem.mp hitem
    have hys : i < yss.length := h.length_eq ▸ hi
    have hcovers := h.get hi hys
    obtain ⟨x, hx⟩ := List.exists_mem_of_ne_nil _ hcovers.ne_nil
    obtain ⟨p, hp, hchunk⟩ := hcovers.located_at x hx
    refine ⟨x, ?_, p, hp, hchunk⟩
    rw [← hflatten]
    exact List.mem_flatten.mpr ⟨_, List.get_mem _ ⟨i, hys⟩, hx⟩

/-! ## One slice -/

section Steps

variable {dst : Bytes} {s : Segment D} {w : Write UInt8}

theorem readSliceAgain_cut {item : Item D} {piece : Bytes} (h : Cut env ds item piece)
    {d : Dst} (hfit : piece.length ≤ d.dst.length) :
    CacheReader.readSliceAgain env ds (chunkSize ds) d item =
      (chunkData env ds (chunkSize ds) item.1).map fun _ =>
        ⟨d.written ++ piece, d.dst.drop piece.length⟩ := by
  cases hdata : chunkData env ds (chunkSize ds) item.1 with
  | ok data => exact CacheReader.readSliceAgain_of (h.read data hdata) hfit
  | error fault =>
      have hle : item.2.1 * ds.dsize ≤ item.2.2 * ds.dsize :=
        Nat.mul_le_mul_right _ h.ordered.le
      have hbounds : CacheReader.sliceBounds env.build ds.dsize item.2.1 item.2.2 =
          .ok (item.2.1 * ds.dsize, item.2.2 * ds.dsize,
            item.2.2 * ds.dsize - item.2.1 * ds.dsize) := by
        simp [CacheReader.sliceBounds, mulU64_eq h.word, mulU64_eq (hle.trans_lt h.word),
          hle, subU64_eq]
      rw [CacheReader.readSliceAgain, hbounds, ok_bind, hdata]
      rfl

theorem writeOf_laidOut (h : LaidOut env ds dst.length s w) (hdst : dst.length < 2 ^ 64)
    {data : Bytes} (hdata : chunkData env ds (chunkSize ds) s.1 = .ok data) :
    writeOf env ds (chunkSize ds) s = .ok w := by
  have hpiece := h.cut.read data hdata
  have hend : w.1 + w.2.length ≤ dst.length := h.fits
  have hplace : s.2.1 * ds.dsize < 2 ^ 64 := by
    rw [← h.place_eq]
    omega
  rw [writeOf, hpiece, ok_bind, mulU64_eq hplace, ok_bind, ← h.place_eq]

theorem readSegmentAgain_laidOut (h : LaidOut env ds dst.length s w)
    (hdst : dst.length < 2 ^ 64) :
    (⟨ds, chunkSize ds⟩ : Direct D).readSegmentAgain env dst s =
      (chunkData env ds (chunkSize ds) s.1).map fun _ => write dst w.1 w.2 := by
  cases hdata : chunkData env ds (chunkSize ds) s.1 with
  | ok data =>
      exact Direct.readSegmentAgain_of (r := ⟨ds, chunkSize ds⟩)
        (writeOf_laidOut h hdst hdata) h.fits hdst
  | error fault =>
      rw [Direct.readSegmentAgain, hdata]
      rfl

theorem readSegmentRawAgain_laidOut (h : LaidOut env ds dst.length s w)
    (hdst : dst.length < 2 ^ 64) :
    (⟨ds, chunkSize ds⟩ : Direct D).readSegmentRawAgain env dst s =
      (chunkData env ds (chunkSize ds) s.1).map fun _ => write dst w.1 w.2 := by
  cases hdata : chunkData env ds (chunkSize ds) s.1 with
  | ok data =>
      exact Direct.readSegmentRawAgain_of (r := ⟨ds, chunkSize ds⟩)
        (writeOf_laidOut h hdst hdata) h.fits
  | error fault =>
      rw [Direct.readSegmentRawAgain, hdata]
      rfl

end Steps

/-! ## How a read fails -/

def ChunkOf (items : List (Item D)) (c : Chunk D) : Prop := ∃ item ∈ items, item.1 = c

theorem foldlM_readSliceAgain_fails (h : List.Forall₂ (Cut env ds) items pieces) {d : Dst}
    (hfit : pieces.flatten.length ≤ d.dst.length) :
    FailsOnly (Lost env ds (ChunkOf items))
      (items.foldlM (CacheReader.readSliceAgain env ds (chunkSize ds)) d) := by
  induction h generalizing d with
  | nil => exact .ok _
  | @cons item piece items pieces hcut _ ih =>
      rw [List.flatten_cons, List.length_append] at hfit
      have hstep := readSliceAgain_cut hcut (d := d) (by omega)
      rw [List.foldlM_cons, hstep]
      cases hdata : chunkData env ds (chunkSize ds) item.1 with
      | error fault => exact .error ⟨item.1, ⟨item, List.mem_cons_self, rfl⟩, hdata⟩
      | ok data =>
          refine .bind (.ok _) fun d' hd' fault hfault => ?_
          cases hd'
          obtain ⟨_, ⟨lost, hlost, rfl⟩, hfault⟩ :=
            ih (by rw [List.length_drop]; omega) fault hfault
          exact ⟨_, ⟨lost, List.mem_cons_of_mem _ hlost, rfl⟩, hfault⟩

theorem foldlM_laidOut_fails {n : Nat} {step : Bytes → Segment D → Exec Bytes}
    (hstep : ∀ dst s w, dst.length = n → LaidOut env ds n s w → step dst s =
      (chunkData env ds (chunkSize ds) s.1).map fun _ => write dst w.1 w.2)
    {segments : List (Segment D)}
    (hsegments : ∀ s ∈ segments, ChunkOf items s.1 ∧ ∃ w, LaidOut env ds n s w)
    {dst : Bytes} (hdst : dst.length = n) :
    FailsOnly (Lost env ds (ChunkOf items)) (segments.foldlM step dst) := by
  refine (FailsOnly.foldlM (Q := fun dst => dst.length = n) (fun dst hlen s hs => ?_)
    hdst).1
  obtain ⟨hchunk, w, hw⟩ := hsegments s hs
  rw [hstep dst s w hlen hw]
  cases hdata : chunkData env ds (chunkSize ds) s.1 with
  | error fault => exact ⟨.error ⟨_, hchunk, hdata⟩, fun _ h => by cases h⟩
  | ok data =>
      refine ⟨.ok _, fun dst' h => ?_⟩
      cases h
      exact (Buffer.length_write (hlen ▸ hw.fits)).trans hlen

theorem segments_laidOut (h : List.Forall₂ (Cut env ds) items pieces) (hpos : 0 < ds.dsize)
    (hitems : ds.collectSlices env.build fuel e = .ok items) {n : Nat}
    (hfit : pieces.flatten.length ≤ n) (hn : n < 2 ^ 64)
    (sort : UnstableSort (Segment D) Segment.addr) :
    ∃ segments, ds.groupChunkSlices sort env.build fuel e = .ok segments ∧
      ∀ s ∈ segments, ChunkOf items s.1 ∧ ∃ w, LaidOut env ds n s w := by
  have hsum := sum_cut h
  have htags : (items.map sliceLen).sum < 2 ^ 64 :=
    (Nat.le_mul_of_pos_right _ hpos).trans_lt (by omega)
  have hplaced := destOffsets_tagged (b := env.build)
    (fun item hitem => (cut_ordered h item hitem).1) htags
  have hlaid : List.Forall₂ (LaidOut env ds n) (tagged items 0)
      (layout (0 * ds.dsize) pieces) := laidOut_tagged h (by omega)
  refine ⟨sort.sort (tagged items 0), ?_, fun s hs => ?_⟩
  · rw [Dataset.groupChunkSlices, hitems, ok_bind, hplaced, ok_bind]
  · have hs : s ∈ tagged items 0 := (sort.perm _).mem_iff.mp hs
    constructor
    · have hchunk : s.1 ∈ (tagged items 0).map Prod.fst := List.mem_map_of_mem hs
      rw [map_tagged] at hchunk
      exact List.mem_map.mp hchunk
    · obtain ⟨i, hi, rfl⟩ := List.mem_iff_getElem.mp hs
      exact ⟨_, hlaid.get hi (hlaid.length_eq ▸ hi)⟩

section Reads

variable {dst : Bytes} {n : Nat} (h : List.Forall₂ (Cut env ds) items pieces)
variable (hwf : ds.WellFormed) (hpos : 0 < ds.dsize)
variable (hitems : ds.collectSlices env.build fuel e = .ok items)
variable (hn : ensureCapacity env.build ds e dst.length = .ok n)
variable (hfit : pieces.flatten.length ≤ dst.length) (hdst : dst.length < 2 ^ 64)
include h hwf hitems hn hfit

theorem cache_fails {L : LruCache Nat Bytes} {r : CacheReader D L}
    (hr : r.Sound env ds (chunkSize ds)) :
    FailsOnly (Lost env ds (ChunkOf items)) (r.readTo env fuel e dst).2 := by
  rw [hr.readTo_eq hwf.addr_nodup hn hitems]
  exact (foldlM_readSliceAgain_fails h hfit).bind fun _ _ => .ok _

include hpos hdst

theorem direct_fails (sort : UnstableSort (Segment D) Segment.addr) :
    FailsOnly (Lost env ds (ChunkOf items))
      ((⟨ds, chunkSize ds⟩ : Direct D).readTo env sort fuel e dst) := by
  obtain ⟨segments, hsegments, hlaid⟩ := segments_laidOut h hpos hitems hfit hdst sort
  obtain ⟨-, -, -, -, -, hmem⟩ := Direct.groupChunkSlices_ok hsegments
  have hlast : Direct.LastOk env ⟨ds, chunkSize ds⟩ none := by simp [Direct.LastOk]
  have hagain := Direct.foldlM_readSegment hwf.addr_nodup hmem hlast dst
  have hfails := foldlM_laidOut_fails (fun dst' s w hlen hw =>
    readSegmentAgain_laidOut (hlen ▸ hw) (hlen ▸ hdst)) hlaid rfl
  rw [Direct.readTo, hn, ok_bind, hsegments, ok_bind]
  refine FailsOnly.bind (fun fault hfault => hfails fault ?_) fun _ _ => .ok _
  rw [← hagain, hfault]
  rfl

theorem par_fails (sort : UnstableSort (Segment D) Segment.addr) (schedule : Schedule D) :
    FailsOnly (Lost env ds (ChunkOf items))
      ((⟨ds, chunkSize ds⟩ : Direct D).readToPar env sort schedule fuel e dst) := by
  obtain ⟨segments, hsegments, hlaid⟩ := segments_laidOut h hpos hitems hfit hdst sort
  obtain ⟨-, -, -, -, -, hmem⟩ := Direct.groupChunkSlices_ok hsegments
  have hgroups := Direct.scheduled_groups schedule hmem
  have hfold : (schedule.order _).foldlM
      ((⟨ds, chunkSize ds⟩ : Direct D).readGroup env) dst = _ :=
    Direct.foldlM_readGroup hwf.addr_nodup hgroups dst
  rw [Direct.readToPar, hn, ok_bind, hsegments, ok_bind, hfold]
  refine FailsOnly.bind ?_ fun _ _ => .ok _
  exact foldlM_laidOut_fails (fun dst' s w hlen hw =>
    readSegmentRawAgain_laidOut (hlen ▸ hw) (hlen ▸ hdst))
    (fun s hs => hlaid s ((Direct.scheduled_flatten _ schedule).mem_iff.mp hs)) rfl

theorem method_fails {read : Nat → ReadTo} (hread : Method env ds read) :
    FailsOnly (Lost env ds (ChunkOf items)) (read fuel e dst) := by
  cases hread with
  | cache hsz reader hreader =>
      obtain rfl := Except.ok.inj (hwf.chunkBytes_eq.symm.trans hsz)
      exact cache_fails h hwf hitems hn hfit
        (CacheReader.Reached.sound hwf.addr_nodup hreader)
  | direct r hr sort =>
      obtain ⟨chunkSz, hsz, hr⟩ := bind_eq_ok.mp hr
      obtain rfl := Except.ok.inj (hwf.chunkBytes_eq.symm.trans hsz)
      cases hr
      exact direct_fails h hwf hpos hitems hn hfit hdst sort
  | directPar r hr sort schedule =>
      obtain ⟨chunkSz, hsz, hr⟩ := bind_eq_ok.mp hr
      obtain rfl := Except.ok.inj (hwf.chunkBytes_eq.symm.trans hsz)
      cases hr
      exact par_fails h hwf hpos hitems hn hfit hdst sort schedule

end Reads

theorem kept_of_read (hwf : ds.WellFormed)
    (hitems : ds.collectSlices env.build fuel e = .ok items) {read : Nat → ReadTo}
    (hread : Method env ds read) {dst : Bytes} {out : Bytes × Nat}
    (h : read fuel e dst = .ok out) : ∀ item ∈ items, Kept env ds item.1 := by
  obtain ⟨chunkSz, items', pieces, hfilled⟩ := hread.filled hwf.addr_nodup h
  obtain rfl := collectSlices_unique hfilled.collected hitems
  obtain rfl := Except.ok.inj (hwf.chunkBytes_eq.symm.trans hfilled.chunkSz_eq)
  intro item hitem
  obtain ⟨i, hi, rfl⟩ := List.mem_iff_getElem.mp hitem
  have hpiece := hfilled.pieces_eq.get hi (hfilled.pieces_eq.length_eq ▸ hi)
  obtain ⟨data, hdata, -⟩ := bind_eq_ok.mp hpiece
  exact ⟨data, hdata⟩

/-- What a reader does with chunks that may be lost: it delivers the selection if it
needs none of them, and fails as one that it needs otherwise. -/
structure Salvages (env : Env) (read : ReadTo) (ds : Dataset D) (A : Values dsz)
    (e : Extents) : Prop where
  delivered : (∀ c, Needed ds e c → Kept env ds c) → Delivers read ds A e
  failed : ∀ c, Needed ds e c → ¬ Kept env ds c →
    ∀ dst : Bytes, (selectedBytes ds A e).length ≤ dst.length → dst.length < 2 ^ 63 →
      ∃ fault, Lost env ds (Needed ds e) fault ∧ read e dst = .error fault

/--
Every reader delivers a selection from a damaged file if all chunks that hold a selected
value can be read, and otherwise returns the error of one that cannot.
-/
theorem reads_damaged (ds : Dataset D) (hwf : ds.WellFormed) (hpos : 0 < ds.dsize)
    (A : Values dsz) (hA : PartlyCarries env ds A) (e : Extents) (hin : Inside ds e)
    (hfold : Foldable (dims ds e)) :
    ∃ fuel₀, ∀ fuel ≥ fuel₀, ∀ read, Method env ds read →
      Salvages env (read fuel) ds A e := by
  obtain ⟨fuel₀, items, hcollect⟩ := collected_inside hwf hin hfold env.build
  refine ⟨fuel₀, fun fuel hfuel read hread => ?_⟩
  have hitems := hcollect fuel hfuel
  obtain ⟨yss, hcoords, hcovers⟩ := covers_selected hwf hin hfold hitems
  obtain ⟨pieces, hflatten, hcut⟩ := hA.cut hwf hin hfold hitems
  have hneeded : ∀ c, Needed ds e c ↔ ChunkOf items c := fun c =>
    needed_iff hwf hcoords hcovers
  have hcounts := length_selectedBytes hA.dsize_eq A e
  rw [← (dims_fields hin.ranked).2.2.2] at hcounts
  constructor
  · intro hkept dst hcap hdst
    have havailable := available_cut hcut hwf hA.dsize_eq hin.ranked hitems hflatten
      fun item hitem => hkept _ ((hneeded _).mpr ⟨item, hitem, rfl⟩)
    rw [← hflatten]
    exact havailable.reads hwf hin hpos (hcounts ▸ hcap) hdst hread
  · intro c hc hlost dst hcap hdst
    have hn := ensureCapacity_inside (b := env.build) hin hwf dst.length
    rw [if_pos (hcounts ▸ hcap)] at hn
    have hfails := method_fails hcut hwf hpos hitems hn (hflatten ▸ hcap)
      (hdst.trans (by decide)) hread
    cases hresult : read fuel e dst with
    | ok out =>
        obtain ⟨item, hitem, rfl⟩ := (hneeded c).mp hc
        exact absurd (kept_of_read hwf hitems hread hresult item hitem) hlost
    | error fault =>
        obtain ⟨c', hc', hfault⟩ := hfails fault hresult
        exact ⟨fault, ⟨c', (hneeded c').mpr hc', hfault⟩, rfl⟩

/-! ## A file that ends behind the first of two chunks -/

theorem reads_damaged_splitPair : ∃ fuel₀, ∀ fuel ≥ fuel₀, ∀ read,
    Method (.addresses .release 66) splitPair read →
      Salvages (.addresses .release 66) (read fuel) splitPair pairValues .all :=
  reads_damaged splitPair splitPair_wellFormed (by decide) pairValues
    (carries_splitPair (.inl rfl)) .all ⟨by decide, by decide⟩ (by decide)

/-! ## How a stream ends -/

theorem yieldSliceAgain_cut {item : Item D} {piece : Bytes} (h : Cut env ds item piece) :
    StreamReader.yieldSliceAgain env ⟨ds, chunkSize ds⟩ .ok .ok
        (StreamReader.sliceAt ds.dsize item) =
      (chunkData env ds (chunkSize ds) item.1).map fun _ => piece := by
  cases hdata : chunkData env ds (chunkSize ds) item.1 with
  | ok data =>
      exact StreamReader.yieldSliceAgain_of ⟨h.ordered.le, h.word⟩ (h.read data hdata)
  | error fault =>
      rw [StreamReader.yieldSliceAgain_eq (r := ⟨ds, chunkSize ds⟩) (x := 1) h.ordered.le
        (by simp) (by simp), hdata]
      rfl

def yieldedSlices (env : Env) (ds : Dataset D) (items : List (Item D)) : Yielded :=
  StreamReader.yieldAll (items.map fun item => StreamReader.yieldSliceAgain env
    ⟨ds, chunkSize ds⟩ .ok .ok (StreamReader.sliceAt ds.dsize item))

theorem append_split {α : Type} {xs ys before after : List α} {x : α}
    (h : xs ++ ys = before ++ x :: after) (hx : x ∉ xs) :
    ∃ rest, before = xs ++ rest ∧ ys = rest ++ x :: after := by
  obtain ⟨rest, hrest, hys⟩ | ⟨rest, hrest, hys⟩ := List.append_eq_append_iff.mp h
  · exact ⟨rest, hrest, hys⟩
  · cases rest with
    | nil => exact ⟨[], by simpa using hrest.symm, hys.symm⟩
    | cons y rest =>
        obtain rfl : x = y := (List.cons.inj hys).1
        simp [hrest] at hx

section Until

variable {before after : List (List Nat)} {x : List Nat} {p : Chunk D × Nat}
variable {fault : Fault}

theorem Covers.lost_first (hwf : ds.WellFormed) {item : Item D} {ys zs : List (List Nat)}
    (h : Covers ds item ys) (hsplit : ys ++ zs = before ++ x :: after)
    (hbefore : ∀ y ∈ before, ∀ q, Located ds q y → Kept env ds q.1)
    (hlost : ¬ Kept env ds item.1) (hp : Located ds p x) : before = [] ∧ p.1 = item.1 := by
  obtain ⟨y, ys, rfl⟩ := List.exists_cons_of_ne_nil h.ne_nil
  obtain ⟨q, hq, hchunk⟩ := h.located_at y List.mem_cons_self
  cases before with
  | nil =>
      obtain rfl : y = x := (List.cons.inj hsplit).1
      exact ⟨rfl, by rw [located_unique hwf hp hq, hchunk]⟩
  | cons z before =>
      obtain rfl : y = z := (List.cons.inj hsplit).1
      have hkept := hbefore y List.mem_cons_self q hq
      rw [hchunk] at hkept
      exact absurd hkept hlost

theorem yielded_until (hA : PartlyCarries env ds A) (hwf : ds.WellFormed)
    {yss : List (List (List Nat))} (h : List.Forall₂ (Covers ds) items yss)
    (hsplit : yss.flatten = before ++ x :: after)
    (hbefore : ∀ y ∈ before, ∀ q, Located ds q y → Kept env ds q.1) (hp : Located ds p x)
    (hfault : chunkData env ds (chunkSize ds) p.1 = .error fault) :
    ∃ pieces, yieldedSlices env ds items = (pieces, some fault) ∧
      pieces.flatten = bytesOf A before := by
  induction h generalizing before with
  | nil => simp at hsplit
  | @cons item ys items yss hcovers _ ih =>
      have hyield := yieldSliceAgain_cut (hcovers.cut hA)
      rw [List.flatten_cons] at hsplit
      cases hdata : chunkData env ds (chunkSize ds) item.1 with
      | error lost =>
          have hlost : ¬ Kept env ds item.1 := by
            rintro ⟨data, hkept⟩
            rw [hdata] at hkept
            cases hkept
          obtain ⟨rfl, hchunk⟩ := hcovers.lost_first hwf hsplit hbefore hlost hp
          rw [← hchunk, hfault] at hyield
          refine ⟨[], ?_, rfl⟩
          rw [yieldedSlices, List.map_cons, hyield]
          rfl
      | ok data =>
          have hnot : x ∉ ys := by
            intro hx
            obtain ⟨q, hq, hchunk⟩ := hcovers.located_at x hx
            rw [located_unique hwf hp hq, hchunk, hdata] at hfault
            cases hfault
          obtain ⟨rest, rfl, hrest⟩ := append_split hsplit hnot
          obtain ⟨pieces, hpieces, hflatten⟩ :=
            ih hrest fun y hy => hbefore y (List.mem_append_right _ hy)
          refine ⟨bytesOf A ys :: pieces, ?_, by simp [hflatten, bytesOf]⟩
          rw [hdata] at hyield
          rw [yieldedSlices] at hpieces
          rw [yieldedSlices, List.map_cons, hyield]
          simp [Except.map, StreamReader.yieldAll, hpieces]

end Until

/-- What a stream yields of chunks that may be lost: the selection if it needs none of
them, and otherwise what is selected before the first value that is lost. -/
structure YieldsUntil (L : LruCache Nat Bytes) (env : Env) (r : StreamReader D)
    (A : Values dsz) (e : Extents) (fuel : Nat) : Prop where
  whole : (∀ c, Needed r.ds e c → Kept env r.ds c) →
    ∃ pieces, r.stream L env fuel e = .ok (pieces, none) ∧
      pieces.flatten = selectedBytes r.ds A e
  ended : ∀ before x after, walk r.ds e = before ++ x :: after →
    (∀ y ∈ before, ∀ q, Located r.ds q y → Kept env r.ds q.1) →
    ∀ p fault, Located r.ds p x → chunkData env r.ds (chunkSize r.ds) p.1 = .error fault →
      ∃ pieces, r.stream L env fuel e = .ok (pieces, some fault) ∧
        pieces.flatten = bytesOf A before

/--
A stream of a damaged file yields the selection up to the first value whose chunk cannot
be read, and then the error of that chunk.
-/
theorem streams_damaged (L : LruCache Nat Bytes) (ds : Dataset D) (hwf : ds.WellFormed)
    (hpos : 0 < ds.dsize) (A : Values dsz) (hA : PartlyCarries env ds A) (e : Extents)
    (hin : Inside ds e) (hfold : Foldable (dims ds e)) (r : StreamReader D)
    (hr : StreamReader.withDataset env.build ds = .ok r) :
    ∃ fuel₀, ∀ fuel ≥ fuel₀, YieldsUntil L env r A e fuel := by
  obtain ⟨fuel₀, items, hcollect⟩ := collected_inside hwf hin hfold env.build
  have hreader := hr
  rw [StreamReader.withDataset, hwf.chunkBytes_eq, ok_bind] at hreader
  cases hreader
  refine ⟨fuel₀, fun fuel hfuel => ?_⟩
  have hitems := hcollect fuel hfuel
  obtain ⟨yss, hcoords, hcovers⟩ := covers_selected hwf hin hfold hitems
  obtain ⟨pieces, hflatten, hcut⟩ := hA.cut hwf hin hfold hitems
  constructor
  · intro hkept
    have havailable := available_cut hcut hwf hA.dsize_eq hin.ranked hitems hflatten
      fun item hitem => hkept _ ((needed_iff hwf hcoords hcovers).mpr ⟨item, hitem, rfl⟩)
    exact ⟨pieces, havailable.streams hwf hpos L hr, hflatten⟩
  · intro before x after hsplit hbefore p fault hp hfault
    obtain ⟨yielded, hyielded, hjoined⟩ :=
      yielded_until hA hwf hcovers (hcoords.trans hsplit) hbefore hp hfault
    have hchunk : chunkSize ds ≠ 0 :=
      (Nat.mul_pos (prod_pos_of_forall hwf.chunk_pos) hpos).ne'
    refine ⟨yielded, ?_, hjoined⟩
    rw [← hyielded]
    exact StreamReader.streamWith_eq (r := ⟨ds, chunkSize ds⟩) hwf.addr_nodup hitems
      (fun item hitem => (cut_ordered hcut item hitem).1)
      (fun item hitem => (cut_ordered hcut item hitem).2) hchunk .ok .ok

theorem streams_damaged_splitPair : ∃ fuel₀, ∀ fuel ≥ fuel₀,
    YieldsUntil (.recency _ _) (.addresses .release 66) ⟨splitPair, 2⟩ pairValues .all fuel :=
  streams_damaged (.recency _ _) splitPair splitPair_wellFormed (by decide) pairValues
    (carries_splitPair (.inl rfl)) .all ⟨by decide, by decide⟩ (by decide) ⟨splitPair, 2⟩ rfl

end Hidefix.Reader
