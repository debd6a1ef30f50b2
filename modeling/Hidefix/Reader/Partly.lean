import Hidefix.Reader.Arrays

/-!
# Arrays of which parts can be read

Some chunks of a file may be lost, and the others hold the values at their coordinates.
The slices of a selection divide its coordinates among them, so that each slice is a
known piece of the selection, whether or not its chunk can be read.
-/

namespace Hidefix.Reader

open Blocks
open Buffer (Write layout)
open Foundation
open Idx
open MixedRadix
open Slices

variable {D dsz : Nat} {env : Env} {ds : Dataset D} {e : Extents} {A : Values dsz}
variable {items : List (Item D)} {pieces : List Bytes}

/-- Wherever coordinates are stored in a chunk that can be read, their value is. -/
structure PartlyCarries (env : Env) (ds : Dataset D) (A : Values dsz) : Prop where
  dsize_eq : ds.dsize = dsz
  stored : ∀ x, InBox ds.shape.toList x → ∀ p, Located ds p x →
    ∀ data, chunkData env ds (chunkSize ds) p.1 = .ok data →
      StoredAt env ds (chunkSize ds) p (A x).toList

theorem Carries.partly (h : Carries env ds A) : PartlyCarries env ds A :=
  ⟨h.dsize_eq, fun x hx p hp _ _ => h.stored x hx p hp⟩

/-! ## Where a coordinate is -/

theorem cellOf_of_contains {cs g x : List Nat} (hlen : g.length = cs.length)
    (h : List.Forall₂ (fun i r => r.1 ≤ i ∧ i < r.1 + r.2) x ((cellOffset cs g).zip cs)) :
    cellOf cs x = g := by
  induction cs generalizing g x with
  | nil =>
      cases List.eq_nil_of_length_eq_zero hlen
      cases h
      rfl
  | cons c cs ih =>
      obtain ⟨o, g, rfl⟩ := List.exists_cons_of_length_eq_add_one hlen
      change List.Forall₂ _ x ((o * c, c) :: (cellOffset cs g).zip cs) at h
      cases h with
      | @cons i _ x _ hi hx =>
          have hcell : i / c = o :=
            Nat.div_eq_of_lt_le hi.1 (by rw [Nat.succ_mul]; exact hi.2)
          have htail := ih (by simpa using hlen) hx
          exact congrArg₂ List.cons hcell htail

theorem chunk_eq_of_offset (hwf : ds.WellFormed) {c c' : Chunk D} (hc : c ∈ ds.chunks)
    (hc' : c' ∈ ds.chunks) (h : c.offsetU64 = c'.offsetU64) : c = c' := by
  have hnodup : (ds.chunks.map Chunk.offsetU64).Nodup := by
    refine List.pairwise_map.mpr (hwf.sorted.imp fun {c c'} hlt heq => ?_)
    rw [Chunk.cmp, heq, cmpOffsets_eq_compare rfl, Std.ReflOrd.compare_self] at hlt
    cases hlt
  exact List.inj_on_of_nodup_map hnodup hc hc' h

theorem located_unique (hwf : ds.WellFormed) {p q : Chunk D × Nat} {x : List Nat}
    (hp : Located ds p x) (hq : Located ds q x) : p = q := by
  have hcell : ∀ {p : Chunk D × Nat}, Located ds p x → p.1.offsetU64 =
      cellOffset ds.chunkShape.toList (cellOf ds.chunkShape.toList x) := by
    intro p hp
    obtain ⟨g, hg, hoffset⟩ := hwf.aligned p.1 hp.mem
    have hcontains := hp.contains
    rw [hoffset] at hcontains
    rw [cellOf_of_contains (by simpa using hg.length_eq) hcontains, hoffset]
  have hchunk : p.1 = q.1 :=
    chunk_eq_of_offset hwf hp.mem hq.mem ((hcell hp).trans (hcell hq).symm)
  refine Prod.ext hchunk ?_
  rw [hp.position, hq.position, hchunk]

/-! ## The coordinates of a slice -/

structure Covers (ds : Dataset D) (item : Item D) (xs : List (List Nat)) : Prop where
  ordered : item.2.1 < item.2.2
  word : item.2.2 * ds.dsize < 2 ^ 64
  located : List.Forall₂ (Located ds) (expand [item]) xs
  inBox : ∀ x ∈ xs, InBox ds.shape.toList x

theorem forall₂_split {α β : Type} {R : α → β → Prop} {as bs : List α} {xs : List β}
    (h : List.Forall₂ R (as ++ bs) xs) :
    ∃ ys zs, xs = ys ++ zs ∧ List.Forall₂ R as ys ∧ List.Forall₂ R bs zs :=
  ⟨xs.take as.length, xs.drop as.length, (List.take_append_drop _ _).symm,
    (List.forall₂_take_append _ _ _ h.flip).flip,
    (List.forall₂_drop_append _ _ _ h.flip).flip⟩

theorem expand_split {R : Chunk D × Nat → List Nat → Prop} {xs : List (List Nat)}
    (h : List.Forall₂ R (expand items) xs) :
    ∃ yss, yss.flatten = xs ∧
      List.Forall₂ (fun item ys => List.Forall₂ R (expand [item]) ys) items yss := by
  induction items generalizing xs with
  | nil =>
      cases h
      exact ⟨[], rfl, .nil⟩
  | cons item items ih =>
      have hsplit : expand (item :: items) = expand [item] ++ expand items := by
        simp [expand]
      rw [hsplit] at h
      obtain ⟨ys, zs, rfl, hys, hzs⟩ := forall₂_split h
      obtain ⟨yss, rfl, hyss⟩ := ih hzs
      exact ⟨ys :: yss, rfl, .cons hys hyss⟩

theorem collected_inside (hwf : ds.WellFormed) (hin : Inside ds e)
    (hfold : Foldable (dims ds e)) (b : Build) :
    ∃ fuel₀ items, ∀ fuel ≥ fuel₀, ds.collectSlices b fuel e = .ok items := by
  by_cases hzero : 0 ∈ counts (dims ds e)
  · exact ⟨1, [], fun _ => Dataset.collectSlices_of_le (hin.collect_empty hwf hzero 0)⟩
  · obtain ⟨fuel₀, items, hitems, -, -⟩ :=
      (hin.selects hzero).collect_of_foldable hwf hfold b
    exact ⟨fuel₀, items, fun _ => Dataset.collectSlices_of_le hitems⟩

theorem covers_selected (hwf : ds.WellFormed) (hin : Inside ds e)
    (hfold : Foldable (dims ds e)) {b : Build} {fuel : Nat}
    (hitems : ds.collectSlices b fuel e = .ok items) :
    ∃ yss, yss.flatten = walk ds e ∧ List.Forall₂ (Covers ds) items yss := by
  by_cases hzero : 0 ∈ counts (dims ds e)
  · obtain rfl := hin.items_of_empty hwf hzero hitems
    exact ⟨[], (walk_empty hin hzero).symm, .nil⟩
  · have h := hin.selects hzero
    obtain ⟨hwalk, hordered⟩ := slices_inside h hwf hfold hitems
    have hlt := (tagsApart_of_safe h hwf (.inr hfold) hitems).1.1
    obtain ⟨yss, hflatten, hyss⟩ := expand_split hwalk
    refine ⟨yss, hflatten, List.forall₂_iff_get.mpr ⟨hyss.length_eq, fun i hi hys => ?_⟩⟩
    have hitem : items.get ⟨i, hi⟩ ∈ items := List.get_mem _ _
    refine ⟨hlt _ hitem, (hordered _ hitem).2, hyss.get hi hys, fun x hx => ?_⟩
    have hmem : x ∈ walk ds e := by
      rw [← hflatten]
      exact List.mem_flatten.mpr ⟨_, List.get_mem _ _, hx⟩
    exact walk_inBox h hwf x hmem

theorem expand_chunk {item : Item D} : ∀ p ∈ expand [item], p.1 = item.1 := by
  rintro _ hp
  obtain ⟨n, -, rfl⟩ : ∃ n ∈ List.range' item.2.1 (item.2.2 - item.2.1),
      (item.1, n) = _ := by simpa [expand] using hp
  rfl

theorem Covers.located_at {item : Item D} {xs : List (List Nat)} (h : Covers ds item xs) :
    ∀ x ∈ xs, ∃ p, Located ds p x ∧ p.1 = item.1 := by
  intro x hx
  obtain ⟨i, hi, rfl⟩ := List.mem_iff_getElem.mp hx
  have hp : i < (expand [item]).length := h.located.length_eq ▸ hi
  exact ⟨_, h.located.get hp hi, expand_chunk _ (List.get_mem _ _)⟩

theorem Covers.ne_nil {item : Item D} {xs : List (List Nat)} (h : Covers ds item xs) :
    xs ≠ [] := by
  rintro rfl
  have hlen : 0 < sliceLen item := Nat.sub_pos_of_lt h.ordered
  have hnone := h.located.length_eq
  rw [length_expand] at hnone
  simp at hnone
  omega

/-! ## The bytes of a slice -/

theorem length_bytesOf (A : Values dsz) (xs : List (List Nat)) :
    (bytesOf A xs).length = xs.length * dsz :=
  length_flatMap_const _ fun x => (A x).toList_length

structure Cut (env : Env) (ds : Dataset D) (item : Item D) (piece : Bytes) : Prop where
  ordered : item.2.1 < item.2.2
  word : item.2.2 * ds.dsize < 2 ^ 64
  length_eq : piece.length = sliceLen item * ds.dsize
  inside : ∀ data, chunkData env ds (chunkSize ds) item.1 = .ok data →
    item.2.2 * ds.dsize ≤ data.length
  read : ∀ data, chunkData env ds (chunkSize ds) item.1 = .ok data →
    pieceOf env ds (chunkSize ds) item = .ok piece

structure LaidOut (env : Env) (ds : Dataset D) (n : Nat) (s : Segment D)
    (w : Write UInt8) : Prop where
  cut : Cut env ds (s.1, s.2.2) w.2
  place_eq : w.1 = s.2.1 * ds.dsize
  fits : w.Fits n

theorem Covers.cut (hA : PartlyCarries env ds A) {item : Item D} {xs : List (List Nat)}
    (h : Covers ds item xs) : Cut env ds item (bytesOf A xs) := by
  have hread : ∀ data, chunkData env ds (chunkSize ds) item.1 = .ok data →
      item.2.2 * ds.dsize ≤ data.length ∧
        pieceOf env ds (chunkSize ds) item = .ok (bytesOf A xs) := by
    intro data hdata
    have hstored : List.Forall₂
        (fun p x => StoredAt env ds (chunkSize ds) p (A x).toList) (expand [item]) xs := by
      refine List.forall₂_iff_get.mpr ⟨h.located.length_eq, fun i hp hx => ?_⟩
      refine hA.stored _ (h.inBox _ (List.get_mem _ _)) _ (h.located.get hp hx) data ?_
      rwa [expand_chunk _ (List.get_mem _ _)]
    obtain ⟨data', hdata', hend⟩ := chunk_holds (chunkSize ds) h.ordered fun p hp => by
      obtain ⟨i, hi, rfl⟩ := List.mem_iff_getElem.mp hp
      exact ⟨_, hstored.get hi (hstored.length_eq ▸ hi)⟩
    obtain rfl := Except.ok.inj (hdata.symm.trans hdata')
    have hpiece := pieceOf_eq h.ordered.le h.word hdata hend
    have hflatten := flatten_pieces hstored (by simpa using ⟨h.ordered.le, h.word⟩)
      (.cons hpiece .nil)
    rw [List.flatten_singleton] at hflatten
    exact ⟨hend, hflatten ▸ hpiece⟩
  refine ⟨h.ordered, h.word, ?_, fun data hdata => (hread data hdata).1, fun data hdata =>
    (hread data hdata).2⟩
  rw [length_bytesOf, ← h.located.length_eq, length_expand, hA.dsize_eq]
  simp

/-- The slices of a selection are cut from it, one after the other. -/
theorem PartlyCarries.cut (hA : PartlyCarries env ds A) (hwf : ds.WellFormed)
    (hin : Inside ds e) (hfold : Foldable (dims ds e)) {fuel : Nat}
    (hitems : ds.collectSlices env.build fuel e = .ok items) :
    ∃ pieces, pieces.flatten = selectedBytes ds A e ∧
      List.Forall₂ (Cut env ds) items pieces := by
  obtain ⟨yss, hflatten, hyss⟩ := covers_selected hwf hin hfold hitems
  refine ⟨yss.map (bytesOf A), ?_, ?_⟩
  · rw [← bytesOf_walk, ← hflatten, bytesOf, List.flatMap_def, List.map_flatten,
      List.flatten_flatten, List.map_map]
    rfl
  · rw [List.forall₂_map_right_iff]
    exact hyss.imp fun _ _ h => h.cut hA

section Pieces

variable (h : List.Forall₂ (Cut env ds) items pieces)
include h

theorem cut_ordered : ∀ item ∈ items, item.2.1 ≤ item.2.2 ∧
    item.2.2 * ds.dsize < 2 ^ 64 := by
  intro item hitem
  obtain ⟨i, hi, rfl⟩ := List.mem_iff_getElem.mp hitem
  have hcut := h.get hi (h.length_eq ▸ hi)
  exact ⟨hcut.ordered.le, hcut.word⟩

theorem sum_cut : (items.map sliceLen).sum * ds.dsize = pieces.flatten.length := by
  induction h with
  | nil => simp
  | cons hcut _ ih => simp [Nat.add_mul, ih, hcut.length_eq]

theorem piecesOf_cut (hread : ∀ item ∈ items,
    ∃ data, chunkData env ds (chunkSize ds) item.1 = .ok data) :
    PiecesOf env ds (chunkSize ds) items pieces := by
  induction h with
  | nil => exact .nil
  | cons hcut _ ih =>
      obtain ⟨⟨data, hdata⟩, hread⟩ := List.forall_mem_cons.mp hread
      exact .cons (hcut.read data hdata) (ih hread)

theorem available_cut (hwf : ds.WellFormed) (hdsize : ds.dsize = dsz)
    (hranked : e.Ranked ds.shape.toList) {fuel : Nat}
    (hitems : ds.collectSlices env.build fuel e = .ok items)
    (hflatten : pieces.flatten = selectedBytes ds A e)
    (hread : ∀ item ∈ items, ∃ data, chunkData env ds (chunkSize ds) item.1 = .ok data) :
    Available env ds e fuel (chunkSize ds) items pieces where
  chunkSz_eq := hwf.chunkBytes_eq
  collected := hitems
  ordered := cut_ordered h
  pieces_eq := piecesOf_cut h hread
  length_eq := by
    rw [hflatten, length_selectedBytes hdsize, (dims_fields hranked).2.2.2]

theorem laidOut_tagged {n before : Nat}
    (hfit : before * ds.dsize + pieces.flatten.length ≤ n) :
    List.Forall₂ (LaidOut env ds n) (tagged items before)
      (layout (before * ds.dsize) pieces) := by
  induction h generalizing before with
  | nil => exact .nil
  | @cons item piece items pieces hcut _ ih =>
      rw [List.flatten_cons, List.length_append] at hfit
      have hplace : (before + sliceLen item) * ds.dsize =
          before * ds.dsize + piece.length := by rw [Nat.add_mul, hcut.length_eq]
      have htail := @ih (before + sliceLen item) (by rw [hplace]; omega)
      rw [hplace] at htail
      refine .cons ⟨hcut, rfl, ?_⟩ htail
      change before * ds.dsize + piece.length ≤ n
      omega

end Pieces

theorem Carries.available (hA : Carries env ds A) (hwf : ds.WellFormed)
    (hin : Inside ds e) (hfold : Foldable (dims ds e)) :
    ∃ fuel₀ items pieces, pieces.flatten = selectedBytes ds A e ∧
      ∀ fuel ≥ fuel₀, Available env ds e fuel (chunkSize ds) items pieces := by
  obtain ⟨fuel₀, items, hcollect⟩ := collected_inside hwf hin hfold env.build
  have hitems := hcollect fuel₀ le_rfl
  obtain ⟨yss, -, hcovers⟩ := covers_selected hwf hin hfold hitems
  obtain ⟨pieces, hflatten, hcut⟩ := hA.partly.cut hwf hin hfold hitems
  have hread : ∀ item ∈ items,
      ∃ data, chunkData env ds (chunkSize ds) item.1 = .ok data := by
    intro item hitem
    obtain ⟨i, hi, rfl⟩ := List.mem_iff_getElem.mp hitem
    have hitem := hcovers.get hi (hcovers.length_eq ▸ hi)
    obtain ⟨x, hx⟩ := List.exists_mem_of_ne_nil _ hitem.ne_nil
    obtain ⟨p, hp, hchunk⟩ := hitem.located_at x hx
    obtain ⟨data, hdata, -⟩ := hA.stored x (hitem.inBox x hx) p hp
    exact ⟨data, hchunk ▸ hdata⟩
  exact ⟨fuel₀, items, pieces, hflatten, fun fuel hfuel =>
    available_cut hcut hwf hA.dsize_eq hin.ranked (hcollect fuel hfuel) hflatten hread⟩

end Hidefix.Reader
