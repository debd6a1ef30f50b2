import Hidefix.Filters.Endianness
import Hidefix.Reader.Groups

/-!
# The destination of a read

`values_to` reads the bytes of a selection into the front of the caller's slice, and
then converts the whole of the slice to the native byte order.  It returns the number
of bytes.  For values of one byte the conversion does nothing and the two numbers are
the same; longer values behind those of the selection are swapped where the stored
order is not the native one.
-/

namespace Hidefix.Reader

open Blocks
open Filters (Endian Order Scalar toNative swapAll)
open Foundation
open Idx
open MixedRadix
open Slices

variable {D : Nat} {env : Env} {ds : Dataset D} {e : Extents} {b : Build}

/-! ## What should be in the destination -/

def nativeWord (host : Endian) (order : Order) (value : Bytes) : Bytes :=
  if order = .unknown ∨ order = .native host then value else value.reverse

/-- The value at a position of a chunk, as it is stored. -/
def StoredAt (env : Env) (ds : Dataset D) (chunkSz : Nat) (p : Chunk D × Nat)
    (value : Bytes) : Prop :=
  ∃ data, chunkData env ds chunkSz p.1 = .ok data ∧
    (p.2 + 1) * ds.dsize ≤ data.length ∧
    value = (data.drop (p.2 * ds.dsize)).take ds.dsize

/-- The selected values, in row-major order and in the native byte order. -/
def SelectedValues (env : Env) (ds : Dataset D) (e : Extents)
    (values : List Bytes) : Prop :=
  ∃ chunkSz, ds.chunkBytes env.build = .ok chunkSz ∧
    List.Forall₂ (fun x value => ∃ p stored, Located ds p x ∧
      StoredAt env ds chunkSz p stored ∧
      value = nativeWord env.host ds.order stored) (walk ds e) values

/--
As many values are returned as are selected, they are in the front of the
destination, and the values behind them are as they were.
-/
structure ReadsValues (env : Env) (ds : Dataset D) (e : Extents) (T : Scalar)
    (dst dst' : Bytes) (r : Nat) : Prop where
  count : r = (e.counts ds.shape.toList).prod
  values : SelectedValues env ds e
    (blocks T.sizeOf (e.counts ds.shape.toList).prod dst')
  frame : dst'.drop ((e.counts ds.shape.toList).prod * T.sizeOf) =
    dst.drop ((e.counts ds.shape.toList).prod * T.sizeOf)

def KeepsValues (host : Endian) (T : Scalar) (order : Order) (dst : Bytes) : Prop :=
  order = .unknown ∨ order = .native host ∨
    ∀ value ∈ blocks T.sizeOf (dst.length / T.sizeOf) dst, T.swap host value = value

/-- Values of one byte, or no values and nothing to convert. -/
def Agrees (env : Env) (ds : Dataset D) (e : Extents) (T : Scalar)
    (dst : Bytes) : Prop :=
  ds.dsize = 1 ∨ 0 ∈ e.counts ds.shape.toList ∧ KeepsValues env.host T ds.order dst

/-! ## Conversions -/

section Conversions

variable {host : Endian} {T : Scalar} {order : Order}

theorem toNative_eq (values : Bytes) :
    toNative host T order values =
      if order = .unknown ∨ order = .native host then values
      else swapAll host T values := by
  cases host <;> cases order <;> rfl

theorem toNative_append {xs ys : Bytes} (h : T.sizeOf ∣ xs.length) :
    toNative host T order (xs ++ ys) =
      toNative host T order xs ++ toNative host T order ys := by
  simp only [toNative_eq]
  split
  · rfl
  · exact mapBlocks_append h

theorem blocks_toNative {values : Bytes} {k : Nat} (h : values.length = k * T.sizeOf)
    (hswap : host = .little ∨ T.isFloat = false) :
    blocks T.sizeOf k (toNative host T order values) =
      (blocks T.sizeOf k values).map (nativeWord host order) := by
  rw [toNative_eq]
  unfold nativeWord
  split
  · exact (List.map_id _).symm
  · rw [Filters.blocks_swapAll h]
    apply List.map_congr_left
    intro value hvalue
    exact Filters.swap_reverse hswap (length_of_mem_blocks h hvalue)

theorem toNative_eq_self_iff {dst : Bytes} (h : T.sizeOf ∣ dst.length) :
    toNative host T order dst = dst ↔ KeepsValues host T order dst := by
  have hlen : dst.length = dst.length / T.sizeOf * T.sizeOf :=
    (Nat.div_mul_cancel h).symm
  rw [toNative_eq, KeepsValues, ← or_assoc]
  split
  · rename_i hkept
    exact iff_of_true rfl (.inl hkept)
  · rename_i hswapped
    rw [or_iff_right hswapped]
    constructor
    · intro hsame
      have hblocks : blocks T.sizeOf _ (swapAll host T dst) = _ :=
        Filters.blocks_swapAll hlen
      rw [hsame] at hblocks
      intro value hvalue
      exact (List.map_inj_left.mp ((List.map_id _).trans hblocks) value hvalue).symm
    · intro hkeeps
      rw [swapAll, mapBlocks, List.flatMap_def, List.map_congr_left hkeeps, List.map_id',
        flatten_blocks hlen]

theorem toNative_single (hT : T.sizeOf = 1) (dst : Bytes) :
    toNative host T order dst = dst := by
  rw [toNative_eq_self_iff (by rw [hT]; exact Nat.one_dvd _)]
  right
  right
  intro value _
  cases T <;> first | rfl | cases hT

end Conversions

/-! ## The values of the slices -/

section Values

variable {chunkSz : Nat} {items : List (Item D)} {pieces : List Bytes}

theorem piece_values {item : Item D} {piece : Bytes} (hle : item.2.1 ≤ item.2.2)
    (hword : item.2.2 * ds.dsize < 2 ^ 64)
    (h : pieceOf env ds chunkSz item = .ok piece) :
    piece.length = (expand [item]).length * ds.dsize ∧
      List.Forall₂ (StoredAt env ds chunkSz) (expand [item])
        (blocks ds.dsize (expand [item]).length piece) := by
  rcases item with ⟨c, start, stop⟩
  simp only at hle hword
  have hstart : start * ds.dsize ≤ stop * ds.dsize := Nat.mul_le_mul_right _ hle
  have hlen : (expand [(c, start, stop)]).length = stop - start := by simp [expand]
  rcases bind_eq_ok.mp h with ⟨data, hdata, h⟩
  simp only at h
  rw [mulU64_eq (hstart.trans_lt hword), ok_bind, mulU64_eq hword, ok_bind] at h
  rcases indexRange_ok h with ⟨-, hstop, hpiece⟩
  rw [← Nat.sub_mul] at hpiece
  rw [hlen]
  constructor
  · rw [length_indexRange h, Nat.sub_mul]
  · rw [hpiece, blocks_range]
    simp only [expand, List.flatMap_cons, List.flatMap_nil, List.append_nil]
    rw [List.forall₂_map_left_iff, List.forall₂_map_right_iff, List.forall₂_same]
    intro p hp
    rw [List.mem_range'_1] at hp
    have hend : (p + 1) * ds.dsize ≤ stop * ds.dsize :=
      Nat.mul_le_mul_right _ (by omega)
    exact ⟨data, hdata, hend.trans hstop, rfl⟩

theorem pieces_values
    (hitems : ∀ item ∈ items, item.2.1 ≤ item.2.2 ∧ item.2.2 * ds.dsize < 2 ^ 64)
    (h : PiecesOf env ds chunkSz items pieces) :
    pieces.flatten.length = (expand items).length * ds.dsize ∧
      List.Forall₂ (StoredAt env ds chunkSz) (expand items)
        (blocks ds.dsize (expand items).length pieces.flatten) := by
  induction h with
  | nil => exact ⟨by simp [expand], .nil⟩
  | @cons item piece items pieces hpiece _ ih =>
      rw [List.forall_mem_cons] at hitems
      rcases piece_values hitems.1.1 hitems.1.2 hpiece with ⟨hlen, hvalues⟩
      rcases ih hitems.2 with ⟨hrest, hall⟩
      have hsplit : expand (item :: items) = expand [item] ++ expand items := by
        simp [expand]
      rw [hsplit, List.flatten_cons, List.length_append, List.length_append, hlen, hrest,
        blocks_append hlen, Nat.add_mul]
      exact ⟨rfl, List.rel_append hvalues hall⟩

theorem slices_inside (h : Selects ds e) (hwf : ds.WellFormed)
    (hfold : Foldable (dims ds e)) {fuel : Nat}
    (hitems : ds.collectSlices b fuel e = .ok items) :
    List.Forall₂ (Located ds) (expand items) (walk ds e) ∧
      ∀ item ∈ items, item.2.1 ≤ item.2.2 ∧ item.2.2 * ds.dsize < 2 ^ 64 := by
  rcases h.collect_of_foldable hwf hfold b with ⟨fuel', items', hcollect, hwalk, -⟩
  have hsame := collectSlices_unique hitems hcollect
  subst hsame
  refine ⟨hwalk, fun item hitem => ?_⟩
  rcases item with ⟨c, start, stop⟩
  have hlt : start < stop := (tagsApart_of_safe h hwf (.inr hfold) hitems).1.1 _ hitem
  exact ⟨hlt.le, stop_word hwf hwalk hitem hlt⟩

end Values

/-! ## What is read -/

section Reads

variable {read : Nat → ReadTo} {fuel r : Nat} {T : Scalar} {dst dst' : Bytes}

theorem Filled.dst_of_empty {n chunkSz : Nat} {items : List (Item D)}
    {pieces : List Bytes} (hf : Filled env ds e fuel dst dst' n chunkSz items pieces)
    (h : Inside ds e) (hwf : ds.WellFormed) (hzero : 0 ∈ counts (dims ds e)) :
    dst' = dst := by
  have hempty := h.items_of_empty hwf hzero hf.collected
  subst hempty
  have hpieces := hf.pieces_eq
  cases hpieces
  exact hf.prefix_eq (Nat.two_pow_pos 64)

theorem forall₂_join {α β γ : Type} {R : α → β → Prop} {S : α → γ → Prop}
    {ps : List α} {xs : List β} {values : List γ} (h : List.Forall₂ R ps xs)
    (h' : List.Forall₂ S ps values) :
    List.Forall₂ (fun x value => ∃ p, R p x ∧ S p value) xs values := by
  induction h generalizing values with
  | nil =>
      cases h'
      exact .nil
  | cons hx _ ih =>
      cases h' with
      | cons hvalue hvalues => exact .cons ⟨_, hx, hvalue⟩ (ih hvalues)

/-- The selected values are in front, and what is behind them is only converted. -/
theorem Filled.selected {n chunkSz : Nat} {items : List (Item D)} {raw : Bytes}
    {pieces : List Bytes} (hf : Filled env ds e fuel dst raw n chunkSz items pieces)
    (h : Selects ds e) (hwf : ds.WellFormed) (hfold : Foldable (dims ds e))
    (hT : T.sizeOf = ds.dsize) (hswap : env.host = .little ∨ T.isFloat = false) :
    SelectedValues env ds e (blocks T.sizeOf (e.counts ds.shape.toList).prod
        (toNative env.host T ds.order raw)) ∧
      (toNative env.host T ds.order raw).drop
          ((e.counts ds.shape.toList).prod * T.sizeOf) =
        toNative env.host T ds.order
          (dst.drop ((e.counts ds.shape.toList).prod * T.sizeOf)) := by
  rcases slices_inside h hwf hfold hf.collected with ⟨hwalk, hinside⟩
  rcases pieces_values hinside hf.pieces_eq with ⟨hlen, hvalues⟩
  have hcount : (expand items).length = (e.counts ds.shape.toList).prod := by
    rw [hwalk.length_eq, h.walk_eq_walkFrom, length_walkFrom, Nat.sub_zero,
      (dims_fields h.ranked).2.2.2]
  rw [hcount, ← hT] at hlen
  rw [hcount, ← hT] at hvalues
  have hword : pieces.flatten.length < 2 ^ 64 := by
    have hfits := (h.toInside.fitsU64 hwf).prod_lt
    rw [List.prod_append, List.prod_singleton, (dims_fields h.ranked).2.2.2] at hfits
    rwa [hlen, hT]
  generalize (e.counts ds.shape.toList).prod = total at hlen hvalues hcount
  have hdvd : T.sizeOf ∣ pieces.flatten.length := hlen ▸ Nat.dvd_mul_left _ _
  have hfront : (toNative env.host T ds.order pieces.flatten).length =
      total * T.sizeOf := by
    rw [Filters.length_toNative hdvd, hlen]
  rw [hf.prefix_eq hword, toNative_append hdvd]
  constructor
  · refine ⟨chunkSz, hf.chunkSz_eq, ?_⟩
    have hblocks : ∀ rest : Bytes, blocks T.sizeOf (total + 0)
        (toNative env.host T ds.order pieces.flatten ++ rest) =
          (blocks T.sizeOf total pieces.flatten).map (nativeWord env.host ds.order) := by
      intro rest
      rw [blocks_append hfront, blocks_toNative hlen hswap, blocks, List.append_nil]
    rw [Nat.add_zero] at hblocks
    rw [hblocks, List.forall₂_map_right_iff]
    apply (forall₂_join hwalk hvalues).imp
    rintro x stored ⟨p, hlocated, hstored⟩
    exact ⟨p, stored, hlocated, hstored, rfl⟩
  · rw [List.drop_left' hfront, hlen]

theorem walk_empty (h : Inside ds e) (hzero : 0 ∈ counts (dims ds e)) :
    walk ds e = [] := by
  have hcoords : rowMajor (e.counts ds.shape.toList) = [] := by
    rw [← (dims_fields h.ranked).2.2.2, List.eq_nil_iff_forall_not_mem]
    intro os hos
    exact absurd ((mem_rowMajor.mp hos).pos 0 hzero) (by decide)
  rw [walk, hcoords, List.map_nil]

section Agreement

variable {n chunkSz : Nat} {items : List (Item D)} {pieces : List Bytes} {raw : Bytes}

theorem Filled.agrees (hf : Filled env ds e fuel dst raw r chunkSz items pieces)
    (h : Inside ds e) (hwf : ds.WellFormed) (hdst : T.sizeOf ∣ dst.length)
    (hreads : ReadsValues env ds e T dst (toNative env.host T ds.order raw) r) :
    Agrees env ds e T dst := by
  have hcounts := (dims_fields h.ranked).2.2.2
  have hcount := hreads.count
  rw [(ensureCapacity_ok h hwf hf.capacity).1, hcounts] at hcount
  rcases Nat.eq_zero_or_pos (e.counts ds.shape.toList).prod with hprod | hpos
  · right
    have hzero : 0 ∈ e.counts ds.shape.toList := List.prod_eq_zero_iff.mp hprod
    have hframe := hreads.frame
    rw [hprod, Nat.zero_mul, List.drop_zero, List.drop_zero,
      hf.dst_of_empty h hwf (hcounts ▸ hzero)] at hframe
    exact ⟨hzero, (toNative_eq_self_iff hdst).mp hframe⟩
  · left
    exact Nat.eq_of_mul_eq_mul_left hpos (hcount.trans (Nat.mul_one _).symm)

theorem Filled.reads_of_empty
    (hf : Filled env ds e fuel dst raw r chunkSz items pieces)
    (h : Inside ds e) (hwf : ds.WellFormed) (hzero : 0 ∈ e.counts ds.shape.toList)
    (hkept : toNative env.host T ds.order dst = dst) :
    ReadsValues env ds e T dst (toNative env.host T ds.order raw) r := by
  have hcounts := (dims_fields h.ranked).2.2.2
  have hprod : (e.counts ds.shape.toList).prod = 0 := List.prod_eq_zero hzero
  rw [hf.dst_of_empty h hwf (hcounts ▸ hzero), hkept]
  constructor
  · rw [(ensureCapacity_ok h hwf hf.capacity).1, hcounts, hprod, Nat.zero_mul]
  · rw [hprod]
    refine ⟨chunkSz, hf.chunkSz_eq, ?_⟩
    rw [walk_empty h (hcounts ▸ hzero)]
    exact .nil
  · rfl

theorem Filled.reads_of_single
    (hf : Filled env ds e fuel dst raw r chunkSz items pieces)
    (h : Selects ds e) (hwf : ds.WellFormed) (hfold : Foldable (dims ds e))
    (hT : T.sizeOf = ds.dsize) (hone : ds.dsize = 1) :
    ReadsValues env ds e T dst (toNative env.host T ds.order raw) r := by
  have hsingle : T.sizeOf = 1 := hT.trans hone
  have hfloat : T.isFloat = false := by
    cases T <;> first | rfl | cases hsingle
  rcases hf.selected h hwf hfold hT (.inr hfloat) with ⟨hvalues, hframe⟩
  refine ⟨?_, hvalues, ?_⟩
  · rw [(ensureCapacity_ok h.toInside hwf hf.capacity).1,
      (dims_fields h.ranked).2.2.2, hone, Nat.mul_one]
  · rw [hframe, toNative_single hsingle]

end Agreement

/--
A reader that returns has read the values of the selection, and nothing else, only
where these are of one byte, or where there is nothing to read and nothing to convert.
There it has for every selection that is folded correctly.
-/
theorem readsValues_iff (ds : Dataset D) (hwf : ds.WellFormed) (e : Extents)
    (h : Inside ds e) (env : Env) (read : Nat → ReadTo) (hread : Method env ds read)
    (T : Scalar) (hT : T.sizeOf = ds.dsize) (dst : Bytes) (hdst : T.sizeOf ∣ dst.length)
    (fuel : Nat) (dst' : Bytes) (r : Nat)
    (hok : valuesTo env.host (read fuel) T ds.order e dst = .ok (dst', r)) :
    (ReadsValues env ds e T dst dst' r → Agrees env ds e T dst) ∧
      (Foldable (dims ds e) →
        (ReadsValues env ds e T dst dst' r ↔ Agrees env ds e T dst)) := by
  rcases bind_eq_ok.mp hok with ⟨⟨raw, n⟩, hraw, hok⟩
  cases hok
  rcases hread.filled hwf.addr_nodup hraw with ⟨chunkSz, items, pieces, hf⟩
  have hnecessary := hf.agrees (T := T) h hwf hdst
  refine ⟨hnecessary, fun hfold => ⟨hnecessary, fun hagrees => ?_⟩⟩
  by_cases hzero : 0 ∈ e.counts ds.shape.toList
  · apply hf.reads_of_empty h hwf hzero
    rcases hagrees with hone | ⟨-, hkeeps⟩
    · exact toNative_single (hT.trans hone) dst
    · exact (toNative_eq_self_iff hdst).mpr hkeeps
  · have hone : ds.dsize = 1 := hagrees.resolve_right fun hempty => hzero hempty.1
    have hselects := h.selects ((dims_fields h.ranked).2.2.2 ▸ hzero)
    exact hf.reads_of_single hselects hwf hfold hT hone

end Reads

theorem readsValues_iff_cube :
    (ReadsValues (.addresses .release 72) cube .all .u8 (List.replicate 9 0)
        [64, 65, 66, 67, 68, 69, 70, 71, 0] 8 →
      Agrees (.addresses .release 72) cube .all .u8 (List.replicate 9 0)) ∧
    (Foldable (dims cube .all) →
      (ReadsValues (.addresses .release 72) cube .all .u8 (List.replicate 9 0)
          [64, 65, 66, 67, 68, 69, 70, 71, 0] 8 ↔
        Agrees (.addresses .release 72) cube .all .u8 (List.replicate 9 0))) :=
  readsValues_iff cube cube_wellFormed .all ⟨by decide, by decide⟩ _ _
    (.direct ⟨cube, 8⟩ rfl (.insertion _)) .u8 rfl _ (by decide) 2 _ _ rfl

/-! ## Two big-endian values -/

def pair : Dataset 1 where
  dtype := .uint 2
  dsize := 2
  order := .be
  chunks := [⟨ULE.new 64, ULE.new 4, ULE.new 0 ::ᵥ .nil⟩]
  shape := 2 ::ᵥ .nil
  chunkShape := 2 ::ᵥ .nil
  chunkShapeReduced := 2 ::ᵥ .nil
  scaledDimSz := 1 ::ᵥ .nil
  dimSz := 1 ::ᵥ .nil
  chunkDimSz := 1 ::ᵥ .nil
  shuffle := false
  gzip := none

theorem pair_wellFormed : pair.WellFormed :=
  .of_grid (by decide) ⟨rfl, rfl, rfl, rfl, rfl⟩
    (.of_prod_lt (by decide) (by decide) (by decide) (by decide) (by decide)
      (by decide) (.cons (by decide) .nil))
    (by decide) (by decide)

/--
A destination of three values for a selection of two: the third is swapped, and four
is returned.
-/
theorem not_readsValues_pair :
    pair.WellFormed ∧ Inside pair .all ∧
      valuesTo .little ((⟨pair, 4⟩ : Direct 1).readTo (.addresses .release 68)
        (.insertion _) 2) .u16 .be .all [0, 0, 0, 0, 0, 1] =
          .ok ([65, 64, 67, 66, 1, 0], 4) ∧
      valuesTo .little ((⟨pair, 4⟩ : Direct 1).readToPar (.addresses .release 68)
        (.insertion _) ⟨id, fun _ => .refl _⟩ 2) .u16 .be .all [0, 0, 0, 0, 0, 1] =
          .ok ([65, 64, 67, 66, 1, 0], 4) ∧
      ¬ ReadsValues (.addresses .release 68) pair .all .u16 [0, 0, 0, 0, 0, 1]
        [65, 64, 67, 66, 1, 0] 4 := by
  refine ⟨pair_wellFormed, ⟨by decide, by decide⟩, rfl, rfl, fun hreads => ?_⟩
  exact absurd hreads.count (by decide)

end Hidefix.Reader
