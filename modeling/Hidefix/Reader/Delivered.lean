import Hidefix.Reader.Partly

/-!
# Readers deliver slices

Of a file that holds an array every reader returns the slice that is selected, in
whatever state earlier reads have left it.  The values are those of the slice in the
native order, and parts of a selection are read to the values of the whole.
-/

namespace Hidefix.Reader

open Filters (Endian Order Scalar toNative)
open Foundation
open Idx
open Slices

variable {D dsz : Nat} {env : Env} {ds : Dataset D} {e : Extents} {A : Values dsz}
variable {host : Endian}

/-! ## Every reader returns the slice -/

/-- The selected values are written to the front of every destination that holds them. -/
def Delivers (read : ReadTo) (ds : Dataset D) (A : Values dsz) (e : Extents) : Prop :=
  ∀ dst : Bytes, (selectedBytes ds A e).length ≤ dst.length → dst.length < 2 ^ 63 →
    read e dst = .ok (selectedBytes ds A e ++ dst.drop (selectedBytes ds A e).length,
      (selectedBytes ds A e).length)

theorem Carries.delivers (hA : Carries env ds A) (hwf : ds.WellFormed)
    (hpos : 0 < ds.dsize) (hin : Inside ds e) (hfold : Foldable (dims ds e)) :
    ∃ fuel₀, ∀ fuel ≥ fuel₀, ∀ read, Method env ds read →
      Delivers (read fuel) ds A e := by
  obtain ⟨fuel₀, items, pieces, hflatten, havailable⟩ := hA.available hwf hin hfold
  refine ⟨fuel₀, fun fuel hfuel read hread dst hcap hdst => ?_⟩
  have h := havailable fuel hfuel
  rw [← hflatten] at hcap ⊢
  exact h.reads hwf hin hpos (h.length_eq ▸ hcap) hdst hread

def pairValues : Values 2 := fun x =>
  .ofFn fun i => UInt8.ofNat (64 + 2 * x.headD 0 + i)

theorem carries_pair : Carries (.addresses .release 68) pair pairValues where
  dsize_eq := rfl
  whole := by
    intro c hc data hdata
    obtain rfl := List.mem_singleton.mp hc
    cases hdata
    rfl
  stored := by
    intro x hx p hp
    obtain ⟨hmem, -, hposition⟩ := hp
    obtain ⟨c, pos⟩ := p
    obtain rfl := List.mem_singleton.mp hmem
    cases hx with
    | @cons i _ _ _ hi htail =>
        cases htail
        have hzero : (ULE.new 0).get = 0 := rfl
        obtain rfl : pos = i := by simpa [pair, Chunk.offsetU64, hzero] using hposition
        have hi : pos < 2 := hi
        obtain rfl | rfl : pos = 0 ∨ pos = 1 := by omega
        · exact ⟨[64, 65, 66, 67], rfl, by decide, rfl⟩
        · exact ⟨[64, 65, 66, 67], rfl, by decide, rfl⟩

def splitPair : Dataset 1 where
  dtype := .uint 2
  dsize := 2
  order := .be
  chunks := [⟨.new 64, .new 2, .new 0 ::ᵥ .nil⟩, ⟨.new 66, .new 2, .new 1 ::ᵥ .nil⟩]
  shape := 2 ::ᵥ .nil
  chunkShape := 1 ::ᵥ .nil
  chunkShapeReduced := 1 ::ᵥ .nil
  scaledDimSz := 1 ::ᵥ .nil
  dimSz := 1 ::ᵥ .nil
  chunkDimSz := 1 ::ᵥ .nil
  shuffle := false
  gzip := none

theorem splitPair_wellFormed : splitPair.WellFormed :=
  .of_grid (by decide) ⟨rfl, rfl, rfl, rfl, rfl⟩
    (.of_prod_lt (by decide) (by decide) (by decide) (by decide) (by decide)
      (by decide) (.cons (by decide) .nil))
    (by decide) (by decide)

theorem carries_splitPair {n : Nat} (hn : n = 66 ∨ n = 68) :
    PartlyCarries (.addresses .release n) splitPair pairValues where
  dsize_eq := rfl
  stored := by
    rintro x hx ⟨c, pos⟩ ⟨hmem, hcontains, hposition⟩ data hdata
    cases hx with
    | @cons i _ _ _ hi htail =>
        cases htail
        have hzero : (ULE.new 0).get = 0 := rfl
        have hone : (ULE.new 1).get = 1 := rfl
        obtain rfl | rfl : c = splitPair.chunks[0] ∨ c = splitPair.chunks[1] := by
          simpa [splitPair] using hmem
        · obtain rfl : i = 0 := by
            simpa [splitPair, Chunk.offsetU64, hzero] using hcontains
          obtain rfl : pos = 0 := by
            simpa [splitPair, Chunk.offsetU64, hzero] using hposition
          rcases hn with rfl | rfl <;> exact ⟨[64, 65], rfl, by decide, rfl⟩
        · obtain rfl : i = 1 := by
            have := hcontains
            simp [splitPair, Chunk.offsetU64, hone] at this
            omega
          obtain rfl : pos = 0 := by
            simpa [splitPair, Chunk.offsetU64, hone] using hposition
          rcases hn with rfl | rfl
          · cases hdata
          · exact ⟨[66, 67], rfl, by decide, rfl⟩

/--
What is read of a file that holds an array is the slice of the array: by a reader with
a cache after any reads before, and directly in any order of the chunks.
-/
theorem reads_array (ds : Dataset D) (hwf : ds.WellFormed) (hpos : 0 < ds.dsize)
    (A : Values dsz) (hA : Carries env ds A) (e : Extents) (hin : Inside ds e)
    (hfold : Foldable (dims ds e)) :
    ∃ fuel₀, ∀ fuel ≥ fuel₀, ∀ read, Method env ds read →
      Delivers (read fuel) ds A e :=
  hA.delivers hwf hpos hin hfold

theorem reads_array_pair : ∃ fuel₀, ∀ fuel ≥ fuel₀, ∀ read,
    Method (.addresses .release 68) pair read → Delivers (read fuel) pair pairValues .all :=
  reads_array pair pair_wellFormed (by decide) pairValues carries_pair .all
    ⟨by decide, by decide⟩ (by decide)

section Values

variable {read : ReadTo} {T : Scalar} {b : Build} {memory : Memory}

theorem Delivers.valuesTo (h : Delivers read ds A e) (hT : T.sizeOf = dsz)
    (hswap : host = .little ∨ T.isFloat = false) {dst : Bytes}
    (hlen : dst.length = (selectedBytes ds A e).length) (hdst : dst.length < 2 ^ 63) :
    Reader.valuesTo host read T ds.order e dst =
      .ok (selectedNative host ds A e, (selectedBytes ds A e).length) := by
  have hrest : dst.drop (selectedBytes ds A e).length = [] := by simp [← hlen]
  have hnative : toNative host T ds.order (selectedBytes ds A e) =
      selectedNative host ds A e := toNative_storedBytes hT hswap A
  simp [Reader.valuesTo, h dst hlen.ge hdst, hrest, hnative]

theorem ensureElements_self {vsz : Nat} (hword : T.sizeOf * vsz < 2 ^ 64) :
    ensureElements b T T.sizeOf vsz = .ok () := by
  simp [ensureElements, mulU64_eq hword, Scalar.alignOf]

theorem allocate_exists (memory : Memory) {n : Nat} (h : n < 2 ^ 63) :
    ∃ dst, allocate memory n = .ok dst ∧ dst.length = n :=
  ⟨_, allocate_eq memory h, (memory n).toList_length⟩

structure Elements (b : Build) (ds : Dataset D) (e : Extents) (T : Scalar) : Prop where
  counts : e.getCounts ds.shape.toList = .ok (e.counts ds.shape.toList)
  product : productU64 b (e.counts ds.shape.toList) =
    .ok (e.counts ds.shape.toList).prod
  bytes : mulU64 b (e.counts ds.shape.toList).prod ds.dsize =
    .ok ((e.counts ds.shape.toList).prod * ds.dsize)
  values : (e.counts ds.shape.toList).prod * ds.dsize / T.sizeOf =
    (e.counts ds.shape.toList).prod
  checked : ensureElements b T ds.dsize (e.counts ds.shape.toList).prod = .ok ()

theorem elements_inside (hwf : ds.WellFormed) (hin : Inside ds e)
    (hT : T.sizeOf = ds.dsize) : Elements b ds e T := by
  have hcounts := (dims_fields hin.ranked).2.2.2
  have hfits := hin.fitsU64_counts hwf
  have hword := (hin.fitsU64 hwf).prod_lt
  rw [hcounts] at hfits hword
  rw [List.prod_append, List.prod_singleton] at hword
  refine ⟨Extents.getCounts_ranked hin.ranked, productU64_eq hfits, mulU64_eq hword, ?_,
    ?_⟩
  · rw [← hT, Nat.mul_div_cancel _ T.sizeOf_pos]
  · rw [← hT] at hword ⊢
    exact ensureElements_self (by rwa [Nat.mul_comm])

theorem Delivers.values (h : Delivers read ds A e) (hwf : ds.WellFormed)
    (hin : Inside ds e) (hdsize : ds.dsize = dsz) (hT : T.sizeOf = dsz)
    (hswap : host = .little ∨ T.isFloat = false)
    (hsize : (selectedBytes ds A e).length < 2 ^ 63) (unstable : Bool) :
    Reader.values b host unstable memory T ds read e =
      .ok (selectedNative host ds A e) := by
  have helements := elements_inside (b := b) hwf hin (hT.trans hdsize.symm)
  have hlen : (selectedBytes ds A e).length =
      (e.counts ds.shape.toList).prod * T.sizeOf := by
    simp [length_selectedBytes hdsize, hdsize, hT]
  have hmemory : ∃ dst,
      emptyVec unstable memory T (e.counts ds.shape.toList).prod = .ok dst ∧
        dst.length = (selectedBytes ds A e).length := by
    rw [hlen] at hsize ⊢
    unfold emptyVec
    split <;> exact allocate_exists _ hsize
  obtain ⟨dst, halloc, hdst⟩ := hmemory
  have hread := h.valuesTo hT hswap hdst (hdst ▸ hsize)
  simp [Reader.values, helements.counts, helements.product, helements.bytes,
    helements.values, helements.checked, halloc, hread]

theorem Delivers.valuesDynPar (h : Delivers read ds A e) (hwf : ds.WellFormed)
    (hin : Inside ds e) (hdsize : ds.dsize = dsz) (hT : T.sizeOf = dsz)
    (hswap : host = .little ∨ T.isFloat = false)
    (hsize : (selectedBytes ds A e).length < 2 ^ 63)
    (hdims : ((e.counts ds.shape.toList).filter (· ≠ 0)).prod < 2 ^ 63) :
    Reader.valuesDynPar b host memory T ds read e =
      .ok (selectedNative host ds A e) := by
  have helements := elements_inside (b := b) hwf hin (hT.trans hdsize.symm)
  have hlen : (selectedBytes ds A e).length =
      (e.counts ds.shape.toList).prod * T.sizeOf := by
    simp [length_selectedBytes hdsize, hdsize, hT]
  obtain ⟨dst, halloc, hdst⟩ := allocate_exists memory (hlen ▸ hsize)
  have hmemory : uninitArray memory T (e.counts ds.shape.toList) = .ok dst := by
    rw [uninitArray, if_pos hdims, halloc]
  have hread := h.valuesTo hT hswap (hdst.trans hlen.symm) (by rwa [hdst, ← hlen])
  simp [Reader.valuesDynPar, helements.counts, helements.product, helements.bytes,
    helements.values, helements.checked, hmemory, hread]

end Values

/--
The values of a file that holds an array, by every reader and in every build, are the
slice of the array in the native order.  An array of them needs its dimensions, without
the empty ones, to fit.
-/
theorem values_array (ds : Dataset D) (hwf : ds.WellFormed) (hpos : 0 < ds.dsize)
    (A : Values dsz) (hA : Carries env ds A) (e : Extents) (hin : Inside ds e)
    (hfold : Foldable (dims ds e)) (T : Scalar) (hT : T.sizeOf = dsz)
    (hswap : env.host = .little ∨ T.isFloat = false)
    (hsize : (e.counts ds.shape.toList).prod * dsz < 2 ^ 63) (memory : Memory) :
    ∃ fuel₀, ∀ fuel ≥ fuel₀, ∀ read, Method env ds read →
      (∀ unstable, values env.build env.host unstable memory T ds (read fuel) e =
        .ok (selectedNative env.host ds A e)) ∧
      (((e.counts ds.shape.toList).filter (· ≠ 0)).prod < 2 ^ 63 →
        valuesDynPar env.build env.host memory T ds (read fuel) e =
          .ok (selectedNative env.host ds A e)) := by
  obtain ⟨fuel₀, hdelivers⟩ := hA.delivers hwf hpos hin hfold
  have hbytes : (selectedBytes ds A e).length < 2 ^ 63 := by
    rwa [length_selectedBytes hA.dsize_eq, hA.dsize_eq]
  refine ⟨fuel₀, fun fuel hfuel read hread => ⟨fun unstable => ?_, fun hdims => ?_⟩⟩
  · exact (hdelivers fuel hfuel read hread).values hwf hin hA.dsize_eq hT hswap hbytes
      unstable
  · exact (hdelivers fuel hfuel read hread).valuesDynPar hwf hin hA.dsize_eq hT hswap
      hbytes hdims

theorem values_array_pair : ∃ fuel₀, ∀ fuel ≥ fuel₀, ∀ read,
    Method (.addresses .release 68) pair read →
      (∀ unstable, values .release .little unstable .zeroed .u16 pair (read fuel) .all =
        .ok [65, 64, 67, 66]) ∧
      (((Extents.all.counts [2]).filter (· ≠ 0)).prod < 2 ^ 63 →
        valuesDynPar .release .little .zeroed .u16 pair (read fuel) .all =
          .ok [65, 64, 67, 66]) :=
  values_array pair pair_wellFormed (by decide) pairValues carries_pair .all
    ⟨by decide, by decide⟩ (by decide) .u16 rfl (.inl rfl) (by decide) .zeroed

/-! ## Reading in parts -/

def layers (rest : List Extent) (s n : Nat) : Extents :=
  .extent (.sliceCount s n :: rest)

def parted (rest : List Extent) (s : Nat) (parts : List Nat) : List Extents :=
  (parts.zip (parts.scanl (· + ·) s)).map fun p => layers rest p.2 p.1

section Parts

variable {rest : List Extent} {s n m : Nat} {parts : List Nat}

theorem eventually_all {α : Type} {P : α → Nat → Prop} {l : List α}
    (h : ∀ x ∈ l, ∃ fuel₀, ∀ fuel ≥ fuel₀, P x fuel) :
    ∃ fuel₀, ∀ fuel ≥ fuel₀, ∀ x ∈ l, P x fuel := by
  induction l with
  | nil => exact ⟨0, by simp⟩
  | cons x l ih =>
      obtain ⟨⟨m, hm⟩, hl⟩ := List.forall_mem_cons.mp h
      obtain ⟨n, hn⟩ := ih hl
      refine ⟨max m n, fun fuel hfuel => List.forall_mem_cons.mpr ⟨?_, ?_⟩⟩
      · exact hm fuel (le_of_max_le_left hfuel)
      · exact hn fuel (le_of_max_le_right hfuel)

theorem part_le {p : Nat × Nat} (hp : p ∈ parts.zip (parts.scanl (· + ·) s)) :
    p.2 + p.1 ≤ s + parts.sum := by
  induction parts generalizing s with
  | nil => simp at hp
  | cons n parts ih =>
      rw [List.scanl_cons, List.zip_cons_cons, List.mem_cons] at hp
      rcases hp with rfl | hp
      · simp
      · have hlast := ih hp
        rw [List.sum_cons]
        omega

theorem inside_layers (h : Inside ds (layers rest s n)) {s' n' : Nat}
    (hlast : s' + n' ≤ s + n) : Inside ds (layers rest s' n') := by
  obtain ⟨hranked, hin⟩ := h
  refine ⟨hranked, ?_⟩
  unfold dims layers Extents.starts Extents.counts at hin ⊢
  generalize ds.shape.toList = shape at hin ⊢
  generalize ds.chunkShape.toList = chunkShape at hin ⊢
  cases shape with
  | nil => simp [selection]
  | cons n shape =>
      cases chunkShape with
      | nil => simp [selection]
      | cons c chunkShape =>
          obtain ⟨hfull, hothers⟩ := List.forall_mem_cons.mp hin
          refine List.forall_mem_cons.mpr ⟨hlast.trans ?_, hothers⟩
          exact hfull

@[simp] theorem starts_layers (rest : List Extent) (s n m : Nat) (shape : List Nat) :
    (layers rest s n).starts (m :: shape) = s :: (Extents.extent rest).starts shape :=
  rfl

@[simp] theorem counts_layers (rest : List Extent) (s n m : Nat) (shape : List Nat) :
    (layers rest s n).counts (m :: shape) = n :: (Extents.extent rest).counts shape :=
  rfl

theorem nativeBytes_parts (host : Endian) (order : Order) (A : Values dsz) (s : Nat)
    (parts start count : List Nat) :
    nativeBytes host order A (s :: start) (parts.sum :: count) =
      ((parts.zip (parts.scanl (· + ·) s)).map fun p =>
        nativeBytes host order A (p.2 :: start) (p.1 :: count)).flatten := by
  simp only [nativeBytes, NdArray.slice_parts, List.flatMap_assoc, ← List.flatMap_def]

theorem selectedNative_parted (h : (layers rest s parts.sum).Ranked ds.shape.toList)
    (A : Values dsz) : selectedNative host ds A (layers rest s parts.sum) =
      ((parted rest s parts).map (selectedNative host ds A)).flatten := by
  have hne : ds.shape.toList ≠ [] := by
    intro hnil
    simp [hnil, layers, Extents.Ranked] at h
  obtain ⟨n, shape, hshape⟩ := List.exists_cons_of_ne_nil hne
  simp [selectedNative, hshape, parted, nativeBytes_parts, Function.comp_def]

theorem part_inside (h : Inside ds (layers rest s parts.sum)) {part : Extents}
    (hpart : part ∈ parted rest s parts) : Inside ds part ∧
      (part.counts ds.shape.toList).prod ≤
        ((layers rest s parts.sum).counts ds.shape.toList).prod := by
  obtain ⟨⟨n, first⟩, hp, rfl⟩ := List.mem_map.mp hpart
  refine ⟨inside_layers h (part_le hp), ?_⟩
  have hle : n ≤ parts.sum := List.le_sum_of_mem (List.of_mem_zip hp).1
  generalize ds.shape.toList = shape
  cases shape with
  | nil => simp [layers, Extents.counts]
  | cons m shape => simpa using Nat.mul_le_mul_right _ hle

end Parts

/--
Parts that follow each other along the first dimension, each read by a reader of its
own, are joined to what is read of the whole.
-/
theorem values_parted (ds : Dataset D) (hwf : ds.WellFormed) (hpos : 0 < ds.dsize)
    (A : Values dsz) (hA : Carries env ds A) (rest : List Extent) (s : Nat)
    (parts : List Nat) (hin : Inside ds (layers rest s parts.sum))
    (hfold : ∀ e ∈ layers rest s parts.sum :: parted rest s parts, Foldable (dims ds e))
    (T : Scalar) (hT : T.sizeOf = dsz) (hswap : env.host = .little ∨ T.isFloat = false)
    (hsize : ((layers rest s parts.sum).counts ds.shape.toList).prod * dsz < 2 ^ 63)
    (unstable : Bool) (memory : Memory) :
    ∃ fuel₀, ∀ fuel ≥ fuel₀, ∀ read : Extents → Nat → ReadTo,
      (∀ e, Method env ds (read e)) → ∃ outs,
        (parted rest s parts).mapM (fun e => values env.build env.host unstable memory T
          ds (read e fuel) e) = .ok outs ∧
        values env.build env.host unstable memory T ds
          (read (layers rest s parts.sum) fuel) (layers rest s parts.sum) =
            .ok outs.flatten := by
  have hdelivers : ∀ e ∈ layers rest s parts.sum :: parted rest s parts,
      ∃ fuel₀, ∀ fuel ≥ fuel₀, ∀ read, Method env ds read →
        values env.build env.host unstable memory T ds (read fuel) e =
          .ok (selectedNative env.host ds A e) := by
    intro e he
    have hpart : Inside ds e ∧ (e.counts ds.shape.toList).prod ≤
        ((layers rest s parts.sum).counts ds.shape.toList).prod := by
      rcases List.mem_cons.mp he with rfl | he
      · exact ⟨hin, le_rfl⟩
      · exact part_inside hin he
    have hbytes : (selectedBytes ds A e).length < 2 ^ 63 := by
      rw [length_selectedBytes hA.dsize_eq, hA.dsize_eq]
      exact (Nat.mul_le_mul_right dsz hpart.2).trans_lt hsize
    obtain ⟨fuel₀, hread⟩ := hA.delivers hwf hpos hpart.1 (hfold e he)
    exact ⟨fuel₀, fun fuel hfuel read hmethod => (hread fuel hfuel read hmethod).values
      hwf hpart.1 hA.dsize_eq hT hswap hbytes unstable⟩
  obtain ⟨fuel₀, hall⟩ := eventually_all hdelivers
  refine ⟨fuel₀, fun fuel hfuel read hmethod => ?_⟩
  have hread := fun e he => hall fuel hfuel e he _ (hmethod e)
  refine ⟨(parted rest s parts).map (selectedNative env.host ds A), ?_, ?_⟩
  · exact mapM_ok _ _ _ fun e he => hread e (List.mem_cons_of_mem _ he)
  · rw [hread _ List.mem_cons_self, selectedNative_parted hin.ranked]

theorem values_parted_pair : ∃ fuel₀, ∀ fuel ≥ fuel₀,
    ∀ read : Extents → Nat → ReadTo,
      (∀ e, Method (.addresses .release 68) pair (read e)) → ∃ outs,
        (parted [] 0 [1, 1]).mapM (fun e => values .release .little false .zeroed .u16
          pair (read e fuel) e) = .ok outs ∧
        values .release .little false .zeroed .u16 pair
          (read (layers [] 0 2) fuel) (layers [] 0 2) = .ok outs.flatten :=
  values_parted pair pair_wellFormed (by decide) pairValues carries_pair [] 0 [1, 1]
    ⟨by decide, by decide⟩ (by decide) .u16 rfl (.inl rfl) (by decide) false .zeroed

end Hidefix.Reader
