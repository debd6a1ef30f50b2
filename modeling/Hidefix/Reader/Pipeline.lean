import Hidefix.Reader.Chunk
import Mathlib.Logic.Function.Iterate

/-!
# Filter pipelines

The HDF5 library applies the filters of a dataset to a chunk one after the other.
`index` keeps of them only whether there is a shuffle and whether there is a
deflate, and `decode_chunk` undoes one deflate and then one shuffle.
-/

namespace Hidefix.Reader

open Blocks
open Filters (ZlibDecompress shuffle unshuffleSized)
open Foundation
open Idx (Filter FilterFlags indexFilters)

/-! ## Encoding -/

/-- The shuffle of the HDF5 library; bytes behind the last whole value stay there. -/
def hdf5Shuffle (dsz : Nat) (buf : Bytes) : Bytes :=
  if dsz > 1 ∧ buf.length / dsz > 1 then
    shuffle dsz buf ++ buf.drop (buf.length / dsz * dsz)
  else buf

def applyFilter (deflate : Nat → Bytes → Bytes) (dsz : Nat) (buf : Bytes) :
    Filter → Bytes
  | .shuffle => hdf5Shuffle dsz buf
  | .deflate z => deflate z buf
  | .other _ => buf

def encode (deflate : Nat → Bytes → Bytes) (dsz : Nat) (filters : List Filter)
    (raw : Bytes) : Bytes :=
  filters.foldl (applyFilter deflate dsz) raw

/--
`zlib_decompress` undoes deflate where the data fits into the buffer, and fails
where it does not.  A zlib stream starts with a byte that is not zero.
-/
structure Inflates (deflate : Nat → Bytes → Bytes) (zlib : ZlibDecompress) :
    Prop where
  fits : ∀ z data out, data.length ≤ out → ∃ decache,
    zlib (deflate z data) out = some decache ∧
      decache.toList.take data.length = data
  insufficient : ∀ z data out, out < data.length →
    zlib (deflate z data) out = none
  header : ∀ z data, ∃ cmf rest, deflate z data = cmf :: rest ∧ cmf ≠ 0

def Decodes (b : Build) (deflate : Nat → Bytes → Bytes) (zlib : ZlibDecompress)
    (dsz n : Nat) (filters : List Filter) (flags : FilterFlags) : Prop :=
  ∀ raw : Bytes, raw.length = n * dsz →
    decodeChunk b zlib (encode deflate dsz filters raw) (n * dsz) dsz
      flags.gzip.isSome flags.shuffle = .ok raw

/-! ## Pipelines that are undone -/

/-- Behind a deflate there is nothing but shuffles of single bytes. -/
def DeflateLast (dsz : Nat) : List Filter → Prop
  | [] => True
  | .deflate _ :: filters => ∀ f ∈ filters, f = .shuffle ∧ dsz = 1
  | _ :: filters => DeflateLast dsz filters

/-- Shuffling `k` times is not shuffling, or the same as shuffling once. -/
def ShufflesOnce (dsz n k : Nat) : Prop :=
  k = 0 ∨ ∀ raw : Bytes, raw.length = n * dsz →
    (shuffle dsz)^[k] raw = shuffle dsz raw

/-- The buffer that a deflated chunk is inflated to can be allocated. -/
def BufferFits (dsz n : Nat) (filters : List Filter) : Prop :=
  (∃ z, .deflate z ∈ filters) → n * dsz < 2 ^ 63

def Undone (dsz n : Nat) (filters : List Filter) : Prop :=
  DeflateLast dsz filters ∧ ShufflesOnce dsz n (filters.count .shuffle) ∧
    BufferFits dsz n filters

/-- A shuffle of more than single bytes comes behind the last deflate. -/
def ShuffledStream (dsz : Nat) (filters : List Filter) : Prop :=
  dsz ≠ 1 ∧ ∃ pre z j, filters = pre ++ .deflate z :: List.replicate (j + 1) .shuffle

/-! ## What `index` keeps -/

theorem indexFilters_ok {name : String} {filters : List Filter}
    {flags flags' : FilterFlags}
    (h : indexFilters name filters flags = .ok flags') :
    (flags'.shuffle = true ↔ flags.shuffle = true ∨ .shuffle ∈ filters) ∧
      (flags'.gzip.isSome = true ↔
        flags.gzip.isSome = true ∨ ∃ z, .deflate z ∈ filters) ∧
      ∀ f ∈ filters, f = .shuffle ∨ ∃ z, f = .deflate z := by
  induction filters generalizing flags with
  | nil =>
      cases h
      simp
  | cons f filters ih =>
      cases f with
      | shuffle =>
          obtain ⟨hshuffle, hgzip, hall⟩ := ih h
          exact ⟨by simpa using hshuffle, by simpa using hgzip,
            List.forall_mem_cons.mpr ⟨.inl rfl, hall⟩⟩
      | deflate z =>
          obtain ⟨hshuffle, hgzip, hall⟩ := ih h
          exact ⟨by simpa using hshuffle,
            iff_of_true (hgzip.mpr (.inl rfl)) (.inr ⟨z, by simp⟩),
            List.forall_mem_cons.mpr ⟨.inr ⟨z, rfl⟩, hall⟩⟩
      | other name => cases h

theorem split_filters {filters : List Filter}
    (h : ∀ f ∈ filters, f = .shuffle ∨ ∃ z, f = .deflate z) :
    (∃ k, filters = List.replicate k .shuffle) ∨
      ∃ pre z j, filters = pre ++ .deflate z :: List.replicate j .shuffle := by
  induction filters with
  | nil => exact .inl ⟨0, rfl⟩
  | cons f filters ih =>
      obtain ⟨hf, hfilters⟩ := List.forall_mem_cons.mp h
      rcases ih hfilters with ⟨k, rfl⟩ | ⟨pre, z, j, rfl⟩
      · rcases hf with rfl | ⟨z, rfl⟩
        · exact .inl ⟨k + 1, rfl⟩
        · exact .inr ⟨[], z, k, rfl⟩
      · exact .inr ⟨f :: pre, z, j, rfl⟩

theorem deflateLast_append {dsz : Nat} {pre post : List Filter} {z : Nat}
    (h : DeflateLast dsz (pre ++ .deflate z :: post)) :
    (∀ z', .deflate z' ∉ pre) ∧ ∀ f ∈ post, f = .shuffle ∧ dsz = 1 := by
  induction pre with
  | nil => exact ⟨by simp, h⟩
  | cons f pre ih =>
      cases f with
      | shuffle =>
          obtain ⟨hpre, hpost⟩ := ih h
          exact ⟨by simpa using hpre, hpost⟩
      | deflate z' =>
          have := (h (.deflate z) (by simp)).1
          cases this
      | other name =>
          obtain ⟨hpre, hpost⟩ := ih h
          exact ⟨by simpa using hpre, hpost⟩

theorem deflateLast_replicate (dsz k : Nat) :
    DeflateLast dsz (List.replicate k .shuffle) := by
  induction k with
  | zero => trivial
  | succ k ih => exact ih

theorem deflateLast_shuffled {dsz i j z : Nat} (h : j = 0 ∨ dsz = 1) :
    DeflateLast dsz (List.replicate i .shuffle ++
      .deflate z :: List.replicate j .shuffle) := by
  induction i with
  | zero =>
      intro f hf
      obtain ⟨hj, rfl⟩ := List.mem_replicate.mp hf
      exact ⟨rfl, h.resolve_left hj⟩
  | succ i ih => exact ih

/-! ## What is stored -/

section Encode

variable {deflate : Nat → Bytes → Bytes} {dsz n : Nat} {raw : Bytes}

theorem hdf5Shuffle_one (buf : Bytes) : hdf5Shuffle 1 buf = buf :=
  if_neg fun h => absurd h.1 (lt_irrefl _)

theorem hdf5Shuffle_eq (hpos : 0 < dsz) (h : raw.length = n * dsz) :
    hdf5Shuffle dsz raw = shuffle dsz raw := by
  have hdiv : raw.length / dsz = n := by rw [h, Nat.mul_div_cancel _ hpos]
  unfold hdf5Shuffle
  rw [hdiv]
  split
  · rw [← h, List.drop_length, List.append_nil]
  · rename_i hsmall
    rcases Nat.lt_or_ge 1 dsz with hdsz | hdsz
    · rcases Nat.eq_zero_or_pos n with rfl | hn
      · rw [Nat.zero_mul] at h
        rw [List.eq_nil_of_length_eq_zero h]
        simp [shuffle, table]
      · obtain rfl : n = 1 := by omega
        rw [Filters.shuffle_single hpos (by rw [h, Nat.one_mul])]
    · obtain rfl : dsz = 1 := by omega
      rw [Filters.shuffle_one]

theorem length_iterate_shuffle (hpos : 0 < dsz) (h : raw.length = n * dsz)
    (k : Nat) : ((shuffle dsz)^[k] raw).length = n * dsz := by
  induction k with
  | zero => exact h
  | succ k ih =>
      rw [Function.iterate_succ_apply']
      exact Filters.length_shuffle ih hpos

theorem encode_append (filters filters' : List Filter) :
    encode deflate dsz (filters ++ filters') raw =
      encode deflate dsz filters' (encode deflate dsz filters raw) :=
  List.foldl_append

theorem encode_shuffles_one (buf : Bytes) (k : Nat) :
    encode deflate 1 (List.replicate k .shuffle) buf = buf := by
  induction k generalizing buf with
  | zero => rfl
  | succ k ih =>
      change encode deflate 1 (List.replicate k .shuffle) (hdf5Shuffle 1 buf) = _
      rw [ih, hdf5Shuffle_one]

theorem encode_deflated {pre : List Filter} {z j : Nat}
    (h : j = 0 ∨ dsz = 1) :
    encode deflate dsz (pre ++ .deflate z :: List.replicate j .shuffle) raw =
      deflate z (encode deflate dsz pre raw) := by
  rw [encode_append]
  change encode deflate dsz (List.replicate j .shuffle) _ = _
  rcases h with rfl | rfl
  · rfl
  · exact encode_shuffles_one _ j

theorem encode_shuffles (hpos : 0 < dsz) (h : raw.length = n * dsz) (k : Nat) :
    encode deflate dsz (List.replicate k .shuffle) raw =
      (shuffle dsz)^[k] raw := by
  induction k generalizing raw with
  | zero => rfl
  | succ k ih =>
      have hlen : (hdf5Shuffle dsz raw).length = n * dsz := by
        rw [hdf5Shuffle_eq hpos h, Filters.length_shuffle h hpos]
      change encode deflate dsz (List.replicate k .shuffle)
        (hdf5Shuffle dsz raw) = _
      rw [ih hlen, hdf5Shuffle_eq hpos h]
      rfl

/-! ## The first byte of a stream -/

def Marked (buf : Bytes) : Prop := ∃ c, buf[0]? = some c ∧ c ≠ 0

theorem Marked.hdf5Shuffle {buf : Bytes} (h : Marked buf) (hpos : 0 < dsz) :
    Marked (hdf5Shuffle dsz buf) := by
  obtain ⟨c, hc, hne⟩ := h
  refine ⟨c, ?_, hne⟩
  unfold Reader.hdf5Shuffle
  split
  · rename_i hlarge
    have hhead : (shuffle dsz buf)[0]? = buf[0]? :=
      Filters.shuffle_getElem?_zero hpos rfl (by omega)
    have hlt : 0 < (shuffle dsz buf).length := by
      by_contra hzero
      rw [List.getElem?_eq_none (by omega), hc] at hhead
      cases hhead
    rw [List.getElem?_append_left hlt, hhead, hc]
  · exact hc

theorem Marked.encode {zlib : ZlibDecompress} (hzlib : Inflates deflate zlib)
    {buf : Bytes} (hpos : 0 < dsz) {filters : List Filter}
    (h : Marked buf ∨ ∃ z, .deflate z ∈ filters) :
    Marked (encode deflate dsz filters buf) := by
  induction filters generalizing buf with
  | nil =>
      rcases h with h | ⟨z, hz⟩
      · exact h
      · cases hz
  | cons f filters ih =>
      refine ih ?_
      cases f with
      | shuffle =>
          refine h.imp (fun h => h.hdf5Shuffle hpos) ?_
          rintro ⟨z, hz⟩
          exact ⟨z, by simpa using hz⟩
      | deflate z =>
          obtain ⟨cmf, rest, heq, hne⟩ := hzlib.header z buf
          exact .inl ⟨cmf, by rw [applyFilter, heq]; rfl, hne⟩
      | other name =>
          refine h.imp_right ?_
          rintro ⟨z, hz⟩
          exact ⟨z, by simpa using hz⟩

end Encode

/-! ## What is decoded -/

section Decode

variable {deflate : Nat → Bytes → Bytes} {zlib : ZlibDecompress} {b : Build}
variable {dsz n : Nat}

def unshuffleIf (shuffled : Bool) (dsz : Nat) (cache : Bytes) : Exec Bytes :=
  if shuffled ∧ dsz > 1 then unshuffleSized cache dsz else .ok cache

theorem decodeChunk_eq (hdsz : dsz < 16) {chunk : Bytes} {chunkSz : Nat}
    {gzipped shuffled : Bool} :
    decodeChunk b zlib chunk chunkSz dsz gzipped shuffled = (do
      let cache ← inflate zlib chunk chunkSz gzipped
      unshuffleIf shuffled dsz cache) := by
  rw [decodeChunk, debugAssert_of hdsz, ok_bind]
  rfl

theorem iterate_shuffle_one (k : Nat) (raw : Bytes) :
    (shuffle 1)^[k] raw = raw :=
  Function.iterate_fixed (Filters.shuffle_one raw) k

theorem unshuffleIf_one (shuffled : Bool) (cache : Bytes) :
    unshuffleIf shuffled 1 cache = .ok cache :=
  if_neg fun h => absurd h.2 (lt_irrefl _)

theorem shufflesOnce_iff (hdsz : dsz = 1 ∨ dsz = 2 ∨ dsz = 4 ∨ dsz = 8)
    {k : Nat} {shuffled : Bool} (hshuffled : shuffled = true ↔ k ≠ 0) :
    (∀ raw : Bytes, raw.length = n * dsz →
      unshuffleIf shuffled dsz ((shuffle dsz)^[k] raw) = .ok raw) ↔
        ShufflesOnce dsz n k := by
  rcases Nat.eq_zero_or_pos k with rfl | hk
  · have : shuffled = false := by simpa using hshuffled
    exact iff_of_true (fun raw _ => by rw [unshuffleIf, this]; rfl) (.inl rfl)
  · obtain ⟨k, rfl⟩ := Nat.exists_eq_add_of_lt hk
    rw [Nat.zero_add]
    have hsh : shuffled = true := hshuffled.mpr (by omega)
    have hpos : 0 < dsz := by omega
    by_cases hone : dsz = 1
    · subst hone
      refine iff_of_true (fun raw _ => ?_) (.inr fun raw _ => ?_)
      · rw [unshuffleIf_one, iterate_shuffle_one]
      · rw [iterate_shuffle_one, Filters.shuffle_one]
    · have hstep : ∀ raw : Bytes, raw.length = n * dsz →
          unshuffleIf shuffled dsz ((shuffle dsz)^[k + 1] raw) =
            .ok ((shuffle dsz)^[k] raw) := by
        intro raw hlen
        rw [unshuffleIf, if_pos ⟨hsh, by omega⟩, Function.iterate_succ_apply',
          Filters.unshuffleSized_shuffle hdsz
            (length_iterate_shuffle hpos hlen k)]
      constructor
      · intro hundone
        refine .inr fun raw hlen => ?_
        have := (hstep raw hlen).symm.trans (hundone raw hlen)
        rw [Function.iterate_succ_apply', Except.ok.inj this]
      · rintro (hzero | honce) raw hlen
        · omega
        · rw [honce raw hlen, unshuffleIf, if_pos ⟨hsh, by omega⟩,
            Filters.unshuffleSized_shuffle hdsz hlen]

theorem inflate_eq {out : Nat} (hout : out < 2 ^ 63) (chunk : Bytes) :
    inflate zlib chunk out true = Filters.decompress zlib chunk out := by
  rw [inflate, if_pos rfl, allocate_eq _ hout, ok_bind, List.Vector.toList_length]

theorem inflate_lt {out : Nat} {chunk cache : Bytes}
    (h : inflate zlib chunk out true = .ok cache) : out < 2 ^ 63 := by
  rw [inflate, if_pos rfl] at h
  obtain ⟨buf, hbuf, -⟩ := bind_eq_ok.mp h
  exact (allocate_ok hbuf).2

theorem inflate_deflate (hzlib : Inflates deflate zlib) {z out : Nat}
    {data : Bytes} (h : data.length = out) (hout : out < 2 ^ 63) :
    inflate zlib (deflate z data) out true = .ok data := by
  obtain ⟨decache, hok, htake⟩ := hzlib.fits z data out h.le
  have hlen := decache.toList_length
  rw [h, List.take_of_length_le hlen.le] at htake
  rw [inflate_eq hout, Filters.decompress, hok]
  exact congrArg Except.ok htake

theorem not_inflate_marked (hzlib : Inflates deflate zlib)
    {z : Nat} {data : Bytes} (hmarked : Marked data) {shuffled : Bool} :
    (do
      let cache ← inflate zlib (deflate z data) (n * dsz) true
      unshuffleIf shuffled dsz cache) ≠ .ok (List.replicate (n * dsz) 0) := by
  intro h
  obtain ⟨c, hc, hne⟩ := hmarked
  obtain ⟨cache, hcache, hout⟩ := bind_eq_ok.mp h
  rw [inflate_eq (inflate_lt hcache)] at hcache
  rcases Nat.lt_or_ge (n * dsz) data.length with hlarge | hfits
  · rw [Filters.decompress, hzlib.insufficient z data _ hlarge] at hcache
    cases hcache
  · obtain ⟨decache, hok, htake⟩ := hzlib.fits z data _ hfits
    rw [Filters.decompress, hok] at hcache
    obtain rfl : decache.toList = cache := Except.ok.inj hcache
    have hlen := decache.toList_length
    have hdata : 0 < data.length := by
      by_contra hzero
      rw [List.getElem?_eq_none (by omega)] at hc
      cases hc
    have hhead : decache.toList[0]? = some c := by
      rw [← hc, ← htake, List.getElem?_take_of_lt hdata]
    have hn : 0 < n := Nat.pos_of_ne_zero (by rintro rfl; omega)
    have hzero : (List.replicate (n * dsz) (0 : UInt8))[0]? = some c := by
      unfold unshuffleIf at hout
      split at hout
      · rw [Filters.unshuffleSized_getElem?_zero hlen hn hout, hhead]
      · rw [← Except.ok.inj hout, hhead]
    rw [List.getElem?_replicate] at hzero
    split at hzero
    · cases hzero
      exact hne rfl
    · cases hzero

theorem decodes_shuffles_iff (hdsz : dsz = 1 ∨ dsz = 2 ∨ dsz = 4 ∨ dsz = 8)
    {k : Nat} {flags : FilterFlags} (hzip : flags.gzip.isSome = false)
    (hshuffle : flags.shuffle = true ↔ k ≠ 0) :
    Decodes b deflate zlib dsz n (List.replicate k .shuffle) flags ↔
      ShufflesOnce dsz n k := by
  rw [← shufflesOnce_iff hdsz hshuffle]
  refine forall_congr' fun raw => forall_congr' fun hlen => ?_
  rw [decodeChunk_eq (by omega), hzip, encode_shuffles (by omega) hlen]
  rfl

theorem decodes_deflated_iff (hzlib : Inflates deflate zlib)
    (hdsz : dsz = 1 ∨ dsz = 2 ∨ dsz = 4 ∨ dsz = 8) {i j z : Nat}
    (hlast : j = 0 ∨ dsz = 1) {flags : FilterFlags}
    (hzip : flags.gzip.isSome = true)
    (hshuffle : flags.shuffle = true ↔ i + j ≠ 0) :
    Decodes b deflate zlib dsz n (List.replicate i .shuffle ++
        .deflate z :: List.replicate j .shuffle) flags ↔
      ShufflesOnce dsz n (i + j) ∧ n * dsz < 2 ^ 63 := by
  have hpos : 0 < dsz := by omega
  by_cases hsize : n * dsz < 2 ^ 63
  · rw [← shufflesOnce_iff hdsz hshuffle, and_iff_left hsize]
    refine forall_congr' fun raw => forall_congr' fun hlen => ?_
    have hsame : (shuffle dsz)^[i + j] raw = (shuffle dsz)^[i] raw := by
      rcases hlast with rfl | rfl
      · rfl
      · rw [iterate_shuffle_one, iterate_shuffle_one]
    rw [decodeChunk_eq (by omega), hzip, encode_deflated hlast,
      encode_shuffles hpos hlen,
      inflate_deflate hzlib (length_iterate_shuffle hpos hlen i) hsize, ok_bind, hsame]
  · refine iff_of_false (fun hdecodes => hsize ?_) fun h => hsize h.2
    have hzeros := hdecodes (List.replicate (n * dsz) 0) List.length_replicate
    rw [decodeChunk_eq (by omega), hzip] at hzeros
    obtain ⟨cache, hcache, -⟩ := bind_eq_ok.mp hzeros
    exact inflate_lt hcache

/-- Chunks that are deflated twice. -/
theorem not_decodes_deflated (hzlib : Inflates deflate zlib)
    (hdsz : dsz = 1 ∨ dsz = 2 ∨ dsz = 4 ∨ dsz = 8) {pre : List Filter}
    {z z' j : Nat} (hlast : j = 0 ∨ dsz = 1) (hpre : .deflate z' ∈ pre)
    {flags : FilterFlags} (hzip : flags.gzip.isSome = true) :
    ¬ Decodes b deflate zlib dsz n
      (pre ++ .deflate z :: List.replicate j .shuffle) flags := by
  intro hdecodes
  have hzeros := hdecodes (List.replicate (n * dsz) 0) List.length_replicate
  rw [decodeChunk_eq (by omega), hzip, encode_deflated hlast] at hzeros
  exact not_inflate_marked hzlib
    (Marked.encode hzlib (by omega) (.inr ⟨z', hpre⟩)) hzeros

end Decode

/-! ## Which pipelines are undone -/

theorem count_shuffle_deflated {i j z : Nat} :
    (List.replicate i Filter.shuffle ++ Filter.deflate z ::
      List.replicate j Filter.shuffle).count Filter.shuffle = i + j := by
  rw [List.count_append, List.count_replicate_self,
    List.count_cons_of_ne (by simp), List.count_replicate_self]

/--
The accepted pipelines that are undone: no deflate before the last one, no
shuffle behind it, shuffles that shuffle once, and a buffer that is allocated.  What
becomes of a shuffled stream is up to the decompression.
-/
theorem decodes_iff_undone {deflate : Nat → Bytes → Bytes}
    {zlib : ZlibDecompress} (hzlib : Inflates deflate zlib) (name : String)
    {filters : List Filter} {flags : FilterFlags}
    (hflags : indexFilters name filters ⟨false, none⟩ = .ok flags) (b : Build)
    {dsz : Nat} (hdsz : dsz = 1 ∨ dsz = 2 ∨ dsz = 4 ∨ dsz = 8) (n : Nat) :
    (Undone dsz n filters → Decodes b deflate zlib dsz n filters flags) ∧
      (¬ ShuffledStream dsz filters →
        Decodes b deflate zlib dsz n filters flags → Undone dsz n filters) := by
  obtain ⟨hshuffle, hgzip, hall⟩ := indexFilters_ok hflags
  simp only [Bool.false_eq_true, Option.isSome_none, false_or] at hshuffle hgzip
  rcases split_filters hall with ⟨k, rfl⟩ | ⟨pre, z, j, rfl⟩
  · have hzip : flags.gzip.isSome = false := by
      rw [Bool.eq_false_iff]
      intro h
      obtain ⟨z, hz⟩ := hgzip.mp h
      cases (List.mem_replicate.mp hz).2
    rw [List.mem_replicate, and_iff_left rfl] at hshuffle
    rw [Undone, List.count_replicate_self,
      decodes_shuffles_iff hdsz hzip hshuffle]
    exact ⟨fun h => h.2.1, fun _ h => ⟨deflateLast_replicate dsz k, h,
      fun ⟨z, hz⟩ => nomatch (List.mem_replicate.mp hz).2⟩⟩
  · have hzip : flags.gzip.isSome = true := hgzip.mpr ⟨z, by simp⟩
    have hshuffles : (∀ z', .deflate z' ∉ pre) →
        pre = List.replicate pre.length .shuffle := by
      intro hnone
      refine List.eq_replicate_of_mem fun f hf => ?_
      rcases hall f (List.mem_append_left _ hf) with rfl | ⟨z', rfl⟩
      · rfl
      · exact absurd hf (hnone z')
    have hflag : ∀ i, pre = List.replicate i .shuffle →
        (flags.shuffle = true ↔ i + j ≠ 0) := by
      rintro i rfl
      rw [hshuffle, List.mem_append, List.mem_cons, List.mem_replicate,
        List.mem_replicate]
      simp only [reduceCtorEq, false_or, and_true]
      omega
    constructor
    · rintro ⟨hlast, honce, hfits⟩
      obtain ⟨hnone, hpost⟩ := deflateLast_append hlast
      have hend : j = 0 ∨ dsz = 1 := by
        rcases Nat.eq_zero_or_pos j with rfl | hj
        · exact .inl rfl
        · exact .inr (hpost .shuffle (List.mem_replicate.mpr ⟨by omega, rfl⟩)).2
      have hpre := hshuffles hnone
      rw [hpre, count_shuffle_deflated] at honce
      rw [hpre]
      exact (decodes_deflated_iff hzlib hdsz hend hzip (hflag _ hpre)).mpr
        ⟨honce, hfits ⟨z, by simp⟩⟩
    · intro hstream hdecodes
      have hend : j = 0 ∨ dsz = 1 := by
        by_contra hneither
        push Not at hneither
        obtain ⟨j', rfl⟩ := Nat.exists_eq_succ_of_ne_zero hneither.1
        exact hstream ⟨hneither.2, pre, z, j', rfl⟩
      have hpre := hshuffles fun z' hz' =>
        not_decodes_deflated hzlib hdsz hend hz' hzip hdecodes
      rw [hpre] at hdecodes
      rw [hpre, Undone, count_shuffle_deflated]
      obtain ⟨honce, hsize⟩ :=
        (decodes_deflated_iff hzlib hdsz hend hzip (hflag _ hpre)).mp hdecodes
      exact ⟨deflateLast_shuffled hend, honce, fun _ => hsize⟩

/-! ## A pipeline that is undone and one that is not -/

/-- The checksum at the end of a zlib stream. -/
def adler32 (data : Bytes) : Nat :=
  let (a, b) := data.foldl (fun (a, b) c =>
    let a := (a + c.toNat) % 65521
    (a, (b + a) % 65521)) (1, 0)
  b * 65536 + a

def storedStream (_ : Nat) (data : Bytes) : Bytes :=
  [0x78, 0x01, 0x01] ++ LittleEndian.encode 2 data.length ++
    LittleEndian.encode 2 (65535 - data.length) ++ data ++
    (LittleEndian.encode 4 (adler32 data)).reverse

def storedData (stream : Bytes) : Bytes :=
  (stream.drop 7).take (stream.length - 11)

def decompressStored : ZlibDecompress := fun stream out =>
  if h : (storedData stream).length ≤ out then
    some ⟨storedData stream ++
      List.replicate (out - (storedData stream).length) 0, by simp [h]⟩
  else none

theorem storedData_storedStream (z : Nat) (data : Bytes) :
    storedData (storedStream z data) = data := by
  have hlen : (storedStream z data).length = data.length + 11 := by
    simp [storedStream]
    omega
  have hdrop : (storedStream z data).drop 7 =
      data ++ (LittleEndian.encode 4 (adler32 data)).reverse := by
    simp [storedStream, LittleEndian.encode]
  rw [storedData, hlen, hdrop]
  exact List.take_left' rfl

theorem inflates_stored : Inflates storedStream decompressStored where
  fits z data out h := by
    have hle : (storedData (storedStream z data)).length ≤ out := by
      rwa [storedData_storedStream]
    refine ⟨_, dif_pos hle, ?_⟩
    change (storedData (storedStream z data) ++ _).take data.length = data
    rw [storedData_storedStream, List.take_left' rfl]
  insufficient z data out h := by
    refine dif_neg ?_
    rw [storedData_storedStream]
    omega
  header z data := ⟨0x78, _, rfl, by decide⟩

theorem decodes_iff_undone_stored :
    Decodes .debug storedStream decompressStored 2 2 [.shuffle, .deflate 0]
      ⟨true, some 0⟩ :=
  (decodes_iff_undone inflates_stored "v" rfl .debug (by decide) 2).1
    ⟨nofun, .inr fun _ _ => rfl, fun _ => by decide⟩

/-- Two shuffles are accepted, and only one of them is undone. -/
theorem not_decodes_shuffled_twice :
    indexFilters "v" [.shuffle, .shuffle] ⟨false, none⟩ = .ok ⟨true, none⟩ ∧
      ¬ Decodes .release storedStream decompressStored 2 3 [.shuffle, .shuffle]
        ⟨true, none⟩ := by
  refine ⟨rfl, fun h => ?_⟩
  have hundone := h [0, 1, 2, 3, 4, 5] rfl
  exact absurd hundone (by decide)

end Hidefix.Reader
