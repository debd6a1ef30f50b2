import Hidefix.Idx.Written
import Hidefix.Reader.Stored

/-!
# From a file to its arrays

A reader or a streamer is made of an index and a path in it: the dataset is looked up,
and the file is opened where it was when it was indexed.  All parts together: an array
that is in a file is read under its path, from the index of the file or from one that
was written and read back.
-/

namespace Hidefix.Reader

open Caching (LruCache)
open Foundation
open Idx

/-- What a path leads to, or why it cannot be opened. -/
abbrev Files := PathBuf → Except String Bytes

structure OpenReader (L : LruCache Nat Bytes) where
  D : Nat
  file : Bytes
  reader : CacheReader D L

/-- A streamer opens the file when it is used. -/
structure OpenStreamer where
  D : Nat
  path : PathBuf
  streamer : StreamReader D

end Hidefix.Reader

namespace Hidefix.Idx

open Caching (LruCache)
open Foundation
open Reader (CacheReader Files OpenReader OpenStreamer StreamReader)

namespace DatasetD

def asReader (L : LruCache Nat Bytes) (b : Build) (files : Files) (ds : DatasetD)
    (path : PathBuf) : Exec (OpenReader L) := do
  let file ← orBail (files path)
  let reader ← CacheReader.withDataset L b ds.ds
  .ok { D := ds.D, file, reader }

def asStreamer (b : Build) (ds : DatasetD) (path : PathBuf) : Exec OpenStreamer := do
  let streamer ← StreamReader.withDataset b ds.ds
  .ok { D := ds.D, path, streamer }

end DatasetD

namespace GroupIndex

def requirePath (t : GroupIndex) : Exec PathBuf :=
  match t.path with
  | some path => .ok path
  | none => bail "missing path"

def reader (L : LruCache Nat Bytes) (b : Build) (files : Files) (t : GroupIndex)
    (ds : Path) : Exec (OpenReader L) := do
  let path ← t.requirePath
  match t.dataset ds with
  | some ds => ds.asReader L b files path
  | none => bail "dataset does not exist"

def streamer (b : Build) (t : GroupIndex) (ds : Path) : Exec OpenStreamer := do
  let path ← t.requirePath
  match t.dataset ds with
  | some ds => ds.asStreamer b path
  | none => bail "dataset does not exist"

end GroupIndex

end Hidefix.Idx

namespace Hidefix.Reader

open Caching (LruCache)
open Foundation
open Idx
open Separated (IsName)
open Slices
open Transition (Reach)

variable {D dsz : Nat} {L : LruCache Nat Bytes} {env : Env} {ds : Dataset D}

def Later (env : Env) (reader : CacheReader D L) : CacheReader D L → Prop :=
  Reach (· = reader) fun r r' => ∃ fuel e dst, r' = (r.readTo env fuel e dst).1

theorem Later.reached {reader reader' : CacheReader D L} {chunkSz : Nat}
    (h : Later env reader reader') (hr : reader.Reached env ds chunkSz) :
    reader'.Reached env ds chunkSz := by
  refine h.invariant (fun r hr' => ?_) fun r r' hreached hstep => .step hreached hstep
  subst hr'
  exact hr

theorem withDataset_exists (env : Env) (L : LruCache Nat Bytes) (hwf : ds.WellFormed)
    (hpos : 0 < ds.dsize) : ∃ reader, CacheReader.withDataset L env.build ds = .ok reader ∧
      reader.Reached env ds (chunkSize ds) := by
  have hchunk : chunkSize ds ≠ 0 :=
    (Nat.mul_pos (MixedRadix.prod_pos_of_forall hwf.chunk_pos) hpos).ne'
  have hsz : ds.chunkBytes env.build = .ok (chunkSize ds) := hwf.chunkBytes_eq
  refine ⟨⟨ds, L.new (max (CACHE_SZ / chunkSize ds) 1), chunkSize ds⟩, ?_,
    .start ⟨_, Nat.le_max_right _ _, rfl⟩⟩
  simp [CacheReader.withDataset, hsz, divU64, hchunk]

/--
An array that is in a file is read under its path, in the index of the file or in one
that was written and read back: a reader delivers every selection that is folded
correctly, whatever has been read before, and a streamer yields it.
-/
theorem reads_file (deflate : Nat → Bytes → Bytes) (env : Env)
    (hzlib : Inflates deflate env.zlib) (g : Hdf5Group) (hg : g.Promised)
    (hfits : g.SizesFit) (path : PathBuf) (t t' : GroupIndex)
    (ht : GroupIndex.indexGroup env.build (some path) g = .ok t)
    (ht' : t' = t ∨ ∃ Z o, GroupIndex.ReadBack Z o t t') (names : List Path) (d : Path)
    (hnames : ∀ name ∈ names ++ [d], IsName '/' name) (before : Nat) (h : Hdf5Dataset)
    (hholds : g.Holds names d h) (hdsz : dsz = 1 ∨ dsz = 2 ∨ dsz = 4 ∨ dsz = 8)
    (shuffle : Bool) (gzip : Option Nat) (hfilters : h.filters = pipeline shuffle gzip)
    (hbuffer : BufferFits dsz h.chunkDims.prod h.filters)
    (A : Values dsz) (hs : Stores deflate env.file h A) (files : Files)
    (hopen : files path = .ok env.file) (L : LruCache Nat Bytes) :
    ∃ (ds : DatasetD) (reader : CacheReader ds.D L) (streamer : StreamReader ds.D),
      IndexedAs h ds.ds ∧
      t'.reader L env.build files
          (GroupIndex.groupPath before (names ++ [d]) 0) =
        .ok ⟨ds.D, env.file, reader⟩ ∧
      t'.streamer env.build (GroupIndex.groupPath before (names ++ [d]) 0) =
        .ok ⟨ds.D, path, streamer⟩ ∧
      ∀ e, Inside ds.ds e → Foldable (dims ds.ds e) → ∃ fuel₀, ∀ fuel ≥ fuel₀,
        (∀ reader', Later env reader reader' →
          Delivers (fun e dst => (reader'.readTo env fuel e dst).2) ds.ds A e) ∧
        ∃ pieces, streamer.stream L env fuel e = .ok (pieces, none) ∧
          pieces.flatten = selectedBytes ds.ds A e := by
  obtain ⟨hpath, hlookup⟩ : t'.path = some path ∧
      t'.dataset (GroupIndex.groupPath before (names ++ [d]) 0) =
        t.dataset (GroupIndex.groupPath before (names ++ [d]) 0) := by
    have hpath := GroupIndex.indexGroup_path ht
    rcases ht' with rfl | ⟨Z, o, hback⟩
    · exact ⟨hpath, rfl⟩
    · exact ⟨hback.path.trans hpath, hback.dataset (GroupIndex.indexGroup_distinct g ht) _⟩
  obtain ⟨ds, hds, hindexed⟩ := hg.dataset_found hfits ht hnames before hholds
  have hA := hs.carries hzlib hdsz hfilters hbuffer hindexed
  have hwf := hindexed.wellFormed
  have hpos : 0 < ds.ds.dsize := by
    rw [hA.dsize_eq]
    omega
  obtain ⟨reader, hreader, hreached⟩ := withDataset_exists env L hwf hpos
  have hsz : ds.ds.chunkBytes env.build = .ok (chunkSize ds.ds) := hwf.chunkBytes_eq
  have hstreamer : StreamReader.withDataset env.build ds.ds =
      .ok ⟨ds.ds, chunkSize ds.ds⟩ := by
    simp [StreamReader.withDataset, hsz]
  refine ⟨ds, reader, ⟨ds.ds, chunkSize ds.ds⟩, hindexed, ?_, ?_, fun e hin hfold => ?_⟩
  · simp [GroupIndex.reader, GroupIndex.requirePath, hpath, hlookup, hds,
      DatasetD.asReader, hopen, orBail, hreader]
  · simp [GroupIndex.streamer, GroupIndex.requirePath, hpath, hlookup, hds,
      DatasetD.asStreamer, hstreamer]
  · obtain ⟨fuel₀, items, pieces, hflatten, havailable⟩ := hA.available hwf hin hfold
    obtain ⟨fuel₁, hdelivers⟩ := hA.delivers hwf hpos hin hfold
    refine ⟨max fuel₀ fuel₁, fun fuel hfuel =>
      ⟨fun reader' hlater => ?_, pieces, ?_, hflatten⟩⟩
    · exact hdelivers fuel (by omega) _ (.cache hsz reader' (hlater.reached hreached))
    · exact (havailable fuel (by omega)).streams hwf hpos L hstreamer

theorem reads_file_nestedFile :
    ∃ t t', GroupIndex.indexGroup .debug (some "f".toUTF8) nestedFile = .ok t ∧
    GroupIndex.ReadBack zerocopy ⟨List.reverse, List.reverse_perm⟩ t t' ∧
    ∃ (ds : DatasetD) (reader : CacheReader ds.D (.recency _ _))
      (streamer : StreamReader ds.D),
      IndexedAs threeDataset ds.ds ∧
      t'.reader (.recency _ _) .debug (fun _ => .ok threeFile.file)
          ['/', 'a', '/', 'v'] =
        .ok ⟨ds.D, threeFile.file, reader⟩ ∧
      t'.streamer .debug ['/', 'a', '/', 'v'] = .ok ⟨ds.D, "f".toUTF8, streamer⟩ ∧
      ∀ e, Inside ds.ds e → Foldable (dims ds.ds e) → ∃ fuel₀, ∀ fuel ≥ fuel₀,
        (∀ reader', Later threeFile reader reader' →
          Delivers (fun e dst => (reader'.readTo threeFile fuel e dst).2) ds.ds
            threeValues e) ∧
        ∃ pieces, streamer.stream (.recency _ _) threeFile fuel e = .ok (pieces, none) ∧
          pieces.flatten = selectedBytes ds.ds threeValues e := by
  obtain ⟨t, ht⟩ := promised_nestedFile.indexed sizesFit_nestedFile supported_nestedFile
    .debug (some "f".toUTF8)
  have hvalid : ∀ p ∈ some "f".toUTF8, ByteArray.IsValidUTF8 p := by
    rintro _ ⟨⟩
    exact "f".isValidUTF8
  obtain ⟨t', hback⟩ := GroupIndex.readBack_exists zerocopy
    ⟨List.reverse, List.reverse_perm⟩ t (GroupIndex.indexGroup_utf8 hvalid nestedFile ht)
  exact ⟨t, t', ht, hback, reads_file storedStream threeFile inflates_stored nestedFile
    promised_nestedFile sizesFit_nestedFile "f".toUTF8 t t' ht (.inr ⟨_, _, hback⟩) [['a']]
    ['v'] names_nestedFile 1 threeDataset holds_v (by decide) true (some 4) rfl
    (fun _ => by decide) threeValues stores_three _ rfl _⟩

end Hidefix.Reader
