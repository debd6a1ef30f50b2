import Hidefix.Reader.Pieces
import Hidefix.Slices.Counter

/-!
# The readers agree

Whatever is in the cache, in whatever order the slices are copied, readers that
complete have written the pieces of the slices in the order of the selection,
and these are the items of the stream.
-/

namespace Hidefix.Reader

open Caching (LruCache)
open Foundation
open Idx
open Slices (edge)
open Sorting (UnstableSort)

variable {D : Nat} {env : Env} {ds : Dataset D} {chunkSz : Nat}

theorem piecesOf_unique {items : List (Item D)} {pieces pieces' : List Bytes}
    (h : PiecesOf env ds chunkSz items pieces)
    (h' : PiecesOf env ds chunkSz items pieces') : pieces = pieces' := by
  refine List.right_unique_forall₂' ?_ h h'
  intro item piece piece' hp hp'
  rw [hp] at hp'
  cases hp'
  rfl

theorem Written.eq_pieces {fuel : Nat} {e : Extents} {dst dst' : Bytes}
    {items : List (Item D)} {segments : List (Segment D)}
    {ws : List (Buffer.Write UInt8)} {pieces : List Bytes}
    (h : Written env ds chunkSz fuel e dst dst' items segments ws)
    (hpieces : PiecesOf env ds chunkSz items pieces)
    (hfit : pieces.flatten.length ≤ dst.length) (hdst : dst.length < 2 ^ 63) :
    dst' = pieces.flatten ++ dst.drop pieces.flatten.length := by
  have hitems : ∀ item ∈ items, item.2.1 < 2 ^ 64 := fun item hitem =>
    (collectSlices_itemOk h.collected item hitem).start_lt
  have hplaced : ws = Buffer.layout 0 pieces :=
    writes_eq_layout hitems h.placed hpieces h.written
      (by rw [Nat.zero_mul]) (by omega)
  exact h.dst_eq_pieces hplaced hfit

/--
The reader with a cache, in any state reached by earlier reads, the direct
reader and the direct reader with any schedule write the same, and the items of
the stream are the prefix that they write.
-/
theorem readers_agree {L L' : LruCache Nat Bytes}
    (haddr : (ds.chunks.map Chunk.addr).Nodup)
    (hsz : ds.chunkBytes env.build = .ok chunkSz)
    (reader : CacheReader D L) (hreader : reader.Reached env ds chunkSz)
    (direct : Direct D) (hdirect : Direct.withDataset env.build ds = .ok direct)
    (streamReader : StreamReader D)
    (hstreamReader : StreamReader.withDataset env.build ds = .ok streamReader)
    (sort sort' : UnstableSort (Segment D) Segment.addr)
    (schedule : Schedule D) (e : Extents) (dst : Bytes)
    (hdst : dst.length < 2 ^ 63) (fuel₁ fuel₂ fuel₃ fuel₄ : Nat)
    (dst₁ dst₂ dst₃ : Bytes) (n₁ n₂ n₃ : Nat) (items : List Bytes)
    (hread : (reader.readTo env fuel₁ e dst).2 = .ok (dst₁, n₁))
    (hreadDirect : direct.readTo env sort fuel₂ e dst = .ok (dst₂, n₂))
    (hreadPar :
      direct.readToPar env sort' schedule fuel₃ e dst = .ok (dst₃, n₃))
    (hstream : streamReader.stream L' env fuel₄ e = .ok (items, none)) :
    dst₁ = dst₂ ∧ dst₂ = dst₃ ∧ n₁ = n₂ ∧ n₂ = n₃ ∧
      items.flatten.length ≤ dst.length ∧
      dst₁ = items.flatten ++ dst.drop items.flatten.length := by
  obtain ⟨chunkSz', hsz', hdirect⟩ := bind_eq_ok.mp hdirect
  rw [hsz] at hsz'
  cases hsz'
  cases hdirect
  obtain ⟨chunkSz', hsz', hstreamReader⟩ := bind_eq_ok.mp hstreamReader
  rw [hsz] at hsz'
  cases hsz'
  cases hstreamReader
  obtain ⟨hn₁, items₁, pieces, hitems₁, hpieces, hfit, hdst₁⟩ :=
    (CacheReader.Reached.sound haddr hreader).readTo_ok haddr hread
  obtain ⟨hn₂, items₂, segments₂, ws₂, hwritten₂⟩ :=
    Direct.readTo_ok haddr hreadDirect
  obtain ⟨hn₃, items₃, segments₃, ws₃, hwritten₃⟩ :=
    Direct.readToPar_ok haddr hreadPar
  obtain ⟨items₄, hitems₄, hpieces₄⟩ := StreamReader.stream_ok haddr hstream
  obtain rfl := collectSlices_unique hitems₁ hwritten₂.collected
  obtain rfl := collectSlices_unique hitems₁ hwritten₃.collected
  obtain rfl := collectSlices_unique hitems₁ hitems₄
  obtain rfl := piecesOf_unique hpieces hpieces₄
  have hdst₂ := hwritten₂.eq_pieces hpieces hfit hdst
  have hdst₃ := hwritten₃.eq_pieces hpieces hfit hdst
  rw [hn₁] at hn₂ hn₃
  cases hn₂
  cases hn₃
  exact ⟨hdst₁.trans hdst₂.symm, hdst₂.trans hdst₃.symm, rfl, rfl, hfit, hdst₁⟩

theorem readers_agree_edge :
    [64, 65, 68, 66, 67, 70, 0] = [64, 65, 68, 66, 67, 70, (0 : UInt8)] ∧
      [64, 65, 68, 66, 67, 70, 0] = [64, 65, 68, 66, 67, 70, (0 : UInt8)] ∧
      6 = 6 ∧ 6 = 6 ∧
      [[64, 65], [68], [66, 67], [(70 : UInt8)]].flatten.length ≤ 7 ∧
      [64, 65, 68, 66, 67, 70, 0] =
        [[64, 65], [68], [66, 67], [(70 : UInt8)]].flatten ++
          (List.replicate 7 0).drop
            [[64, 65], [68], [66, 67], [(70 : UInt8)]].flatten.length :=
  @readers_agree 2 (.addresses .debug 72) edge 4 (.recency _ _) (.recency _ _)
    (by decide) rfl _ (.step (.start ⟨1, by decide, rfl⟩) ⟨5, .all, [0, 0, 0], rfl⟩)
    ⟨edge, 4⟩ rfl ⟨edge, 4⟩ rfl (.insertion _) (.insertion _)
    ⟨List.reverse, List.reverse_perm⟩ .all (List.replicate 7 0) (by decide)
    5 5 5 5 _ _ _ _ _ _ _ rfl rfl rfl rfl

end Hidefix.Reader
