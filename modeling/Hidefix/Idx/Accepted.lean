import Hidefix.Idx.Serde
import Hidefix.Idx.Lookup

/-!
# What deserialising accepts

Only the divisors are read with a check of their number.  The other arrays are
cut or filled up with zeros, the bytes of the chunks are unwrapped, and the
redundant fields are taken as they are stored.
-/

namespace Hidefix.Idx

open Blocks
open Foundation

variable {D : Nat}

theorem StrengthReducedU64.new_ok {divisor : Nat} {d : StrengthReducedU64}
    (h : new divisor = .ok d) : 1 ≤ divisor ∧ d.get = divisor := by
  unfold new at h
  split at h
  · cases h
    exact ⟨‹_›, rfl⟩
  · cases h

theorem mapM_new_ok {xs : List Nat} {ys : List StrengthReducedU64}
    (h : xs.mapM StrengthReducedU64.new = .ok ys) :
    (∀ x ∈ xs, 1 ≤ x) ∧ ys.map StrengthReducedU64.get = xs := by
  constructor
  · intro x hx
    obtain ⟨y, -, hy⟩ := (mapM_ok_mem h).1 x hx
    exact (StrengthReducedU64.new_ok hy).1
  · have hall := (mapM_ok_forall₂ h).imp fun _ _ hy => (StrengthReducedU64.new_ok hy).2
    rw [← List.forall₂_eq_eq_eq, List.forall₂_map_left_iff]
    exact hall.flip

theorem mapM_new_of_get {ys : List StrengthReducedU64} :
    (ys.map StrengthReducedU64.get).mapM StrengthReducedU64.new = .ok ys := by
  rw [List.mapM_map, mapM_ok (StrengthReducedU64.new ∘
    StrengthReducedU64.get) id _ fun d _ => d.new_get, List.map_id]

theorem tryInto_self {α : Type} (v : List.Vector α D) :
    tryInto D v.toList = .ok v := tryInto_eq v.toList_length

theorem Dataset.new_eq_ok_iff {b : Build} {ds : Dataset D} :
    Dataset.new b ds.dtype ds.order ds.shape ds.chunks ds.chunkShape ds.shuffle
        ds.gzip = .ok ds ↔
      (∀ c ∈ ds.chunkShape.toList, 1 ≤ c) ∧ ds.dsize = ds.dtype.dsize ∧
      ds.chunkShapeReduced.toList.map StrengthReducedU64.get =
        ds.chunkShape.toList ∧
      (∃ p, revScan b (cellCounts ds.shape.toList ds.chunkShape.toList) =
        .ok (p, ds.scaledDimSz.toList)) ∧
      (∃ p, revScan b ds.shape.toList = .ok (p, ds.dimSz.toList)) ∧
      ∃ p, revScan b ds.chunkShape.toList = .ok (p, ds.chunkDimSz.toList) := by
  constructor
  · intro h
    unfold Dataset.new at h
    obtain ⟨reduced, hreduced, h⟩ := bind_eq_ok.mp h
    obtain ⟨reducedV, hreducedV, h⟩ := bind_eq_ok.mp h
    obtain ⟨⟨p, scaled⟩, hscaled, h⟩ := bind_eq_ok.mp h
    obtain ⟨scaledV, hscaledV, h⟩ := bind_eq_ok.mp h
    obtain ⟨⟨q, dims⟩, hdims, h⟩ := bind_eq_ok.mp h
    obtain ⟨dimsV, hdimsV, h⟩ := bind_eq_ok.mp h
    obtain ⟨⟨r, chunkDims⟩, hchunkDims, h⟩ := bind_eq_ok.mp h
    obtain ⟨chunkDimsV, hchunkDimsV, h⟩ := bind_eq_ok.mp h
    obtain ⟨hpos, hget⟩ := mapM_new_ok hreduced
    rw [← tryInto_toList hreducedV] at hget
    rw [← tryInto_toList hscaledV] at hscaled
    rw [← tryInto_toList hdimsV] at hdims
    rw [← tryInto_toList hchunkDimsV] at hchunkDims
    rw [← Except.ok.inj h]
    exact ⟨hpos, rfl, hget, ⟨p, hscaled⟩, ⟨q, hdims⟩, ⟨r, hchunkDims⟩⟩
  · rintro ⟨-, hdsize, hget, ⟨p, hscaled⟩, ⟨q, hdims⟩, ⟨r, hchunkDims⟩⟩
    refine bind_eq_ok.mpr ⟨_, hget ▸ mapM_new_of_get, bind_eq_ok.mpr
      ⟨_, tryInto_self _, bind_eq_ok.mpr ⟨_, hscaled, bind_eq_ok.mpr
      ⟨_, tryInto_self _, bind_eq_ok.mpr ⟨_, hdims, bind_eq_ok.mpr
      ⟨_, tryInto_self _, bind_eq_ok.mpr ⟨_, hchunkDims, bind_eq_ok.mpr
      ⟨_, tryInto_self _, ?_⟩⟩⟩⟩⟩⟩⟩⟩
    rw [← hdsize]

/-! ## Deserialising, field by field -/

end Hidefix.Idx
