import Hidefix.Idx.Index
import Mathlib.Data.List.Dedup

/-!
# The index in Python

A dataset in Python keeps the index, the group and the name that it was found under
and looks both up again for each use.  A group named in Python is a path that may have
slashes at its ends.
-/

namespace Hidefix.Python

open Foundation
open Idx (DatasetD GroupIndex Path)
open Separated (IsName join)

structure Dataset where
  idx : GroupIndex
  group : Option Path
  ds : Path

structure Index where
  idx : GroupIndex

def Dataset.dataset (self : Dataset) : Exec DatasetD :=
  match self.group with
  | some group => do
      let g ← unwrap (self.idx.group group)
      unwrap (g.dataset self.ds)
  | none => unwrap (self.idx.dataset self.ds)

namespace Index

def dataset (self : Index) (s : Path) (group : Option Path) : Option Dataset :=
  (match group with
    | some group => (self.idx.group group).bind fun g => g.dataset s
    | none => self.idx.dataset s).map fun _ => { idx := self.idx, group, ds := s }

def getitem (self : Index) (s : Path) : Option Dataset :=
  self.dataset s none

def datasets (self : Index) (group : Option Path) : List Path :=
  match group with
  | some group =>
      match self.idx.group group with
      | some group => (group.datasets.map Prod.fst).dedup
      | none => []
  | none => (self.idx.datasets.map Prod.fst).dedup

variable {t : GroupIndex} {gs : List Path} {d : Path}

/-! ## What a lookup in Python finds -/

theorem dataset_group (t : GroupIndex) (s p : Path) :
    ((Index.mk t).dataset s (some p)).map Dataset.dataset =
      ((t.group p).bind fun g => g.dataset s).map .ok := by
  rw [dataset, Option.map_map]
  cases hgroup : t.group p with
  | none => rfl
  | some g =>
      cases hds : g.dataset s with
      | none => simp [hds]
      | some ds => simp [Dataset.dataset, unwrap, hgroup, hds]

theorem dataset_root (t : GroupIndex) (s : Path) :
    ((Index.mk t).dataset s none).map Dataset.dataset = (t.dataset s).map .ok := by
  rw [dataset, Option.map_map]
  cases hds : t.dataset s with
  | none => rfl
  | some ds => simp [Dataset.dataset, unwrap, hds]

theorem dataset_found {self : Index} {s : Path} {group : Option Path} {ds : Dataset}
    (h : self.dataset s group = some ds) : ∃ d, ds.dataset = .ok d := by
  have hmap : (self.dataset s group).map Dataset.dataset = some ds.dataset := by
    rw [h, Option.map_some]
  cases group with
  | none =>
      rw [dataset_root self.idx s, Option.map_eq_some_iff] at hmap
      obtain ⟨d, -, hd⟩ := hmap
      exact ⟨d, hd.symm⟩
  | some p =>
      rw [dataset_group self.idx s p, Option.map_eq_some_iff] at hmap
      obtain ⟨d, -, hd⟩ := hmap
      exact ⟨d, hd.symm⟩

theorem mem_names_iff (g : GroupIndex) (hd : '/' ∉ d) :
    d ∈ (g.datasets.map Prod.fst).dedup ↔ (g.dataset d).isSome := by
  have hget : g.dataset d = g.datasets.lookup d := GroupIndex.dataset_replicate hd 0
  rw [hget, List.mem_dedup, List.mem_map, List.lookup_isSome_iff]
  exact exists_congr fun p => and_congr_right fun _ => by rw [beq_iff_eq, eq_comm]

theorem mem_datasets_iff (self : Index) (group : Option Path) (hd : '/' ∉ d) :
    d ∈ self.datasets group ↔ (self.dataset d group).isSome := by
  cases group with
  | none => rw [dataset, Option.isSome_map, datasets, mem_names_iff self.idx hd]
  | some p =>
      rw [dataset, Option.isSome_map, datasets]
      cases hgroup : self.idx.group p with
      | none => simp
      | some g => simpa [hgroup] using mem_names_iff g hd

/-! ## The group and the path agree -/

/--
What the lookups are for: names of groups lead to a group, with any slashes at the
ends of their path, and the names followed by the name of a dataset lead to the
dataset in that group.
-/
structure FollowsPath (t : GroupIndex) (gs : List Path) (before after : Nat)
    (d : Path) : Prop where
  group : t.group (GroupIndex.groupPath before gs after) = t.follow gs
  dataset : t.dataset (join '/' gs ++ '/' :: d) = t.followDataset gs d
  lookup : ((Index.mk t).dataset d (some (GroupIndex.groupPath before gs after))).map
      Dataset.dataset =
    ((Index.mk t).dataset (join '/' gs ++ '/' :: d) none).map Dataset.dataset

/-- The lookup in a group and the lookup of its path, as it stands, joined to the name. -/
def LookupsAgree (t : GroupIndex) (p d : Path) : Prop :=
  ((Index.mk t).dataset d (some p)).map Dataset.dataset =
    ((Index.mk t).dataset (p ++ '/' :: d) none).map Dataset.dataset

theorem lookup_group (hne : gs ≠ []) (hgs : ∀ g ∈ gs, IsName '/' g) (hd : '/' ∉ d)
    (before after : Nat) :
    ((Index.mk t).dataset d (some (GroupIndex.groupPath before gs after))).map
      Dataset.dataset = (t.followDataset gs d).map .ok := by
  rw [dataset_group, GroupIndex.group_groupPath hne hgs, GroupIndex.followDataset]
  refine congrArg _ (congrArg _ (funext fun g => ?_))
  exact GroupIndex.dataset_replicate hd 0

theorem dataset_join (t : GroupIndex) (hgs : ∀ g ∈ gs, IsName '/' g) (hd : '/' ∉ d) :
    t.dataset (join '/' gs ++ '/' :: d) = t.followDataset gs d := by
  rcases eq_or_ne gs [] with rfl | hne
  · exact GroupIndex.dataset_replicate hd 1
  · have hpath := GroupIndex.dataset_groupPath (t := t) hne hgs hd 0 0
    simpa [GroupIndex.groupPath] using hpath

theorem FollowsPath.of_ne_nil (t : GroupIndex) (hne : gs ≠ [])
    (hgs : ∀ g ∈ gs, IsName '/' g) (hd : '/' ∉ d) (before after : Nat) :
    FollowsPath t gs before after d where
  group := GroupIndex.group_groupPath hne hgs before after
  dataset := dataset_join t hgs hd
  lookup := by rw [lookup_group hne hgs hd, dataset_root, dataset_join t hgs hd]

theorem not_followsPath_nil (t : GroupIndex) (before after : Nat) (d : Path) :
    ¬ FollowsPath t [] before after d := fun h =>
  GroupIndex.getGroup_ne_self t [] (by
    rw [← GroupIndex.group_groupPath_nil before after, h.group, GroupIndex.follow])

theorem lookupsAgree_iff (t : GroupIndex) (hne : gs ≠ [])
    (hgs : ∀ g ∈ gs, IsName '/' g) (hd : '/' ∉ d) (before after : Nat) :
    LookupsAgree t (GroupIndex.groupPath before gs after) d ↔
      t.followDataset gs d = t.followDataset (gs ++ List.replicate after []) d := by
  rw [LookupsAgree, lookup_group hne hgs hd, dataset_root,
    GroupIndex.dataset_groupPath hne hgs hd]
  exact (Option.map_injective fun _ _ h => Except.ok.inj h).eq_iff

/--
The lookups follow a path exactly where it names a group: the root has no name, and
its path is searched for a group with the empty name.  Slashes behind the names, where
they are kept in front of the name of the dataset, are searched for such groups too.
-/
theorem followsPath_iff (t : GroupIndex) (gs : List Path) (before after : Nat)
    (d : Path) (hgs : ∀ g ∈ gs, IsName '/' g) (hd : '/' ∉ d) :
    (FollowsPath t gs before after d ↔ gs ≠ []) ∧
      (FollowsPath t gs before after d ∧
          LookupsAgree t (GroupIndex.groupPath before gs after) d ↔
        gs ≠ [] ∧ (after = 0 ∨
          t.followDataset gs d = t.followDataset (gs ++ List.replicate after []) d)) := by
  have hnames : FollowsPath t gs before after d ↔ gs ≠ [] := by
    refine ⟨fun h hnil => ?_, fun hne => .of_ne_nil t hne hgs hd before after⟩
    subst hnil
    exact not_followsPath_nil t before after d h
  refine ⟨hnames, ?_⟩
  rw [hnames]
  refine and_congr_right fun hne => ?_
  rw [lookupsAgree_iff t hne hgs hd]
  constructor
  · exact .inr
  · rintro (rfl | h)
    · rw [List.replicate_zero, List.append_nil]
    · exact h

/-! ## The root of a file -/

def scalarFile : GroupIndex where
  path := none
  datasets := [(['x'], scalar)]
  groups := [(['a'], { path := none, datasets := [(['x'], scalar)], groups := [] })]
where
  scalar : DatasetD :=
    { D := 0
      le_nine := Nat.zero_le 9
      ds :=
        { dtype := .float 8, dsize := 8, order := .le
          chunks := [{ addr := .new 0, size := .new 8, offset := .nil }]
          shape := .nil, chunkShape := .nil, chunkShapeReduced := .nil
          scaledDimSz := .nil, dimSz := .nil, chunkDimSz := .nil
          shuffle := false, gzip := none } }

theorem followsPath_iff_scalarFile :
    (FollowsPath scalarFile [['a']] 1 1 ['x'] ↔ [['a']] ≠ ([] : List Path)) ∧
      (FollowsPath scalarFile [['a']] 1 1 ['x'] ∧
          LookupsAgree scalarFile (GroupIndex.groupPath 1 [['a']] 1) ['x'] ↔
        [['a']] ≠ ([] : List Path) ∧ (1 = 0 ∨
          scalarFile.followDataset [['a']] ['x'] =
            scalarFile.followDataset ([['a']] ++ List.replicate 1 []) ['x'])) :=
  followsPath_iff scalarFile [['a']] 1 1 ['x']
    (by simpa using ⟨by decide, by decide⟩) (by decide)

/-- `/x` is a dataset, and there is no `x` in the group `/`. -/
theorem not_followsPath_root :
    ¬ FollowsPath scalarFile [] 0 1 ['x'] ∧
      ((Index.mk scalarFile).dataset ['x'] (some ['/'])).isNone ∧
      ((Index.mk scalarFile).dataset ['/', 'x'] none).isSome :=
  ⟨not_followsPath_nil scalarFile 0 1 ['x'], by decide, by decide⟩

end Index

end Hidefix.Python
