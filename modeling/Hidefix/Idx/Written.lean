import Hidefix.Foundation.Keyed
import Hidefix.Idx.File
import Hidefix.Idx.Serde

/-!
# The index, written and read

The index is serialised as the tree that it is: the path of the file, and maps of
datasets and of nested groups, in whatever order a map is run through.  A path is stored
as a string, so that it has to be valid Unicode.  What is read back finds the same under
every path.
-/

namespace Hidefix.Idx

open Foundation

/-- The order in which the entries of a map are written. -/
structure MapOrder where
  order : {α : Type} → List (Path × α) → List (Path × α)
  perm : ∀ {α : Type} (m : List (Path × α)), (order m).Perm m

/-- A group as the format stores it; a dataset has its number of dimensions for a tag. -/
inductive SerializedGroup where
  | mk (path : Option String) (datasets : List (Path × (Nat × Serialized)))
      (groups : List (Path × SerializedGroup))

namespace PathBuf

def serialize (path : PathBuf) : Exec String :=
  match String.fromUTF8? path with
  | some s => .ok s
  | none => bail "path contains invalid UTF-8 characters"

def deserialize (s : String) : PathBuf := s.toUTF8

end PathBuf

namespace DatasetD

def serialize (ds : DatasetD) : Exec (Nat × Serialized) :=
  ds.ds.serialize.map fun raw => (ds.D, raw)

def deserialize (Z : Zerocopy) (v : Nat × Serialized) : Exec DatasetD :=
  if hle : v.1 ≤ 9 then (Dataset.deserialize Z v.1 v.2).map fun ds => ⟨v.1, hle, ds⟩
  else bail "unknown variant"

end DatasetD

mutual

def GroupIndex.serialize (o : MapOrder) : GroupIndex → Exec SerializedGroup
  | ⟨path, datasets, groups⟩ => do
      let path ← path.mapM PathBuf.serialize
      let datasets ← (o.order datasets).mapM fun p =>
        (DatasetD.serialize p.2).map fun ds => (p.1, ds)
      let groups ← GroupIndex.serializeGroups o groups
      .ok (.mk path datasets (o.order groups))

def GroupIndex.serializeGroups (o : MapOrder) :
    List (Path × GroupIndex) → Exec (List (Path × SerializedGroup))
  | [] => .ok []
  | (name, grp) :: groups => do
      let raw ← GroupIndex.serialize o grp
      .ok ((name, raw) :: (← GroupIndex.serializeGroups o groups))

end

mutual

def SerializedGroup.deserialize (Z : Zerocopy) : SerializedGroup → Exec GroupIndex
  | .mk path datasets groups => do
      let datasets ← datasets.mapM fun p =>
        (DatasetD.deserialize Z p.2).map fun ds => (p.1, ds)
      let groups ← SerializedGroup.deserializeGroups Z groups
      .ok { path := path.map PathBuf.deserialize, datasets := Keyed.collect datasets,
            groups := Keyed.collect groups }

def SerializedGroup.deserializeGroups (Z : Zerocopy) :
    List (Path × SerializedGroup) → Exec (List (Path × GroupIndex))
  | [] => .ok []
  | (name, raw) :: groups => do
      let grp ← SerializedGroup.deserialize Z raw
      .ok ((name, grp) :: (← SerializedGroup.deserializeGroups Z groups))

end

inductive GroupIndex.Distinct : GroupIndex → Prop
  | mk {path datasets groups} : Keyed.Distinct datasets → Keyed.Distinct groups →
      (∀ p ∈ groups, Distinct p.2) → Distinct ⟨path, datasets, groups⟩

/-- The paths of all groups are valid Unicode. -/
inductive GroupIndex.Utf8 : GroupIndex → Prop
  | mk {path datasets groups} : (∀ p ∈ path, ByteArray.IsValidUTF8 p) →
      (∀ p ∈ groups, Utf8 p.2) → Utf8 ⟨path, datasets, groups⟩

/-! ## Paths -/

theorem PathBuf.serialize_eq_ok_iff {path : PathBuf} {s : String} :
    PathBuf.serialize path = .ok s ↔ PathBuf.deserialize s = path := by
  unfold PathBuf.serialize PathBuf.deserialize String.fromUTF8?
  by_cases h : path.IsValidUTF8
  · rw [dif_pos h]
    constructor
    · intro hs
      cases hs
      rfl
    · rintro rfl
      rfl
  · rw [dif_neg h]
    constructor
    · intro hs
      cases hs
    · rintro rfl
      exact absurd s.isValidUTF8 h

theorem PathBuf.mapM_serialize_iff {path : Option PathBuf} {raw : Option String} :
    path.mapM PathBuf.serialize = .ok raw ↔ raw.map PathBuf.deserialize = path := by
  cases path with
  | none => cases raw <;> simp [pure, Except.pure]
  | some path =>
      simp only [Option.mapM_some, Option.map_eq_some_iff, ← PathBuf.serialize_eq_ok_iff]
      cases PathBuf.serialize path <;> simp [Functor.map, Except.map, eq_comm]

theorem PathBuf.utf8_iff {path : Option PathBuf} :
    (∃ raw : Option String, raw.map PathBuf.deserialize = path) ↔
      ∀ p ∈ path, ByteArray.IsValidUTF8 p := by
  constructor
  · rintro ⟨raw, rfl⟩ p hp
    obtain ⟨s, -, rfl⟩ := Option.map_eq_some_iff.mp hp
    exact s.isValidUTF8
  · intro h
    cases path with
    | none => exact ⟨none, rfl⟩
    | some p => exact ⟨some (String.fromUTF8 p (h p rfl)), rfl⟩

theorem PathBuf.serialize_fails (path : PathBuf) :
    FailsOnly (fun fault => ∃ message, fault = .err message) (PathBuf.serialize path) := by
  unfold PathBuf.serialize
  split
  · exact .ok _
  · exact .error ⟨_, rfl⟩

/-! ## Datasets -/

theorem DatasetD.serialize_ok (Z : Zerocopy) (ds : DatasetD) :
    ∃ v, ds.serialize = .ok v ∧ DatasetD.deserialize Z v = .ok ds := by
  obtain ⟨D, hle, ds⟩ := ds
  obtain ⟨raw, hraw⟩ : ∃ raw, ds.serialize = .ok raw :=
    ⟨_, by rw [Dataset.serialize, ChunksU64s.serialize_eq, ok_bind]⟩
  have hback : Dataset.deserialize Z D raw = .ok ds := by
    rw [Dataset.serialize, ChunksU64s.serialize_eq, ok_bind] at hraw
    cases hraw
    simp [Dataset.deserialize, Dataset.ofFields, ChunksU64s.deserialize_of_serialize]
  exact ⟨(D, raw), by simp [serialize, hraw, Except.map],
    by simp [deserialize, hle, hback, Except.map]⟩

/-! ## Groups -/

namespace GroupIndex

variable {Z : Zerocopy} {o : MapOrder} {t t' u u' : GroupIndex}

theorem serializeGroups_eq (o : MapOrder) (groups : List (Path × GroupIndex)) :
    serializeGroups o groups =
      groups.mapM fun p => (serialize o p.2).map fun raw => (p.1, raw) := by
  induction groups with
  | nil => simp [serializeGroups, pure, Except.pure]
  | cons p groups ih =>
      rw [serializeGroups, List.mapM_cons, ih]
      cases serialize o p.2 <;> rfl

theorem deserializeGroups_eq (Z : Zerocopy) (groups : List (Path × SerializedGroup)) :
    SerializedGroup.deserializeGroups Z groups =
      groups.mapM fun p => (SerializedGroup.deserialize Z p.2).map fun grp => (p.1, grp) := by
  induction groups with
  | nil => simp [SerializedGroup.deserializeGroups, pure, Except.pure]
  | cons p groups ih =>
      rw [SerializedGroup.deserializeGroups, List.mapM_cons, ih]
      cases SerializedGroup.deserialize Z p.2 <;> rfl

/-- The index is written, and is read back as another. -/
def ReadBack (Z : Zerocopy) (o : MapOrder) (t t' : GroupIndex) : Prop :=
  ∃ raw, t.serialize o = .ok raw ∧ raw.deserialize Z = .ok t'

theorem readBack_iff {path : Option PathBuf} {datasets : List (Path × DatasetD)}
    {groups : List (Path × GroupIndex)} :
    ReadBack Z o ⟨path, datasets, groups⟩ t' ↔ (∀ p ∈ path, ByteArray.IsValidUTF8 p) ∧
      ∃ rawDatasets rawGroups datasets' groups',
      ((o.order datasets).mapM fun p =>
        (DatasetD.serialize p.2).map fun ds => (p.1, ds)) = .ok rawDatasets ∧
      (groups.mapM fun p => (serialize o p.2).map fun raw => (p.1, raw)) =
        .ok rawGroups ∧
      (rawDatasets.mapM fun p =>
        (DatasetD.deserialize Z p.2).map fun ds => (p.1, ds)) = .ok datasets' ∧
      ((o.order rawGroups).mapM fun p =>
        (SerializedGroup.deserialize Z p.2).map fun grp => (p.1, grp)) = .ok groups' ∧
      t' = ⟨path, Keyed.collect datasets', Keyed.collect groups'⟩ := by
  rw [← PathBuf.utf8_iff]
  constructor
  · rintro ⟨raw, hraw, hback⟩
    simp only [serialize, serializeGroups_eq, bind_eq_ok] at hraw
    obtain ⟨rawPath, hpath, rawDatasets, hdatasets, rawGroups, hgroups, hraw⟩ := hraw
    cases hraw
    simp only [SerializedGroup.deserialize, deserializeGroups_eq, bind_eq_ok] at hback
    obtain ⟨datasets', hdatasets', groups', hgroups', hback⟩ := hback
    cases hback
    have hpath := PathBuf.mapM_serialize_iff.mp hpath
    exact ⟨⟨rawPath, hpath⟩, _, _, _, _, hdatasets, hgroups, hdatasets', hgroups',
      by rw [hpath]⟩
  · rintro ⟨⟨rawPath, hpath⟩, rawDatasets, rawGroups, datasets', groups', hdatasets, hgroups,
      hdatasets', hgroups', rfl⟩
    refine ⟨.mk rawPath rawDatasets (o.order rawGroups), ?_, ?_⟩
    · simp [serialize, serializeGroups_eq, PathBuf.mapM_serialize_iff.mpr hpath, hdatasets,
        hgroups]
    · simp [SerializedGroup.deserialize, deserializeGroups_eq, hpath, hdatasets', hgroups']

theorem mem_datasets {datasets datasets' : List (Path × DatasetD)}
    {raws : List (Path × (Nat × Serialized))}
    (hwrite : (datasets.mapM fun p =>
      (DatasetD.serialize p.2).map fun ds => (p.1, ds)) = .ok raws)
    (hread : (raws.mapM fun p =>
      (DatasetD.deserialize Z p.2).map fun ds => (p.1, ds)) = .ok datasets') :
    datasets'.map Prod.fst = datasets.map Prod.fst ∧
      ∀ d ds, (d, ds) ∈ datasets' ↔ (d, ds) ∈ datasets := by
  obtain ⟨hkeys, hmem⟩ := mapM_keyed Prod.fst hwrite
  obtain ⟨hkeys', hmem'⟩ := mapM_keyed Prod.fst hread
  refine ⟨hkeys'.trans hkeys, fun d ds => ?_⟩
  rw [hmem']
  constructor
  · rintro ⟨⟨_, raw⟩, hin, rfl, hds⟩
    obtain ⟨⟨_, ds'⟩, hds', rfl, hraw⟩ := (hmem _ raw).mp hin
    obtain ⟨raw', hraw', hback⟩ := ds'.serialize_ok Z
    cases hraw.symm.trans hraw'
    cases hds.symm.trans hback
    exact hds'
  · intro hds
    obtain ⟨raw, hraw, hback⟩ := ds.serialize_ok Z
    exact ⟨(d, raw), (hmem d raw).mpr ⟨(d, ds), hds, rfl, hraw⟩, rfl, hback⟩

theorem mem_groups {groups groups' : List (Path × GroupIndex)}
    {raws raws' : List (Path × SerializedGroup)} (hperm : raws'.Perm raws)
    (hwrite : (groups.mapM fun p => (serialize o p.2).map fun raw => (p.1, raw)) = .ok raws)
    (hread : (raws'.mapM fun p =>
      (SerializedGroup.deserialize Z p.2).map fun grp => (p.1, grp)) = .ok groups') :
    (groups'.map Prod.fst).Perm (groups.map Prod.fst) ∧
      ∀ name u', (name, u') ∈ groups' ↔ ∃ u, (name, u) ∈ groups ∧ ReadBack Z o u u' := by
  obtain ⟨hkeys, hmem⟩ := mapM_keyed Prod.fst hwrite
  obtain ⟨hkeys', hmem'⟩ := mapM_keyed Prod.fst hread
  refine ⟨?_, fun name u' => ?_⟩
  · rw [hkeys', ← hkeys]
    exact hperm.map _
  · rw [hmem']
    constructor
    · rintro ⟨⟨_, raw⟩, hin, rfl, hu'⟩
      obtain ⟨⟨_, u⟩, hu, rfl, hraw⟩ := (hmem _ raw).mp (hperm.mem_iff.mp hin)
      exact ⟨u, hu, raw, hraw, hu'⟩
    · rintro ⟨u, hu, raw, hraw, hu'⟩
      exact ⟨(name, raw), hperm.mem_iff.mpr ((hmem name raw).mpr ⟨(name, u), hu, rfl, hraw⟩),
        rfl, hu'⟩

theorem readBack_exists (Z : Zerocopy) (o : MapOrder) (t : GroupIndex) (ht : t.Utf8) :
    ∃ t', ReadBack Z o t t' := by
  induction ht with
  | @mk path datasets groups hpath _ ih =>
      have hdatasets : ∃ raws, ((o.order datasets).mapM fun p =>
          (DatasetD.serialize p.2).map fun ds => (p.1, ds)) = .ok raws := by
        refine FailsOnly.mapM_keyed_returns fun p _ => ?_
        obtain ⟨v, hv, -⟩ := p.2.serialize_ok Z
        exact ⟨v, hv⟩
      have hgroups : ∃ raws, (groups.mapM fun p =>
          (serialize o p.2).map fun raw => (p.1, raw)) = .ok raws := by
        refine FailsOnly.mapM_keyed_returns fun p hp => ?_
        obtain ⟨u', raw, hraw, -⟩ := ih p hp
        exact ⟨raw, hraw⟩
      obtain ⟨rawDatasets, hrawDatasets⟩ := hdatasets
      obtain ⟨rawGroups, hrawGroups⟩ := hgroups
      have hdatasets' : ∃ datasets', (rawDatasets.mapM fun p =>
          (DatasetD.deserialize Z p.2).map fun ds => (p.1, ds)) = .ok datasets' := by
        refine FailsOnly.mapM_keyed_returns fun p hp => ?_
        obtain ⟨⟨_, ds⟩, -, -, hraw⟩ :=
          ((mapM_keyed Prod.fst hrawDatasets).2 p.1 p.2).mp hp
        obtain ⟨v, hv, hback⟩ := ds.serialize_ok Z
        cases hraw.symm.trans hv
        exact ⟨ds, hback⟩
      have hgroups' : ∃ groups', ((o.order rawGroups).mapM fun p =>
          (SerializedGroup.deserialize Z p.2).map fun grp => (p.1, grp)) = .ok groups' := by
        refine FailsOnly.mapM_keyed_returns fun p hp => ?_
        obtain ⟨⟨_, u⟩, hu, -, hraw⟩ := ((mapM_keyed Prod.fst hrawGroups).2
          p.1 p.2).mp ((o.perm _).mem_iff.mp hp)
        obtain ⟨u', raw, hraw', hback⟩ := ih _ hu
        cases hraw.symm.trans hraw'
        exact ⟨u', hback⟩
      obtain ⟨datasets', hd⟩ := hdatasets'
      obtain ⟨groups', hg⟩ := hgroups'
      exact ⟨_, readBack_iff.mpr
        ⟨hpath, _, _, _, _, hrawDatasets, hrawGroups, hd, hg, rfl⟩⟩

theorem serialize_fails (o : MapOrder) (ht : t.Distinct) :
    FailsOnly (fun fault => ∃ message, fault = .err message) (t.serialize o) ∧
      ∀ raw, t.serialize o = .ok raw → t.Utf8 := by
  induction ht with
  | @mk path datasets groups _ _ _ ih =>
      simp only [serialize, serializeGroups_eq]
      refine ⟨?_, fun raw hraw => ?_⟩
      · refine .bind ?_ fun _ _ => .bind ?_ fun _ _ => .bind ?_ fun _ _ => .ok _
        · cases path with
          | none => exact .ok _
          | some path => exact .bind (PathBuf.serialize_fails path) fun _ _ => .ok _
        · refine .mapM fun p _ => .map ?_ _
          obtain ⟨v, hv, -⟩ := p.2.serialize_ok zerocopy
          rw [hv]
          exact .ok _
        · exact .mapM fun p hp => .map (ih p hp).1 _
      · simp only [bind_eq_ok] at hraw
        obtain ⟨rawPath, hpath, -, -, rawGroups, hgroups, -⟩ := hraw
        refine .mk (PathBuf.utf8_iff.mp ⟨rawPath, PathBuf.mapM_serialize_iff.mp hpath⟩)
          fun p hp => ?_
        obtain ⟨q, -, hq⟩ := (mapM_ok_mem hgroups).1 p hp
        cases hraw : p.2.serialize o with
        | error fault => simp [hraw, Except.map] at hq
        | ok raw => exact (ih p hp).2 raw hraw

theorem ReadBack.path (h : ReadBack Z o t t') : t'.path = t.path := by
  obtain ⟨path, datasets, groups⟩ := t
  obtain ⟨-, _, _, _, _, -, -, -, -, rfl⟩ := readBack_iff.mp h
  rfl

theorem ReadBack.getDataset (h : ReadBack Z o t t') (ht : t.Distinct) (d : Path) :
    t'.getDataset d = t.getDataset d := by
  cases ht with
  | mk hdatasets hgroups _ =>
      obtain ⟨-, rawDatasets, rawGroups, datasets', groups', hwrite, -, hread, -, rfl⟩ :=
        readBack_iff.mp h
      obtain ⟨hkeys, hmem⟩ := mem_datasets hwrite hread
      have hdistinct : Keyed.Distinct datasets' := by
        rw [Keyed.Distinct, hkeys]
        exact hdatasets.perm (o.perm _)
      apply Option.ext
      intro ds
      rw [GroupIndex.getDataset, GroupIndex.getDataset, Keyed.lookup_collect hdistinct, hmem,
        (o.perm _).mem_iff, Keyed.lookup_eq_some_iff_mem hdatasets]

theorem ReadBack.getGroup (h : ReadBack Z o t t') (ht : t.Distinct) (name : Path) :
    t'.getGroup name = some u' ↔ ∃ u, t.getGroup name = some u ∧ ReadBack Z o u u' := by
  cases ht with
  | mk hdatasets hgroups _ =>
      obtain ⟨-, rawDatasets, rawGroups, datasets', groups', -, hwrite, -, hread, rfl⟩ :=
        readBack_iff.mp h
      obtain ⟨hkeys, hmem⟩ := mem_groups (o.perm _) hwrite hread
      have hdistinct : Keyed.Distinct groups' := hkeys.nodup_iff.mpr hgroups
      simp only [GroupIndex.getGroup]
      rw [Keyed.lookup_collect hdistinct, hmem]
      simp only [Keyed.lookup_eq_some_iff_mem hgroups]

theorem ReadBack.nested (h : ReadBack Z o t t') {name : Path}
    (hu : t.getGroup name = some u) : ∃ u', ReadBack Z o u u' := by
  obtain ⟨path, datasets, groups⟩ := t
  obtain ⟨-, rawDatasets, rawGroups, datasets', groups', -, hwrite, -, hread, -⟩ :=
    readBack_iff.mp h
  obtain ⟨before, after, hgroups, -⟩ := List.lookup_eq_some_iff.mp hu
  have hmem : (name, u) ∈ groups := by simp [show groups = _ from hgroups]
  obtain ⟨p, hp, hraw⟩ := (mapM_ok_mem hwrite).1 _ hmem
  cases hraw' : serialize o u with
  | error fault => simp [hraw', Except.map] at hraw
  | ok raw =>
      obtain rfl : (name, raw) = p := by simpa [hraw', Except.map] using hraw
      obtain ⟨q, -, hq⟩ := (mapM_ok_mem hread).1 _ ((o.perm _).mem_iff.mpr hp)
      cases hback : SerializedGroup.deserialize Z raw with
      | error fault => simp [hback, Except.map] at hq
      | ok u' => exact ⟨u', raw, hraw', hback⟩

theorem Distinct.getGroup (ht : t.Distinct) {name : Path} (h : t.getGroup name = some u') :
    u'.Distinct := by
  cases ht with
  | mk _ hgroups hnested =>
      exact hnested (name, u') ((Keyed.lookup_eq_some_iff_mem hgroups).mp h)

theorem Distinct.follow (ht : t.Distinct) {names : List Path}
    (h : t.follow names = some u') : u'.Distinct := by
  induction names generalizing t with
  | nil =>
      cases h
      exact ht
  | cons name names ih =>
      obtain ⟨v, hv, hfollow⟩ := Option.bind_eq_some_iff.mp h
      exact ih (ht.getGroup hv) hfollow

theorem ReadBack.follow (h : ReadBack Z o t t') (ht : t.Distinct) (names : List Path) :
    t'.follow names = some u' ↔ ∃ u, t.follow names = some u ∧ u.Distinct ∧
      ReadBack Z o u u' := by
  induction names generalizing t t' with
  | nil =>
      simp only [GroupIndex.follow, Option.some.injEq]
      constructor
      · rintro rfl
        exact ⟨t, rfl, ht, h⟩
      · rintro ⟨u, rfl, -, hu⟩
        obtain ⟨raw, hraw, hback⟩ := h
        obtain ⟨raw', hraw', hback'⟩ := hu
        cases hraw.symm.trans hraw'
        exact Except.ok.inj (hback.symm.trans hback')
  | cons name names ih =>
      simp only [GroupIndex.follow, Option.bind_eq_some_iff, h.getGroup ht]
      constructor
      · rintro ⟨v', ⟨v, hv, hread⟩, hfollow⟩
        obtain ⟨u, hu, hdistinct, hback⟩ := (ih hread (ht.getGroup hv)).mp hfollow
        exact ⟨u, ⟨v, hv, hu⟩, hdistinct, hback⟩
      · rintro ⟨u, ⟨v, hv, hu⟩, hdistinct, hback⟩
        obtain ⟨v', hread⟩ := h.nested hv
        exact ⟨v', ⟨v, hv, hread⟩, (ih hread (ht.getGroup hv)).mpr ⟨u, hu, hdistinct, hback⟩⟩

theorem ReadBack.reached (h : ReadBack Z o t t') {names : List Path}
    (hu : t.follow names = some u) : ∃ u', ReadBack Z o u u' := by
  induction names generalizing t t' with
  | nil =>
      cases hu
      exact ⟨t', h⟩
  | cons name names ih =>
      obtain ⟨v, hv, hfollow⟩ := Option.bind_eq_some_iff.mp hu
      obtain ⟨v', hread⟩ := h.nested hv
      exact ih hread hfollow

theorem ReadBack.followDataset (h : ReadBack Z o t t') (ht : t.Distinct) (names : List Path)
    (d : Path) : t'.followDataset names d = t.followDataset names d := by
  apply Option.ext
  intro ds
  simp only [GroupIndex.followDataset, Option.bind_eq_some_iff, h.follow ht]
  constructor
  · rintro ⟨u', ⟨u, hu, hdistinct, hback⟩, hds⟩
    exact ⟨u, hu, by rwa [← hback.getDataset hdistinct]⟩
  · rintro ⟨u, hu, hds⟩
    have hdistinct := ht.follow hu
    obtain ⟨u', hback⟩ := h.reached hu
    exact ⟨u', ⟨u, hu, hdistinct, hback⟩, by rwa [hback.getDataset hdistinct]⟩

/-- Under every path the same dataset is found. -/
theorem ReadBack.dataset (h : ReadBack Z o t t') (ht : t.Distinct) (s : Path) :
    t'.dataset s = t.dataset s := by
  have hne : (Separated.trimStart '/' s).splitOn '/' ≠ [] := List.splitOn_ne_nil _ _
  have hsplit := (List.dropLast_append_getLast hne).symm
  rw [dataset_eq hsplit, dataset_eq hsplit, h.followDataset ht]

theorem ReadBack.group (h : ReadBack Z o t t') (ht : t.Distinct) (s p : Path) :
    (t'.group s).map (fun u => (u.path, u.dataset p)) =
      (t.group s).map fun u => (u.path, u.dataset p) := by
  rw [group_eq rfl, group_eq rfl]
  apply Option.ext
  intro found
  simp only [Option.map_eq_some_iff, h.follow ht]
  constructor
  · rintro ⟨u', ⟨u, hu, hdistinct, hback⟩, rfl⟩
    exact ⟨u, hu, by rw [hback.path, hback.dataset hdistinct]⟩
  · rintro ⟨u, hu, rfl⟩
    have hdistinct := ht.follow hu
    obtain ⟨u', hback⟩ := h.reached hu
    exact ⟨u', ⟨u, hu, hdistinct, hback⟩, by rw [hback.path, hback.dataset hdistinct]⟩

theorem ReadBack.distinct (h : ReadBack Z o t t') (ht : t.Distinct) : t'.Distinct := by
  induction ht generalizing t' with
  | @mk _ datasets groups hdatasets hgroups _ ih =>
      obtain ⟨-, rawDatasets, rawGroups, datasets', groups', -, hwrite, -, hread, rfl⟩ :=
        readBack_iff.mp h
      obtain ⟨hkeys, hmem⟩ := mem_groups (o.perm _) hwrite hread
      have hdistinct : Keyed.Distinct groups' := hkeys.nodup_iff.mpr hgroups
      refine .mk (Keyed.distinct_collect _) (Keyed.distinct_collect _) fun p hp => ?_
      obtain ⟨u, hu, hback⟩ := (hmem p.1 p.2).mp ((Keyed.mem_collect hdistinct).mp hp)
      exact ih (p.1, u) hu hback

theorem indexGroup_distinct {b : Build} {path : Option PathBuf} (g : Hdf5Group)
    {t : GroupIndex} (ht : indexGroup b path g = .ok t) : t.Distinct := by
  induction g using Hdf5Group.nested_induction generalizing t with
  | step g ih =>
      obtain ⟨-, datasets, groups, -, hgroups, rfl⟩ := indexGroup_eq_ok_iff.mp ht
      rw [indexGroups_eq] at hgroups
      refine .mk (Keyed.distinct_collect _) (Keyed.distinct_collect _) fun p hp => ?_
      obtain ⟨g', hg', -, hindex⟩ :=
        ((mapM_keyed Hdf5Group.key hgroups).2 p.1 p.2).mp (Keyed.mem_of_mem_collect hp)
      exact ih g' hg' hindex

theorem indexGroup_utf8 {b : Build} {path : Option PathBuf}
    (hpath : ∀ p ∈ path, ByteArray.IsValidUTF8 p) (g : Hdf5Group) {t : GroupIndex}
    (ht : indexGroup b path g = .ok t) : t.Utf8 := by
  induction g using Hdf5Group.nested_induction generalizing t with
  | step g ih =>
      obtain ⟨-, datasets, groups, -, hgroups, rfl⟩ := indexGroup_eq_ok_iff.mp ht
      rw [indexGroups_eq] at hgroups
      refine .mk hpath fun p hp => ?_
      obtain ⟨g', hg', -, hindex⟩ :=
        ((mapM_keyed Hdf5Group.key hgroups).2 p.1 p.2).mp (Keyed.mem_of_mem_collect hp)
      exact ih g' hg' hindex

end GroupIndex

/--
An index whose paths are valid Unicode is written and read back, whatever the order of
its maps: under every path there is the same dataset, in every group as well.  Any other
index is not written.
-/
theorem index_read_back (Z : Zerocopy) (t : GroupIndex) (ht : t.Distinct) (o : MapOrder) :
    (t.Utf8 → ∃ raw t', t.serialize o = .ok raw ∧ raw.deserialize Z = .ok t' ∧
      t'.Distinct ∧ t'.path = t.path ∧ (∀ s, t'.dataset s = t.dataset s) ∧
      ∀ s p, (t'.group s).map (fun u => (u.path, u.dataset p)) =
        (t.group s).map fun u => (u.path, u.dataset p)) ∧
    (¬ t.Utf8 → ∃ message, t.serialize o = bail message) := by
  obtain ⟨hfails, hutf8⟩ := GroupIndex.serialize_fails o ht
  refine ⟨fun hvalid => ?_, fun hvalid => ?_⟩
  · obtain ⟨t', raw, hraw, hback⟩ := GroupIndex.readBack_exists Z o t hvalid
    have h : GroupIndex.ReadBack Z o t t' := ⟨raw, hraw, hback⟩
    exact ⟨raw, t', hraw, hback, h.distinct ht, h.path, h.dataset ht, h.group ht⟩
  · cases hraw : t.serialize o with
    | ok raw => exact absurd (hutf8 raw hraw) hvalid
    | error fault =>
        obtain ⟨message, rfl⟩ := hfails fault hraw
        exact ⟨message, rfl⟩

theorem index_read_back_nestedFile :
    ∃ t, GroupIndex.indexGroup .debug (some "f".toUTF8) nestedFile = .ok t ∧
      ∃ raw t', t.serialize ⟨List.reverse, List.reverse_perm⟩ = .ok raw ∧
        raw.deserialize zerocopy = .ok t' ∧ t'.Distinct ∧ t'.path = t.path ∧
        (∀ s, t'.dataset s = t.dataset s) ∧
        ∀ s p, (t'.group s).map (fun u => (u.path, u.dataset p)) =
          (t.group s).map fun u => (u.path, u.dataset p) := by
  obtain ⟨t, ht⟩ := promised_nestedFile.indexed sizesFit_nestedFile supported_nestedFile
    .debug (some "f".toUTF8)
  have hvalid : ∀ p ∈ some "f".toUTF8, ByteArray.IsValidUTF8 p := by
    rintro _ ⟨⟩
    exact "f".isValidUTF8
  exact ⟨t, ht, (index_read_back zerocopy t (GroupIndex.indexGroup_distinct nestedFile ht)
    ⟨List.reverse, List.reverse_perm⟩).1 (GroupIndex.indexGroup_utf8 hvalid nestedFile ht)⟩

end Hidefix.Idx
