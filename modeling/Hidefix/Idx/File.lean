import Hidefix.Foundation.Faults
import Hidefix.Foundation.Keyed
import Hidefix.Idx.Index
import Hidefix.Idx.Indexed

/-!
# Indexing a file

A file is a tree of groups.  Indexing lists the members of a group, indexes the datasets
among them that are stored, and goes on with the nested groups; the first error ends it.
What is looked up in the index under a path is the dataset that the file has there.
-/

namespace Hidefix.Idx

open Foundation
open Separated (IsName)

variable {b : Build}

/-! ## The file -/

/--
What the HDF5 library reports of a group: its name, the names of its members, with what
opening them as datasets gives, and its nested groups.
-/
inductive Hdf5Group where
  | mk (name : Path) (memberNames : Except String (List (Path × Option Hdf5Dataset)))
      (groups : Except String (List Hdf5Group))

/-- `d.is_chunked() || d.offset().is_some()` -/
def Hdf5Dataset.kept (d : Hdf5Dataset) : Bool := d.isChunked || d.offset.isSome

namespace Hdf5Group

/-- `grp.name().split('/').next_back().unwrap()` -/
def key : Hdf5Group → Path
  | .mk name _ _ => (name.splitOn '/').getLastD []

def members : Hdf5Group → List (Path × Option Hdf5Dataset)
  | .mk _ (.ok members) _ => members
  | _ => []

def nested : Hdf5Group → List Hdf5Group
  | .mk _ _ (.ok groups) => groups
  | _ => []

def Listed : Hdf5Group → Prop
  | .mk _ members groups => members.isOk ∧ groups.isOk

def datasets (members : List (Path × Option Hdf5Dataset)) : List (Path × Hdf5Dataset) :=
  (members.filterMap fun (m, d) => d.map fun d => (m, d)).filter fun (_, d) => d.kept

end Hdf5Group

/-! ## Indexing -/

/-- `panic!("Dataset only implemented for 0..9 dimensions (not {n})")` -/
def DatasetD.notImplemented (n : Nat) : Fault :=
  .panic (.message s!"Dataset only implemented for 0..9 dimensions (not {n})")

def DatasetD.index (b : Build) (ds : Hdf5Dataset) : Exec DatasetD :=
  if hle : ds.shape.length ≤ 9 then do
    .ok ⟨ds.shape.length, hle, ← Dataset.index b ds.shape.length ds⟩
  else .error (DatasetD.notImplemented ds.shape.length)

/-- `DatasetD::index(&d).map(|d| (m.clone(), d))` -/
def indexMember (b : Build) (p : Path × Hdf5Dataset) : Exec (Path × DatasetD) :=
  (DatasetD.index b p.2).map fun d => (p.1, d)

def orBail {α : Type} : Except String α → Exec α
  | .ok xs => .ok xs
  | .error message => bail message

mutual

def GroupIndex.indexGroup (b : Build) (path : Option PathBuf) :
    Hdf5Group → Exec GroupIndex
  | .mk _ memberNames groups => do
      let members ← orBail memberNames
      let datasets ← (Hdf5Group.datasets members).mapM (indexMember b)
      let groups ← match groups with
        | .ok groups => GroupIndex.indexGroups b path groups
        | .error message => bail message
      .ok { path, datasets := Keyed.collect datasets, groups := Keyed.collect groups }

def GroupIndex.indexGroups (b : Build) (path : Option PathBuf) :
    List Hdf5Group → Exec (List (Path × GroupIndex))
  | [] => .ok []
  | grp :: groups => do
      let idx ← GroupIndex.indexGroup b path grp
      .ok ((grp.key, idx) :: (← GroupIndex.indexGroups b path groups))

end

/-! ## The names of a file -/

namespace Hdf5Group

inductive Reaches : Hdf5Group → List Path → Hdf5Group → Prop
  | here {g} : Reaches g [] g
  | down {g g' g'' name names} : g' ∈ g.nested → g'.key = name → Reaches g' names g'' →
      Reaches g (name :: names) g''

def Holds (g : Hdf5Group) (names : List Path) (d : Path) (h : Hdf5Dataset) : Prop :=
  ∃ g', g.Reaches names g' ∧ (d, h) ∈ datasets g'.members

def Distinct (g : Hdf5Group) : Prop :=
  ∀ names g', g.Reaches names g' →
    Keyed.Distinct g'.members ∧ (g'.nested.map key).Nodup

/-- What holds of a group if it holds of the nested ones holds of all groups. -/
theorem nested_induction {P : Hdf5Group → Prop}
    (step : ∀ g, (∀ g' ∈ g.nested, P g') → P g) (g : Hdf5Group) : P g := by
  refine step g fun g' hg' => ?_
  have hlt : sizeOf g' < sizeOf g := by
    obtain ⟨name, members, groups⟩ := g
    cases groups with
    | error message => simp [nested] at hg'
    | ok groups =>
        have hlt := List.sizeOf_lt_of_mem hg'
        simp [nested] at hlt ⊢
        omega
  exact nested_induction step g'
termination_by sizeOf g

theorem Distinct.nested {g g' : Hdf5Group} (h : g.Distinct) (hg' : g' ∈ g.nested) :
    g'.Distinct := fun names g'' hreach => h (g'.key :: names) g'' (.down hg' rfl hreach)

theorem Distinct.reached {g g' : Hdf5Group} (h : g.Distinct) {names : List Path}
    (hreach : g.Reaches names g') : g'.Distinct := by
  induction hreach with
  | here => exact h
  | down hmem _ _ ih => exact ih (h.nested hmem)

theorem distinct_datasets {members : List (Path × Option Hdf5Dataset)}
    (h : Keyed.Distinct members) : Keyed.Distinct (datasets members) := by
  have hsub : ((members.filterMap fun (m, d) => d.map fun d => (m, d)).map
      Prod.fst).Sublist (members.map Prod.fst) := by
    clear h
    induction members with
    | nil => simp
    | cons p members ih =>
        obtain ⟨m, d⟩ := p
        cases d with
        | none => simpa using ih.cons _
        | some d => simpa using ih
  exact h.sublist ((List.filter_sublist.map _).trans hsub)

end Hdf5Group

/-! ## What is indexed -/

theorem mapM_keyed {α β : Type} {f : α → Exec β} (key : α → Path) {xs : List α}
    {ps : List (Path × β)} (h : (xs.mapM fun x => (f x).map fun y => (key x, y)) = .ok ps) :
    ps.map Prod.fst = xs.map key ∧
      ∀ name y, (name, y) ∈ ps ↔ ∃ x ∈ xs, key x = name ∧ f x = .ok y := by
  have hall := mapM_ok_forall₂ h
  clear h
  induction hall with
  | nil => simp
  | @cons x p xs ps hx _ ih =>
      obtain ⟨y, hy, rfl⟩ : ∃ y, f x = .ok y ∧ (key x, y) = p := by
        cases hf : f x with
        | error fault => simp [hf, Except.map] at hx
        | ok y => exact ⟨y, rfl, by simpa [hf, Except.map] using hx⟩
      simp [ih.1, ih.2, hy, eq_comm]

namespace GroupIndex

open Hdf5Group (Reaches Holds)

variable {g g' : Hdf5Group} {t t' : GroupIndex} {path : Option PathBuf}

theorem indexGroups_eq (b : Build) (path : Option PathBuf) (groups : List Hdf5Group) :
    indexGroups b path groups =
      groups.mapM fun grp => (indexGroup b path grp).map fun idx => (grp.key, idx) := by
  induction groups with
  | nil => simp [indexGroups, pure, Except.pure]
  | cons grp groups ih =>
      rw [indexGroups, List.mapM_cons, ih]
      cases indexGroup b path grp <;> rfl

theorem indexGroup_listed (h : g.Listed) : indexGroup b path g = (do
    let datasets ← (Hdf5Group.datasets g.members).mapM (indexMember b)
    let groups ← indexGroups b path g.nested
    .ok ⟨path, Keyed.collect datasets, Keyed.collect groups⟩) := by
  obtain ⟨name, members, groups⟩ := g
  unfold Hdf5Group.Listed at h
  cases members <;> cases groups <;> simp [Except.isOk, Except.toBool] at h
  simp [indexGroup, orBail, Hdf5Group.members, Hdf5Group.nested]

theorem indexGroup_unlisted (b : Build) (path : Option PathBuf) (h : ¬ g.Listed) :
    ∃ message, indexGroup b path g = bail message ∨ indexGroup b path g = (do
      let _ ← (Hdf5Group.datasets g.members).mapM (indexMember b)
      bail message) := by
  obtain ⟨name, members, groups⟩ := g
  unfold Hdf5Group.Listed at h
  cases members with
  | error message => exact ⟨message, .inl (by simp [indexGroup, orBail, bail])⟩
  | ok members =>
      cases groups with
      | error message =>
          exact ⟨message, .inr (by simp [indexGroup, orBail, Hdf5Group.members, bail])⟩
      | ok groups => simp [Except.isOk, Except.toBool] at h

theorem indexGroup_eq_ok_iff : indexGroup b path g = .ok t ↔
    g.Listed ∧ ∃ datasets groups,
      (Hdf5Group.datasets g.members).mapM (indexMember b) = .ok datasets ∧
      indexGroups b path g.nested = .ok groups ∧
      t = ⟨path, Keyed.collect datasets, Keyed.collect groups⟩ := by
  by_cases h : g.Listed
  · simp [indexGroup_listed h, h, bind_eq_ok, eq_comm (b := t)]
  · obtain ⟨message, hbail | hbail⟩ := indexGroup_unlisted b path h <;>
      simp [hbail, h, bail, bind_eq_ok]

theorem indexGroup_path (ht : indexGroup b path g = .ok t) : t.path = path := by
  obtain ⟨-, _, _, -, -, rfl⟩ := indexGroup_eq_ok_iff.mp ht
  rfl

theorem getGroup_eq_some_iff (hg : g.Distinct) (ht : indexGroup b path g = .ok t)
    {name : Path} : t.getGroup name = some t' ↔
      ∃ g' ∈ g.nested, g'.key = name ∧ indexGroup b path g' = .ok t' := by
  obtain ⟨-, datasets, groups, -, hgroups, rfl⟩ := indexGroup_eq_ok_iff.mp ht
  rw [indexGroups_eq] at hgroups
  obtain ⟨hkeys, hmem⟩ := mapM_keyed Hdf5Group.key hgroups
  have hdistinct : Keyed.Distinct groups := by
    rw [Keyed.Distinct, hkeys]
    exact (hg [] g .here).2
  rw [getGroup, Keyed.lookup_collect hdistinct, hmem]

theorem getDataset_eq_some_iff (hg : g.Distinct) (ht : indexGroup b path g = .ok t)
    {d : Path} {ds : DatasetD} : t.getDataset d = some ds ↔
      ∃ h, (d, h) ∈ Hdf5Group.datasets g.members ∧ DatasetD.index b h = .ok ds := by
  obtain ⟨-, datasets, groups, hdatasets, -, rfl⟩ := indexGroup_eq_ok_iff.mp ht
  obtain ⟨hkeys, hmem⟩ := mapM_keyed Prod.fst hdatasets
  have hdistinct : Keyed.Distinct datasets := by
    rw [Keyed.Distinct, hkeys]
    exact Hdf5Group.distinct_datasets (hg [] g .here).1
  rw [getDataset, Keyed.lookup_collect hdistinct, hmem]
  constructor
  · rintro ⟨⟨_, h⟩, hd, rfl, hindex⟩
    exact ⟨h, hd, hindex⟩
  · rintro ⟨h, hd, hindex⟩
    exact ⟨_, hd, rfl, hindex⟩

theorem indexGroup_nested (ht : indexGroup b path g = .ok t) (hg' : g' ∈ g.nested) :
    ∃ t', indexGroup b path g' = .ok t' := by
  obtain ⟨-, -, groups, -, hgroups, -⟩ := indexGroup_eq_ok_iff.mp ht
  rw [indexGroups_eq] at hgroups
  obtain ⟨p, -, hp⟩ := (mapM_ok_mem hgroups).1 g' hg'
  cases hindex : indexGroup b path g' with
  | error fault => simp [hindex, Except.map] at hp
  | ok t' => exact ⟨t', rfl⟩

theorem indexGroup_dataset (ht : indexGroup b path g = .ok t) {p : Path × Hdf5Dataset}
    (hp : p ∈ Hdf5Group.datasets g.members) : ∃ ds, DatasetD.index b p.2 = .ok ds := by
  obtain ⟨-, datasets, -, hdatasets, -⟩ := indexGroup_eq_ok_iff.mp ht
  obtain ⟨q, -, hq⟩ := (mapM_ok_mem hdatasets).1 p hp
  cases hindex : DatasetD.index b p.2 with
  | error fault => simp [indexMember, hindex, Except.map] at hq
  | ok ds => exact ⟨ds, rfl⟩

theorem follow_eq_some_iff (hg : g.Distinct) (ht : indexGroup b path g = .ok t)
    {names : List Path} : t.follow names = some t' ↔
      ∃ g', g.Reaches names g' ∧ indexGroup b path g' = .ok t' := by
  induction names generalizing g t with
  | nil =>
      constructor
      · intro h
        cases h
        exact ⟨g, .here, ht⟩
      · rintro ⟨g', hreach, hindex⟩
        cases hreach
        cases ht.symm.trans hindex
        rfl
  | cons name names ih =>
      simp only [follow, Option.bind_eq_some_iff, getGroup_eq_some_iff hg ht]
      constructor
      · rintro ⟨u, ⟨g₁, hg₁, hname, hindex⟩, hfollow⟩
        obtain ⟨g', hreach, hg'⟩ := (ih (hg.nested hg₁) hindex).mp hfollow
        exact ⟨g', .down hg₁ hname hreach, hg'⟩
      · rintro ⟨g', hreach, hg'⟩
        cases hreach with
        | @down _ g₁ _ _ _ hg₁ hname hreach =>
            obtain ⟨u, hu⟩ := indexGroup_nested ht hg₁
            exact ⟨u, ⟨g₁, hg₁, hname, hu⟩,
              (ih (hg.nested hg₁) hu).mpr ⟨g', hreach, hg'⟩⟩

theorem indexGroup_reached (ht : indexGroup b path g = .ok t) {names : List Path}
    (h : g.Reaches names g') : ∃ t', indexGroup b path g' = .ok t' := by
  induction h generalizing t with
  | here => exact ⟨t, ht⟩
  | down hmem _ _ ih =>
      obtain ⟨u, hu⟩ := indexGroup_nested ht hmem
      exact ih hu

theorem followDataset_eq_some_iff (hg : g.Distinct) (ht : indexGroup b path g = .ok t)
    {names : List Path} {d : Path} {ds : DatasetD} :
    t.followDataset names d = some ds ↔
      ∃ h, g.Holds names d h ∧ DatasetD.index b h = .ok ds := by
  simp only [followDataset, Option.bind_eq_some_iff, follow_eq_some_iff hg ht]
  constructor
  · rintro ⟨t', ⟨g', hreach, hindex⟩, hget⟩
    obtain ⟨h, hmem, hh⟩ := (getDataset_eq_some_iff (hg.reached hreach) hindex).mp hget
    exact ⟨h, ⟨g', hreach, hmem⟩, hh⟩
  · rintro ⟨h, ⟨g', hreach, hmem⟩, hh⟩
    obtain ⟨t', hindex⟩ := indexGroup_reached ht hreach
    exact ⟨t', ⟨g', hreach, hindex⟩,
      (getDataset_eq_some_iff (hg.reached hreach) hindex).mpr ⟨h, hmem, hh⟩⟩

/-! ## Which files are indexed -/

theorem indexGroup_fails {P : Fault → Prop} (g : Hdf5Group)
    (hlisted : ∀ names g', g.Reaches names g' → g'.Listed ∨ ∀ message, P (.err message))
    (hdatasets : ∀ names d h, g.Holds names d h → FailsOnly P (DatasetD.index b h)) :
    FailsOnly P (indexGroup b path g) := by
  induction g using Hdf5Group.nested_induction with
  | step g ih =>
      have hmembers : FailsOnly P
          ((Hdf5Group.datasets g.members).mapM (indexMember b)) :=
        .mapM fun p hp => .map (hdatasets [] p.1 p.2 ⟨g, .here, hp⟩) _
      have hnested : FailsOnly P (indexGroups b path g.nested) := by
        rw [indexGroups_eq]
        refine .mapM fun g₁ hg₁ => .map (ih g₁ hg₁ (fun names g' hreach => ?_)
          fun names d h hholds => ?_) _
        · exact hlisted (g₁.key :: names) g' (.down hg₁ rfl hreach)
        · obtain ⟨g', hreach, hmem⟩ := hholds
          exact hdatasets (g₁.key :: names) d h ⟨g', .down hg₁ rfl hreach, hmem⟩
      by_cases hg : g.Listed
      · rw [indexGroup_listed hg]
        exact hmembers.bind fun _ _ => hnested.bind fun _ _ => .ok _
      · have herr := (hlisted [] g .here).resolve_left hg
        obtain ⟨message, hbail | hbail⟩ := indexGroup_unlisted b path hg
        · rw [hbail]
          exact .error (herr message)
        · rw [hbail]
          exact hmembers.bind fun _ _ => .error (herr message)

end GroupIndex

/-! ## Files that keep their promises -/

structure Hdf5Group.Promised (g : Hdf5Group) : Prop where
  distinct : g.Distinct
  datasets : ∀ names d h, g.Holds names d h → h.Promised

/-- The products of the sizes of each dataset are words. -/
def Hdf5Group.SizesFit (g : Hdf5Group) : Prop :=
  ∀ names d h, g.Holds names d h → h.SizesFit

def Hdf5Dataset.Supported (h : Hdf5Dataset) : Prop :=
  h.shape.length ≤ 9 ∧ Indexable h.shape.length h

structure Hdf5Group.Supported (g : Hdf5Group) : Prop where
  listed : ∀ names g', g.Reaches names g' → g'.Listed
  datasets : ∀ names d h, g.Holds names d h → h.Supported

section Promised

variable {h : Hdf5Dataset} {g : Hdf5Group}

theorem Hdf5Dataset.Promised.index_ok_iff (hp : h.Promised) (hfits : h.SizesFit)
    {ds : DatasetD} (hindex : DatasetD.index b h = .ok ds) :
    h.Supported ∧ IndexedAs h ds.ds := by
  unfold DatasetD.index at hindex
  split at hindex
  · rename_i hle
    obtain ⟨ds', hds', hindex⟩ := bind_eq_ok.mp hindex
    cases hindex
    by_cases hi : Indexable h.shape.length h
    · obtain ⟨ds'', hds'', has⟩ := hp.index_ok hfits hi b
      cases hds'.symm.trans hds''
      exact ⟨⟨hle, hi⟩, has⟩
    · obtain ⟨message, hbail⟩ := hp.index_bail hfits hi b
      rw [hbail] at hds'
      cases hds'
  · cases hindex

theorem Hdf5Dataset.Promised.indexed (hp : h.Promised) (hfits : h.SizesFit)
    (hs : h.Supported) (b : Build) : ∃ ds, DatasetD.index b h = .ok ds := by
  obtain ⟨ds, hds, -⟩ := hp.index_ok hfits hs.2 b
  exact ⟨⟨_, hs.1, ds⟩, by simp [DatasetD.index, hs.1, hds]⟩

theorem Hdf5Dataset.Promised.index_fails (hp : h.Promised) (hfits : h.SizesFit) :
    FailsOnly (fun fault => (∃ message, fault = .err message) ∨
      9 < h.shape.length ∧ fault = DatasetD.notImplemented h.shape.length)
      (DatasetD.index b h) := by
  unfold DatasetD.index
  split
  · refine .bind (fun fault hfault => ?_) fun _ _ => .ok _
    by_cases hi : Indexable h.shape.length h
    · obtain ⟨ds, hds, -⟩ := hp.index_ok hfits hi b
      rw [hds] at hfault
      cases hfault
    · obtain ⟨message, hbail⟩ := hp.index_bail hfits hi b
      rw [hbail] at hfault
      cases hfault
      exact .inl ⟨message, rfl⟩
  · exact .error (.inr ⟨by omega, rfl⟩)

theorem Hdf5Group.Promised.indexed (hg : g.Promised) (hfits : g.SizesFit)
    (hs : g.Supported) (b : Build) (path : Option PathBuf) :
    ∃ t, GroupIndex.indexGroup b path g = .ok t := by
  refine (GroupIndex.indexGroup_fails g (fun names g' hreach => .inl ?_)
    fun names d h hholds => ?_).returns
  · exact hs.listed names g' hreach
  · obtain ⟨ds, hds⟩ :=
      (hg.datasets names d h hholds).indexed (hfits names d h hholds)
        (hs.datasets names d h hholds) b
    rw [hds]
    exact .ok _

section Paths

variable {t : GroupIndex} {path : Option PathBuf} {names : List Path} {d : Path}

theorem GroupIndex.dataset_path (hnames : ∀ name ∈ names ++ [d], IsName '/' name)
    (before : Nat) : t.dataset (groupPath before (names ++ [d]) 0) =
      t.followDataset names d := by
  refine dataset_eq ?_
  rw [groupPath, Separated.trimStart_join (by simp) hnames,
    Separated.splitOn_join_replicate (by simp) hnames]
  simp

theorem Hdf5Group.Promised.dataset_found (hg : g.Promised) (hfits : g.SizesFit)
    (ht : GroupIndex.indexGroup b path g = .ok t)
    (hnames : ∀ name ∈ names ++ [d], IsName '/' name) (before : Nat)
    (hholds : g.Holds names d h) :
    ∃ ds, t.dataset (GroupIndex.groupPath before (names ++ [d]) 0) = some ds ∧
      IndexedAs h ds.ds := by
  obtain ⟨g', hreach, hmem⟩ := hholds
  obtain ⟨t', ht'⟩ := GroupIndex.indexGroup_reached ht hreach
  obtain ⟨ds, hindex⟩ := GroupIndex.indexGroup_dataset ht' hmem
  have hpromised := hg.datasets names d h ⟨g', hreach, hmem⟩
  have hsizes := hfits names d h ⟨g', hreach, hmem⟩
  refine ⟨ds, ?_, (hpromised.index_ok_iff hsizes hindex).2⟩
  rw [GroupIndex.dataset_path hnames, GroupIndex.followDataset_eq_some_iff hg.distinct ht]
  exact ⟨h, ⟨g', hreach, hmem⟩, hindex⟩

end Paths

end Promised

/-! ## A dataset in a group -/

def nestedFile : Hdf5Group :=
  .mk ['/']
    (.ok [(['a'], none), (['n'], some { threeDataset with isChunked := false })])
    (.ok [.mk ['/', 'a'] (.ok [(['v'], some threeDataset)]) (.ok [])])

theorem reaches_nestedFile {names : List Path} {g : Hdf5Group}
    (h : nestedFile.Reaches names g) :
    g = nestedFile ∨ g = .mk ['/', 'a'] (.ok [(['v'], some threeDataset)]) (.ok []) := by
  cases h with
  | here => exact .inl rfl
  | down hmem _ hreach =>
      obtain rfl := List.mem_singleton.mp hmem
      cases hreach with
      | here => exact .inr rfl
      | down hmem _ _ => cases hmem

theorem holds_nestedFile {names : List Path} {d : Path} {h : Hdf5Dataset}
    (hholds : nestedFile.Holds names d h) : h = threeDataset := by
  obtain ⟨g, hreach, hmem⟩ := hholds
  obtain rfl | rfl := reaches_nestedFile hreach
  · cases hmem
  · obtain ⟨-, rfl⟩ := Prod.mk.inj (List.mem_singleton.mp hmem)
    rfl

theorem promised_nestedFile : nestedFile.Promised where
  distinct := by
    intro names g hreach
    obtain rfl | rfl := reaches_nestedFile hreach <;> decide
  datasets := by
    intro names d h hholds
    rw [holds_nestedFile hholds]
    exact promised_three

theorem sizesFit_nestedFile : nestedFile.SizesFit := by
  intro names d h hholds
  rw [holds_nestedFile hholds]
  exact sizesFit_three

theorem supported_nestedFile : nestedFile.Supported where
  listed := by
    intro names g hreach
    obtain rfl | rfl := reaches_nestedFile hreach <;> exact ⟨rfl, rfl⟩
  datasets := by
    intro names d h hholds
    rw [holds_nestedFile hholds]
    exact ⟨by decide, indexable_three⟩

theorem names_nestedFile : ∀ name ∈ [['a']] ++ [['v']], IsName '/' name := by
  intro name hname
  rcases List.mem_cons.mp hname with rfl | hname
  · exact ⟨by decide, by decide⟩
  · obtain rfl := List.mem_singleton.mp hname
    exact ⟨by decide, by decide⟩

theorem holds_v : nestedFile.Holds [['a']] ['v'] threeDataset :=
  ⟨_, .down List.mem_cons_self rfl .here, List.mem_singleton.mpr rfl⟩

/-! ## The index of a file -/

/--
A file of datasets whose sizes fit is indexed exactly where its groups can be listed and
its datasets, except those that are not allocated, can be indexed.  A file that is not
indexed is refused with an error, unless a dataset has more than nine dimensions.
-/
theorem file_indexed_iff (g : Hdf5Group) (hg : g.Promised) (hfits : g.SizesFit)
    (b : Build) (path : Option PathBuf) :
    ((∃ t, GroupIndex.indexGroup b path g = .ok t) ↔ g.Supported) ∧
      ∀ fault, GroupIndex.indexGroup b path g = .error fault →
        (∃ message, fault = .err message) ∨
          ∃ names d h, g.Holds names d h ∧ 9 < h.shape.length ∧
            fault = DatasetD.notImplemented h.shape.length := by
  refine ⟨⟨fun ⟨t, ht⟩ => ⟨fun names g' hreach => ?_, fun names d h hholds => ?_⟩,
    fun hs => ?_⟩, ?_⟩
  · obtain ⟨t', ht'⟩ := GroupIndex.indexGroup_reached ht hreach
    exact (GroupIndex.indexGroup_eq_ok_iff.mp ht').1
  · obtain ⟨g', hreach, hmem⟩ := hholds
    obtain ⟨t', ht'⟩ := GroupIndex.indexGroup_reached ht hreach
    obtain ⟨ds, hds⟩ := GroupIndex.indexGroup_dataset ht' hmem
    exact ((hg.datasets names d h ⟨g', hreach, hmem⟩).index_ok_iff
      (hfits names d h ⟨g', hreach, hmem⟩) hds).1
  · exact hg.indexed hfits hs b path
  · refine GroupIndex.indexGroup_fails g
      (fun _ _ _ => .inr fun message => .inl ⟨message, rfl⟩)
      fun names d h hholds fault hfault => ?_
    exact ((hg.datasets names d h hholds).index_fails (hfits names d h hholds) fault
      hfault).imp_right fun hpanic => ⟨names, d, h, hholds, hpanic⟩

theorem file_indexed_iff_nestedFile :
    ((∃ t, GroupIndex.indexGroup .debug none nestedFile = .ok t) ↔ nestedFile.Supported) ∧
      ∀ fault, GroupIndex.indexGroup .debug none nestedFile = .error fault →
        (∃ message, fault = .err message) ∨
          ∃ names d h, nestedFile.Holds names d h ∧ 9 < h.shape.length ∧
            fault = DatasetD.notImplemented h.shape.length :=
  file_indexed_iff nestedFile promised_nestedFile sizesFit_nestedFile .debug none

/--
In the index of a file a path leads to the dataset that the file holds there, as it is
in the file, and to a group where the file has one.
-/
theorem file_lookup (g : Hdf5Group) (hg : g.Promised) (hfits : g.SizesFit) (b : Build)
    (path : Option PathBuf) (t : GroupIndex) (ht : GroupIndex.indexGroup b path g = .ok t)
    (names : List Path) (d : Path) (hnames : ∀ name ∈ names ++ [d], IsName '/' name)
    (before after : Nat) :
    (∀ h, g.Holds names d h → ∃ ds,
        t.dataset (GroupIndex.groupPath before (names ++ [d]) 0) = some ds ∧
          IndexedAs h ds.ds) ∧
      (∀ ds, t.dataset (GroupIndex.groupPath before (names ++ [d]) 0) = some ds →
        ∃ h, g.Holds names d h ∧ IndexedAs h ds.ds) ∧
      (names ≠ [] → ((t.group (GroupIndex.groupPath before names after)).isSome ↔
        ∃ g', g.Reaches names g')) := by
  refine ⟨fun h hholds => hg.dataset_found hfits ht hnames before hholds, fun ds hds => ?_,
    fun hne => ?_⟩
  · rw [GroupIndex.dataset_path hnames,
      GroupIndex.followDataset_eq_some_iff hg.distinct ht] at hds
    obtain ⟨h, hholds, hindex⟩ := hds
    exact ⟨h, hholds, ((hg.datasets names d h hholds).index_ok_iff
      (hfits names d h hholds) hindex).2⟩
  · rw [GroupIndex.group_groupPath hne fun name hname => hnames name (by simp [hname]),
      Option.isSome_iff_exists]
    simp only [GroupIndex.follow_eq_some_iff hg.distinct ht]
    constructor
    · rintro ⟨t', g', hreach, -⟩
      exact ⟨g', hreach⟩
    · rintro ⟨g', hreach⟩
      obtain ⟨t', ht'⟩ := GroupIndex.indexGroup_reached ht hreach
      exact ⟨t', g', hreach, ht'⟩

theorem file_lookup_nestedFile : ∃ t, GroupIndex.indexGroup .debug none nestedFile = .ok t ∧
    (∀ h, nestedFile.Holds [['a']] ['v'] h → ∃ ds,
        t.dataset ['/', 'a', '/', 'v'] = some ds ∧ IndexedAs h ds.ds) ∧
      (∀ ds, t.dataset ['/', 'a', '/', 'v'] = some ds →
        ∃ h, nestedFile.Holds [['a']] ['v'] h ∧ IndexedAs h ds.ds) ∧
      ([['a']] ≠ [] → ((t.group ['/', 'a', '/']).isSome ↔
        ∃ g', nestedFile.Reaches [['a']] g')) := by
  obtain ⟨t, ht⟩ :=
    promised_nestedFile.indexed sizesFit_nestedFile supported_nestedFile .debug none
  exact ⟨t, ht, file_lookup nestedFile promised_nestedFile sizesFit_nestedFile .debug none
    t ht [['a']] ['v'] names_nestedFile 1 1⟩

end Hidefix.Idx
