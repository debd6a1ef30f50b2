import Hidefix.Foundation.Separated
import Hidefix.Idx.Dataset

/-!
# The index of a file

A group holds its datasets and its nested groups under their names.  `dataset` and
`group` look a path up from a group: `dataset` takes the last piece of the path for
the name of the dataset, `group` trims the path at both ends first.
-/

namespace Hidefix.Idx

open Separated (IsName join trimEnd trimStart)

/-- A `&str`: a path, or a name in one. -/
abbrev Path := List Char

/-- A `PathBuf`: bytes that need not be valid Unicode. -/
abbrev PathBuf := ByteArray

structure DatasetD where
  D : Nat
  le_nine : D ≤ 9
  ds : Dataset D

/-- Indexer of HDF5 group; the keys of a map are those found first. -/
structure GroupIndex where
  path : Option PathBuf
  datasets : List (Path × DatasetD)
  groups : List (Path × GroupIndex)

namespace GroupIndex

/-- `grp.groups.get(grp_name)` -/
def getGroup (t : GroupIndex) (name : Path) : Option GroupIndex :=
  t.groups.lookup name

/-- `grp.datasets.get(ds_name)` -/
def getDataset (t : GroupIndex) (name : Path) : Option DatasetD :=
  t.datasets.lookup name

def dataset (t : GroupIndex) (s : Path) : Option DatasetD := do
  let s := (trimStart '/' s).splitOn '/'
  let dsName ← s.getLast?
  let grp ← s.dropLast.foldlM getGroup t
  grp.getDataset dsName

def group (t : GroupIndex) (s : Path) : Option GroupIndex :=
  ((trimEnd '/' (trimStart '/' s)).splitOn '/').foldlM getGroup t

/-! ## Following names -/

def follow : GroupIndex → List Path → Option GroupIndex
  | t, [] => some t
  | t, name :: names => (t.getGroup name).bind fun grp => follow grp names

def followDataset (t : GroupIndex) (names : List Path) (d : Path) : Option DatasetD :=
  (t.follow names).bind fun grp => grp.getDataset d

variable {t : GroupIndex} {gs : List Path} {d : Path}

theorem foldlM_getGroup (t : GroupIndex) (gs : List Path) :
    gs.foldlM getGroup t = t.follow gs := by
  induction gs generalizing t with
  | nil => rfl
  | cons g gs ih =>
      rw [List.foldlM_cons, follow]
      exact congrArg _ (funext ih)

theorem getGroup_ne_self (t : GroupIndex) (g : Path) : t.getGroup g ≠ some t := by
  intro h
  rcases List.lookup_eq_some_iff.mp h with ⟨before, after, hgroups, -⟩
  have hmem : (g, t) ∈ t.groups := by simp [hgroups]
  have hlt := List.sizeOf_lt_of_mem hmem
  have hsize : sizeOf t.groups < sizeOf t := by
    cases t
    simp
  simp at hlt
  omega

/-! ## Looking a path up -/

theorem dataset_eq {s : Path} (hsplit : (trimStart '/' s).splitOn '/' = gs ++ [d]) :
    t.dataset s = t.followDataset gs d := by
  rw [dataset, hsplit, List.getLast?_append_cons, List.getLast?_singleton,
    List.dropLast_concat]
  change (gs.foldlM getGroup t).bind _ = _
  rw [foldlM_getGroup, followDataset]

theorem group_eq {s : Path} (hsplit : (trimEnd '/' (trimStart '/' s)).splitOn '/' = gs) :
    t.group s = t.follow gs := by
  rw [group, hsplit, foldlM_getGroup]

/-- Names of groups in a path, with slashes at its ends. -/
def groupPath (before : Nat) (gs : List Path) (after : Nat) : Path :=
  List.replicate before '/' ++ (join '/' gs ++ List.replicate after '/')

theorem group_groupPath (hne : gs ≠ []) (hgs : ∀ g ∈ gs, IsName '/' g)
    (before after : Nat) : t.group (groupPath before gs after) = t.follow gs := by
  apply group_eq
  rw [groupPath, Separated.trimStart_join hne hgs, Separated.trimEnd_join hne hgs,
    Separated.splitOn_join hne hgs]

theorem group_groupPath_nil (before after : Nat) :
    t.group (groupPath before [] after) = t.getGroup [] := by
  have hsplit : (trimEnd '/' (trimStart '/' (groupPath before [] after))).splitOn '/' =
      [[]] := by
    rw [groupPath, Separated.trimStart_replicate]
    change (trimEnd '/' (trimStart '/' (List.replicate after '/'))).splitOn '/' = [[]]
    rw [Separated.trimStart_separators]
    rfl
  rw [group_eq hsplit, follow]
  exact Option.bind_fun_some _

theorem dataset_groupPath (hne : gs ≠ []) (hgs : ∀ g ∈ gs, IsName '/' g)
    (hd : '/' ∉ d) (before after : Nat) :
    t.dataset (groupPath before gs after ++ '/' :: d) =
      t.followDataset (gs ++ List.replicate after []) d := by
  apply dataset_eq
  rw [groupPath, List.append_assoc, List.append_assoc, Separated.trimStart_join hne hgs,
    ← List.append_assoc, Separated.splitOn_join_snoc hne hgs hd]

theorem dataset_replicate (hd : '/' ∉ d) (n : Nat) :
    t.dataset (List.replicate n '/' ++ d) = t.getDataset d := by
  have hsplit : (trimStart '/' (List.replicate n '/' ++ d)).splitOn '/' = [] ++ [d] := by
    rw [Separated.trimStart_replicate, Separated.trimStart_of_notMem hd,
      List.splitOn_eq_singleton hd, List.nil_append]
  exact dataset_eq hsplit

end GroupIndex

end Hidefix.Idx
