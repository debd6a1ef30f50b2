import Mathlib.Data.List.DropRight
import Mathlib.Tactic.Common

/-!
# Names between separators

A path is a list of symbols in which separators stand between the names.  Trimming
removes the separators at an end.  Splitting gives the pieces between separators:
a piece is empty where two separators meet, and an empty path has one piece, which
is empty.
-/

namespace Separated

variable {α : Type} {sep : α} {name : List α} {names : List (List α)}

def trimStart [DecidableEq α] (sep : α) (path : List α) : List α :=
  path.dropWhile (· = sep)

def trimEnd [DecidableEq α] (sep : α) (path : List α) : List α :=
  path.rdropWhile (· = sep)

def join (sep : α) (names : List (List α)) : List α :=
  [sep].intercalate names

structure IsName (sep : α) (name : List α) : Prop where
  ne_nil : name ≠ []
  sep_notMem : sep ∉ name

/-! ## Joining -/

theorem join_cons_cons (name name' : List α) (names : List (List α)) :
    join sep (name :: name' :: names) = name ++ sep :: join sep (name' :: names) := by
  simp [join]

theorem exists_join_cons (sep : α) (name : List α) (names : List (List α)) :
    ∃ rest, join sep (name :: names) = name ++ rest := by
  cases names with
  | nil => exact ⟨[], by simp [join]⟩
  | cons name' names => exact ⟨_, join_cons_cons name name' names⟩

theorem exists_join_getLast (sep : α) (hne : names ≠ []) :
    ∃ rest, join sep names = rest ++ names.getLast hne := by
  induction names with
  | nil => exact absurd rfl hne
  | cons name names ih =>
      cases names with
      | nil => exact ⟨[], by simp [join]⟩
      | cons name' names =>
          rcases ih (List.cons_ne_nil _ _) with ⟨rest, hrest⟩
          refine ⟨name ++ sep :: rest, ?_⟩
          rw [join_cons_cons, hrest, List.getLast_cons_cons, List.append_assoc,
            List.cons_append]

variable [DecidableEq α]

/-! ## Trimming -/

theorem trimStart_replicate (n : Nat) (path : List α) :
    trimStart sep (List.replicate n sep ++ path) = trimStart sep path := by
  induction n with
  | zero => rfl
  | succ n ih =>
      rw [List.replicate_succ, List.cons_append, ← ih]
      exact List.dropWhile_cons_of_pos (decide_eq_true rfl)

theorem trimStart_name (h : IsName sep name) (path : List α) :
    trimStart sep (name ++ path) = name ++ path := by
  rcases List.exists_cons_of_ne_nil h.ne_nil with ⟨a, name', rfl⟩
  have ha : a ≠ sep := fun heq => h.sep_notMem (heq ▸ List.mem_cons_self)
  exact List.dropWhile_cons_of_neg (by simpa using ha)

theorem trimStart_of_notMem (h : sep ∉ name) : trimStart sep name = name := by
  cases name with
  | nil => rfl
  | cons a name =>
      have ha : a ≠ sep := fun heq => h (heq ▸ List.mem_cons_self)
      exact List.dropWhile_cons_of_neg (by simpa using ha)

theorem trimEnd_replicate (path : List α) (n : Nat) :
    trimEnd sep (path ++ List.replicate n sep) = trimEnd sep path := by
  induction n with
  | zero => rw [List.replicate_zero, List.append_nil]
  | succ n ih =>
      rw [List.replicate_succ', ← List.append_assoc, ← ih]
      exact List.rdropWhile_concat_pos _ _ _ (decide_eq_true rfl)

theorem trimEnd_name (path : List α) (h : IsName sep name) :
    trimEnd sep (path ++ name) = path ++ name := by
  rcases List.eq_nil_or_concat name with rfl | ⟨name', a, rfl⟩
  · exact absurd rfl h.ne_nil
  · have ha : a ≠ sep := fun heq => h.sep_notMem (by simp [heq])
    rw [List.concat_eq_append, ← List.append_assoc]
    exact List.rdropWhile_concat_neg _ _ _ (by simpa using ha)

theorem trimStart_separators (n : Nat) : trimStart sep (List.replicate n sep) = [] := by
  rw [← List.append_nil (List.replicate n sep), trimStart_replicate]
  rfl

theorem trimStart_join (hne : names ≠ []) (h : ∀ name ∈ names, IsName sep name)
    (n : Nat) (path : List α) :
    trimStart sep (List.replicate n sep ++ (join sep names ++ path)) =
      join sep names ++ path := by
  rw [trimStart_replicate]
  rcases List.exists_cons_of_ne_nil hne with ⟨name, names', rfl⟩
  rcases exists_join_cons sep name names' with ⟨rest, hrest⟩
  rw [hrest, List.append_assoc]
  exact trimStart_name (h name List.mem_cons_self) _

theorem trimEnd_join (hne : names ≠ []) (h : ∀ name ∈ names, IsName sep name)
    (n : Nat) :
    trimEnd sep (join sep names ++ List.replicate n sep) = join sep names := by
  rw [trimEnd_replicate]
  rcases exists_join_getLast sep hne with ⟨rest, hrest⟩
  rw [hrest]
  exact trimEnd_name rest (h _ (List.getLast_mem hne))

/-! ## Splitting -/

theorem splitOn_join (hne : names ≠ []) (h : ∀ name ∈ names, IsName sep name) :
    (join sep names).splitOn sep = names :=
  List.splitOn_intercalate sep (fun name hname => (h name hname).sep_notMem) hne

theorem splitOn_join_replicate (hne : names ≠ [])
    (h : ∀ name ∈ names, IsName sep name) (n : Nat) :
    (join sep names ++ List.replicate n sep).splitOn sep =
      names ++ List.replicate n [] := by
  induction n with
  | zero =>
      rw [List.replicate_zero, List.append_nil, splitOn_join hne h, List.replicate_zero,
        List.append_nil]
  | succ n ih =>
      rw [List.replicate_succ', ← List.append_assoc, List.splitOn_append_cons_self, ih,
        List.splitOn_nil, List.replicate_succ', List.append_assoc]

theorem splitOn_join_snoc (hne : names ≠ []) (h : ∀ name ∈ names, IsName sep name)
    (hname : sep ∉ name) (n : Nat) :
    (join sep names ++ List.replicate n sep ++ sep :: name).splitOn sep =
      names ++ List.replicate n [] ++ [name] := by
  rw [List.splitOn_append_cons_self, splitOn_join_replicate hne h,
    List.splitOn_eq_singleton hname]

end Separated
