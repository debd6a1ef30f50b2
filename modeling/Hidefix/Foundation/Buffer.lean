import Mathlib.Data.List.Basic
import Mathlib.Tactic.Common

/-!
# Writing into a buffer

Data is written over the entries of a list from a place on.  Writes at places
that do not overlap can be made in any order, and writes that follow each other
from the start lay down the concatenation of their data.
-/

namespace Buffer

variable {α : Type}

abbrev Write (α : Type) := Nat × List α

def write (buf : List α) (start : Nat) (data : List α) : List α :=
  buf.take start ++ data ++ buf.drop (start + data.length)

def Write.Fits (n : Nat) (w : Write α) : Prop := w.1 + w.2.length ≤ n

def Write.Apart (u v : Write α) : Prop :=
  u.1 + u.2.length ≤ v.1 ∨ v.1 + v.2.length ≤ u.1

theorem Write.Apart.symm {u v : Write α} (h : u.Apart v) : v.Apart u := Or.symm h

def writeAll (buf : List α) (ws : List (Write α)) : List α :=
  ws.foldl (fun buf w => write buf w.1 w.2) buf

@[simp] theorem writeAll_nil (buf : List α) : writeAll buf [] = buf := rfl

@[simp] theorem writeAll_cons (buf : List α) (w : Write α)
    (ws : List (Write α)) :
    writeAll buf (w :: ws) = writeAll (write buf w.1 w.2) ws := rfl

theorem length_write {buf data : List α} {start : Nat}
    (h : start + data.length ≤ buf.length) :
    (write buf start data).length = buf.length := by
  simp only [write, List.length_append, List.length_take, List.length_drop]
  omega

theorem length_writeAll {buf : List α} {ws : List (Write α)}
    (h : ∀ w ∈ ws, w.Fits buf.length) :
    (writeAll buf ws).length = buf.length := by
  induction ws generalizing buf with
  | nil => rfl
  | cons w ws ih =>
      obtain ⟨hw, hws⟩ := List.forall_mem_cons.mp h
      have hlen := length_write hw
      rw [writeAll_cons, ih (hlen.symm ▸ hws), hlen]

theorem getElem?_write {buf data : List α} {start : Nat}
    (h : start + data.length ≤ buf.length) (i : Nat) :
    (write buf start data)[i]? =
      if i < start then buf[i]?
      else if i < start + data.length then data[i - start]?
      else buf[i]? := by
  have hstart : (buf.take start).length = start := by
    rw [List.length_take]
    omega
  unfold write
  split
  · rename_i hi
    rw [List.append_assoc, List.getElem?_append_left (by omega),
      List.getElem?_take_of_lt hi]
  · rename_i hi
    split
    · rename_i hlt
      rw [List.append_assoc, List.getElem?_append_right (by omega), hstart,
        List.getElem?_append_left (by omega)]
    · rename_i hge
      rw [List.getElem?_append_right (by
          rw [List.length_append, hstart]; omega),
        List.length_append, hstart, List.getElem?_drop]
      congr 1
      omega

theorem write_comm {buf : List α} {u v : Write α} (hu : u.Fits buf.length)
    (hv : v.Fits buf.length) (h : u.Apart v) :
    write (write buf u.1 u.2) v.1 v.2 = write (write buf v.1 v.2) u.1 u.2 := by
  have hulen := length_write hu
  have hvlen := length_write hv
  unfold Write.Apart at h
  refine List.ext_getElem? fun i => ?_
  rw [getElem?_write (hulen.symm ▸ hv), getElem?_write hu,
    getElem?_write (hvlen.symm ▸ hu), getElem?_write hv]
  split_ifs <;> first | rfl | omega

theorem writeAll_perm {buf : List α} {us vs : List (Write α)}
    (hperm : us.Perm vs) (hfits : ∀ w ∈ us, w.Fits buf.length)
    (hapart : us.Pairwise Write.Apart) :
    writeAll buf us = writeAll buf vs := by
  induction hperm generalizing buf with
  | nil => rfl
  | cons w _ ih =>
      obtain ⟨hw, hfits⟩ := List.forall_mem_cons.mp hfits
      rw [writeAll_cons, writeAll_cons]
      refine ih (fun u hu => ?_) hapart.tail
      rw [length_write hw]
      exact hfits u hu
  | swap u v ws =>
      obtain ⟨hv, hfits⟩ := List.forall_mem_cons.mp hfits
      obtain ⟨hu, -⟩ := List.forall_mem_cons.mp hfits
      have hvu := (List.pairwise_cons.mp hapart).1 u (by simp)
      simp only [writeAll_cons, write_comm hv hu hvu]
  | trans hp _ ih ih' =>
      rw [ih hfits hapart]
      refine ih' (fun w hw => hfits w (hp.mem_iff.mpr hw)) ?_
      exact (hp.pairwise_iff Write.Apart.symm).mp hapart

/-! ## Writes that follow each other -/

/-- The pieces, each placed where the one before ends. -/
def layout : (start : Nat) → (pieces : List (List α)) → List (Write α)
  | _, [] => []
  | start, piece :: pieces =>
      (start, piece) :: layout (start + piece.length) pieces

theorem le_of_mem_layout {start : Nat} {pieces : List (List α)} {w : Write α}
    (h : w ∈ layout start pieces) : start ≤ w.1 := by
  induction pieces generalizing start with
  | nil => cases h
  | cons piece pieces ih =>
      rcases List.mem_cons.mp h with rfl | h
      · exact Nat.le_refl start
      · exact Nat.le_trans (Nat.le_add_right start _) (ih h)

theorem layout_fits {n start : Nat} {pieces : List (List α)} (hstart : start ≤ n)
    (h : ∀ w ∈ layout start pieces, w.Fits n) :
    start + pieces.flatten.length ≤ n := by
  induction pieces generalizing start with
  | nil => simpa using hstart
  | cons piece pieces ih =>
      obtain ⟨hfirst, hrest⟩ := List.forall_mem_cons.mp h
      rw [List.flatten_cons, List.length_append, ← Nat.add_assoc]
      exact ih hfirst hrest

theorem fits_of_mem_layout {n start : Nat} {pieces : List (List α)}
    (h : start + pieces.flatten.length ≤ n) : ∀ w ∈ layout start pieces, w.Fits n := by
  induction pieces generalizing start with
  | nil => simp [layout]
  | cons piece pieces ih =>
      rw [List.flatten_cons, List.length_append, ← Nat.add_assoc] at h
      have hfirst : start + piece.length ≤ n := by omega
      exact List.forall_mem_cons.mpr ⟨hfirst, ih h⟩

theorem layout_apart (start : Nat) (pieces : List (List α)) :
    (layout start pieces).Pairwise Write.Apart := by
  induction pieces generalizing start with
  | nil => exact .nil
  | cons piece pieces ih =>
      exact .cons (fun w hw => .inl (le_of_mem_layout hw)) (ih _)

/-- Writes that follow each other lay down the concatenation of their data. -/
theorem writeAll_layout {front rest : List α} {pieces : List (List α)}
    (h : pieces.flatten.length ≤ rest.length) :
    writeAll (front ++ rest) (layout front.length pieces) =
      front ++ pieces.flatten ++ rest.drop pieces.flatten.length := by
  induction pieces generalizing front rest with
  | nil => simp [layout]
  | cons piece pieces ih =>
      rw [List.flatten_cons, List.length_append] at h
      have hwrite : write (front ++ rest) front.length piece =
          (front ++ piece) ++ rest.drop piece.length := by
        rw [write, List.take_left' rfl, List.drop_append]
        simp
      rw [layout, writeAll_cons, hwrite, ← List.length_append,
        ih (by rw [List.length_drop]; omega)]
      simp [List.append_assoc]

/-! ## Entries written one by one -/

def setAll (buf : List α) (ws : List (Nat × α)) : List α :=
  ws.foldl (fun buf w => buf.set w.1 w.2) buf

@[simp] theorem length_setAll (buf : List α) (ws : List (Nat × α)) :
    (setAll buf ws).length = buf.length := by
  induction ws generalizing buf with
  | nil => rfl
  | cons w ws ih =>
      rw [setAll, List.foldl_cons]
      exact (ih (buf.set w.1 w.2)).trans (by simp)

theorem getElem?_setAll {buf xs : List α} {ws : List (Nat × α)}
    (hws : ∀ w ∈ ws, xs[w.1]? = some w.2) {k : Nat} (hk : k < buf.length) :
    (setAll buf ws)[k]? = if k ∈ ws.map Prod.fst then xs[k]? else buf[k]? := by
  induction ws generalizing buf with
  | nil => simp [setAll]
  | cons w ws ih =>
      rw [List.forall_mem_cons] at hws
      have hlen : k < (buf.set w.1 w.2).length := by
        simpa using hk
      rw [setAll, List.foldl_cons]
      apply (ih hws.2 hlen).trans
      by_cases hmem : k ∈ ws.map Prod.fst
      · simp [hmem]
      · by_cases hfirst : w.1 = k
        · subst hfirst
          simp [hmem, hws.1, hk]
        · have hne : k ≠ w.1 := fun h => hfirst h.symm
          simp [hmem, hfirst, hne]

theorem setAll_eq {buf xs : List α} {ws : List (Nat × α)}
    (hlen : xs.length = buf.length) (hws : ∀ w ∈ ws, xs[w.1]? = some w.2)
    (hcover : ∀ k < buf.length, k ∈ ws.map Prod.fst) : setAll buf ws = xs := by
  apply List.ext_getElem?
  intro k
  rcases Nat.lt_or_ge k buf.length with hk | hk
  · rw [getElem?_setAll hws hk, if_pos (hcover k hk)]
  · rw [List.getElem?_eq_none (by simpa using hk),
      List.getElem?_eq_none (by omega)]

end Buffer
