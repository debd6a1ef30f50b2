import Hidefix.Foundation.Buffer
import Mathlib.Algebra.Order.Group.Multiset
import Mathlib.Tactic.Abel

/-!
# Threads that write single entries

Threads run over one memory, one step of one of them at a time and in any order.  A
step writes at most one entry.  What a thread will write does not depend on the
memory; it writes all of it, unless the thread gives up.  So whatever the order of the
steps, an entry of the memory is what it was or what some thread had to write there,
and in the end the memory is the same.
-/

namespace Interleaving

open Buffer (setAll)

variable {σ α : Type}

/--
The steps of a thread among others, what it has left to write, whether it has given up,
and how many steps are left to it at most.
-/
structure Machine (σ α : Type) where
  step : List σ → σ → σ → Option (Nat × α) → Prop
  pending : σ → List (Nat × α)
  GaveUp : σ → Prop
  measure : σ → Nat

structure State (σ α : Type) where
  mem : List α
  threads : List σ

inductive Step (M : Machine σ α) : State σ α → State σ α → Prop
  | step {mem : List α} {before after : List σ} {t t' : σ} {w : Option (Nat × α)} :
      M.step (before ++ t :: after) t t' w →
        Step M ⟨mem, before ++ t :: after⟩ ⟨setAll mem w.toList, before ++ t' :: after⟩

inductive Run (M : Machine σ α) (s : State σ α) : Nat → State σ α → Prop
  | refl : Run M s 0 s
  | step {n : Nat} {s' s'' : State σ α} : Run M s n s' → Step M s' s'' →
      Run M s (n + 1) s''

structure Machine.Lawful (M : Machine σ α) : Prop where
  writes : ∀ {ts t t' w}, M.step ts t t' w → M.pending t = w.toList ++ M.pending t' ∨
    w = none ∧ M.pending t' = [] ∧ M.GaveUp t'
  ends : ∀ {ts t t' w}, M.step ts t t' w → ¬ M.GaveUp t
  measure_lt : ∀ {ts t t' w}, M.step ts t t' w → M.measure t' < M.measure t

namespace State

variable (M : Machine σ α)

def pending (s : State σ α) : List (Nat × α) := s.threads.flatMap M.pending

def measure (s : State σ α) : Nat := (s.threads.map M.measure).sum

end State

theorem setAll_append (mem : List α) (ws ws' : List (Nat × α)) :
    setAll (setAll mem ws) ws' = setAll mem (ws ++ ws') := by
  simp [setAll]

theorem getElem?_setAll_or (mem : List α) (ws : List (Nat × α)) (k : Nat) :
    (setAll mem ws)[k]? = mem[k]? ∨ ∃ v, (k, v) ∈ ws ∧ (setAll mem ws)[k]? = some v := by
  induction ws generalizing mem with
  | nil => exact .inl rfl
  | cons w ws ih =>
      obtain ⟨p, v⟩ := w
      rcases ih (mem.set p v) with hkept | ⟨v', hv', hset⟩
      · change (setAll (mem.set p v) ws)[k]? = _ ∨ ∃ v', _ ∧ (setAll (mem.set p v) ws)[k]? = _
        rw [hkept, List.getElem?_set]
        split
        · rename_i hp
          subst hp
          split
          · exact .inr ⟨v, by simp, rfl⟩
          · rename_i hlarge
            exact .inl (List.getElem?_eq_none (by omega)).symm
        · exact .inl rfl
      · exact .inr ⟨v', List.mem_cons_of_mem _ hv', hset⟩

section Run

variable {M : Machine σ α} {s s' : State σ α} {n : Nat}

/-- What holds of the threads together, and is kept when one of them does a step. -/
theorem Run.invariant {I : List σ → Prop} (h : Run M s n s')
    (hstep : ∀ {before after t t' w}, M.step (before ++ t :: after) t t' w →
      I (before ++ t :: after) → I (before ++ t' :: after)) (hs : I s.threads) :
    I s'.threads := by
  induction h with
  | refl => exact hs
  | step _ hlast ih =>
      obtain ⟨hthread⟩ := hlast
      exact hstep hthread ih

theorem Run.forall₂ {R : σ → σ → Prop} (h : Run M s n s')
    (hstep : ∀ {ts u t t' w}, M.step ts t t' w → R u t → R u t')
    (hs : ∀ t ∈ s.threads, R t t) : List.Forall₂ R s.threads s'.threads := by
  refine h.invariant (I := List.Forall₂ R s.threads)
    (fun {before after t t' w} hthread hall => ?_) (List.forall₂_same.mpr hs)
  have hbefore := List.forall₂_take_append _ _ _ hall
  have hrest := List.forall₂_drop_append _ _ _ hall
  obtain ⟨u, us, hu, hafter, heq⟩ := List.forall₂_cons_right_iff.mp hrest
  have hnext := List.rel_append hbefore (.cons (hstep hthread hu) hafter)
  rw [← heq] at hnext
  simpa using hnext

theorem Run.measure_le (hM : M.Lawful) (h : Run M s n s') :
    n + s'.measure M ≤ s.measure M := by
  induction h with
  | refl => simp
  | step _ hlast ih =>
      obtain ⟨hthread⟩ := hlast
      have hlt := hM.measure_lt hthread
      simp [State.measure] at ih ⊢
      omega

/-- Some of the writes have been made, some are left, and some have been given up. -/
theorem Run.progress (hM : M.Lawful) (h : Run M s n s') :
    ∃ written dropped, s'.mem = setAll s.mem written ∧
      (written ++ (s'.pending M ++ dropped)).Perm (s.pending M) ∧
      ((∀ t ∈ s'.threads, ¬ M.GaveUp t) → dropped = []) := by
  induction h with
  | refl => exact ⟨[], [], rfl, by simp, fun _ => rfl⟩
  | step _ hlast ih =>
      obtain ⟨written, dropped, hmem, hperm, hkept⟩ := ih
      cases hlast with
      | @step mem before after t t' w hthread =>
          rcases hM.writes hthread with hwrite | ⟨rfl, hnone, hgave⟩
          · refine ⟨written ++ w.toList, dropped, ?_, ?_, fun hall => hkept ?_⟩
            · rw [← setAll_append, ← hmem]
            · refine .trans ?_ hperm
              rw [← Multiset.coe_eq_coe]
              simp only [State.pending, List.flatMap_append, List.flatMap_cons, hwrite,
                ← Multiset.coe_add]
              abel
            · intro u hu
              rcases List.mem_append.mp hu with hu | hu
              · exact hall u (List.mem_append_left _ hu)
              · rcases List.mem_cons.mp hu with rfl | hu
                · exact hM.ends hthread
                · exact hall u (by simp [hu])
          · refine ⟨written, dropped ++ M.pending t, ?_, ?_, fun hall => ?_⟩
            · exact hmem
            · refine .trans ?_ hperm
              rw [← Multiset.coe_eq_coe]
              simp only [State.pending, List.flatMap_append, List.flatMap_cons, hnone,
                List.nil_append, ← Multiset.coe_add]
              abel
            · exact absurd hgave (hall t' (by simp))

theorem Run.length_mem (hM : M.Lawful) (h : Run M s n s') :
    s'.mem.length = s.mem.length := by
  obtain ⟨written, dropped, hmem, -, -⟩ := h.progress hM
  simp [hmem]

theorem Run.entry (hM : M.Lawful) (h : Run M s n s') (k : Nat) :
    s'.mem[k]? = s.mem[k]? ∨ ∃ v, (k, v) ∈ s.pending M ∧ s'.mem[k]? = some v := by
  obtain ⟨written, dropped, hmem, hperm, -⟩ := h.progress hM
  rw [hmem]
  refine (getElem?_setAll_or s.mem written k).imp_right ?_
  rintro ⟨v, hv, hset⟩
  exact ⟨v, hperm.mem_iff.mp (List.mem_append_left _ hv), hset⟩

theorem Run.complete (hM : M.Lawful) (h : Run M s n s') {xs : List α}
    (hws : ∀ w ∈ s.pending M, xs[w.1]? = some w.2) (hdone : s'.pending M = [])
    (hkept : ∀ t ∈ s'.threads, ¬ M.GaveUp t) {k : Nat} (hk : k < s.mem.length) :
    s'.mem[k]? = if k ∈ (s.pending M).map Prod.fst then xs[k]? else s.mem[k]? := by
  obtain ⟨written, dropped, hmem, hperm, hnone⟩ := h.progress hM
  rw [hdone, hnone hkept, List.append_nil, List.append_nil] at hperm
  rw [hmem, Buffer.getElem?_setAll (fun w hw => hws w (hperm.mem_iff.mp hw)) hk]
  simp only [(hperm.map Prod.fst).mem_iff]

end Run

end Interleaving
