import Hidefix.Foundation.Checked

/-!
# How a computation can fail

A predicate on faults holds of every way in which a computation fails.  The
arithmetic only panics.
-/

namespace Hidefix.Foundation

variable {α β : Type} {P : Fault → Prop} {b : Build}

def FailsOnly (P : Fault → Prop) (x : Exec α) : Prop :=
  ∀ f, x = .error f → P f

namespace FailsOnly

theorem ok (a : α) : FailsOnly P (Except.ok a : Exec α) := fun _ h => by cases h

theorem error {f : Fault} (h : P f) : FailsOnly P (Except.error f : Exec α) := by
  rintro _ ⟨⟩
  exact h

theorem bind {x : Exec α} {f : α → Exec β} (hx : FailsOnly P x)
    (hf : ∀ a, x = .ok a → FailsOnly P (f a)) : FailsOnly P (x >>= f) := by
  cases x with
  | error fault => exact error (hx fault rfl)
  | ok a => exact hf a rfl

theorem map {x : Exec α} (hx : FailsOnly P x) (f : α → β) : FailsOnly P (x.map f) := by
  cases x with
  | error fault => exact error (hx fault rfl)
  | ok a => exact ok _

theorem mapM {f : α → Exec β} {xs : List α} (h : ∀ a ∈ xs, FailsOnly P (f a)) :
    FailsOnly P (xs.mapM f) := by
  induction xs with
  | nil => exact ok _
  | cons a xs ih =>
      rw [List.forall_mem_cons] at h
      rw [List.mapM_cons]
      exact bind h.1 fun _ _ => bind (ih h.2) fun _ _ => ok _

theorem returns {x : Exec α} (h : FailsOnly (fun _ => False) x) : ∃ a, x = .ok a := by
  cases x with
  | error fault => exact absurd rfl (h fault)
  | ok a => exact ⟨a, rfl⟩

theorem mapM_keyed_returns {κ : Type} {f : κ × α → Exec β} {ps : List (κ × α)}
    (h : ∀ p ∈ ps, ∃ b, f p = .ok b) :
    ∃ qs, (ps.mapM fun p => (f p).map fun b => (p.1, b)) = .ok qs := by
  refine (FailsOnly.mapM fun p hp => .map ?_ _).returns
  obtain ⟨b, hb⟩ := h p hp
  rw [hb]
  exact .ok b

theorem foldlM {f : β → α → Exec β} {xs : List α} {Q : β → Prop}
    (hstep : ∀ acc, Q acc → ∀ a ∈ xs, FailsOnly P (f acc a) ∧
      ∀ acc', f acc a = .ok acc' → Q acc')
    {acc : β} (hacc : Q acc) : FailsOnly P (xs.foldlM f acc) ∧
      ∀ acc', xs.foldlM f acc = .ok acc' → Q acc' := by
  induction xs generalizing acc with
  | nil =>
      refine ⟨ok _, fun acc' h => ?_⟩
      cases h
      exact hacc
  | cons a xs ih =>
      obtain ⟨hin, hkeep⟩ := hstep acc hacc a (by simp)
      have htail : ∀ acc', f acc a = .ok acc' →
          FailsOnly P (xs.foldlM f acc') ∧
            ∀ acc'', xs.foldlM f acc' = .ok acc'' → Q acc'' := fun acc' h =>
        ih (fun acc hacc x hx => hstep acc hacc x (by simp [hx])) (hkeep acc' h)
      rw [List.foldlM_cons]
      refine ⟨bind hin fun acc' h => (htail acc' h).1, fun acc'' h => ?_⟩
      obtain ⟨acc', hfirst, h⟩ := bind_eq_ok.mp h
      exact (htail acc' hfirst).2 acc'' h

/-! ## Computations that only panic -/

variable (hpanic : ∀ why, P (.panic why))
include hpanic

theorem mulU64 (x y : Nat) : FailsOnly P (mulU64 b x y) := by
  unfold Foundation.mulU64
  split
  · exact ok _
  · cases b
    · exact error (hpanic _)
    · exact ok _

theorem subU64 (x y : Nat) : FailsOnly P (subU64 b x y) := by
  unfold Foundation.subU64
  split
  · exact ok _
  · cases b
    · exact error (hpanic _)
    · exact ok _

theorem debugAssert (p : Prop) [Decidable p] :
    FailsOnly P (debugAssert b p) := by
  unfold Foundation.debugAssert
  split
  · exact error (hpanic _)
  · exact ok _

theorem assertThat (p : Prop) [Decidable p] : FailsOnly P (assertThat p) := by
  unfold Foundation.assertThat
  split
  · exact ok _
  · exact error (hpanic _)

theorem allocate (memory : Memory) (n : Nat) : FailsOnly P (allocate memory n) := by
  unfold Foundation.allocate
  split
  · exact ok _
  · exact error (hpanic _)

theorem indexRange (bytes : Bytes) (start stop : Nat) :
    FailsOnly P (indexRange bytes start stop) := by
  unfold Foundation.indexRange
  split
  · exact ok _
  · exact error (hpanic _)

end FailsOnly

end Hidefix.Foundation
