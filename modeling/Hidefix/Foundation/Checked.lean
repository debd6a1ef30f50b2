import Mathlib.Algebra.BigOperators.Group.List.Basic
import Mathlib.Algebra.Order.BigOperators.Group.List
import Mathlib.Data.List.Basic
import Mathlib.Data.Vector.Basic
import Mathlib.Tactic.Common
import Mathlib.Tactic.Linarith

/-!
# Checked and wrapping machine arithmetic

A debug build stops with a panic where an unsigned operation leaves its range
or a `debug_assert!` fails; a release build wraps modulo `2 ^ 64` and skips the
assertion.  Values are natural numbers, and the two behaviours differ only
where the exact result is not a word.
-/

namespace Hidefix.Foundation

/-- The two ways of compiling the crate. -/
inductive Build where
  | debug
  | release
  deriving DecidableEq, Repr

inductive Panic where
  | overflow
  | divideByZero
  | index
  | assertion
  | unwrap
  | unimplemented
  | capacityOverflow
  | message (text : String)
  deriving DecidableEq, Repr

/--
Why a call does not return a value: it panics, it returns an `Err`, it
writes outside its buffer through a raw pointer, or the model stops before it
is done.
-/
inductive Fault where
  | panic (why : Panic)
  | err (message : String)
  | outOfBuffer
  | outOfFuel
  deriving DecidableEq, Repr

abbrev Exec := Except Fault

abbrev Bytes := List UInt8

def panicWith {α : Type} (why : Panic) : Exec α := .error (.panic why)

def bail {α : Type} (message : String) : Exec α := .error (.err message)

/-! ## Memory -/

/-- What a new allocation of `n` bytes holds. -/
abbrev Memory := (n : Nat) → List.Vector UInt8 n

def Memory.zeroed : Memory := fun n => List.Vector.replicate n 0

/-- No allocation is larger than `isize::MAX` bytes. -/
def allocate (memory : Memory) (n : Nat) : Exec Bytes :=
  if n < 2 ^ 63 then .ok (memory n).toList else panicWith .capacityOverflow

/-! ## Operations on `u64` -/

def addU64 (b : Build) (x y : Nat) : Exec Nat :=
  if x + y < 2 ^ 64 then .ok (x + y)
  else match b with
    | .debug => panicWith .overflow
    | .release => .ok ((x + y) % 2 ^ 64)

def subU64 (b : Build) (x y : Nat) : Exec Nat :=
  if y ≤ x then .ok (x - y)
  else match b with
    | .debug => panicWith .overflow
    | .release => .ok (x + 2 ^ 64 - y)

def mulU64 (b : Build) (x y : Nat) : Exec Nat :=
  if x * y < 2 ^ 64 then .ok (x * y)
  else match b with
    | .debug => panicWith .overflow
    | .release => .ok (x * y % 2 ^ 64)

def divU64 (x y : Nat) : Exec Nat :=
  if y = 0 then panicWith .divideByZero else .ok (x / y)

/-- `&bytes[start..stop]` -/
def indexRange (bytes : Bytes) (start stop : Nat) : Exec Bytes :=
  if start ≤ stop ∧ stop ≤ bytes.length then
    .ok ((bytes.drop start).take (stop - start))
  else panicWith .index

def debugAssert (b : Build) (p : Prop) [Decidable p] : Exec Unit :=
  if b = .debug ∧ ¬ p then panicWith .assertion else .ok ()

def assertThat (p : Prop) [Decidable p] : Exec Unit :=
  if p then .ok () else panicWith .assertion

/-- `xs.iter().product::<u64>()` -/
def productU64 (b : Build) (xs : List Nat) : Exec Nat :=
  xs.foldlM (mulU64 b) 1

/-! ## Exact results -/

theorem addU64_eq {b : Build} {x y : Nat} (h : x + y < 2 ^ 64) :
    addU64 b x y = .ok (x + y) := if_pos h

theorem subU64_eq {b : Build} {x y : Nat} (h : y ≤ x) :
    subU64 b x y = .ok (x - y) := if_pos h

theorem mulU64_eq {b : Build} {x y : Nat} (h : x * y < 2 ^ 64) :
    mulU64 b x y = .ok (x * y) := if_pos h

@[simp] theorem debugAssert_of {b : Build} {p : Prop} [Decidable p] (h : p) :
    debugAssert b p = .ok () := if_neg fun hc => hc.2 h

@[simp] theorem debugAssert_release {p : Prop} [Decidable p] :
    debugAssert .release p = .ok () := rfl

@[simp] theorem assertThat_of {p : Prop} [Decidable p] (h : p) :
    assertThat p = .ok () := if_pos h

/-! ## What a returned value says -/

theorem addU64_debug {x y z : Nat} (h : addU64 .debug x y = .ok z) :
    z = x + y ∧ x + y < 2 ^ 64 := by
  unfold addU64 at h
  split at h
  · cases h
    exact ⟨rfl, ‹_›⟩
  · cases h

theorem divU64_ok {x y z : Nat} (h : divU64 x y = .ok z) : z = x / y := by
  unfold divU64 at h
  split at h
  · cases h
  · cases h
    rfl

theorem subU64_debug {x y z : Nat} (h : subU64 .debug x y = .ok z) :
    z = x - y ∧ y ≤ x := by
  unfold subU64 at h
  split at h
  · cases h
    exact ⟨rfl, ‹_›⟩
  · cases h

theorem mulU64_debug {x y z : Nat} (h : mulU64 .debug x y = .ok z) :
    z = x * y ∧ x * y < 2 ^ 64 := by
  unfold mulU64 at h
  split at h
  · cases h
    exact ⟨rfl, ‹_›⟩
  · cases h

theorem debugAssert_debug {p : Prop} [Decidable p]
    (h : debugAssert .debug p = .ok ()) : p := by
  by_contra hp
  rw [debugAssert, if_pos ⟨rfl, hp⟩] at h
  cases h

theorem addU64_modEq {b : Build} {x y z : Nat} (h : addU64 b x y = .ok z) :
    z % 2 ^ 64 = (x + y) % 2 ^ 64 := by
  unfold addU64 at h
  split at h
  · cases h
    rfl
  · cases b
    · cases h
    · cases h
      exact Nat.mod_mod _ _

theorem mulU64_modEq {b : Build} {x y z : Nat} (h : mulU64 b x y = .ok z) :
    z % 2 ^ 64 = x * y % 2 ^ 64 := by
  unfold mulU64 at h
  split at h
  · cases h
    rfl
  · cases b
    · cases h
    · cases h
      exact Nat.mod_mod _ _

theorem mulU64_mod {b : Build} {x y z : Nat} (h : mulU64 b x y = .ok z) :
    z = x * y % 2 ^ 64 := by
  unfold mulU64 at h
  split at h
  · cases h
    exact (Nat.mod_eq_of_lt ‹_›).symm
  · cases b
    · cases h
    · cases h
      rfl

theorem addU64_of_le {b : Build} {x y z : Nat} (h : addU64 b x y = .ok z)
    (hy : y < 2 ^ 64) (hle : x ≤ z) (hx : x < 2 ^ 64) : z = x + y := by
  unfold addU64 at h
  split at h
  · cases h
    rfl
  · cases b
    · cases h
    · cases h
      omega

theorem subU64_modEq {b : Build} {x y z : Nat} (hy : y < 2 ^ 64)
    (h : subU64 b x y = .ok z) : (z + y) % 2 ^ 64 = x % 2 ^ 64 := by
  unfold subU64 at h
  split at h
  · cases h
    rw [Nat.sub_add_cancel ‹_›]
  · cases b
    · cases h
    · cases h
      rw [Nat.sub_add_cancel (by omega), Nat.add_mod_right]

theorem addU64_lt {b : Build} {x y z : Nat} (h : addU64 b x y = .ok z) :
    z < 2 ^ 64 := by
  unfold addU64 at h
  split at h
  · cases h
    assumption
  · cases b
    · cases h
    · cases h
      exact Nat.mod_lt _ (by decide)

@[simp] theorem ok_bind {α β : Type} (a : α) (f : α → Exec β) :
    (Except.ok a >>= f) = f a := rfl

@[simp] theorem error_bind {α β : Type} (e : Fault) (f : α → Exec β) :
    ((Except.error e : Exec α) >>= f) = .error e := rfl

theorem bind_eq_ok {α β : Type} {x : Exec α} {f : α → Exec β} {r : β} :
    (x >>= f) = .ok r ↔ ∃ a, x = .ok a ∧ f a = .ok r := by
  cases x with
  | error e => simp [bind, Except.bind]
  | ok a => simp [bind, Except.bind]

theorem indexRange_ok {bytes piece : Bytes} {start stop : Nat}
    (h : indexRange bytes start stop = .ok piece) :
    start ≤ stop ∧ stop ≤ bytes.length ∧
      piece = (bytes.drop start).take (stop - start) := by
  unfold indexRange at h
  split at h
  · rename_i hrange
    cases h
    exact ⟨hrange.1, hrange.2, rfl⟩
  · cases h

theorem length_indexRange {bytes piece : Bytes} {start stop : Nat}
    (h : indexRange bytes start stop = .ok piece) :
    piece.length = stop - start := by
  obtain ⟨hle, hstop, rfl⟩ := indexRange_ok h
  rw [List.length_take, List.length_drop]
  omega

theorem allocate_eq (memory : Memory) {n : Nat} (h : n < 2 ^ 63) :
    allocate memory n = .ok (memory n).toList := if_pos h

theorem allocate_ok {memory : Memory} {n : Nat} {dst : Bytes}
    (h : allocate memory n = .ok dst) : dst.length = n ∧ n < 2 ^ 63 := by
  unfold allocate at h
  split at h
  · cases h
    exact ⟨List.Vector.toList_length _, ‹_›⟩
  · cases h

theorem foldlM_congr {α β : Type} {f g : β → α → Exec β} {xs : List α}
    (h : ∀ acc, ∀ a ∈ xs, f acc a = g acc a) (acc : β) :
    xs.foldlM f acc = xs.foldlM g acc := by
  induction xs generalizing acc with
  | nil => rfl
  | cons a xs ih =>
      rw [List.foldlM_cons, List.foldlM_cons, h acc a (by simp)]
      exact bind_congr fun acc' => ih (fun acc x hx => h acc x (by simp [hx])) acc'

theorem mapM_ok {α β : Type} (f : α → Exec β) (g : α → β) (xs : List α)
    (h : ∀ a ∈ xs, f a = .ok (g a)) : xs.mapM f = .ok (xs.map g) := by
  induction xs with
  | nil => rfl
  | cons a xs ih =>
      rw [List.mapM_cons, h a (by simp), ih fun x hx => h x (by simp [hx])]
      rfl

theorem mapM_ok_forall₂ {α β : Type} {f : α → Exec β} {xs : List α}
    {ys : List β} (h : xs.mapM f = .ok ys) :
    List.Forall₂ (fun x y => f x = .ok y) xs ys := by
  induction xs generalizing ys with
  | nil =>
      cases h
      exact .nil
  | cons x xs ih =>
      rw [List.mapM_cons] at h
      obtain ⟨y, hy, h⟩ := bind_eq_ok.mp h
      obtain ⟨zs, hzs, h⟩ := bind_eq_ok.mp h
      cases h
      exact .cons hy (ih hzs)

theorem mapM_ok_mem {α β : Type} {f : α → Exec β} {xs : List α} {ys : List β}
    (h : xs.mapM f = .ok ys) :
    (∀ x ∈ xs, ∃ y ∈ ys, f x = .ok y) ∧ ∀ y ∈ ys, ∃ x ∈ xs, f x = .ok y := by
  have hall := mapM_ok_forall₂ h
  clear h
  induction hall with
  | nil => simp
  | @cons x y xs ys hxy _ ih =>
      constructor
      · refine List.forall_mem_cons.mpr ⟨⟨y, List.mem_cons_self, hxy⟩, fun x' hx' => ?_⟩
        obtain ⟨y', hy', hxy'⟩ := ih.1 x' hx'
        exact ⟨y', List.mem_cons_of_mem _ hy', hxy'⟩
      · refine List.forall_mem_cons.mpr ⟨⟨x, List.mem_cons_self, hxy⟩, fun y' hy' => ?_⟩
        obtain ⟨x', hx', hxy'⟩ := ih.2 y' hy'
        exact ⟨x', List.mem_cons_of_mem _ hx', hxy'⟩

/-! ## Products that fit -/

/-- Every product of entries of `xs` is a word. -/
def FitsU64 (xs : List Nat) : Prop :=
  ∀ ys : List Nat, ys.Sublist xs → ys.prod < 2 ^ 64

theorem FitsU64.sublist {xs ys : List Nat} (h : FitsU64 xs)
    (hs : ys.Sublist xs) : FitsU64 ys :=
  fun zs hz => h zs (hz.trans hs)

theorem FitsU64.prod_lt {xs : List Nat} (h : FitsU64 xs) : xs.prod < 2 ^ 64 :=
  h xs (List.Sublist.refl xs)

theorem prod_sublist_le {xs ys : List Nat} (hpos : ∀ x ∈ xs, 1 ≤ x)
    (hs : ys.Sublist xs) : ys.prod ≤ xs.prod := by
  induction hs with
  | slnil => exact le_refl _
  | cons a _ ih =>
      have htail := ih fun x hx => hpos x (by simp [hx])
      have ha : 1 ≤ a := hpos a (by simp)
      rw [List.prod_cons]
      exact htail.trans (Nat.le_mul_of_pos_left _ ha)
  | cons_cons a _ ih =>
      have htail := ih fun x hx => hpos x (by simp [hx])
      simp only [List.prod_cons]
      exact Nat.mul_le_mul_left a htail

/-- Where no entry is zero the whole product decides. -/
theorem fitsU64_of_prod_lt {xs : List Nat} (hpos : ∀ x ∈ xs, 1 ≤ x)
    (h : xs.prod < 2 ^ 64) : FitsU64 xs :=
  fun _ hs => (prod_sublist_le hpos hs).trans_lt h

theorem FitsU64.mono {xs ys : List Nat} (h : FitsU64 ys)
    (hle : List.Forall₂ (· ≤ ·) xs ys) : FitsU64 xs := by
  have hbelow : ∀ zs : List Nat, zs.Sublist xs →
      ∃ ws : List Nat, ws.Sublist ys ∧ zs.prod ≤ ws.prod := by
    clear h
    induction hle with
    | nil =>
        intro zs hzs
        exact ⟨[], .slnil, by rw [List.sublist_nil.mp hzs]⟩
    | @cons x y xs ys hxy _ ih =>
        intro zs hzs
        rcases List.sublist_cons_iff.mp hzs with htail | ⟨us, rfl, hus⟩
        · obtain ⟨ws, hws, hprod⟩ := ih zs htail
          exact ⟨ws, hws.cons y, hprod⟩
        · obtain ⟨ws, hws, hprod⟩ := ih us hus
          refine ⟨y :: ws, hws.cons_cons y, ?_⟩
          rw [List.prod_cons, List.prod_cons]
          exact Nat.mul_le_mul hxy hprod
  intro zs hzs
  obtain ⟨ws, hws, hprod⟩ := hbelow zs hzs
  exact hprod.trans_lt (h ws hws)

theorem productU64_from (b : Build) (pre xs : List Nat)
    (h : FitsU64 (pre ++ xs)) :
    xs.foldlM (mulU64 b) pre.prod = .ok (pre ++ xs).prod := by
  induction xs generalizing pre with
  | nil => simp [pure, Except.pure]
  | cons x xs ih =>
      have hfits : FitsU64 ((pre ++ [x]) ++ xs) := by simpa using h
      have hx : pre.prod * x < 2 ^ 64 := by
        have := hfits (pre ++ [x]) (List.sublist_append_left _ _)
        simpa using this
      rw [List.foldlM_cons, mulU64_eq hx]
      have := ih (pre ++ [x]) hfits
      simpa [bind, Except.bind] using this

theorem productU64_eq {b : Build} {xs : List Nat} (h : FitsU64 xs) :
    productU64 b xs = .ok xs.prod := by
  simpa [productU64] using productU64_from b [] xs (by simpa using h)

/--
A sum accumulated by `fold`: where the exact total is a word, both builds
return it.
-/
theorem foldlM_addU64 {α : Type} {b : Build} (f : α → Exec Nat) (g : α → Nat)
    (xs : List α) (acc : Nat) (hf : ∀ a ∈ xs, f a = .ok (g a))
    (h : acc + (xs.map g).sum < 2 ^ 64) :
    xs.foldlM (fun acc a => do addU64 b acc (← f a)) acc =
      .ok (acc + (xs.map g).sum) := by
  induction xs generalizing acc with
  | nil => simp [pure, Except.pure]
  | cons a xs ih =>
      simp only [List.map_cons, List.sum_cons] at h ⊢
      have ha : f a = .ok (g a) := hf a (by simp)
      have hadd : addU64 b acc (g a) = .ok (acc + g a) := addU64_eq (by omega)
      have htail := ih (acc + g a) (fun x hx => hf x (by simp [hx]))
        (by omega)
      rw [List.foldlM_cons, ha]
      simp only [bind, Except.bind, hadd] at htail ⊢
      rw [htail, Nat.add_assoc]

theorem foldlM_addU64_lt {α : Type} {b : Build} {f : α → Exec Nat}
    {xs : List α} {acc z : Nat} (hacc : acc < 2 ^ 64)
    (h : xs.foldlM (fun acc a => do addU64 b acc (← f a)) acc = .ok z) :
    z < 2 ^ 64 := by
  induction xs generalizing acc with
  | nil =>
      cases h
      exact hacc
  | cons a xs ih =>
      rw [List.foldlM_cons] at h
      obtain ⟨y, hy, h⟩ := bind_eq_ok.mp h
      obtain ⟨x, -, hy⟩ := bind_eq_ok.mp hy
      exact ih (addU64_lt hy) h

end Hidefix.Foundation
