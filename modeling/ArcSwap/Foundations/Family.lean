import Mathlib.Algebra.BigOperators.Group.Finset.Basic
import Mathlib.Algebra.Order.BigOperators.Group.Finset
import Mathlib.Algebra.Order.Group.Multiset

/-!
# What the members of a family hold together

The members of a finite family `g : T → S` hold resources `f (g t)` in a commutative monoid. When
one member changes, the total is what this member holds now and what the others have held before.
-/

namespace Family

variable {T S M A : Type*} [Fintype T]

/-- What all members hold. -/
def total [AddCommMonoid M] (f : S → M) (g : T → S) : M := ∑ t, f (g t)

theorem mem_total {f : S → Multiset A} {g : T → S} {a : A} :
    a ∈ total f g ↔ ∃ t, a ∈ f (g t) := by
  simp [total, Multiset.mem_sum]

theorem total_eq_zero [AddCommMonoid M] {f : S → M} {g : T → S} (h : ∀ t, f (g t) = 0) :
    total f g = 0 :=
  Finset.sum_eq_zero fun t _ => h t

variable [DecidableEq T]

section Monoid

variable [AddCommMonoid M]

/-- What all members but `t` hold. -/
def rest (f : S → M) (g : T → S) (t : T) : M := ∑ t' ∈ Finset.univ.erase t, f (g t')

theorem total_eq (f : S → M) (g : T → S) (t : T) : total f g = f (g t) + rest f g t :=
  (Finset.add_sum_erase _ _ (Finset.mem_univ t)).symm

theorem total_update (f : S → M) (g : T → S) (t : T) (x : S) :
    total f (Function.update g t x) = f x + rest f g t := by
  rw [total_eq f _ t, Function.update_self]
  congr 1
  refine Finset.sum_congr rfl fun t' ht' => ?_
  rw [Function.update_of_ne (Finset.ne_of_mem_erase ht')]

end Monoid

variable {f : S → Multiset A} {g : T → S} {a : A} {t t' : T}

theorem mem_rest : a ∈ rest f g t ↔ ∃ t', t' ≠ t ∧ a ∈ f (g t') := by
  simp [rest, Multiset.mem_sum]

/-- What all members hold beside `x`, when the member `t` holds `x` beside its own. -/
theorem total_map_add_le {B : Type*} {f' : S → Multiset B} {φ : A → B} {x : Multiset B}
    (h : ∀ t', t' ≠ t → (f (g t')).map φ ≤ f' (g t')) (ht : x + (f (g t)).map φ ≤ f' (g t)) :
    x + (total f g).map φ ≤ total f' g := by
  rw [total_eq f g t, total_eq f' g t, Multiset.map_add, ← add_assoc]
  refine add_le_add ht ?_
  rw [rest, rest, ← Multiset.coe_mapAddMonoidHom, map_sum]
  exact Finset.sum_le_sum fun t' ht' => h t' (Finset.ne_of_mem_erase ht')

variable [DecidableEq A]

/-- What exists at most once has one holder. -/
theorem holder_unique (h : (total f g).count a ≤ 1) (ht : a ∈ f (g t)) (ht' : a ∈ f (g t')) :
    t' = t := by
  by_contra hne
  have h₁ : 1 ≤ (f (g t)).count a := Multiset.one_le_count_iff_mem.mpr ht
  have h₂ : 1 ≤ (rest f g t).count a :=
    Multiset.one_le_count_iff_mem.mpr (mem_rest.mpr ⟨t', hne, ht'⟩)
  rw [total_eq f g t, Multiset.count_add] at h
  omega

end Family
