import Mathlib.Data.List.Basic

/-!
# Compositions

Calls that make a value of a value, one after the other. Where each call is a function, the last
value is what the composition of the functions makes of the first one.
-/

variable {N C : Type*} {R R' : N → C → C → Prop} {c c' : C} {ns : List N}

/-- The calls of the list make `c'` of `c`, one after the other; `R n` says what the call `n` makes
of a value. -/
inductive Composes (R : N → C → C → Prop) (c : C) : List N → C → Prop
  | nil : Composes R c [] c
  | tail {ns n c' c''} (h : Composes R c ns c') (hr : R n c' c'') : Composes R c (ns ++ [n]) c''

namespace Composes

theorem mono (h : Composes R c ns c') (hR : ∀ n c c', R n c c' → R' n c c') :
    Composes R' c ns c' := by
  induction h with
  | nil => exact .nil
  | tail _ hr ih => exact ih.tail (hR _ _ _ hr)

/-- What functions make of a value. It is enough that the calls are functions of something that the
values stand for. -/
theorem eq_foldl {V : Type*} {val : C → V} {F : N → V → V} (h : Composes R c ns c')
    (hF : ∀ n c c', R n c c' → F n (val c) = val c') :
    val c' = ns.foldl (fun v n => F n v) (val c) := by
  induction h with
  | nil => rfl
  | tail _ hr ih => rw [List.foldl_append, ← ih, List.foldl_cons, List.foldl_nil, hF _ _ _ hr]

end Composes
