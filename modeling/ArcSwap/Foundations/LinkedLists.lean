import Mathlib.Data.List.Nodup
import Mathlib.Tactic.Common

/-!
# Linked lists

A chain of links, `next : α → Option α`, that is followed from an entry, an `Option α`, to its end.
The chain that an entry leads to is determined by the links, it meets nobody twice, and it depends
only on the links of those it meets.
-/

variable {α : Type*} {next next' : α → Option α} {o : Option α} {a : α} {l l' : List α}

/-- Following the links from the entry, one meets the elements of the list, and then the end. -/
inductive Leads (next : α → Option α) : Option α → List α → Prop
  | nil : Leads next none []
  | cons {a : α} {l : List α} (h : Leads next (next a) l) : Leads next (some a) (a :: l)

namespace Leads

theorem tail (h : Leads next (some a) l) : ∃ l', l = a :: l' ∧ Leads next (next a) l' := by
  cases h with
  | cons h => exact ⟨_, rfl, h⟩

/-- An entry leads to one chain. -/
theorem unique (h : Leads next o l) (h' : Leads next o l') : l = l' := by
  induction h generalizing l' with
  | nil =>
    cases h'
    rfl
  | cons h ih =>
    obtain ⟨l₁, rfl, h₁⟩ := h'.tail
    rw [ih h₁]

/-- The chain from somebody in the chain is the rest of it. -/
theorem split (h : Leads next o l) (ha : a ∈ l) :
    ∃ l₁ l₂, l = l₁ ++ a :: l₂ ∧ Leads next (some a) (a :: l₂) := by
  induction h with
  | nil => cases ha
  | @cons b l h ih =>
    rcases List.mem_cons.mp ha with rfl | ha
    · exact ⟨[], l, rfl, .cons h⟩
    · obtain ⟨l₁, l₂, rfl, h'⟩ := ih ha
      exact ⟨b :: l₁, l₂, rfl, h'⟩

/-- **A chain that ends meets nobody twice.** -/
theorem nodup (h : Leads next o l) : l.Nodup := by
  induction h with
  | nil => exact List.nodup_nil
  | @cons a l h ih =>
    refine List.nodup_cons.mpr ⟨fun ha => ?_, ih⟩
    -- the chain from `a` would be a part of itself
    obtain ⟨l₁, l₂, hl, h'⟩ := h.split ha
    have hlen := congrArg List.length ((Leads.cons h).unique h')
    rw [hl] at hlen
    simp only [List.length_cons, List.length_append] at hlen
    omega

/-- The chain depends only on the links of those in it. -/
theorem congr (h : Leads next o l) (hn : ∀ a ∈ l, next' a = next a) : Leads next' o l := by
  induction h with
  | nil => exact .nil
  | @cons a l h ih =>
    apply Leads.cons
    rw [hn a (List.mem_cons_self ..)]
    apply ih
    intro b hb
    exact hn b (List.mem_cons_of_mem _ hb)

/-- A rank that falls along the links leads to an end. -/
theorem exists_of_rank (rank : α → ℕ) {P : α → Prop}
    (hr : ∀ a b, P a → next a = some b → rank b < rank a ∧ P b) (ho : ∀ a, o = some a → P a) :
    ∃ l, Leads next o l ∧ ∀ a ∈ l, P a := by
  cases o with
  | none => exact ⟨[], .nil, by simp⟩
  | some a =>
    have ha : P a := ho a rfl
    clear ho
    induction hk : rank a using Nat.strongRecOn generalizing a with
    | _ k ih =>
      cases hx : next a with
      | none =>
        refine ⟨[a], .cons (hx ▸ .nil), ?_⟩
        simpa using ha
      | some b =>
        obtain ⟨hlt, hb⟩ := hr a b ha hx
        obtain ⟨l, hl, hP⟩ := ih (rank b) (hk ▸ hlt) b hb rfl
        refine ⟨a :: l, .cons (hx ▸ hl), ?_⟩
        simpa using ⟨ha, hP⟩

end Leads
