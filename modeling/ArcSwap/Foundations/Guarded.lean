import Mathlib.Logic.Relation
import Mathlib.Tactic.Common

/-!
# Guarded runs

A machine takes actions, `step : S → A → Option S`. A run is guarded by `P : S → A → Prop` when
each of its steps is taken in a state and by an action that satisfy `P`: what is proved of the
states of guarded runs holds under an assumption about steps, not about states.
-/

namespace Guarded

variable {S A : Type*} {step : S → A → Option S} {P Q : S → A → Prop} {s s' s₀ : S}

/-- A guarded step. -/
def Next (step : S → A → Option S) (P : S → A → Prop) (s s' : S) : Prop :=
  ∃ a, P s a ∧ step s a = some s'

/-- A guarded run. -/
abbrev Run (step : S → A → Option S) (P : S → A → Prop) : S → S → Prop :=
  Relation.ReflTransGen (Next step P)

/-- What the first state satisfies and every step keeps holds at the end of a run. -/
theorem Run.invariant {I : S → Prop} (h : Run step P s₀ s) (h₀ : I s₀)
    (hs : ∀ s s' a, I s → P s a → step s a = some s' → I s') : I s := by
  induction h with
  | refl => exact h₀
  | tail _ h ih =>
    obtain ⟨a, hp, ha⟩ := h
    exact hs _ _ a ih hp ha

/-- A run under a stronger guard. -/
theorem Run.mono (h : Run step P s₀ s) (hpq : ∀ s a, P s a → Q s a) : Run step Q s₀ s :=
  Relation.ReflTransGen.mono (fun _ _ ⟨a, hp, ha⟩ => ⟨a, hpq _ a hp, ha⟩) _ _ h

/-- A run under a guard that follows from what the run keeps. -/
theorem Run.guard {I : S → Prop} (h : Run step P s₀ s) (h₀ : I s₀)
    (hs : ∀ s s' a, I s → P s a → step s a = some s' → I s') (hq : ∀ s a, I s → P s a → Q s a) :
    Run step Q s₀ s :=
  (h.invariant (I := fun s => I s ∧ Run step Q s₀ s) ⟨h₀, .refl⟩ fun s s' a hi hp ha =>
    ⟨hs s s' a hi.1 hp ha, hi.2.tail ⟨a, hq s a hi.1 hp, ha⟩⟩).2

/-- A machine on top of another one: when each of its steps is a step below or leaves what is below
alone, a run of it is a run below. -/
theorem Run.project {S' A' : Type*} {step' : S' → A' → Option S'} {P' : S' → A' → Prop} {u u' : S'}
    (π : S' → S) (h : Run step' P' u u')
    (hs : ∀ u u' a, P' u a → step' u a = some u' → π u' = π u ∨ Next step P (π u) (π u')) :
    Run step P (π u) (π u') := by
  induction h with
  | refl => exact .refl
  | tail _ h ih =>
    obtain ⟨a, hp, ha⟩ := h
    rcases hs _ _ a hp ha with he | hn
    · rwa [he]
    · exact ih.tail hn

/-- A quantity that grows by at most one in each step passes every value in between in one step. -/
theorem Run.exists_step {I : S → Prop} {f : S → ℕ} {k : ℕ} (h : Run step P s₀ s) (h₀ : I s₀)
    (hs : ∀ s s' a, I s → P s a → step s a = some s' → I s' ∧ f s' ≤ f s + 1)
    (hk : f s₀ ≤ k) (hk' : k < f s) : ∃ s₁ s₂, Run step P s₀ s₁ ∧ Next step P s₁ s₂ ∧
      Run step P s₂ s ∧ f s₁ ≤ k ∧ f s₂ = k + 1 := by
  induction h with
  | refl => exact absurd hk' (Nat.not_lt.mpr hk)
  | @tail s₁ s₂ h₁ h₂ ih =>
    obtain ⟨a, hp, ha⟩ := h₂
    have hI₁ : I s₁ := Run.invariant h₁ h₀ fun s s' a hi hp ha => (hs s s' a hi hp ha).1
    have hle := (hs s₁ s₂ a hI₁ hp ha).2
    obtain hk₁ | hk₁ := Nat.lt_or_ge k (f s₁)
    · obtain ⟨s₃, s₄, hr, hn, hr', hf⟩ := ih hk₁
      exact ⟨s₃, s₄, hr, hn, hr'.tail ⟨a, hp, ha⟩, hf⟩
    · exact ⟨s₁, s₂, h₁, ⟨a, hp, ha⟩, .refl, hk₁, by omega⟩

/-! ## Paths -/

/-- A guarded run, with the states that it passes. -/
inductive Path (step : S → A → Option S) (P : S → A → Prop) : S → List S → S → Prop
  | last (s : S) : Path step P s [s] s
  | head {s₀ s₁ s : S} {us : List S} (h : Next step P s₀ s₁) (hp : Path step P s₁ us s) :
    Path step P s₀ (s₀ :: us) s

section Path

variable {us : List S} {u u' : S}

theorem Run.exists_path (h : Run step P s₀ s) : ∃ us, Path step P s₀ us s := by
  induction h using Relation.ReflTransGen.head_induction_on with
  | refl => exact ⟨_, .last s⟩
  | head h _ ih =>
    obtain ⟨us, hp⟩ := ih
    exact ⟨_, .head h hp⟩

theorem Path.run (h : Path step P s₀ us s) : Run step P s₀ s := by
  induction h with
  | last => exact .refl
  | head h _ ih => exact .head h ih

/-- The runs before and after a state of a path. -/
theorem Path.runs (h : Path step P s₀ us s) (hu : u ∈ us) :
    Run step P s₀ u ∧ Run step P u s := by
  induction h with
  | last =>
    obtain rfl := List.mem_singleton.mp hu
    exact ⟨.refl, .refl⟩
  | head h hp ih =>
    rcases List.mem_cons.mp hu with rfl | hu
    · exact ⟨.refl, .head h hp.run⟩
    · exact (ih hu).imp_left (.head h)

/-- The runs before and after a step of a path. -/
theorem Path.steps (h : Path step P s₀ us s) (hu : [u, u'] <:+: us) :
    Run step P s₀ u ∧ Next step P u u' ∧ Run step P u' s := by
  induction h with
  | last => simpa using hu.length_le
  | head h hp ih =>
    rcases List.infix_cons_iff.mp hu with hpre | hin
    · obtain ⟨rfl, hpre'⟩ := List.cons_prefix_cons.mp hpre
      cases hp with
      | last =>
        obtain ⟨rfl, -⟩ := List.cons_prefix_cons.mp hpre'
        exact ⟨.refl, h, .refl⟩
      | head h' hp =>
        obtain ⟨rfl, -⟩ := List.cons_prefix_cons.mp hpre'
        exact ⟨.refl, h, .head h' hp.run⟩
    · exact (ih hin).imp_left (.head h)

end Path

/-! ## Logs -/

section Log

variable {E : Type*} {log : S → List E} {I : S → Prop} {i : ℕ} {e : E}

/-- A log that is only appended to. -/
theorem Run.log_prefix (h : Run step P s₀ s) (h₀ : I s₀) (hs : ∀ s s' a, I s → P s a →
    step s a = some s' → I s' ∧ log s <+: log s') : I s ∧ log s₀ <+: log s :=
  h.invariant (I := fun s => I s ∧ log s₀ <+: log s) ⟨h₀, List.prefix_rfl⟩
    fun s s' a hi hp ha => ⟨(hs s s' a hi.1 hp ha).1, hi.2.trans (hs s s' a hi.1 hp ha).2⟩

/-- **The instant of a write**: in a log to which a step appends one entry at most, an entry that is
younger than the run has been written by one of its steps, and the older ones stood there before. -/
theorem Run.exists_write (log : S → List E) (h : Run step P s₀ s) (h₀ : I s₀)
    (hs : ∀ s s' a, I s → P s a → step s a = some s' →
      I s' ∧ log s <+: log s' ∧ (log s').length ≤ (log s).length + 1)
    (hi : (log s₀).length ≤ i) (he : (log s)[i]? = some e) :
    ∃ s₁ s₂, Run step P s₀ s₁ ∧ Next step P s₁ s₂ ∧ Run step P s₂ s ∧ (log s₁).length = i ∧
      (log s₂).length = i + 1 ∧ (log s₂)[i]? = some e ∧ ∀ j < i, (log s₁)[j]? = (log s)[j]? := by
  obtain ⟨hlt, -⟩ := List.getElem?_eq_some_iff.mp he
  have hkeep : ∀ s s' a, I s → P s a → step s a = some s' → I s' ∧ log s <+: log s' :=
    fun s s' a hi hp ha => ⟨(hs s s' a hi hp ha).1, (hs s s' a hi hp ha).2.1⟩
  obtain ⟨s₁, s₂, hr₁, ⟨a, hp, ha⟩, hr₂, hle, hs₂⟩ := h.exists_step
    (f := fun s => (log s).length) h₀
      (fun s s' a hi hp ha => ⟨(hs s s' a hi hp ha).1, (hs s s' a hi hp ha).2.2⟩) hi hlt
  have h₁ : I s₁ := (hr₁.log_prefix h₀ hkeep).1
  have hlen := (hs s₁ s₂ a h₁ hp ha).2.2
  have hsame : ∀ {u j}, I u → Run step P u s → j < (log u).length → (log u)[j]? = (log s)[j]? :=
    fun hu hr hj => (List.getElem?_eq_getElem hj).trans
      (List.prefix_iff_getElem?.mp (hr.log_prefix hu hkeep).2 _ hj).symm
  refine ⟨s₁, s₂, hr₁, ⟨a, hp, ha⟩, hr₂, by omega, hs₂, ?_, fun j hj => ?_⟩
  · exact (hsame (hs s₁ s₂ a h₁ hp ha).1 hr₂ (by omega)).trans he
  · exact hsame h₁ (.head ⟨a, hp, ha⟩ hr₂) (by omega)

/-- **The instant of a read**: an entry that is not older than the last one at the beginning of the
run has been the last one at an instant of the run, at the beginning or right after a write. -/
theorem Run.exists_last (log : S → List E) (h : Run step P s₀ s) (h₀ : I s₀)
    (hs : ∀ s s' a, I s → P s a → step s a = some s' →
      I s' ∧ log s <+: log s' ∧ (log s').length ≤ (log s).length + 1)
    (hi : (log s₀).length ≤ i + 1) (he : (log s)[i]? = some e) :
    ∃ s₁, Run step P s₀ s₁ ∧ Run step P s₁ s ∧ (log s₁).length = i + 1 ∧ (log s₁)[i]? = some e ∧
      (s₁ = s₀ ∨ ∃ s', Run step P s₀ s' ∧ Next step P s' s₁ ∧ (log s').length = i) := by
  rcases Nat.lt_or_ge i (log s₀).length with hlt | hge
  · have hkeep : ∀ s s' a, I s → P s a → step s a = some s' → I s' ∧ log s <+: log s' :=
      fun s s' a hi hp ha => ⟨(hs s s' a hi hp ha).1, (hs s s' a hi hp ha).2.1⟩
    have hlast := List.getElem?_eq_getElem hlt
    have hsame := List.prefix_iff_getElem?.mp (h.log_prefix h₀ hkeep).2 i hlt
    exact ⟨s₀, .refl, h, by omega, hlast.trans (hsame.symm.trans he), .inl rfl⟩
  · obtain ⟨s₁, s₂, hr₁, hn, hr₂, hl₁, hl₂, hlast, -⟩ := h.exists_write log h₀ hs hge he
    exact ⟨s₂, hr₁.tail hn, hr₂, hl₂, hlast, .inr ⟨s₁, hr₁, hn, hl₁⟩⟩

variable {us : List S} {u u' : S}

/-- **Every run passes it**: in a log to which a step appends one entry at most, a state of the log
that one run between two states passes is passed by every path between them. The log has come to it
in a step, or it has been there at the beginning. -/
theorem Path.exists_log (log : S → List E) (h : Path step P s₀ us s) (h₀ : I s₀)
    (hs : ∀ s s' a, I s → P s a → step s a = some s' →
      I s' ∧ log s <+: log s' ∧ (log s').length ≤ (log s).length + 1)
    (hu₀ : log s₀ <+: log u) (hu : log u <+: log s) : ∃ v ∈ us, log v = log u ∧
      (v = s₀ ∨ ∃ v', [v', v] <:+: us ∧ log v' ≠ log v) := by
  induction h with
  | last s => exact ⟨s, List.mem_cons_self, hu₀.eq_of_length_le hu.length_le, .inl rfl⟩
  | @head s₀ s₁ s us hn hp ih =>
    by_cases he : log s₀ = log u
    · exact ⟨s₀, List.mem_cons_self, he, .inl rfl⟩
    · obtain ⟨a, ha, hstep⟩ := hn
      obtain ⟨h₁, -, hle⟩ := hs s₀ s₁ a h₀ ha hstep
      have hlog : log s₁ <+: log s := (hp.run.log_prefix h₁ fun s s' a hi hp ha =>
        ⟨(hs s s' a hi hp ha).1, (hs s s' a hi hp ha).2.1⟩).2
      have hlt : (log s₀).length ≠ (log u).length := fun hl => he (hu₀.eq_of_length hl)
      have hu₁ := hu₀.length_le
      obtain ⟨v, hv, hvu, hor⟩ := ih h₁ (List.prefix_of_prefix_length_le hlog hu (by omega)) hu
      refine ⟨v, List.mem_cons_of_mem _ hv, hvu, .inr ?_⟩
      rcases hor with rfl | ⟨v', hv', hne⟩
      · refine ⟨s₀, ?_, fun hl => he (hl.trans hvu)⟩
        cases hp with
        | last | head => exact (List.prefix_append [s₀, _] _).isInfix
      · exact ⟨v', hv'.trans (List.suffix_cons s₀ us).isInfix, hne⟩

/-- Every path takes a step that appends what a step of a run between its ends appends. -/
theorem Path.exists_append (log : S → List E) (h : Path step P s₀ us s) (h₀ : I s₀)
    (hs : ∀ s s' a, I s → P s a → step s a = some s' →
      I s' ∧ log s <+: log s' ∧ (log s').length ≤ (log s).length + 1)
    (hu₀ : log s₀ <+: log u) (hu : log u <+: log u') (hl : (log u').length = (log u).length + 1)
    (hu' : log u' <+: log s) : ∃ v v', [v, v'] <:+: us ∧ log v = log u ∧ log v' = log u' := by
  obtain ⟨v', -, hv', hor⟩ := h.exists_log log h₀ hs (hu₀.trans hu) hu'
  rcases hor with rfl | ⟨v, hv, hne⟩
  · have hle := hu₀.length_le
    rw [hv'] at hle
    omega
  · obtain ⟨hr, ⟨a, ha, hstep⟩, -⟩ := h.steps hv
    have hI : I v := hr.invariant h₀ fun s s' a hi hp ha => (hs s s' a hi hp ha).1
    obtain ⟨-, hlog, hle⟩ := hs v v' a hI ha hstep
    rw [hv'] at hlog hle hne
    have hlt : (log v).length ≠ (log u').length := fun hl => hne (hlog.eq_of_length hl)
    have hvl := hlog.length_le
    exact ⟨v, v', hv, (List.prefix_of_prefix_length_le hlog hu (by omega)).eq_of_length (by omega),
      hv'⟩

end Log

/-! ## Adding up -/

/-- A guarded run from `s₀`, with the sum of what its steps amount to. -/
inductive Tally {M : Type*} [Add M] [Zero M] (step : S → A → Option S) (P : S → A → Prop)
    (f : S → A → S → M) (s₀ : S) : S → M → Prop
  | start : Tally step P f s₀ s₀ 0
  | next {s s' a x} (h : Tally step P f s₀ s x) (hp : P s a) (ha : step s a = some s') :
    Tally step P f s₀ s' (x + f s a s')

/-- What holds at the beginning and is kept by every step, with what the step amounts to, holds at
the end. -/
theorem Tally.invariant {M : Type*} [Add M] [Zero M] {f : S → A → S → M} {x : M} {I : S → M → Prop}
    (h : Tally step P f s₀ s x) (h₀ : I s₀ 0)
    (hs : ∀ s s' a x, I s x → P s a → step s a = some s' → I s' (x + f s a s')) : I s x := by
  induction h with
  | start => exact h₀
  | next _ hp ha ih => exact hs _ _ _ _ ih hp ha

/-- Every guarded run has a sum. -/
theorem Run.tally {M : Type*} [Add M] [Zero M] (f : S → A → S → M) (h : Run step P s₀ s) :
    ∃ x, Tally step P f s₀ s x := by
  induction h with
  | refl => exact ⟨0, .start⟩
  | tail _ h ih =>
    obtain ⟨x, hx⟩ := ih
    obtain ⟨a, hp, ha⟩ := h
    exact ⟨_, hx.next hp ha⟩

/-! ## Traces -/

/-- A guarded run from `s₀`, with the list of what its steps show. -/
inductive Trace {E : Type*} (step : S → A → Option S) (P : S → A → Prop) (f : S → A → Option E)
    (s₀ : S) : S → List E → Prop
  | start : Trace step P f s₀ s₀ []
  | next {s s' a l} (h : Trace step P f s₀ s l) (hp : P s a) (ha : step s a = some s') :
    Trace step P f s₀ s' (l ++ (f s a).toList)

section Trace

variable {E : Type*} {f : S → A → Option E} {l : List E} {e : E}

theorem Trace.run (h : Trace step P f s₀ s l) : Run step P s₀ s := by
  induction h with
  | start => exact .refl
  | next _ hp ha ih => exact ih.tail ⟨_, hp, ha⟩

theorem Trace.head {s₁ : S} {a : A} (h : Trace step P f s₁ s l) (hp : P s₀ a)
    (ha : step s₀ a = some s₁) : Trace step P f s₀ s ((f s₀ a).toList ++ l) := by
  induction h with
  | start => simpa using Trace.start.next hp ha
  | next _ hp' ha' ih => simpa using ih.next hp' ha'

/-- What holds at the beginning and is kept by every step, with what the step shows, holds at the
end. -/
theorem Trace.invariant {I : S → List E → Prop} (h : Trace step P f s₀ s l) (h₀ : I s₀ [])
    (hs : ∀ s s' a l, Run step P s₀ s → I s l → P s a → step s a = some s' →
      I s' (l ++ (f s a).toList)) : I s l := by
  induction h with
  | start => exact h₀
  | next h hp ha ih => exact hs _ _ _ _ h.run ih hp ha

/-- **The last event**: there is a step that shows it, and the steps after it show nothing. -/
theorem Trace.exists_last (h : Trace step P f s₀ s (l ++ [e])) : ∃ s₁ a s₂,
    Trace step P f s₀ s₁ l ∧ P s₁ a ∧ step s₁ a = some s₂ ∧ f s₁ a = some e ∧
      Trace step P f s₂ s [] := by
  generalize hl' : l ++ [e] = l' at h
  induction h with
  | start => simp at hl'
  | @next s s' a l' h hp ha ih =>
    cases hf : f s a with
    | none =>
      rw [hf, Option.toList_none, List.append_nil] at hl'
      obtain ⟨s₁, b, s₂, h₁, hb, hs, he, h₂⟩ := ih hl'
      have hnext := h₂.next hp ha
      rw [hf] at hnext
      exact ⟨s₁, b, s₂, h₁, hb, hs, he, hnext⟩
    | some e' =>
      rw [hf, Option.toList_some] at hl'
      obtain ⟨rfl, he⟩ := List.append_inj' hl' rfl
      obtain rfl : e = e' := by simpa using he
      exact ⟨s, a, s', h, hp, ha, hf, .start⟩

end Trace

/-! ## Playing a schedule -/

/-- The actions of a list one after the other, as long as they satisfy the guard. -/
def play (step : S → A → Option S) (P : S → A → Prop) [∀ s a, Decidable (P s a)] :
    S → List A → Option S
  | s, [] => some s
  | s, a :: as => if P s a then (step s a).bind fun s' => play step P s' as else none

theorem play_append [∀ s a, Decidable (P s a)] (as as' : List A) :
    play step P s (as ++ as') = (play step P s as).bind fun s' => play step P s' as' := by
  induction as generalizing s with
  | nil => rfl
  | cons a as ih =>
    simp only [List.cons_append, play]
    split
    · cases step s a with
      | none => rfl
      | some s' => exact ih
    · rfl

/-- What is played under a stronger guard is played under a weaker one. -/
theorem play_mono [∀ s a, Decidable (P s a)] [∀ s a, Decidable (Q s a)]
    (hpq : ∀ s a, P s a → Q s a) {as : List A} (h : play step P s as = some s') :
    play step Q s as = some s' := by
  induction as generalizing s with
  | nil => exact h
  | cons a as ih =>
    simp only [play, Option.ite_none_right_eq_some, Option.bind_eq_some_iff] at h ⊢
    obtain ⟨hp, s₁, ha, h⟩ := h
    exact ⟨hpq s a hp, s₁, ha, ih h⟩

theorem run_of_play [∀ s a, Decidable (P s a)] {as : List A} (h : play step P s as = some s') :
    Run step P s s' := by
  induction as generalizing s with
  | nil => exact (Option.some.inj h) ▸ .refl
  | cons a as ih =>
    simp only [play, Option.ite_none_right_eq_some, Option.bind_eq_some_iff] at h
    obtain ⟨hp, s₁, ha, h⟩ := h
    exact Relation.ReflTransGen.head ⟨a, hp, ha⟩ (ih h)

section After

variable [∀ s a, Decidable (P s a)] {as : List A} {k l : ℕ}

theorem play_take (h : (play step P s as).isSome) (k : ℕ) : (play step P s (as.take k)).isSome := by
  rw [← List.take_append_drop k as, play_append] at h
  exact Option.isSome_of_isSome_bind h

/-- The state after `k` actions of a schedule that can be played. -/
def after (h : (play step P s as).isSome) (k : ℕ) : S :=
  (play step P s (as.take k)).get (play_take h k)

theorem after_eq (h : (play step P s as).isSome) (k : ℕ) :
    play step P s (as.take k) = some (after h k) :=
  (Option.some_get (play_take h k)).symm

theorem after_reachable (h : (play step P s as).isSome) (k : ℕ) : Run step P s (after h k) :=
  run_of_play (after_eq h k)

theorem after_add (h : (play step P s as).isSome) (k l : ℕ) :
    play step P (after h k) ((as.drop k).take l) = some (after h (k + l)) := by
  have hkl := after_eq h (k + l)
  rwa [List.take_add, play_append, after_eq h k, Option.bind_some] at hkl

/-- The run between two states of a schedule. -/
theorem after_run (h : (play step P s as).isSome) (k l : ℕ) :
    Run step P (after h k) (after h (k + l)) :=
  run_of_play (after_add h k l)

/-- What is played between two states of a schedule when its steps meet a stronger condition. -/
theorem after_play_of [∀ s a, Decidable (Q s a)] (hq : ∀ s a, Q s a → P s a)
    (h : (play step P s as).isSome)
    (hp : (play step Q (after h k) ((as.drop k).take l)).isSome) :
    play step Q (after h k) ((as.drop k).take l) = some (after h (k + l)) := by
  obtain ⟨s', hs'⟩ := Option.isSome_iff_exists.mp hp
  rw [hs', ← (play_mono hq hs').symm.trans (after_add h k l)]

/-- The run between them. -/
theorem after_run_of [∀ s a, Decidable (Q s a)] (hq : ∀ s a, Q s a → P s a)
    (h : (play step P s as).isSome)
    (hp : (play step Q (after h k) ((as.drop k).take l)).isSome) :
    Run step Q (after h k) (after h (k + l)) :=
  run_of_play (after_play_of hq h hp)

theorem after_step {a : A} (h : (play step P s as).isSome) (ha : as[k]? = some a) :
    step (after h k) a = some (after h (k + 1)) := by
  have hp := after_add h k 1
  rw [List.take_one, List.head?_drop, ha] at hp
  simp only [Option.toList_some, play, Option.ite_none_right_eq_some, Option.bind_eq_some_iff,
    Option.some.injEq] at hp
  obtain ⟨-, s', hs', rfl⟩ := hp
  exact hs'

end After

end Guarded
