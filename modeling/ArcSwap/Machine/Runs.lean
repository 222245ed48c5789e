import ArcSwap.Foundations.Guarded
import ArcSwap.Machine.Moves

/-!
# Runs of the machine

A run starts with idle threads. The assumptions of a property are conditions on the steps of a run:
they look at the state before the step and at the thread that takes it.
-/

namespace ArcSwap

variable {T : Type*} [DecidableEq T] [Fintype T] {cfg : Config} {s s' : State T} {t : T}
  {P Q : State T → T → Prop}

/-- A run whose steps all meet the condition. -/
abbrev State.Run (cfg : Config) (P : State T → T → Prop) : State T → State T → Prop :=
  Guarded.Run (fun s a => s.step cfg a.1 a.2) (fun s (a : T × Choice) => P s a.1)

/-- Such a run, with the states that it passes. -/
abbrev State.Path (cfg : Config) (P : State T → T → Prop) :
    State T → List (State T) → State T → Prop :=
  Guarded.Path (fun s a => s.step cfg a.1 a.2) (fun s (a : T × Choice) => P s a.1)

/-- The states that are reached by steps that all meet the condition. -/
def State.Reachable (cfg : Config) (P : State T → T → Prop) : State T → Prop :=
  State.Run cfg P .init

/-- What holds at the start and is kept by every step holds in every reachable state. -/
theorem State.Reachable.invariant {I : State T → Prop} (h : s.Reachable cfg P) (h₀ : I .init)
    (hs : ∀ s s' t c, I s → P s t → s.step cfg t c = some s' → I s') : I s :=
  Guarded.Run.invariant h h₀ fun s s' a => hs s s' a.1 a.2

/-- A run under a stronger condition. -/
theorem State.Reachable.mono (h : s.Reachable cfg P) (hpq : ∀ s t, P s t → Q s t) :
    s.Reachable cfg Q :=
  Guarded.Run.mono h fun s a => hpq s a.1

/-! ## Schedules -/

omit [DecidableEq T] [Fintype T] in
/-- The thread goes on for `k` steps. -/
def goOn (t : T) (k : ℕ) : List (T × Choice) := List.replicate k (t, .go false)

/-- What a schedule comes to, when its steps all meet the condition. -/
abbrev State.play (cfg : Config) (P : State T → T → Prop) [∀ s t, Decidable (P s t)] :
    State T → List (T × Choice) → Option (State T) :=
  Guarded.play (fun s a => s.step cfg a.1 a.2) (fun s a => P s a.1)

/-! ## Playing the code -/

section Play

variable (cfg)

/-- Code of the library can always take a step. -/
theorem State.step_go {b : Bool} (hc : (s.thread t).active.IsCode) :
    s.step cfg t (.go b) = some (s.exec cfg t b) := by
  cases ha : (s.thread t).active <;> rw [ha] at hc <;>
    first | exact hc.elim | simp only [State.step, ha]

/-- The thread makes the step of the code. -/
theorem State.go {a : Active} {o : Out} (ha : (s.thread t).active = a) (hc : a.IsCode)
    (ho : a.exec cfg (s.thread t).tls s.mem false = o) :
    ∃ s', s.step cfg t (.go false) = some s' ∧ s'.mem = o.mem ∧
      s'.thread t = (s.thread t).after (s.thread t).conts o := by
  subst ha ho
  exact ⟨_, State.step_go cfg hc, rfl, by simp [State.exec, State.set]⟩

/-- The thread returns to its caller. -/
theorem State.goBack {c : Contract} {v : Ret} {q : Cont} {l : List Cont} {o : Out}
    (ha : (s.thread t).active = .ret c v) (hk : (s.thread t).conts = q :: l)
    (hq : ∀ u c, q ≠ .user u c) (ho : q.resume cfg (s.thread t).tls s.mem v = some o) :
    ∃ s', s.step cfg t (.go false) = some s' ∧ s'.mem = o.mem ∧
      s'.thread t = (s.thread t).after l o := by
  refine ⟨s.set t o.mem ((s.thread t).after l o), ?_, rfl, by simp [State.set]⟩
  simp only [State.step, ha, State.return, hk]
  cases q <;> first | exact absurd rfl (hq _ _) | simp [ho]

/-- The thread returns to user code. -/
theorem State.goUser {c c' : Contract} {v : Ret} {u : UserKind} {l : List Cont}
    (ha : (s.thread t).active = .ret c v) (hk : (s.thread t).conts = .user u c' :: l) :
    ∃ s', s.step cfg t (.go false) = some s' ∧ s'.mem = s.mem ∧
      s'.thread t = { s.thread t with active := .user u, conts := l } := by
  refine ⟨(s.receive v).set t s.mem { s.thread t with active := .user u, conts := l }, ?_, rfl,
    by simp [State.set]⟩
  simp only [State.step, ha, State.return, hk]

end Play

end ArcSwap
