import ArcSwap.Invariants.Reservations
import ArcSwap.Invariants.Transactions

/-!
# The cooldown of a node

A node that has been given up is in cooldown until the writers that have seen its last owner are
gone. `check_cooldown` looks at `in_use` and at `active_writers` before it ends the cooldown with an
exchange on `in_use`. This exchange cannot tell one cooldown from the next: it ends a later one too,
whose writers have not been looked at.
-/

namespace ArcSwap

section Run

variable {T : Type*} [Fintype T] [DecidableEq T] {cfg : Config} {s : State T}

/-- A node is taken into use again only after the writers of its last owner are gone. -/
structure State.Cooled (cfg : Config) (s : State T) : Prop where
  /-- When a node goes from `NODE_UNUSED` to `NODE_USED`, the reservations on it that are held have
  all been taken after the `start_cooldown` that has ended its last ownership. -/
  claimed : ∀ t c s' n, s.step cfg t c = some s' → s.mem.inUse n = .unused →
    s'.mem.inUse n = .used → ∀ r ∈ s.reservations, r.node = n → r.taken = s.mem.epoch n
  /-- A writer that replaces the control of a node in use has read it under the same owner. -/
  replaced : ∀ t f me who c q e e', (s.thread t).active = .payAll f (.helpCas me who c q e e') →
    s.mem.inUse who = .used → f.readAt = s.mem.epoch who

end Run

/-! ## A sample run -/

/-- The thread `0` gives the node `0` up, and the thread `1` sees that it has no writer. Before the
thread `1` ends the cooldown, the thread `2` does, takes the node into use, and gives it up again
while the thread `3` holds a reservation on it. -/
def earlySchedule : List (Fin 4 × Choice) := List.flatten
  [[(0, .op (.alloc 1)), (0, .op (.new 0 1)), (0, .op (.load 0))], goOn 0 13,
    [(0, .op .exit)], goOn 0 4, [(1, .op (.load 0))], goOn 1 4,
    [(2, .op (.load 0))], goOn 2 15, [(3, .op (.alloc 2)), (3, .op (.swap 0 2))],
    goOn 3 29, [(2, .op .exit)], goOn 2 4, [(1, .go false)]]

/-- The node whose cooldown the function is about to end, and the epoch in which it has seen no
writer. -/
def Active.unuse? : Active → Option (NodeId × ℕ)
  | .get (.unuse n e) => some (n, e)
  | _ => none

theorem Active.unuse?_eq {a : Active} {n : NodeId} {e : ℕ} :
    a.unuse? = some (n, e) ↔ a = .get (.unuse n e) := by
  cases a with
  | get pc => cases pc <;> simp [Active.unuse?]
  | _ => simp [Active.unuse?]

theorem State.inTime_iff {T : Type*} {s : State T} {t : T} : s.InTime t ↔
    ∀ x ∈ (s.thread t).active.unuse?, s.mem.inUse x.1 = .cooldown → x.2 = s.mem.epoch x.1 := by
  constructor
  · rintro h ⟨n, e⟩ hx
    exact h n e (Active.unuse?_eq.mp hx)
  · intro h n e ha
    exact h (n, e) (Active.unuse?_eq.mpr ha)

instance {T : Type*} (s : State T) (t : T) : Decidable (s.InTime t) :=
  decidable_of_iff _ State.inTime_iff.symm

/-! ## When the cooldown waits -/

/-- **The cooldown waits for old writers** in every run in which no exchange of `check_cooldown`
succeeds in a later cooldown than the one in which it has seen no writer. -/
theorem State.Reachable.cooldown_waits {T : Type*} [Fintype T] [DecidableEq T] {cfg : Config}
    {s : State T} (h : s.Reachable cfg State.InTime) : s.Cooled cfg := by
  have hr := h.reserved
  refine ⟨fun t c s' n _ hu _ r hmem hn => ?_, fun t f me who c q e e' ha hu => ?_⟩
  · subst hn
    apply hr.current r hmem
    simp [hu]
  · have hread := (hr.reads t).active
    rw [ha] at hread
    -- the reservation of the writer is of the present epoch
    have hmem : (⟨who, f.reserved⟩ : Reservation) ∈ s.reservations := by
      apply Family.mem_total.mpr
      refine ⟨t, Multiset.mem_add.mpr (.inl ?_)⟩
      rw [ha]
      exact Multiset.mem_singleton_self _
    have hcur := hr.current _ hmem (by simp [hu])
    exact le_antisymm hread.2 (hcur ▸ hread.1)

/-- In the sample run, when the thread `3` has taken its reservation. -/
theorem State.Reachable.cooldown_waits_sample :
    ∃ s, State.play .sample State.InTime .init (earlySchedule.take 73) = some s ∧
      s.Cooled .sample := by
  have hsome : (State.play .sample State.InTime .init (earlySchedule.take 73)).isSome := by
    decide +kernel
  obtain ⟨s, hs⟩ := Option.isSome_iff_exists.mp hsome
  exact ⟨s, hs, State.Reachable.cooldown_waits (Guarded.run_of_play hs)⟩

/-- **The cooldown can end early**: when the thread `1` takes the node `0` into use, the thread `3`
holds a reservation that it has taken under the last owner. -/
theorem State.cooldown_ends_early : ∃ s s',
    State.play .sample (fun _ _ => True) .init earlySchedule = some s ∧
    s.Reachable .sample (fun _ _ => True) ∧ ¬ s.Cooled .sample ∧
    s.step .sample 1 (.go false) = some s' ∧ s.mem.inUse 0 = .unused ∧ s'.mem.inUse 0 = .used ∧
    ∃ r ∈ s.reservations, r.node = 0 ∧ r.taken < s.mem.epoch 0 := by
  have hplay : ((State.play .sample (fun _ _ => True) .init earlySchedule).bind fun s =>
      (s.step .sample 1 (.go false)).map fun s' => (s.mem.inUse 0, s'.mem.inUse 0, s.mem.epoch 0,
        decide (⟨0, 1⟩ ∈ s.reservations))) = some (.unused, .used, 2, true) := by decide +kernel
  obtain ⟨s, hs, h⟩ := Option.bind_eq_some_iff.mp hplay
  obtain ⟨s', hstep, h⟩ := Option.map_eq_some_iff.mp h
  simp only [Prod.mk.injEq, decide_eq_true_eq] at h
  obtain ⟨hu, hu', hepoch, hmem⟩ := h
  have hold : (⟨0, 1⟩ : Reservation).taken < s.mem.epoch 0 := by
    rw [hepoch]
    exact Nat.one_lt_two
  refine ⟨s, s', hs, Guarded.run_of_play hs, fun hc => ?_, hstep, hu, hu', ⟨0, 1⟩, hmem, rfl, hold⟩
  exact hold.ne (hc.claimed 1 (.go false) s' 0 hstep hu hu' ⟨0, 1⟩ hmem rfl)

end ArcSwap
