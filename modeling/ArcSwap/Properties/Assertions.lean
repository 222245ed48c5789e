import ArcSwap.Invariants.Transactions

/-!
# No assertion fails

The assertions of the debt code say that a node is in use, that nobody else has touched the control
and the helping slot of a node in between, and that a control holds one of three kinds of words.
They hold in every run in which no generation wraps around, also where destructors and closures
call the library again in the middle of a scan or of a nested load.
-/

namespace ArcSwap

variable {T : Type*} {cfg : Config} {s : State T} {t : T}

/-! ## What the assertions say -/

/-- What the assertions of `debt/` compare, in the state `s`. -/
structure State.Asserted (s : State T) : Prop where
  /-- No thread has failed an assertion. -/
  running : ∀ t w, (s.thread t).active ≠ .failed w
  /-- Every node that is used through a `LocalNode` is in use. -/
  nodeInUse : ∀ t, ∀ n ∈ (s.thread t).nodes, s.mem.inUse n = .used
  /-- A transaction starts with an idle control and an empty helping slot. -/
  starts : ∀ t f n, (s.thread t).active = .load f (.publishAddr n) ∨
    (∃ gen, (s.thread t).active = .load f (.publishGen n gen)) →
    s.mem.control n = idle ∧ s.mem.slot (helpingSlot n) = none
  /-- `confirm` finds an empty helping slot. -/
  confirms : ∀ t f n gen p, (s.thread t).active = .load f (.offerDebt n gen p) →
    s.mem.slot (helpingSlot n) = none
  /-- `confirm` finds its own generation or a replacement. -/
  closes : ∀ t f n gen p, (s.thread t).active = .load f (.closeControl n gen p) →
    s.mem.control n = genWord gen ∨ tag (s.mem.control n) = replacementTag
  /-- `get_debt` does not overwrite a fast slot. -/
  claims : ∀ t f n p i, (s.thread t).active = .load f (.claim n p i) → s.mem.slot ⟨n, i⟩ = none
  /-- In `pay_all` the own control is idle. -/
  pays : ∀ t f pc, (s.thread t).active = .payAll f pc → ∀ n ∈ (s.thread t).nodes,
    s.mem.control n = idle
  /-- Nobody helps himself. -/
  helps : ∀ t f me who c, (s.thread t).active = .payAll f (.helpAddr me who c) → me ≠ who
  /-- A control is idle, a generation or a replacement. -/
  words : ∀ n, ValidWord (s.mem.control n)

variable [Fintype T] [DecidableEq T]

/-- A thread that has not published anything has not put a debt into its helping slot either, or
the debt is on its way out. -/
theorem State.Sound.helpingSlot_none (h : s.Sound cfg) {n : NodeId} (hn : n ∈ (s.thread t).nodes)
    (ho : ¬ (s.thread t).active.Offers n) : s.mem.slot (helpingSlot n) = none :=
  by_contra fun hs => ho (h.offers_self hn hs)

theorem State.Sound.asserted (h : s.Sound cfg) : s.Asserted where
  running := h.running
  nodeInUse _ _ hn := h.inUse hn
  starts t f n ha := by
    have hok := (h.typed t).active
    have hidle := h.publishes_self (t := t) (n := n)
    have hslot := h.helpingSlot_none (t := t) (n := n)
    rcases ha with ha | ⟨gen, ha⟩
    · rw [ha] at hok hidle hslot
      have hn : n ∈ (s.thread t).nodes := State.Sound.mem_nodes (ha ▸ ScopeIs.mem hok.2)
      exact ⟨by_contra fun hc => hidle hn hc, hslot hn id⟩
    · rw [ha] at hok hidle hslot
      have hn : n ∈ (s.thread t).nodes := State.Sound.mem_nodes (ha ▸ ScopeIs.mem hok.2.1)
      exact ⟨by_contra fun hc => hidle hn hc, hslot hn id⟩
  confirms t f n gen p ha := by
    have hok := (h.typed t).active
    rw [ha] at hok
    have hn : n ∈ (s.thread t).nodes := State.Sound.mem_nodes (ha ▸ ScopeIs.mem hok.2.1)
    exact h.helpingSlot_none hn (by rw [ha]; exact id)
  closes t f n gen p ha := by
    have hk := h.nodeOk t
    rw [ha] at hk
    exact hk.1.2
  claims t f n p i ha := by
    have hk := h.nodeOk t
    rwa [ha] at hk
  pays t f pc ha n hn := by
    by_contra hc
    have hp := h.publishes_self hn hc
    rwa [ha] at hp
  helps t f me who c ha := by
    have hok := (h.typed t).active
    rw [ha] at hok
    exact hok.2.2.1
  words := h.words

/-- **No assertion of the debt code can fail**, in any interleaving, as long as no generation wraps
around. -/
theorem State.Reachable.no_assertion_fails (h : s.Reachable cfg State.NoWrap) : s.Asserted :=
  h.sound.asserted

theorem State.Reachable.no_assertion_fails_sample : (State.sample 120).Asserted :=
  State.Reachable.no_assertion_fails ((State.sample_reachable 120).mono fun _ _ h => h.1)

end ArcSwap
