import ArcSwap.Invariants.Transactions

/-!
# Borrowed storages

A storage that an operation works on is borrowed: nobody gives it up in the meantime. Only
`pay_all` runs on storages that have been given up already, and a helper there finds no reader to
help: a transaction that is open loads from a storage that still exists.
-/

namespace ArcSwap

variable {cfg : Config} {tls : Tls} {m m' : Mem}

/-! ## Storages that must exist -/

/-- The storage that a function of the library reads or writes. -/
def Active.needs? : Active → Option StorageId
  | .load f _ => some f.storage
  | .swap f => some f.storage
  | .cas f _ => some f.storage
  | _ => none

/-- The storage that a suspended caller relies on. -/
def Cont.needs? : Cont → Option StorageId
  | .payNode _ | .helpRetry _ _ _ _ | .valDropped _ => none
  | k => k.storage?

/-- The thread relies on the storage. -/
def Thread.Needs (th : Thread) (x : StorageId) : Prop :=
  th.active.needs? = some x ∨ ∃ k ∈ th.conts, k.needs? = some x

theorem Active.needs?_storage? {a : Active} {x : StorageId} (h : a.needs? = some x) :
    a.storage? = some x := by
  cases a <;> simp_all [Active.needs?, Active.storage?]

theorem Cont.needs?_storage? {k : Cont} {x : StorageId} (h : k.needs? = some x) :
    k.storage? = some x := by
  cases k <;> simp_all [Cont.needs?]

theorem Thread.Needs.borrows {th : Thread} {x : StorageId} (h : th.Needs x) : th.Borrows x := by
  rcases h with h | ⟨k, hk, h⟩
  · exact .inl (Active.needs?_storage? h)
  · exact .inr ⟨k, hk, Cont.needs?_storage? h⟩

/-- A helper that has read a generation, and looks at the active address next, will not load from
a storage that has been given up. -/
def Active.Apart (m : Mem) : Active → Prop
  | .payAll f (.helpAddr _ who _) => f.storage ∈ m.live ∨ m.activeAddr who ≠ f.storage
  | _ => True

/-- The same for a helper that waits for the drop of a replacement. -/
def Cont.Apart (m : Mem) : Cont → Prop
  | .helpRetry f _ who c => tag c = genTag → f.storage ∈ m.live ∨ m.activeAddr who ≠ f.storage
  | _ => True

/-! ## One clause -/

theorem PayFrame.nextSlot_needs? (f : PayFrame) (who : NodeId) (i : ℕ) :
    (f.nextSlot who i).needs? = none := by
  unfold PayFrame.nextSlot
  split <;> rfl

theorem Dispatched.needs? {f : PayFrame} {me who : NodeId} {c : ℕ} {a : Active}
    (h : Dispatched f me who c a) : a.needs? = none := by
  cases h <;> rfl

/-- The function `a` and the callers `ks` rely on the storage. -/
def NeedsIn (x : StorageId) (a : Active) (ks : List Cont) : Prop :=
  a.needs? = some x ∨ ∃ k ∈ ks, k.needs? = some x

@[simp] theorem needsIn_nil {x : StorageId} {a : Active} : NeedsIn x a [] ↔ a.needs? = some x := by
  simp [NeedsIn]

@[simp] theorem needsIn_cons {x : StorageId} {a : Active} {k : Cont} {ks : List Cont} :
    NeedsIn x a (k :: ks) ↔ k.needs? = some x ∨ NeedsIn x a ks := by
  simp only [NeedsIn, List.mem_cons, exists_eq_or_imp]
  tauto

/-- A function goes on with the storage that it has relied on, or it helps a reader. -/
theorem Clause.needs {a : Active} {o : Out} {x : StorageId} (h : Clause cfg tls m a o)
    (hap : a.Apart m) (hx : NeedsIn x o.active o.calls) : a.needs? = some x ∨ x ∈ m.live := by
  cases h with
  | get h | cooldown h | dec h | intoInner h | dropGuard h =>
    cases h <;> simp only [needsIn_nil, needsIn_cons] at hx <;>
      first | (cases hx; done) | (rcases hx with hx | hx <;> cases hx)
  | cas h =>
    left
    cases h <;> simp only [needsIn_nil, needsIn_cons] at hx <;> rcases hx with hx | hx <;>
      first | exact hx | cases hx
  | swap =>
    left
    simp only [SwapFrame.exec, needsIn_nil, needsIn_cons] at hx
    exact hx.elim id fun h => by cases h
  | load h =>
    left
    cases h <;> simp only [needsIn_nil, needsIn_cons] at hx <;>
      first
      | exact hx
      | (rcases hx with hx | hx <;> first | exact hx | (cases hx; done))
      | (cases hx; done)
      | simpa [Active.needs?, Cont.needs?, Cont.storage?] using hx
  | @payAll f pc o h =>
    cases h with
    | helpControl h | helpChanged _ h => simp [h.needs?] at hx
    | slotOther | slotInc => simp [PayFrame.nextSlot_needs?] at hx
    | helpAddr h =>
      have hfx : f.storage = x := by simpa [Active.needs?, Cont.needs?, Cont.storage?] using hx
      exact .inr (hfx ▸ hap.resolve_right fun hne => hne h)
    | _ =>
      simp only [needsIn_nil, needsIn_cons] at hx
      first | (cases hx; done) | (rcases hx with hx | hx <;> cases hx)

theorem Resumed.needs {k : Cont} {r : Ret} {o : Out} {x : StorageId} (h : Resumed cfg tls m k r o)
    (hx : NeedsIn x o.active o.calls) : k.needs? = some x := by
  cases h <;> simp only [needsIn_nil, needsIn_cons] at hx
  case helpRetry h => simp [h.needs?] at hx
  case rcuClosure => exact hx.elim id fun h => h.elim id id
  all_goals
    first
    | exact hx
    | (cases hx; done)
    | (rcases hx with hx | hx <;> first | exact hx | cases hx)

/-- A helper that goes on with a generation in the control of another node has found an open
transaction. -/
theorem Dispatched.apart {f : PayFrame} {me who : NodeId} {c : ℕ} {a : Active}
    (h : Dispatched f me who c a)
    (hc : tag c = genTag → f.storage ∈ m.live ∨ m.activeAddr who ≠ f.storage) : a.Apart m := by
  cases h with
  | gen h => exact hc h
  | _ => trivial

theorem LoadFrame.begin_apart (f : LoadFrame) : (f.begin cfg).Apart m := by
  unfold LoadFrame.begin
  split <;> trivial

theorem PayFrame.nextSlot_apart (f : PayFrame) (who : NodeId) (i : ℕ) :
    (f.nextSlot who i).Apart m := by
  unfold PayFrame.nextSlot
  split <;> trivial

theorem Clause.apart {a : Active} {o : Out} (h : Clause cfg tls m a o)
    (hopen : ∀ n, tag (m.control n) = genTag → m.activeAddr n ∈ m.live) :
    o.active.Apart o.mem ∧ ∀ k ∈ o.calls, k.Apart o.mem := by
  have key : ∀ {who} (x : StorageId), tag (m.control who) = genTag →
      x ∈ m.live ∨ m.activeAddr who ≠ x := by
    intro who x ht
    by_cases hx : m.activeAddr who = x
    · exact .inl (hx ▸ hopen who ht)
    · exact .inr hx
  cases h with
  | get h | cooldown h | dec h | intoInner h | dropGuard h | cas h =>
    cases h <;> first
      | exact ⟨trivial, List.forall_mem_nil _⟩
      | exact ⟨trivial, List.forall_mem_singleton.mpr trivial⟩
  | swap => exact ⟨trivial, List.forall_mem_singleton.mpr trivial⟩
  | load h =>
    cases h with
    | enter => exact ⟨LoadFrame.begin_apart _, List.forall_mem_nil _⟩
    | _ =>
      first
      | exact ⟨trivial, List.forall_mem_nil _⟩
      | exact ⟨trivial, List.forall_mem_singleton.mpr trivial⟩
  | payAll h =>
    cases h with
    | helpControl h | helpChanged _ h => exact ⟨h.apart (key _), by simp⟩
    | slotOther | slotInc => exact ⟨PayFrame.nextSlot_apart _ _ _, by simp⟩
    | helpLate => exact ⟨trivial, List.forall_mem_singleton.mpr (key _)⟩
    | helpAddr => exact ⟨trivial, by simp [Cont.Apart]⟩
    | _ =>
      first
      | exact ⟨trivial, List.forall_mem_nil _⟩
      | exact ⟨trivial, List.forall_mem_singleton.mpr trivial⟩

theorem Resumed.apart {k : Cont} {r : Ret} {o : Out} (h : Resumed cfg tls m k r o)
    (hk : k.Apart m) : o.active.Apart o.mem ∧ ∀ k ∈ o.calls, k.Apart o.mem := by
  cases h with
  | loadNode | loadTmp => exact ⟨LoadFrame.begin_apart _, by simp⟩
  | helpRetry h => exact ⟨h.apart hk, by simp⟩
  | rcuClosure => exact ⟨trivial, by simp [Cont.Apart]⟩
  | _ =>
    first
    | exact ⟨trivial, List.forall_mem_nil _⟩
    | exact ⟨trivial, List.forall_mem_singleton.mpr trivial⟩


/-! ## One step -/

theorem Active.Publishes.needs {a : Active} {n : NodeId} (h : a.Publishes n)
    (hn : a.NodeOk cfg m) : a.needs? = some (m.activeAddr n) := by
  cases a with
  | load f pc =>
    cases pc <;> simp only [Active.Publishes] at h
    case closeControl =>
      subst h
      rw [hn.1.1]
      rfl
    all_goals
      subst h
      rw [hn.1]
      rfl
  | _ => exact h.elim

/-- An active address is the storage that the owner of the node loads from. -/
theorem Clause.activeAddr {a : Active} {o : Out} (h : Clause cfg tls m a o) (n : NodeId) :
    o.mem.activeAddr n = m.activeAddr n ∨ a.needs? = some (o.mem.activeAddr n) := by
  cases h with
  | load h =>
    cases h with
    | @publishAddr n' =>
      by_cases hn : n = n'
      · subst hn
        exact .inr (by simp [Active.needs?])
      · exact .inl (by simp [hn])
    | _ => exact .inl rfl
  | get h | cooldown h | dec h | intoInner h | dropGuard h | cas h | payAll h =>
    cases h <;> exact .inl rfl
  | swap => exact .inl rfl

section Run

variable {T : Type*} {s s' : State T} {t : T} {th' : Thread} {o' : Multiset Ref}
  {g' : Multiset Guard}

theorem Move.activeAddr (h : Move cfg s t m' th' o' g') (n : NodeId) :
    m'.activeAddr n = s.mem.activeAddr n ∨
      (s.thread t).active.needs? = some (m'.activeAddr n) := by
  cases h with
  | code h => exact h.activeAddr n
  | resume _ _ h => exact .inl (by rw [h.mem_eq])
  | receive => exact .inl rfl
  | user _ h => exact .inl (by rw [h.frame.2.2.1])

theorem Clause.live {a : Active} {o : Out} (h : Clause cfg tls m a o) : o.mem.live = m.live := by
  cases h with
  | get h | cooldown h | dec h | intoInner h | dropGuard h | cas h | payAll h | load h =>
    cases h <;> rfl
  | swap => rfl

/-- **A borrowed storage is not given up**, and it has not been created anew. -/
theorem Move.live (h : Move cfg s t m' th' o' g') {t' : T} {x : StorageId}
    (hx : (s.thread t').Borrows x) : x ∈ m'.live ↔ x ∈ s.mem.live := by
  cases h with
  | code h => rw [h.live]
  | resume _ _ h => rw [h.mem_eq]
  | receive => rfl
  | user _ h =>
    cases h with
    | @new y p _ hb =>
      have hne : x ≠ y := fun he => hb t' (he ▸ hx)
      simp [hne]
    | @consume y _ hb | @dropStorage y _ hb =>
      have hne : x ≠ y := fun he => hb t' (he ▸ hx)
      simp [hne]
    | _ => rfl

theorem Thread.needs_calling {th : Thread} {u : UserKind} {c : Call} {x : StorageId}
    (h : (th.calling u c).Needs x) : th.Needs x ∨ NeedsIn x c.active c.calls := by
  rcases h with h | ⟨k, hk, h⟩
  · exact .inr (.inl h)
  · simp only [Thread.calling, List.mem_append, List.mem_cons] at hk
    rcases hk with hk | rfl | hk
    · exact .inr (.inr ⟨k, hk, h⟩)
    · cases h
    · exact .inl (.inr ⟨k, hk, h⟩)

theorem UserClause.needs {u : UserKind} {x : StorageId} (h : UserClause cfg s t u m' th' o' g')
    (hx : th'.Needs x) : (s.thread t).Needs x ∨ (x ∈ s.mem.live ∧ x ∈ m'.live) := by
  cases h with
  | alloc | clone | fromInner | new | exitEmpty => exact .inl hx
  | destroyed | result | panic =>
    refine .inl (.inr ?_)
    simpa [Thread.Needs, Active.needs?] using hx
  | exit => simp [Thread.Needs, Active.needs?, Cont.needs?, Cont.storage?] at hx
  | _ =>
    refine (Thread.needs_calling hx).imp_right fun h => ?_
    simp only [SwapFrame.invoke, CasFrame.invoke, RcuFrame.invoke, needsIn_nil, needsIn_cons] at h
    first
    | (cases h; done)
    | (obtain rfl := Option.some.inj h; exact ⟨‹_›, ‹_›⟩)
    | (rcases h with h | h <;> first | (cases h; done) |
      (obtain rfl := Option.some.inj h; exact ⟨‹_›, ‹_›⟩))

theorem UserClause.apart {u : UserKind} (h : UserClause cfg s t u m' th' o' g')
    (ha : (s.thread t).active = .user u) (hc : ∀ k ∈ (s.thread t).conts, k.Apart m') :
    th'.active.Apart m' ∧ ∀ k ∈ th'.conts, k.Apart m' := by
  cases h with
  | alloc | clone | fromInner | new | exitEmpty => exact ⟨by rw [ha]; trivial, hc⟩
  | exit => exact ⟨trivial, by simp [Cont.Apart]⟩
  | destroyed | result | panic => exact ⟨trivial, hc⟩
  | _ =>
    refine ⟨trivial, Thread.forall_calling ?_ trivial hc⟩
    first | exact List.forall_mem_nil _ | exact List.forall_mem_singleton.mpr trivial

/-- Every storage that a thread relies on exists. -/
structure State.Borrowing (s : State T) : Prop where
  live : ∀ t x, (s.thread t).Needs x → x ∈ s.mem.live
  apart : ∀ t, (s.thread t).active.Apart s.mem
  conts : ∀ t, ∀ k ∈ (s.thread t).conts, k.Apart s.mem

theorem State.init_borrowing : (State.init : State T).Borrowing where
  live t x h := by simp [State.init, Thread.idle, Thread.Needs, Active.needs?] at h
  apart t := trivial
  conts t := by simp [State.init, Thread.idle]

variable [Fintype T]

namespace State.Borrowing

/-- A transaction that is open loads from a storage that exists. -/
theorem activeAddr_live {n : NodeId} (hb : s.Borrowing) (h : s.Sound cfg)
    (hc : s.mem.control n ≠ idle) : s.mem.activeAddr n ∈ s.mem.live := by
  obtain ⟨t, ht⟩ := h.publishes n hc
  exact hb.live t _ (.inl (ht.needs (h.nodeOk t)))

variable [DecidableEq T]

/-- **No storage is given up while a thread relies on it.** -/
theorem step {c : Choice} (hb : s.Borrowing) (h : s.Sound cfg)
    (hs : s.step cfg t c = some s') : s'.Borrowing := by
  obtain ⟨m', th', o', g', hm, rfl⟩ := State.step_move hs
  have hopen : ∀ n, tag (s.mem.control n) = genTag → s.mem.activeAddr n ∈ s.mem.live := by
    intro n hg
    refine hb.activeAddr_live h fun hi => ?_
    rw [hi] at hg
    exact absurd hg (by decide)
  -- what is apart stays apart
  have happ : ∀ t' x n, (s.thread t').Borrows x →
      x ∈ s.mem.live ∨ s.mem.activeAddr n ≠ x → x ∈ m'.live ∨ m'.activeAddr n ≠ x := by
    intro t' x n hx hor
    rw [hm.live hx]
    rcases hm.activeAddr n with ha | ha
    · rwa [ha]
    · by_cases hax : m'.activeAddr n = x
      · exact .inl (hb.live t x (.inl (hax ▸ ha)))
      · exact .inr hax
  have hact : ∀ t', (s.thread t').active.Apart m' := by
    intro t'
    have ha := hb.apart t'
    cases hact : (s.thread t').active with
    | payAll f pc =>
      rw [hact] at ha
      cases pc with
      | helpAddr me who c => exact happ t' _ _ (.inl (by rw [hact]; rfl)) ha
      | _ => trivial
    | _ => trivial
  have hconts : ∀ t', ∀ k ∈ (s.thread t').conts, k.Apart m' := by
    intro t' k hk
    have ha := hb.conts t' k hk
    cases k with
    | helpRetry f me who c => exact fun ht => happ t' _ _ (.inr ⟨_, hk, rfl⟩) (ha ht)
    | _ => trivial
  have hlive : ∀ x, th'.Needs x → x ∈ m'.live := by
    intro x hx
    have hold : (s.thread t).Needs x → x ∈ m'.live := fun hn =>
      (hm.live hn.borrows).mpr (hb.live t x hn)
    cases hm with
    | code hm =>
      rcases hx with hx | ⟨k, hk, hx⟩
      · rcases hm.needs (hb.apart t) (.inl hx) with hn | hn
        · exact hold (.inl hn)
        · rwa [hm.live]
      · rcases List.mem_append.mp hk with hk | hk
        · rcases hm.needs (hb.apart t) (.inr ⟨k, hk, hx⟩) with hn | hn
          · exact hold (.inl hn)
          · rwa [hm.live]
        · exact hold (.inr ⟨k, hk, hx⟩)
    | @resume c r k ks o ha hk hm =>
      rcases hx with hx | ⟨k', hk', hx⟩
      · exact hold (.inr ⟨k, by simp [hk], hm.needs (.inl hx)⟩)
      · rcases List.mem_append.mp hk' with hk' | hk'
        · exact hold (.inr ⟨k, by simp [hk], hm.needs (.inr ⟨k', hk', hx⟩)⟩)
        · exact hold (.inr ⟨k', by simp [hk, hk'], hx⟩)
    | receive ha hk =>
      rcases hx with hx | ⟨k', hk', hx⟩
      · simp [Active.needs?] at hx
      · exact hold (.inr ⟨k', by simp [hk, hk'], hx⟩)
    | user ha hm =>
      rcases hm.needs hx with hn | hn
      · exact hold hn
      · exact hn.2
  have hapart : th'.active.Apart m' ∧ ∀ k ∈ th'.conts, k.Apart m' := by
    refine hm.frames (hconts t) (fun o ho hc => ho ▸ hc.apart hopen) (fun c r k o ho _ hk hr => ?_)
      (fun _ => trivial) fun u ha hu => hu.apart ha (hconts t)
    exact ho ▸ hr.apart (hb.conts t k (List.mem_of_mem_head? hk))
  exact
    { live := State.moved_forall (P := fun th => ∀ x, th.Needs x → x ∈ m'.live) hlive
        fun t' _ x hx => (hm.live hx.borrows).mpr (hb.live t' x hx)
      apart := State.moved_forall (P := fun th => th.active.Apart m') hapart.1 fun t' _ => hact t'
      conts := State.moved_forall (P := fun th => ∀ k ∈ th.conts, k.Apart m') hapart.2
        fun t' _ => hconts t' }

end State.Borrowing

end Run

end ArcSwap
