import ArcSwap.Values.Objects

/-!
# What a load returns

Between the first read of a storage and the write to a debt slot nothing protects the pointer. When
the confirmation finds another pointer in the storage and the debt has been paid, `load` returns
what it has read first, with the reference that it has been paid with. That the address still means
an object of this storage depends on who has paid: a writer to this storage has taken the object out
of it during the load, but a writer to another storage knows only the address.
-/

namespace ArcSwap

variable {T : Type*} {cfg : Config} {tls : Tls} {m m' : Mem} {s s' : State T} {t : T} {p : Addr}
  {x : StorageId} {d : SlotId}

/-! ## Attempts and writers -/

/-- The attempt of a `load` that has read a pointer and has not decided what to do with it. -/
def Active.reads? : Active → Option (LoadFrame × Addr)
  | .load f (.newFast p) | .load f (.probe _ p _) | .load f (.claim _ p _)
  | .load f (.confirm p _) | .load f (.unclaim p _) => some (f, p)
  | _ => none

/-- The attempt has filled a slot with it. -/
def Active.attempt? : Active → Option (LoadFrame × Addr × SlotId)
  | .load f (.confirm p d) | .load f (.unclaim p d) => some (f, p, d)
  | _ => none

/-- The storage that `pay_all` pays for, and the pointer that has been taken out of it. -/
def Active.writes? : Active → Option (StorageId × Addr)
  | .payAll f _ => some (f.storage, f.ref.addr)
  | _ => none

/-- The same for a caller in `pay_all`. -/
def Cont.writes? : Cont → Option (StorageId × Addr)
  | .payNode f | .helpReplacement f _ _ _ | .helpRetry f _ _ _ | .valDropped f =>
    some (f.storage, f.ref.addr)
  | _ => none

/-- The thread pays for a pointer that has been taken out of the storage. -/
def Thread.Writes (th : Thread) (w : StorageId × Addr) : Prop :=
  th.active.writes? = some w ∨ ∃ k ∈ th.conts, k.writes? = some w

/-- **Debts are paid at home**: a step pays the debt of an attempt only for the storage that the
attempt loads from, or while the pointer means what the attempt has read. -/
def State.PaysHome (cfg : Config) (s : State T) (t : T) : Prop :=
  ∀ d r, (s.thread t).active.pays? cfg = some (d, r) → ∀ t' ≠ t, ∀ f p,
    (s.thread t').active.attempt? = some (f, p, d) → r.addr = p →
      (s.thread t).active.writes? = some (f.storage, p) ∨ s.mem.object p = f.seen

/-! ## What a step does to them -/

theorem Dispatched.writes? {f : PayFrame} {me who : NodeId} {c : ℕ} {a : Active}
    {w : StorageId × Addr} (h : Dispatched f me who c a) (hw : a.writes? = some w) :
    w = (f.storage, f.ref.addr) := by
  cases h with
  | pass | gen => exact (Option.some.inj hw).symm
  | myself | invalid => cases hw

/-- What does not write needs no reason for it. -/
theorem writes_none {P : StorageId × Addr → Prop} (w : StorageId × Addr) (hw : none = some w) :
    P w := by
  cases hw

theorem PayFrame.nextSlot_writes? (f : PayFrame) (who : NodeId) (i : ℕ) :
    (f.nextSlot who i).writes? = some (f.storage, f.ref.addr) := by
  unfold PayFrame.nextSlot
  split <;> rfl

/-- `pay_all` is called for what the storage has held. -/
theorem Clause.writes {a : Active} {o : Out} (h : Clause cfg tls m a o) (hok : a.Ok cfg tls) :
    (∀ w, o.active.writes? = some w → a.writes? = some w ∨ m.ptr w.1 = w.2) ∧
      ∀ k ∈ o.calls, ∀ w, k.writes? = some w → a.writes? = some w := by
  cases h with
  | get h | cooldown h | dec h | dropGuard h | intoInner h =>
    cases h <;> first
      | exact ⟨writes_none, List.forall_mem_nil _⟩
      | exact ⟨writes_none, List.forall_mem_singleton.mpr writes_none⟩
  | swap =>
    refine ⟨fun w hw => .inr ?_, List.forall_mem_singleton.mpr writes_none⟩
    obtain rfl := Option.some.inj hw
    rfl
  | cas h =>
    cases h with
    | swapped hc =>
      refine ⟨fun w hw => .inr ?_, List.forall_mem_singleton.mpr writes_none⟩
      obtain rfl := Option.some.inj hw
      exact hc.trans hok.2.2.symm
    | late => exact ⟨writes_none, List.forall_mem_singleton.mpr writes_none⟩
  | load h =>
    cases h with
    | enter =>
      refine ⟨fun w hw => ?_, List.forall_mem_nil _⟩
      unfold LoadFrame.begin at hw
      split at hw <;> cases hw
    | _ =>
      first
      | exact ⟨writes_none, List.forall_mem_nil _⟩
      | exact ⟨writes_none, List.forall_mem_singleton.mpr writes_none⟩
  | payAll h =>
    cases h with
    | helpControl h | helpChanged _ h =>
      exact ⟨fun w hw => .inl (congrArg some (h.writes? hw).symm), List.forall_mem_nil _⟩
    | slotOther | slotInc =>
      exact ⟨fun w hw => .inl ((PayFrame.nextSlot_writes? _ _ _).symm.trans hw),
        List.forall_mem_nil _⟩
    | helpAddr => exact ⟨writes_none, by simp [Cont.writes?, Active.writes?]⟩
    | _ =>
      first
      | exact ⟨fun _ hw => .inl hw, List.forall_mem_nil _⟩
      | exact ⟨writes_none, List.forall_mem_nil _⟩
      | exact ⟨writes_none, List.forall_mem_singleton.mpr fun _ hw => hw⟩
      | exact ⟨writes_none, List.forall_mem_singleton.mpr writes_none⟩

theorem Resumed.writes {k : Cont} {r : Ret} {o : Out} (h : Resumed cfg tls m k r o) :
    (∀ w, o.active.writes? = some w → k.writes? = some w) ∧
      ∀ q ∈ o.calls, ∀ w, q.writes? = some w → k.writes? = some w := by
  cases h with
  | loadNode | loadTmp =>
    refine ⟨fun w hw => ?_, List.forall_mem_nil _⟩
    unfold LoadFrame.begin at hw
    split at hw <;> cases hw
  | helpRetry h =>
    exact ⟨fun w hw => congrArg some (h.writes? hw).symm, List.forall_mem_nil _⟩
  | rcuClosure => exact ⟨writes_none, by simp [Cont.writes?]⟩
  | _ =>
    first
    | exact ⟨fun _ hw => hw, List.forall_mem_nil _⟩
    | exact ⟨writes_none, List.forall_mem_nil _⟩
    | exact ⟨writes_none, List.forall_mem_singleton.mpr writes_none⟩

section Move

variable {th' : Thread} {o' : Multiset Ref} {g' : Multiset Guard}

theorem UserClause.writes {u : UserKind} {w : StorageId × Addr}
    (h : UserClause cfg s t u m' th' o' g') (ha : (s.thread t).active = .user u) :
    (th'.active.writes? = some w → s.mem.ptr w.1 = w.2) ∧
      ∀ k ∈ th'.conts, k.writes? = some w → k ∈ (s.thread t).conts := by
  have hnone : ∀ {c : Call}, (∀ k ∈ c.calls, k.writes? = none) →
      ∀ k ∈ ((s.thread t).calling u c).conts, k.writes? = some w → k ∈ (s.thread t).conts :=
    fun hc => Thread.forall_calling (fun k hk hw => by simp [hc k hk] at hw)
      (fun hw => (by cases hw))
      fun k hk _ => hk
  cases h with
  | alloc | clone | fromInner | new | exitEmpty =>
    exact ⟨fun hw => (by rw [ha] at hw; cases hw), fun k hk _ => hk⟩
  | exit => exact ⟨fun hw => (by cases hw), by simp [Cont.writes?]⟩
  | destroyed | result | panic => exact ⟨fun hw => (by cases hw), fun k hk _ => hk⟩
  | consume | dropStorage =>
    refine ⟨fun hw => ?_, hnone (by simp [Cont.writes?])⟩
    obtain rfl := Option.some.inj hw
    rfl
  | _ =>
    refine ⟨fun hw => (by cases hw), hnone ?_⟩
    simp [Cont.writes?, SwapFrame.invoke, CasFrame.invoke, RcuFrame.invoke]

/-- Who pays for a pointer has done so before, or it is what the storage holds. -/
theorem Move.writes (h : Move cfg s t m' th' o' g') (ht : (s.thread t).Typed cfg)
    {w : StorageId × Addr} (hw : th'.Writes w) : (s.thread t).Writes w ∨ s.mem.ptr w.1 = w.2 := by
  have key : (th'.active.writes? = some w → (s.thread t).Writes w ∨ s.mem.ptr w.1 = w.2) ∧
      ∀ k ∈ th'.conts, k.writes? = some w → (s.thread t).Writes w ∨ s.mem.ptr w.1 = w.2 := by
    refine h.frames (A := fun a => a.writes? = some w → (s.thread t).Writes w ∨ s.mem.ptr w.1 = w.2)
      (K := fun k => k.writes? = some w → (s.thread t).Writes w ∨ s.mem.ptr w.1 = w.2)
      (fun k hk hw => .inl (.inr ⟨k, hk, hw⟩)) (fun o _ hc => ?_) (fun c r k o _ _ hk hr => ?_)
      (fun _ hw => (by cases hw)) fun u ha hu => ?_
    · obtain ⟨h₁, h₂⟩ := hc.writes ht.active
      exact ⟨fun hw => (h₁ w hw).imp_left .inl, fun k hk hw => .inl (.inl (h₂ k hk w hw))⟩
    · obtain ⟨h₁, h₂⟩ := hr.writes
      have hmem := List.mem_of_mem_head? hk
      exact ⟨fun hw => .inl (.inr ⟨k, hmem, h₁ w hw⟩),
        fun q hq hw => .inl (.inr ⟨k, hmem, h₂ q hq w hw⟩)⟩
    · obtain ⟨h₁, h₂⟩ := hu.writes (w := w) ha
      exact ⟨fun hw => .inr (h₁ hw), fun k hk hw => .inl (.inr ⟨k, h₂ k hk hw, hw⟩)⟩
  rcases hw with hw | ⟨k, hk, hw⟩
  · exact key.1 hw
  · exact key.2 k hk hw

/-- A slot is emptied by paying the debt in it. -/
theorem Clause.empties {a : Active} {o : Out} (h : Clause cfg tls m a o) (hs : m.slot d ≠ none)
    (hd : o.mem.slot d = none) : ∃ r, a.pays? cfg = some (d, r) ∧ m.Owes d r := by
  have hset : ∀ {d' v}, (m.setSlot d' v).slot d = none → d = d' := by
    intro d' v hv
    by_contra hne
    exact hs (by simpa [hne] using hv)
  cases h with
  | get h | cooldown h | dec h | cas h => cases h <;> exact absurd hd hs
  | swap => exact absurd hd hs
  | dropGuard h =>
    cases h with
    | pay hg ho =>
      obtain rfl := hset hd
      exact ⟨_, by simp [Active.pays?, hg], ho⟩
    | _ => exact absurd hd hs
  | intoInner h =>
    cases h with
    | pay ho =>
      obtain rfl := hset hd
      exact ⟨_, rfl, ho⟩
    | _ => exact absurd hd hs
  | load h =>
    cases h with
    | unclaim ho | payUnused ho =>
      obtain rfl := hset hd
      exact ⟨_, rfl, ho⟩
    | claim | offerDebt =>
      obtain rfl := hset hd
      simp at hd
    | _ => exact absurd hd hs
  | payAll h =>
    cases h with
    | slot ho =>
      obtain rfl := hset hd
      exact ⟨_, rfl, ho⟩
    | _ => exact absurd hd hs

/-- An attempt goes on with what it has read, or it begins with what the storage holds. -/
theorem Clause.reads {a : Active} {o : Out} {f : LoadFrame} (h : Clause cfg tls m a o)
    (hr : o.active.reads? = some (f, p)) : ∃ f' pc, a = .load f' pc ∧ f'.storage = f.storage ∧
      f'.start = f.start ∧ (m.ptr f.storage = p ∨ a.reads? = some (f', p)) := by
  cases h with
  | get h | cooldown h | dec h | cas h | dropGuard h | intoInner h => cases h <;> cases hr
  | swap => cases hr
  | load h =>
    cases h with
    | enter =>
      unfold LoadFrame.begin at hr
      split at hr <;> cases hr
    | attempt =>
      obtain ⟨rfl, rfl⟩ := Prod.mk.inj (Option.some.inj hr)
      exact ⟨_, _, rfl, rfl, rfl, .inl rfl⟩
    | newFast | probeFree | probeNext | confirmChanged =>
      obtain ⟨rfl, rfl⟩ := Prod.mk.inj (Option.some.inj hr)
      exact ⟨_, _, rfl, rfl, rfl, .inr rfl⟩
    | claim =>
      obtain ⟨rfl, rfl⟩ := Prod.mk.inj (Option.some.inj hr)
      exact ⟨_, _, rfl, by simp, by simp, .inr rfl⟩
    | _ => cases hr
  | payAll h =>
    cases h with
    | helpControl h | helpChanged _ h => cases h <;> cases hr
    | slotOther | slotInc =>
      unfold PayFrame.nextSlot at hr
      split at hr <;> cases hr
    | _ => cases hr

theorem LoadFrame.begin_reads? (f : LoadFrame) : (f.begin cfg).reads? = none := by
  unfold LoadFrame.begin
  split <;> rfl

theorem Active.reads?_of_attempt {a : Active} {f : LoadFrame} (h : a.attempt? = some (f, p, d)) :
    a.reads? = some (f, p) := by
  cases a with
  | load f' pc =>
    cases pc <;> simp only [Active.attempt?, reduceCtorEq, Option.some.injEq, Prod.mk.injEq] at h
    all_goals
      obtain ⟨rfl, rfl, -⟩ := h
      rfl
  | _ => cases h

theorem Active.load_of_reads {a : Active} {f : LoadFrame} (h : a.reads? = some (f, p)) :
    ∃ pc, a = .load f pc ∧
      ∀ m : Mem, pc.Window Eq m f → m.Within f.storage f.start (Eq ⟨p, f.seen⟩) := by
  cases a with
  | load f' pc =>
    cases pc <;> simp only [Active.reads?, reduceCtorEq, Option.some.injEq, Prod.mk.injEq] at h
    all_goals
      obtain ⟨rfl, rfl⟩ := h
      exact ⟨_, rfl, fun _ h => h⟩
  | _ => cases h

theorem Active.unconfirmed_of_attempt {a : Active} {f : LoadFrame}
    (h : a.attempt? = some (f, p, d)) : a.Unconfirmed cfg d ⟨cfg.kind f.storage, p⟩ := by
  cases a with
  | load f' pc =>
    cases pc <;> simp only [Active.attempt?, reduceCtorEq, Option.some.injEq, Prod.mk.injEq] at h
    all_goals
      obtain ⟨rfl, rfl, rfl⟩ := h
      exact ⟨rfl, rfl⟩
  | _ => cases h

/-- An attempt that fills its slot owes what it has read. -/
theorem Clause.attempt {a : Active} {o : Out} {f : LoadFrame} (h : Clause cfg tls m a o)
    (hr : o.active.attempt? = some (f, p, d)) : o.mem.Owes d ⟨cfg.kind f.storage, p⟩ ∨
      (a.attempt? = some (f, p, d) ∧ o.mem = m) := by
  cases h with
  | get h | cooldown h | dec h | cas h | dropGuard h | intoInner h => cases h <;> cases hr
  | swap => cases hr
  | load h =>
    cases h with
    | enter =>
      have := Active.reads?_of_attempt hr
      simp [LoadFrame.begin_reads?] at this
    | claim =>
      simp only [Active.attempt?, Option.some.injEq, Prod.mk.injEq] at hr
      obtain ⟨rfl, rfl, rfl⟩ := hr
      exact .inl (by simp [Mem.Owes])
    | confirmChanged => exact .inr ⟨hr, rfl⟩
    | _ => cases hr
  | payAll h =>
    cases h with
    | helpControl h | helpChanged _ h => cases h <;> cases hr
    | slotOther | slotInc =>
      unfold PayFrame.nextSlot at hr
      split at hr <;> cases hr
    | _ => cases hr

theorem Resumed.reads? {k : Cont} {r : Ret} {o : Out} (h : Resumed cfg tls m k r o) :
    o.active.reads? = none := by
  cases h with
  | loadNode | loadTmp => exact LoadFrame.begin_reads? _
  | helpRetry h => cases h <;> rfl
  | _ => rfl

theorem UserClause.reads? {u : UserKind} (h : UserClause cfg s t u m' th' o' g')
    (ha : (s.thread t).active = .user u) : th'.active.reads? = none := by
  cases h with
  | alloc | clone | fromInner | new | exitEmpty => rw [ha]; rfl
  | _ => rfl

theorem Move.reads {f : LoadFrame} (h : Move cfg s t m' th' o' g')
    (hr : th'.active.reads? = some (f, p)) : ∃ f' pc, (s.thread t).active = .load f' pc ∧
      f'.storage = f.storage ∧ f'.start = f.start ∧
        (s.mem.ptr f.storage = p ∨ (s.thread t).active.reads? = some (f', p)) := by
  cases h with
  | code h => exact h.reads hr
  | resume _ _ h => simp [Thread.after, h.reads?] at hr
  | receive => cases hr
  | user ha h => simp [h.reads? ha] at hr

theorem Move.attempt {f : LoadFrame} (h : Move cfg s t m' th' o' g')
    (hr : th'.active.attempt? = some (f, p, d)) : m'.Owes d ⟨cfg.kind f.storage, p⟩ ∨
      ((s.thread t).active.attempt? = some (f, p, d) ∧ m' = s.mem) := by
  cases h with
  | code h => exact h.attempt hr
  | resume _ _ h =>
    have := Active.reads?_of_attempt hr
    simp [Thread.after, h.reads?] at this
  | receive => cases hr
  | user ha h =>
    have := Active.reads?_of_attempt hr
    simp [h.reads? ha] at this

theorem Move.empties (h : Move cfg s t m' th' o' g') (hs : s.mem.slot d ≠ none)
    (hd : m'.slot d = none) : m'.object = s.mem.object ∧
      ∃ r, (s.thread t).active.pays? cfg = some (d, r) ∧ s.mem.Owes d r := by
  cases h with
  | code h => exact ⟨h.object, h.empties hs hd⟩
  | resume _ _ h => exact absurd (h.mem_eq ▸ hd) hs
  | receive => exact absurd hd hs
  | user _ h => cases h <;> exact absurd hd hs

end Move

/-! ## What an attempt knows -/

theorem Thread.Writes.promises {th : Thread} {w : StorageId × Addr} (h : th.Writes w) :
    ∃ r : Ref, th.Promises (.paid r) ∧ r.addr = w.2 := by
  rcases h with h | ⟨k, hk, h⟩
  · cases ha : th.active with
    | payAll f pc =>
      rw [ha] at h
      obtain rfl := Option.some.inj h
      exact ⟨f.ref, .inl (by rw [ha]; rfl), rfl⟩
    | _ =>
      rw [ha] at h
      cases h
  · cases k with
    | payNode f | helpReplacement f | helpRetry f | valDropped f =>
      obtain rfl := Option.some.inj h
      exact ⟨f.ref, .inr ⟨_, hk, rfl⟩, rfl⟩
    | _ => cases h

/-- What an attempt has read was in the storage during the load, if a writer to this storage pays
for it, or if the debt of the attempt has been paid. -/
structure State.Tracked (cfg : Config) (s : State T) : Prop where
  home : ∀ t f p, (s.thread t).active.reads? = some (f, p) →
    ∀ t', (s.thread t').Writes (f.storage, p) → s.mem.Loaded Eq f.storage f.start p
  paid : ∀ t f p d, (s.thread t).active.attempt? = some (f, p, d) →
    ¬ s.mem.Owes d ⟨cfg.kind f.storage, p⟩ → s.mem.Loaded Eq f.storage f.start p

theorem State.init_tracked : (State.init : State T).Tracked cfg := by
  constructor <;> intro t f p <;> simp [State.init, Thread.idle, Active.reads?, Active.attempt?]

variable [Fintype T]

/-- The object for which somebody pays is alive. -/
theorem Thread.Writes.pinned {w : StorageId × Addr} (h : (s.thread t).Writes w)
    (ha : s.Accounted cfg) : s.mem.Pinned w.2 := by
  obtain ⟨r, hr, he⟩ := h.promises
  exact he ▸ ha.pinned (State.mem_claims hr.paid_claims)

variable [DecidableEq T]

/-- What an object is that somebody has a reference to does not change. -/
theorem Mem.Loaded.step {c : Choice} {start : ℕ} (h : s.mem.Loaded Eq x start p)
    (hp : s.mem.Pinned p) (hs : s.step cfg t c = some s') : s'.mem.Loaded Eq x start p := by
  obtain ⟨m', th', o', g', hm, rfl⟩ := State.step_move hs
  refine h.stays (hm.log_prefix x) fun c hc => ?_
  show Mem.content m' p = c
  rwa [Mem.content, hm.object hp]

omit [DecidableEq T] in
/-- A slot of an attempt belongs to its thread. -/
theorem State.Sound.attempt_mem {f : LoadFrame} (h : s.Sound cfg)
    (ha : (s.thread t).active.attempt? = some (f, p, d)) : d.node ∈ (s.thread t).nodes := by
  have hok := (h.typed t).active
  refine Sound.mem_nodes ?_
  cases hact : (s.thread t).active with
  | load f' pc =>
    rw [hact] at ha hok
    cases pc <;> simp only [Active.attempt?, reduceCtorEq, Option.some.injEq, Prod.mk.injEq] at ha
    all_goals
      obtain ⟨rfl, rfl, rfl⟩ := ha
      exact hok.2.1.mem
  | _ =>
    rw [hact] at ha
    cases ha

omit [Fintype T] [DecidableEq T] in
/-- A load knows what the storage holds. -/
theorem State.Windows.loading {f : LoadFrame} {pc : LoadPc} (hw : s.Windows Eq)
    (hb : s.Borrowing) (ha : (s.thread t).active = .load f pc) : f.storage ∈ s.mem.live ∧
      s.mem.Loaded Eq f.storage f.start (s.mem.ptr f.storage) ∧ pc.Window Eq s.mem f := by
  have hl : f.storage ∈ s.mem.live := hb.live t f.storage (.inl (by rw [ha]; rfl))
  have hact := hw.active t
  rw [ha] at hact
  exact ⟨hl, (hw.latest _ hl).loaded hact.1, hact.2⟩

theorem State.Tracked.step {c : Choice} (h : s.Tracked cfg) (ha : s.Accounted cfg)
    (hv : s.Covering cfg) (hw : s.Windows Eq) (hp : s.PaysHome cfg t)
    (hs : s.step cfg t c = some s') : s'.Tracked cfg := by
  have hs' := hs
  obtain ⟨m', th', o', g', hm, rfl⟩ := State.step_move hs
  refine ⟨fun t₁ f p hr t₂ hwr => ?_, fun t₁ f p d hr ho => ?_⟩
  · -- the reader has been in the load before the step
    obtain ⟨f', pc, hact, hst, hstart, hread⟩ : ∃ f' pc, (s.thread t₁).active = .load f' pc ∧
        f'.storage = f.storage ∧ f'.start = f.start ∧
          (s.mem.ptr f.storage = p ∨ (s.thread t₁).active.reads? = some (f', p)) := by
      by_cases ht : t₁ = t
      · subst ht
        exact hm.reads (by simpa [State.moved] using hr)
      · have hr' : (s.thread t₁).active.reads? = some (f, p) := by simpa [State.moved, ht] using hr
        obtain ⟨pc, hact, -⟩ := Active.load_of_reads hr'
        exact ⟨f, pc, hact, rfl, rfl, .inr hr'⟩
    obtain ⟨hl, hcur, -⟩ := hw.loading ha.borrowing hact
    rw [hst] at hl
    rw [hst, hstart] at hcur
    have hptr : s.mem.ptr f.storage = p → s.mem.Loaded Eq f.storage f.start p ∧ s.mem.Pinned p :=
      fun he => ⟨he ▸ hcur, he ▸ (ha.safe hv).pinned hl⟩
    obtain ⟨hld, hpin⟩ : s.mem.Loaded Eq f.storage f.start p ∧ s.mem.Pinned p := by
      rcases hread with he | hread
      · exact hptr he
      · have hwr' : (∃ t₃, (s.thread t₃).Writes (f.storage, p)) ∨ s.mem.ptr f.storage = p := by
          by_cases ht : t₂ = t
          · subst ht
            exact (hm.writes (ha.sound.typed t₂) (by simpa [State.moved] using hwr)).imp_left
              fun h => ⟨t₂, h⟩
          · exact .inl ⟨t₂, by simpa [State.moved, ht] using hwr⟩
        rcases hwr' with ⟨t₃, hwr'⟩ | he
        · have hld := h.home t₁ f' p hread t₃ (hst ▸ hwr')
          rw [hst, hstart] at hld
          exact ⟨hld, hwr'.pinned ha⟩
        · exact hptr he
    exact hld.step hpin hs'
  · by_cases ht : t₁ = t
    · -- the slot has just been filled, or the attempt has found another pointer in the storage
      subst ht
      rcases hm.attempt (by simpa [State.moved] using hr) with he | ⟨hr', rfl⟩
      · exact absurd he ho
      · exact h.paid t₁ f p d hr' ho
    · replace hr : (s.thread t₁).active.attempt? = some (f, p, d) := by
        simpa [State.moved, ht] using hr
      by_cases ho' : s.mem.Owes d ⟨cfg.kind f.storage, p⟩
      · -- the debt is paid in this step
        have hread := Active.reads?_of_attempt hr
        have hne : s.mem.slot d ≠ none := fun hn => by simp [Mem.Owes, hn] at ho'
        have hown : d.node ∉ (s.thread t).nodes := fun hn =>
          ht (ha.sound.owner_unique hn (ha.sound.attempt_mem hr))
        have hd : m'.slot d = none := by
          refine ((hm.rely (ha.sound.typed t)).slot d hown).resolve_left fun he => ho ?_
          show (Option.map Ref.addr (m'.slot d)) = _
          rwa [he]
        obtain ⟨hobj, r, hpay, hr'⟩ := hm.empties hne hd
        obtain rfl : r.addr = p := by
          rw [Mem.Owes] at ho' hr'
          simpa [ho'] using hr'.symm
        have hld : s.mem.Loaded Eq f.storage f.start r.addr := by
          rcases hp d r hpay t₁ ht f r.addr hr rfl with hw' | hseen
          · exact h.home t₁ f _ hread t (.inl hw')
          · obtain ⟨pc, hact, hwin⟩ := Active.load_of_reads hread
            have hin := hwin _ (hw.loading ha.borrowing hact).2.2
            rwa [← hseen] at hin
        exact hld.stays (hm.log_prefix _) (.of_object hobj)
      · -- the attempt has a reference of its own
        refine (h.paid t₁ f p d hr ho').step (.of_count (r := ⟨cfg.kind f.storage, p⟩) fun hc =>
          ha.balanced.pos hc (o := some d) (State.mem_claims (t := t₁) ?_) ?_) hs'
        · exact Multiset.mem_add.mpr (.inl (Active.unconfirmed_of_attempt hr).mem_claims)
        · rintro _ ⟨⟩ hsl
          exact ho' (Mem.Owes.of_slot hsl)

/-! ## Runs -/

/-- The conditions under which loads are right. -/
abbrev State.Homely (cfg : Config) (s : State T) (t : T) : Prop := s.Calm cfg t ∧ s.PaysHome cfg t

omit [Fintype T] [DecidableEq T] in
/-- User code pays nothing. -/
theorem State.homely_of_user {u : UserKind} (h : (s.thread t).active = .user u) :
    s.Homely cfg t :=
  ⟨State.calm_of_user h, fun d r hp => by rw [h] at hp; cases hp⟩

variable {s₀ s₁ s₂ : State T}

/-- **What has been loaded is an object of the storage**, in every reachable state. -/
theorem State.Reachable.genuine (h : s.Reachable cfg (State.Homely cfg)) :
    s.Windows Eq ∧ s.Tracked cfg := by
  refine (h.invariant (I := fun s => (s.Windows Eq ∧ s.Tracked cfg) ∧
    s.Reachable cfg (State.Calm cfg)) ⟨⟨State.init_windows, State.init_tracked⟩, .refl⟩
    fun s s' t c hi hp hs => ⟨⟨?_, ?_⟩, hi.2.tail ⟨(t, c), hp.1, hs⟩⟩).1
  all_goals
    obtain ⟨⟨hw, htr⟩, hr⟩ := hi
    have ha := hr.accounted
    have hv := (hr.mono fun _ _ hp => hp.1).covering.2
  · refine hw.step_of ha.sound ha.handing ha.borrowing (fun _ => rfl) (fun _ _ hc => hc ▸ rfl)
      (fun f p d hact hn _ => htr.paid t f p d (by rw [hact]; rfl) hn)
      (fun p hp => ha.stays hv hs hp) hs
  · exact htr.step ha hv hw hp.2 hs

/-- The storage has held the content at an instant of the run. Which run between the states is taken
makes no difference (`State.Reachable.held_iff`). -/
def State.Held (cfg : Config) (s₁ s₂ : State T) (x : StorageId) (c : Content) : Prop :=
  ∃ s, State.Run cfg (State.Homely cfg) s₁ s ∧ State.Run cfg (State.Homely cfg) s s₂ ∧
    x ∈ s.mem.live ∧ s.mem.content (s.mem.ptr x) = c

/-- A function writes to the storage that it relies on. -/
theorem Clause.log_needs {a : Active} {o : Out} (h : Clause cfg tls m a o)
    (hl : o.mem.log x ≠ m.log x) : a.needs? = some x := by
  have hset : ∀ {y q k}, (m.setPtr y q k).log x ≠ m.log x → some y = some x := by
    intro y q k hne
    by_contra hy
    have hxy : x ≠ y := fun he => hy (he ▸ rfl)
    exact hne (by simp [hxy])
  cases h with
  | get h | cooldown h | dec h | dropGuard h | intoInner h | load h | payAll h =>
    cases h <;> exact absurd rfl hl
  | swap => exact hset hl
  | cas h =>
    cases h with
    | swapped => exact hset hl
    | late => exact absurd rfl hl

/-- A storage that is written to exists. -/
theorem State.Borrowing.log_live {c : Choice} (h : s.Borrowing)
    (hs : s.step cfg t c = some s') (hl : s'.mem.log x ≠ s.mem.log x) : x ∈ s'.mem.live := by
  obtain ⟨m', th', o', g', hm, rfl⟩ := State.step_move hs
  replace hl : m'.log x ≠ s.mem.log x := hl
  cases hm with
  | code hc =>
    have hn : (s.thread t).active.needs? = some x := hc.log_needs hl
    exact hc.live ▸ h.live t x (.inl hn)
  | resume _ _ hr => exact absurd (by rw [hr.mem_eq]) hl
  | receive => exact absurd rfl hl
  | user _ hu =>
    cases hu with
    | @new y p =>
      by_cases hx : x = y
      · subst hx
        exact Finset.mem_insert_self _ _
      · exact absurd (by simp [hx]) hl
    | _ => exact absurd rfl hl

/-- What a call has loaded, the storage has held since it was called. -/
theorem State.Reachable.held {c : Content} (h : s₁.Reachable cfg (State.Homely cfg))
    (hr : State.Run cfg (State.Homely cfg) s₁ s₂) (hx : x ∈ s₁.mem.live)
    (hw : s₂.mem.Within x (s₁.mem.now x) (Eq c)) : State.Held cfg s₁ s₂ x c := by
  have hlin : ∀ {s : State T}, s.Reachable cfg (State.Homely cfg) → s.Linear cfg :=
    fun h => (h.mono fun _ _ hp => hp.1.1).linear
  obtain ⟨i, e, hi, he, rfl⟩ := hw
  obtain ⟨s, hr₁, hr₂, hl, hlast, hor⟩ := Guarded.Run.exists_last (fun s => s.mem.log x) hr (hlin h)
    (fun s s' a hi hp ha => State.Linear.log_step s s' a hi hp.1.1 ha x)
    (by unfold Mem.now at hi; omega) he
  have hs : s.Reachable cfg (State.Homely cfg) := Relation.ReflTransGen.trans h hr₁
  have hlive : x ∈ s.mem.live := by
    rcases hor with rfl | ⟨s', hr', ⟨a, -, ha⟩, hl'⟩
    · exact hx
    · refine (hlin (Relation.ReflTransGen.trans h hr')).borrowing.log_live ha fun he => ?_
      rw [he] at hl
      omega
  exact ⟨s, hr₁, hr₂, hlive,
    (State.Reachable.current (hs.mono fun _ _ hp => hp.1) x hlive).holds hl hlast⟩

/-- **Held at an instant of the given run**: every run between the two states passes a state in
which the storage holds the content. -/
theorem State.Reachable.held_iff {c : Content} (h : s₁.Reachable cfg (State.Homely cfg))
    (hx : x ∈ s₁.mem.live) : State.Held cfg s₁ s₂ x c ↔
      State.Run cfg (State.Homely cfg) s₁ s₂ ∧
        ∀ us, State.Path cfg (State.Homely cfg) s₁ us s₂ →
          ∃ s ∈ us, x ∈ s.mem.live ∧ s.mem.content (s.mem.ptr x) = c := by
  have hlin : ∀ {s : State T}, State.Run cfg (State.Homely cfg) s₁ s → s.Linear cfg :=
    fun hr => State.Reachable.linear (State.Reachable.mono (h.trans hr) fun _ _ hp => hp.1.1)
  have hcur : ∀ {s : State T}, State.Run cfg (State.Homely cfg) s₁ s → s.Current :=
    fun hr => State.Reachable.current (State.Reachable.mono (h.trans hr) fun _ _ hp => hp.1)
  constructor
  · rintro ⟨s, hr₁, hr₂, hl, rfl⟩
    refine ⟨hr₁.trans hr₂, fun us hp => ?_⟩
    obtain ⟨v, hv, hlog, hor⟩ := hp.exists_log (fun s => s.mem.log x) (hlin .refl)
      (fun s s' a hi hp ha => State.Linear.log_step s s' a hi hp.1.1 ha x)
      (hr₁.log_prefix x) (hr₂.log_prefix x)
    have hlive : x ∈ v.mem.live := by
      rcases hor with rfl | ⟨v', hv', hne⟩
      · exact hx
      · obtain ⟨hr, ⟨a, -, ha⟩, -⟩ := hp.steps hv'
        exact (hlin hr).borrowing.log_live ha hne.symm
    exact ⟨v, hv, hlive, (hcur hr₁ x hl).congr (hcur (hp.runs hv).1 x hlive) hlog⟩
  · rintro ⟨hr, hp⟩
    obtain ⟨us, hpath⟩ := hr.exists_path
    obtain ⟨s, hs, hl, rfl⟩ := hp us hpath
    exact ⟨s, (hpath.runs hs).1, (hpath.runs hs).2, hl, rfl⟩

/-! ## Operations -/

/-- What an operation on the storage has loaded, called in `s₁` and returned in `s₂`, is an object
that the storage has held meanwhile. -/
def Op.Genuine (cfg : Config) (s₁ s₂ : State T) : Op → Ret → Prop
  | .load x, r => ∃ g, r = .guard g none ∧ State.Held cfg s₁ s₂ x (s₂.mem.content g.ref.addr)
  | .loadFull x, r => ∃ v, r = .value v none ∧ State.Held cfg s₁ s₂ x (s₂.mem.content v.addr)
  | .compareAndSwap x _ _, r => ∃ g w, r = .guard g w ∧
      (w = none → State.Held cfg s₁ s₂ x (s₂.mem.content g.ref.addr))
  | _, _ => True

/-- **Loads return objects of their storage**, also when addresses are used again, in every
interleaving in which debts are paid at home. -/
theorem State.Reachable.loads_genuine {o : Op} {r : Ret}
    (h : s₀.Reachable cfg (State.Homely cfg)) (hc : s₀.step cfg t (.op o) = some s₁)
    (hr : State.Run cfg (State.Homely cfg) s₁ s₂) (hret : s₀.Returns cfg t o s₂ r) :
    o.Genuine cfg s₁ s₂ r := by
  obtain ⟨u, -, hu, -⟩ := id hret
  have h₁ : s₁.Reachable cfg (State.Homely cfg) :=
    h.tail ⟨(t, .op o), State.homely_of_user hu, hc⟩
  have h₂ : s₂.Reachable cfg (State.Homely cfg) := Relation.ReflTransGen.trans h₁ hr
  obtain ⟨ha, hm, -⟩ := (h₂.mono fun _ _ hp => hp.1.1).linear.returned hret
  have hs := h₂.genuine.1.active t
  rw [ha] at hs
  simp only [State.step, hu] at hc
  cases o with
  | load x =>
    simp only [State.userOp, Option.ite_none_right_eq_some, Option.some.injEq] at hc
    obtain ⟨hx, rfl⟩ := hc
    obtain ⟨g, rfl, -⟩ := hm
    exact ⟨g, rfl, h₁.held hr hx hs⟩
  | loadFull x =>
    simp only [State.userOp, Option.ite_none_right_eq_some, Option.some.injEq] at hc
    obtain ⟨hx, rfl⟩ := hc
    obtain ⟨v, rfl, -⟩ := hm
    exact ⟨v, rfl, h₁.held hr hx hs⟩
  | compareAndSwap x current p =>
    simp only [State.userOp, Option.ite_none_right_eq_some, Option.some.injEq] at hc
    obtain ⟨⟨hx, -⟩, rfl⟩ := hc
    obtain ⟨g, w, rfl, -⟩ := hm
    refine ⟨g, w, rfl, fun hw => ?_⟩
    subst hw
    exact h₁.held hr hx hs
  | _ => trivial

/-! ## Paying abroad -/

omit [Fintype T] [DecidableEq T] in
theorem State.paysHome_iff : s.PaysHome cfg t ↔ ∀ x ∈ (s.thread t).active.pays? cfg, ∀ t', t' ≠ t →
    ∀ y ∈ (s.thread t').active.attempt?, y.2.2 = x.1 → x.2.addr = y.2.1 →
      (s.thread t).active.writes? = some (y.1.storage, y.2.1) ∨ s.mem.object y.2.1 = y.1.seen := by
  constructor
  · rintro h ⟨d, r⟩ hx t' ht ⟨f, p, d'⟩ hy rfl he
    exact h d' r hx t' ht f p hy he
  · intro h d r hp t' ht f p ha he
    exact h (d, r) hp t' ht (f, p, d) ha rfl he

instance (s : State T) (t : T) : Decidable (s.PaysHome cfg t) :=
  decidable_of_iff _ State.paysHome_iff.symm

/-- The thread `true` has filled a slot when the thread `false` replaces the value and pays. -/
def homeSchedule : List (Bool × Choice) := List.flatten
  [[(false, .op (.alloc 1)), (false, .op (.new 0 1)), (true, .op (.load 0))], goOn true 10,
    [(false, .op (.alloc 2)), (false, .op (.store 0 2))], goOn false 51, goOn true 3]

theorem homeSchedule_isSome :
    (State.play .sample (State.Homely .sample) .init homeSchedule).isSome := by
  decide +kernel

/-- The load that finds its debt paid. -/
theorem State.Reachable.loads_genuine_sample :
    (Op.load 0).Genuine .sample (Guarded.after homeSchedule_isSome 3)
      (Guarded.after homeSchedule_isSome 69) (.guard ⟨⟨.arc, 1⟩, none⟩ none) :=
  State.Reachable.loads_genuine (t := true) (Guarded.after_reachable homeSchedule_isSome 2)
    (Guarded.after_step homeSchedule_isSome (k := 2) rfl)
    (Guarded.after_run_of (k := 3) (l := 66) (fun _ _ h => h) homeSchedule_isSome
      (by decide +kernel))
    (State.returns_of_main (by decide +kernel) (by decide +kernel))

/-- The thread `true` has read the pointer when the thread `false` replaces the value, which is
destroyed. The address is handed out again, and the new object is put into the storage `1`. The
thread `true` fills a slot, and a writer to the storage `1` pays. -/
def foreignSchedule : List (Bool × Choice) := List.flatten
  [[(false, .op (.alloc 1)), (false, .op (.new 0 1)), (true, .op (.load 0))], goOn true 7,
    [(false, .op (.alloc 2)), (false, .op (.store 0 2))], goOn false 48, [(false, .done)],
    goOn false 3, [(false, .op (.alloc 1)), (false, .op (.new 1 1))], goOn true 3,
    [(false, .op (.alloc 3)), (false, .op (.store 1 3))], goOn false 43, goOn true 3]

/-- **A load can return an object of another storage**: the counts are right, but the storage that
has been loaded from has never held the object. -/
theorem State.load_foreign : ∃ s : State Bool,
    State.play .sample (State.Calm .sample) .init foreignSchedule = some s ∧
      s.Reachable .sample (State.Calm .sample) ∧
      (s.thread true).active = .ret (.guard 0 0) (.guard ⟨⟨.arc, 1⟩, none⟩ none) ∧
      ∀ e ∈ s.mem.log 0, e.content ≠ s.mem.content 1 := by
  have hplay : (State.play .sample (State.Calm .sample) .init foreignSchedule).map (fun s =>
        ((s.thread true).active = .ret (.guard 0 0) (.guard ⟨⟨.arc, 1⟩, none⟩ none) ∧
          ∀ e ∈ s.mem.log 0, e.content ≠ s.mem.content 1 : Bool)) = some true := by
    decide +kernel
  obtain ⟨s, hs, h⟩ := Option.map_eq_some_iff.mp hplay
  exact ⟨s, hs, Guarded.run_of_play hs, by simpa using h⟩

end ArcSwap
