import ArcSwap.Invariants.Tickets

/-!
# A storage is an atomic register

Every operation on a storage takes effect at one instant between its call and its return: a load
returns what the storage has contained then, a swap exchanges then, and a `compare_and_swap` does
one of the two.
-/

namespace ArcSwap

variable {T : Type*} {cfg : Config} {m m' : Mem}

/-! ## The last entry of a log -/

/-- The last entry of a log is the pointer that the storage holds. -/
def Mem.Logged (m : Mem) : Prop :=
  ∀ x e, (m.log x)[m.now x]? = some e → e.content.addr = m.ptr x

theorem Mem.Logged.setPtr (h : m.Logged) (x : StorageId) (p : Addr) (call : ℕ) :
    (m.setPtr x p call).Logged := by
  intro y e he
  by_cases hy : y = x
  · subst hy
    have : e = ⟨m.content p, call⟩ := by simpa [Mem.now, eq_comm] using he
    simp [this, Mem.content]
  · simpa [hy] using h y e (by simpa [Mem.now, hy] using he)

theorem Clause.logged {a : Active} {tls : Tls} {o : Out} (h : Clause cfg tls m a o)
    (hl : m.Logged) : o.mem.Logged := by
  cases h with
  | get h | cooldown h | dec h | intoInner h | dropGuard h | load h | payAll h =>
    cases h <;> exact hl
  | swap => exact hl.setPtr _ _ _
  | cas h =>
    cases h with
    | swapped => exact hl.setPtr _ _ _
    | late => exact hl

theorem Move.logged {s : State T} {t : T} {th' : Thread} {o' : Multiset Ref} {g' : Multiset Guard}
    (h : Move cfg s t m' th' o' g') (hl : s.mem.Logged) : m'.Logged := by
  cases h with
  | code h => exact h.logged hl
  | resume _ _ h => rwa [h.mem_eq]
  | receive => exact hl
  | user _ h =>
    cases h with
    | new => exact Mem.Logged.setPtr (m := s.mem.newCall) hl _ _ _
    | _ => exact hl

theorem TicketMove.log_length_le {calls calls' : ℕ} {log log' : StorageId → List Entry}
    {x x' : Multiset ℕ} (h : TicketMove calls log x calls' log' x') (y : StorageId) :
    (log' y).length ≤ (log y).length + 1 := by
  have hl : ∀ {c}, Appends log log' c → (log' y).length ≤ (log y).length + 1 := by
    rintro c ⟨z, v, rfl⟩
    by_cases hy : y = z
    · subst hy
      simp
    · simp [hy]
  cases h with
  | keep | issue => exact Nat.le_succ _
  | spend _ h | stamp h => exact hl h

/-! ## Linear states -/

variable [Fintype T]

/-- What is known of the storages and of the calls on them in a reachable state. -/
structure State.Linear (cfg : Config) (s : State T) : Prop where
  sound : s.Sound cfg
  handing : s.Handing cfg
  borrowing : s.Borrowing
  windows : s.Windows fun c c' => c'.addr = c.addr
  tickets : Ticketed s.mem.calls s.mem.log s.tickets
  logged : s.mem.Logged

theorem State.init_linear : (State.init : State T).Linear cfg where
  sound := State.init_sound
  handing := State.init_handing
  borrowing := State.init_borrowing
  windows := State.init_windows
  tickets := Ticketed.init
  logged x e he := by simp [State.init, Mem.empty] at he

variable [DecidableEq T] {s s' s₀ s₁ s₂ : State T} {t : T}

theorem State.Linear.step {c : Choice} (h : s.Linear cfg) (hp : s.FreshGen t)
    (hs : s.step cfg t c = some s') : s'.Linear cfg where
  sound := h.sound.step hp.1 hs
  handing := h.handing.step h.sound hp.1 hp.2 hs
  borrowing := h.borrowing.step h.sound hs
  windows := h.windows.step h.sound h.handing h.borrowing (fun _ => rfl) (fun _ _ hc => hc)
    (fun _ _ _ _ _ _ hc => hc) (fun _ _ _ hc => hc) hs
  tickets := h.tickets.step h.sound hs
  logged := by
    obtain ⟨m', th', o', g', hm, rfl⟩ := State.step_move hs
    exact hm.logged h.logged

theorem State.Reachable.linear (h : s.Reachable cfg State.FreshGen) : s.Linear cfg :=
  h.invariant State.init_linear fun _ _ _ _ hi hp hs => hi.step hp hs

/-! ## Runs from a call to its return -/

theorem State.Linear.run (h : s.Linear cfg) (hr : State.Run cfg State.FreshGen s s') :
    s'.Linear cfg :=
  Guarded.Run.invariant hr h fun _ _ _ hi hp hs => hi.step hp hs

theorem State.Run.log_prefix {P : State T → T → Prop} (hr : State.Run cfg P s s')
    (x : StorageId) : s.mem.log x <+: s'.mem.log x := by
  refine Guarded.Run.invariant (I := fun s' => s.mem.log x <+: s'.mem.log x) hr List.prefix_rfl
    fun s₁ s₂ a hi _ hs => hi.trans ?_
  obtain ⟨m', th', o', g', hm, rfl⟩ := State.step_move hs
  exact hm.log_prefix x

/-- The storage has contained the pointer at an instant of the run. Which run between the states is
taken makes no difference (`State.Linear.contained_iff`). -/
def State.Contained (cfg : Config) (s₁ s₂ : State T) (x : StorageId) (p : Addr) : Prop :=
  ∃ s, State.Run cfg State.FreshGen s₁ s ∧ State.Run cfg State.FreshGen s s₂ ∧ s.mem.ptr x = p

/-- The call `c` has written to the storage at the position `k`. -/
def Mem.WrittenBy (m : Mem) (c : ℕ) (x : StorageId) (k : ℕ) : Prop :=
  ∃ v, (m.log x)[k]? = some ⟨v, c⟩

/-- A call that writes later at one position only has not written before. -/
theorem Mem.not_writtenBy {m m' : Mem} {c k : ℕ} {x : StorageId}
    (hl : ∀ y, m.log y <+: m'.log y) (hk : (m.log x).length ≤ k)
    (hu : ∀ x' k', m'.WrittenBy c x' k' → x' = x ∧ k' = k) (x' : StorageId) (k' : ℕ) :
    ¬ m.WrittenBy c x' k' := by
  rintro ⟨v, hv⟩
  obtain ⟨rfl, rfl⟩ := hu x' k' ⟨v, getElem?_of_prefix (hl x') hv⟩
  obtain ⟨hlt, -⟩ := List.getElem?_eq_some_iff.mp hv
  omega

/-- What a call has written since then is younger than the log was. -/
theorem Mem.length_le_of_not_writtenBy {m m' : Mem} {c k : ℕ} {x : StorageId} {v : Content}
    (hl : m.log x <+: m'.log x) (hn : ¬ m.WrittenBy c x k)
    (hw : (m'.log x)[k]? = some ⟨v, c⟩) : (m.log x).length ≤ k := by
  by_contra hlt
  have hk := List.getElem?_eq_getElem (not_le.mp hlt)
  exact hn ⟨v, hk.trans (( getElem?_of_prefix hl hk).symm.trans hw)⟩

/-- The call `c` has exchanged `old` for `new` in the storage at one instant of the run, and it has
not written at any other. Every run between the states takes the step
(`State.Linear.exchanged_iff`). -/
def State.Exchanged (cfg : Config) (s₁ s₂ : State T) (c : ℕ) (x : StorageId) (old new : Addr) :
    Prop :=
  ∃ s s' k, State.Run cfg State.FreshGen s₁ s ∧
    Guarded.Next (fun s a => s.step cfg a.1 a.2) (fun s (a : T × Choice) => s.FreshGen a.1) s s' ∧
    State.Run cfg State.FreshGen s' s₂ ∧ s.mem.ptr x = old ∧ s'.mem.ptr x = new ∧
    (∀ x' k', s.mem.WrittenBy c x' k' → False) ∧ s'.mem.WrittenBy c x k ∧
    ∀ x' k', s₂.mem.WrittenBy c x' k' → x' = x ∧ k' = k

/-- A step of a run appends at most one entry to a log. -/
theorem State.Linear.log_step (s s' : State T) (a : T × Choice) (h : s.Linear cfg)
    (hp : s.FreshGen a.1) (hs : s.step cfg a.1 a.2 = some s') (x : StorageId) :
    s'.Linear cfg ∧ s.mem.log x <+: s'.mem.log x ∧
      (s'.mem.log x).length ≤ (s.mem.log x).length + 1 := by
  refine ⟨h.step hp hs, ?_⟩
  obtain ⟨m', th', o', g', hm, rfl⟩ := State.step_move hs
  exact ⟨hm.log_prefix x, (hm.ticketMove (h.sound.typed a.1)).log_length_le x⟩

omit [DecidableEq T] in
/-- A storage that exists has a log. -/
theorem State.Linear.now_lt (h : s.Linear cfg) {x : StorageId} (hx : x ∈ s.mem.live) :
    s.mem.now x < (s.mem.log x).length := by
  obtain ⟨e, he, -⟩ := h.windows.latest x hx
  exact (List.getElem?_eq_some_iff.mp he).1

omit [DecidableEq T] in
/-- A storage holds what stands last in its log. -/
theorem State.Linear.ptr_eq {x : StorageId} {i : ℕ} {e : Entry} (h : s.Linear cfg)
    (hi : (s.mem.log x).length = i + 1) (he : (s.mem.log x)[i]? = some e) :
    s.mem.ptr x = e.content.addr := by
  have hnow : s.mem.now x = i := by
    unfold Mem.now
    omega
  exact (h.logged x _ (hnow ▸ he)).symm

/-- What a call has loaded, the storage has contained since it was called. -/
theorem State.Linear.contained {x : StorageId} {P : Content → Prop} {p : Addr} (h : s₁.Linear cfg)
    (hr : State.Run cfg State.FreshGen s₁ s₂) (hw : s₂.mem.Within x (s₁.mem.now x) P)
    (hP : ∀ c, P c → c.addr = p) : State.Contained cfg s₁ s₂ x p := by
  obtain ⟨i, e, hi, he, hPe⟩ := hw
  obtain ⟨s, hr₁, hr₂, hl, hlast, -⟩ := Guarded.Run.exists_last (fun s => s.mem.log x) hr h
    (fun s s' a hi hp ha => State.Linear.log_step s s' a hi hp ha x)
    (by unfold Mem.now at hi; omega) he
  exact ⟨s, hr₁, hr₂, ((h.run hr₁).ptr_eq hl hlast).trans (hP _ hPe)⟩

/-- A call that has written has exchanged at one instant since it was called. -/
theorem State.Linear.exchanged {x : StorageId} {call k : ℕ} {old new : Addr} {P : Content → Prop}
    (h : s₁.Linear cfg) (hr : State.Run cfg State.FreshGen s₁ s₂)
    (hw : s₂.mem.Wrote x (s₁.mem.now x) call k P (·.addr = new))
    (hP : ∀ e, (s₂.mem.log x)[k - 1]? = some e → P e.content → e.content.addr = old) :
    State.Exchanged cfg s₁ s₂ call x old new := by
  obtain ⟨hk, ⟨e, he, hPe⟩, c, hc, hnew⟩ := hw
  obtain ⟨s, s', hr₁, ⟨a, hp, ha⟩, hr₂, hl, hl', hlast, hsame⟩ := Guarded.Run.exists_write
    (fun s => s.mem.log x) hr h (fun s s' a hi hp ha => State.Linear.log_step s s' a hi hp ha x)
    (by unfold Mem.now at hk; omega) hc
  have h₂ := h.run hr
  have hs := h.run hr₁
  have hrs : State.Run cfg State.FreshGen s s₂ := Relation.ReflTransGen.head ⟨a, hp, ha⟩ hr₂
  -- what is exchanged stood last in the log
  have hold : (s.mem.log x)[k - 1]? = some e := (hsame (k - 1) (by omega)).trans he
  have hunique : ∀ x' k', s₂.mem.WrittenBy call x' k' → x' = x ∧ k' = k := by
    rintro x' k' ⟨v, hv⟩
    exact h₂.tickets.once hv hc rfl
  refine ⟨s, s', k, hr₁, ⟨a, hp, ha⟩, hr₂, (hs.ptr_eq (by omega) hold).trans (hP e he hPe),
    ((hs.step hp ha).ptr_eq hl' hlast).trans hnew,
    Mem.not_writtenBy (State.Run.log_prefix hrs) hl.le hunique, ⟨c, hlast⟩, hunique⟩

/-! ## Instants of the given run -/

omit [DecidableEq T] in
/-- States with the same log have the same pointer in the storage. -/
theorem State.Linear.ptr_congr {x : StorageId} (h : s.Linear cfg) (h' : s'.Linear cfg)
    (hx : s.mem.log x ≠ []) (hl : s'.mem.log x = s.mem.log x) : s'.mem.ptr x = s.mem.ptr x := by
  obtain ⟨i, hi⟩ := Nat.exists_eq_succ_of_ne_zero (List.length_pos_iff.mpr hx).ne'
  have he := List.getElem?_eq_getElem (l := s.mem.log x) (i := i) (by omega)
  exact (h'.ptr_eq (hl ▸ hi) ((congrArg (·[i]?) hl).trans he)).trans (h.ptr_eq hi he).symm

/-- **Contained at an instant of the given run**: every run between the two states passes a state in
which the storage contains the pointer. -/
theorem State.Linear.contained_iff {x : StorageId} {p : Addr} (h : s₁.Linear cfg)
    (hx : s₁.mem.log x ≠ []) : State.Contained cfg s₁ s₂ x p ↔
      State.Run cfg State.FreshGen s₁ s₂ ∧
        ∀ us, State.Path cfg State.FreshGen s₁ us s₂ → ∃ s ∈ us, s.mem.ptr x = p := by
  constructor
  · rintro ⟨s, hr₁, hr₂, rfl⟩
    refine ⟨hr₁.trans hr₂, fun us hp => ?_⟩
    obtain ⟨v, hv, hl, -⟩ := hp.exists_log (fun s => s.mem.log x) h
      (fun s s' a hi hp ha => State.Linear.log_step s s' a hi hp ha x) (hr₁.log_prefix x)
      (hr₂.log_prefix x)
    exact ⟨v, hv, (h.run hr₁).ptr_congr (h.run (hp.runs hv).1) ((hr₁.log_prefix x).ne_nil hx) hl⟩
  · rintro ⟨hr, hp⟩
    obtain ⟨us, hpath⟩ := hr.exists_path
    obtain ⟨s, hs, rfl⟩ := hp us hpath
    exact ⟨s, (hpath.runs hs).1, (hpath.runs hs).2, rfl⟩

/-- **Exchanged at an instant of the given run**: every run between the two states takes the step in
which the call writes. -/
theorem State.Linear.exchanged_iff {x : StorageId} {call : ℕ} {old new : Addr} (h : s₁.Linear cfg)
    (hx : s₁.mem.log x ≠ []) : State.Exchanged cfg s₁ s₂ call x old new ↔
      State.Run cfg State.FreshGen s₁ s₂ ∧ ∀ us, State.Path cfg State.FreshGen s₁ us s₂ →
        ∃ s s' k, [s, s'] <:+: us ∧ s.mem.ptr x = old ∧ s'.mem.ptr x = new ∧
          (∀ x' k', ¬ s.mem.WrittenBy call x' k') ∧ s'.mem.WrittenBy call x k ∧
          ∀ x' k', s₂.mem.WrittenBy call x' k' → x' = x ∧ k' = k := by
  constructor
  · rintro ⟨s, s', k, hr₁, ⟨a, hg, ha⟩, hr₂, rfl, rfl, hfirst, hw, honce⟩
    refine ⟨(hr₁.tail ⟨a, hg, ha⟩).trans hr₂, fun us hp => ?_⟩
    have hs := h.run hr₁
    obtain ⟨hs', hpre, hle⟩ := State.Linear.log_step s s' a hs hg ha x
    obtain ⟨c, hc⟩ := id hw
    -- the entry of the call is the new one
    have hk : (s.mem.log x).length ≤ k := Mem.length_le_of_not_writtenBy hpre (hfirst x k) hc
    have hk' := (List.getElem?_eq_some_iff.mp hc).1
    obtain ⟨v, v', hv, hl, hl'⟩ := hp.exists_append (fun s => s.mem.log x) h
      (fun s s' a hi hp ha => State.Linear.log_step s s' a hi hp ha x) (hr₁.log_prefix x) hpre
      (by omega) (hr₂.log_prefix x)
    obtain ⟨hrv, hn, hrv'⟩ := hp.steps hv
    have hne : s.mem.log x ≠ [] := (hr₁.log_prefix x).ne_nil hx
    refine ⟨v, v', k, hv, hs.ptr_congr (h.run hrv) hne hl,
      hs'.ptr_congr (h.run (hrv.tail hn)) (hpre.ne_nil hne) hl', ?_, ⟨c, hl' ▸ hc⟩, honce⟩
    exact Mem.not_writtenBy (State.Run.log_prefix (.head hn hrv')) (hl ▸ hk) honce
  · rintro ⟨hr, hp⟩
    obtain ⟨us, hpath⟩ := hr.exists_path
    obtain ⟨s, s', k, hs, hold, hnew, hfirst, hw, honce⟩ := hp us hpath
    obtain ⟨hr₁, hn, hr₂⟩ := hpath.steps hs
    exact ⟨s, s', k, hr₁, hn, hr₂, hold, hnew, hfirst, hw, honce⟩

/-! ## Operations -/

/-- What the call of an operation returns, as far as its arguments tell. -/
def Op.contract (cfg : Config) (m : Mem) : Op → Contract
  | .load x => .guard x (m.now x)
  | .loadFull x => .value x (m.now x)
  | .store x p => .swap ⟨x, m.now x, m.calls, ⟨cfg.kind x, p⟩, true⟩
  | .swap x p => .swap ⟨x, m.now x, m.calls, ⟨cfg.kind x, p⟩, false⟩
  | .compareAndSwap x current p =>
    .cas ⟨x, m.now x, m.calls, current, ⟨cfg.kind x, p⟩, m.object p⟩
  | .rcu x => .rcu ⟨x, m.now x, m.calls⟩
  | .intoInner g => .is g.ref
  | .consume x => .is ⟨cfg.kind x, m.ptr x⟩
  | _ => .unit

/-- The operation that the thread has called in the state `s₀` returns `r` in the state `s₂`. -/
def State.Returns (cfg : Config) (s₀ : State T) (t : T) (o : Op) (s₂ : State T) (r : Ret) : Prop :=
  ∃ u c, (s₀.thread t).active = .user u ∧ (s₂.thread t).active = .ret c r ∧
    (s₂.thread t).conts = .user u (o.contract cfg s₀.mem) :: (s₀.thread t).conts

/-- The operation on a storage that has been called in `s₀`, with `s₁` the state after the call, and
has returned `r` in `s₂`, has taken effect at one instant. -/
def Op.Linearized (cfg : Config) (s₀ s₁ s₂ : State T) : Op → Ret → Prop
  | .load x, r => ∃ g, r = .guard g none ∧ State.Contained cfg s₁ s₂ x g.ref.addr
  | .loadFull x, r => ∃ v, r = .value v none ∧ State.Contained cfg s₁ s₂ x v.addr
  | .store x p, r => ∃ k old, r = .unit (some k) ∧
      State.Exchanged cfg s₁ s₂ s₀.mem.calls x old p
  | .swap x p, r => ∃ v k, r = .value v (some k) ∧
      State.Exchanged cfg s₁ s₂ s₀.mem.calls x v.addr p
  | .compareAndSwap x current p, r => ∃ g w, r = .guard g w ∧
      ((g.ref.addr = current ∧ State.Exchanged cfg s₁ s₂ s₀.mem.calls x current p) ∨
        (g.ref.addr ≠ current ∧ State.Contained cfg s₁ s₂ x g.ref.addr ∧
          ∀ x' k, ¬ s₂.mem.WrittenBy s₀.mem.calls x' k))
  | _, _ => True

omit [Fintype T] [DecidableEq T] in
/-- A step of user code uses no generation. -/
theorem State.freshGen_of_user {u : UserKind} (h : (s.thread t).active = .user u) :
    s.FreshGen t := by
  refine ⟨?_, fun n w hi => ?_⟩
  · rw [State.NoWrap, h]
    exact id
  · rw [h] at hi
    exact hi.elim

omit [DecidableEq T] in
/-- What is known of the value when an operation returns. -/
theorem State.Linear.returned {o : Op} {r : Ret} (h : s₂.Linear cfg)
    (hret : s₀.Returns cfg t o s₂ r) :
    (s₂.thread t).active = .ret (o.contract cfg s₀.mem) r ∧
      (o.contract cfg s₀.mem).Meets cfg r ∧
      (o.contract cfg s₀.mem).Says (fun c c' => c'.addr = c.addr) s₂.mem r := by
  obtain ⟨u, c, -, ha, hk⟩ := hret
  have hl := (h.sound.typed t).linked
  rw [ha, hk] at hl
  obtain rfl : c = o.contract cfg s₀.mem := hl.1
  have hm := (h.sound.typed t).active
  have hs := h.windows.active t
  rw [ha] at hm hs
  exact ⟨ha, hm, hs⟩

/-- **A storage is a linearizable register**: in every interleaving in which no generation is used
a second time, every operation takes effect at one instant between its call and its return. -/
theorem State.Reachable.linearizable {o : Op} {r : Ret} (h : s₀.Reachable cfg State.FreshGen)
    (hc : s₀.step cfg t (.op o) = some s₁) (hr : State.Run cfg State.FreshGen s₁ s₂)
    (hret : s₀.Returns cfg t o s₂ r) : o.Linearized cfg s₀ s₁ s₂ r := by
  obtain ⟨u, -, hu, -⟩ := id hret
  have h₁ := h.linear.step (State.freshGen_of_user hu) hc
  have h₂ := h₁.run hr
  obtain ⟨ha, hm, hs⟩ := h₂.returned hret
  simp only [State.step, hu] at hc
  cases o with
  | load x =>
    simp only [State.userOp, Option.ite_none_right_eq_some, Option.some.injEq] at hc
    obtain ⟨-, rfl⟩ := hc
    obtain ⟨g, rfl, -⟩ := hm
    exact ⟨g, rfl, h₁.contained (P := fun c => c.addr = g.ref.addr) hr hs fun _ hc => hc⟩
  | loadFull x =>
    simp only [State.userOp, Option.ite_none_right_eq_some, Option.some.injEq] at hc
    obtain ⟨-, rfl⟩ := hc
    obtain ⟨v, rfl, -⟩ := hm
    exact ⟨v, rfl, h₁.contained (P := fun c => c.addr = v.addr) hr hs fun _ hc => hc⟩
  | store x p =>
    simp only [State.userOp, Option.ite_none_right_eq_some, Option.some.injEq] at hc
    obtain ⟨-, rfl⟩ := hc
    obtain ⟨k, hk⟩ := hm
    obtain rfl : r = .unit (some k) := by simpa using hk
    obtain ⟨e, he, -⟩ := hs.old
    refine ⟨k, e.content.addr, rfl, h₁.exchanged hr hs fun e' he' _ => ?_⟩
    rw [he] at he'
    rw [← Option.some.inj he']
  | swap x p =>
    simp only [State.userOp, Option.ite_none_right_eq_some, Option.some.injEq] at hc
    obtain ⟨-, rfl⟩ := hc
    obtain ⟨k, hk⟩ := hm
    obtain ⟨v, rfl⟩ : ∃ v, r = .value v (some k) := by simpa using hk
    exact ⟨v, k, rfl, h₁.exchanged hr hs fun _ _ he => he⟩
  | compareAndSwap x current p =>
    simp only [State.userOp, Option.ite_none_right_eq_some, Option.some.injEq] at hc
    obtain ⟨-, rfl⟩ := hc
    obtain ⟨g, w, rfl, -, -, hw⟩ := hm
    refine ⟨g, w, rfl, ?_⟩
    cases w with
    | some k => exact .inl ⟨hw.mp rfl, h₁.exchanged hr hs fun _ _ he => he⟩
    | none =>
      refine .inr ⟨fun he => by simpa using hw.mpr he,
        h₁.contained (P := fun c => c.addr = g.ref.addr) hr hs fun _ hc => hc, ?_⟩
      -- the ticket of the call has not been spent
      rintro x' k ⟨v, hv⟩
      refine (h₂.tickets.spent x' _ (List.mem_of_getElem? hv)).2 (Family.mem_total.mpr ⟨t, ?_⟩)
      simp [Thread.tickets, ha, Op.contract, Active.tickets]
  | _ => trivial

/-- The value that the main code of the thread is being given. -/
def Thread.givenToMain? (th : Thread) : Option (Contract × Ret) :=
  match th.active, th.conts with
  | .ret _ r, [.user .main c] => some (c, r)
  | _, _ => none

/-- Nothing but the main code of the thread is running. -/
def Thread.InMain (th : Thread) : Prop :=
  match th.active, th.conts with
  | .user .main, [] => True
  | _, _ => False

instance (th : Thread) : Decidable th.InMain := by
  unfold Thread.InMain
  split <;> infer_instance

omit [Fintype T] [DecidableEq T] in
theorem State.returns_of_main {o : Op} {r : Ret} (h₀ : (s₀.thread t).InMain)
    (h₂ : (s₂.thread t).givenToMain? = some (o.contract cfg s₀.mem, r)) :
    s₀.Returns cfg t o s₂ r := by
  unfold Thread.InMain at h₀
  unfold Thread.givenToMain? at h₂
  split at h₀
  · split at h₂
    · rename_i ha₀ hk₀ _ _ _ _ _ ha₂ hk₂
      simp only [Option.some.injEq, Prod.mk.injEq] at h₂
      obtain ⟨rfl, rfl⟩ := h₂
      exact ⟨_, _, ha₀, ha₂, by rw [hk₀, hk₂]⟩
    · simp at h₂
  · exact h₀.elim

/-- The load that is helped by the writer. -/
theorem State.Reachable.linearizable_sample :
    (Op.load 1).Linearized .sample (State.sample 70) (State.sample 71) (State.sample 146)
      (.guard ⟨⟨.arc, 4⟩, none⟩ none) :=
  State.Reachable.linearizable (t := 1) (State.sample_reachable 70) (State.sample_step rfl)
    (State.sample_run 71 75)
    (State.returns_of_main (by decide +kernel) (by decide +kernel))

end ArcSwap
