import ArcSwap.Strategies.LockObjects

/-!
# A storage under a lock is an atomic register of objects

Every operation takes effect at one instant between its call and its return, and what it returns is
an object, not only an address. There is no condition on the run: the destructors and the closures
may do what they like, and addresses are used again.
-/

namespace ArcSwap.Locked

variable {T : Type*} {cfg : Config} {s s' s₀ s₁ s₂ : State T} {t : T} {m m' : Mem} {p : Addr}
  {x : StorageId} {c c' : Content} {call k : ℕ} {l l' : StorageId → RwLock T} {th' : Thread}
  {o' : Multiset Ref} {g' : Multiset Guard}

/-! ## Every call writes at most once -/

/-- The tickets that the active function holds. -/
def Active.tickets : Active → Multiset ℕ
  | .swap f => {f.call}
  | .cas _ (.unlock _ (some _)) => 0
  | .cas f _ => {f.call}
  | .ret (.cas f) (.guard _ none) => {f.call}
  | .ret (.rcu f) .panicked => {f.call}
  | _ => 0

/-- The tickets that a suspended caller holds. -/
def Cont.tickets : Cont → Multiset ℕ
  | .casRefused f _ => {f.call}
  | .rcuLoaded f | .rcuClosure f _ _ | .rcuAgain f _ | .rcuUnwind f => {f.call}
  | _ => 0

/-- The tickets that a thread holds. -/
abbrev Thread.tickets (th : Thread) : Multiset ℕ := th.gather Active.tickets Cont.tickets

section Move

variable [DecidableEq T]

theorem Clause.ticketMove {a : Active} {o : Out T} (h : Clause cfg t l m a o) :
    TicketMove m.calls m.log (Thread.tickets ⟨a, []⟩) o.mem.calls o.mem.log
      (Thread.tickets ⟨o.active, o.calls⟩) := by
  cases h with
  | swap => exact .spend (zero_add _).symm ⟨_, _, rfl⟩
  | casSwapped => exact .spend (zero_add _).symm ⟨_, _, rfl⟩
  | @casUnlock f old wrote => exact .keep (le_of_eq (by cases wrote <;> rfl))
  | _ => exact .keep le_rfl

omit [DecidableEq T] in
theorem Resumed.tickets_le {k : Cont} {r : Ret} {a : Active} {calls : List Cont}
    (h : Resumed m k r a calls) (hok : k.Ok cfg) (hm : k.expects.Meets cfg r) :
    Thread.tickets ⟨a, calls⟩ ≤ (Active.ret k.expects r).tickets + k.tickets := by
  cases h with
  | @rcuRetry f cur given g prev wrote hne =>
    -- the exchange has not taken place, and the ticket comes back
    obtain ⟨-, -, hc, hcur⟩ := hok
    obtain ⟨g', w, hr, -, -, hw⟩ := hm
    obtain ⟨rfl, rfl⟩ := Ret.guard.inj hr
    have hnone : wrote = none := by
      rw [← Option.not_isSome_iff_eq_none, hw, hcur]
      exact Ne.symm hne
    subst hnone
    have he : (Active.ret (Cont.rcuSwapped f cur given g).expects (.guard prev none)).tickets =
        {f.call} := by
      rw [← hc]
      rfl
    rw [he]
    exact le_rfl
  | casRefused | rcuLoaded | rcuClosure | rcuPanicked | rcuAgain | rcuUnwind =>
    exact Multiset.le_add_left _ _
  | _ => exact Multiset.zero_le _

omit [DecidableEq T] in
theorem Calls.ticketMove {a : Call} (h : Calls cfg s m' a o' g') :
    TicketMove s.mem.calls s.mem.log 0 m'.calls m'.log (Thread.tickets ⟨a.active, a.calls⟩) := by
  cases h with
  | swap | compareAndSwap | rcu => exact .issue le_rfl
  | _ => exact .keep le_rfl

omit [DecidableEq T] in
theorem Works.ticketMove {u : UserKind} {a : Active} (h : Works cfg s t u m' l' a o' g') :
    TicketMove s.mem.calls s.mem.log 0 m'.calls m'.log a.tickets := by
  cases h with
  | new => exact .stamp ⟨_, _, rfl⟩
  | _ => exact .keep le_rfl

theorem Move.ticketMove (h : Move cfg s t m' l' th' o' g') (ht : (s.thread t).Typed cfg) :
    TicketMove s.mem.calls s.mem.log (s.thread t).tickets m'.calls m'.log th'.tickets := by
  cases h with
  | @code o h =>
    have hm := h.ticketMove.frame ((s.thread t).conts.map Cont.tickets).sum
    rwa [← Thread.gather_append, ← Thread.gather_append] at hm
  | @resume c r k ks a calls ha hk h =>
    have hl := ht.linked
    have hok := ht.active
    rw [ha, hk] at hl
    rw [ha] at hok
    obtain rfl : c = k.expects := hl.1
    have hold : (s.thread t).tickets = (Active.ret k.expects r).tickets + k.tickets +
        (ks.map Cont.tickets).sum := by
      rw [Thread.tickets, Thread.gather, ha, hk, List.map_cons, List.sum_cons, add_assoc]
    refine .keep ?_
    rw [hold, Thread.tickets, Thread.gather_append]
    exact Multiset.add_le_add_right (h.tickets_le (ht.conts k (by simp [hk])) hok.1)
  | receive ha hk =>
    refine .keep ?_
    rw [Thread.tickets, Thread.tickets, Thread.gather, Thread.gather, hk, List.map_cons,
      List.sum_cons]
    simp [Active.tickets, Cont.tickets]
  | call ha h =>
    have hm := h.ticketMove.frame ((s.thread t).conts.map Cont.tickets).sum
    rw [Thread.tickets, Thread.tickets, Thread.calling, Thread.gather_append, List.map_cons,
      List.sum_cons, Thread.gather, ha]
    simpa [Active.tickets, Cont.tickets] using hm
  | work ha h =>
    have hm := h.ticketMove.frame ((s.thread t).conts.map Cont.tickets).sum
    rw [Thread.tickets, Thread.tickets, Thread.gather, Thread.gather, ha]
    simpa [Active.tickets] using hm

end Move

/-! ## What is known of a reachable state -/

section State

variable [Fintype T]

/-- All tickets. -/
def State.tickets (s : State T) : Multiset ℕ := Family.total Thread.tickets s.thread

/-- What is known of the storages and of the calls on them in a reachable state. -/
structure State.Informed [DecidableEq T] (cfg : Config) (s : State T) : Prop where
  sound : s.Sound cfg
  current : s.Current
  tickets : Ticketed s.mem.calls s.mem.log s.tickets

variable [DecidableEq T]

theorem State.init_informed : (State.init : State T).Informed cfg where
  sound := State.init_sound
  current x hx := by simp [State.init, Mem.empty] at hx
  tickets := by
    have hx : (State.init : State T).tickets = 0 := Family.total_eq_zero fun _ => rfl
    rw [hx]
    exact ⟨by simp, by simp, by simp [State.init, Mem.empty], by simp [State.init, Mem.empty]⟩

theorem State.Informed.move (h : s.Informed cfg) (hm : Move cfg s t m' l' th' o' g') :
    (s.moved t m' l' th' o' g').Informed cfg where
  sound := h.sound.move hm
  current := hm.current h.current fun _ hx => h.sound.stored_pinned hx
  tickets := by
    have hk := h.tickets
    rw [State.tickets, Family.total_eq _ _ t] at hk
    rw [State.tickets, State.moved, Family.total_update]
    exact hk.move ((hm.ticketMove (h.sound.typed t)).frame _)

theorem State.Informed.step {a : Choice} (h : s.Informed cfg) (hs : s.step cfg t a = some s') :
    s'.Informed cfg := by
  obtain ⟨m', l', th', o', g', hm, rfl⟩ := State.step_move hs
  exact h.move hm

theorem State.Reachable.informed (h : s.Reachable cfg) : s.Informed cfg :=
  h.invariant State.init_informed fun _ _ _ _ hi hs => hi.step hs

/-- A log grows by one entry at most. -/
theorem State.Informed.log_step (s s' : State T) (a : T × Choice) (h : s.Informed cfg)
    (hs : s.step cfg a.1 a.2 = some s') (x : StorageId) :
    s'.Informed cfg ∧ s.mem.log x <+: s'.mem.log x ∧
      (s'.mem.log x).length ≤ (s.mem.log x).length + 1 := by
  refine ⟨h.step hs, ?_⟩
  obtain ⟨m', l', th', o', g', hm, rfl⟩ := State.step_move hs
  exact ⟨hm.log_prefix x, (hm.ticketMove (h.sound.typed a.1)).log_length_le x⟩

theorem State.Informed.run (h : s.Informed cfg) (hr : State.Run cfg s s') : s'.Informed cfg :=
  Guarded.Run.invariant hr h fun _ _ _ hi _ hs => hi.step hs

theorem State.Informed.log_prefix (h : s.Informed cfg) (hr : State.Run cfg s s')
    (x : StorageId) : s.mem.log x <+: s'.mem.log x :=
  (Guarded.Run.log_prefix hr h fun s s' a hi _ hs =>
    ⟨(hi.log_step s s' a hs x).1, (hi.log_step s s' a hs x).2.1⟩).2

/-- The call number grows. -/
theorem State.Informed.calls_le (h : s.Informed cfg) (hr : State.Run cfg s s') :
    s.mem.calls ≤ s'.mem.calls :=
  (Guarded.Run.invariant (I := fun s' => s.mem.calls ≤ s'.mem.calls ∧ s'.Informed cfg) hr
    ⟨le_rfl, h⟩ fun s₁ s₂ a hi _ hs => by
      obtain ⟨m', l', th', o', g', hm, rfl⟩ := State.step_move hs
      exact ⟨hi.1.trans (hm.ticketMove (hi.2.sound.typed a.1)).calls_le, hi.2.move hm⟩).1

/-! ## Instants of a run -/

omit [Fintype T] in
/-- A function writes to the storage that it relies on. -/
theorem Clause.log_needs {a : Active} {o : Out T} (h : Clause cfg t l m a o)
    (hl : o.mem.log x ≠ m.log x) : a.needs? = some x := by
  have hset : ∀ {y q k}, (m.setPtr y q k).log x ≠ m.log x → some y = some x := by
    intro y q k hne
    by_contra hy
    have hxy : x ≠ y := fun he => hy (he ▸ rfl)
    exact hne (by simp [hxy])
  cases h with
  | swap | casSwapped => exact hset hl
  | _ => exact absurd rfl hl

/-- A storage that is written to exists. -/
theorem Move.log_live (h : Move cfg s t m' l' th' o' g') (hs : s.Sound cfg)
    (hl : m'.log x ≠ s.mem.log x) : x ∈ m'.live := by
  cases h with
  | code h => exact h.live_eq ▸ hs.live t x (.inl (h.log_needs hl))
  | resume | receive => exact absurd rfl hl
  | call _ h => cases h <;> exact absurd rfl hl
  | work _ h =>
    cases h with
    | @new _ y p =>
      by_cases hx : x = y
      · subst hx
        exact Finset.mem_insert_self _ _
      · exact absurd (by simp [hx]) hl
    | _ => exact absurd rfl hl

/-- Only a storage that exists is written to by a call that has been made before. -/
theorem Move.written_live {e : Entry} (h : Move cfg s t m' l' th' o' g') (hs : s.Sound cfg)
    (he : (m'.log x)[(s.mem.log x).length]? = some e) (hc : e.call < s.mem.calls) :
    x ∈ s.mem.live := by
  have hne : m'.log x ≠ s.mem.log x := fun hl => by
    rw [hl] at he
    simp at he
  cases h with
  | code h => exact hs.live t x (.inl (h.log_needs hne))
  | resume | receive => exact absurd rfl hne
  | call _ h => cases h <;> exact absurd rfl hne
  | work _ h =>
    cases h with
    | @new _ y p =>
      by_cases hx : x = y
      · subst hx
        have he' : (⟨s.mem.newCall.content p, s.mem.calls⟩ : Entry) = e := by simpa using he
        exact absurd hc (by rw [← he']; exact lt_irrefl _)
      · exact absurd (by simp [hx]) hne
    | _ => exact absurd rfl hne

/-- The storage has held the content at an instant of the run. Which run between the states is taken
makes no difference (`State.Informed.held_iff`). -/
def State.Held (cfg : Config) (s₁ s₂ : State T) (x : StorageId) (c : Content) : Prop :=
  ∃ s, State.Run cfg s₁ s ∧ State.Run cfg s s₂ ∧ x ∈ s.mem.live ∧ s.mem.content (s.mem.ptr x) = c

/-- What a call has loaded, the storage has held since it was called. -/
theorem State.Informed.held (h : s₁.Informed cfg) (hr : State.Run cfg s₁ s₂)
    (hx : x ∈ s₁.mem.live) (hw : s₂.mem.Within x (s₁.mem.now x) (Eq c)) :
    State.Held cfg s₁ s₂ x c := by
  obtain ⟨i, e, hi, he, rfl⟩ := hw
  obtain ⟨s, hr₁, hr₂, hl, hlast, hor⟩ := Guarded.Run.exists_last (fun s => s.mem.log x) hr h
    (fun s s' a hi _ hs => hi.log_step s s' a hs x) (by unfold Mem.now at hi; omega) he
  have hs := h.run hr₁
  refine ⟨s, hr₁, hr₂, ?_, ?_⟩
  all_goals
    have hlive : x ∈ s.mem.live := by
      rcases hor with rfl | ⟨s', hr', ⟨a, -, ha⟩, hl'⟩
      · exact hx
      · obtain ⟨m', l', th', o', g', hm, rfl⟩ := State.step_move ha
        refine hm.log_live (h.run hr').sound fun he => ?_
        replace hl : (m'.log x).length = i + 1 := hl
        rw [he] at hl
        omega
  · exact hlive
  · exact (hs.current x hlive).holds hl hlast

/-- **Held at an instant of the given run**: every run between the two states passes a state in
which the storage holds the content. -/
theorem State.Informed.held_iff (h : s₁.Informed cfg) (hx : x ∈ s₁.mem.live) :
    State.Held cfg s₁ s₂ x c ↔ State.Run cfg s₁ s₂ ∧ ∀ us, State.Path cfg s₁ us s₂ →
      ∃ s ∈ us, x ∈ s.mem.live ∧ s.mem.content (s.mem.ptr x) = c := by
  constructor
  · rintro ⟨s, hr₁, hr₂, hl, rfl⟩
    refine ⟨hr₁.trans hr₂, fun us hp => ?_⟩
    have hs := h.run hr₁
    obtain ⟨v, hv, hlog, hor⟩ := hp.exists_log (fun s => s.mem.log x) h
      (fun s s' a hi _ ha => hi.log_step s s' a ha x) (h.log_prefix hr₁ x) (hs.log_prefix hr₂ x)
    have hlive : x ∈ v.mem.live := by
      rcases hor with rfl | ⟨v', hv', hne⟩
      · exact hx
      · obtain ⟨hr, ⟨a, -, ha⟩, -⟩ := hp.steps hv'
        obtain ⟨m', l', th', o', g', hm, rfl⟩ := State.step_move ha
        exact hm.log_live (h.run hr).sound hne.symm
    exact ⟨v, hv, hlive, (hs.current x hl).congr ((h.run (hp.runs hv).1).current x hlive) hlog⟩
  · rintro ⟨hr, hp⟩
    obtain ⟨us, hpath⟩ := hr.exists_path
    obtain ⟨s, hs, hl, rfl⟩ := hp us hpath
    exact ⟨s, (hpath.runs hs).1, (hpath.runs hs).2, hl, rfl⟩

/-- A storage that a call of before writes to exists before and after the write. -/
theorem State.Informed.write_live {a : Choice} {e : Entry} (h : s.Informed cfg)
    (hs : s.step cfg t a = some s') (he : (s'.mem.log x)[(s.mem.log x).length]? = some e)
    (hc : e.call < s.mem.calls) : x ∈ s.mem.live ∧ x ∈ s'.mem.live := by
  obtain ⟨m', l', th', o', g', hm, rfl⟩ := State.step_move hs
  exact ⟨hm.written_live h.sound he hc, hm.log_live h.sound fun hl => by
    replace he : (m'.log x)[(s.mem.log x).length]? = some e := he
    simp [hl] at he⟩

/-- The call has replaced the object `c` in the storage by `c'` at one instant of the run, and it
has not written at any other. Every run between the states takes the step
(`State.Informed.replaces_iff`). -/
structure State.Replaces (cfg : Config) (s₁ s₂ : State T) (call : ℕ) (x : StorageId)
    (c c' : Content) (s s' : State T) : Prop where
  before : State.Run cfg s₁ s
  step : ∃ t a, s.step cfg t a = some s'
  after : State.Run cfg s' s₂
  old : s.mem.content (s.mem.ptr x) = c
  new : s'.mem.content (s'.mem.ptr x) = c'
  first : ∀ x' k, ¬ s.mem.WrittenBy call x' k
  once : ∃ k, s'.mem.WrittenBy call x k ∧ ∀ x' k', s₂.mem.WrittenBy call x' k' → x' = x ∧ k' = k

theorem State.Informed.replaces (h : s₁.Informed cfg) (hr : State.Run cfg s₁ s₂)
    (hcall : call < s₁.mem.calls) (hn : ∀ x' k, ¬ s₁.mem.WrittenBy call x' k)
    (hrep : s₂.mem.Replaced x call k c c') :
    ∃ s s', State.Replaces cfg s₁ s₂ call x c c' s s' := by
  obtain ⟨hpos, ⟨e, he, rfl⟩, hnew⟩ := hrep
  have hle : (s₁.mem.log x).length ≤ k :=
    Mem.length_le_of_not_writtenBy (h.log_prefix hr x) (hn x k) hnew
  obtain ⟨s, s', hr₁, ⟨a, -, ha⟩, hr₂, hl, hl', hlast, hsame⟩ := Guarded.Run.exists_write
    (fun s => s.mem.log x) hr h (fun s s' a hi _ hs => hi.log_step s s' a hs x) hle hnew
  have hs := h.run hr₁
  have hs' := hs.step ha
  have hrs : State.Run cfg s s₂ := Relation.ReflTransGen.head ⟨a, trivial, ha⟩ hr₂
  -- what is replaced stood last in the log
  have hold : (s.mem.log x)[k - 1]? = some e := (hsame (k - 1) (by omega)).trans he
  obtain ⟨hx, hx'⟩ := hs.write_live ha (hl.symm ▸ hlast) (hcall.trans_le (h.calls_le hr₁))
  have hunique : ∀ x' k', s₂.mem.WrittenBy call x' k' → x' = x ∧ k' = k := by
    rintro x' k' ⟨v, hv⟩
    exact (h.run hr).tickets.once hv hnew rfl
  refine ⟨s, s', hr₁, ⟨a.1, a.2, ha⟩, hr₂, (hs.current x hx).holds (by omega) hold,
    (hs'.current x hx').holds hl' hlast, Mem.not_writtenBy (hs.log_prefix hrs) hl.le hunique,
    k, ⟨c', hlast⟩, hunique⟩

/-- **Replaced at an instant of the given run**: every run between the two states takes the step in
which the call writes. -/
theorem State.Informed.replaces_iff (h : s₁.Informed cfg) (hcall : call < s₁.mem.calls) :
    (∃ s s', State.Replaces cfg s₁ s₂ call x c c' s s') ↔
      State.Run cfg s₁ s₂ ∧ ∀ us, State.Path cfg s₁ us s₂ →
        ∃ s s', [s, s'] <:+: us ∧ State.Replaces cfg s₁ s₂ call x c c' s s' := by
  constructor
  · rintro ⟨s, s', hr₁, ⟨t, a, ha⟩, hr₂, rfl, rfl, hfirst, k, hw, honce⟩
    have hr₁' : State.Run cfg s₁ s' := hr₁.tail ⟨(t, a), trivial, ha⟩
    refine ⟨hr₁'.trans hr₂, fun us hp => ?_⟩
    have hs := h.run hr₁
    obtain ⟨hs', hpre, hle⟩ := hs.log_step s s' (t, a) ha x
    obtain ⟨e, he⟩ := id hw
    -- the entry of the call is the new one
    have hk : (s.mem.log x).length ≤ k := Mem.length_le_of_not_writtenBy hpre (hfirst x k) he
    have hk' := (List.getElem?_eq_some_iff.mp he).1
    obtain rfl : k = (s.mem.log x).length := by omega
    obtain ⟨v, v', hv, hl, hl'⟩ := hp.exists_append (fun s => s.mem.log x) h
      (fun s s' a hi _ ha => hi.log_step s s' a ha x) (h.log_prefix hr₁ x) hpre (by omega)
      (hs'.log_prefix hr₂ x)
    obtain ⟨hrv, ⟨b, -, hb⟩, hrv'⟩ := hp.steps hv
    have hvs := h.run hrv
    have hvs' := hvs.step hb
    have hev : (v'.mem.log x)[(v.mem.log x).length]? = some ⟨e, call⟩ := by
      rw [show v'.mem.log x = s'.mem.log x from hl', show v.mem.log x = s.mem.log x from hl, he]
    obtain ⟨hx, hx'⟩ := hs.write_live ha he (hcall.trans_le (h.calls_le hr₁))
    obtain ⟨hxv, hxv'⟩ := hvs.write_live hb hev (hcall.trans_le (h.calls_le hrv))
    refine ⟨v, v', hv, hrv, ⟨b.1, b.2, hb⟩, hrv', (hs.current x hx).congr (hvs.current x hxv) hl,
      (hs'.current x hx').congr (hvs'.current x hxv') hl', ?_, _, ⟨e, hl ▸ hev⟩, honce⟩
    exact Mem.not_writtenBy (hvs.log_prefix (.head ⟨b, trivial, hb⟩ hrv')) (hl ▸ le_rfl) honce
  · rintro ⟨hr, hp⟩
    obtain ⟨us, hpath⟩ := hr.exists_path
    obtain ⟨s, s', -, hd⟩ := hp us hpath
    exact ⟨s, s', hd⟩

/-! ## Operations -/

/-- The operation that the thread has called in the state `s₀` returns `r` in the state `s₂`. -/
def State.Returns (cfg : Config) (s₀ : State T) (t : T) (o : Op) (s₂ : State T) (r : Ret) : Prop :=
  ∃ u c, (s₀.thread t).active = .user u ∧ (s₂.thread t).active = .ret c r ∧
    (s₂.thread t).conts = .user u (o.contract cfg s₀.mem) :: (s₀.thread t).conts

/-- The operation on a storage that the thread `t` has called in `s₀`, with `s₁` the state after the
call, and that has returned `r` in `s₂`, has taken effect on objects at one instant. -/
def Atomic (cfg : Config) (s₀ s₁ s₂ : State T) (t : T) : Op → Ret → Prop
  | .load x, r => ∃ g, r = .guard g none ∧ State.Held cfg s₁ s₂ x (s₂.mem.content g.ref.addr)
  | .loadFull x, r => ∃ v, r = .value v none ∧ State.Held cfg s₁ s₂ x (s₂.mem.content v.addr)
  | .store x p, r => ∃ k c s s', r = .unit (some k) ∧
      State.Replaces cfg s₁ s₂ s₀.mem.calls x c (s₀.mem.content p) s s'
  | .swap x p, r => ∃ v k s s', r = .value v (some k) ∧
      State.Replaces cfg s₁ s₂ s₀.mem.calls x (s₂.mem.content v.addr) (s₀.mem.content p) s s'
  | .compareAndSwap x current p, r => ∃ g w, r = .guard g w ∧
      ((g.ref.addr = current ∧ ∃ s s', State.Replaces cfg s₁ s₂ s₀.mem.calls x
          (s₂.mem.content g.ref.addr) (s₀.mem.content p) s s') ∨
        (g.ref.addr ≠ current ∧ State.Held cfg s₁ s₂ x (s₂.mem.content g.ref.addr) ∧
          ∀ x' k, ¬ s₂.mem.WrittenBy s₀.mem.calls x' k))
  | .rcu x, r =>
      (∃ v k u c' s s', r = .value v (some k) ∧ State.Run cfg s₁ u ∧
        u.Computes t ⟨x, s₀.mem.now x, s₀.mem.calls⟩ (s₂.mem.content v.addr) c' ∧
        State.Replaces cfg u s₂ s₀.mem.calls x (s₂.mem.content v.addr) c' s s') ∨
      (r = .panicked ∧ ∀ x' k, ¬ s₂.mem.WrittenBy s₀.mem.calls x' k)
  | _, _ => True

/-- A call that holds a ticket has not written. -/
theorem State.Informed.unwritten (h : s.Informed cfg) (hc : call ∈ (s.thread t).tickets) :
    call < s.mem.calls ∧ ∀ x k, ¬ s.mem.WrittenBy call x k := by
  have hmem : call ∈ s.tickets := Family.mem_total.mpr ⟨t, hc⟩
  refine ⟨h.tickets.issued _ hmem, ?_⟩
  rintro x k ⟨v, hv⟩
  exact (h.tickets.spent x _ (List.mem_of_getElem? hv)).2 hmem

/-- While the closure of an `rcu` runs, the call has not written yet. -/
theorem State.Informed.computes (h : s.Informed cfg) {f : RcuFrame} (hc : s.Computes t f c c') :
    f.call < s.mem.calls ∧ ∀ x k, ¬ s.mem.WrittenBy f.call x k := by
  obtain ⟨cur, new, w, ks, -, hks, -, -⟩ := hc
  refine h.unwritten (t := t) (Thread.mem_gather.mpr (.inr
    ⟨.rcuClosure f cur c, ?_, Multiset.mem_singleton_self _⟩))
  rw [hks]
  exact List.mem_cons_self

theorem State.Reachable.knows (h : s.Reachable cfg) : s.Knows (fun f _ => f.call < s.mem.calls)
    fun _ f _ _ => f.call < s.mem.calls := by
  refine (h.invariant (I := fun s => s.Informed cfg ∧ s.Knows (fun f _ => f.call < s.mem.calls)
    fun _ f _ _ => f.call < s.mem.calls) ⟨State.init_informed, ?_⟩ fun s s' t a hi hs => ?_).2
  · exact fun t => ⟨trivial, List.forall_mem_nil _⟩
  · obtain ⟨hi, hk⟩ := hi
    obtain ⟨m', l', th', o', g', hm, rfl⟩ := State.step_move hs
    have hle := (hm.ticketMove (hi.sound.typed t)).calls_le
    refine ⟨hi.move hm, hm.knows hi.sound hi.current hk (fun f _ hf => hf.trans_le hle)
      (fun _ f _ _ hf => hf.trans_le hle) (fun f hf hc => ?_) fun f c c' hf => ?_⟩
    · show f.call < m'.calls
      omega
    · exact (hi.computes hf).1.trans_le hle

/-- The closures of the call have been computed in the run from `s₁` on. -/
def State.ComputedIn (cfg : Config) (s₁ : State T) (call : ℕ) (s : State T) : T → Computed :=
  fun t f c c' => f.call = call → ∃ u, State.Run cfg s₁ u ∧ u.Computes t f c c' ∧
    State.Run cfg u s

/-- What is known of the objects after the call of an operation that may write. -/
theorem State.Reachable.knows_run {a : Choice} {u : UserKind} (h : s₀.Reachable cfg)
    (hu : (s₀.thread t).active = .user u) (hs : s₀.step cfg t a = some s₁)
    (hcall : s₀.mem.calls < s₁.mem.calls) (hr : State.Run cfg s₁ s₂) :
    s₂.Knows (fun f c => f.call = s₀.mem.calls → c = s₀.mem.content f.new.addr)
      (s₁.ComputedIn cfg s₀.mem.calls s₂) := by
  have h₁ : s₁.Reachable cfg := h.tail ⟨(t, a), trivial, hs⟩
  refine (Guarded.Run.invariant (I := fun s => (State.Run cfg s₁ s ∧ s.Informed cfg ∧
    s₀.mem.calls < s.mem.calls) ∧ s.Knows (fun f c => f.call = s₀.mem.calls →
      c = s₀.mem.content f.new.addr) (s₁.ComputedIn cfg s₀.mem.calls s)) hr
      ⟨⟨.refl, h₁.informed, hcall⟩, ?_⟩ ?_).2
  · obtain ⟨m', l', th', o', g', hm, rfl⟩ := State.step_move hs
    refine hm.knows h.informed.sound h.informed.current h.knows (fun f c hf he => ?_)
      (fun _ f _ _ hf he => ?_) (fun _ _ _ _ => rfl) ?_
    · exact absurd he hf.ne
    · exact absurd he hf.ne
    · rintro f c c' ⟨cur, new, w, ks, ha, -⟩
      rw [hu] at ha
      cases ha
  · rintro s s' b ⟨⟨hrs, hi, hlt⟩, hk⟩ - hb
    have hn : Guarded.Next (fun s (a : T × Choice) => s.step cfg a.1 a.2) (fun _ _ => True) s s' :=
      ⟨b, trivial, hb⟩
    obtain ⟨m', l', th', o', g', hm, rfl⟩ := State.step_move hb
    have hle := (hm.ticketMove (hi.sound.typed b.1)).calls_le
    refine ⟨⟨hrs.tail hn, hi.move hm, hlt.trans_le hle⟩, hm.knows hi.sound hi.current hk
      (fun _ _ hf => hf) (fun t' f c c' hf he => ?_) (fun f hf _ he => ?_) fun f c c' hf _ => ?_⟩
    · obtain ⟨v, hv, hc, hv'⟩ := hf he
      exact ⟨v, hv, hc, hv'.tail hn⟩
    · omega
    · exact ⟨s, hrs, hf, .single hn⟩

omit [Fintype T] [DecidableEq T] in
/-- What is known of the value when an operation returns. -/
theorem State.Returns.says {N : Given} {R : T → Computed} {o : Op} {r : Ret}
    (hret : s₀.Returns cfg t o s₂ r) (ht : (s₂.thread t).Typed cfg) (hk : s₂.Knows N R) :
    (s₂.thread t).active = .ret (o.contract cfg s₀.mem) r ∧
      (o.contract cfg s₀.mem).Meets cfg r ∧ Says N (R t) s₂.mem (o.contract cfg s₀.mem) r := by
  obtain ⟨u, c, -, ha, hks⟩ := hret
  have hl := ht.linked
  rw [ha, hks] at hl
  obtain rfl : c = o.contract cfg s₀.mem := hl.1
  have hm := ht.active
  have hs := (hk t).1
  rw [ha] at hm hs
  exact ⟨ha, hm.1, hs⟩

/-- **Under the locks every operation is atomic**, on objects and not only on addresses: in every
interleaving with reuse of addresses it takes effect at one instant between its call and its
return. -/
theorem State.Reachable.operations_atomic {o : Op} {r : Ret} (h : s₀.Reachable cfg)
    (hc : s₀.step cfg t (.op o) = some s₁) (hr : State.Run cfg s₁ s₂)
    (hret : s₀.Returns cfg t o s₂ r) : Atomic cfg s₀ s₁ s₂ t o r := by
  obtain ⟨u, -, hu, -⟩ := id hret
  have h₁ : s₁.Reachable cfg := h.tail ⟨(t, .op o), trivial, hc⟩
  have h₂ : s₂.Reachable cfg := Relation.ReflTransGen.trans h₁ hr
  have hi₂ := h₂.informed
  -- the number of the call is new
  have hnew : ∀ x' k, ¬ s₀.mem.WrittenBy s₀.mem.calls x' k := by
    rintro x' k ⟨v, hv⟩
    exact lt_irrefl _ (h.informed.tickets.spent x' _ (List.mem_of_getElem? hv)).1
  have hstep := hc
  simp only [State.step, hu] at hc
  cases o with
  | load x =>
    obtain ⟨-, ⟨g, rfl, -⟩, hs⟩ := hret.says (hi₂.sound.typed t) h₂.knows
    simp only [State.userOp, Option.ite_none_right_eq_some, Option.some.injEq] at hc
    obtain ⟨hx, rfl⟩ := hc
    exact ⟨g, rfl, h₁.informed.held hr hx hs⟩
  | loadFull x =>
    obtain ⟨-, ⟨v, rfl, -⟩, hs⟩ := hret.says (hi₂.sound.typed t) h₂.knows
    simp only [State.userOp, Option.ite_none_right_eq_some, Option.some.injEq] at hc
    obtain ⟨hx, rfl⟩ := hc
    exact ⟨v, rfl, h₁.informed.held hr hx hs⟩
  | store x p =>
    simp only [State.userOp, Option.ite_none_right_eq_some, Option.some.injEq] at hc
    obtain ⟨⟨hx, -⟩, rfl⟩ := hc
    obtain ⟨-, ⟨k, hk⟩, hs⟩ := hret.says (hi₂.sound.typed t)
      (h.knows_run hu hstep (Nat.lt_succ_self _) hr)
    obtain rfl : r = .unit (some k) := by simpa using hk
    obtain ⟨c, c', hc', hrep⟩ := hs
    obtain rfl := hc' rfl
    obtain ⟨s, s', hd⟩ := h₁.informed.replaces hr (Nat.lt_succ_self _) hnew hrep
    exact ⟨k, c, s, s', rfl, hd⟩
  | swap x p =>
    simp only [State.userOp, Option.ite_none_right_eq_some, Option.some.injEq] at hc
    obtain ⟨⟨hx, -⟩, rfl⟩ := hc
    obtain ⟨-, ⟨k, hk⟩, hs⟩ := hret.says (hi₂.sound.typed t)
      (h.knows_run hu hstep (Nat.lt_succ_self _) hr)
    obtain ⟨v, rfl⟩ : ∃ v, r = .value v (some k) := by simpa using hk
    obtain ⟨c', hc', hrep⟩ := hs
    obtain rfl := hc' rfl
    obtain ⟨s, s', hd⟩ := h₁.informed.replaces hr (Nat.lt_succ_self _) hnew hrep
    exact ⟨v, k, s, s', rfl, hd⟩
  | compareAndSwap x current p =>
    obtain ⟨ha, ⟨g, w, rfl, -, -, hw⟩, hs⟩ := hret.says (hi₂.sound.typed t) h₂.knows
    simp only [State.userOp, Option.ite_none_right_eq_some, Option.some.injEq] at hc
    obtain ⟨⟨hx, -⟩, rfl⟩ := hc
    refine ⟨g, w, rfl, ?_⟩
    cases w with
    | some k =>
      exact .inl ⟨hw.mp rfl, h₁.informed.replaces hr (Nat.lt_succ_self _) hnew hs⟩
    | none =>
      refine .inr ⟨fun he => by simpa using hw.mpr he, h₁.informed.held hr hx hs,
        (hi₂.unwritten (t := t) (Thread.mem_gather.mpr (.inl ?_))).2⟩
      rw [ha]
      exact Multiset.mem_singleton_self _
  | rcu x =>
    simp only [State.userOp, Option.ite_none_right_eq_some, Option.some.injEq] at hc
    obtain ⟨hx, rfl⟩ := hc
    obtain ⟨ha, hm, hs⟩ := hret.says (hi₂.sound.typed t)
      (h.knows_run hu hstep (Nat.lt_succ_self _) hr)
    rcases hm with ⟨v, k, rfl, -⟩ | rfl
    · obtain ⟨made, hcomp, hrep⟩ := hs
      obtain ⟨w, hw, hcw, hrw⟩ := hcomp rfl
      have hiw := h₁.informed.run hw
      obtain ⟨hlt, hn⟩ := hiw.computes hcw
      obtain ⟨s, s', hd⟩ := hiw.replaces hrw hlt hn hrep
      exact .inl ⟨v, k, w, made, s, s', rfl, hw, hcw, hd⟩
    · refine .inr ⟨rfl, (hi₂.unwritten (t := t) (Thread.mem_gather.mpr (.inl ?_))).2⟩
      rw [ha]
      exact Multiset.mem_singleton_self _
  | _ => trivial

end State

/-- The second attempt of the `rcu`, which replaces the value of the other thread. -/
theorem State.Reachable.operations_atomic_sample : Atomic .sample
    (Guarded.after lockSchedule_isSome 2) (Guarded.after lockSchedule_isSome 3)
    (Guarded.after lockSchedule_isSome 42) true (.rcu 0) (.value ⟨.arc, 3⟩ (some 2)) :=
  State.Reachable.operations_atomic (Guarded.after_reachable lockSchedule_isSome 2)
    (Guarded.after_step lockSchedule_isSome (k := 2) rfl)
    (Guarded.run_of_play (Guarded.after_add lockSchedule_isSome 3 39))
    ⟨.main, .rcu ⟨0, 0, 1⟩, by decide +kernel, by decide +kernel, by decide +kernel⟩

end ArcSwap.Locked
