import ArcSwap.Invariants.Tenancy

/-!
# The reservations of the writers

A `NodeReservation` is held from `reserve_writer` to its drop, and counted in `active_writers`.
Every reservation remembers the epoch of its node, the number of cooldowns that had been started
when it was taken. As long as a cooldown is ended only by a thread that has seen no writer in this
very cooldown, the reservations on a node that is not in cooldown are all of the present epoch.
-/

namespace ArcSwap

variable {cfg : Config} {tls : Tls} {m m' : Mem} {n : NodeId}

/-- A `NodeReservation`, with the epoch of the node when it was taken. -/
structure Reservation where
  node : NodeId
  taken : ℕ
  deriving DecidableEq, Repr

/-- The reservation that `pay_all` holds. -/
def PayPc.reservations (f : PayFrame) : PayPc → Multiset Reservation
  | .helpInUse who | .helpIdle _ who | .helpControl _ who | .helpAddr _ who _
  | .helpRecheck _ who _ | .helpTheirs _ who _ _ | .helpMine _ who _ _ _
  | .helpWrite _ who _ _ _ _ | .helpCas _ who _ _ _ _ | .helpTake _ who _ | .slot who _
  | .slotInc who _ | .unreserve who => {⟨who, f.reserved⟩}
  | .enter | .prepay | .head | .reserve _ | .next _ | .dropVal | .leave => 0

/-- The reservation that the active function holds. -/
def Active.reservations : Active → Multiset Reservation
  | .payAll f pc => pc.reservations f
  | .cooldown n (.swap e) | .cooldown n (.release e) => {⟨n, e⟩}
  | _ => 0

/-- The reservation that a suspended caller holds. -/
def Cont.reservations : Cont → Multiset Reservation
  | .helpReplacement f _ who _ | .helpRetry f _ who _ => {⟨who, f.reserved⟩}
  | _ => 0

/-- The reservations that suspended callers hold. -/
def contReservations (ks : List Cont) : Multiset Reservation := (ks.map Cont.reservations).sum

@[simp] theorem contReservations_nil : contReservations [] = 0 := rfl

@[simp] theorem contReservations_cons (k : Cont) (ks : List Cont) :
    contReservations (k :: ks) = k.reservations + contReservations ks := by simp [contReservations]

@[simp] theorem contReservations_append (ks ks' : List Cont) :
    contReservations (ks ++ ks') = contReservations ks + contReservations ks' := by
  simp [contReservations]

/-- The reservations that a thread holds. -/
def Thread.reservations (th : Thread) : Multiset Reservation :=
  th.active.reservations + contReservations th.conts

/-- The reservations after a clause, apart from those of the suspended callers. -/
def Out.reservations (o : Out) : Multiset Reservation :=
  o.active.reservations + contReservations o.calls

/-! ## What a step does to them -/

/-- What happens to the counts and the epochs while a thread that has held the reservations `x` goes
on with `x'`. -/
inductive ReservationMove (m : Mem) (x : Multiset Reservation) : Mem → Multiset Reservation → Prop
  | keep {m' : Mem} {x'} (hw : m'.activeWriters = m.activeWriters) (he : m'.epoch = m.epoch)
    (hx : x' ≤ x) : ReservationMove m x m' x'
  | reserve {n : NodeId} : ReservationMove m x (m.addWriter n) (x + {⟨n, m.epoch n⟩})
  | cool {n : NodeId} {x'} (hx : x' ≤ x) : ReservationMove m x (m.startCooldown n) x'
  | release {n : NodeId} {e : ℕ} {x'} (hx : x = x' + {⟨n, e⟩}) :
    ReservationMove m x (m.subWriter n) x'

theorem ReservationMove.frame {x x' : Multiset Reservation} (h : ReservationMove m x m' x')
    (r : Multiset Reservation) : ReservationMove m (x + r) m' (x' + r) := by
  cases h with
  | keep hw he hx => exact .keep hw he (Multiset.add_le_add_right hx)
  | reserve =>
    rw [add_right_comm]
    exact .reserve
  | cool hx => exact .cool (Multiset.add_le_add_right hx)
  | release hx => exact .release (by rw [hx, add_right_comm])

theorem Dispatched.reservations_le {f : PayFrame} {me who : NodeId} {c : ℕ} {a : Active}
    (h : Dispatched f me who c a) : a.reservations ≤ {⟨who, f.reserved⟩} := by
  cases h <;> simp [Active.reservations, PayPc.reservations]

theorem PayFrame.nextSlot_reservations (f : PayFrame) (who : NodeId) (i : ℕ) :
    (f.nextSlot who i).reservations = {⟨who, f.reserved⟩} := by
  unfold PayFrame.nextSlot
  split <;> rfl

theorem Clause.reservationMove {a : Active} {o : Out} (h : Clause cfg tls m a o) :
    ReservationMove m a.reservations o.mem o.reservations := by
  have hnone : ∀ {a : Active} {o : Out},
    o.reservations = 0 → o.mem.activeWriters = m.activeWriters →
      o.mem.epoch = m.epoch → ReservationMove m a.reservations o.mem o.reservations := by
    intro a o h₀ hw he
    exact .keep hw he (h₀ ▸ Multiset.zero_le _)
  cases h with
  | @cooldown n _ _ h =>
    cases h with
    | reserve =>
      have := ReservationMove.reserve (m := m) (x := 0) (n := n)
      simpa [Out.reservations, Active.reservations] using this
    | swap =>
      refine .cool ?_
      simp [Out.reservations, Active.reservations]
    | swapFail => exact .cool (by simp [Out.reservations, Active.reservations])
    | @release e =>
      have : ReservationMove m {⟨n, e⟩} (m.subWriter n) 0 := .release (zero_add _).symm
      simpa [Out.reservations, Active.reservations] using this
  | get h | intoInner h | dropGuard h | dec h | cas h => cases h <;> exact hnone rfl rfl rfl
  | swap => exact hnone rfl rfl rfl
  | load h => cases h <;> exact hnone rfl rfl rfl
  | @payAll f _ _ h =>
    cases h with
    | @reserve who =>
      have := ReservationMove.reserve (m := m) (x := 0) (n := who)
      simpa [Out.reservations, Active.reservations, PayPc.reservations] using this
    | @unreserve who =>
      have : ReservationMove m {⟨who, f.reserved⟩} (m.subWriter who) 0 := .release (zero_add _).symm
      simpa [Out.reservations, Active.reservations, PayPc.reservations] using this
    | helpControl h | helpChanged _ h =>
      refine .keep rfl rfl ?_
      simp only [Out.reservations, contReservations_nil, add_zero]
      exact h.reservations_le
    | slotOther | slotInc =>
      refine .keep rfl rfl (le_of_eq ?_)
      simp only [Out.reservations, PayFrame.nextSlot_reservations, contReservations_nil, add_zero]
      rfl
    | _ =>
      refine .keep rfl rfl ?_
      simp [Out.reservations, Active.reservations, PayPc.reservations, Cont.reservations]

theorem Resumed.reservations_le {q : Cont} {v : Ret} {o : Out} (h : Resumed cfg tls m q v o) :
    o.reservations ≤ q.reservations := by
  cases h with
  | helpRetry h => simpa [Out.reservations, Cont.reservations] using h.reservations_le
  | _ =>
    simp [Out.reservations, Active.reservations, PayPc.reservations, Cont.reservations,
      LoadFrame.begin, CasFrame.load]

section Move

variable {T : Type*} {s : State T} {t : T} {th' : Thread} {o' : Multiset Ref} {g' : Multiset Guard}

theorem Move.reservationMove (h : Move cfg s t m' th' o' g') :
    ReservationMove s.mem (s.thread t).reservations m' th'.reservations := by
  cases h with
  | @code o h =>
    have := h.reservationMove.frame (contReservations (s.thread t).conts)
    simpa only [Thread.reservations, Thread.after, Out.reservations, contReservations_append,
      add_assoc] using this
  | @resume c v q ks o ha hk h =>
    refine .keep (by rw [h.mem_eq]) (by rw [h.mem_eq]) ?_
    have := Multiset.add_le_add_right (u := contReservations ks) h.reservations_le
    simpa only [Thread.reservations, Thread.after, Out.reservations, contReservations_append, ha,
      hk, contReservations_cons, Active.reservations, zero_add, add_assoc] using this
  | receive ha hk =>
    refine .keep rfl rfl ?_
    simp [Thread.reservations, ha, hk, Active.reservations, Cont.reservations]
  | user ha h =>
    cases h with
    | alloc | clone | fromInner | new => exact .keep rfl rfl le_rfl
    | exitEmpty => exact .keep rfl rfl le_rfl
    | exit hk =>
      exact .keep rfl rfl (by simp [Thread.reservations, Active.reservations, Cont.reservations])
    | destroyed | result | panic =>
      exact .keep rfl rfl (by simp [Thread.reservations, Active.reservations])
    | _ =>
      refine .keep rfl rfl ?_
      simp [Thread.reservations, Thread.calling, ha, Active.reservations, Cont.reservations,
        PayPc.reservations, SwapFrame.invoke, CasFrame.invoke, RcuFrame.invoke, CasFrame.load]

/-- A node leaves the cooldown in the exchange of `check_cooldown` only. -/
theorem Clause.leaves {a : Active} {o : Out} (h : Clause cfg tls m a o)
    (hf : m.inUse m.nodeCount ≠ .cooldown) (hn : m.inUse n = .cooldown)
    (hn' : o.mem.inUse n ≠ .cooldown) : ∃ e, a = .get (.unuse n e) := by
  have hsame : ∀ {m' : Mem}, m'.inUse = m.inUse → m'.inUse n ≠ .cooldown → False := by
    intro m' he h
    rw [he] at h
    exact h hn
  cases h with
  | get h =>
    cases h with
    | @unuse k e hk =>
      by_cases hkn : n = k
      · exact ⟨e, by rw [hkn]⟩
      · simp [hkn, hn] at hn'
    | @claim k hk =>
      by_cases hkn : n = k
      · rw [hkn, hk] at hn
        cases hn
      · simp [hkn, hn] at hn'
    | create =>
      by_cases hkn : n = m.nodeCount
      · exact absurd (hkn ▸ hn) hf
      · simp [hkn, hn] at hn'
    | _ => exact (hsame rfl hn').elim
  | cooldown h =>
    cases h with
    | @swap e | @swapFail e =>
      simp only [Mem.startCooldown_inUse, Mem.setInUse_inUse, Function.update_apply] at hn'
      split at hn'
      · exact absurd rfl hn'
      · exact absurd hn hn'
    | _ => exact (hsame rfl hn').elim
  | swap => exact (hsame rfl hn').elim
  | load h | cas h | dec h | intoInner h | dropGuard h | payAll h =>
    cases h <;> exact (hsame rfl hn').elim

theorem Move.leaves (h : Move cfg s t m' th' o' g') (hf : s.mem.inUse s.mem.nodeCount ≠ .cooldown)
    (hn : s.mem.inUse n = .cooldown) (hn' : m'.inUse n ≠ .cooldown) :
    ∃ e, (s.thread t).active = .get (.unuse n e) := by
  cases h with
  | code h => exact h.leaves hf hn hn'
  | resume _ _ h => exact absurd hn (h.mem_eq ▸ hn')
  | receive => exact absurd hn hn'
  | user _ h => cases h <;> exact absurd hn hn'

/-- A thread comes to this exchange when it has seen no writer. -/
theorem Move.seen {e : ℕ} (h : Move cfg s t m' th' o' g') (ha' : th'.active = .get (.unuse n e)) :
    m' = s.mem ∧ e = s.mem.epoch n ∧ s.mem.activeWriters n = 0 := by
  cases h with
  | @code o h =>
    have ha : o.active = .get (.unuse n e) := ha'
    generalize (s.thread t).active = a at h
    cases h with
    | get h =>
      cases h with
      | writersZero h =>
        cases ha
        exact ⟨rfl, rfl, h⟩
      | _ => cases ha
    | cooldown h | cas h | dec h | intoInner h | dropGuard h => cases h <;> cases ha
    | swap => cases ha
    | load h =>
      cases h with
      | enter | leave => simp [LoadFrame.begin, LoadFrame.result] at ha
      | _ => cases ha
    | payAll h =>
      cases h with
      | helpControl h | helpChanged _ h => cases h <;> cases ha
      | slotOther | slotInc =>
        simp only [PayFrame.nextSlot] at ha
        split at ha <;> cases ha
      | _ => cases ha
  | @resume c v q ks o _ _ h =>
    have ha : o.active = .get (.unuse n e) := ha'
    cases h with
    | helpRetry h => cases h <;> cases ha
    | _ => cases ha
  | receive => cases ha'
  | user ha h =>
    cases h with
    | alloc | clone | fromInner | new | exitEmpty =>
      exfalso
      have := ha.symm.trans ha'
      cases this
    | _ => cases ha'

/-! ## What a writer has read -/

/-- The control of `who` has been read under the reservation. -/
def PayFrame.ReadOk (m : Mem) (f : PayFrame) (who : NodeId) : Prop :=
  f.reserved ≤ f.readAt ∧ f.readAt ≤ m.epoch who

/-- What the active function knows of the control has been read under its reservation. -/
def Active.ReadOk (m : Mem) : Active → Prop
  | .payAll f (.helpAddr _ who _) | .payAll f (.helpRecheck _ who _)
  | .payAll f (.helpTheirs _ who _ _) | .payAll f (.helpMine _ who _ _ _)
  | .payAll f (.helpWrite _ who _ _ _ _) | .payAll f (.helpCas _ who _ _ _ _) => f.ReadOk m who
  | _ => True

/-- What a suspended caller knows of the control has been read under its reservation. -/
def Cont.ReadOk (m : Mem) : Cont → Prop
  | .helpReplacement f _ who _ | .helpRetry f _ who _ => f.ReadOk m who
  | _ => True

/-- What a thread knows of a control has been read under its reservation. -/
structure Thread.ReadOk (m : Mem) (th : Thread) : Prop where
  active : th.active.ReadOk m
  conts : ∀ q ∈ th.conts, q.ReadOk m

theorem PayFrame.ReadOk.mono {f : PayFrame} {who : NodeId} (h : f.ReadOk m who)
    (he : m.epoch ≤ m'.epoch) : f.ReadOk m' who := ⟨h.1, le_trans h.2 (he who)⟩

theorem Active.ReadOk.mono {a : Active} (h : a.ReadOk m) (he : m.epoch ≤ m'.epoch) :
    a.ReadOk m' := by
  cases a with
  | payAll f pc =>
    cases pc with
    | helpAddr | helpRecheck | helpTheirs | helpMine | helpWrite | helpCas =>
      exact PayFrame.ReadOk.mono h he
    | _ => trivial
  | _ => trivial

theorem Cont.ReadOk.mono {q : Cont} (h : q.ReadOk m) (he : m.epoch ≤ m'.epoch) : q.ReadOk m' := by
  cases q with
  | helpReplacement | helpRetry => exact PayFrame.ReadOk.mono h he
  | _ => trivial

theorem Thread.ReadOk.mono {th : Thread} (h : th.ReadOk m) (he : m.epoch ≤ m'.epoch) :
    th.ReadOk m' := ⟨h.active.mono he, fun q hq => (h.conts q hq).mono he⟩

theorem Dispatched.readOk {f : PayFrame} {me who : NodeId} {c : ℕ} {a : Active}
    (h : Dispatched f me who c a) (hf : f.ReadOk m who) : a.ReadOk m := by
  cases h with
  | gen => exact hf
  | pass | myself | invalid => trivial

theorem PayFrame.nextSlot_readOk (f : PayFrame) (who : NodeId) (i : ℕ) :
    (f.nextSlot who i).ReadOk m := by
  unfold PayFrame.nextSlot
  split <;> trivial

theorem PayClause.readOk {f : PayFrame} {pc : PayPc} {o : Out} (h : PayClause tls m f pc o)
    (hr : ∀ r ∈ pc.reservations f, r.taken ≤ m.epoch r.node)
    (ha : (Active.payAll f pc).ReadOk m) :
    o.active.ReadOk o.mem ∧ ∀ q ∈ o.calls, q.ReadOk o.mem := by
  cases h with
  | helpControl h | helpChanged _ h =>
    exact ⟨h.readOk ⟨hr _ (Multiset.mem_singleton_self _), le_rfl⟩, List.forall_mem_nil _⟩
  | helpLate =>
    refine ⟨trivial, ?_⟩
    simpa [Cont.ReadOk] using ⟨hr _ (Multiset.mem_singleton_self _), le_rfl⟩
  | @helpAddr me who =>
    have hf : f.ReadOk m who := ha
    exact ⟨trivial, by simpa [Cont.ReadOk] using ⟨hf.1, hf.2⟩⟩
  | slotOther | slotInc => exact ⟨PayFrame.nextSlot_readOk _ _ _, List.forall_mem_nil _⟩
  | helpAddrOther | helpTheirs | helpMine | helpWrite => exact ⟨ha, List.forall_mem_nil _⟩
  | _ =>
    first
    | exact ⟨trivial, List.forall_mem_nil _⟩
    | exact ⟨trivial, by simp [Cont.ReadOk]⟩

theorem Resumed.readOk {q : Cont} {v : Ret} {o : Out} (h : Resumed cfg tls m q v o)
    (hq : q.ReadOk m) : o.active.ReadOk m ∧ ∀ q ∈ o.calls, q.ReadOk m := by
  cases h with
  | helpRetry h => exact ⟨h.readOk hq, List.forall_mem_nil _⟩
  | helpReplacement => exact ⟨hq, List.forall_mem_nil _⟩
  | _ =>
    first
    | exact ⟨trivial, List.forall_mem_nil _⟩
    | exact ⟨trivial, by simp [Cont.ReadOk]⟩

theorem ReservationMove.epoch_le {x x' : Multiset Reservation} (h : ReservationMove m x m' x') :
    m.epoch ≤ m'.epoch := by
  cases h with
  | keep _ he => exact he.ge
  | reserve | release => exact le_rfl
  | @cool n =>
    intro k
    simp only [Mem.startCooldown_epoch, Function.update_apply]
    split
    · rename_i hk
      rw [hk]
      exact Nat.le_succ _
    · exact le_rfl

theorem Move.readOk (h : Move cfg s t m' th' o' g') (hs : (s.thread t).ReadOk s.mem)
    (hr : ∀ r ∈ (s.thread t).reservations, r.taken ≤ s.mem.epoch r.node) : th'.ReadOk m' := by
  have he := h.reservationMove.epoch_le
  obtain ⟨ha, hk⟩ := h.frames (A := fun a => a.ReadOk m') (K := fun q => q.ReadOk m')
    (fun q hq => (hs.conts q hq).mono he)
    (fun o ho hcl => by
      subst ho
      have ha := hs.active
      have hra : ∀ r ∈ (s.thread t).active.reservations, r.taken ≤ s.mem.epoch r.node :=
        fun r hr' => hr r (Multiset.mem_add.mpr (.inl hr'))
      generalize (s.thread t).active = a at hcl ha hra
      cases hcl with
      | payAll h => exact h.readOk hra ha
      | load h =>
        cases h with
        | enter => exact ⟨by simp only [LoadFrame.begin]; trivial, List.forall_mem_nil _⟩
        | _ =>
          first
          | exact ⟨trivial, List.forall_mem_nil _⟩
          | exact ⟨trivial, by simp [Cont.ReadOk]⟩
      | swap => exact ⟨trivial, by simp [SwapFrame.exec, Cont.ReadOk]⟩
      | get h | cooldown h | cas h | dec h | intoInner h | dropGuard h =>
        cases h <;> first
          | exact ⟨trivial, List.forall_mem_nil _⟩
          | exact ⟨trivial, by simp [Cont.ReadOk]⟩)
    (fun c v q o ho _ hq hres => by
      subst ho
      have hq' : q ∈ (s.thread t).conts := List.mem_of_mem_head? hq
      rw [hres.mem_eq]
      exact hres.readOk (hs.conts q hq'))
    (fun _ => trivial)
    (fun u hu huser => by
      have hc : ∀ q ∈ (s.thread t).conts, q.ReadOk m' := fun q hq => (hs.conts q hq).mono he
      cases huser with
      | alloc | clone | fromInner | new | exitEmpty =>
        refine ⟨?_, hc⟩
        rw [hu]
        trivial
      | exit => exact ⟨trivial, by simp [Cont.ReadOk]⟩
      | destroyed | result | panic => exact ⟨trivial, hc⟩
      | _ =>
        refine ⟨trivial, fun q hq => ?_⟩
        rcases List.mem_append.mp hq with hq | hq
        · simp only [CasFrame.invoke, SwapFrame.invoke, RcuFrame.invoke, List.mem_singleton,
            List.not_mem_nil] at hq
          try (subst hq; trivial)
        · rcases List.mem_cons.mp hq with rfl | hq
          · trivial
          · exact hc q hq)
  exact ⟨ha, hk⟩

end Move

/-! ## The reservations in a run -/

/-- A reservation has been held before, or it has just been taken. -/
theorem ReservationMove.mem {x x' : Multiset Reservation} {r : Reservation}
    (h : ReservationMove m x m' x') (hr : r ∈ x') :
    r ∈ x ∨ (r.taken = m.epoch r.node ∧ m'.epoch = m.epoch) := by
  cases h with
  | keep _ _ hx | cool hx => exact .inl (Multiset.mem_of_le hx hr)
  | reserve =>
    rcases Multiset.mem_add.mp hr with hr | hr
    · exact .inl hr
    · rw [Multiset.mem_singleton] at hr
      subst hr
      exact .inr ⟨rfl, rfl⟩
  | release hx =>
    rw [hx]
    exact .inl (Multiset.mem_add.mpr (.inl hr))

/-- The counts of the writers keep covering the reservations. -/
theorem ReservationMove.writers {x x' : Multiset Reservation} (h : ReservationMove m x m' x')
    (hw : ∀ n, (x.map Reservation.node).count n ≤ m.activeWriters n) (n : NodeId) :
    (x'.map Reservation.node).count n ≤ m'.activeWriters n := by
  have hle : ∀ {y}, y ≤ x → (y.map Reservation.node).count n ≤ m.activeWriters n := by
    intro y hy
    exact le_trans (Multiset.count_le_of_le n (Multiset.map_le_map hy)) (hw n)
  cases h with
  | keep he _ hx =>
    rw [he]
    exact hle hx
  | cool hx => exact hle hx
  | @reserve k =>
    have := hw n
    simp only [Multiset.map_add, Multiset.map_singleton, Multiset.count_add,
      Multiset.count_singleton, Mem.addWriter_activeWriters, Function.update_apply]
    split
    · rename_i hk
      subst hk
      omega
    · omega
  | @release k e _ hx =>
    have := hw n
    rw [hx, Multiset.map_add, Multiset.map_singleton, Multiset.count_add,
      Multiset.count_singleton] at this
    simp only [Mem.subWriter_activeWriters, Function.update_apply]
    split
    · rename_i hk
      subst hk
      rw [if_pos rfl] at this
      omega
    · omega

/-- Only the reservations of the present epoch survive in a node that is not in cooldown, unless the
node has just left it. -/
theorem ReservationMove.current {x x' : Multiset Reservation} {r : Reservation}
    (h : ReservationMove m x m' x') (hu : m'.inUse r.node ≠ .cooldown) :
    m'.epoch r.node = m.epoch r.node := by
  cases h with
  | keep _ he => rw [he]
  | reserve | release => rfl
  | @cool n =>
    by_cases hn : r.node = n
    · simp [hn] at hu
    · simp [hn]

section Run

variable {T : Type*} [Fintype T] {s s' : State T} {t : T}

/-- All reservations that are held. -/
def State.reservations (s : State T) : Multiset Reservation :=
  Family.total Thread.reservations s.thread

/-- The reservations are counted, they are of past epochs, and those on a node that is not in
cooldown are of the present epoch. -/
structure State.Reserved (s : State T) : Prop where
  writers : ∀ n, (s.reservations.map Reservation.node).count n ≤ s.mem.activeWriters n
  past : ∀ r ∈ s.reservations, r.taken ≤ s.mem.epoch r.node
  /-- Since a thread has seen no writer, all reservations that it has found are gone. -/
  seen : ∀ t n e, (s.thread t).active = .get (.unuse n e) → e ≤ s.mem.epoch n ∧
    ∀ r ∈ s.reservations, r.node = n → e ≤ r.taken
  current : ∀ r ∈ s.reservations, s.mem.inUse r.node ≠ .cooldown → r.taken = s.mem.epoch r.node
  reads : ∀ t, (s.thread t).ReadOk s.mem

/-- The exchange of `check_cooldown` succeeds only in the cooldown in which no writer was seen. -/
def State.InTime (s : State T) (t : T) : Prop :=
  ∀ n e, (s.thread t).active = .get (.unuse n e) → s.mem.inUse n = .cooldown → e = s.mem.epoch n

theorem State.init_reserved : (State.init : State T).Reserved := by
  have h₀ : (State.init : State T).reservations = 0 := Family.total_eq_zero fun _ => rfl
  constructor
  case writers =>
    intro n
    rw [h₀]
    exact Nat.zero_le _
  case past | current =>
    intro r hr
    rw [h₀] at hr
    exact absurd hr (Multiset.notMem_zero r)
  case seen => simp [State.init, Thread.idle]
  case reads => exact fun _ => ⟨trivial, List.forall_mem_nil _⟩

variable [DecidableEq T]

/-- **The reservations stay in their epoch** as long as cooldowns are ended in time. -/
theorem State.Reserved.step {c : Choice} (h : s.Reserved) (ht : s.Tenanted cfg)
    (hp : s.InTime t) (hs : s.step cfg t c = some s') : s'.Reserved := by
  obtain ⟨m', th', o', g', hm, rfl⟩ := State.step_move hs
  have hmove : ReservationMove s.mem s.reservations m' (s.moved t m' th' o' g').reservations := by
    have := hm.reservationMove.frame (Family.rest Thread.reservations s.thread t)
    rwa [← Family.total_eq, ← Family.total_update] at this
  have hwriters := hmove.writers h.writers
  refine
    { writers := hwriters
      past := fun r hr => ?_
      seen := fun t' n e ha => ?_
      current := fun r hr hu => ?_
      reads := State.moved_forall (hm.readOk (h.reads t) fun r hr => h.past r ?_)
        fun t' _ => (h.reads t').mono hmove.epoch_le }
  case refine_1 =>
    rcases hmove.mem hr with hr | ⟨he, -⟩
    · exact le_trans (h.past r hr) (hmove.epoch_le r.node)
    · exact le_of_eq_of_le he (hmove.epoch_le r.node)
  case refine_2 =>
    by_cases htt : t' = t
    · subst htt
      obtain ⟨rfl, rfl, hz⟩ := hm.seen (by simpa [State.moved] using ha)
      refine ⟨le_rfl, fun r hr hn => ?_⟩
      have hcount := hwriters n
      rw [hz, Nat.le_zero, Multiset.count_eq_zero] at hcount
      exact absurd (Multiset.mem_map.mpr ⟨r, hr, hn⟩) hcount
    · obtain ⟨he, hr'⟩ := h.seen t' n e (by simpa [State.moved, htt] using ha)
      refine ⟨le_trans he (hmove.epoch_le n), fun r hr hn => ?_⟩
      rcases hmove.mem hr with hr | ⟨hnew, -⟩
      · exact hr' r hr hn
      · rwa [hnew, hn]
  case refine_3 =>
    have hep : m'.epoch r.node = s.mem.epoch r.node := hmove.current hu
    rw [show (s.moved t m' th' o' g').mem.epoch r.node = s.mem.epoch r.node from hep]
    rcases hmove.mem hr with hr | ⟨hnew, -⟩
    · by_cases hc : s.mem.inUse r.node = .cooldown
      · -- the node leaves the cooldown in this step
        obtain ⟨e, ha⟩ := hm.leaves (by rw [ht.owned.fresh _ le_rfl]; simp) hc hu
        have he := hp r.node e ha hc
        have hle := (h.seen t r.node e ha).2 r hr rfl
        exact le_antisymm (h.past r hr) (he ▸ hle)
      · exact h.current r hr hc
    · exact hnew
  case refine_4 =>
    exact Family.mem_total.mpr ⟨t, hr⟩

/-- **In every run** whose cooldowns are ended in time. -/
theorem State.Reachable.reserved (h : s.Reachable cfg State.InTime) : s.Reserved := by
  refine (h.invariant (I := fun s => s.Tenanted cfg ∧ s.Reserved)
    ⟨State.init_tenanted, State.init_reserved⟩ ?_).2
  rintro s s' t c ⟨ht, hi⟩ hp hs
  exact ⟨ht.step hs, hi.step ht hp hs⟩

end Run

end ArcSwap
