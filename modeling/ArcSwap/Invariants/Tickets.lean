import ArcSwap.Invariants.Windows

/-!
# Every call writes at most once

The calls that may write to a storage are numbered, and each entry of a log bears the number of the
call that has written it. A call that has not written yet holds its number as a ticket; the ticket
is spent when it writes.
-/

namespace ArcSwap

variable {cfg : Config} {tls : Tls} {m m' : Mem}

/-! ## Who holds a ticket -/

/-- The tickets that the active function holds. -/
def Active.tickets : Active → Multiset ℕ
  | .swap f => {f.call}
  | .cas f _ => {f.call}
  | .ret (.cas f) (.guard _ none) => {f.call}
  | .ret (.rcu f) .panicked => {f.call}
  | _ => 0

/-- The tickets that a suspended caller holds. -/
def Cont.tickets : Cont → Multiset ℕ
  | .casLoaded f | .casRetry f | .casRefused f _ => {f.call}
  | .rcuLoaded f | .rcuClosure f _ _ | .rcuAgain f _ | .rcuUnwind f => {f.call}
  | _ => 0

/-- The tickets that suspended callers hold. -/
def contTickets (ks : List Cont) : Multiset ℕ := (ks.map Cont.tickets).sum

@[simp] theorem contTickets_nil : contTickets [] = 0 := rfl

@[simp] theorem contTickets_cons (k : Cont) (ks : List Cont) :
    contTickets (k :: ks) = k.tickets + contTickets ks := by simp [contTickets]

@[simp] theorem contTickets_append (ks ks' : List Cont) :
    contTickets (ks ++ ks') = contTickets ks + contTickets ks' := by simp [contTickets]

/-- The tickets that a thread holds. -/
def Thread.tickets (th : Thread) : Multiset ℕ := th.active.tickets + contTickets th.conts

/-- The tickets after a clause, apart from those of the suspended callers. -/
def Out.tickets (o : Out) : Multiset ℕ := o.active.tickets + contTickets o.calls

/-! ## What a step does to them -/

/-- The log of one storage has grown by an entry with the number `c`. -/
def Appends (log log' : StorageId → List Entry) (c : ℕ) : Prop :=
  ∃ x v, log' = Function.update log x (log x ++ [⟨v, c⟩])

/-- What a step of a thread that holds the tickets `x` does. -/
inductive TicketMove (calls : ℕ) (log : StorageId → List Entry) (x : Multiset ℕ) :
    ℕ → (StorageId → List Entry) → Multiset ℕ → Prop
  | keep {x'} (hx : x' ≤ x) : TicketMove calls log x calls log x'
  | issue {x'} (hx : x' ≤ x + {calls}) : TicketMove calls log x (calls + 1) log x'
  | spend {c x' log'} (hx : x = x' + {c}) (hl : Appends log log' c) :
    TicketMove calls log x calls log' x'
  | stamp {log'} (hl : Appends log log' calls) : TicketMove calls log x (calls + 1) log' x

theorem TicketMove.frame {calls calls' : ℕ} {log log' : StorageId → List Entry}
    {x x' : Multiset ℕ} (h : TicketMove calls log x calls' log' x') (r : Multiset ℕ) :
    TicketMove calls log (x + r) calls' log' (x' + r) := by
  cases h with
  | keep hx => exact .keep (Multiset.add_le_add_right hx)
  | issue hx => exact .issue (by rw [add_right_comm]; exact Multiset.add_le_add_right hx)
  | spend hx hl => exact .spend (by rw [hx, add_right_comm]) hl
  | stamp hl => exact .stamp hl

/-- A ticket exists once, it has not been spent, and no number stands in the logs twice. -/
structure Ticketed (calls : ℕ) (log : StorageId → List Entry) (x : Multiset ℕ) : Prop where
  nodup : x.Nodup
  issued : ∀ c ∈ x, c < calls
  spent : ∀ s, ∀ e ∈ log s, e.call < calls ∧ e.call ∉ x
  once : ∀ {s s' : StorageId} {i j : ℕ} {e e' : Entry},
    (log s)[i]? = some e → (log s')[j]? = some e' → e.call = e'.call →
    s = s' ∧ i = j

theorem Ticketed.mono {calls : ℕ} {log : StorageId → List Entry} {x x' : Multiset ℕ}
    (h : Ticketed calls log x) (hx : x' ≤ x) : Ticketed calls log x' where
  nodup := Multiset.nodup_of_le hx h.nodup
  issued c hc := h.issued c (Multiset.mem_of_le hx hc)
  spent s e he := ⟨(h.spent s e he).1, fun hc => (h.spent s e he).2 (Multiset.mem_of_le hx hc)⟩
  once := h.once

/-- A new number is issued. -/
theorem Ticketed.issue {calls : ℕ} {log : StorageId → List Entry} {x : Multiset ℕ}
    (h : Ticketed calls log x) : Ticketed (calls + 1) log (x + {calls}) where
  nodup := by
    rw [add_comm, Multiset.singleton_add, Multiset.nodup_cons]
    exact ⟨fun hc => absurd (h.issued _ hc) (lt_irrefl _), h.nodup⟩
  issued c hc := by
    rcases Multiset.mem_add.mp hc with hc | hc
    · exact Nat.lt_succ_of_lt (h.issued c hc)
    · rw [Multiset.mem_singleton.mp hc]
      exact Nat.lt_succ_self _
  spent s e he := by
    obtain ⟨h₁, h₂⟩ := h.spent s e he
    refine ⟨Nat.lt_succ_of_lt h₁, fun hc => ?_⟩
    rcases Multiset.mem_add.mp hc with hc | hc
    · exact h₂ hc
    · exact absurd (Multiset.mem_singleton.mp hc) h₁.ne
  once := h.once

/-- An entry of the new log is an old one, or the one that has been appended. -/
theorem Appends.cases {log log' : StorageId → List Entry} {c : ℕ} (hl : Appends log log' c) :
    ∃ y, ∀ {s i e}, (log' s)[i]? = some e →
      (log s)[i]? = some e ∨ (s = y ∧ i = (log y).length ∧ e.call = c) := by
  obtain ⟨y, v, rfl⟩ := hl
  refine ⟨y, fun {s i e} he => ?_⟩
  by_cases hs : s = y
  · subst hs
    rw [Function.update_self] at he
    rcases Nat.lt_or_ge i (log s).length with hi | hi
    · left
      rwa [List.getElem?_append_left hi] at he
    · right
      rw [List.getElem?_append_right hi] at he
      obtain ⟨hi', rfl⟩ := List.getElem?_eq_some_iff.mp he
      have : i - (log s).length < 1 := by simpa using hi'
      exact ⟨rfl, by omega, by simp⟩
  · left
    rwa [Function.update_of_ne hs] at he

/-- A ticket is spent. -/
theorem Ticketed.spend {calls c : ℕ} {log log' : StorageId → List Entry} {x : Multiset ℕ}
    (h : Ticketed calls log (x + {c})) (hl : Appends log log' c) : Ticketed calls log' x where
  nodup := Multiset.nodup_of_le (Multiset.le_add_right _ _) h.nodup
  issued c' hc := h.issued c' (Multiset.mem_add.mpr (.inl hc))
  spent s e he := by
    obtain ⟨y, hy⟩ := hl.cases
    obtain ⟨i, hi⟩ := List.mem_iff_getElem?.mp he
    rcases hy hi with hi | ⟨-, -, rfl⟩
    · obtain ⟨h₁, h₂⟩ := h.spent s e (List.mem_of_getElem? hi)
      exact ⟨h₁, fun hc => h₂ (Multiset.mem_add.mpr (.inl hc))⟩
    · refine ⟨h.issued _ (by simp), fun hc => ?_⟩
      have hn := h.nodup
      rw [add_comm, Multiset.singleton_add, Multiset.nodup_cons] at hn
      exact hn.1 hc
  once := by
    intro s s' i j e e' he he' hc
    obtain ⟨y, hy⟩ := hl.cases
    have hold : ∀ {s : StorageId} {i : ℕ} {e : Entry}, (log s)[i]? = some e → e.call ≠ c := by
      rintro s i e he rfl
      exact (h.spent s e (List.mem_of_getElem? he)).2 (by simp)
    rcases hy he with he | ⟨rfl, rfl, h₁⟩ <;> rcases hy he' with he' | ⟨rfl, rfl, h₂⟩
    · exact h.once he he' hc
    · exact absurd (hc.trans h₂) (hold he)
    · exact absurd (hc.symm.trans h₁) (hold he')
    · exact ⟨rfl, rfl⟩

theorem Ticketed.move {calls calls' : ℕ} {log log' : StorageId → List Entry}
    {x x' : Multiset ℕ} (h : Ticketed calls log x) (hm : TicketMove calls log x calls' log' x') :
    Ticketed calls' log' x' := by
  cases hm with
  | keep hx => exact h.mono hx
  | issue hx => exact h.issue.mono hx
  | spend hx hl => exact (hx ▸ h).spend hl
  | stamp hl => exact h.issue.spend hl

/-! ## One step -/

theorem PayFrame.nextSlot_tickets (f : PayFrame) (who : NodeId) (i : ℕ) :
    (f.nextSlot who i).tickets = 0 := by
  unfold PayFrame.nextSlot
  split <;> rfl

theorem Dispatched.tickets {f : PayFrame} {me who : NodeId} {c : ℕ} {a : Active}
    (h : Dispatched f me who c a) : a.tickets = 0 := by
  cases h <;> rfl

theorem Clause.ticketMove {a : Active} {o : Out} (h : Clause cfg tls m a o) :
    TicketMove m.calls m.log a.tickets o.mem.calls o.mem.log o.tickets := by
  cases h with
  | get h | cooldown h | dec h | intoInner h | dropGuard h =>
    cases h <;> exact .keep (Multiset.zero_le _)
  | swap => exact .spend rfl ⟨_, _, rfl⟩
  | cas h =>
    cases h with
    | swapped => exact .spend rfl ⟨_, _, rfl⟩
    | late => exact .keep le_rfl
  | load h => cases h <;> exact .keep (Multiset.zero_le _)
  | payAll h =>
    cases h with
    | helpControl h | helpChanged _ h => exact .keep (by simp [Out.tickets, h.tickets])
    | slotOther | slotInc => exact .keep (by simp [Out.tickets, PayFrame.nextSlot_tickets])
    | _ => exact .keep (Multiset.zero_le _)

theorem Resumed.tickets_le {k : Cont} {r : Ret} {o : Out} (h : Resumed cfg tls m k r o)
    (hok : k.Ok cfg tls) (hm : k.expects.Meets cfg r) :
    o.tickets ≤ (Active.ret k.expects r).tickets + k.tickets := by
  cases h with
  | helpRetry h => simp [Out.tickets, h.tickets]
  | casLoaded | casRefuse | casRetry | casRefused => exact Multiset.le_add_left _ _
  | rcuLoaded | rcuClosure | rcuPanicked | rcuAgain | rcuUnwind => exact Multiset.le_add_left _ _
  | @rcuRetry f cur given g prev wrote hne =>
    -- the exchange has not taken place, and the ticket comes back
    obtain ⟨-, -, hc, hcur⟩ := hok
    obtain ⟨g', w, hr, -, -, hw⟩ := hm
    obtain ⟨rfl, rfl⟩ := Ret.guard.inj hr
    have hnone : wrote = none := by
      rw [← Option.not_isSome_iff_eq_none, hw, hcur]
      exact Ne.symm hne
    subst hnone
    have he : (Active.ret (Cont.rcuSwapped f cur given g).expects (.guard prev none)).tickets =
        {f.call} := by
      rw [← hc]
      rfl
    rw [he]
    exact Multiset.le_add_right _ _
  | _ => exact Multiset.zero_le _

section Run

variable {T : Type*} {s s' : State T} {t : T} {th' : Thread} {o' : Multiset Ref}
  {g' : Multiset Guard}

theorem Thread.calling_tickets (th : Thread) (u : UserKind) (c : Call) :
    (th.calling u c).tickets = c.active.tickets + contTickets c.calls + contTickets th.conts := by
  simp [Thread.tickets, Thread.calling, Cont.tickets, add_assoc]

theorem UserClause.ticketMove {u : UserKind} (h : UserClause cfg s t u m' th' o' g')
    (ha : (s.thread t).active = .user u) :
    TicketMove s.mem.calls s.mem.log (s.thread t).tickets m'.calls m'.log th'.tickets := by
  have h₀ : (s.thread t).tickets = contTickets (s.thread t).conts := by
    simp [Thread.tickets, ha, Active.tickets]
  cases h with
  | alloc | clone | fromInner | exitEmpty => exact .keep le_rfl
  | new => exact .stamp ⟨_, _, rfl⟩
  | exit hk => exact .keep (by simp [Thread.tickets, Active.tickets, Cont.tickets])
  | destroyed | result | panic => exact .keep (by simp [Thread.tickets, ha, Active.tickets])
  | swap | compareAndSwap | rcu =>
    refine .issue (le_of_eq ?_)
    rw [h₀, Thread.calling_tickets, add_comm]
    simp [SwapFrame.invoke, CasFrame.invoke, RcuFrame.invoke, CasFrame.load, Active.tickets,
      Cont.tickets]
  | _ =>
    refine .keep (le_of_eq ?_)
    rw [h₀, Thread.calling_tickets]
    simp [Active.tickets, Cont.tickets]

theorem Move.ticketMove (h : Move cfg s t m' th' o' g') (ht : (s.thread t).Typed cfg) :
    TicketMove s.mem.calls s.mem.log (s.thread t).tickets m'.calls m'.log th'.tickets := by
  cases h with
  | code h =>
    simpa only [Thread.tickets, Thread.after, Out.tickets, contTickets_append, add_assoc] using
      h.ticketMove.frame (contTickets (s.thread t).conts)
  | @resume c r k ks o ha hk h =>
    have hl : c = k.expects := by
      have := ht.linked
      rw [ha, hk] at this
      exact this.1
    have hm := ht.active
    rw [ha] at hm
    have hle := h.tickets_le (ht.conts k (by simp [hk])) (hl ▸ hm)
    rw [h.mem_eq]
    refine .keep ?_
    rw [Thread.tickets, Thread.tickets, ha, hk, hl]
    simpa only [Thread.after, Out.tickets, contTickets_append, contTickets_cons, add_assoc] using
      Multiset.add_le_add_right (u := contTickets ks) hle
  | receive ha hk =>
    exact .keep (by simp [Thread.tickets, hk, Active.tickets, Cont.tickets])
  | user ha h => exact h.ticketMove ha

variable [Fintype T]

/-- All tickets. -/
def State.tickets (s : State T) : Multiset ℕ := Family.total Thread.tickets s.thread

theorem Ticketed.init : Ticketed (State.init : State T).mem.calls (State.init : State T).mem.log
    (State.init : State T).tickets := by
  have hx : (State.init : State T).tickets = 0 := Family.total_eq_zero fun t => by
    simp [State.init, Thread.idle, Thread.tickets, Active.tickets]
  rw [hx]
  exact ⟨by simp, by simp, by simp [State.init, Mem.empty], by simp [State.init, Mem.empty]⟩

variable [DecidableEq T]

/-- **No call writes twice**: the tickets are kept in every step. -/
theorem Ticketed.step {c : Choice} (hk : Ticketed s.mem.calls s.mem.log s.tickets)
    (h : s.Sound cfg) (hs : s.step cfg t c = some s') :
    Ticketed s'.mem.calls s'.mem.log s'.tickets := by
  obtain ⟨m', th', o', g', hm, rfl⟩ := State.step_move hs
  rw [State.tickets, Family.total_eq _ _ t] at hk
  rw [State.tickets, State.moved, Family.total_update]
  exact hk.move ((hm.ticketMove (h.typed t)).frame _)

end Run

end ArcSwap
