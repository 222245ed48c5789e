import ArcSwap.Invariants.Coverage

/-!
# The scan of one writer

From the exchange on, a writer has a suspended caller that waits for `pay_all`. Whatever runs above
this caller belongs to the scan: `pay_all` itself, or what it waits for, which may be user code in a
destructor and whole operations on other storages. The scan comes closer to its end in every step,
and it leaves nothing behind: what it has passed has been settled when it passed it.
-/

namespace ArcSwap

variable {cfg : Config} {tls : Tls} {m m' : Mem} {x : StorageId} {r : Ref} {n : NodeId} {k : ℕ}
  {p : Place}

/-! ## Callers -/

section Callers

variable {T : Type*} {s : State T} {t : T} {th' : Thread} {o' : Multiset Ref} {g' : Multiset Guard}
  {ks l : List Cont}

/-- What is suspended stays so until the functions above it have returned. -/
theorem Move.stays {q : Cont} (h : Move cfg s t m' th' o' g')
    (hk : (s.thread t).conts = l ++ q :: ks) (hq : ∀ u c, q ≠ .user u c) :
    (∃ l', th'.conts = l' ++ q :: ks) ∨
      (l = [] ∧ ∃ c v o, (s.thread t).active = .ret c v ∧
        Resumed cfg (s.thread t).tls s.mem q v o ∧ m' = o.mem ∧ th' = (s.thread t).after ks o) := by
  have hhead : ∀ {q' ks'}, (s.thread t).conts = q' :: ks' →
      (l = [] ∧ q' = q ∧ ks' = ks) ∨ ∃ l', ks' = l' ++ q :: ks := by
    intro q' ks' hk'
    rw [hk'] at hk
    cases l with
    | nil => exact .inl ⟨rfl, by simpa using hk⟩
    | cons q₁ l => exact .inr ⟨l, by simpa using (List.cons.inj hk).2⟩
  have hcall : ∀ u c, ∃ l', ((s.thread t).calling u c).conts = l' ++ q :: ks := fun u c =>
    ⟨(c.calls ++ [.user u c.contract]) ++ l, by simp [Thread.calling, hk]⟩
  cases h with
  | @code o h => exact .inl ⟨o.calls ++ l, by simp [Thread.after, hk]⟩
  | @resume c v q' ks' o ha hks h =>
    rcases hhead hks with ⟨hnil, rfl, rfl⟩ | ⟨l', rfl⟩
    · exact .inr ⟨hnil, c, v, o, ha, h, rfl, rfl⟩
    · exact .inl ⟨o.calls ++ l', by simp [Thread.after]⟩
  | @receive c v u c' ks' ha hks =>
    rcases hhead hks with ⟨-, he, -⟩ | ⟨l', rfl⟩
    · exact absurd he.symm (hq u c')
    · exact .inl ⟨l', rfl⟩
  | user ha h =>
    cases h with
    | alloc | clone | fromInner | new | exitEmpty | destroyed | result | panic => exact .inl ⟨l, hk⟩
    | exit hnil =>
      rw [hnil] at hk
      simp at hk
    | _ => exact .inl (hcall _ _)

/-- A return to a suspended function of the library. -/
theorem Move.resumed {q : Cont} {c : Contract} {v : Ret} (h : Move cfg s t m' th' o' g')
    (ha : (s.thread t).active = .ret c v) (hk : (s.thread t).conts = q :: ks)
    (hq : ∀ u c, q ≠ .user u c) : ∃ o, Resumed cfg (s.thread t).tls s.mem q v o ∧ m' = o.mem ∧
      th' = (s.thread t).after ks o := by
  cases h with
  | code h =>
    rw [ha] at h
    cases h
  | @resume c' v' q' ks' o ha' hk' h =>
    obtain ⟨rfl, rfl⟩ : c' = c ∧ v' = v := by
      rw [ha] at ha'
      simpa [eq_comm] using ha'
    obtain ⟨rfl, rfl⟩ : q' = q ∧ ks' = ks := by
      rw [hk] at hk'
      simpa [eq_comm] using hk'
    exact ⟨o, h, rfl, rfl⟩
  | @receive c' v' u c'' ks' ha' hk' =>
    rw [hk] at hk'
    exact absurd (List.cons.inj hk').1 (hq _ _)
  | user ha' =>
    rw [ha] at ha'
    cases ha'

end Callers

/-! ## The scan above a caller -/

/-- The function is `pay_all` for `r`, taken out of `x`, and has come this far, or `pay_all` has
returned. -/
def Active.Pays (x : StorageId) (r : Ref) (p : Place) : Active → Prop
  | .payAll f pc => f.storage = x ∧ f.ref = r ∧ p = pc.place
  | .ret _ _ => p = .done
  | _ => False

/-- The suspended caller is `pay_all` for `r`, taken out of `x`, and has come this far. -/
def Cont.Pays (x : StorageId) (r : Ref) (p : Place) : Cont → Prop
  | .payNode f => f.storage = x ∧ f.ref = r ∧ p = (Cont.payNode f).place
  | .helpReplacement f me who c =>
    f.storage = x ∧ f.ref = r ∧ p = (Cont.helpReplacement f me who c).place
  | .helpRetry f me who c => f.storage = x ∧ f.ref = r ∧ p = (Cont.helpRetry f me who c).place
  | .valDropped f => f.storage = x ∧ f.ref = r ∧ p = (Cont.valDropped f).place
  | .payLeft r' => r' = r ∧ p = .done
  | _ => False

/-- The function `a` and the callers `ks` belong to a scan that has come this far. -/
def Paying (x : StorageId) (r : Ref) (p : Place) (a : Active) (ks : List Cont) : Prop :=
  ks.getLast?.elim (a.Pays x r p) fun q => q.Pays x r p

@[simp] theorem paying_nil {a : Active} : Paying x r p a [] ↔ a.Pays x r p := Iff.rfl

@[simp] theorem paying_singleton {a : Active} {q : Cont} :
    Paying x r p a [q] ↔ q.Pays x r p := Iff.rfl

/-- What runs above a suspended `pay_all` does not matter. -/
theorem Paying.above {a a' : Active} {ks l j : List Cont} (h : Paying x r p a (l ++ ks))
    (hne : ks ≠ []) : Paying x r p a' (j ++ ks) := by
  obtain ⟨ks, q, rfl⟩ := List.eq_nil_or_concat ks |>.resolve_left hne
  rw [List.concat_eq_append, Paying, ← List.append_assoc, List.getLast?_concat] at h ⊢
  exact h

/-- The scan goes on from the place `p` to `p'`: what was ahead of it is so still, or it has been
settled. -/
def Passes (m m' : Mem) (x : StorageId) (r : Ref) (p p' : Place) : Prop :=
  ∀ n k, m.Listed n → k ≤ debtSlotCnt + 1 → m.Ahead n k p → m'.Ahead n k p' ∨ m'.Settled x r n k

/-- The thread has a scan above the callers `ks` that has not returned to them. -/
def Scan (x : StorageId) (r : Ref) (ks : List Cont) (p : Place) (th : Thread) : Prop :=
  ∃ above, th.conts = above ++ ks ∧ Paying x r p th.active above

/-- A scan is at a node that its thread visits. -/
theorem Scan.visits {th : Thread} {ks : List Cont} {who : NodeId} {j : ℕ}
    (h : Scan x r ks (.visit who j) th) : who ∈ th.visits := by
  obtain ⟨above, hk, hp⟩ := h
  rcases List.eq_nil_or_concat above with rfl | ⟨ks', q, rfl⟩
  · rw [paying_nil] at hp
    refine Multiset.mem_add.mpr (.inl (Multiset.mem_add.mpr (.inr ?_)))
    cases ha : th.active with
    | payAll f pc =>
      rw [ha] at hp
      exact Multiset.mem_add.mpr (.inr (PayPc.place_visits hp.2.2.symm))
    | ret c v =>
      rw [ha] at hp
      cases hp
    | _ =>
      rw [ha] at hp
      exact hp.elim
  · have hq : q.Pays x r (.visit who j) := by simpa [Paying] using hp
    refine Multiset.mem_add.mpr (.inr (mem_contVisits (q := q) (by simp [hk]) ?_))
    cases q <;> simp only [Cont.Pays] at hq
    case payLeft => cases hq.2
    all_goals exact Cont.place_visits hq.2.2.symm

theorem Scan.passes_grows {th : Thread} {ks : List Cont} (h : Scan x r ks p th)
    (hg : m.Grows m') (hv : ∀ n ∈ th.visits, m.Listed n) : Passes m m' x r p p :=
  fun n k hn _ ha => .inl (ha.grows hg hn fun who j hp => by subst hp; exact hv who h.visits)

/-! ## One step -/

/-- Where `pay_all` goes in a clause, and what it reaches from there. -/
theorem PayClause.pays {f : PayFrame} {pc : PayPc} {o : Out} (h : PayClause tls m f pc o)
    (hr : ∀ w, o.active ≠ .failed w) : ∃ p, Paying f.storage f.ref p o.active o.calls ∧
      ∀ n k, ReachesIn o.mem f.storage f.ref n k o.active o.calls → o.mem.Ahead n k p := by
  have hpay : ∀ {m : Mem} {g : PayFrame} {pc : PayPc} {n k},
    ReachesIn m f.storage f.ref n k (.payAll g pc) [] →
      m.Ahead n k pc.place := fun h => (reachesIn_nil.mp h).2.2
  have hdisp : ∀ {g : PayFrame} {me who c a}, Dispatched g me who c a → (∀ w, a ≠ .failed w) →
      g.storage = f.storage → g.ref = f.ref → ∃ p, Paying f.storage f.ref p a [] ∧
        ∀ n k, ReachesIn m f.storage f.ref n k a [] → m.Ahead n k p := by
    intro g me who c a h hr hs hv
    cases h with
    | pass | gen => exact ⟨_, ⟨hs, hv, rfl⟩, fun n k => hpay⟩
    | myself | invalid => simp at hr
  cases h with
  | noNode | notUsed | helperBusy | misaligned => simp at hr
  | enterGet =>
    exact ⟨_, ⟨rfl, rfl, rfl⟩, fun n k _ => trivial⟩
  | helpControl h | helpChanged _ h => exact hdisp h hr rfl rfl
  | helpAddr =>
    refine ⟨_, ⟨rfl, rfl, rfl⟩, fun n k h => ?_⟩
    rcases h with h | ⟨q, hq, h⟩
    · exact h.elim
    · simp only [List.mem_cons, List.not_mem_nil, or_false] at hq
      rcases hq with rfl | rfl
      · exact h.elim
      · exact h.2.2
  | helpLate =>
    refine ⟨_, ⟨rfl, rfl, rfl⟩, fun n k h => ?_⟩
    rcases h with h | ⟨q, hq, h⟩
    · exact h.elim
    · obtain rfl := List.mem_singleton.mp hq
      exact h.2.2
  | slotOther | slotInc =>
    unfold PayFrame.nextSlot
    split <;> exact ⟨_, ⟨rfl, rfl, rfl⟩, fun n k => hpay⟩
  | dropVal =>
    refine ⟨_, ⟨rfl, rfl, rfl⟩, fun n k h => ?_⟩
    rcases h with h | ⟨q, hq, h⟩
    · exact h.elim
    · obtain rfl := List.mem_singleton.mp hq
      exact h.elim
  | leave =>
    refine ⟨.done, rfl, fun n k h => ?_⟩
    exact (reachesIn_nil.mp h).elim
  | leaveTmp =>
    refine ⟨.done, ⟨rfl, rfl⟩, fun n k h => ?_⟩
    rcases h with h | ⟨q, hq, h⟩
    · exact h.elim
    · obtain rfl := List.mem_singleton.mp hq
      exact h.elim
  | _ => exact ⟨_, ⟨rfl, rfl, rfl⟩, fun n k => hpay⟩

/-- Where `pay_all` goes on when a call returns. -/
theorem Resumed.pays {q : Cont} {v : Ret} {o : Out} (h : Resumed cfg tls m q v o)
    (hr : ∀ w, o.active ≠ .failed w) (hp : q.Pays x r p) : ∃ p', Paying x r p' o.active o.calls ∧
      ∀ n k, m.Ahead n k p → o.mem.Ahead n k p' := by
  cases h with
  | payNode | payTmp =>
    obtain ⟨rfl, rfl, -⟩ := hp
    exact ⟨_, ⟨rfl, rfl, rfl⟩, fun n k _ => trivial⟩
  | helpReplacement =>
    obtain ⟨rfl, rfl, rfl⟩ := hp
    exact ⟨_, ⟨rfl, rfl, rfl⟩, fun n k h => h⟩
  | @helpRetry f me who c w a h =>
    obtain ⟨rfl, rfl, rfl⟩ := hp
    have hreach : ∀ n k, m.Ahead n k (Cont.helpRetry f me who c).place →
        a.Reaches m f.storage f.ref n k := fun n k ha => h.reaches hr ha
    cases h with
    | pass | gen => exact ⟨_, ⟨rfl, rfl, rfl⟩, fun n k ha => (hreach n k ha).2.2⟩
    | myself | invalid => simp at hr
  | valDropped =>
    obtain ⟨rfl, rfl, rfl⟩ := hp
    exact ⟨_, ⟨rfl, rfl, rfl⟩, fun n k h => h⟩
  | payLeft =>
    obtain ⟨rfl, rfl⟩ := hp
    exact ⟨.done, rfl, fun n k h => h⟩
  | _ => exact hp.elim

section Run

variable {T : Type*} {s s' : State T} {t t' : T} {th' : Thread} {o' : Multiset Ref}
  {g' : Multiset Guard} {ks : List Cont}

/-- The thread does not return to the callers `ks` in this step. -/
def State.StaysAbove (s : State T) (t : T) (ks : List Cont) (t' : T) : Prop :=
  t' = t → ∀ c v, (s.thread t).active = .ret c v → (s.thread t).conts ≠ ks

/-- The function is returning. -/
def Active.IsRet : Active → Prop
  | .ret _ _ => True
  | _ => False

instance (a : Active) : Decidable a.IsRet := by
  unfold Active.IsRet
  split <;> infer_instance

theorem State.staysAbove_iff : s.StaysAbove t ks t' ↔
    (t' = t → (s.thread t).active.IsRet → (s.thread t).conts ≠ ks) := by
  refine forall_congr' fun _ => ⟨fun h hr => ?_, fun h c v ha => h (by rw [ha]; trivial)⟩
  cases ha : (s.thread t).active with
  | ret c v => exact h c v ha
  | _ =>
    rw [ha] at hr
    exact hr.elim

instance [DecidableEq T] (s : State T) (t : T) (ks : List Cont) (t' : T) :
    Decidable (s.StaysAbove t ks t') := decidable_of_iff _ State.staysAbove_iff.symm

/-- **A scan goes on** in every step of its thread, and passes only what has been settled. -/
theorem Move.scan (h : Move cfg s t m' th' o' g') (ht : (s.thread t).Typed cfg)
    (hm : s.mem.Chain) (hw : (s.thread t).Walks s.mem) (hg : s.mem.Grows m')
    (hc : (s.thread t).active.Rechecked s.mem) (hr : ∀ w, th'.active ≠ .failed w)
    (hin : s.StaysAbove t ks t) (hs : Scan x r ks p (s.thread t)) :
    ∃ p', Scan x r ks p' th' ∧ Passes s.mem m' x r p p' := by
  obtain ⟨above, hk, hp⟩ := hs
  have hv := hw.visits
  simp only [Thread.visits, Multiset.mem_add] at hv
  -- the scan stays where it is while something runs above it
  have hstay : Passes s.mem m' x r p p := Scan.passes_grows ⟨above, hk, hp⟩ hg hw.visits
  cases h with
  | @code o h =>
    by_cases hne : above = []
    · subst hne
      rw [paying_nil] at hp
      cases hact : (s.thread t).active with
      | payAll f pc =>
        have hok := ht.active
        rw [hact] at h hp hok hc
        obtain ⟨rfl, rfl, rfl⟩ := hp
        cases h with
        | payAll h =>
          obtain ⟨p', hp', hreach⟩ := h.pays hr
          refine ⟨p', ⟨o.calls, by simp [Thread.after, hk], hp'⟩, fun n k hn hk ha => ?_⟩
          refine (h.reaches hok hm (fun n hn => hv n (.inl (.inr ?_))) hc hr hn hk ha).imp_left
            (hreach n k)
          rw [hact]
          exact Multiset.mem_add.mpr (.inr hn)
      | ret c v =>
        rw [hact] at h
        cases h
      | _ =>
        rw [hact] at hp
        exact hp.elim
    · exact ⟨p, ⟨o.calls ++ above, by simp [Thread.after, hk], hp.above (l := []) hne⟩,
        hstay⟩
  | @resume c v q qs o hact hks h =>
    cases above with
    | nil => exact absurd (by simpa using hk) (hin rfl c v hact)
    | cons q' above =>
      obtain ⟨rfl, rfl⟩ : q' = q ∧ qs = above ++ ks := by
        rw [hks] at hk
        simpa [eq_comm] using hk
      by_cases hne : above = []
      · subst hne
        obtain ⟨p', hp', hreach⟩ := h.pays hr (paying_singleton.mp hp)
        refine ⟨p', ⟨o.calls, by simp [Thread.after], hp'⟩, fun n k _ _ ha => .inl ?_⟩
        exact hreach n k ha
      · exact ⟨p, ⟨o.calls ++ above, by simp [Thread.after], hp.above (l := [q']) hne⟩,
          hstay⟩
  | @receive c v u c' qs hact hks =>
    cases above with
    | nil => exact absurd (by simpa using hk) (hin rfl c v hact)
    | cons q' above =>
      obtain ⟨rfl, rfl⟩ : q' = .user u c' ∧ qs = above ++ ks := by
        rw [hks] at hk
        simpa [eq_comm] using hk
      by_cases hne : above = []
      · subst hne
        exact (paying_singleton.mp hp).elim
      · exact ⟨p, ⟨above, rfl, hp.above (l := [.user u c']) (j := []) hne⟩, hstay⟩
  | user hact h =>
    have hne : above ≠ [] := by
      rintro rfl
      rw [paying_nil, hact] at hp
      exact hp
    have hcall : ∀ u c, Scan x r ks p ((s.thread t).calling u c) := fun u c =>
      ⟨(c.calls ++ [.user u c.contract]) ++ above, by simp [Thread.calling, hk],
        hp.above (l := []) hne⟩
    cases h with
    | alloc | clone | fromInner | new | exitEmpty | destroyed | result | panic =>
      exact ⟨p, ⟨above, hk, hp.above (l := []) (j := []) hne⟩, hstay⟩
    | exit hnil =>
      rw [hnil] at hk
      simp [hne] at hk
    | _ => exact ⟨p, hcall _ _, hstay⟩

variable [Fintype T] [DecidableEq T]

/-- **A scan goes on** in every step of a run, until it returns. -/
theorem State.scan_step {c : Choice} (h : s.Sound cfg)
    (hc : ∀ t, (s.thread t).active.Rechecked s.mem) (hw : s.NoWrap t')
    (hin : s.StaysAbove t ks t') (hs : Scan x r ks p (s.thread t))
    (hstep : s.step cfg t' c = some s') :
    ∃ p', Scan x r ks p' (s'.thread t) ∧ Passes s.mem s'.mem x r p p' := by
  have hrun' := (h.step hw hstep).running t'
  obtain ⟨m', th', o', g', hm, rfl⟩ := State.step_move hstep
  have hrun : ∀ w, th'.active ≠ .failed w := by simpa [State.moved] using hrun'
  obtain ⟨-, hgrows, -, -⟩ := hm.chain (h.typed t') h.chain (h.walks t')
  by_cases hne : t = t'
  · subst hne
    simpa [State.moved] using hm.scan (h.typed t) h.chain (h.walks t) hgrows (hc t) hrun hin hs
  · exact ⟨p, by simpa [State.moved, hne] using hs, hs.passes_grows hgrows (h.walks t).visits⟩

end Run

end ArcSwap
