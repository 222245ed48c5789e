import ArcSwap.Invariants.Scans
import ArcSwap.Properties.Alive
import ArcSwap.Properties.Assertions
import ArcSwap.Properties.Owners
import ArcSwap.Values.Objects

/-!
# The load at which the generations wrap around

From the publication of its generation on, a load makes at most fifteen steps of its own, some of
them in the functions it calls, and user code runs in between only in the destructor of a candidate
that nobody needs any more. The load with the generation `0` is another matter: `new_helping` puts
the node into cooldown while the transaction on it is open and takes it out of the `LocalNode`, and
`confirm_helping` expects to find it there.
-/

namespace ArcSwap

variable {cfg : Config} {tls : Tls} {m m' : Mem} {n : NodeId} {gen k : ℕ} {a a' : Active}
  {l ks : List Cont}

/-! ## What is left of a load -/

/-- The thread runs code of the library that the callers `ks` wait for, and no user code between. -/
def Thread.Works (th : Thread) (ks : List Cont) : Prop :=
  ¬ th.active.IsUser ∧ ∀ q ∈ th.conts.take (th.conts.length - ks.length), ¬ q.IsUser

instance (th : Thread) (ks : List Cont) : Decidable (th.Works ks) :=
  inferInstanceAs (Decidable (_ ∧ _))

/-- A load that has published its generation makes at most `k` more steps of its own: it runs the
function `a`, called by `l`. -/
inductive Fallback : ℕ → Active → List Cont → Prop
  | candidate {f : LoadFrame} {n : NodeId} {gen : ℕ} : Fallback 15 (.load f (.candidate n gen)) []
  | confirmHelping {f : LoadFrame} {n : NodeId} {gen : ℕ} {p} :
    Fallback 14 (.load f (.confirmHelping n gen p)) []
  | offerDebt {f : LoadFrame} {n : NodeId} {gen : ℕ} {p} :
    Fallback 13 (.load f (.offerDebt n gen p)) []
  | closeControl {f : LoadFrame} {n : NodeId} {gen : ℕ} {p} :
    Fallback 12 (.load f (.closeControl n gen p)) []
  | intoInner {g f r} : Fallback 11 (.intoInner g .start) [.fallback f r]
  | pay {g d f r} : Fallback 10 (.intoInner g (.pay d)) [.fallback f r]
  | counted {w r f r'} : Fallback 7 (.ret .unit (.unit w)) [.intoInner r, .fallback f r']
  | value {c v w f r} : Fallback 6 (.ret c (.value v w)) [.fallback f r]
  | takeEnvelope {f : LoadFrame} {n : NodeId} {gen : ℕ} {p e} :
    Fallback 11 (.load f (.takeEnvelope n gen p e)) []
  | keepEnvelope {f : LoadFrame} {n : NodeId} {p e q} :
    Fallback 10 (.load f (.keepEnvelope n p e q)) []
  | payUnused {f : LoadFrame} {n : NodeId} {p q} : Fallback 9 (.load f (.payUnused n p q)) []
  | unused {w f q} : Fallback 6 (.ret .unit (.unit w)) [.unused f q]
  | leave {f g} (h : g.debt = none) : Fallback 5 (.load f (.leave g)) []
  | reserve {n : NodeId} {x st g} (h : g.debt = none) :
    Fallback 4 (.cooldown n .reserve) [.loadLeft x st g]
  | swap {n : NodeId} {e x st g} (h : g.debt = none) :
    Fallback 3 (.cooldown n (.swap e)) [.loadLeft x st g]
  | release {n : NodeId} {e x st g} (h : g.debt = none) :
    Fallback 2 (.cooldown n (.release e)) [.loadLeft x st g]
  | left {w x st g} (h : g.debt = none) : Fallback 1 (.ret .unit (.unit w)) [.loadLeft x st g]
  | returned {c g w} (h : g.debt = none) : Fallback 0 (.ret c (.guard g w)) []
  | dec {r : Ref} {k : ℕ} {l : List Cont} (h : ∀ w, Fallback k (.ret .unit (.unit w)) l) :
    Fallback (k + 2) (.dec r) l
  | destroyed {w : Option ℕ} {k : ℕ} {l : List Cont}
    (h : ∀ w, Fallback k (.ret .unit (.unit w)) l) :
    Fallback (k + 1) (.ret .unit (.unit w)) (.destroyed :: l)
  | destructor {k : ℕ} {l : List Cont} (h : ∀ w, Fallback k (.ret .unit (.unit w)) l) :
    Fallback (k + 1) (.user .destructor) (.destroyed :: l)
  | nested {a : Active} {j : List Cont} {c : Contract} {k : ℕ} {l : List Cont}
    (h : ∀ w, Fallback k (.ret .unit (.unit w)) l) :
    Fallback (k + 1) a (j ++ .user .destructor c :: .destroyed :: l)

/-- The load makes progress in every clause of the code. -/
theorem Clause.falls {o : Out} (h : Clause cfg tls m a o) (hr : ∀ w, o.active ≠ .failed w)
    (hf : Fallback k a l) (hn : ∀ q ∈ l, ¬ q.IsUser) :
    ∃ k' < k, Fallback k' o.active (o.calls ++ l) := by
  cases hf with
  | candidate | confirmHelping | offerDebt | closeControl | takeEnvelope | keepEnvelope
  | payUnused | leave =>
    cases h with
    | load h =>
      cases h <;> first
        | exact absurd rfl (hr _)
        | exact ⟨14, by omega, .confirmHelping⟩
        | exact ⟨13, by omega, .offerDebt⟩
        | exact ⟨12, by omega, .closeControl⟩
        | exact ⟨11, by omega, .intoInner⟩
        | exact ⟨11, by omega, .takeEnvelope⟩
        | exact ⟨10, by omega, .keepEnvelope⟩
        | exact ⟨9, by omega, .payUnused⟩
        | exact ⟨8, by omega, .dec fun w => .unused⟩
        | exact ⟨5, by omega, .leave rfl⟩
        | exact ⟨4, by omega, .reserve ‹_›⟩
        | exact ⟨0, by omega, .returned ‹_›⟩
  | intoInner =>
    cases h with
    | intoInner h =>
      cases h with
      | owned => exact ⟨6, by omega, .value⟩
      | start => exact ⟨10, by omega, .pay⟩
  | pay =>
    cases h with
    | intoInner h =>
      cases h with
      | pay => exact ⟨6, by omega, .value⟩
      | payLate => exact ⟨9, by omega, .dec fun w => .counted⟩
  | reserve hg =>
    cases h with
    | cooldown h =>
      cases h
      exact ⟨3, by omega, .swap hg⟩
  | swap hg =>
    cases h with
    | cooldown h =>
      cases h with
      | swap => exact ⟨2, by omega, .release hg⟩
      | swapFail => exact absurd rfl (hr _)
  | release hg =>
    cases h with
    | cooldown h =>
      cases h
      exact ⟨1, by omega, .left hg⟩
  | @dec r k l hf =>
    cases h with
    | dec h =>
      cases h with
      | last => exact ⟨k + 1, by omega, .destructor hf⟩
      | dec => exact ⟨k, by omega, hf none⟩
  | counted | value | unused | left | returned | destroyed | destructor => cases h
  | @nested _ j c k l => exact absurd trivial (hn (.user .destructor c) (by simp))

/-- The load makes progress in every return to one of its functions. -/
theorem Resumed.falls {q : Cont} {c : Contract} {v : Ret} {o : Out}
    (h : Resumed cfg tls m q v o) (hf : Fallback k (.ret c v) (q :: l))
      (hn : ∀ q' ∈ q :: l, ¬ q'.IsUser) :
    ∃ k' < k, Fallback k' o.active (o.calls ++ l) := by
  generalize ha : Active.ret c v = a at hf
  generalize hl : q :: l = l' at hf
  cases hf with
  | counted =>
    cases ha
    cases hl
    cases h
    exact ⟨6, by omega, .value⟩
  | value =>
    cases ha
    cases hl
    cases h
    exact ⟨5, by omega, .leave rfl⟩
  | unused =>
    cases ha
    cases hl
    cases h
    exact ⟨5, by omega, .leave rfl⟩
  | left hg =>
    cases ha
    cases hl
    cases h
    exact ⟨0, by omega, .returned hg⟩
  | @destroyed w k l hf =>
    cases ha
    cases hl
    cases h
    exact ⟨k, by omega, hf none⟩
  | returned => cases hl
  | @nested _ j c k l =>
    rw [hl] at hn
    exact absurd trivial (hn (.user .destructor c) (by simp))
  | _ => cases ha

/-- User code among the callers runs in a destructor. -/
theorem Fallback.nested_of_user (hf : Fallback k a l) (hu : ∃ q ∈ l, q.IsUser) :
    ∃ j c l' k', l = j ++ .user .destructor c :: .destroyed :: l' ∧ k' + 1 ≤ k ∧
      ∀ w, Fallback k' (.ret .unit (.unit w)) l' := by
  induction hf with
  | dec _ ih =>
    obtain ⟨j, c, l', k', rfl, hk, hf⟩ := ih none hu
    exact ⟨j, c, l', k', rfl, by omega, hf⟩
  | destroyed _ ih | destructor _ ih =>
    obtain ⟨j, c, l', k', rfl, hk, hf⟩ := ih none (by simpa [Cont.IsUser] using hu)
    exact ⟨.destroyed :: j, c, l', k', rfl, by omega, hf⟩
  | @nested a j c k l h => exact ⟨j, c, l, k, rfl, le_rfl, h⟩
  | _ => simp [Cont.IsUser] at hu

/-- A node is put into cooldown by `start_cooldown` only. -/
theorem Clause.cools {o : Out} (h : Clause cfg tls m a o) (hu : m.inUse n ≠ .cooldown)
    (hc : o.mem.inUse n = .cooldown) : ∃ e, a = .cooldown n (.swap e) := by
  have hset : ∀ {n' v}, v ≠ .cooldown → Function.update m.inUse n' v n ≠ .cooldown := by
    intro n' v hv
    rw [Function.update_apply]
    split
    · exact hv
    · exact hu
  cases h with
  | get h =>
    cases h with
    | unuse | claim | create => exact absurd hc (hset (by decide))
    | _ => exact absurd hc hu
  | cooldown h =>
    cases h with
    | @swap e | @swapFail e =>
      refine ⟨e, ?_⟩
      by_contra hne
      simp only [Mem.startCooldown_inUse, Mem.setInUse_inUse, Function.update_apply] at hc
      split at hc
      · rename_i he
        exact hne (by rw [he])
      · exact hu hc
    | _ => exact absurd hc hu
  | swap => exact absurd hc hu
  | load h | cas h | dec h | intoInner h | dropGuard h | payAll h =>
    cases h <;> exact absurd hc hu

section Run

variable {T : Type*} {s s' s₁ : State T} {t t' : T} {th' : Thread} {o' : Multiset Ref}
  {g' : Multiset Guard} {f : LoadFrame} {x : ℕ}

/-- The callers above `ks` that no user code is among. -/
theorem Thread.Works.above {th : Thread} (h : th.Works ks) (hk : th.conts = l ++ ks) :
    ∀ q ∈ l, ¬ q.IsUser := by
  have hl : th.conts.take (th.conts.length - ks.length) = l := by
    rw [hk, List.length_append, Nat.add_sub_cancel, List.take_left]
  exact hl ▸ h.2

/-- **A load makes progress** in every step of its own, and user code in a destructor does not hold
it up. -/
theorem Move.falls (h : Move cfg s t m' th' o' g') (hr : ∀ w, th'.active ≠ .failed w)
    (hk : (s.thread t).conts = l ++ ks) (hf : Fallback k (s.thread t).active l)
    (hin : s.StaysAbove t ks t) : ∃ l' k', th'.conts = l' ++ ks ∧ Fallback k' th'.active l' ∧
      (if (s.thread t).Works ks then 1 else 0) + k' ≤ k := by
  by_cases hw : (s.thread t).Works ks
  · rw [if_pos hw]
    have hn := hw.above hk
    cases h with
    | code h =>
      obtain ⟨k', hlt, hf'⟩ := h.falls hr hf hn
      exact ⟨_, k', by simp [Thread.after, hk], hf', by omega⟩
    | @resume c v q ks' o ha hks h =>
      cases l with
      | nil => exact absurd hk (hin rfl c v ha)
      | cons q' l =>
        obtain ⟨rfl, rfl⟩ : q = q' ∧ ks' = l ++ ks := by
          rw [hks] at hk
          simpa using hk
        rw [ha] at hf
        obtain ⟨k', hlt, hf'⟩ := h.falls hf hn
        exact ⟨_, k', by simp [Thread.after], hf', by omega⟩
    | @receive c v u c' ks' ha hks =>
      cases l with
      | nil => exact absurd hk (hin rfl c v ha)
      | cons q' l =>
        obtain ⟨rfl, -⟩ : Cont.user u c' = q' ∧ ks' = l ++ ks := by
          rw [hks] at hk
          simpa using hk
        exact absurd trivial (hn (.user u c') (by simp))
    | user ha =>
      have := hw.1
      rw [ha] at this
      exact absurd trivial this
  · rw [if_neg hw]
    by_cases hu : ∃ q ∈ l, q.IsUser
    · -- user code is suspended in a destructor
      obtain ⟨j, c, l', k', rfl, hle, hl'⟩ := hf.nested_of_user hu
      rcases h.user_stays (l := j) (by simpa using hk) with
        ⟨j', hj⟩ | ⟨-, -, -, -, ha, hj, -⟩
      · exact ⟨j' ++ .user .destructor c :: .destroyed :: l', k' + 1, by simpa using hj,
          .nested hl', by omega⟩
      · exact ⟨.destroyed :: l', k' + 1, by simpa using hj, ha ▸ .destructor hl', by omega⟩
    · obtain ⟨u, ha⟩ : ∃ u, (s.thread t).active = .user u := by
        by_contra hact
        apply hw
        constructor
        · intro hu'
          cases ha : (s.thread t).active with
          | user u => exact hact ⟨u, ha⟩
          | _ =>
            rw [ha] at hu'
            exact hu'
        · rw [hk, List.length_append, Nat.add_sub_cancel, List.take_left]
          exact fun q hq hu' => hu ⟨q, hq, hu'⟩
      rw [ha] at hf
      cases hf with
      | @nested _ j c k l => exact absurd ⟨.user .destructor c, by simp, trivial⟩ hu
      | @destructor k l hl =>
        have hcall : ∀ c : Call, ∃ l' k', ((s.thread t).calling .destructor c).conts = l' ++ ks ∧
            Fallback k' ((s.thread t).calling .destructor c).active l' ∧ 0 + k' ≤ k + 1 := by
          intro c
          refine ⟨c.calls ++ .user .destructor c.contract :: .destroyed :: l, k + 1, ?_,
            .nested hl, by omega⟩
          simp [Thread.calling, hk]
        cases h with
        | @user u' _ _ _ _ ha' h =>
          obtain rfl : u' = .destructor := by
            rw [ha] at ha'
            exact (Active.user.inj ha').symm
          cases h with
          | alloc | clone | fromInner | new | exitEmpty =>
            exact ⟨_, k + 1, hk, ha ▸ .destructor hl, by omega⟩
          | exit hnil =>
            rw [hnil] at hk
            simp at hk
          | destroyed => exact ⟨_, k + 1, hk, .destroyed hl, by omega⟩
          | result hu' => cases hu'
          | panic hu' => cases hu'
          | _ => exact hcall _
        | code h =>
          rw [ha] at h
          cases h
        | resume ha' | receive ha' =>
          rw [ha] at ha'
          cases ha'

variable [Fintype T] [DecidableEq T]

variable (cfg) in
/-- A load that has not returned can take its next step. -/
theorem Fallback.goes (hf : Fallback k (s.thread t).active l) (hk : (s.thread t).conts = l ++ ks)
    (hw : (s.thread t).Works ks) : ((s.thread t).active.IsRet ∧ (s.thread t).conts = ks) ∨
      ∃ s', s.step cfg t (.go false) = some s' := by
  have hn := hw.above hk
  have hret : ∀ {c v q l' o}, (s.thread t).active = .ret c v → (s.thread t).conts = q :: l' →
      (∀ u c, q ≠ .user u c) → q.resume cfg (s.thread t).tls s.mem v = some o →
      ∃ s', s.step cfg t (.go false) = some s' := by
    intro c v q l' o ha hq hu ho
    refine ⟨s.set t o.mem ((s.thread t).after l' o), ?_⟩
    simp only [State.step, ha, State.return, hq]
    cases q <;> first | exact absurd rfl (hu _ _) | simp [ho]
  have hcode := State.step_go cfg (s := s) (t := t) (b := false)
  generalize ha : (s.thread t).active = a at hf hcode
  cases hf with
  | candidate | confirmHelping | offerDebt | closeControl | takeEnvelope | keepEnvelope
  | payUnused | leave | intoInner | pay | reserve | swap | release | dec =>
    exact .inr ⟨_, hcode trivial⟩
  | counted | value | unused | left | destroyed =>
    exact .inr (hret ha hk (by simp) rfl)
  | returned => exact .inl ⟨trivial, by simpa using hk⟩
  | destructor =>
    have := hw.1
    rw [ha] at this
    exact absurd trivial this
  | @nested _ j c k l => exact absurd trivial (hn (.user .destructor c) (by simp))

/-! ## Loads that complete -/

/-- The steps of its own that the load with the callers `ks` makes. -/
def State.loadSteps (t : T) (ks : List Cont) (s : State T) (a : T × Choice) (_ : State T) : ℕ :=
  if a.1 = t ∧ (s.thread t).Works ks then 1 else 0

/-- A load with the callers `ks` that has made `x` steps since it published its generation. -/
structure State.Loading (cfg : Config) (s : State T) (t : T) (ks : List Cont) (x : ℕ) : Prop where
  /-- No expectation and no assertion fails. -/
  running : ∀ w, (s.thread t).active ≠ .failed w
  /-- It goes on until it has returned. -/
  goes : (s.thread t).Works ks → ((s.thread t).active.IsRet ∧ (s.thread t).conts = ks) ∨
    ∃ c s', s.step cfg t c = some s'
  /-- It makes a bounded number of steps. -/
  steps : x ≤ 15
  /-- What it returns owns a reference to an object that is alive. -/
  returns : ∀ g, (s.thread t).active.guard? = some g → (s.thread t).conts = ks →
    g.debt = none ∧ (g.ref.Counted → 1 ≤ s.mem.count g.ref)

/-- The nodes are given up as they should be. -/
structure State.Retires (cfg : Config) (s : State T) (t : T) : Prop where
  /-- A node is put into cooldown only with an idle control and an empty helping slot. -/
  cools : ∀ t' c s' n, s.step cfg t' c = some s' → s.mem.inUse n = .used →
    s'.mem.inUse n = .cooldown → s.mem.control n = idle ∧ s.mem.slot (helpingSlot n) = none
  /-- A node with an open transaction of the thread, or with a debt in its helping slot, cannot be
  claimed. -/
  uses : ∀ n, (s.thread t).active.Publishes n ∨ (s.thread t).active.Offers n → s.mem.inUse n = .used

/-- A load with the callers `ks` that has made `x` steps since it gave its node up: it comes to the
failed expectation. -/
structure State.Sinking (cfg : Config) (s : State T) (t : T) (ks : List Cont) (x : ℕ) : Prop where
  /-- It goes on until the expectation has failed. -/
  goes : (s.thread t).active = .failed .nodeSet ∨ ∃ s', s.step cfg t (.go false) = some s'
  /-- It has not returned. -/
  stays : (s.thread t).active.IsRet → (s.thread t).conts ≠ ks
  /-- It makes a bounded number of steps. -/
  steps : x ≤ 6

/-- A run from `s₁` to `s₂` until the load that the thread is in, in the state `s`, has returned,
with the number of its steps. -/
def State.LoadTally (cfg : Config) (s : State T) (t : T) (s₁ s₂ : State T) (x : ℕ) : Prop :=
  Guarded.Tally (fun s a => s.step cfg a.1 a.2)
    (fun s' (a : T × Choice) => s'.Calm cfg a.1 ∧ s'.StaysAbove t (s.thread t).conts a.1)
    (State.loadSteps t (s.thread t).conts) s₁ s₂ x

/-- What holds from the next step of the thread until the load that it is in has returned, whatever
the other threads do. -/
def State.During (cfg : Config) (s : State T) (t : T) (I : State T → ℕ → Prop) : Prop :=
  ∀ c s₁ s₂ x, s.step cfg t c = some s₁ → s.LoadTally cfg t s₁ s₂ x → I s₂ x

/-- The load that publishes its generation next completes. -/
def State.Completes (cfg : Config) (s : State T) (t : T) : Prop :=
  s.During cfg t fun s' x => s'.Loading cfg t (s.thread t).conts x

/-- The load that publishes its generation next fails. -/
structure State.Fails (cfg : Config) (s : State T) (t : T) : Prop where
  /-- It can come to the expectation that its node is there, which fails. -/
  fails : ∃ c s₁ s₂ x, s.step cfg t c = some s₁ ∧ s.LoadTally cfg t s₁ s₂ x ∧
    (s₂.thread t).active = .failed .nodeSet
  /-- It comes to nothing else. -/
  sinks : s.During cfg t fun s' x => s'.Sinking cfg t (s.thread t).conts x

/-- What holds while a load completes. -/
structure State.Falling (cfg : Config) (s : State T) (t : T) (ks : List Cont) (x : ℕ) : Prop where
  accounted : s.Accounted cfg
  covering : s.Covering cfg
  rest : ∃ l k, (s.thread t).conts = l ++ ks ∧ Fallback k (s.thread t).active l ∧ x + k ≤ 15

theorem State.Falling.step {c : Choice} (h : s.Falling cfg t ks x) (hf : s.FreshGen t')
    (hk : s.SameKind cfg t') (hin : s.StaysAbove t ks t') (hs : s.step cfg t' c = some s') :
    s'.Falling cfg t ks (x + State.loadSteps t ks s (t', c) s') := by
  have hrun' := (h.accounted.sound.step hf.1 hs).running t'
  refine ⟨h.accounted.step hf hk hs,
    h.covering.step h.accounted.sound h.accounted.borrowing hf.1 hf.2 hs, ?_⟩
  obtain ⟨l, k, hl, hfall, hle⟩ := h.rest
  obtain ⟨m', th', o', g', hm, rfl⟩ := State.step_move hs
  by_cases hne : t' = t
  · subst hne
    have hrun : ∀ w, th'.active ≠ .failed w := by simpa [State.moved] using hrun'
    obtain ⟨l', k', hl', hfall', hle'⟩ := hm.falls hrun hl hfall hin
    refine ⟨l', k', by simpa [State.moved] using hl', by simpa [State.moved] using hfall', ?_⟩
    simp only [State.loadSteps, true_and]
    omega
  · refine ⟨l, k, by simpa [State.moved, Ne.symm hne] using hl,
      by simpa [State.moved, Ne.symm hne] using hfall, ?_⟩
    simpa [State.loadSteps, hne] using hle

/-- What a load returns owns its reference. -/
theorem Fallback.guard? {g : Guard} (h : Fallback k a []) (hg : a.guard? = some g) :
    g.debt = none := by
  generalize hl : ([] : List Cont) = l at h
  cases h <;> simp_all [Active.guard?]

theorem State.Falling.loading (h : s.Falling cfg t ks x) : s.Loading cfg t ks x := by
  obtain ⟨l, k, hl, hfall, hle⟩ := h.rest
  refine ⟨h.accounted.sound.running t, fun hw => ?_, by omega, fun g hg hk => ?_⟩
  · rcases hfall.goes cfg hl hw with hret | ⟨s', hs⟩
    · exact .inl hret
    · exact .inr ⟨_, s', hs⟩
  · obtain rfl : l = [] := by simpa [hk] using hl
    exact ⟨hfall.guard? hg, (h.accounted.safe h.covering).keeps t g (.inl hg)⟩

theorem State.Sound.retires (h : s.Sound cfg) : s.Retires cfg t := by
  refine ⟨fun t' c s' n hs hu hc => ?_, fun n hn => ?_⟩
  · obtain ⟨m', th', o', g', hm, rfl⟩ := State.step_move hs
    obtain ⟨e, ha⟩ : ∃ e, (s.thread t').active = .cooldown n (.swap e) := by
      have hu' : s.mem.inUse n ≠ .cooldown := by simp [hu]
      cases hm with
      | code hm => exact hm.cools hu' hc
      | resume _ _ hm => exact absurd (hm.mem_eq ▸ hc) hu'
      | receive => exact absurd hc hu'
      | user _ hm => cases hm <;> exact absurd hc hu'
    have hn : n ∈ (s.thread t').nodes := by
      apply State.Sound.mem_nodes
      rw [ha]
      simp [Active.nodes]
    exact ⟨h.control_idle hn (by rw [ha]; exact id),
      h.helpingSlot_none hn (by rw [ha]; exact id)⟩
  · apply h.inUse (t := t)
    rcases hn with hn | hn
    · exact State.Sound.mem_nodes ((h.typed t).active.publishes_mem hn)
    · exact (h.typed t).offers_mem hn

/-! ## Loads that fail -/

/-- A thread whose load, called by `ks`, has given its node up. It makes at most `k` more steps. -/
inductive Thread.Sinks (ks : List Cont) (th : Thread) : ℕ → Prop
  | reserve {n n' : NodeId} {gen : ℕ} {f : LoadFrame} (ha : th.active = .cooldown n .reserve)
    (hk : th.conts = .discard f n' gen :: ks) (hn : (f.localNode th.tls.head).node = none) :
    Sinks ks th 6
  | swap {n n' : NodeId} {e gen : ℕ} {f : LoadFrame} (ha : th.active = .cooldown n (.swap e))
    (hk : th.conts = .discard f n' gen :: ks) (hn : (f.localNode th.tls.head).node = none) :
    Sinks ks th 5
  | release {n n' : NodeId} {e gen : ℕ} {f : LoadFrame} (ha : th.active = .cooldown n (.release e))
    (hk : th.conts = .discard f n' gen :: ks) (hn : (f.localNode th.tls.head).node = none) :
    Sinks ks th 4
  | cooled {c : Contract} {w : Option ℕ} {n' : NodeId} {gen : ℕ} {f : LoadFrame}
    (ha : th.active = .ret c (.unit w)) (hk : th.conts = .discard f n' gen :: ks)
    (hn : (f.localNode th.tls.head).node = none) : Sinks ks th 3
  | candidate {n : NodeId} {gen : ℕ} {f : LoadFrame} (ha : th.active = .load f (.candidate n gen))
    (hk : th.conts = ks) (hn : (f.localNode th.tls.head).node = none) : Sinks ks th 2
  | confirm {n : NodeId} {gen : ℕ} {p : Addr} {f : LoadFrame}
    (ha : th.active = .load f (.confirmHelping n gen p)) (hk : th.conts = ks)
    (hn : (f.localNode th.tls.head).node = none) : Sinks ks th 1
  | failed (ha : th.active = .failed .nodeSet) : Sinks ks th 0

omit [Fintype T] [DecidableEq T] in
/-- **The load sinks** in every step of its own. -/
theorem Move.sinks (h : Move cfg s t m' th' o' g') (hr : th'.active ≠ .failed .cooldownUsed)
    (hk : (s.thread t).Sinks ks k) : ∃ k' < k, th'.Sinks ks k' := by
  have hcode : ∀ {a : Active}, (s.thread t).active = a → a.IsCode → ∃ o,
      Clause cfg (s.thread t).tls s.mem a o ∧ th' = (s.thread t).after (s.thread t).conts o := by
    rintro a rfl hc
    cases h with
    | code h => exact ⟨_, h, rfl⟩
    | resume ha | receive ha | user ha =>
      rw [ha] at hc
      exact hc.elim
  cases hk with
  | reserve ha hk hn =>
    obtain ⟨o, hc, rfl⟩ := hcode ha trivial
    cases hc with
    | cooldown hc =>
      cases hc
      exact ⟨5, by omega, .swap rfl hk hn⟩
  | swap ha hk hn =>
    obtain ⟨o, hc, rfl⟩ := hcode ha trivial
    cases hc with
    | cooldown hc =>
      cases hc with
      | swap => exact ⟨4, by omega, .release rfl hk hn⟩
      | swapFail => exact absurd rfl hr
  | release ha hk hn =>
    obtain ⟨o, hc, rfl⟩ := hcode ha trivial
    cases hc with
    | cooldown hc =>
      cases hc
      exact ⟨3, by omega, .cooled rfl hk hn⟩
  | cooled ha hk hn =>
    cases h with
    | resume _ hk' h =>
      obtain ⟨rfl, rfl⟩ := List.cons.inj (hk'.symm.trans hk)
      cases h
      exact ⟨2, by omega, .candidate rfl rfl hn⟩
    | receive _ hk' =>
      rw [hk] at hk'
      cases hk'
    | code h =>
      rw [ha] at h
      cases h
    | user ha' =>
      rw [ha] at ha'
      cases ha'
  | candidate ha hk hn =>
    obtain ⟨o, hc, rfl⟩ := hcode ha trivial
    cases hc with
    | load hc =>
      cases hc with
      | candidate => exact ⟨1, by omega, .confirm rfl hk hn⟩
      | noNode hpc | notUsed hpc => exact hpc.elim
  | confirm ha hk hn =>
    obtain ⟨o, hc, rfl⟩ := hcode ha trivial
    cases hc with
    | load hc =>
      cases hc with
      | noNode => exact ⟨0, by omega, .failed rfl⟩
      | confirmHelping hs | notUsed _ hs =>
        rw [hn] at hs
        cases hs
  | failed ha =>
    cases h with
    | code h =>
      rw [ha] at h
      cases h
    | resume ha' | receive ha' | user ha' =>
      rw [ha] at ha'
      cases ha'

theorem Thread.Sinks.goes (h : (s.thread t).Sinks ks k) : (s.thread t).active = .failed .nodeSet ∨
    ∃ s', s.step cfg t (.go false) = some s' := by
  cases h with
  | reserve ha | swap ha | release ha | candidate ha | confirm ha =>
    exact .inr ⟨_, State.step_go cfg (by rw [ha]; trivial)⟩
  | cooled ha hk =>
    obtain ⟨s', hs, -⟩ := State.goBack cfg ha hk (by simp) rfl
    exact .inr ⟨s', hs⟩
  | failed ha => exact .inl ha

omit [Fintype T] [DecidableEq T] in
theorem Thread.Sinks.stays (h : (s.thread t).Sinks ks k) (hr : (s.thread t).active.IsRet) :
    (s.thread t).conts ≠ ks := by
  cases h with
  | cooled _ hk =>
    rw [hk]
    exact List.cons_ne_self _ _
  | reserve ha | swap ha | release ha | candidate ha | confirm ha | failed ha =>
    rw [ha] at hr
    exact hr.elim

omit [Fintype T] [DecidableEq T] in
/-- The steps of the load meet all conditions. -/
theorem Thread.Sinks.calm (h : (s.thread t).Sinks ks k) : s.Calm cfg t := by
  cases h with
  | reserve ha | swap ha | release ha | cooled ha | candidate ha | confirm ha | failed ha =>
    exact State.plain (by rw [ha]; rfl) (by rw [ha]; rfl)

theorem State.step_sinks {c : Choice} (h : s.Reachable cfg fun _ _ => True)
    (hk : (s.thread t).Sinks ks k) (hs : s.step cfg t c = some s') :
    ∃ k' < k, (s'.thread t).Sinks ks k' := by
  have hr : s'.Reachable cfg fun _ _ => True := h.tail ⟨(t, c), trivial, hs⟩
  have hasserted := (hr.one_owner.asserted t).1
  obtain ⟨m', th', o', g', hm, rfl⟩ := State.step_move hs
  simpa [State.moved] using hm.sinks (by simpa [State.moved] using hasserted) hk

/-- When nobody else takes a step, the load comes to the expectation. -/
theorem Thread.Sinks.fails {s₀ : State T} (hk : (s.thread t).Sinks (s₀.thread t).conts k)
    (hr : s.Reachable cfg fun _ _ => True) (hx : s₀.LoadTally cfg t s₁ s x) :
    ∃ s₂ x, s₀.LoadTally cfg t s₁ s₂ x ∧ (s₂.thread t).active = .failed .nodeSet := by
  induction k using Nat.strong_induction_on generalizing s x with
  | _ k ih =>
    have hgoes : (s.thread t).active = .failed .nodeSet ∨
      ∃ s', s.step cfg t (.go false) = some s' := hk.goes
    rcases hgoes with ha | ⟨s', hs⟩
    · exact ⟨s, x, hx, ha⟩
    · obtain ⟨k', hlt, hk'⟩ := State.step_sinks hr hk hs
      have hstays : s.StaysAbove t (s₀.thread t).conts t :=
        State.staysAbove_iff.mpr fun _ => hk.stays
      exact ih k' hlt hk' (hr.tail ⟨(t, .go false), trivial, hs⟩)
        (hx.next (a := (t, .go false)) ⟨hk.calm, hstays⟩ hs)

/-- What holds while a load sinks. -/
structure State.Sunk (cfg : Config) (s : State T) (t : T) (ks : List Cont) (x : ℕ) : Prop where
  reachable : s.Reachable cfg fun _ _ => True
  rest : ∃ k, (s.thread t).Sinks ks k ∧ x + k ≤ 6

theorem State.Sunk.step {c : Choice} (h : s.Sunk cfg t ks x) (hs : s.step cfg t' c = some s') :
    s'.Sunk cfg t ks (x + State.loadSteps t ks s (t', c) s') := by
  refine ⟨h.reachable.tail ⟨(t', c), trivial, hs⟩, ?_⟩
  obtain ⟨k, hk, hle⟩ := h.rest
  by_cases hne : t' = t
  · subst hne
    obtain ⟨k', hlt, hk'⟩ := State.step_sinks h.reachable hk hs
    refine ⟨k', hk', ?_⟩
    unfold State.loadSteps
    split <;> omega
  · obtain ⟨m', th', o', g', hm, rfl⟩ := State.step_move hs
    refine ⟨k, by simpa [State.moved, Ne.symm hne] using hk, ?_⟩
    simpa [State.loadSteps, hne] using hle

theorem State.Sunk.sinking (h : s.Sunk cfg t ks x) : s.Sinking cfg t ks x := by
  obtain ⟨k, hk, hle⟩ := h.rest
  exact ⟨hk.goes, hk.stays, by omega⟩

/-- The load with the generation `0` fails: its node has been taken out of the `LocalNode`. -/
theorem State.Sound.wraps (h : s.Sound cfg) (hr : s.Reachable cfg fun _ _ => True)
    (ha : (s.thread t).active = .load f (.publishGen n 0)) : s.Fails cfg t := by
  have hn : n ∈ (s.thread t).nodes := by
    have hok := (h.typed t).active
    have hmem : n ∈ (s.thread t).tls.head.nodes + (s.thread t).active.nodes := by
      rw [ha] at hok ⊢
      exact hok.2.1.mem
    exact State.Sound.mem_nodes hmem
  have hidle := h.control_idle hn (by rw [ha]; exact id)
  -- the generation is published, and the node is given up
  have hsunk : ∀ c s₁, s.step cfg t c = some s₁ → s₁.Sunk cfg t (s.thread t).conts 0 := by
    intro c s₁ hs
    refine ⟨hr.tail ⟨(t, c), trivial, hs⟩, 6, ?_, le_rfl⟩
    obtain ⟨m', th', o', g', hm, rfl⟩ := State.step_move hs
    suffices th'.Sinks (s.thread t).conts 6 by simpa [State.moved] using this
    cases hm with
    | code hm =>
      rw [ha] at hm
      cases hm with
      | load hm =>
        cases hm with
        | publishGen _ hg => exact absurd rfl hg
        | discard => exact .reserve rfl rfl (LoadFrame.setLocal_none f _)
        | publishFull hc => exact absurd hidle hc
        | noNode hpc | notUsed hpc => exact hpc.elim
    | resume ha' | receive ha' | user ha' =>
      rw [ha] at ha'
      cases ha'
  refine ⟨?_, fun c s₁ s₂ x hs hx => State.Sunk.sinking ?_⟩
  · obtain ⟨s₁, hs₁, -⟩ := State.go cfg ha trivial rfl
    obtain ⟨k, hk, -⟩ := (hsunk _ s₁ hs₁).rest
    obtain ⟨s₂, x, hx, hfail⟩ := hk.fails (hr.tail ⟨(t, .go false), trivial, hs₁⟩) .start
    exact ⟨_, s₁, s₂, x, hs₁, hx, hfail⟩
  · exact hx.invariant (I := fun s' x => s'.Sunk cfg t (s.thread t).conts x) (hsunk c s₁ hs)
      fun s' s'' a x hsunk _ hs' => hsunk.step hs'

theorem State.Fails.not_completes (h : s.Fails cfg t) : ¬ s.Completes cfg t := by
  obtain ⟨c, s₁, s₂, x, hs, hx, hfail⟩ := h.fails
  exact fun hc => (hc c s₁ s₂ x hs hx).running .nodeSet hfail

/-- **A load completes** from the publication of its generation on, whatever the other threads do,
if and only if its generation is not `0`. The load with the generation `0` fails. -/
theorem State.Reachable.load_completes (h : s.Reachable cfg (State.Calm cfg))
    (ha : (s.thread t).active = .load f (.publishGen n gen)) (hi : s.NoReissue t) :
    (s.Completes cfg t ↔ gen ≠ 0) ∧ (s.Fails cfg t ↔ gen = 0) ∧
      (gen ≠ 0 → s.During cfg t fun s' _ => s'.Retires cfg t) := by
  have hacc := h.accounted
  have hcov := (h.mono fun _ _ hp => hp.1).covering.2
  have hwraps : gen = 0 → s.Fails cfg t := by
    rintro rfl
    exact hacc.sound.wraps (h.mono fun _ _ _ => trivial) ha
  have hfalls : gen ≠ 0 →
      s.During cfg t fun s' x => s'.Falling cfg t (s.thread t).conts x := by
    intro hg c s₁ s₂ x hs hx
    obtain ⟨hact, hconts, -⟩ := hacc.sound.publish ha hg hs
    have hf : s.FreshGen t := by
      refine ⟨fun hw => hg ?_, hi⟩
      rwa [ha] at hw
    have hk : s.SameKind cfg t := by
      intro d r hd
      rw [ha] at hd
      cases hd
    refine hx.invariant (I := fun s' x => s'.Falling cfg t (s.thread t).conts x) ?_ ?_
    · exact ⟨hacc.step hf hk hs, hcov.step hacc.sound hacc.borrowing hf.1 hf.2 hs, [], 15, hconts,
        hact ▸ .candidate, by omega⟩
    · intro s' s'' a x hfall hp hs'
      exact hfall.step hp.1.1 hp.1.2 hp.2 hs'
  have hcompletes : gen ≠ 0 → s.Completes cfg t :=
    fun hg c s₁ s₂ x hs hx => (hfalls hg c s₁ s₂ x hs hx).loading
  refine ⟨⟨fun hc hg => (hwraps hg).not_completes hc, hcompletes⟩,
    ⟨fun hf => ?_, hwraps⟩, fun hg c s₁ s₂ x hs hx => ?_⟩
  · by_contra hg
    exact hf.not_completes (hcompletes hg)
  · exact (hfalls hg c s₁ s₂ x hs hx).accounted.sound.retires

/-- In the sample run, when the thread `1` publishes the generation `4`. -/
theorem State.Reachable.load_completes_sample : (State.sample 74).Completes .sample 1 := by
  have hrun : (State.sample 74).Reachable .sample (State.Calm .sample) :=
    State.sample_run_of (k := 0) (l := 74) (P := State.Calm .sample)
      (fun _ _ hp => hp.1) (by decide +kernel)
  have hact : ((State.sample 74).thread 1).active = .load ⟨1, 0, none, 0⟩ (.publishGen 0 4) := by
    decide +kernel
  have hi : (State.sample 74).NoReissue 1 := by decide +kernel
  exact (State.Reachable.load_completes hrun hact hi).1.mpr (by decide)

end Run

/-! ## A run to the last generation -/

/-- A machine with words of 32 bits, and storages without fast slots. -/
def Config.narrow : Config := ⟨32, by decide, fun _ => .arc, fun _ => false⟩

section Counting

variable {s s' : State (Fin 1)} {g : ℕ} {f : LoadFrame}

/-- The only thread owns the node `0`, whose counter is at the generation `g`, and the storage `0`
holds null. -/
structure State.Counts (cfg : Config) (s : State (Fin 1)) (g : ℕ) (a : Active) (ks : List Cont) :
    Prop where
  reachable : s.Reachable cfg (State.Calm cfg)
  thread : ∃ off, s.thread 0 = ⟨⟨⟨some 0, off, g⟩, true⟩, a, ks⟩
  live : 0 ∈ s.mem.live
  null : s.mem.ptr 0 = 0

namespace State.Counts

theorem active (h : s.Counts cfg g a ks) : (s.thread 0).active = a := by
  obtain ⟨off, h⟩ := h.thread
  rw [h]

theorem mem_nodes (h : s.Counts cfg g a ks) : 0 ∈ (s.thread 0).nodes := by
  obtain ⟨off, h⟩ := h.thread
  apply State.Sound.mem_nodes
  rw [h]
  simp [LocalNode.nodes]

theorem sound (h : s.Counts cfg g a ks) : s.Sound cfg := h.reachable.accounted.sound

theorem inUse (h : s.Counts cfg g a ks) : s.mem.inUse 0 = .used := h.sound.inUse h.mem_nodes

/-- The thread makes a step that is neither of the two with a condition. -/
theorem step {c : Choice} {g' : ℕ} (h : s.Counts cfg g a ks) (hq : s.Calm cfg 0)
    (hs : s.step cfg 0 c = some s')
    (ht : ∀ off, s.thread 0 = ⟨⟨⟨some 0, off, g⟩, true⟩, a, ks⟩ →
      ∃ off', s'.thread 0 = ⟨⟨⟨some 0, off', g'⟩, true⟩, a', l⟩)
    (hl : s'.mem.live = s.mem.live) (hn : s'.mem.ptr = s.mem.ptr) : s'.Counts cfg g' a' l := by
  obtain ⟨off, hoff⟩ := h.thread
  refine ⟨h.reachable.tail ⟨(0, c), hq, hs⟩, ht off hoff, ?_, ?_⟩
  · rw [hl]
    exact h.live
  · rw [hn]
    exact h.null

/-- The code makes a step. -/
theorem go (h : s.Counts cfg g a ks) (m' : Mem) (g' : ℕ) (a' : Active) (l : List Cont)
    (hq : s.Calm cfg 0) (hc : a.IsCode)
    (ho : ∀ off, ∃ off', a.exec cfg ⟨⟨some 0, off, g⟩, true⟩ s.mem false =
      ⟨m', ⟨some 0, off', g'⟩, a', l⟩)
    (hl : m'.live = s.mem.live) (hn : m'.ptr = s.mem.ptr) :
    ∃ s' : State (Fin 1), s'.Counts cfg g' a' (l ++ ks) ∧ s'.mem = m' := by
  obtain ⟨off, hoff⟩ := h.thread
  obtain ⟨off', ho⟩ := ho off
  obtain ⟨s', hs, hm, ht⟩ := State.go cfg (s := s) (t := 0) h.active hc
    (show _ = (⟨m', ⟨some 0, off', g'⟩, a', l⟩ : Out) by rw [hoff]; exact ho)
  refine ⟨s', h.step hq hs (fun _ _ => ⟨off', ?_⟩) ?_ ?_, hm⟩
  · rw [ht, hoff]
    rfl
  · rw [hm]
    exact hl
  · rw [hm]
    exact hn

theorem plain (h : s.Counts cfg g a ks) (hi : a.issues? = none) (hp : a.pays? cfg = none) :
    s.Calm cfg 0 := by
  apply State.plain
  · rw [h.active]
    exact hi
  · rw [h.active]
    exact hp

/-- The thread begins a load. -/
theorem begins (h : s.Counts cfg g (.user .main) []) (hf : cfg.useFast 0 = false) :
    ∃ (s' : State (Fin 1)) (x : ℕ),
      s'.Counts cfg g (.load ⟨0, x, none, 0⟩ .newHelping) [.user .main (.guard 0 x)] := by
  let f : LoadFrame := ⟨0, s.mem.now 0, none, 0⟩
  have h₁ : State.Counts cfg (s.call 0 .main s.mem ⟨.load f .enter, [], .guard 0 (s.mem.now 0)⟩) g
      (.load f .enter) [.user .main (.guard 0 (s.mem.now 0))] := by
    refine h.step (c := .op (.load 0)) (h.plain rfl rfl) ?_ (fun off hoff => ⟨off, ?_⟩) rfl rfl
    · simp only [State.step, h.active, State.userOp, if_pos h.live]
      rfl
    · simp [State.call, State.set, hoff]
  obtain ⟨s₂, h₂, -⟩ := h₁.go _ g (.load f .newHelping) [] (h₁.plain rfl rfl) trivial
    (fun off => ⟨off, by simp [Active.exec, LoadPc.exec, LoadFrame.begin, f, hf]⟩) rfl rfl
  exact ⟨s₂, _, h₂⟩

/-- The load comes to the publication of the next generation. -/
theorem publishes (h : s.Counts cfg g (.load ⟨0, x, none, 0⟩ .newHelping) ks)
    (hg : IsGen ((g + 4) % 2 ^ cfg.wordBits)) :
    ∃ s' : State (Fin 1), s'.Counts cfg ((g + 4) % 2 ^ cfg.wordBits)
      (.load ⟨0, x, none, 0⟩ (.publishGen 0 ((g + 4) % 2 ^ cfg.wordBits))) ks := by
  let f : LoadFrame := ⟨0, x, none, 0⟩
  -- `new_helping`
  obtain ⟨s₁, h₁, -⟩ := h.go _ g (.load f (.publishAddr 0)) [] (h.plain rfl rfl) trivial
    (fun off => ⟨off, by simp [Active.exec, LoadPc.exec, LoadFrame.localNode, f, h.inUse]⟩) rfl rfl
  -- `get_debt`
  obtain ⟨s₂, h₂, -⟩ := h₁.go (s₁.mem.setActiveAddr 0 0) ((g + 4) % 2 ^ cfg.wordBits)
    (.load f (.publishGen 0 ((g + 4) % 2 ^ cfg.wordBits))) [] (h₁.plain rfl rfl) trivial
    (fun off => ⟨off, by
      simp [Active.exec, LoadPc.exec, LoadFrame.localNode, LoadFrame.setLocal, f, hg.and_genTag]⟩)
    rfl rfl
  exact ⟨s₂, h₂⟩

/-- The load goes on from the publication of a generation that is not `0` and returns. -/
theorem returns (h : s.Counts cfg g (.load ⟨0, x, none, 0⟩ (.publishGen 0 g))
    [.user .main (.guard 0 x)]) (hg : g ≠ 0) :
    ∃ s' : State (Fin 1), s'.Counts cfg g (.user .main) [] := by
  have hidle := h.sound.control_idle h.mem_nodes (by rw [h.active]; exact id)
  let f : LoadFrame := ⟨0, x, none, 0⟩
  let r : Ref := ⟨cfg.kind 0, 0⟩
  have hr : ¬ r.Counted := by simp [Ref.Counted, r]
  have hq : s.Calm cfg 0 := by
    refine ⟨⟨fun hw => ?_, fun n w _ t hw => ?_⟩, fun d r hd => ?_⟩
    · rw [h.active] at hw
      exact hg hw
    · obtain rfl : t = 0 := Subsingleton.elim _ _
      obtain ⟨off, hoff⟩ := h.thread
      rw [hoff] at hw
      simp [Thread.Watches, Active.Watches, Cont.Watches] at hw
    · rw [h.active] at hd
      cases hd
  -- `control.swap(gen)` and `storage.load`
  obtain ⟨s₁, h₁, hm₁⟩ := h.go (s.mem.publish 0 (genWord g)) g
    (.load f (.candidate 0 g)) [] hq trivial
    (fun off => ⟨off, by simp [Active.exec, LoadPc.exec, f, hidle, hg]⟩) rfl rfl
  obtain ⟨s₂, h₂, hm₂⟩ := h₁.go s₁.mem g (.load f (.confirmHelping 0 g 0)) [] (h₁.plain rfl rfl)
    trivial (fun off => ⟨off, by simp [Active.exec, LoadPc.exec, f, h₁.null]⟩) rfl rfl
  -- `confirm_helping`
  obtain ⟨s₃, h₃, hm₃⟩ := h₂.go s₂.mem g (.load f (.offerDebt 0 g 0)) [] (h₂.plain rfl rfl) trivial
    (fun off => ⟨off, by simp [Active.exec, LoadPc.exec, LoadFrame.localNode, f, h₂.inUse]⟩) rfl rfl
  have hslot := h₃.sound.helpingSlot_none h₃.mem_nodes (by rw [h₃.active]; exact id)
  obtain ⟨s₄, h₄, hm₄⟩ := h₃.go (s₃.mem.setSlot (helpingSlot 0) (some r)) g
    (.load f (.closeControl 0 g 0)) [] (h₃.plain rfl rfl) trivial
    (fun off => ⟨off, by simp [Active.exec, LoadPc.exec, f, r, hslot]⟩) rfl rfl
  have hcontrol : s₄.mem.control 0 = genWord g := by
    rw [hm₄, Mem.setSlot_control, hm₃, hm₂, hm₁]
    simp
  obtain ⟨s₅, h₅, hm₅⟩ := h₄.go (s₄.mem.setControl 0 idle) g
    (.intoInner ⟨r, some (helpingSlot 0)⟩ .start) [.fallback f r] (h₄.plain rfl rfl) trivial
    (fun off => ⟨off, by simp [Active.exec, LoadPc.exec, f, r, hcontrol]⟩) rfl rfl
  -- `into_inner`
  obtain ⟨s₆, h₆, hm₆⟩ := h₅.go (s₅.mem.inc r) g
    (.intoInner ⟨r, some (helpingSlot 0)⟩ (.pay (helpingSlot 0))) []
    (h₅.plain rfl rfl) trivial (fun off => ⟨off, rfl⟩) rfl rfl
  have howes : s₆.mem.Owes (helpingSlot 0) r := by
    rw [hm₆, hm₅, hm₄]
    simp [Mem.Owes]
  have hq₆ : s₆.Calm cfg 0 := by
    refine ⟨⟨fun hw => ?_, fun n w hw => ?_⟩, fun d r' hd hc => ?_⟩
    · rw [h₆.active] at hw
      exact hw.elim
    · rw [h₆.active] at hw
      exact hw.elim
    · rw [h₆.active] at hd
      obtain ⟨rfl, rfl⟩ : helpingSlot 0 = d ∧ r = r' := by simpa [Active.pays?] using hd
      exact absurd hc hr
  obtain ⟨s₇, h₇, hm₇⟩ := h₆.go (s₆.mem.setSlot (helpingSlot 0) none) g
    (.ret (.is r) (.value r none)) []
    hq₆ trivial (fun off => ⟨off, by simp [Active.exec, IntoInnerPc.exec, howes]⟩) rfl rfl
  -- the end of `fallback` and of `load`
  obtain ⟨off, hoff⟩ := h₇.thread
  obtain ⟨s₈, hs₈, hm₈, ht₈⟩ := State.goBack cfg (s := s₇) (t := 0) h₇.active
    (by rw [hoff]; rfl) (by simp) rfl
  have h₈ : s₈.Counts cfg g (.load f (.leave ⟨r, none⟩)) [.user .main (.guard 0 x)] :=
    h₇.step (h₇.plain rfl rfl) hs₈ (fun off hoff => ⟨off, by rw [ht₈, hoff]; rfl⟩)
      (by rw [hm₈]) (by rw [hm₈])
  obtain ⟨s₉, h₉, -⟩ := h₈.go s₈.mem g (.ret (.guard 0 x) (.guard ⟨r, none⟩ none)) []
    (h₈.plain rfl rfl) trivial (fun off => ⟨off, rfl⟩) rfl rfl
  obtain ⟨off, hoff⟩ := h₉.thread
  obtain ⟨s', hs', hm', ht'⟩ := State.goUser cfg h₉.active
    (show _ = [Cont.user _ _] by rw [hoff]; rfl)
  exact ⟨s', h₉.step (h₉.plain rfl rfl) hs' (fun off hoff => ⟨off, by rw [ht', hoff]⟩) (by rw [hm'])
    (by rw [hm'])⟩

end State.Counts

/-- The thread creates a storage with null in it, and the node `0` for its first load. -/
theorem State.first_load (cfg : Config) (hf : cfg.useFast 0 = false) : ∃ s : State (Fin 1),
    s.Counts cfg 0 (.load ⟨0, 0, none, 0⟩ .newHelping) [.user .main (.guard 0 0)] := by
  let f : LoadFrame := ⟨0, 0, none, 0⟩
  let m := Mem.empty.newStorage 0 0
  let s₀ : State (Fin 1) := ⟨m, fun _ => .idle, 0, 0⟩
  have hnext : ∀ {s s' : State (Fin 1)} {a c}, s.Reachable cfg (State.Calm cfg) →
      (s.thread 0).active = a → a.issues? = none → a.pays? cfg = none →
      s.step cfg 0 c = some s' → s'.Reachable cfg (State.Calm cfg) := by
    rintro s s' a c hr rfl hi hp hs
    exact hr.tail ⟨(0, c), State.plain hi hp, hs⟩
  -- `ArcSwapAny::new`
  have hs₀ : State.init.step cfg 0 (.op (.new 0 0)) = some s₀ := by
    have hb : (State.init : State (Fin 1)).Unborrowed 0 := by decide
    have hg : (State.init : State (Fin 1)).Gives ⟨cfg.kind 0, 0⟩ := .inr (by simp [Ref.Counted])
    have hl : (0 : StorageId) ∉ (State.init : State (Fin 1)).mem.live := by decide
    show (State.init : State (Fin 1)).userOp cfg 0 .main (.new 0 0) = _
    simp only [State.userOp, if_pos (And.intro hl (And.intro hb hg))]
    rfl
  have h₀ : s₀.Reachable cfg (State.Calm cfg) :=
    hnext .refl rfl rfl rfl hs₀
  -- the load finds no node
  have hs₁ : s₀.step cfg 0 (.op (.load 0)) =
      some (s₀.call 0 .main m ⟨.load f .enter, [], .guard 0 0⟩) := rfl
  obtain ⟨s₂, hs₂, hm₂, ht₂⟩ := State.go cfg (t := 0)
    (s := s₀.call 0 .main m ⟨.load f .enter, [], .guard 0 0⟩) (a := .load f .enter)
    (o := ⟨m, .fresh none, .get .head, [.loadNode f]⟩) rfl trivial rfl
  obtain ⟨s₃, hs₃, hm₃, ht₃⟩ := State.go cfg (t := 0) (s := s₂) (a := .get .head)
    (o := ⟨m, .fresh none, .get .create, []⟩) (by rw [ht₂]; rfl) trivial (by rw [hm₂, ht₂]; rfl)
  obtain ⟨s₄, hs₄, hm₄, ht₄⟩ := State.go cfg (t := 0) (s := s₃) (a := .get .create)
    (o := ⟨m.newNode, .fresh none, .get (.pushHead 0), []⟩) (by rw [ht₃]; rfl) trivial
    (by rw [hm₃, ht₃]; rfl)
  obtain ⟨s₅, hs₅, hm₅, ht₅⟩ := State.go cfg (t := 0) (s := s₄) (a := .get (.pushHead 0))
    (o := ⟨m.newNode, .fresh none, .get (.push 0 none), []⟩) (by rw [ht₄]; rfl) trivial
    (by rw [hm₄, ht₄]; rfl)
  obtain ⟨s₆, hs₆, hm₆, ht₆⟩ := State.go cfg (t := 0) (s := s₅)
    (a := .get (.push 0 none))
    (o := ⟨(m.newNode.setNext 0 none).push 0, .fresh none, .ret .node (.node 0), []⟩)
    (by rw [ht₅]; rfl) trivial (by rw [hm₅, ht₅]; rfl)
  -- the node becomes the one of the thread
  obtain ⟨s₇, hs₇, hm₇, ht₇⟩ := State.goBack cfg (t := 0) (s := s₆) (c := .node)
    (v := .node 0) (q := .loadNode f) (l := [.user .main (.guard 0 0)])
    (o := ⟨s₆.mem, .fresh (some 0), .load f .newHelping, []⟩) (by rw [ht₆]; rfl)
    (by rw [ht₆, ht₅, ht₄, ht₃, ht₂]; rfl) (by simp)
    (by rw [ht₆, ht₅, ht₄, ht₃, ht₂]; simp [Cont.resume, LoadFrame.begin, f, hf]; rfl)
  refine ⟨s₇, ?_, ⟨0, ?_⟩, ?_, ?_⟩
  · have h₁ := hnext h₀ rfl rfl rfl hs₁
    have h₂ := hnext h₁ rfl rfl rfl hs₂
    have h₃ := hnext h₂ (by rw [ht₂]) rfl rfl hs₃
    have h₄ := hnext h₃ (by rw [ht₃]) rfl rfl hs₄
    have h₅ := hnext h₄ (by rw [ht₄]) rfl rfl hs₅
    have h₆ := hnext h₅ (by rw [ht₅]) rfl rfl hs₆
    exact hnext h₆ (by rw [ht₆]) rfl rfl hs₇
  · rw [ht₇, ht₆, ht₅, ht₄, ht₃, ht₂]
    rfl
  · rw [hm₇, hm₆]
    decide
  · rw [hm₇, hm₆]
    rfl

/-- The generations are used one after the other. -/
theorem State.counts_reaches (hf : cfg.useFast 0 = false) {k : ℕ} (hk : 4 * k < 2 ^ cfg.wordBits) :
    ∃ (s : State (Fin 1)) (x : ℕ), s.Counts cfg (4 * k) (.load ⟨0, x, none, 0⟩ .newHelping)
      [.user .main (.guard 0 x)] := by
  induction k with
  | zero =>
    obtain ⟨s, h⟩ := State.first_load cfg hf
    exact ⟨s, 0, h⟩
  | succ k ih =>
    obtain ⟨s₁, x, h₁⟩ := ih (by omega)
    have hnext : (4 * k + 4) % 2 ^ cfg.wordBits = 4 * (k + 1) := by
      rw [Nat.mod_eq_of_lt (by omega)]
      omega
    obtain ⟨s₂, h₂⟩ := h₁.publishes (by rw [hnext]; exact Nat.mul_mod_right 4 _)
    rw [hnext] at h₂
    obtain ⟨s₃, h₃⟩ := h₂.returns (by omega)
    exact h₃.begins hf

/-- A thread that loads from a storage without fast slots comes to publish the generation `0`. -/
theorem State.counts_wraps (hf : cfg.useFast 0 = false) : ∃ (s : State (Fin 1)) (x : ℕ),
    s.Counts cfg 0 (.load ⟨0, x, none, 0⟩ (.publishGen 0 0)) [.user .main (.guard 0 x)] := by
  -- the last generation before the wrap
  obtain ⟨k, hk⟩ : 4 ∣ 2 ^ cfg.wordBits := pow_dvd_pow 2 cfg.wide
  have hpos : 0 < 2 ^ cfg.wordBits := Nat.two_pow_pos _
  obtain ⟨s₁, x, h₁⟩ := State.counts_reaches (k := k - 1) hf (by omega)
  have hnext : (4 * (k - 1) + 4) % 2 ^ cfg.wordBits = 0 := by
    rw [show 4 * (k - 1) + 4 = 2 ^ cfg.wordBits by omega]
    exact Nat.mod_self _
  obtain ⟨s₂, h₂⟩ := h₁.publishes (by rw [hnext]; rfl)
  rw [hnext] at h₂
  exact ⟨s₂, x, h₂⟩

/-- **The generations wrap around** for every width of the machine words, and the load with the
generation `0` fails. -/
theorem State.load_wraps (hf : cfg.useFast 0 = false) :
    ∃ (s : State (Fin 1)) (f : LoadFrame), s.Reachable cfg (State.Calm cfg) ∧
      (s.thread 0).active = .load f (.publishGen 0 0) ∧ s.Fails cfg 0 := by
  obtain ⟨s, x, h⟩ := State.counts_wraps hf
  exact ⟨s, _, h.reachable, h.active,
    h.sound.wraps (h.reachable.mono fun _ _ _ => trivial) h.active⟩

/-- On the machine with words of 32 bits. -/
theorem State.load_wraps_sample : ∃ (s : State (Fin 1)) (f : LoadFrame),
    s.Reachable .narrow (State.Calm .narrow) ∧
      (s.thread 0).active = .load f (.publishGen 0 0) ∧ s.Fails .narrow 0 :=
  State.load_wraps rfl

/-- **A load can fail to complete**, on the machine with words of 32 bits and with no other thread:
the expectation that its node is there fails. -/
theorem State.load_incomplete : ∃ (s : State (Fin 1)) (f : LoadFrame),
    s.Reachable .narrow (State.Calm .narrow) ∧
      (s.thread 0).active = .load f (.publishGen 0 0) ∧ s.Fails .narrow 0 ∧
      ¬ s.Completes .narrow 0 := by
  obtain ⟨s, x, h⟩ := State.counts_wraps (rfl : Config.narrow.useFast 0 = false)
  have hfails := h.sound.wraps (h.reachable.mono fun _ _ _ => trivial) h.active
  exact ⟨s, _, h.reachable, h.active, hfails, hfails.not_completes⟩

end Counting

end ArcSwap
