import ArcSwap.Foundations.Compositions
import ArcSwap.Values.Attempts

/-!
# Calls of `rcu` compose

When a storage is only written to by `rcu`, its values form a chain: each call makes the next value
of the one before, and it does so once. The last value is what the calls make of the first one, in
the order in which they have written.
-/

namespace ArcSwap

variable {T : Type*} {cfg : Config} {tls : Tls} {m m' : Mem} {s s' s₀ s₁ s₂ v w : State T}
  {t t' : T} {x : StorageId} {c c' : Content} {n : ℕ}

/-! ## Who writes -/

/-- The operation writes to the storage, or it ends it, and it is not an `rcu`. -/
def Op.Overwrites (x : StorageId) : Op → Prop
  | .store y _ | .swap y _ | .compareAndSwap y _ _ | .consume y | .dropStorage y => y = x
  | _ => False

instance (x : StorageId) (o : Op) : Decidable (o.Overwrites x) := by
  cases o <;> unfold Op.Overwrites <;> infer_instance

/-- The thread calls such an operation. -/
def Choice.Overwrites (x : StorageId) : Choice → Prop
  | .op o => o.Overwrites x
  | _ => False

instance (x : StorageId) (a : Choice) : Decidable (a.Overwrites x) := by
  cases a <;> unfold Choice.Overwrites <;> infer_instance

/-- An operation that writes to the storage waits for this. -/
def Contract.Writes (x : StorageId) : Contract → Prop
  | .swap f => f.storage = x
  | .cas f => f.storage = x
  | .rcu f => f.storage = x
  | _ => False

theorem Op.writes_contract {o : Op} (h : (o.contract cfg m).Writes x) :
    o.Overwrites x ∨ o = .rcu x := by
  cases o with
  | store | swap | compareAndSwap => exact .inl h
  | rcu y =>
    obtain rfl : y = x := h
    exact .inr rfl
  | _ => exact h.elim

/-- The callers from a member on that is not among the first ones. -/
theorem append_cons_eq {A : Type*} {l l' r ks : List A} {y : A} (h : l' ++ y :: ks = l ++ r)
    (hy : y ∉ l) : ∃ l₁, r = l₁ ++ y :: ks := by
  rcases List.append_eq_append_iff.mp h with ⟨a, rfl, ha⟩ | ⟨a, -, ha⟩
  · cases a with
    | nil => exact ⟨[], ha.symm⟩
    | cons z a =>
      obtain ⟨rfl, -⟩ := List.cons.inj ha
      exact absurd (by simp) hy
  · exact ⟨a, ha⟩

theorem Clause.calls_user {a : Active} {o : Out} (h : Clause cfg tls m a o) {u : UserKind}
    {d : Contract} : .user u d ∉ o.calls := by
  cases h with
  | swap => simp [SwapFrame.exec]
  | get h | cooldown h | dec h | cas h | dropGuard h | intoInner h | load h | payAll h =>
    cases h <;> simp

theorem Resumed.calls_user {k : Cont} {r : Ret} {o : Out} (h : Resumed cfg tls m k r o)
    {u : UserKind} {d : Contract} : .user u d ∉ o.calls := by
  cases h <;> simp

section Step

variable [Fintype T] [DecidableEq T] {a : Choice} {u : UserKind} {d : Contract} {l ks : List Cont}

/-- User code that calls an operation waits for it. -/
theorem State.userOp_conts {o : Op} (h : s.userOp cfg t u o = some s') :
    (s'.thread t).conts = (s.thread t).conts ∨ ∃ l : List Cont, (∀ u d, .user u d ∉ l) ∧
      (s'.thread t).conts = l ++ .user u (o.contract cfg s.mem) :: (s.thread t).conts := by
  cases o <;> simp only [State.userOp, Option.ite_none_right_eq_some, Option.some.injEq] at h
  case alloc | clone | downgrade | upgrade | fromInner | new =>
    obtain ⟨-, rfl⟩ := h
    exact .inl rfl
  case exit =>
    obtain ⟨⟨hk, -⟩, h⟩ := h
    split at h <;> obtain rfl := Option.some.inj h
    · exact .inl (by simp [State.set])
    · exact .inr ⟨[], by simp, by simp [State.set, hk, Op.contract]⟩
  all_goals
    obtain ⟨-, rfl⟩ := h
    refine .inr ⟨_, ?_, by simp only [State.call, State.set, Function.update_self]; rfl⟩
    simp [SwapFrame.invoke, CasFrame.invoke, RcuFrame.invoke]

omit [Fintype T] in
/-- Nested user code that ends leaves everything else alone. -/
theorem State.userReturn_eq (h : s.userReturn cfg t u a = some s') :
    s'.mem = s.mem ∧ (s'.thread t).conts = (s.thread t).conts := by
  cases u <;> cases a <;> simp only [State.userReturn, reduceCtorEq] at h
  case destructor.done => simp [← Option.some.inj h, State.set]
  case closure.result =>
    obtain ⟨-, h⟩ := Option.ite_none_right_eq_some.mp h
    simp [← Option.some.inj h, State.set]
  case closure.panic => simp [← Option.some.inj h, State.set]

/-- A step is taken by user code that calls an operation, or it changes neither what user code waits
for nor which storages there are. -/
theorem State.step_op (hs : s.step cfg t a = some s') :
    (∃ u o, (s.thread t).active = .user u ∧ a = .op o ∧ s.userOp cfg t u o = some s') ∨
      (s'.mem.live = s.mem.live ∧ ∃ l r l', (∀ u d, .user u d ∉ l) ∧
        (s'.thread t).conts = l ++ r ∧ (s.thread t).conts = l' ++ r) := by
  have hnil : ∀ u d, Cont.user u d ∉ ([] : List Cont) := fun _ _ => List.not_mem_nil
  cases ha : (s.thread t).active with
  | user u =>
    cases a with
    | op o => exact .inl ⟨u, o, rfl, rfl, by simpa only [State.step, ha] using hs⟩
    | _ =>
      obtain ⟨hm, hk⟩ := State.userReturn_eq (u := u) (by simpa only [State.step, ha] using hs)
      exact .inr ⟨by rw [hm], [], _, [], hnil, hk, rfl⟩
  | _ =>
    obtain ⟨m', th', o', g', hm, rfl⟩ := State.step_move hs
    refine .inr ?_
    cases hm with
    | code hc =>
      exact ⟨hc.live, _, _, [], fun _ _ => hc.calls_user, by simp [State.moved, Thread.after], rfl⟩
    | resume _ hks hr =>
      exact ⟨congrArg Mem.live hr.mem_eq, _, _, [_], fun _ _ => hr.calls_user,
        by simp [State.moved, Thread.after], hks⟩
    | receive _ hks => exact ⟨rfl, [], _, [_], hnil, by simp [State.moved], hks⟩
    | user hu => exact absurd (ha.symm.trans hu) (by simp)

/-- User code that waits has been waiting before the step, or it has called an operation. -/
theorem State.step_waits (hs : s.step cfg t a = some s')
    (hk : (s'.thread t).conts = l ++ .user u d :: ks) :
    (∃ l, (s.thread t).conts = l ++ .user u d :: ks) ∨ ∃ o, a = .op o ∧
      (s.thread t).active = .user u ∧ d = o.contract cfg s.mem ∧ ks = (s.thread t).conts := by
  rcases State.step_op hs with ⟨u₀, o, ha, rfl, ho⟩ | ⟨-, c, r, c', hc, he, he'⟩
  · rcases State.userOp_conts ho with he | ⟨c, hc, he⟩
    · exact .inl ⟨l, he ▸ hk⟩
    · obtain ⟨l₁, hl₁⟩ := append_cons_eq (hk.symm.trans he) (hc u d)
      cases l₁ with
      | nil =>
        obtain ⟨hu, rfl⟩ := List.cons.inj hl₁
        obtain ⟨rfl, rfl⟩ := Cont.user.inj hu
        exact .inr ⟨o, rfl, ha, rfl, rfl⟩
      | cons q l₁ => exact .inl ⟨l₁, (List.cons.inj hl₁).2⟩
  · obtain ⟨l₁, rfl⟩ := append_cons_eq (hk.symm.trans he) (hc u d)
    exact .inl ⟨c' ++ l₁, by rw [he', List.append_assoc]⟩

/-- A storage stays as long as nobody ends it. -/
theorem State.step_live (hs : s.step cfg t a = some s') (ha : ¬ a.Overwrites x)
    (hx : x ∈ s.mem.live) : x ∈ s'.mem.live := by
  rcases State.step_op hs with ⟨u, o, hu, rfl, ho⟩ | ⟨hl, -⟩
  · cases o <;> simp only [State.userOp, Option.ite_none_right_eq_some, Option.some.injEq] at ho
    case new =>
      obtain ⟨-, rfl⟩ := ho
      exact Finset.mem_insert_of_mem hx
    case consume y | dropStorage y =>
      obtain ⟨-, rfl⟩ := ho
      exact Finset.mem_erase.mpr ⟨fun he => ha he.symm, hx⟩
    case exit =>
      obtain ⟨-, ho⟩ := ho
      split at ho <;> obtain rfl := Option.some.inj ho <;> exact hx
    all_goals
      obtain ⟨-, rfl⟩ := ho
      exact hx
  · exact hl ▸ hx

/-- Who writes to a storage that exists. -/
theorem State.step_log (hs : s.step cfg t a = some s') (hx : x ∈ s.mem.live) :
    s'.mem.log x = s.mem.log x ∨ (∃ f, (s.thread t).active = .swap f ∧ f.storage = x) ∨
      ∃ g old, (s.thread t).active = .cas g old ∧ g.storage = x ∧ s.mem.ptr x = g.current ∧
        s'.mem.log x = s.mem.log x ++ [⟨s.mem.content g.new.addr, g.call⟩] := by
  obtain ⟨m', th', o', g', hm, rfl⟩ := State.step_move hs
  show m'.log x = _ ∨ _ ∨ ∃ g old, _ ∧ _ ∧ _ ∧ m'.log x = _
  cases hm with
  | code hc =>
    generalize ha : (s.thread t).active = a at hc
    cases hc with
    | @swap f =>
      by_cases hf : f.storage = x
      · exact .inr (.inl ⟨f, rfl, hf⟩)
      · exact .inl (by simp [SwapFrame.exec, Ne.symm hf])
    | @cas g old _ hc =>
      cases hc with
      | swapped he =>
        by_cases hg : g.storage = x
        · subst hg
          exact .inr (.inr ⟨g, old, rfl, rfl, he, by simp⟩)
        · exact .inl (by simp [Ne.symm hg])
      | late => exact .inl rfl
    | get h | cooldown h | dec h | dropGuard h | intoInner h | load h | payAll h =>
      cases h <;> exact .inl rfl
  | resume _ _ hr => exact .inl (by rw [hr.mem_eq])
  | receive => exact .inl rfl
  | user _ hu =>
    cases hu with
    | @new y p hy =>
      have hne : x ≠ y := fun he => hy (he ▸ hx)
      exact .inl (by simp [hne])
    | _ => exact .inl rfl

end Step

/-! ## The chain -/

section Chain

variable [Fintype T] [DecidableEq T] {k : RefKind}

/-- A run in which only `rcu` writes to the storage. -/
abbrev State.RcuRun (cfg : Config) (x : StorageId) : State T → State T → Prop :=
  Guarded.Run (fun s a => s.step cfg a.1 a.2) fun s (a : T × Choice) =>
    s.FreshGen a.1 ∧ ¬ a.2.Overwrites x

/-- No operation that writes to the storage is in progress. -/
def State.NoWriter (s : State T) (x : StorageId) : Prop :=
  ∀ t u d, .user u d ∈ (s.thread t).conts → ¬ d.Writes x

/-- The thread has called `rcu` in the state `v` of the run. -/
structure State.Called (cfg : Config) (x : StorageId) (s₀ s : State T) (t : T) (v : State T) :
    Prop where
  before : State.RcuRun cfg x s₀ v
  call : ∃ v', v.step cfg t (.op (.rcu x)) = some v' ∧ State.RcuRun cfg x v' s

/-- The call of `rcu` with the number `n` has been made, and it has not returned. -/
def State.Pending (cfg : Config) (x : StorageId) (s₀ s : State T) (n : ℕ) : Prop :=
  ∃ t v u l, State.Called cfg x s₀ s t v ∧ v.mem.calls = n ∧ (v.thread t).active = .user u ∧
    (s.thread t).conts = l ++ .user u ((Op.rcu x).contract cfg v.mem) :: (v.thread t).conts

/-- The call of `rcu` with the number `n` has been made, and it has returned a value. -/
def State.Completed (cfg : Config) (x : StorageId) (s₀ s : State T) (n : ℕ) : Prop :=
  ∃ t v w r k, State.Called cfg x s₀ w t v ∧ v.mem.calls = n ∧
    v.Returns cfg t (.rcu x) w (.value r k) ∧ State.RcuRun cfg x w s

/-- A closure of the call with the number `n` has made `c'` of `c`. -/
def State.Makes (cfg : Config) (x : StorageId) (s₀ s : State T) (n : ℕ) (c c' : Content) : Prop :=
  ∃ t u f, State.RcuRun cfg x s₀ u ∧ State.RcuRun cfg x u s ∧ u.Computes t f c c' ∧
    f.storage = x ∧ f.call = n

/-- The calls `ns` of `rcu` have written to the storage since `s₀`, in this order: they have made
the value that it holds in `s` of the one that it held in `s₀`. -/
structure State.Composing (cfg : Config) (x : StorageId) (s₀ s : State T) (ns : List ℕ) : Prop where
  order : (s.mem.log x).map Entry.call = (s₀.mem.log x).map Entry.call ++ ns
  values : Composes (State.Makes cfg x s₀ s) (s₀.mem.content (s₀.mem.ptr x)) ns
    (s.mem.content (s.mem.ptr x))
  made : ∀ n ∈ ns, State.Pending cfg x s₀ s n ∨ State.Completed cfg x s₀ s n

/-- A call that has not returned is an operation in progress. -/
theorem State.Pending.not_noWriter (h : State.Pending cfg x s₀ s n) : ¬ s.NoWriter x := by
  obtain ⟨t, v, u, l, -, -, -, hk⟩ := h
  intro hn
  have hmem : .user u ((Op.rcu x).contract cfg v.mem) ∈ (s.thread t).conts := by simp [hk]
  exact hn t u _ hmem rfl

/-- What is known when the storage has only been written to by `rcu`. -/
structure State.Chained (cfg : Config) (x : StorageId) (s₀ s : State T) : Prop where
  live : x ∈ s.mem.live
  waits : ∀ t l u d ks, (s.thread t).conts = l ++ .user u d :: ks → d.Writes x →
    ∃ v, State.Called cfg x s₀ s t v ∧ (v.thread t).active = .user u ∧
      d = (Op.rcu x).contract cfg v.mem ∧ ks = (v.thread t).conts
  meant : s.Meant fun _ f c c' =>
    s₀.mem.calls ≤ f.call → f.storage = x → State.Makes cfg x s₀ s f.call c c'
  composed : ∃ ns, State.Composing cfg x s₀ s ns

section Tail

variable {a : T × Choice} {c c' : Content}

theorem State.Called.tail (h : State.Called cfg x s₀ s t v)
    (hn : State.RcuRun cfg x s s') : State.Called cfg x s₀ s' t v := by
  obtain ⟨hv, v', hs, hr⟩ := h
  exact ⟨hv, v', hs, hr.trans hn⟩

theorem State.Makes.tail (h : State.Makes cfg x s₀ s n c c') (hn : State.RcuRun cfg x s s') :
    State.Makes cfg x s₀ s' n c c' := by
  obtain ⟨t, u, f, h₁, h₂, hc⟩ := h
  exact ⟨t, u, f, h₁, h₂.trans hn, hc⟩

theorem State.Completed.tail (h : State.Completed cfg x s₀ s n) (hn : State.RcuRun cfg x s s') :
    State.Completed cfg x s₀ s' n := by
  obtain ⟨t, v, w, r, k, hc, he, hret, hr⟩ := h
  exact ⟨t, v, w, r, k, hc, he, hret, hr.trans hn⟩

end Tail

/-- A call that has written goes on, or it returns a value. -/
theorem State.Pending.step {a : Choice} (h : State.Pending cfg x s₀ s n) (hl : s.Linear cfg)
    (hw : ∃ i, s.mem.WrittenBy n x i) (hs : s.step cfg t a = some s')
    (hn : State.RcuRun cfg x s s') :
    State.Pending cfg x s₀ s' n ∨ State.Completed cfg x s₀ s' n := by
  obtain ⟨t₁, v, u, l, hc, rfl, hu, hk⟩ := h
  obtain ⟨m', th', o', g', hm, rfl⟩ := State.step_move hs
  by_cases ht : t₁ = t
  · subst ht
    rcases hm.cont_stays hk with ⟨-, l', hl'⟩ | ⟨d, r, ha, rfl, -⟩
    · exact .inl ⟨t₁, v, u, l', hc.tail hn, rfl, hu, by simpa [State.moved] using hl'⟩
    · have hret : v.Returns cfg t₁ (.rcu x) s r := ⟨u, d, hu, ha, hk⟩
      rcases (hl.returned hret).2.1 with ⟨q, k, rfl, -⟩ | rfl
      · exact .inr ⟨t₁, v, s, q, some k, hc, rfl, hret, hn⟩
      · obtain ⟨i, hi⟩ := hw
        exact absurd hi (hl.rcu_panicked hret x i)
  · exact .inl ⟨t₁, v, u, l, hc.tail hn, rfl, hu, by simpa [State.moved, ht] using hk⟩

/-- The exchange of a `compare_and_swap` on such a storage is the one of an `rcu`. -/
theorem State.Chained.cas {g : CasFrame} {old : Guard} (h : State.Chained cfg x s₀ s)
    (ht : (s.thread t).Typed cfg) (ha : (s.thread t).active = .cas g old) (hg : g.storage = x) :
    ∃ v u cur given, State.Called cfg x s₀ s t v ∧ (v.thread t).active = .user u ∧
      (s.thread t).conts = .rcuSwapped ⟨x, v.mem.now x, v.mem.calls⟩ cur given g ::
        .user u ((Op.rcu x).contract cfg v.mem) :: (v.thread t).conts := by
  have hl := ht.linked
  rw [ha] at hl
  -- who waits for the `compare_and_swap`
  obtain ⟨q, ks, hk⟩ : ∃ q ks, (s.thread t).conts = q :: ks :=
    List.exists_cons_of_ne_nil fun hn => by simp [hn, Active.promise] at hl
  rw [hk] at hl
  obtain ⟨he, hl⟩ := hl
  cases q <;> simp only [Active.promise, Cont.expects, reduceCtorEq] at he
  case user u d =>
    obtain ⟨v, -, -, hd, -⟩ := h.waits t [] u d ks hk (he ▸ hg)
    exact absurd (he.trans hd) (by simp [Op.contract])
  case rcuSwapped f cur given g' =>
    obtain rfl := Contract.cas.inj he
    obtain ⟨-, hst, -, -⟩ := ht.conts (.rcuSwapped f cur given g) (by rw [hk]; exact .head _)
    -- who waits for the `rcu`
    obtain ⟨q, ks', rfl⟩ : ∃ q ks', ks = q :: ks' :=
      List.exists_cons_of_ne_nil fun hn => by simp [hn, Cont.promise] at hl
    obtain ⟨he', hl⟩ := hl
    cases q <;> simp only [Cont.promise, Cont.expects, reduceCtorEq] at he'
    case user u d =>
      obtain ⟨v, hc, hu, hd, rfl⟩ := h.waits t [.rcuSwapped f cur given g] u d ks' hk
        (he' ▸ hst.symm.trans hg)
      obtain rfl : f = ⟨x, v.mem.now x, v.mem.calls⟩ := Contract.rcu.inj (he'.trans hd)
      exact ⟨v, u, cur, given, hc, hu, hd ▸ hk⟩

/-- Nobody exchanges the pointer of such a storage in a `swap`. -/
theorem State.Chained.no_swap {f : SwapFrame} (h : State.Chained cfg x s₀ s)
    (ht : (s.thread t).Typed cfg) (ha : (s.thread t).active = .swap f) : f.storage ≠ x := by
  intro hf
  have hl := ht.linked
  rw [ha] at hl
  obtain ⟨q, ks, hk⟩ : ∃ q ks, (s.thread t).conts = q :: ks :=
    List.exists_cons_of_ne_nil fun hn => by simp [hn, Active.promise] at hl
  rw [hk] at hl
  obtain ⟨he, -⟩ := hl
  cases q <;> simp only [Active.promise, Cont.expects, reduceCtorEq] at he
  case user u d =>
    obtain ⟨v, -, -, hd, -⟩ := h.waits t [] u d ks hk (he ▸ hf)
    exact absurd (he.trans hd) (by simp [Op.contract])

theorem State.Composing.writtenBy {ns : List ℕ} (h : State.Composing cfg x s₀ s ns) (hn : n ∈ ns) :
    ∃ i, s.mem.WrittenBy n x i := by
  have hmem : n ∈ (s.mem.log x).map Entry.call := h.order ▸ List.mem_append_right _ hn
  obtain ⟨⟨c, n⟩, he, rfl⟩ := List.mem_map.mp hmem
  obtain ⟨i, hi⟩ := List.getElem?_of_mem he
  exact ⟨i, c, hi⟩

theorem State.Called.calls_le (h : State.Called cfg x s₀ s t v) (hu : cfg.Uniform k)
    (h₀ : s₀.Reachable cfg (State.Calm cfg)) : s₀.mem.calls ≤ v.mem.calls :=
  (State.Reachable.linear (h₀.mono fun _ _ hp => hp.1)).calls_run
    (State.Run.calm hu h₀ h.before fun _ _ hp => hp.1)

/-- **Each value is made of the one before**, in every step in which nobody calls another operation
that writes to the storage. -/
theorem State.Chained.step {a : Choice} (h : State.Chained cfg x s₀ s)
    (hr : State.RcuRun cfg x s₀ s) (hu : cfg.Uniform k) (h₀ : s₀.Reachable cfg (State.Calm cfg))
    (hf : s.FreshGen t) (hw : ¬ a.Overwrites x)
    (hs : s.step cfg t a = some s') : State.Chained cfg x s₀ s' := by
  have hR : s.Reachable cfg (State.Calm cfg) :=
    Relation.ReflTransGen.trans h₀ (State.Run.calm hu h₀ hr fun _ _ hp => hp.1)
  have hR' : s'.Reachable cfg (State.Calm cfg) := hR.tail ⟨(t, a), hR.calm_step hu hf, hs⟩
  have hn : State.RcuRun cfg x s s' := .single ⟨(t, a), ⟨hf, hw⟩, hs⟩
  have hlin := State.Reachable.linear (hR.mono fun _ _ hp => hp.1)
  have ht := hlin.sound.typed t
  have hlive := State.step_live hs hw h.live
  obtain ⟨ns, hc⟩ := h.composed
  have hmade : ∀ n ∈ ns, State.Pending cfg x s₀ s' n ∨ State.Completed cfg x s₀ s' n := by
    intro n hmem
    rcases hc.made n hmem with hpend | hdone
    · exact hpend.step hlin (hc.writtenBy hmem) hs hn
    · exact .inr (hdone.tail hn)
  have hvalues := hc.values.mono fun n c c' (hm : State.Makes cfg x s₀ s n c c') => hm.tail hn
  refine ⟨hlive, fun t' l u d ks hk hd => ?_, ?_, ?_⟩
  · by_cases hne : t' = t
    · subst hne
      rcases State.step_waits hs hk with ⟨l', hk'⟩ | ⟨o, rfl, hact, rfl, rfl⟩
      · obtain ⟨v, hv, hrest⟩ := h.waits t' l' u d ks hk' hd
        exact ⟨v, hv.tail hn, hrest⟩
      · rcases Op.writes_contract hd with ho | rfl
        · exact absurd ho hw
        · exact ⟨s, ⟨hr, s', hs, .refl⟩, hact, rfl, rfl⟩
    · obtain ⟨m', th', o', g', -, rfl⟩ := State.step_move hs
      obtain ⟨v, hv, hrest⟩ := h.waits t' l u d ks (by simpa [State.moved, hne] using hk) hd
      exact ⟨v, hv.tail hn, hrest⟩
  · refine h.meant.step hR.accounted (hR.mono fun _ _ hp => hp.1).covering.2 hR.current hs
      (fun _ _ _ _ hm h₁ h₂ => (hm h₁ h₂).tail hn) fun f c c' hcomp _ hx => ?_
    exact ⟨t, s, f, hr, hn, hcomp, hx, rfl⟩
  · rcases State.step_log hs h.live with he | ⟨f, ha, hx⟩ | ⟨g, old, ha, hx, hcur, he⟩
    · refine ⟨ns, by rw [he, hc.order], ?_, hmade⟩
      rwa [(hR.current x h.live).congr (hR'.current x hlive) he]
    · exact absurd hx (h.no_swap ht ha)
    · obtain ⟨v, u, cur, given, hcall, hact, hk⟩ := h.cas ht ha hx
      have hswapped : .rcuSwapped ⟨x, v.mem.now x, v.mem.calls⟩ cur given g ∈
        (s.thread t).conts := by rw [hk]; exact .head _
      -- the object that the closure was given is the one in the storage
      obtain ⟨-, -, hgcall, hgcur⟩ := ht.conts _ hswapped
      obtain ⟨hgiven, hmakes⟩ := (h.meant t).2 _ hswapped
      have hnew : s.mem.content g.new.addr = g.content := by
        have hm := (h.meant t).1
        rwa [ha] at hm
      have hold : s.mem.content (s.mem.ptr x) = given := by rw [hcur, hgcur, hgiven]
      have hlast : s'.mem.content (s'.mem.ptr x) = g.content := by
        refine (hR'.current x hlive).holds (e := ⟨g.content, g.call⟩) (i := (s.mem.log x).length)
          ?_ ?_ <;> simp [he, hnew]
      refine ⟨ns ++ [g.call], ?_, ?_, ?_⟩
      · rw [he, List.map_append, hc.order, List.append_assoc]
        rfl
      · rw [hlast]
        refine hvalues.tail ?_
        rw [hold, hgcall]
        exact (hmakes (hcall.calls_le hu h₀) rfl).tail hn
      · refine List.forall_mem_append.mpr ⟨hmade, List.forall_mem_singleton.mpr (.inl ?_)⟩
        obtain ⟨m', th', o', g', hm, rfl⟩ := State.step_move hs
        rcases hm.cont_stays (l := [_]) hk with ⟨-, l', hl'⟩ | ⟨d, r, -, hnil, -⟩
        · exact ⟨t, v, u, l', hcall.tail hn, hgcall.symm, hact, by simpa [State.moved] using hl'⟩
        · cases hnil

/-- In the first state nothing has been written. -/
theorem State.Chained.init (hx : x ∈ s₀.mem.live) (hn : s₀.NoWriter x)
    (h₀ : s₀.Reachable cfg (State.Calm cfg)) : State.Chained cfg x s₀ s₀ := by
  refine ⟨hx, fun t l u d ks hk hd => ?_, fun t => ?_, [], by simp, .nil, List.forall_mem_nil _⟩
  · exact absurd hd (hn t u d (by simp [hk]))
  · obtain ⟨ha, hk⟩ := h₀.meant t
    refine ⟨ha.other (fun _ => List.prefix_rfl) (fun _ _ => rfl) ?_, fun q hq =>
      (hk q hq).other (fun _ => List.prefix_rfl) (fun _ _ => rfl) ?_⟩ <;>
    exact fun _ _ _ hf hle => absurd hf hle.not_gt

theorem State.RcuRun.chained (hr : State.RcuRun cfg x s₀ s) (hx : x ∈ s₀.mem.live)
    (hn : s₀.NoWriter x) (hu : cfg.Uniform k) (h₀ : s₀.Reachable cfg (State.Calm cfg)) :
    State.Chained cfg x s₀ s :=
  (Guarded.Run.invariant (I := fun s => State.RcuRun cfg x s₀ s ∧ State.Chained cfg x s₀ s) hr
    ⟨.refl, .init hx hn h₀⟩ fun _ _ a hi hp hs => ⟨hi.1.tail ⟨a, hp, hs⟩,
      hi.2.step hi.1 hu h₀ hp.1 hp.2 hs⟩).2

/-! ## The composition -/

/-- The run from the call of a call that has returned. -/
theorem State.Called.run {r : Ret} (h : State.Called cfg x s₀ s t v)
    (hret : v.Returns cfg t (.rcu x) w r) : State.RcuRun cfg x s₀ s := by
  obtain ⟨hv, v', hs, hr⟩ := h
  obtain ⟨u, -, hu, -⟩ := hret
  have hq : v.Calm cfg t := State.calm_of_user hu
  exact (hv.tail ⟨(t, .op (.rcu x)), ⟨hq.1, fun ho => ho⟩, hs⟩).trans hr

/-- A call that has returned a value has written since `s₀`. -/
theorem State.Composing.completed {ns : List ℕ} (h : State.Composing cfg x s₀ s ns)
    (hn : State.Completed cfg x s₀ s n) (hu : cfg.Uniform k)
    (h₀ : s₀.Reachable cfg (State.Calm cfg)) : n ∈ ns := by
  obtain ⟨t, v, w, r, j, hc, rfl, hret, hr⟩ := hn
  have hw : w.Reachable cfg (State.Calm cfg) :=
    Relation.ReflTransGen.trans h₀ (State.Run.calm hu h₀ (hc.run hret) fun _ _ hp => hp.1)
  obtain ⟨ha, hmeets, -⟩ := State.Linear.returned (hw.mono fun _ _ hp => hp.1).linear hret
  obtain ⟨j, rfl⟩ : ∃ i, j = some i := by
    rcases hmeets with ⟨v', i, he, -⟩ | he
    · exact ⟨i, (Ret.value.inj he).2⟩
    · cases he
  have hm := (hw.meant t).1
  rw [ha] at hm
  obtain ⟨made, -, -, -, hnew⟩ := hm
  -- what the call has written stands in the log since then
  have hlog := getElem?_of_prefix
    (State.Run.log_prefix (State.Run.calm hu hw hr fun _ _ hp => hp.1) x) hnew
  have hmem : v.mem.calls ∈ (s.mem.log x).map Entry.call :=
    List.mem_map.mpr ⟨_, List.mem_of_getElem? hlog, rfl⟩
  rw [h.order] at hmem
  refine (List.mem_append.mp hmem).resolve_left fun hold => ?_
  -- what has been written before is older
  obtain ⟨e, he, hcall⟩ := List.mem_map.mp hold
  have hlin₀ := State.Reachable.linear (h₀.mono fun _ _ hp => hp.1)
  exact absurd (hcall ▸ (hlin₀.tickets.spent x e he).1) (hc.calls_le hu h₀).not_gt

omit [DecidableEq T] in
/-- No call has written twice. -/
theorem State.Linear.log_nodup (h : s.Linear cfg) (x : StorageId) :
    ((s.mem.log x).map Entry.call).Nodup := by
  refine List.pairwise_iff_getElem.mpr fun i j hi hj hlt he => ?_
  simp only [List.length_map] at hi hj
  simp only [List.getElem_map] at he
  have hij := (h.tickets.once (List.getElem?_eq_getElem hi) (List.getElem?_eq_getElem hj) he).2
  omega

/-- The calls of `rcu` compose: each call that has returned a value stands in the list once, and the
value of the storage is what the calls of the list make of the first one. -/
structure State.Composed (cfg : Config) (x : StorageId) (s₀ s : State T) (ns : List ℕ) : Prop
    extends State.Composing cfg x s₀ s ns where
  live : x ∈ s.mem.live
  once : ns.Nodup
  completed : ∀ n, State.Completed cfg x s₀ s n → n ∈ ns
  /-- When no call is in progress, only calls that have returned a value stand in the list. -/
  settled : s.NoWriter x → ∀ n ∈ ns, State.Completed cfg x s₀ s n
  /-- Where the closures are functions `F` of what the objects stand for, it is the composition of
  the functions that the storage has come to. -/
  functions : ∀ (V : Type) (val : Content → V) (F : ℕ → V → V),
    (∀ n c c', State.Makes cfg x s₀ s n c c' → F n (val c) = val c') →
    val (s.mem.content (s.mem.ptr x)) =
      ns.foldl (fun v n => F n v) (val (s₀.mem.content (s₀.mem.ptr x)))

/-- **Calls of `rcu` compose**: when nobody else writes to a storage, its value is what the calls
make of the first one, one after the other. -/
theorem State.RcuRun.composed (hr : State.RcuRun cfg x s₀ s) (hx : x ∈ s₀.mem.live)
    (hn : s₀.NoWriter x) (hu : cfg.Uniform k) (h₀ : s₀.Reachable cfg (State.Calm cfg)) :
    ∃ ns, State.Composed cfg x s₀ s ns := by
  have hchained := State.RcuRun.chained hr hx hn hu h₀
  obtain ⟨ns, hc⟩ := hchained.composed
  have h : s.Reachable cfg (State.Calm cfg) :=
    Relation.ReflTransGen.trans h₀ (State.Run.calm hu h₀ hr fun _ _ hp => hp.1)
  have hnodup := (State.Reachable.linear (h.mono fun _ _ hp => hp.1)).log_nodup x
  rw [hc.order] at hnodup
  exact ⟨ns, hc, hchained.live, hnodup.of_append_right, fun n hd => hc.completed hd hu h₀,
    fun hn n hmem => (hc.made n hmem).resolve_left fun hp => hp.not_noWriter hn,
    fun V val F hF => hc.values.eq_foldl hF⟩

/-- When only generations have to be fresh, the machine keeps the counts right. -/
theorem State.Reachable.calm (h : s.Reachable cfg State.FreshGen) (hu : cfg.Uniform k) :
    s.Reachable cfg (State.Calm cfg) :=
  State.Run.calm hu .refl h fun _ _ hp => hp

end Chain

end ArcSwap
