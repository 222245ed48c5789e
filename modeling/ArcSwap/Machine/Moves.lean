import ArcSwap.Machine.Clauses

/-!
# What a thread can do

A step of the machine is the step of one thread: it changes the memory, the two pools and this
thread, and leaves the other threads as they are. `Move` lists what it can do, from the clauses of
the code, the returns to suspended callers, and the steps of user code.
-/

namespace ArcSwap

variable {cfg : Config} {tls : Tls} {m : Mem}

/-! ## Returning -/

/-- The outcomes of a return to a suspended caller of the library. -/
inductive Resumed (cfg : Config) (tls : Tls) (m : Mem) : Cont → Ret → Out → Prop
  | destroyed {w} : Resumed cfg tls m .destroyed (.unit w)
    ⟨m, tls.head, .ret .unit (.unit none), []⟩
  | loadNode {f n} (ha : tls.alive = true) :
    Resumed cfg tls m (.loadNode f) (.node n)
      ⟨m, { tls.head with node := some n }, f.begin cfg, []⟩
  | loadTmp {f n} (ha : tls.alive = false) :
    Resumed cfg tls m (.loadNode f) (.node n)
      ⟨m, tls.head, LoadFrame.begin cfg { f with tmp := some (.fresh (some n)) }, []⟩
  | discard {f n gen w} :
    Resumed cfg tls m (.discard f n gen) (.unit w)
      ⟨m, tls.head, .load f (.candidate n gen), []⟩
  | fallback {f r₀ r w} :
    Resumed cfg tls m (.fallback f r₀) (.value r w) ⟨m, tls.head, .load f (.leave ⟨r, none⟩), []⟩
  | unused {f q w} :
    Resumed cfg tls m (.unused f q) (.unit w) ⟨m, tls.head, .load f (.leave ⟨q, none⟩), []⟩
  | loadLeft {s start g w} :
    Resumed cfg tls m (.loadLeft s start g) (.unit w)
      ⟨m, tls.head, .ret (.guard s start) (.guard g none), []⟩
  | full {s start g w} :
    Resumed cfg tls m (.full s start) (.guard g w)
      ⟨m, tls.head, .intoInner g .start, [.fullInner s start g.ref]⟩
  | fullInner {s start r₀ r w} :
    Resumed cfg tls m (.fullInner s start r₀) (.value r w)
      ⟨m, tls.head, .ret (.value s start) (.value r none), []⟩
  | intoInner {r w} :
    Resumed cfg tls m (.intoInner r) (.unit w)
      ⟨m, tls.head, .ret (.is r) (.value r none), []⟩
  | payNode {f n} (ha : tls.alive = true) :
    Resumed cfg tls m (.payNode f) (.node n)
      ⟨m, { tls.head with node := some n }, .payAll f .prepay, []⟩
  | payTmp {f n} (ha : tls.alive = false) :
    Resumed cfg tls m (.payNode f) (.node n)
      ⟨m, tls.head, .payAll { f with tmp := some (.fresh (some n)) } .prepay, []⟩
  | helpReplacement {f me who control q w} :
    Resumed cfg tls m (.helpReplacement f me who control) (.value q w)
      ⟨m, tls.head, .payAll f (.helpTheirs me who control q), []⟩
  | helpRetry {f me who control w a} (h : Dispatched f me who control a) :
    Resumed cfg tls m (.helpRetry f me who control) (.unit w) ⟨m, tls.head, a, []⟩
  | valDropped {f w} :
    Resumed cfg tls m (.valDropped f) (.unit w) ⟨m, tls.head, .payAll f .leave, []⟩
  | payLeft {r w} :
    Resumed cfg tls m (.payLeft r) (.unit w) ⟨m, tls.head, .ret (.paid r) (.unit none), []⟩
  | swapPaid {f old wrote w} (h : f.store = false) :
    Resumed cfg tls m (.swapPaid f old wrote) (.unit w)
      ⟨m, tls.head, .ret (.swap f) (.value old (some wrote)), []⟩
  | storePaid {f old wrote w} (h : f.store = true) :
    Resumed cfg tls m (.swapPaid f old wrote) (.unit w) ⟨m, tls.head, .dec old, [.stored f wrote]⟩
  | stored {f wrote w} :
    Resumed cfg tls m (.stored f wrote) (.unit w)
      ⟨m, tls.head, .ret (.swap f) (.unit (some wrote)), []⟩
  | consumed {r w} :
    Resumed cfg tls m (.consumed r) (.unit w) ⟨m, tls.head, .ret (.is r) (.value r none), []⟩
  | dropped {r w} : Resumed cfg tls m (.dropped r) (.unit w) ⟨m, tls.head, .dec r, []⟩
  | casLoaded {f old w} (h : old.ref.addr = f.current) :
    Resumed cfg tls m (.casLoaded f) (.guard old w) ⟨m, tls.head, .cas f old, []⟩
  | casRefuse {f old w} (h : old.ref.addr ≠ f.current) :
    Resumed cfg tls m (.casLoaded f) (.guard old w)
      ⟨m, tls.head, .dec f.new, [.casRefused f old]⟩
  | casRetry {f w} :
    Resumed cfg tls m (.casRetry f) (.unit w) ⟨m, tls.head, f.load, [.casLoaded f]⟩
  | casRefused {f old w} :
    Resumed cfg tls m (.casRefused f old) (.unit w)
      ⟨m, tls.head, .ret (.cas f) (.guard old none), []⟩
  | casPaid {f old wrote w} :
    Resumed cfg tls m (.casPaid f old wrote) (.unit w)
      ⟨m, tls.head, .dec old.ref, [.casDec f old wrote]⟩
  | casDec {f old wrote w} :
    Resumed cfg tls m (.casDec f old wrote) (.unit w)
      ⟨m, tls.head, .ret (.cas f) (.guard old (some wrote)), []⟩
  | rcuLoaded {f cur w} :
    Resumed cfg tls m (.rcuLoaded f) (.guard cur w)
      ⟨m, tls.head, .user (.closure f.storage),
        [.rcuClosure f cur (m.content cur.ref.addr)]⟩
  | rcuClosure {f cur given new w} :
    Resumed cfg tls m (.rcuClosure f cur given) (.value new w)
      ⟨m, tls.head, (f.casFrame m cur new).load,
        [.casLoaded (f.casFrame m cur new), .rcuSwapped f cur given (f.casFrame m cur new)]⟩
  | rcuPanicked {f cur given} :
    Resumed cfg tls m (.rcuClosure f cur given) .panicked
      ⟨m, tls.head, .dropGuard cur, [.rcuUnwind f]⟩
  | rcuSwapped {f cur given g prev wrote} (h : cur.ref.addr = prev.ref.addr) :
    Resumed cfg tls m (.rcuSwapped f cur given g) (.guard prev wrote)
      ⟨m, tls.head, .intoInner prev .start,
        [.rcuInner f cur given g.content prev.ref wrote]⟩
  | rcuRetry {f cur given g prev wrote} (h : cur.ref.addr ≠ prev.ref.addr) :
    Resumed cfg tls m (.rcuSwapped f cur given g) (.guard prev wrote)
      ⟨m, tls.head, .dropGuard cur, [.rcuAgain f prev]⟩
  | rcuInner {f cur given made r₀ wrote r w} :
    Resumed cfg tls m (.rcuInner f cur given made r₀ wrote) (.value r w)
      ⟨m, tls.head, .dropGuard cur, [.rcuDone f given made r wrote]⟩
  | rcuDone {f given made r wrote w} :
    Resumed cfg tls m (.rcuDone f given made r wrote) (.unit w)
      ⟨m, tls.head, .ret (.rcu f) (.value r wrote), []⟩
  | rcuAgain {f prev w} :
    Resumed cfg tls m (.rcuAgain f prev) (.unit w)
      ⟨m, tls.head, .user (.closure f.storage),
        [.rcuClosure f prev (m.content prev.ref.addr)]⟩
  | rcuUnwind {f w} :
    Resumed cfg tls m (.rcuUnwind f) (.unit w) ⟨m, tls.head, .ret (.rcu f) .panicked, []⟩

theorem Cont.resume_resumed {k : Cont} {r : Ret} {o : Out} (h : k.resume cfg tls m r = some o) :
    Resumed cfg tls m k r o := by
  cases k <;> cases r <;> simp only [Cont.resume, reduceCtorEq, Option.some.injEq] at h
  case helpRetry.unit =>
    subst h
    exact .helpRetry (PayFrame.dispatch_dispatched _ _ _ _)
  all_goals (try split at h) <;> (try simp only [Option.some.injEq] at h) <;> subst h <;>
    constructor <;> first | assumption | exact Bool.eq_false_of_not_eq_true ‹_›

/-! ## Steps of user code -/

variable {T : Type*}

/-- The thread after its user code of the kind `u` has called a function. -/
def Thread.calling (th : Thread) (u : UserKind) (c : Call) : Thread :=
  { th with active := c.active, conts := c.calls ++ .user u c.contract :: th.conts }

/-- The outcomes of a step of user code: the memory, the thread and the two pools. -/
inductive UserClause (cfg : Config) (s : State T) (t : T) (u : UserKind) :
    Mem → Thread → Multiset Ref → Multiset Guard → Prop
  | alloc {p} (hp : p ≠ 0) (h : s.mem.Freed p) :
    UserClause cfg s t u (s.mem.alloc p) (s.thread t) (⟨.arc, p⟩ ::ₘ s.owned) s.guards
  /-- `Clone`, `downgrade` and `upgrade` -/
  | clone {r} (h : s.Holds t r ∨
        (r.Counted ∧ ((r.kind = .weak ∧ s.Holds t ⟨.arc, r.addr⟩) ∨
          (r.kind = .arc ∧ s.Holds t ⟨.weak, r.addr⟩ ∧ s.mem.count r ≠ 0)))) :
    UserClause cfg s t u (s.mem.inc r) (s.thread t) (r ::ₘ s.owned) s.guards
  | drop {r} (h : r ∈ s.owned) :
    UserClause cfg s t u s.mem ((s.thread t).calling u ⟨.dec r, [], .unit⟩) (s.owned.erase r)
      s.guards
  | fromInner {r} (h : r ∈ s.owned) :
    UserClause cfg s t u s.mem (s.thread t) (s.owned.erase r) (⟨r, none⟩ ::ₘ s.guards)
  | intoInner {g} (h : g ∈ s.guards) :
    UserClause cfg s t u s.mem ((s.thread t).calling u ⟨.intoInner g .start, [], .is g.ref⟩)
      s.owned (s.guards.erase g)
  | dropGuard {g} (h : g ∈ s.guards) :
    UserClause cfg s t u s.mem ((s.thread t).calling u ⟨.dropGuard g, [], .unit⟩) s.owned
      (s.guards.erase g)
  | new {x p} (h : x ∉ s.mem.live) (hb : s.Unborrowed x) (hg : s.Gives ⟨cfg.kind x, p⟩) :
    UserClause cfg s t u (s.mem.newStorage x p) (s.thread t) (s.owned.erase ⟨cfg.kind x, p⟩)
      s.guards
  | load {x} (h : x ∈ s.mem.live) :
    UserClause cfg s t u s.mem
      ((s.thread t).calling u
        ⟨.load ⟨x, s.mem.now x, none, 0⟩ .enter, [], .guard x (s.mem.now x)⟩) s.owned s.guards
  | loadFull {x} (h : x ∈ s.mem.live) :
    UserClause cfg s t u s.mem
      ((s.thread t).calling u ⟨.load ⟨x, s.mem.now x, none, 0⟩ .enter, [.full x (s.mem.now x)],
        .value x (s.mem.now x)⟩) s.owned s.guards
  /-- `store` and `swap` -/
  | swap {x p store} (h : x ∈ s.mem.live) (hg : s.Gives ⟨cfg.kind x, p⟩) :
    UserClause cfg s t u s.mem.newCall
      ((s.thread t).calling u
        (SwapFrame.invoke ⟨x, s.mem.now x, s.mem.calls, ⟨cfg.kind x, p⟩, store⟩))
      (s.owned.erase ⟨cfg.kind x, p⟩) s.guards
  | compareAndSwap {x current p} (h : x ∈ s.mem.live) (hg : s.Gives ⟨cfg.kind x, p⟩) :
    UserClause cfg s t u s.mem.newCall
      ((s.thread t).calling u (CasFrame.invoke
        ⟨x, s.mem.now x, s.mem.calls, current, ⟨cfg.kind x, p⟩, s.mem.object p⟩))
      (s.owned.erase ⟨cfg.kind x, p⟩) s.guards
  | rcu {x} (h : x ∈ s.mem.live) :
    UserClause cfg s t u s.mem.newCall
      ((s.thread t).calling u (RcuFrame.invoke ⟨x, s.mem.now x, s.mem.calls⟩)) s.owned s.guards
  | consume {x} (h : x ∈ s.mem.live) (hb : s.Unborrowed x) :
    UserClause cfg s t u (s.mem.endStorage x)
      ((s.thread t).calling u ⟨.payAll (.start x ⟨cfg.kind x, s.mem.ptr x⟩) .enter,
        [.consumed ⟨cfg.kind x, s.mem.ptr x⟩], .is ⟨cfg.kind x, s.mem.ptr x⟩⟩) s.owned s.guards
  | dropStorage {x} (h : x ∈ s.mem.live) (hb : s.Unborrowed x) :
    UserClause cfg s t u (s.mem.endStorage x)
      ((s.thread t).calling u ⟨.payAll (.start x ⟨cfg.kind x, s.mem.ptr x⟩) .enter,
        [.dropped ⟨cfg.kind x, s.mem.ptr x⟩], .unit⟩) s.owned s.guards
  | exitEmpty (hk : (s.thread t).conts = []) (ha : (s.thread t).tls.alive = true)
      (h : (s.thread t).tls.head.node = none) :
    UserClause cfg s t u s.mem { s.thread t with tls := ⟨(s.thread t).tls.head, false⟩ }
      s.owned s.guards
  | exit {n} (hk : (s.thread t).conts = []) (ha : (s.thread t).tls.alive = true)
      (h : (s.thread t).tls.head.node = some n) :
    UserClause cfg s t u s.mem
      ⟨⟨{ (s.thread t).tls.head with node := none }, false⟩, .cooldown n .reserve,
        [.user u .unit]⟩ s.owned s.guards
  | destroyed (hu : u = .destructor) :
    UserClause cfg s t u s.mem { s.thread t with active := .ret .unit (.unit none) } s.owned
      s.guards
  | result {x r} (hu : u = .closure x) (hg : s.Gives r) (hk : r.kind = cfg.kind x) :
    UserClause cfg s t u s.mem { s.thread t with active := .ret (.closure x) (.value r none) }
      (s.owned.erase r) s.guards
  | panic {x} (hu : u = .closure x) :
    UserClause cfg s t u s.mem { s.thread t with active := .ret (.closure x) .panicked }
      s.owned s.guards

/-! ## Steps -/

/-- The outcomes of a step of the thread `t`: the memory, the thread and the two pools. -/
inductive Move (cfg : Config) (s : State T) (t : T) :
    Mem → Thread → Multiset Ref → Multiset Guard → Prop
  | code {o} (h : Clause cfg (s.thread t).tls s.mem (s.thread t).active o) :
    Move cfg s t o.mem ((s.thread t).after (s.thread t).conts o) s.owned s.guards
  | resume {c r k ks o} (ha : (s.thread t).active = .ret c r) (hk : (s.thread t).conts = k :: ks)
      (h : Resumed cfg (s.thread t).tls s.mem k r o) :
    Move cfg s t o.mem ((s.thread t).after ks o) s.owned s.guards
  | receive {c r u c' ks} (ha : (s.thread t).active = .ret c r)
      (hk : (s.thread t).conts = .user u c' :: ks) :
    Move cfg s t s.mem { s.thread t with active := .user u, conts := ks } (s.receive r).owned
      (s.receive r).guards
  | user {u m' th' o' g'} (ha : (s.thread t).active = .user u)
    (h : UserClause cfg s t u m' th' o' g') :
    Move cfg s t m' th' o' g'

/-- What holds of the active function and of every suspended caller after a move is checked of the
clauses of the code, of the returns, and of the steps of user code. -/
theorem Move.frames {s : State T} {t : T} {m' : Mem} {th' : Thread} {o' : Multiset Ref}
    {g' : Multiset Guard} {A : Active → Prop} {K : Cont → Prop} (h : Move cfg s t m' th' o' g')
    (hk : ∀ k ∈ (s.thread t).conts, K k)
    (hcode : ∀ o, o.mem = m' → Clause cfg (s.thread t).tls s.mem (s.thread t).active o →
      A o.active ∧ ∀ k ∈ o.calls, K k)
    (hres : ∀ c r k o, o.mem = m' → (s.thread t).active = .ret c r → k ∈ (s.thread t).conts.head? →
      Resumed cfg (s.thread t).tls s.mem k r o → A o.active ∧ ∀ k ∈ o.calls, K k)
    (hret : ∀ u, A (.user u))
    (huser : ∀ u, (s.thread t).active = .user u → UserClause cfg s t u m' th' o' g' →
      A th'.active ∧ ∀ k ∈ th'.conts, K k) : A th'.active ∧ ∀ k ∈ th'.conts, K k := by
  cases h with
  | code h =>
    obtain ⟨h₁, h₂⟩ := hcode _ rfl h
    refine ⟨h₁, fun k hk' => ?_⟩
    rcases List.mem_append.mp hk' with hk' | hk'
    · exact h₂ k hk'
    · exact hk k hk'
  | resume ha hc h =>
    obtain ⟨h₁, h₂⟩ := hres _ _ _ _ rfl ha (by simp [hc]) h
    refine ⟨h₁, fun k hk' => ?_⟩
    rcases List.mem_append.mp hk' with hk' | hk'
    · exact h₂ k hk'
    · exact hk k (by simp [hc, hk'])
  | receive _ hc => exact ⟨hret _, fun k hk' => hk k (by simp [hc, hk'])⟩
  | user ha h => exact huser _ ha h

/-! ## User code on the stack -/

/-- User code is running. -/
def Active.IsUser : Active → Prop
  | .user _ => True
  | _ => False

/-- User code is waiting. -/
def Cont.IsUser : Cont → Prop
  | .user _ _ => True
  | _ => False

instance (a : Active) : Decidable a.IsUser := by
  unfold Active.IsUser
  split <;> infer_instance

instance (q : Cont) : Decidable q.IsUser := by
  unfold Cont.IsUser
  split <;> infer_instance

/-- A caller stays suspended until the functions above it have returned. -/
theorem Move.cont_stays {s : State T} {t : T} {m' : Mem} {th' : Thread} {o' : Multiset Ref}
    {g' : Multiset Guard} {q : Cont} {l ks : List Cont} (h : Move cfg s t m' th' o' g')
    (hk : (s.thread t).conts = l ++ q :: ks) :
    ((l = [] → ∀ c v, (s.thread t).active ≠ .ret c v) ∧ ∃ l', th'.conts = l' ++ q :: ks) ∨
    ∃ c v, (s.thread t).active = .ret c v ∧ l = [] ∧
      ((∃ o, Resumed cfg (s.thread t).tls s.mem q v o ∧ m' = o.mem ∧
          th' = (s.thread t).after ks o) ∨
        ∃ u c', q = .user u c' ∧ th'.active = .user u ∧ th'.conts = ks ∧ m' = s.mem ∧
          o' = (s.receive v).owned) := by
  have hhead : ∀ {q' ks'}, (s.thread t).conts = q' :: ks' →
      (l = [] ∧ q' = q ∧ ks' = ks) ∨ (l ≠ [] ∧ ∃ l', ks' = l' ++ q :: ks) := by
    intro q' ks' hk'
    rw [hk'] at hk
    cases l with
    | nil => exact .inl ⟨rfl, by simpa using hk⟩
    | cons q₁ l => exact .inr ⟨List.cons_ne_nil _ _, l, by simpa using (List.cons.inj hk).2⟩
  have hcall : ∀ v d, ∃ l', ((s.thread t).calling v d).conts = l' ++ q :: ks := fun v d =>
    ⟨(d.calls ++ [.user v d.contract]) ++ l, by simp [Thread.calling, hk]⟩
  cases h with
  | @code o h =>
    refine .inl ⟨fun _ c v ha => ?_, o.calls ++ l, by simp [Thread.after, hk]⟩
    rw [ha] at h
    cases h
  | @resume c v q' ks' o ha hks h =>
    rcases hhead hks with ⟨hl, rfl, rfl⟩ | ⟨hl, l', rfl⟩
    · exact .inr ⟨c, v, ha, hl, .inl ⟨o, h, rfl, rfl⟩⟩
    · exact .inl ⟨fun he => absurd he hl, o.calls ++ l', by simp [Thread.after]⟩
  | @receive c v u c' ks' ha hks =>
    rcases hhead hks with ⟨hl, rfl, rfl⟩ | ⟨hl, l', rfl⟩
    · exact .inr ⟨c, v, ha, hl, .inr ⟨u, c', rfl, rfl, rfl, rfl, rfl⟩⟩
    · exact .inl ⟨fun he => absurd he hl, l', rfl⟩
  | user ha h =>
    refine .inl ⟨fun _ c v hr => Active.noConfusion (ha.symm.trans hr), ?_⟩
    cases h with
    | alloc | clone | fromInner | new | exitEmpty | destroyed | result | panic => exact ⟨l, hk⟩
    | exit hnil =>
      rw [hnil] at hk
      simp at hk
    | _ => exact hcall _ _

/-- User code stays suspended until the functions above it have returned. -/
theorem Move.user_stays {s : State T} {t : T} {m' : Mem} {th' : Thread} {o' : Multiset Ref}
    {g' : Multiset Guard} {u : UserKind} {c : Contract} {l ks : List Cont}
    (h : Move cfg s t m' th' o' g') (hk : (s.thread t).conts = l ++ .user u c :: ks) :
    (∃ l', th'.conts = l' ++ .user u c :: ks) ∨ ∃ c' v, (s.thread t).active = .ret c' v ∧
      (s.thread t).conts = .user u c :: ks ∧ th'.active = .user u ∧ th'.conts = ks ∧ m' = s.mem ∧
      o' = (s.receive v).owned := by
  rcases h.cont_stays hk with ⟨-, hl⟩ | ⟨c', v, ha, rfl, ⟨o, hr, -⟩ | ⟨u', d, he, hu⟩⟩
  · exact .inl hl
  · cases hr
  · obtain ⟨rfl, rfl⟩ := Cont.user.inj he
    exact .inr ⟨c', v, ha, hk, hu⟩

variable [DecidableEq T]

/-- The state after a step of the thread `t`. -/
def State.moved (s : State T) (t : T) (m : Mem) (th : Thread) (o : Multiset Ref)
    (g : Multiset Guard) : State T :=
  ⟨m, Function.update s.thread t th, o, g⟩

/-- What holds of the thread that takes the step and of the other threads holds of all. -/
theorem State.moved_forall {s : State T} {t : T} {m : Mem} {th : Thread} {o : Multiset Ref}
    {g : Multiset Guard} {P : Thread → Prop} (h : P th) (ho : ∀ t' ≠ t, P (s.thread t')) (t' : T) :
    P ((s.moved t m th o g).thread t') := by
  by_cases ht : t' = t
  · subst ht
    simpa [State.moved] using h
  · simpa [State.moved, ht] using ho t' ht

theorem State.userReturn_clause {s s' : State T} {t : T} {u : UserKind} {c : Choice}
    (h : s.userReturn cfg t u c = some s') :
    ∃ m' th' o' g', UserClause cfg s t u m' th' o' g' ∧ s' = s.moved t m' th' o' g' := by
  cases u <;> cases c <;>
    simp only [State.userReturn, reduceCtorEq, Option.ite_none_right_eq_some, Option.some.injEq]
      at h
  case destructor.done =>
    subst h
    exact ⟨_, _, _, _, .destroyed rfl, rfl⟩
  case closure.result =>
    obtain ⟨⟨hg, hk⟩, rfl⟩ := h
    exact ⟨_, _, _, _, .result rfl hg hk, rfl⟩
  case closure.panic =>
    subst h
    exact ⟨_, _, _, _, .panic rfl, rfl⟩

theorem State.return_move {s s' : State T} {t : T} {c : Contract} {r : Ret}
    (ha : (s.thread t).active = .ret c r) (h : s.return cfg t r = some s') :
    ∃ m' th' o' g', Move cfg s t m' th' o' g' ∧ s' = s.moved t m' th' o' g' := by
  simp only [State.return] at h
  split at h
  · simp at h
  · simp only [Option.some.injEq] at h
    subst h
    refine ⟨_, _, _, _, .receive ha ‹_›, ?_⟩
    cases r <;> rfl
  · obtain ⟨o, ho, rfl⟩ := Option.map_eq_some_iff.mp h
    exact ⟨_, _, _, _, .resume ha ‹_› (Cont.resume_resumed ho), rfl⟩

variable [Fintype T]

theorem State.userOp_clause {s s' : State T} {t : T} {u : UserKind} {o : Op}
    (h : s.userOp cfg t u o = some s') :
    ∃ m' th' o' g', UserClause cfg s t u m' th' o' g' ∧ s' = s.moved t m' th' o' g' := by
  cases o <;>
    simp only [State.userOp, Option.ite_none_right_eq_some, Option.some.injEq] at h
  case alloc =>
    obtain ⟨⟨hp, hf⟩, rfl⟩ := h
    exact ⟨_, _, _, _, .alloc hp hf, by simp [State.moved]⟩
  case clone =>
    obtain ⟨hh, rfl⟩ := h
    exact ⟨_, _, _, _, .clone (.inl hh), by simp [State.moved]⟩
  case downgrade p =>
    obtain ⟨⟨hp, hh⟩, rfl⟩ := h
    exact ⟨_, _, _, _, .clone (r := ⟨.weak, p⟩) (.inr ⟨hp, .inl ⟨rfl, hh⟩⟩), by simp [State.moved]⟩
  case upgrade p =>
    obtain ⟨⟨hp, hh, hc⟩, rfl⟩ := h
    exact ⟨_, _, _, _, .clone (r := ⟨.arc, p⟩) (.inr ⟨hp, .inr ⟨rfl, hh, hc⟩⟩),
      by simp [State.moved]⟩
  case drop =>
    obtain ⟨hr, rfl⟩ := h
    exact ⟨_, _, _, _, .drop hr, rfl⟩
  case fromInner =>
    obtain ⟨hr, rfl⟩ := h
    exact ⟨_, _, _, _, .fromInner hr, by simp [State.moved]⟩
  case intoInner =>
    obtain ⟨hg, rfl⟩ := h
    exact ⟨_, _, _, _, .intoInner hg, rfl⟩
  case dropGuard =>
    obtain ⟨hg, rfl⟩ := h
    exact ⟨_, _, _, _, .dropGuard hg, rfl⟩
  case new =>
    obtain ⟨⟨hx, hb, hg⟩, rfl⟩ := h
    exact ⟨_, _, _, _, .new hx hb hg, by simp [State.moved]⟩
  case load =>
    obtain ⟨hx, rfl⟩ := h
    exact ⟨_, _, _, _, .load hx, rfl⟩
  case loadFull =>
    obtain ⟨hx, rfl⟩ := h
    exact ⟨_, _, _, _, .loadFull hx, rfl⟩
  case store | swap =>
    obtain ⟨⟨hx, hg⟩, rfl⟩ := h
    exact ⟨_, _, _, _, .swap hx hg, rfl⟩
  case compareAndSwap =>
    obtain ⟨⟨hx, hg⟩, rfl⟩ := h
    exact ⟨_, _, _, _, .compareAndSwap hx hg, rfl⟩
  case rcu =>
    obtain ⟨hx, rfl⟩ := h
    exact ⟨_, _, _, _, .rcu hx, rfl⟩
  case consume =>
    obtain ⟨⟨hx, hb⟩, rfl⟩ := h
    exact ⟨_, _, _, _, .consume hx hb, rfl⟩
  case dropStorage =>
    obtain ⟨⟨hx, hb⟩, rfl⟩ := h
    exact ⟨_, _, _, _, .dropStorage hx hb, rfl⟩
  case exit =>
    obtain ⟨⟨hk, hl⟩, h⟩ := h
    split at h <;> simp only [Option.some.injEq] at h <;> subst h
    · exact ⟨_, _, _, _, .exitEmpty hk hl ‹_›, rfl⟩
    · exact ⟨_, _, _, _, .exit hk hl ‹_›, rfl⟩

/-- **Every step of the machine is the move of a thread.** -/
theorem State.step_move {s s' : State T} {t : T} {c : Choice} (h : s.step cfg t c = some s') :
    ∃ m' th' o' g', Move cfg s t m' th' o' g' ∧ s' = s.moved t m' th' o' g' := by
  simp only [State.step] at h
  split at h
  · obtain ⟨m', th', o', g', hm, rfl⟩ := State.userOp_clause h
    exact ⟨_, _, _, _, .user ‹_› hm, rfl⟩
  · obtain ⟨m', th', o', g', hm, rfl⟩ := State.userReturn_clause h
    exact ⟨_, _, _, _, .user ‹_› hm, rfl⟩
  · exact State.return_move ‹_› h
  · simp at h
  · simp only [Option.some.injEq] at h
    subst h
    refine ⟨_, _, _, _, .code (Active.exec_clause ?_), rfl⟩
    cases ha : (s.thread t).active <;> simp_all [Active.IsCode]
  · simp at h

/-- A step of a thread that runs code of the library is one of the clauses of the code. -/
theorem State.step_clause {s s' : State T} {t : T} {c : Choice} (h : s.step cfg t c = some s')
    (hc : (s.thread t).active.IsCode) :
    ∃ o, Clause cfg (s.thread t).tls s.mem (s.thread t).active o ∧
      s' = s.moved t o.mem ((s.thread t).after (s.thread t).conts o) s.owned s.guards := by
  obtain ⟨m', th', o', g', hm, rfl⟩ := State.step_move h
  cases hm with
  | code hm => exact ⟨_, hm, rfl⟩
  | resume ha | receive ha | user ha =>
    rw [ha] at hc
    exact hc.elim

end ArcSwap
