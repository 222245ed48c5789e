import ArcSwap.Foundations.Guarded
import ArcSwap.Strategies.Locked

/-!
# What a thread can do under the locks

The outcomes of a step of a thread: a clause of the code, a return to a suspended caller, or a step
of user code. A step changes the memory, the locks, the pools and this thread.
-/

namespace ArcSwap.Locked

variable {T : Type*} [DecidableEq T] {cfg : Config} {s s' : State T} {t : T}
  {l : StorageId → RwLock T} {m : Mem}

/-! ## Clauses -/

/-- The outcomes of the next step of a function. -/
inductive Clause (cfg : Config) (t : T) (l : StorageId → RwLock T) (m : Mem) :
    Active → Out T → Prop
  | read {x start k} (h : (l x).read t = some k) :
    Clause cfg t l m (.load x start .read) ⟨m, Function.update l x k, .load x start .load, []⟩
  | load {x start} :
    Clause cfg t l m (.load x start .load)
      ⟨m, l, .load x start (.inc ⟨cfg.kind x, m.ptr x⟩), []⟩
  | inc {x start r} :
    Clause cfg t l m (.load x start (.inc r)) ⟨m.inc r, l, .load x start (.unlock r), []⟩
  | unlock {x start r} :
    Clause cfg t l m (.load x start (.unlock r))
      ⟨m, Function.update l x ((l x).unlockRead t),
        .ret (.guard x start) (.guard (guardOf r) none), []⟩
  | waitWrite {x r k} (h : (l x).write t = some k) :
    Clause cfg t l m (.wait x r .write) ⟨m, Function.update l x k, .wait x r .unlock, []⟩
  | waitUnlock {x r} :
    Clause cfg t l m (.wait x r .unlock)
      ⟨m, Function.update l x (l x).unlockWrite, .ret (.paid r) (.unit none), []⟩
  | swap {f} : Clause cfg t l m (.swap f) (execSwap cfg l m f)
  | casWrite {f k} (h : (l f.storage).write t = some k) :
    Clause cfg t l m (.cas f .write)
      ⟨m, Function.update l f.storage k, .cas f .exchange, []⟩
  | casSwapped {f} (h : m.ptr f.storage = f.current) :
    Clause cfg t l m (.cas f .exchange)
      ⟨m.setPtr f.storage f.new.addr f.call, l,
        .cas f (.unlock ⟨cfg.kind f.storage, f.current⟩ (some (m.log f.storage).length)), []⟩
  | casOther {f} (h : m.ptr f.storage ≠ f.current) :
    Clause cfg t l m (.cas f .exchange)
      ⟨m, l, .cas f (.inc ⟨cfg.kind f.storage, m.ptr f.storage⟩), []⟩
  | casInc {f old} :
    Clause cfg t l m (.cas f (.inc old)) ⟨m.inc old, l, .dec f.new, [.casRefused f old]⟩
  | casUnlock {f old wrote} :
    Clause cfg t l m (.cas f (.unlock old wrote))
      ⟨m, Function.update l f.storage (l f.storage).unlockWrite,
        .ret (.cas f) (.guard (guardOf old) wrote), []⟩
  | destroy {r} (h : r.kind = .arc ∧ m.LastRef r) :
    Clause cfg t l m (.dec r) ⟨m.dec r, l, .user .destructor, [.destroyed]⟩
  | dec {r} (h : ¬ (r.kind = .arc ∧ m.LastRef r)) :
    Clause cfg t l m (.dec r) ⟨m.dec r, l, .ret .unit (.unit none), []⟩

theorem Active.exec_clause {a : Active} {o : Out T} (h : a.exec cfg t l m = some o) :
    Clause cfg t l m a o := by
  cases a with
  | user u | ret c r => cases h
  | swap f =>
    obtain rfl := Option.some.inj h
    exact .swap
  | load x start pc =>
    cases pc with
    | read =>
      obtain ⟨k, hk, rfl⟩ := Option.map_eq_some_iff.mp h
      exact .read hk
    | load =>
      obtain rfl := Option.some.inj h
      exact .load
    | inc r =>
      obtain rfl := Option.some.inj h
      exact .inc
    | unlock r =>
      obtain rfl := Option.some.inj h
      exact .unlock
  | wait x r pc =>
    cases pc with
    | write =>
      obtain ⟨k, hk, rfl⟩ := Option.map_eq_some_iff.mp h
      exact .waitWrite hk
    | unlock =>
      obtain rfl := Option.some.inj h
      exact .waitUnlock
  | cas f pc =>
    cases pc with
    | write =>
      obtain ⟨k, hk, rfl⟩ := Option.map_eq_some_iff.mp h
      exact .casWrite hk
    | exchange =>
      simp only [Active.exec, CasPc.exec] at h
      split at h
      · obtain rfl := Option.some.inj h
        rename_i hc
        rw [hc]
        exact .casSwapped hc
      · obtain rfl := Option.some.inj h
        exact .casOther ‹_›
    | inc old =>
      obtain rfl := Option.some.inj h
      exact .casInc
    | unlock old wrote =>
      obtain rfl := Option.some.inj h
      exact .casUnlock
  | dec r =>
    obtain rfl := Option.some.inj h
    unfold execDec
    split
    · exact .destroy ‹_›
    · exact .dec ‹_›

/-! ## Returns -/

/-- The outcomes of a return to a suspended caller of the library. -/
inductive Resumed (m : Mem) : Cont → Ret → Active → List Cont → Prop
  | destroyed {w} : Resumed m .destroyed (.unit w) (.ret .unit (.unit none)) []
  | full {x start g w} :
    Resumed m (.full x start) (.guard g w) (.ret (.value x start) (.value g.ref none)) []
  | swapWaited {f old wrote w} (h : f.store = false) :
    Resumed m (.swapWaited f old wrote) (.unit w) (.ret (.swap f) (.value old (some wrote))) []
  | storeWaited {f old wrote w} (h : f.store = true) :
    Resumed m (.swapWaited f old wrote) (.unit w) (.dec old) [.stored f wrote]
  | stored {f wrote w} :
    Resumed m (.stored f wrote) (.unit w) (.ret (.swap f) (.unit (some wrote))) []
  | consumed {r w} : Resumed m (.consumed r) (.unit w) (.ret (.is r) (.value r none)) []
  | dropped {r w} : Resumed m (.dropped r) (.unit w) (.dec r) []
  | casRefused {f old w} :
    Resumed m (.casRefused f old) (.unit w) (.cas f (.unlock old none)) []
  | rcuLoaded {f cur w} :
    Resumed m (.rcuLoaded f) (.guard cur w) (.user (.closure f.storage))
      [.rcuClosure f cur.ref (m.content cur.ref.addr)]
  | rcuClosure {f cur given new w} :
    Resumed m (.rcuClosure f cur given) (.value new w) (.cas (casFrame f m cur new) .write)
      [.rcuSwapped f cur given (casFrame f m cur new)]
  | rcuPanicked {f cur given} :
    Resumed m (.rcuClosure f cur given) .panicked (.dec cur) [.rcuUnwind f]
  | rcuSwapped {f cur given g prev wrote} (h : cur.addr = prev.ref.addr) :
    Resumed m (.rcuSwapped f cur given g) (.guard prev wrote) (.dec cur)
      [.rcuDone f given g.content prev.ref wrote]
  | rcuRetry {f cur given g prev wrote} (h : cur.addr ≠ prev.ref.addr) :
    Resumed m (.rcuSwapped f cur given g) (.guard prev wrote) (.dec cur) [.rcuAgain f prev.ref]
  | rcuDone {f given made r wrote w} :
    Resumed m (.rcuDone f given made r wrote) (.unit w) (.ret (.rcu f) (.value r wrote)) []
  | rcuAgain {f prev w} :
    Resumed m (.rcuAgain f prev) (.unit w) (.user (.closure f.storage))
      [.rcuClosure f prev (m.content prev.addr)]
  | rcuUnwind {f w} : Resumed m (.rcuUnwind f) (.unit w) (.ret (.rcu f) .panicked) []

theorem Cont.resume_resumed {k : Cont} {r : Ret} {o : Active × List Cont}
    (h : k.resume m r = some o) : Resumed m k r o.1 o.2 := by
  cases k <;> cases r <;> simp only [Cont.resume, reduceCtorEq, Option.some.injEq] at h
  all_goals (try split at h) <;> (try simp only [Option.some.injEq] at h) <;> subst h <;>
    constructor <;> first | assumption | exact Bool.eq_false_of_not_eq_true ‹_›

/-! ## User code -/

/-- The outcomes of a call of user code: the memory, the call, and the two pools. -/
inductive Calls (cfg : Config) (s : State T) :
    Mem → Call → Multiset Ref → Multiset Guard → Prop
  | drop {r} (h : r ∈ s.owned) :
    Calls cfg s s.mem ⟨.dec r, [], .unit⟩ (s.owned.erase r) s.guards
  | dropGuard {g} (h : g ∈ s.guards) :
    Calls cfg s s.mem ⟨.dec g.ref, [], .unit⟩ s.owned (s.guards.erase g)
  | load {x} (h : x ∈ s.mem.live) :
    Calls cfg s s.mem ⟨.load x (s.mem.now x) .read, [], .guard x (s.mem.now x)⟩ s.owned s.guards
  | loadFull {x} (h : x ∈ s.mem.live) :
    Calls cfg s s.mem
      ⟨.load x (s.mem.now x) .read, [.full x (s.mem.now x)], .value x (s.mem.now x)⟩
      s.owned s.guards
  /-- `store` and `swap` -/
  | swap {x p store} (h : x ∈ s.mem.live) (hg : s.Gives ⟨cfg.kind x, p⟩) :
    Calls cfg s s.mem.newCall
      ⟨.swap ⟨x, s.mem.now x, s.mem.calls, ⟨cfg.kind x, p⟩, store⟩, [],
        .swap ⟨x, s.mem.now x, s.mem.calls, ⟨cfg.kind x, p⟩, store⟩⟩
      (s.owned.erase ⟨cfg.kind x, p⟩) s.guards
  | compareAndSwap {x current p} (h : x ∈ s.mem.live) (hg : s.Gives ⟨cfg.kind x, p⟩) :
    Calls cfg s s.mem.newCall
      ⟨.cas ⟨x, s.mem.now x, s.mem.calls, current, ⟨cfg.kind x, p⟩, s.mem.object p⟩ .write, [],
        .cas ⟨x, s.mem.now x, s.mem.calls, current, ⟨cfg.kind x, p⟩, s.mem.object p⟩⟩
      (s.owned.erase ⟨cfg.kind x, p⟩) s.guards
  | rcu {x} (h : x ∈ s.mem.live) :
    Calls cfg s s.mem.newCall
      ⟨.load x (s.mem.now x) .read, [.rcuLoaded ⟨x, s.mem.now x, s.mem.calls⟩],
        .rcu ⟨x, s.mem.now x, s.mem.calls⟩⟩ s.owned s.guards
  | consume {x} (h : x ∈ s.mem.live) (hb : s.Unborrowed x) :
    Calls cfg s (s.mem.endStorage x)
      ⟨.wait x ⟨cfg.kind x, s.mem.ptr x⟩ .write, [.consumed ⟨cfg.kind x, s.mem.ptr x⟩],
        .is ⟨cfg.kind x, s.mem.ptr x⟩⟩ s.owned s.guards
  | dropStorage {x} (h : x ∈ s.mem.live) (hb : s.Unborrowed x) :
    Calls cfg s (s.mem.endStorage x)
      ⟨.wait x ⟨cfg.kind x, s.mem.ptr x⟩ .write, [.dropped ⟨cfg.kind x, s.mem.ptr x⟩], .unit⟩
      s.owned s.guards

/-- The outcomes of a step of user code that runs on its own: the memory, the locks, what the thread
returns if nested user code ends, and the two pools. -/
inductive Works (cfg : Config) (s : State T) (t : T) : UserKind →
    Mem → (StorageId → RwLock T) → Active → Multiset Ref → Multiset Guard → Prop
  | alloc {u p} (hp : p ≠ 0) (h : s.mem.Freed p) :
    Works cfg s t u (s.mem.alloc p) s.lock (.user u) (⟨.arc, p⟩ ::ₘ s.owned) s.guards
  /-- `Clone`, `downgrade` and `upgrade` -/
  | clone {u r} (h : s.Holds t r ∨
        (r.Counted ∧ ((r.kind = .weak ∧ s.Holds t ⟨.arc, r.addr⟩) ∨
          (r.kind = .arc ∧ s.Holds t ⟨.weak, r.addr⟩ ∧ s.mem.count r ≠ 0)))) :
    Works cfg s t u (s.mem.inc r) s.lock (.user u) (r ::ₘ s.owned) s.guards
  | fromInner {u r} (h : r ∈ s.owned) :
    Works cfg s t u s.mem s.lock (.user u) (s.owned.erase r) (guardOf r ::ₘ s.guards)
  | intoInner {u g} (h : g ∈ s.guards) :
    Works cfg s t u s.mem s.lock (.user u) (g.ref ::ₘ s.owned) (s.guards.erase g)
  | new {u x p} (h : x ∉ s.mem.live) (hb : s.Unborrowed x) (hg : s.Gives ⟨cfg.kind x, p⟩) :
    Works cfg s t u (s.mem.newStorage x p) (Function.update s.lock x .free) (.user u)
      (s.owned.erase ⟨cfg.kind x, p⟩) s.guards
  | exit {u} : Works cfg s t u s.mem s.lock (.user u) s.owned s.guards
  | destroyed :
    Works cfg s t .destructor s.mem s.lock (.ret .unit (.unit none)) s.owned s.guards
  | result {x r} (hg : s.Gives r) (hk : r.kind = cfg.kind x) :
    Works cfg s t (.closure x) s.mem s.lock (.ret (.closure x) (.value r none))
      (s.owned.erase r) s.guards
  | panic {x} :
    Works cfg s t (.closure x) s.mem s.lock (.ret (.closure x) .panicked) s.owned s.guards

/-! ## Steps -/

/-- The outcomes of a step of the thread `t`: the memory, the locks, the thread and the two
pools. -/
inductive Move (cfg : Config) (s : State T) (t : T) :
    Mem → (StorageId → RwLock T) → Thread → Multiset Ref → Multiset Guard → Prop
  | code {o} (h : Clause cfg t s.lock s.mem (s.thread t).active o) :
    Move cfg s t o.mem o.lock ⟨o.active, o.calls ++ (s.thread t).conts⟩ s.owned s.guards
  | resume {c r k ks a calls} (ha : (s.thread t).active = .ret c r)
      (hk : (s.thread t).conts = k :: ks) (h : Resumed s.mem k r a calls) :
    Move cfg s t s.mem s.lock ⟨a, calls ++ ks⟩ s.owned s.guards
  | receive {c r u c' ks} (ha : (s.thread t).active = .ret c r)
      (hk : (s.thread t).conts = .user u c' :: ks) :
    Move cfg s t s.mem s.lock ⟨.user u, ks⟩ (s.receive r).owned (s.receive r).guards
  | call {u m' c o' g'} (ha : (s.thread t).active = .user u) (h : Calls cfg s m' c o' g') :
    Move cfg s t m' s.lock ((s.thread t).calling u c) o' g'
  | work {u m' l' a o' g'} (ha : (s.thread t).active = .user u)
      (h : Works cfg s t u m' l' a o' g') :
    Move cfg s t m' l' ⟨a, (s.thread t).conts⟩ o' g'

/-- The state after a step of the thread `t`. -/
def State.moved (s : State T) (t : T) (m : Mem) (l : StorageId → RwLock T) (th : Thread)
    (o : Multiset Ref) (g : Multiset Guard) : State T :=
  ⟨m, l, Function.update s.thread t th, o, g⟩

@[simp] theorem State.moved_self {th : Thread} {o : Multiset Ref} {g : Multiset Guard} :
    (s.moved t m l th o g).thread t = th := Function.update_self _ _ _

theorem State.moved_of_ne {th : Thread} {o : Multiset Ref} {g : Multiset Guard} {t' : T}
    (ht : t' ≠ t) : (s.moved t m l th o g).thread t' = s.thread t' := Function.update_of_ne ht _ _

/-- What holds of the thread that takes the step and of the other threads holds of all. -/
theorem State.moved_forall {th : Thread} {o : Multiset Ref} {g : Multiset Guard}
    {P : Thread → Prop} (h : P th) (ho : ∀ t' ≠ t, P (s.thread t')) (t' : T) :
    P ((s.moved t m l th o g).thread t') := by
  by_cases ht : t' = t
  · subst ht
    rwa [State.moved_self]
  · rw [State.moved_of_ne ht]
    exact ho t' ht

theorem State.eq_moved {a : Active} {ks : List Cont} {o : Multiset Ref} {g : Multiset Guard}
    (hs : s.thread t = ⟨a, ks⟩) :
    (⟨m, l, s.thread, o, g⟩ : State T) = s.moved t m l ⟨a, ks⟩ o g := by
  rw [State.moved, ← hs, Function.update_eq_self]

theorem State.userReturn_move {u : UserKind} {c : Choice} (ha : (s.thread t).active = .user u)
    (h : s.userReturn cfg t u c = some s') :
    ∃ m' l' th' o' g', Move cfg s t m' l' th' o' g' ∧ s' = s.moved t m' l' th' o' g' := by
  cases u <;> cases c <;>
    simp only [State.userReturn, reduceCtorEq, Option.ite_none_right_eq_some, Option.some.injEq]
      at h
  case destructor.done =>
    subst h
    exact ⟨_, _, _, _, _, .work ha .destroyed, rfl⟩
  case closure.result =>
    obtain ⟨⟨hg, hk⟩, rfl⟩ := h
    exact ⟨_, _, _, _, _, .work ha (.result hg hk), rfl⟩
  case closure.panic =>
    subst h
    exact ⟨_, _, _, _, _, .work ha .panic, rfl⟩

theorem State.return_move {c : Contract} {r : Ret} (ha : (s.thread t).active = .ret c r)
    (h : s.return t r = some s') :
    ∃ m' l' th' o' g', Move cfg s t m' l' th' o' g' ∧ s' = s.moved t m' l' th' o' g' := by
  simp only [State.return] at h
  split at h
  · cases h
  · obtain rfl := Option.some.inj h
    refine ⟨_, _, _, _, _, .receive ha ‹_›, ?_⟩
    cases r <;> rfl
  · obtain ⟨o, ho, rfl⟩ := Option.map_eq_some_iff.mp h
    exact ⟨_, _, _, _, _, .resume ha ‹_› (Cont.resume_resumed ho), rfl⟩

variable [Fintype T]

theorem State.userOp_move {u : UserKind} {o : Op} (ha : (s.thread t).active = .user u)
    (h : s.userOp cfg t u o = some s') :
    ∃ m' l' th' o' g', Move cfg s t m' l' th' o' g' ∧ s' = s.moved t m' l' th' o' g' := by
  have hth : s.thread t = ⟨.user u, (s.thread t).conts⟩ := by rw [← ha]
  cases o <;> simp only [State.userOp, Option.ite_none_right_eq_some, Option.some.injEq] at h
  case alloc =>
    obtain ⟨⟨hp, hf⟩, rfl⟩ := h
    exact ⟨_, _, _, _, _, .work ha (.alloc hp hf), State.eq_moved hth⟩
  case clone =>
    obtain ⟨hh, rfl⟩ := h
    exact ⟨_, _, _, _, _, .work ha (.clone (.inl hh)), State.eq_moved hth⟩
  case downgrade p =>
    obtain ⟨⟨hp, hh⟩, rfl⟩ := h
    exact ⟨_, _, _, _, _, .work ha (.clone (r := ⟨.weak, p⟩) (.inr ⟨hp, .inl ⟨rfl, hh⟩⟩)),
      State.eq_moved hth⟩
  case upgrade p =>
    obtain ⟨⟨hp, hh, hc⟩, rfl⟩ := h
    exact ⟨_, _, _, _, _, .work ha (.clone (r := ⟨.arc, p⟩) (.inr ⟨hp, .inr ⟨rfl, hh, hc⟩⟩)),
      State.eq_moved hth⟩
  case drop =>
    obtain ⟨hr, rfl⟩ := h
    exact ⟨_, _, _, _, _, .call ha (.drop hr), rfl⟩
  case fromInner =>
    obtain ⟨hr, rfl⟩ := h
    exact ⟨_, _, _, _, _, .work ha (.fromInner hr), State.eq_moved hth⟩
  case intoInner =>
    obtain ⟨hg, rfl⟩ := h
    exact ⟨_, _, _, _, _, .work ha (.intoInner hg), State.eq_moved hth⟩
  case dropGuard =>
    obtain ⟨hg, rfl⟩ := h
    exact ⟨_, _, _, _, _, .call ha (.dropGuard hg), rfl⟩
  case new =>
    obtain ⟨⟨hx, hb, hg⟩, rfl⟩ := h
    exact ⟨_, _, _, _, _, .work ha (.new hx hb hg), State.eq_moved hth⟩
  case load =>
    obtain ⟨hx, rfl⟩ := h
    exact ⟨_, _, _, _, _, .call ha (.load hx), rfl⟩
  case loadFull =>
    obtain ⟨hx, rfl⟩ := h
    exact ⟨_, _, _, _, _, .call ha (.loadFull hx), rfl⟩
  case store | swap =>
    obtain ⟨⟨hx, hg⟩, rfl⟩ := h
    exact ⟨_, _, _, _, _, .call ha (.swap hx hg), rfl⟩
  case compareAndSwap =>
    obtain ⟨⟨hx, hg⟩, rfl⟩ := h
    exact ⟨_, _, _, _, _, .call ha (.compareAndSwap hx hg), rfl⟩
  case rcu =>
    obtain ⟨hx, rfl⟩ := h
    exact ⟨_, _, _, _, _, .call ha (.rcu hx), rfl⟩
  case consume =>
    obtain ⟨⟨hx, hb⟩, rfl⟩ := h
    exact ⟨_, _, _, _, _, .call ha (.consume hx hb), rfl⟩
  case dropStorage =>
    obtain ⟨⟨hx, hb⟩, rfl⟩ := h
    exact ⟨_, _, _, _, _, .call ha (.dropStorage hx hb), rfl⟩
  case exit =>
    obtain ⟨-, rfl⟩ := h
    exact ⟨_, _, _, _, _, .work ha .exit, State.eq_moved hth⟩

/-- **Every step is the move of a thread.** -/
theorem State.step_move {c : Choice} (h : s.step cfg t c = some s') :
    ∃ m' l' th' o' g', Move cfg s t m' l' th' o' g' ∧ s' = s.moved t m' l' th' o' g' := by
  simp only [State.step] at h
  split at h
  · exact State.userOp_move ‹_› h
  · exact State.userReturn_move ‹_› h
  · exact State.return_move ‹_› h
  · obtain ⟨o, ho, rfl⟩ := Option.map_eq_some_iff.mp h
    exact ⟨_, _, _, _, _, .code (Active.exec_clause ho), rfl⟩
  · cases h

/-! ## Runs -/

/-- Runs of the machine. -/
abbrev State.Run (cfg : Config) : State T → State T → Prop :=
  Guarded.Run (fun s (a : T × Choice) => s.step cfg a.1 a.2) fun _ _ => True

/-- Such a run, with the states that it passes. -/
abbrev State.Path (cfg : Config) : State T → List (State T) → State T → Prop :=
  Guarded.Path (fun s (a : T × Choice) => s.step cfg a.1 a.2) fun _ _ => True

/-- What a schedule comes to. -/
abbrev State.play (cfg : Config) : State T → List (T × Choice) → Option (State T) :=
  Guarded.play (fun s a => s.step cfg a.1 a.2) fun _ _ => True

/-- The states that the machine comes to. -/
def State.Reachable (cfg : Config) : State T → Prop := State.Run cfg .init

/-- What holds at the start and is kept by every step holds in every reachable state. -/
theorem State.Reachable.invariant {I : State T → Prop} (h : s.Reachable cfg) (h₀ : I .init)
    (hs : ∀ s s' t c, I s → s.step cfg t c = some s' → I s') : I s :=
  Guarded.Run.invariant h h₀ fun s s' a hi _ ha => hs s s' a.1 a.2 hi ha

end ArcSwap.Locked
