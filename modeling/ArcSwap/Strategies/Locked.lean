import ArcSwap.Foundations.RwLock
import ArcSwap.Machine.Step

/-!
# The strategy of `RwLock<()>`

`strategy/rw_lock.rs` protects the reference counts with a lock for each storage: `load` holds it as
a reader from the load of the pointer to the increment of the count, `wait_for_readers` takes it as
the writer and gives it back, and `compare_and_swap` holds it as the writer. A guard is the value
itself. The operations of `lib.rs` are those of the other strategy, and so is what user code may do.

The shared memory is the same as well; its debt nodes are not touched. Two things are left out. The
destructors do not panic: a panic while `compare_and_swap` drops a value that it has refused would
poison the lock, and the `expect`s of `load` and `wait_for_readers` would fail from then on. And the
`current` of `compare_and_swap` is not a guard passed by value, which would be dropped under the
lock: only a guard of the default strategy can be passed so.
-/

namespace ArcSwap.Locked

/-! ## Threads -/

/-- `load`. The `expect` does not fail: no lock is poisoned. -/
inductive LoadPc
  /-- `self.read()` -/
  | read
  /-- `storage.load` -/
  | load
  /-- `T::inc(&ptr)` -/
  | inc (r : Ref)
  /-- the drop of `_guard` -/
  | unlock (r : Ref)
  deriving DecidableEq, Repr

/-- `wait_for_readers`. The `expect` does not fail here either. -/
inductive WaitPc
  /-- `self.write()` -/
  | write
  /-- the drop of the guard -/
  | unlock
  deriving DecidableEq, Repr

/-- `compare_and_swap`. `drop(current)` does nothing: `current` is not an owning guard. -/
inductive CasPc
  /-- `self.write()` -/
  | write
  /-- `storage.compare_exchange` -/
  | exchange
  /-- `T::inc(&old)` -/
  | inc (old : Ref)
  /-- the drop of `_lock`; `wrote` is auxiliary -/
  | unlock (old : Ref) (wrote : Option ℕ)
  deriving DecidableEq, Repr

/-- The function a thread is running, at the access it makes next. -/
inductive Active
  | user (u : UserKind)
  | load (x : StorageId) (start : ℕ) (pc : LoadPc)
  /-- `wait_for_readers` after the value `r` has been taken out of the storage -/
  | wait (x : StorageId) (r : Ref) (pc : WaitPc)
  /-- `self.ptr.swap(new)` -/
  | swap (f : SwapFrame)
  | cas (f : CasFrame) (pc : CasPc)
  /-- `RefCnt::dec`, or the drop of an owned value -/
  | dec (r : Ref)
  | ret (c : Contract) (r : Ret)
  deriving DecidableEq, Repr

/-- A suspended caller. -/
inductive Cont
  /-- user code that has called an operation -/
  | user (u : UserKind) (c : Contract)
  /-- `dec`: the destructor of the object -/
  | destroyed
  /-- `load_full`: `load` -/
  | full (x : StorageId) (start : ℕ)
  /-- `swap`: `wait_for_readers` -/
  | swapWaited (f : SwapFrame) (old : Ref) (wrote : ℕ)
  /-- `store`: the drop of the displaced value -/
  | stored (f : SwapFrame) (wrote : ℕ)
  /-- `ArcSwapAny::into_inner`: `wait_for_readers` -/
  | consumed (r : Ref)
  /-- the drop of an `ArcSwapAny`: `wait_for_readers` -/
  | dropped (r : Ref)
  /-- `compare_and_swap`: the drop of `new` when `old` is another pointer -/
  | casRefused (f : CasFrame) (old : Ref)
  /-- `rcu`: `load` -/
  | rcuLoaded (f : RcuFrame)
  /-- `rcu`: the closure; here and below `given` is auxiliary -/
  | rcuClosure (f : RcuFrame) (cur : Ref) (given : Content)
  /-- `rcu`: `compare_and_swap` -/
  | rcuSwapped (f : RcuFrame) (cur : Ref) (given : Content) (g : CasFrame)
  /-- `rcu`: the drop of `cur` at the return; `made` is auxiliary -/
  | rcuDone (f : RcuFrame) (given made : Content) (r : Ref) (wrote : Option ℕ)
  /-- `rcu`: the drop of the old `cur` in `cur = prev` -/
  | rcuAgain (f : RcuFrame) (prev : Ref)
  /-- `rcu`: the drop of `cur` while the panic of the closure unwinds -/
  | rcuUnwind (f : RcuFrame)
  deriving DecidableEq, Repr

/-- A thread. -/
structure Thread where
  active : Active
  conts : List Cont

/-- A thread that has not done anything yet. -/
def Thread.idle : Thread := ⟨.user .main, []⟩

/-- The state of the machine: `lock` is `ArcSwapAny::strategy` of each storage. -/
structure State (T : Type*) where
  mem : Mem
  lock : StorageId → RwLock T
  thread : T → Thread
  owned : Multiset Ref
  guards : Multiset Guard

variable {T : Type*}

/-- All threads are about to start. -/
def State.init : State T := ⟨.empty, fun _ => .free, fun _ => .idle, 0, 0⟩

/-- A value as a guard: `Protected` is the value itself. -/
def guardOf (r : Ref) : Guard := ⟨r, none⟩

/-! ## The code -/

/-- The result of a clause: the memory, the locks, where the code goes, and the callers that are
suspended if it calls a function. -/
structure Out (T : Type*) where
  mem : Mem
  lock : StorageId → RwLock T
  active : Active
  calls : List Cont

/-- `RefCnt::dec`: the destructor runs when the last reference is gone. -/
def execDec (l : StorageId → RwLock T) (m : Mem) (r : Ref) : Out T :=
  if r.kind = .arc ∧ m.LastRef r then ⟨m.dec r, l, .user .destructor, [.destroyed]⟩
  else ⟨m.dec r, l, .ret .unit (.unit none), []⟩

/-- `ArcSwapAny::swap`: the exchange -/
def execSwap (cfg : Config) (l : StorageId → RwLock T) (m : Mem) (f : SwapFrame) : Out T :=
  let old : Ref := ⟨cfg.kind f.storage, m.ptr f.storage⟩
  ⟨m.setPtr f.storage f.new.addr f.call, l, .wait f.storage old .write,
    [.swapWaited f old (m.log f.storage).length]⟩

variable [DecidableEq T]

/-- `load`, by the thread `t` -/
def LoadPc.exec (cfg : Config) (t : T) (l : StorageId → RwLock T) (m : Mem) (x : StorageId)
    (start : ℕ) : LoadPc → Option (Out T)
  | .read =>
    ((l x).read t).map fun k => ⟨m, Function.update l x k, .load x start .load, []⟩
  | .load => some ⟨m, l, .load x start (.inc ⟨cfg.kind x, m.ptr x⟩), []⟩
  | .inc r => some ⟨m.inc r, l, .load x start (.unlock r), []⟩
  | .unlock r =>
    some ⟨m, Function.update l x ((l x).unlockRead t),
      .ret (.guard x start) (.guard (guardOf r) none), []⟩

/-- `wait_for_readers`, by the thread `t` -/
def WaitPc.exec (t : T) (l : StorageId → RwLock T) (m : Mem) (x : StorageId) (r : Ref) :
    WaitPc → Option (Out T)
  | .write =>
    ((l x).write t).map fun k => ⟨m, Function.update l x k, .wait x r .unlock, []⟩
  | .unlock =>
    some ⟨m, Function.update l x (l x).unlockWrite, .ret (.paid r) (.unit none), []⟩

/-- `compare_and_swap`, by the thread `t` -/
def CasPc.exec (cfg : Config) (t : T) (l : StorageId → RwLock T) (m : Mem) (f : CasFrame) :
    CasPc → Option (Out T)
  | .write =>
    ((l f.storage).write t).map fun k =>
      ⟨m, Function.update l f.storage k, .cas f .exchange, []⟩
  | .exchange =>
    let old : Ref := ⟨cfg.kind f.storage, m.ptr f.storage⟩
    if old.addr = f.current then
      some ⟨m.setPtr f.storage f.new.addr f.call, l,
        .cas f (.unlock old (some (m.log f.storage).length)), []⟩
    else some ⟨m, l, .cas f (.inc old), []⟩
  | .inc old => some ⟨m.inc old, l, .dec f.new, [.casRefused f old]⟩
  | .unlock old wrote =>
    some ⟨m, Function.update l f.storage (l f.storage).unlockWrite,
      .ret (.cas f) (.guard (guardOf old) wrote), []⟩

/-- The next step of a function; a thread that has to wait for a lock takes none. Nothing happens
in user code and on a return: these are steps of the thread as a whole. -/
def Active.exec (cfg : Config) (t : T) (l : StorageId → RwLock T) (m : Mem) :
    Active → Option (Out T)
  | .load x start pc => pc.exec cfg t l m x start
  | .wait x r pc => pc.exec t l m x r
  | .swap f => some (execSwap cfg l m f)
  | .cas f pc => pc.exec cfg t l m f
  | .dec r => some (execDec l m r)
  | .user _ | .ret _ _ => none

/-- The arguments of the `compare_and_swap` in `rcu`, with the result of the closure. -/
def casFrame (f : RcuFrame) (m : Mem) (cur new : Ref) : CasFrame :=
  ⟨f.storage, m.now f.storage, f.call, cur.addr, new, m.object new.addr⟩

omit [DecidableEq T] in
/-- Where a suspended caller goes on when its call returns. -/
def Cont.resume (m : Mem) : Cont → Ret → Option (Active × List Cont)
  | .destroyed, .unit _ => some (.ret .unit (.unit none), [])
  | .full x start, .guard g _ => some (.ret (.value x start) (.value g.ref none), [])
  | .swapWaited f old wrote, .unit _ =>
    if f.store then some (.dec old, [.stored f wrote])
    else some (.ret (.swap f) (.value old (some wrote)), [])
  | .stored f wrote, .unit _ => some (.ret (.swap f) (.unit (some wrote)), [])
  | .consumed r, .unit _ => some (.ret (.is r) (.value r none), [])
  | .dropped r, .unit _ => some (.dec r, [])
  | .casRefused f old, .unit _ => some (.cas f (.unlock old none), [])
  | .rcuLoaded f, .guard cur _ =>
    some (.user (.closure f.storage), [.rcuClosure f cur.ref (m.content cur.ref.addr)])
  | .rcuClosure f cur given, .value new _ =>
    let g := casFrame f m cur new
    some (.cas g .write, [.rcuSwapped f cur given g])
  | .rcuClosure f cur _, .panicked => some (.dec cur, [.rcuUnwind f])
  | .rcuSwapped f cur given g, .guard prev wrote =>
    -- `ptr_eq(&*cur, &*prev)`
    if cur.addr = prev.ref.addr then
      some (.dec cur, [.rcuDone f given g.content prev.ref wrote])
    else some (.dec cur, [.rcuAgain f prev.ref])
  | .rcuDone f _ _ r wrote, .unit _ => some (.ret (.rcu f) (.value r wrote), [])
  | .rcuAgain f prev, .unit _ =>
    some (.user (.closure f.storage), [.rcuClosure f prev (m.content prev.addr)])
  | .rcuUnwind f, .unit _ => some (.ret (.rcu f) .panicked, [])
  | _, _ => none

/-! ## User code -/

/-- The storage that a function works on. -/
def Active.storage? : Active → Option StorageId
  | .load x _ _ | .wait x _ _ => some x
  | .swap f => some f.storage
  | .cas f _ => some f.storage
  | _ => none

/-- The storage that a suspended caller works on. -/
def Cont.storage? : Cont → Option StorageId
  | .full x _ => some x
  | .swapWaited f _ _ | .stored f _ => some f.storage
  | .casRefused f _ => some f.storage
  | .rcuLoaded f | .rcuClosure f _ _ | .rcuSwapped f _ _ _ | .rcuDone f _ _ _ _ | .rcuAgain f _
  | .rcuUnwind f => some f.storage
  | _ => none

/-- The thread is borrowing the storage. -/
def Thread.Borrows (th : Thread) (x : StorageId) : Prop :=
  th.active.storage? = some x ∨ ∃ k ∈ th.conts, k.storage? = some x

instance (th : Thread) (x : StorageId) : Decidable (th.Borrows x) :=
  inferInstanceAs (Decidable (_ ∨ _))

/-- The value that a closure of `rcu` may look at. -/
def Cont.lent? : Cont → Option Ref
  | .rcuClosure _ cur _ => some cur
  | _ => none

/-- A call of user code: the function it runs, the callers below, and the type of the result. -/
structure Call where
  active : Active
  calls : List Cont
  contract : Contract

/-- The thread after its user code of the kind `u` has called a function. -/
def Thread.calling (th : Thread) (u : UserKind) (c : Call) : Thread :=
  ⟨c.active, c.calls ++ .user u c.contract :: th.conts⟩

namespace State

/-- User code of the thread can get at a value: it owns one, or a guard for one, or it is a closure
that was given one. -/
def Holds (s : State T) (t : T) (r : Ref) : Prop :=
  r ∈ s.owned ∨ (∃ g ∈ s.guards, g.ref = r) ∨ ∃ k ∈ (s.thread t).conts, k.lent? = some r

instance (s : State T) (t : T) (r : Ref) : Decidable (s.Holds t r) :=
  have : Decidable (∃ g ∈ s.guards, g.ref = r) := Multiset.decidableExistsMultiset
  inferInstanceAs (Decidable (_ ∨ _ ∨ _))

/-- User code can give away an owned value: null needs no reference. -/
def Gives (s : State T) (r : Ref) : Prop := r ∈ s.owned ∨ ¬ r.Counted

instance (s : State T) (r : Ref) : Decidable (s.Gives r) := inferInstanceAs (Decidable (_ ∨ _))

/-- No thread is borrowing the storage. -/
def Unborrowed (s : State T) (x : StorageId) : Prop := ∀ t, ¬ (s.thread t).Borrows x

instance [Fintype T] (s : State T) (x : StorageId) : Decidable (s.Unborrowed x) :=
  inferInstanceAs (Decidable (∀ _, _))

/-- What user code has been given by an operation goes to the pools. -/
def receive (s : State T) : Ret → State T
  | .guard g _ => { s with guards := g ::ₘ s.guards }
  | .value r _ => { s with owned := r ::ₘ s.owned }
  | _ => s

/-- A thread has taken a step. -/
def set (s : State T) (t : T) (m : Mem) (l : StorageId → RwLock T) (th : Thread) : State T :=
  { s with mem := m, lock := l, thread := Function.update s.thread t th }

/-- User code of the kind `u` calls a function of the library. -/
def call (s : State T) (t : T) (u : UserKind) (m : Mem) (c : Call) : State T :=
  s.set t m s.lock ((s.thread t).calling u c)

/-- A step of user code. -/
def userOp [Fintype T] (cfg : Config) (s : State T) (t : T) (u : UserKind) :
    Op → Option (State T)
  | .alloc p =>
    if p ≠ 0 ∧ s.mem.Freed p then
      some { s with mem := s.mem.alloc p, owned := ⟨.arc, p⟩ ::ₘ s.owned }
    else none
  | .clone r =>
    if s.Holds t r then some { s with mem := s.mem.inc r, owned := r ::ₘ s.owned } else none
  | .downgrade p =>
    if p ≠ 0 ∧ s.Holds t ⟨.arc, p⟩ then
      some { s with mem := s.mem.inc ⟨.weak, p⟩, owned := ⟨.weak, p⟩ ::ₘ s.owned }
    else none
  | .upgrade p =>
    if p ≠ 0 ∧ s.Holds t ⟨.weak, p⟩ ∧ s.mem.count ⟨.arc, p⟩ ≠ 0 then
      some { s with mem := s.mem.inc ⟨.arc, p⟩, owned := ⟨.arc, p⟩ ::ₘ s.owned }
    else none
  | .drop r =>
    if r ∈ s.owned then
      some ({ s with owned := s.owned.erase r }.call t u s.mem ⟨.dec r, [], .unit⟩)
    else none
  | .fromInner r =>
    if r ∈ s.owned then
      some { s with owned := s.owned.erase r, guards := guardOf r ::ₘ s.guards }
    else none
  | .intoInner g =>
    if g ∈ s.guards then
      some { s with owned := g.ref ::ₘ s.owned, guards := s.guards.erase g }
    else none
  | .dropGuard g =>
    if g ∈ s.guards then
      some ({ s with guards := s.guards.erase g }.call t u s.mem ⟨.dec g.ref, [], .unit⟩)
    else none
  | .new x p =>
    if x ∉ s.mem.live ∧ s.Unborrowed x ∧ s.Gives ⟨cfg.kind x, p⟩ then
      some { s with
        mem := s.mem.newStorage x p
        lock := Function.update s.lock x .free
        owned := s.owned.erase ⟨cfg.kind x, p⟩ }
    else none
  | .load x =>
    if x ∈ s.mem.live then
      some (s.call t u s.mem ⟨.load x (s.mem.now x) .read, [], .guard x (s.mem.now x)⟩)
    else none
  | .loadFull x =>
    if x ∈ s.mem.live then
      some (s.call t u s.mem
        ⟨.load x (s.mem.now x) .read, [.full x (s.mem.now x)], .value x (s.mem.now x)⟩)
    else none
  | .store x p =>
    if x ∈ s.mem.live ∧ s.Gives ⟨cfg.kind x, p⟩ then
      let f : SwapFrame := ⟨x, s.mem.now x, s.mem.calls, ⟨cfg.kind x, p⟩, true⟩
      some ({ s with owned := s.owned.erase ⟨cfg.kind x, p⟩ }.call t u s.mem.newCall
        ⟨.swap f, [], .swap f⟩)
    else none
  | .swap x p =>
    if x ∈ s.mem.live ∧ s.Gives ⟨cfg.kind x, p⟩ then
      let f : SwapFrame := ⟨x, s.mem.now x, s.mem.calls, ⟨cfg.kind x, p⟩, false⟩
      some ({ s with owned := s.owned.erase ⟨cfg.kind x, p⟩ }.call t u s.mem.newCall
        ⟨.swap f, [], .swap f⟩)
    else none
  | .compareAndSwap x current p =>
    if x ∈ s.mem.live ∧ s.Gives ⟨cfg.kind x, p⟩ then
      let f : CasFrame :=
        ⟨x, s.mem.now x, s.mem.calls, current, ⟨cfg.kind x, p⟩, s.mem.object p⟩
      some ({ s with owned := s.owned.erase ⟨cfg.kind x, p⟩ }.call t u s.mem.newCall
        ⟨.cas f .write, [], .cas f⟩)
    else none
  | .rcu x =>
    if x ∈ s.mem.live then
      let f : RcuFrame := ⟨x, s.mem.now x, s.mem.calls⟩
      some (s.call t u s.mem.newCall ⟨.load x f.start .read, [.rcuLoaded f], .rcu f⟩)
    else none
  | .consume x =>
    if x ∈ s.mem.live ∧ s.Unborrowed x then
      let r : Ref := ⟨cfg.kind x, s.mem.ptr x⟩
      some (s.call t u (s.mem.endStorage x) ⟨.wait x r .write, [.consumed r], .is r⟩)
    else none
  | .dropStorage x =>
    if x ∈ s.mem.live ∧ s.Unborrowed x then
      let r : Ref := ⟨cfg.kind x, s.mem.ptr x⟩
      some (s.call t u (s.mem.endStorage x) ⟨.wait x r .write, [.dropped r], .unit⟩)
    else none
  -- this strategy keeps nothing in the thread-local storage
  | .exit => if (s.thread t).conts = [] then some s else none

/-- The end of nested user code. Destructors do not panic. -/
def userReturn (cfg : Config) (s : State T) (t : T) : UserKind → Choice → Option (State T)
  | .destructor, .done =>
    some (s.set t s.mem s.lock ⟨.ret .unit (.unit none), (s.thread t).conts⟩)
  | .closure x, .result r =>
    if s.Gives r ∧ r.kind = cfg.kind x then
      some ({ s with owned := s.owned.erase r }.set t s.mem s.lock
        ⟨.ret (.closure x) (.value r none), (s.thread t).conts⟩)
    else none
  | .closure x, .panic =>
    some (s.set t s.mem s.lock ⟨.ret (.closure x) .panicked, (s.thread t).conts⟩)
  | _, _ => none

end State

/-! ## Steps -/

/-- A return to the suspended caller. -/
def State.return (s : State T) (t : T) (r : Ret) : Option (State T) :=
  match (s.thread t).conts with
  | [] => none
  | .user u _ :: ks => some ((s.receive r).set t s.mem s.lock ⟨.user u, ks⟩)
  | k :: ks => (k.resume s.mem r).map fun o => s.set t s.mem s.lock ⟨o.1, o.2 ++ ks⟩

/-- A step of the thread `t`. The exchange of `compare_and_swap` does not fail spuriously here. -/
def State.step [Fintype T] (cfg : Config) (s : State T) (t : T) (c : Choice) : Option (State T) :=
  match (s.thread t).active, c with
  | .user u, .op o => s.userOp cfg t u o
  | .user u, c => s.userReturn cfg t u c
  | .ret _ r, .go _ => s.return t r
  | a, .go _ => (a.exec cfg t s.lock s.mem).map fun o =>
      s.set t o.mem o.lock ⟨o.active, o.calls ++ (s.thread t).conts⟩
  | _, _ => none

end ArcSwap.Locked
