import ArcSwap.Machine.Code
import Mathlib.Data.Fintype.Basic
import Mathlib.Data.Multiset.AddSub

/-!
# The machine

The threads take their steps in any order. What user code holds, the owned values and the guards,
is kept in two pools that all threads draw from: a guard may be released by another thread than the
one that loaded it. A step of user code calls an operation with arguments from the pools, clones or
drops what it holds, creates an object, or returns from the destructor or closure it runs in.
-/

namespace ArcSwap

/-- What user code may do. -/
inductive Op
  /-- `Arc::new` -/
  | alloc (p : Addr)
  /-- `Clone` of a value or of what a guard refers to -/
  | clone (r : Ref)
  /-- `Arc::downgrade` -/
  | downgrade (p : Addr)
  /-- `Weak::upgrade` of a pointer to an object that is still there -/
  | upgrade (p : Addr)
  /-- the drop of an owned value -/
  | drop (r : Ref)
  /-- `Guard::from_inner` -/
  | fromInner (r : Ref)
  /-- `Guard::into_inner` -/
  | intoInner (g : Guard)
  /-- the drop of a guard -/
  | dropGuard (g : Guard)
  /-- `ArcSwapAny::new` -/
  | new (s : StorageId) (p : Addr)
  | load (s : StorageId)
  | loadFull (s : StorageId)
  | store (s : StorageId) (p : Addr)
  | swap (s : StorageId) (p : Addr)
  | compareAndSwap (s : StorageId) (current p : Addr)
  | rcu (s : StorageId)
  /-- `ArcSwapAny::into_inner` -/
  | consume (s : StorageId)
  /-- the drop of a storage -/
  | dropStorage (s : StorageId)
  /-- the end of the thread: `THREAD_HEAD` is dropped -/
  | exit

/-- How a step goes: the `go` of library code, where a `compare_exchange_weak` may fail
spuriously, or a choice of user code. -/
inductive Choice
  | go (spurious : Bool)
  | op (o : Op)
  /-- the end of a destructor -/
  | done
  /-- the result of a closure -/
  | result (r : Ref)
  /-- the panic of a closure -/
  | panic

variable {T : Type*}

/-- The state of the machine. -/
structure State (T : Type*) where
  mem : Mem
  thread : T → Thread
  owned : Multiset Ref
  guards : Multiset Guard

/-- All threads are about to start. -/
def State.init : State T := ⟨.empty, fun _ => .idle, 0, 0⟩

/-- The storage that a function of the library works on. -/
def Active.storage? : Active → Option StorageId
  | .load f _ => some f.storage
  | .payAll f _ => some f.storage
  | .swap f => some f.storage
  | .cas f _ => some f.storage
  | _ => none

/-- The storage that a suspended caller works on. -/
def Cont.storage? : Cont → Option StorageId
  | .loadNode f | .discard f _ _ | .fallback f _ | .unused f _ => some f.storage
  | .loadLeft s _ _ | .full s _ | .fullInner s _ _ => some s
  | .payNode f | .helpReplacement f _ _ _ | .helpRetry f _ _ _ | .valDropped f => some f.storage
  | .swapPaid f _ _ | .stored f _ => some f.storage
  | .casLoaded f | .casRetry f | .casRefused f _ | .casPaid f _ _ | .casDec f _ _ =>
    some f.storage
  | .rcuLoaded f | .rcuClosure f _ _ | .rcuSwapped f _ _ _ | .rcuInner f _ _ _ _ _
  | .rcuDone f _ _ _ _ | .rcuAgain f _ | .rcuUnwind f => some f.storage
  | _ => none

/-- The thread is borrowing the storage. -/
def Thread.Borrows (th : Thread) (s : StorageId) : Prop :=
  th.active.storage? = some s ∨ ∃ k ∈ th.conts, k.storage? = some s

instance (th : Thread) (s : StorageId) : Decidable (th.Borrows s) :=
  inferInstanceAs (Decidable (_ ∨ _))

/-- The value that a closure of `rcu` may look at. -/
def Cont.lent? : Cont → Option Ref
  | .rcuClosure _ cur _ => some cur.ref
  | _ => none

namespace State

/-- A thread has taken a step. -/
def set [DecidableEq T] (s : State T) (t : T) (m : Mem) (th : Thread) : State T :=
  { s with mem := m, thread := Function.update s.thread t th }

/-- User code of the thread can get at a value: it owns one, or a guard for one, or it is a closure
that was given one. -/
def Holds (s : State T) (t : T) (r : Ref) : Prop :=
  r ∈ s.owned ∨ (∃ g ∈ s.guards, g.ref = r) ∨ ∃ k ∈ (s.thread t).conts, k.lent? = some r

instance (s : State T) (t : T) (r : Ref) : Decidable (s.Holds t r) :=
  have : Decidable (∃ g ∈ s.guards, g.ref = r) := Multiset.decidableExistsMultiset
  inferInstanceAs (Decidable (_ ∨ _ ∨ _))

/-- User code can give away an owned value: null needs no reference. -/
def Gives (s : State T) (r : Ref) : Prop := r ∈ s.owned ∨ ¬ r.Counted

instance (s : State T) (r : Ref) : Decidable (s.Gives r) := inferInstanceAs (Decidable (_ ∨ _))

/-- No thread is borrowing the storage. -/
def Unborrowed (s : State T) (x : StorageId) : Prop := ∀ t, ¬ (s.thread t).Borrows x

instance [Fintype T] (s : State T) (x : StorageId) : Decidable (s.Unborrowed x) :=
  inferInstanceAs (Decidable (∀ _, _))

/-- What user code has been given by an operation goes to the pools. -/
def receive (s : State T) : Ret → State T
  | .guard g _ => { s with guards := g ::ₘ s.guards }
  | .value r _ => { s with owned := r ::ₘ s.owned }
  | _ => s

end State

/-- A call of user code: the function it runs, the callers below, and the type of the result. -/
structure Call where
  active : Active
  calls : List Cont
  contract : Contract

variable [DecidableEq T]

/-- User code of the kind `u` calls a function of the library. -/
def State.call (s : State T) (t : T) (u : UserKind) (m : Mem) (c : Call) : State T :=
  s.set t m { s.thread t with
    active := c.active
    conts := c.calls ++ .user u c.contract :: (s.thread t).conts }

/-- The call of `store` or `swap`. -/
def SwapFrame.invoke (f : SwapFrame) : Call := ⟨.swap f, [], .swap f⟩

/-- The call of `compare_and_swap`. -/
def CasFrame.invoke (f : CasFrame) : Call := ⟨f.load, [.casLoaded f], .cas f⟩

/-- The call of `rcu`. -/
def RcuFrame.invoke (f : RcuFrame) : Call :=
  ⟨.load ⟨f.storage, f.start, none, 0⟩ .enter, [.rcuLoaded f], .rcu f⟩

/-- A step of user code. -/
def State.userOp [Fintype T] (cfg : Config) (s : State T) (t : T) (u : UserKind) :
    Op → Option (State T)
  | .alloc p =>
    if p ≠ 0 ∧ s.mem.Freed p then
      some { s with mem := s.mem.alloc p, owned := ⟨.arc, p⟩ ::ₘ s.owned }
    else none
  | .clone r =>
    if s.Holds t r then some { s with mem := s.mem.inc r, owned := r ::ₘ s.owned } else none
  | .downgrade p =>
    if p ≠ 0 ∧ s.Holds t ⟨.arc, p⟩ then
      some { s with mem := s.mem.inc ⟨.weak, p⟩, owned := ⟨.weak, p⟩ ::ₘ s.owned }
    else none
  | .upgrade p =>
    if p ≠ 0 ∧ s.Holds t ⟨.weak, p⟩ ∧ s.mem.count ⟨.arc, p⟩ ≠ 0 then
      some { s with mem := s.mem.inc ⟨.arc, p⟩, owned := ⟨.arc, p⟩ ::ₘ s.owned }
    else none
  | .drop r =>
    if r ∈ s.owned then
      some ({ s with owned := s.owned.erase r }.call t u s.mem ⟨.dec r, [], .unit⟩)
    else none
  | .fromInner r =>
    if r ∈ s.owned then
      some { s with owned := s.owned.erase r, guards := ⟨r, none⟩ ::ₘ s.guards }
    else none
  | .intoInner g =>
    if g ∈ s.guards then
      some ({ s with guards := s.guards.erase g }.call t u s.mem
        ⟨.intoInner g .start, [], .is g.ref⟩)
    else none
  | .dropGuard g =>
    if g ∈ s.guards then
      some ({ s with guards := s.guards.erase g }.call t u s.mem ⟨.dropGuard g, [], .unit⟩)
    else none
  | .new x p =>
    if x ∉ s.mem.live ∧ s.Unborrowed x ∧ s.Gives ⟨cfg.kind x, p⟩ then
      some { s with mem := s.mem.newStorage x p, owned := s.owned.erase ⟨cfg.kind x, p⟩ }
    else none
  | .load x =>
    if x ∈ s.mem.live then
      some (s.call t u s.mem
        ⟨.load ⟨x, s.mem.now x, none, 0⟩ .enter, [], .guard x (s.mem.now x)⟩)
    else none
  | .loadFull x =>
    if x ∈ s.mem.live then
      some (s.call t u s.mem
        ⟨.load ⟨x, s.mem.now x, none, 0⟩ .enter, [.full x (s.mem.now x)], .value x (s.mem.now x)⟩)
    else none
  | .store x p =>
    if x ∈ s.mem.live ∧ s.Gives ⟨cfg.kind x, p⟩ then
      some ({ s with owned := s.owned.erase ⟨cfg.kind x, p⟩ }.call t u s.mem.newCall
        (SwapFrame.invoke ⟨x, s.mem.now x, s.mem.calls, ⟨cfg.kind x, p⟩, true⟩))
    else none
  | .swap x p =>
    if x ∈ s.mem.live ∧ s.Gives ⟨cfg.kind x, p⟩ then
      some ({ s with owned := s.owned.erase ⟨cfg.kind x, p⟩ }.call t u s.mem.newCall
        (SwapFrame.invoke ⟨x, s.mem.now x, s.mem.calls, ⟨cfg.kind x, p⟩, false⟩))
    else none
  | .compareAndSwap x current p =>
    if x ∈ s.mem.live ∧ s.Gives ⟨cfg.kind x, p⟩ then
      some ({ s with owned := s.owned.erase ⟨cfg.kind x, p⟩ }.call t u s.mem.newCall
        (CasFrame.invoke
          ⟨x, s.mem.now x, s.mem.calls, current, ⟨cfg.kind x, p⟩, s.mem.object p⟩))
    else none
  | .rcu x =>
    if x ∈ s.mem.live then
      some (s.call t u s.mem.newCall (RcuFrame.invoke ⟨x, s.mem.now x, s.mem.calls⟩))
    else none
  | .consume x =>
    if x ∈ s.mem.live ∧ s.Unborrowed x then
      let r : Ref := ⟨cfg.kind x, s.mem.ptr x⟩
      some (s.call t u (s.mem.endStorage x) ⟨.payAll (.start x r) .enter, [.consumed r], .is r⟩)
    else none
  | .dropStorage x =>
    if x ∈ s.mem.live ∧ s.Unborrowed x then
      let r : Ref := ⟨cfg.kind x, s.mem.ptr x⟩
      some (s.call t u (s.mem.endStorage x) ⟨.payAll (.start x r) .enter, [.dropped r], .unit⟩)
    else none
  | .exit =>
    let th := s.thread t
    if th.conts = [] ∧ th.tls.alive then
      match th.tls.head.node with
      | none => some (s.set t s.mem { th with tls := ⟨th.tls.head, false⟩ })
      | some n =>
        some (s.set t s.mem
          ⟨⟨{ th.tls.head with node := none }, false⟩, .cooldown n .reserve, [.user u .unit]⟩)
    else none

/-- The end of nested user code. Destructors do not panic. -/
def State.userReturn (cfg : Config) (s : State T) (t : T) : UserKind → Choice → Option (State T)
  | .destructor, .done =>
    some (s.set t s.mem { s.thread t with active := .ret .unit (.unit none) })
  | .closure x, .result r =>
    if s.Gives r ∧ r.kind = cfg.kind x then
      some ({ s with owned := s.owned.erase r }.set t s.mem
        { s.thread t with active := .ret (.closure x) (.value r none) })
    else none
  | .closure x, .panic =>
    some (s.set t s.mem { s.thread t with active := .ret (.closure x) .panicked })
  | _, _ => none

/-- The thread after a clause of the code. -/
def Thread.after (th : Thread) (conts : List Cont) (o : Out) : Thread :=
  ⟨{ th.tls with head := o.head }, o.active, o.calls ++ conts⟩

/-- A return to the suspended caller. -/
def State.return (cfg : Config) (s : State T) (t : T) (r : Ret) : Option (State T) :=
  let th := s.thread t
  match th.conts with
  | [] => none
  | .user u _ :: ks => some ((s.receive r).set t s.mem { th with active := .user u, conts := ks })
  | k :: ks => (k.resume cfg th.tls s.mem r).map fun o => s.set t o.mem (th.after ks o)

/-- A step of the code of the library. -/
def State.exec (cfg : Config) (s : State T) (t : T) (spurious : Bool) : State T :=
  let th := s.thread t
  let o := th.active.exec cfg th.tls s.mem spurious
  s.set t o.mem (th.after th.conts o)

/-- A step of the thread `t`. -/
def State.step [Fintype T] (cfg : Config) (s : State T) (t : T) (c : Choice) : Option (State T) :=
  match (s.thread t).active, c with
  | .user u, .op o => s.userOp cfg t u o
  | .user u, c => s.userReturn cfg t u c
  | .ret _ r, .go _ => s.return cfg t r
  | .failed _, _ => none
  | _, .go spurious => some (s.exec cfg t spurious)
  | _, _ => none

end ArcSwap
