import ArcSwap.Machine.Memory

/-!
# Threads

A thread runs one function of the source at a time, `Active`, on a stack of suspended callers,
`Cont`. The constructors of an active function are its program points, each named after the access
the code makes next there; a suspended caller is named after the call it waits for. User code runs
at the bottom of the stack, and above it wherever the library calls out: in the destructor of an
object and in the closure of `rcu`.
-/

namespace ArcSwap

/-- `HybridProtection`: a pointer and, when the reference is owed, the slot of the debt. -/
structure Guard where
  ref : Ref
  debt : Option SlotId
  deriving DecidableEq, Repr

/-- `LocalNode`: the node of a thread and the local data of the fast and the helping slots. -/
structure LocalNode where
  node : Option NodeId
  offset : ℕ
  generation : ℕ
  deriving DecidableEq, Repr

/-- A `LocalNode` with `FastLocal::default()` and `HelpingLocal::default()`. -/
def LocalNode.fresh (node : Option NodeId) : LocalNode := ⟨node, 0, 0⟩

/-- The thread-local storage: `THREAD_HEAD`, and whether `try_with` still finds it. -/
structure Tls where
  head : LocalNode
  alive : Bool
  deriving DecidableEq, Repr

/-- The assertions and expectations of the debt code. -/
inductive Assertion
  /-- `expect("LocalNode::with ensures it is set")` -/
  | nodeSet
  /-- `debug_assert_eq!(node.in_use.load(Relaxed), NODE_USED)` -/
  | nodeInUse
  /-- `debug_assert_eq!(Debt::NONE, old)` in `fast::Slots::get_debt` -/
  | fastSlotNone
  /-- `debug_assert_eq!(gen & GEN_TAG, 0)` -/
  | genTagFree
  /-- `debug_assert_eq!(IDLE, prev, "Left control in wrong state")` -/
  | controlIdle
  /-- `debug_assert_eq!(IDLE, self.control.load(Relaxed))` in `help` -/
  | helperIdle
  /-- `debug_assert!(!ptr::eq(self, who), "Refusing to help myself, makes no sense")` -/
  | notMyself
  /-- `assert_eq!(my_space as usize & TAG_MASK, 0)` -/
  | spaceAligned
  /-- `unreachable!("Invalid control value {:X}", control)` -/
  | controlValid
  /-- `debug_assert_eq!(Debt::NONE, prev)` in `confirm` -/
  | helpingSlotNone
  /-- `debug_assert_eq!(control & TAG_MASK, REPLACEMENT_TAG)` in `confirm` -/
  | replacement
  /-- `assert_eq!(NODE_USED, self.in_use.swap(NODE_COOLDOWN, Release))` -/
  | cooldownUsed
  deriving DecidableEq, Repr

/-! ## What is returned -/

/-- A returned value. `wrote` is auxiliary: the position in the log of the storage at which this
call has written to it, if it has. -/
inductive Ret
  | unit (wrote : Option ℕ)
  | node (n : NodeId)
  | guard (g : Guard) (wrote : Option ℕ)
  | value (r : Ref) (wrote : Option ℕ)
  | panicked
  deriving DecidableEq, Repr

/-- The arguments of a `load` of the storage. `tmp` is the temporary `LocalNode` that is used when
the thread-local one is gone. Auxiliary are `start`, the last position in the log of the storage
when the call began, and `seen`, the object at the pointer that `attempt` has loaded. -/
structure LoadFrame where
  storage : StorageId
  start : ℕ
  tmp : Option LocalNode
  seen : ℕ
  deriving DecidableEq, Repr

/-- The arguments of `pay_all` and its temporary `LocalNode`. Auxiliary are `reserved` and
`readAt`, the epochs of the node it visits at `reserve_writer` and at the last load of the control,
and `since`, the last position in the log of the storage at the last call of `replacement`. -/
structure PayFrame where
  storage : StorageId
  ref : Ref
  tmp : Option LocalNode
  reserved : ℕ
  readAt : ℕ
  since : ℕ
  deriving DecidableEq, Repr

/-- The call of `pay_all` for the value `r` that has been taken out of the storage. -/
@[simps]
def PayFrame.start (s : StorageId) (r : Ref) : PayFrame := ⟨s, r, none, 0, 0, 0⟩

/-- The arguments of `swap`, or of `store` when the displaced value is dropped. -/
structure SwapFrame where
  storage : StorageId
  start : ℕ
  call : ℕ
  new : Ref
  store : Bool
  deriving DecidableEq, Repr

/-- The arguments of `compare_and_swap`. A `current` that is a `Guard` by value is dropped by the
caller afterwards. `made` is auxiliary: the object of the new value. -/
structure CasFrame where
  storage : StorageId
  start : ℕ
  call : ℕ
  current : Addr
  new : Ref
  made : ℕ
  deriving DecidableEq, Repr

/-- The arguments of `rcu`; the closure is user code. -/
structure RcuFrame where
  storage : StorageId
  start : ℕ
  call : ℕ
  deriving DecidableEq, Repr

/-- User code: the main code of the thread, the destructor of an object, or the closure of an
`rcu` on a storage. -/
inductive UserKind
  | main
  | destructor
  | closure (s : StorageId)
  deriving DecidableEq, Repr

/-- What a call returns, as far as its arguments tell. -/
inductive Contract
  /-- The end of a thread's main code, which is never reached. -/
  | never
  | unit
  | node
  /-- A guard loaded from the storage. -/
  | guard (s : StorageId) (start : ℕ)
  /-- A value loaded from the storage. -/
  | value (s : StorageId) (start : ℕ)
  /-- The value `r`. -/
  | is (r : Ref)
  /-- All debts on `r` have been paid. -/
  | paid (r : Ref)
  | swap (f : SwapFrame)
  | cas (f : CasFrame)
  | rcu (f : RcuFrame)
  /-- The new value computed by the closure of an `rcu`. -/
  | closure (s : StorageId)
  deriving DecidableEq, Repr

/-! ## Program points -/

/-- `Node::get`. -/
inductive GetPc
  /-- `LIST_HEAD.load` in `traverse` -/
  | head
  /-- `in_use.load` in `check_cooldown` -/
  | check (n : NodeId)
  /-- `active_writers.load` -/
  | writers (n : NodeId)
  /-- `in_use.compare_exchange(NODE_COOLDOWN, NODE_UNUSED)`; `seen` is auxiliary, the epoch at
  which no active writer was seen -/
  | unuse (n : NodeId) (seen : ℕ)
  /-- `in_use.compare_exchange(NODE_UNUSED, NODE_USED)` -/
  | claim (n : NodeId)
  /-- `node.next` -/
  | next (n : NodeId)
  /-- `Box::leak(Box::<Node>::default())` -/
  | create
  /-- `LIST_HEAD.load` before the prepending -/
  | pushHead (n : NodeId)
  /-- `LIST_HEAD.compare_exchange_weak(head, node)` -/
  | push (n : NodeId) (head : Option NodeId)
  deriving DecidableEq, Repr

/-- `Node::start_cooldown`; `reserved` is auxiliary, the epoch at its `reserve_writer`. -/
inductive CooldownPc
  | reserve
  | swap (reserved : ℕ)
  | release (reserved : ℕ)
  deriving DecidableEq, Repr

/-- `HybridStrategy::load`. -/
inductive LoadPc
  /-- `LocalNode::with` -/
  | enter
  /-- the first `storage.load` in `attempt` -/
  | attempt
  /-- `in_use.load` in `new_fast` -/
  | newFast (p : Addr)
  /-- `slot.load` in the `i`-th round of `fast::Slots::get_debt` -/
  | probe (n : NodeId) (p : Addr) (i : ℕ)
  /-- `slot.swap(ptr)` -/
  | claim (n : NodeId) (p : Addr) (i : ℕ)
  /-- the second `storage.load` in `attempt` -/
  | confirm (p : Addr) (d : SlotId)
  /-- `debt.pay(ptr)` after the storage has changed -/
  | unclaim (p : Addr) (d : SlotId)
  /-- `in_use.load` in `new_helping` -/
  | newHelping
  /-- `active_addr.store` in `helping::Slots::get_debt` -/
  | publishAddr (n : NodeId)
  /-- `control.swap(gen)` -/
  | publishGen (n : NodeId) (gen : ℕ)
  /-- `storage.load` in `fallback`; here and in `confirmHelping` the node of the transaction is
  auxiliary -/
  | candidate (n : NodeId) (gen : ℕ)
  /-- `in_use.load` in `confirm_helping` -/
  | confirmHelping (n : NodeId) (gen : ℕ) (p : Addr)
  /-- `slot.swap(ptr)` in `helping::Slots::confirm` -/
  | offerDebt (n : NodeId) (gen : ℕ) (p : Addr)
  /-- `control.swap(IDLE)` -/
  | closeControl (n : NodeId) (gen : ℕ) (p : Addr)
  /-- the load of the replacement from the envelope -/
  | takeEnvelope (n : NodeId) (gen : ℕ) (p : Addr) (e : ℕ)
  /-- `space_offer.store(handover)` -/
  | keepEnvelope (n : NodeId) (p : Addr) (e : ℕ) (q : Addr)
  /-- `unused_debt.pay(candidate)` -/
  | payUnused (n : NodeId) (p : Addr) (q : Addr)
  /-- the end of the closure of `LocalNode::with` -/
  | leave (g : Guard)
  deriving DecidableEq, Repr

/-- `HybridProtection::into_inner` on a guard that owes its reference. -/
inductive IntoInnerPc
  | start
  | pay (d : SlotId)
  deriving DecidableEq, Repr

/-- `Debt::pay_all`, with `helping::Slots::help` for the node it visits. -/
inductive PayPc
  /-- `LocalNode::with` -/
  | enter
  /-- `T::inc(&val)` -/
  | prepay
  /-- `LIST_HEAD.load` in `traverse` -/
  | head
  /-- `reserve_writer` -/
  | reserve (who : NodeId)
  /-- `in_use.load` of the own node in `LocalNode::help` -/
  | helpInUse (who : NodeId)
  /-- `debug_assert_eq!(IDLE, self.control.load(Relaxed))` -/
  | helpIdle (me who : NodeId)
  /-- the first `who.control.load` -/
  | helpControl (me who : NodeId)
  /-- `who.active_addr.load` -/
  | helpAddr (me who : NodeId) (control : ℕ)
  /-- `who.control.load` when the other thread loads from somewhere else -/
  | helpRecheck (me who : NodeId) (control : ℕ)
  /-- `who.space_offer.load` -/
  | helpTheirs (me who : NodeId) (control : ℕ) (q : Ref)
  /-- `self.space_offer.load` -/
  | helpMine (me who : NodeId) (control : ℕ) (q : Ref) (theirs : ℕ)
  /-- `(*my_space).0.store(replace_addr)` -/
  | helpWrite (me who : NodeId) (control : ℕ) (q : Ref) (theirs mine : ℕ)
  /-- `who.control.compare_exchange(control, space_addr)` -/
  | helpCas (me who : NodeId) (control : ℕ) (q : Ref) (theirs mine : ℕ)
  /-- `self.space_offer.store(their_space)` -/
  | helpTake (me who : NodeId) (theirs : ℕ)
  /-- `slot.pay(ptr)` for the slot `i` -/
  | slot (who : NodeId) (i : ℕ)
  /-- `T::inc(&val)` after the slot `i` has been paid -/
  | slotInc (who : NodeId) (i : ℕ)
  /-- the drop of the `NodeReservation` -/
  | unreserve (who : NodeId)
  /-- `node.next` -/
  | next (who : NodeId)
  /-- the drop of `val` -/
  | dropVal
  /-- the end of the closure of `LocalNode::with` -/
  | leave
  deriving DecidableEq, Repr

/-- The function a thread is running, at the access it makes next. -/
inductive Active
  | user (u : UserKind)
  | get (pc : GetPc)
  | cooldown (n : NodeId) (pc : CooldownPc)
  | load (f : LoadFrame) (pc : LoadPc)
  | intoInner (g : Guard) (pc : IntoInnerPc)
  | dropGuard (g : Guard)
  /-- `RefCnt::dec`, or the drop of an owned value -/
  | dec (r : Ref)
  | payAll (f : PayFrame) (pc : PayPc)
  /-- `self.ptr.swap(new)` -/
  | swap (f : SwapFrame)
  /-- `storage.compare_exchange_weak` after `old` was loaded -/
  | cas (f : CasFrame) (old : Guard)
  | ret (c : Contract) (r : Ret)
  /-- An assertion does not hold. The unwinding of the panic, which releases the reservations that
  are held and after which user code may go on, is not modelled: the thread takes no more steps. -/
  | failed (why : Assertion)
  deriving DecidableEq, Repr

/-- A suspended caller. -/
inductive Cont
  /-- user code that has called an operation -/
  | user (u : UserKind) (c : Contract)
  /-- `dec`: the destructor of the object -/
  | destroyed
  /-- `load`: `Node::get` in `LocalNode::with` -/
  | loadNode (f : LoadFrame)
  /-- `new_helping`: `start_cooldown` when the generations have wrapped around -/
  | discard (f : LoadFrame) (n : NodeId) (gen : ℕ)
  /-- `fallback`: `into_inner` of the confirmed debt -/
  | fallback (f : LoadFrame) (r : Ref)
  /-- `fallback`: `T::dec(candidate)` -/
  | unused (f : LoadFrame) (q : Ref)
  /-- `load`: `start_cooldown` of the temporary node -/
  | loadLeft (s : StorageId) (start : ℕ) (g : Guard)
  /-- `load_full`: `load` -/
  | full (s : StorageId) (start : ℕ)
  /-- `load_full`: `Guard::into_inner` -/
  | fullInner (s : StorageId) (start : ℕ) (r : Ref)
  /-- `HybridProtection::into_inner`: `T::dec(ptr)` -/
  | intoInner (r : Ref)
  /-- `pay_all`: `Node::get` in `LocalNode::with` -/
  | payNode (f : PayFrame)
  /-- `help`: `replacement()` -/
  | helpReplacement (f : PayFrame) (me who : NodeId) (control : ℕ)
  /-- `help`: the drop of a replacement that nobody took -/
  | helpRetry (f : PayFrame) (me who : NodeId) (control : ℕ)
  /-- `pay_all`: the drop of `val` -/
  | valDropped (f : PayFrame)
  /-- `pay_all`: `start_cooldown` of the temporary node -/
  | payLeft (r : Ref)
  /-- `swap`: `wait_for_readers` -/
  | swapPaid (f : SwapFrame) (old : Ref) (wrote : ℕ)
  /-- `store`: the drop of the displaced value -/
  | stored (f : SwapFrame) (wrote : ℕ)
  /-- `ArcSwapAny::into_inner`: `wait_for_readers` -/
  | consumed (r : Ref)
  /-- the drop of an `ArcSwapAny`: `wait_for_readers` -/
  | dropped (r : Ref)
  /-- `compare_and_swap`: `load` -/
  | casLoaded (f : CasFrame)
  /-- `compare_and_swap`: the drop of `old` after the exchange failed -/
  | casRetry (f : CasFrame)
  /-- `compare_and_swap`: the drop of `new` when `old` is another pointer -/
  | casRefused (f : CasFrame) (old : Guard)
  /-- `compare_and_swap`: `wait_for_readers` -/
  | casPaid (f : CasFrame) (old : Guard) (wrote : ℕ)
  /-- `compare_and_swap`: `T::dec(old)` -/
  | casDec (f : CasFrame) (old : Guard) (wrote : ℕ)
  /-- `rcu`: `load` -/
  | rcuLoaded (f : RcuFrame)
  /-- `rcu`: the closure; here and below `given` is auxiliary, the content that the closure was
  given in its last invocation -/
  | rcuClosure (f : RcuFrame) (cur : Guard) (given : Content)
  /-- `rcu`: `compare_and_swap` -/
  | rcuSwapped (f : RcuFrame) (cur : Guard) (given : Content) (g : CasFrame)
  /-- `rcu`: `Guard::into_inner(prev)`; here and below `made` is auxiliary, the content that the
  closure has returned -/
  | rcuInner (f : RcuFrame) (cur : Guard) (given made : Content) (r : Ref) (wrote : Option ℕ)
  /-- `rcu`: the drop of `cur` at the return -/
  | rcuDone (f : RcuFrame) (given made : Content) (r : Ref) (wrote : Option ℕ)
  /-- `rcu`: the drop of the old `cur` in `cur = prev` -/
  | rcuAgain (f : RcuFrame) (prev : Guard)
  /-- `rcu`: the drop of `cur` while the panic of the closure unwinds -/
  | rcuUnwind (f : RcuFrame)
  deriving DecidableEq, Repr

/-- A thread. -/
structure Thread where
  tls : Tls
  active : Active
  conts : List Cont

/-- A thread that has not done anything yet. -/
def Thread.idle : Thread := ⟨⟨LocalNode.fresh none, true⟩, .user .main, []⟩

end ArcSwap
