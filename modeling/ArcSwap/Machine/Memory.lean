import ArcSwap.Machine.Words
import Mathlib.Data.Finset.Basic
import Mathlib.Data.Multiset.Basic
import Mathlib.Logic.Function.Basic
import Mathlib.Tactic.Simps.Basic

/-!
# The shared memory

The words that the threads share: the storages (`ArcSwapAny::ptr`), the reference counts of the
objects, and the debt nodes with their list. Every access the code makes to one of them is
sequentially consistent here, and each field of `Node` is a map from the nodes to its value.

Pointers are machine addresses, `0` is null. A debt slot holds `Debt::NONE` (`none`) or an owed
pointer; the source relies on no pointer being equal to the constant `NONE`.

Fields marked *auxiliary* are not in the source and no branch of the code depends on them: they
remember what the properties talk about.
-/

namespace ArcSwap

/-- A pointer as a `usize`. -/
abbrev Addr := ℕ

/-- A debt node, in the order of allocation. -/
abbrev NodeId := ℕ

/-- The address of an `ArcSwapAny`. -/
abbrev StorageId := ℕ

/-- The implementations of `RefCnt` that share addresses: `Arc::into_raw` and `Weak::into_raw` of
one allocation are the same pointer. -/
inductive RefKind
  | arc
  | weak
  deriving DecidableEq, Repr

/-- A value of a `RefCnt` type: which count it owns, and its pointer. -/
structure Ref where
  kind : RefKind
  addr : Addr
  deriving DecidableEq, Repr

/-- The null pointer has no count: `inc` and `dec` do nothing on it. -/
def Ref.Counted (r : Ref) : Prop := r.addr ≠ 0

instance (r : Ref) : Decidable r.Counted := inferInstanceAs (Decidable (_ ≠ _))

/-- `DEBT_SLOT_CNT`: the number of fast slots of a node. -/
def debtSlotCnt : ℕ := 8

/-- A debt slot: the fast slots of a node are `0` to `7`, its helping slot is `8`. -/
structure SlotId where
  node : NodeId
  idx : ℕ
  deriving DecidableEq, Repr

/-- `Node::helping_slot`. -/
def helpingSlot (n : NodeId) : SlotId := ⟨n, debtSlotCnt⟩

/-- `NODE_UNUSED`, `NODE_USED` and `NODE_COOLDOWN`. -/
inductive InUse
  | unused
  | used
  | cooldown
  deriving DecidableEq, Repr

/-! ## Envelopes -/

/-- The address of the `handover` field of a node: the type is aligned to 4 bytes. -/
def handoverAddr (n : NodeId) : ℕ := 4 * (n + 1)

/-- The node whose `handover` field is at an address. -/
def handoverNode (e : ℕ) : NodeId := e / 4 - 1

theorem isEnvelope_handoverAddr (n : NodeId) : IsEnvelope (handoverAddr n) := by
  simp [IsEnvelope, handoverAddr]

@[simp] theorem handoverNode_handoverAddr (n : NodeId) : handoverNode (handoverAddr n) = n := by
  simp [handoverNode, handoverAddr]

theorem handoverAddr_injective : Function.Injective handoverAddr := fun n n' h => by
  simpa using congrArg handoverNode h

/-! ## The memory -/

/-- What a storage held at some instant: the pointer, and the object that lived there. -/
structure Content where
  addr : Addr
  object : ℕ
  deriving DecidableEq, Repr

/-- What a call has written to a storage. -/
structure Entry where
  content : Content
  call : ℕ
  deriving DecidableEq, Repr

/-- What a helper has handed over: the control word it has replaced, the storage it was paying
for, the replacement, and the last position in the log of the storage when it began to load it. -/
structure Offer where
  word : ℕ
  storage : StorageId
  value : Ref
  since : ℕ
  deriving DecidableEq, Repr

/-- The memory shared by all threads. -/
structure Mem where
  /-- The storages that exist. -/
  live : Finset StorageId
  /-- `ArcSwapAny::ptr`. -/
  ptr : StorageId → Addr
  /-- The strong (`arc`) and weak (`weak`) reference counts of the object at an address. -/
  count : Ref → ℕ
  /-- `Node::fast` and `Slots::slot`. -/
  slot : SlotId → Option Ref
  /-- `Slots::control`. -/
  control : NodeId → ℕ
  /-- `Slots::active_addr`. -/
  activeAddr : NodeId → StorageId
  /-- `Slots::handover`. -/
  handover : NodeId → Addr
  /-- `Slots::space_offer`. -/
  spaceOffer : NodeId → ℕ
  /-- `Node::in_use`. -/
  inUse : NodeId → InUse
  /-- `Node::next`. -/
  next : NodeId → Option NodeId
  /-- `Node::active_writers`. -/
  activeWriters : NodeId → ℕ
  /-- `LIST_HEAD`. -/
  listHead : Option NodeId
  /-- The nodes allocated so far are those below this one. -/
  nodeCount : ℕ
  /-- Auxiliary: the object allocated last at an address. -/
  object : Addr → ℕ
  /-- Auxiliary: the number of objects allocated so far. -/
  objectCount : ℕ
  /-- Auxiliary: everything a storage has held, in order. -/
  log : StorageId → List Entry
  /-- Auxiliary: the calls that may write to a storage are numbered. -/
  calls : ℕ
  /-- Auxiliary: how often `start_cooldown` has put a node into cooldown. -/
  epoch : NodeId → ℕ
  /-- Auxiliary: the position of a node in the list, counted from its end; `0` when the node is
  not in the list. -/
  rank : NodeId → ℕ
  /-- Auxiliary: the length of the list. -/
  listLength : ℕ
  /-- Auxiliary: the envelope a node owns. -/
  owned : NodeId → NodeId
  /-- Auxiliary: the last position in the log of the active address when the current transaction
  of a node was published. -/
  opened : NodeId → ℕ
  /-- Auxiliary: the replacement that a node has been given and has not taken yet. -/
  offer : NodeId → Option Offer

/-- Nothing has happened yet: no storage, no object, no node. -/
def Mem.empty : Mem where
  live := ∅
  ptr := fun _ => 0
  count := fun _ => 0
  slot := fun _ => none
  control := fun _ => idle
  activeAddr := fun _ => 0
  handover := fun _ => 0
  spaceOffer := fun _ => 0
  inUse := fun _ => .unused
  next := fun _ => none
  activeWriters := fun _ => 0
  listHead := none
  nodeCount := 0
  object := fun _ => 0
  objectCount := 0
  log := fun _ => []
  calls := 0
  epoch := fun _ => 0
  rank := fun _ => 0
  listLength := 0
  owned := id
  opened := fun _ => 0
  offer := fun _ => none

namespace Mem

/-! ## Reference counts -/

/-- `RefCnt::inc`. -/
@[simps]
def inc (m : Mem) (r : Ref) : Mem :=
  { m with count := if r.Counted then Function.update m.count r (m.count r + 1) else m.count }

/-- The decrement in `RefCnt::dec`. -/
@[simps]
def dec (m : Mem) (r : Ref) : Mem :=
  { m with count := if r.Counted then Function.update m.count r (m.count r - 1) else m.count }

/-- The decrement of `r` destroys the object: nobody holds another reference. -/
def LastRef (m : Mem) (r : Ref) : Prop := r.Counted ∧ m.count r ≤ 1

instance (m : Mem) (r : Ref) : Decidable (m.LastRef r) := inferInstanceAs (Decidable (_ ∧ _))

/-- The allocation at `p` has been freed: neither an `Arc` nor a `Weak` is left. -/
def Freed (m : Mem) (p : Addr) : Prop := m.count ⟨.arc, p⟩ = 0 ∧ m.count ⟨.weak, p⟩ = 0

instance (m : Mem) (p : Addr) : Decidable (m.Freed p) := inferInstanceAs (Decidable (_ ∧ _))

/-- `Arc::new`, where the allocator hands out the address `p`. -/
@[simps]
def alloc (m : Mem) (p : Addr) : Mem :=
  { m with
    count := Function.update m.count ⟨.arc, p⟩ 1
    object := Function.update m.object p (m.objectCount + 1)
    objectCount := m.objectCount + 1 }

/-! ## Storages -/

/-- What the storage `s` would hold with the pointer `p` in it. -/
def content (m : Mem) (p : Addr) : Content := ⟨p, m.object p⟩

/-- The pointer `p` is written to the storage `s`. -/
@[simps]
def setPtr (m : Mem) (s : StorageId) (p : Addr) (call : ℕ) : Mem :=
  { m with
    ptr := Function.update m.ptr s p
    log := Function.update m.log s (m.log s ++ [⟨m.content p, call⟩]) }

/-- A call gets its number. -/
@[simps]
def newCall (m : Mem) : Mem := { m with calls := m.calls + 1 }

/-- A storage comes into existence. -/
@[simps]
def newStorage (m : Mem) (s : StorageId) (p : Addr) : Mem :=
  { m.newCall.setPtr s p m.calls with live := insert s m.live }

/-- A storage is given up: it is moved into `into_inner`, or dropped. -/
@[simps]
def endStorage (m : Mem) (s : StorageId) : Mem := { m with live := m.live.erase s }

/-- The last position in the log of `s`: where what it holds now is written down. -/
def now (m : Mem) (s : StorageId) : ℕ := (m.log s).length - 1

/-! ## Debts -/

/-- The slot `d` contains the pointer of `r`: the comparison of `Debt::pay`, which sees only the
address. -/
def Owes (m : Mem) (d : SlotId) (r : Ref) : Prop := (m.slot d).map Ref.addr = some r.addr

instance (m : Mem) (d : SlotId) (r : Ref) : Decidable (m.Owes d r) :=
  inferInstanceAs (Decidable (_ = _))

/-- A value is written to a debt slot. -/
@[simps]
def setSlot (m : Mem) (d : SlotId) (v : Option Ref) : Mem :=
  { m with slot := Function.update m.slot d v }

/-! ## The helping transaction of a node -/

@[simps]
def setControl (m : Mem) (n : NodeId) (w : ℕ) : Mem :=
  { m with control := Function.update m.control n w }

@[simps]
def setActiveAddr (m : Mem) (n : NodeId) (s : StorageId) : Mem :=
  { m with activeAddr := Function.update m.activeAddr n s }

@[simps]
def setSpaceOffer (m : Mem) (n : NodeId) (e : ℕ) : Mem :=
  { m with spaceOffer := Function.update m.spaceOffer n e }

/-- The pointer in the envelope at the address `e`. -/
def envelope (m : Mem) (e : ℕ) : Addr := m.handover (handoverNode e)

@[simps]
def setEnvelope (m : Mem) (e : ℕ) (p : Addr) : Mem :=
  { m with handover := Function.update m.handover (handoverNode e) p }

/-- `control.swap(gen)` in `get_debt`. -/
@[simps]
def publish (m : Mem) (n : NodeId) (w : ℕ) : Mem :=
  { m.setControl n w with opened := Function.update m.opened n (m.now (m.activeAddr n)) }

/-- The successful `compare_exchange` of `help`: the helper's node `me` and the node `who` have
exchanged their envelopes. -/
@[simps]
def handOver (m : Mem) (me who : NodeId) (w : ℕ) (o : Offer) : Mem :=
  { m.setControl who w with
    owned := Function.update (Function.update m.owned who (m.owned me)) me (m.owned who)
    offer := Function.update m.offer who (some o) }

/-- The load from the envelope in `confirm`. -/
@[simps]
def takeOffer (m : Mem) (n : NodeId) : Mem :=
  { m with offer := Function.update m.offer n none }

/-! ## Nodes -/

@[simps]
def setInUse (m : Mem) (n : NodeId) (u : InUse) : Mem :=
  { m with inUse := Function.update m.inUse n u }

/-- `in_use.swap(NODE_COOLDOWN)` in `start_cooldown`. -/
@[simps]
def startCooldown (m : Mem) (n : NodeId) : Mem :=
  { m.setInUse n .cooldown with epoch := Function.update m.epoch n (m.epoch n + 1) }

@[simps]
def addWriter (m : Mem) (n : NodeId) : Mem :=
  { m with activeWriters := Function.update m.activeWriters n (m.activeWriters n + 1) }

@[simps]
def subWriter (m : Mem) (n : NodeId) : Mem :=
  { m with activeWriters := Function.update m.activeWriters n (m.activeWriters n - 1) }

/-- `Box::leak(Box::<Node>::default())` and `init`: a node that is not yet in the list. -/
@[simps]
def newNode (m : Mem) : Mem :=
  { m.setInUse m.nodeCount .used with
    nodeCount := m.nodeCount + 1
    spaceOffer := Function.update m.spaceOffer m.nodeCount (handoverAddr m.nodeCount) }

/-- `node.next = head` before each attempt to prepend the node. -/
@[simps]
def setNext (m : Mem) (n : NodeId) (h : Option NodeId) : Mem :=
  { m with next := Function.update m.next n h }

/-- The successful `compare_exchange_weak` on `LIST_HEAD`. -/
@[simps]
def push (m : Mem) (n : NodeId) : Mem :=
  { m with
    listHead := some n
    rank := Function.update m.rank n (m.listLength + 1)
    listLength := m.listLength + 1 }

end Mem

end ArcSwap
