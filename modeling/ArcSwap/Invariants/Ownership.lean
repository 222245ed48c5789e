import ArcSwap.Foundations.Family
import ArcSwap.Invariants.Typed

/-!
# The owners of the nodes

A node belongs to a thread-local node, to a temporary one, or to a function that is about to hand
it over or to give it up. Nobody else changes a node from `NODE_USED` to something else, and nobody
gets a node that is in use: a node has at most one owner.
-/

namespace ArcSwap

variable {cfg : Config} {tls : Tls} {m : Mem}

/-! ## Who owns a node -/

/-- The node of a `LocalNode`. -/
def LocalNode.nodes (l : LocalNode) : Multiset NodeId := l.node.elim 0 ({·})

/-- The node of a temporary `LocalNode`. -/
def tmpNodes (tmp : Option LocalNode) : Multiset NodeId := tmp.elim 0 LocalNode.nodes

/-- The nodes that the active function owns. -/
def Active.nodes : Active → Multiset NodeId
  | .get (.pushHead n) | .get (.push n _) => {n}
  | .cooldown n .reserve | .cooldown n (.swap _) => {n}
  | .load f _ => tmpNodes f.tmp
  | .payAll f _ => tmpNodes f.tmp
  | .ret _ (.node n) => {n}
  | _ => 0

/-- The nodes that a suspended caller owns. -/
def Cont.nodes : Cont → Multiset NodeId
  | .loadNode f | .discard f _ _ | .fallback f _ | .unused f _ => tmpNodes f.tmp
  | .payNode f | .helpReplacement f _ _ _ | .helpRetry f _ _ _ | .valDropped f => tmpNodes f.tmp
  | _ => 0

/-- The nodes that suspended callers own. -/
def contNodes (ks : List Cont) : Multiset NodeId := (ks.map Cont.nodes).sum

@[simp] theorem contNodes_nil : contNodes [] = 0 := rfl

@[simp] theorem contNodes_cons (k : Cont) (ks : List Cont) :
    contNodes (k :: ks) = k.nodes + contNodes ks := by simp [contNodes]

@[simp] theorem contNodes_append (ks ks' : List Cont) :
    contNodes (ks ++ ks') = contNodes ks + contNodes ks' := by simp [contNodes]

/-- The nodes that a thread owns. -/
def Thread.nodes (th : Thread) : Multiset NodeId :=
  th.tls.head.nodes + th.active.nodes + contNodes th.conts

/-- What a thread owns after a clause, apart from its suspended callers. -/
def Out.nodes (o : Out) : Multiset NodeId := o.head.nodes + o.active.nodes + contNodes o.calls

/-! ## What a step does to it -/

/-- What happens to the states of the nodes while a thread that has owned `x` goes on with `x'`. -/
inductive NodeMove (u : NodeId → InUse) (x : Multiset NodeId) :
    (NodeId → InUse) → Multiset NodeId → Prop
  | keep {x'} (hx : x' ≤ x) : NodeMove u x u x'
  | claim {n x'} (h : u n ≠ .used) (hx : x' = x + {n}) :
    NodeMove u x (Function.update u n .used) x'
  | release {n x'} (hx : x = x' + {n}) : NodeMove u x (Function.update u n .cooldown) x'
  | unuse {n x'} (h : u n = .cooldown) (hx : x' ≤ x) :
    NodeMove u x (Function.update u n .unused) x'

theorem NodeMove.frame {u u' : NodeId → InUse} {x x' : Multiset NodeId} (h : NodeMove u x u' x')
    (r : Multiset NodeId) : NodeMove u (x + r) u' (x' + r) := by
  cases h with
  | keep hx => exact .keep (Multiset.add_le_add_right hx)
  | claim h hx => exact .claim h (by rw [hx, add_right_comm])
  | release hx => exact .release (by rw [hx, add_right_comm])
  | unuse h hx => exact .unuse h (Multiset.add_le_add_right hx)

/-- A node that is in use has at most one owner, the others have none. -/
def Tenancy (u : NodeId → InUse) (x : Multiset NodeId) : Prop :=
  ∀ n, x.count n ≤ if u n = .used then 1 else 0

theorem Tenancy.move {u u' : NodeId → InUse} {x x' r : Multiset NodeId} (h : Tenancy u (x + r))
    (hm : NodeMove u x u' x') : Tenancy u' (x' + r) := by
  intro k
  have hk := h k
  rw [Multiset.count_add] at hk ⊢
  cases hm with
  | keep hx =>
    exact le_trans (Nat.add_le_add_right (Multiset.count_le_of_le k hx) _) hk
  | @claim n _ hu hx =>
    rw [hx, Multiset.count_add, Multiset.count_singleton]
    by_cases hn : k = n
    · subst hn
      rw [if_neg hu] at hk
      simp only [Function.update_self, if_true]
      omega
    · simpa [hn] using hk
  | @release n _ hx =>
    rw [hx, Multiset.count_add, Multiset.count_singleton] at hk
    by_cases hn : k = n
    · subst hn
      simp only [if_true] at hk
      have : (if u k = .used then 1 else 0) ≤ 1 := by split <;> simp
      simp only [Function.update_self, reduceCtorEq, if_false]
      omega
    · simpa [hn] using hk
  | @unuse n _ hu hx =>
    have := Multiset.count_le_of_le k hx
    by_cases hn : k = n
    · subst hn
      rw [if_neg (by simp [hu])] at hk
      simp only [Function.update_self, reduceCtorEq, if_false]
      omega
    · rw [Function.update_of_ne hn]
      exact le_trans (Nat.add_le_add_right this _) hk

@[simp] theorem tmpNodes_none : tmpNodes none = 0 := rfl

theorem tmpNodes_eq_zero {tmp : Option LocalNode} (h : tmp.bind LocalNode.node = none) :
    tmpNodes tmp = 0 := by
  cases tmp <;> simp_all [tmpNodes, LocalNode.nodes]

theorem tmpNodes_eq_singleton {tmp : Option LocalNode} {n : NodeId}
    (h : tmp.bind LocalNode.node = some n) : tmpNodes tmp = {n} := by
  cases tmp <;> simp_all [tmpNodes, LocalNode.nodes]

theorem LoadFrame.begin_nodes (f : LoadFrame) : (f.begin cfg).nodes = tmpNodes f.tmp := rfl

theorem PayFrame.nextSlot_nodes (f : PayFrame) (who : NodeId) (i : ℕ) :
    (f.nextSlot who i).nodes = tmpNodes f.tmp := by
  unfold PayFrame.nextSlot
  split <;> rfl

theorem Dispatched.nodes_le {f : PayFrame} {me who : NodeId} {c : ℕ} {a : Active}
    (h : Dispatched f me who c a) : a.nodes ≤ tmpNodes f.tmp := by
  cases h <;> simp [Active.nodes]

theorem LoadFrame.setLocal_nodes (f : LoadFrame) (head l : LocalNode)
    (h : l.node = (f.localNode head).node) :
    (f.setLocal head l).2.nodes + tmpNodes (f.setLocal head l).1.tmp =
      head.nodes + tmpNodes f.tmp := by
  unfold setLocal
  cases hf : f.tmp <;>
    simp_all [LoadFrame.localNode, tmpNodes, LocalNode.nodes]

/-- The node of the `LocalNode` is taken out of it. -/
theorem LoadFrame.setLocal_take {f : LoadFrame} {n : NodeId} (h : ScopeIs tls f.tmp n) :
    let fl := f.setLocal tls.head { f.localNode tls.head with node := none }
    tls.head.nodes + tmpNodes f.tmp = fl.2.nodes + tmpNodes fl.1.tmp + {n} := by
  unfold setLocal
  cases hf : f.tmp <;>
    simp_all [LoadFrame.localNode, tmpNodes, LocalNode.nodes, ScopeIs]

theorem Clause.nodeMove {a : Active} {o : Out} (h : Clause cfg tls m a o) (hok : a.Ok cfg tls)
    (hf : m.inUse m.nodeCount ≠ .used) :
    NodeMove m.inUse (tls.head.nodes + a.nodes) o.mem.inUse o.nodes := by
  cases h with
  | get h =>
    cases h with
    | claim h => exact .claim (by simp [h]) (by simp [Out.nodes, Active.nodes])
    | create => exact .claim hf (by simp [Out.nodes, Active.nodes])
    | unuse h => exact .unuse h (by simp [Out.nodes, Active.nodes])
    | _ => exact .keep (by simp [Out.nodes, Active.nodes])
  | cooldown h =>
    cases h with
    | swap | swapFail => exact .release (by simp [Out.nodes, Active.nodes])
    | _ => exact .keep (by simp [Out.nodes, Active.nodes])
  | load h =>
    cases h with
    | enter =>
      refine .keep ?_
      simp only [Out.nodes, LoadFrame.begin_nodes]
      simp [Active.nodes]
    | claim | publishAddr =>
      refine .keep (le_of_eq ?_)
      simp only [Out.nodes, Active.nodes, contNodes_nil, add_zero]
      exact LoadFrame.setLocal_nodes _ _ _ rfl
    | discard =>
      refine .keep (le_of_eq ?_)
      simpa [Out.nodes, Active.nodes, Cont.nodes, add_assoc, add_comm] using
        (LoadFrame.setLocal_take hok.2.1).symm
    | leave h => exact .keep (by simp [Out.nodes, Active.nodes, LoadFrame.result])
    | leaveTmp h =>
      exact .keep (by simp [Out.nodes, Active.nodes, Cont.nodes, tmpNodes_eq_singleton h])
    | _ => exact .keep (by simp [Out.nodes, Active.nodes, Cont.nodes])
  | intoInner h | dropGuard h | dec h | cas h => 
    cases h <;> exact .keep (by simp [Out.nodes, Active.nodes, Cont.nodes])
  | swap => exact .keep (by simp [Out.nodes, Active.nodes, Cont.nodes, SwapFrame.exec])
  | payAll h =>
    cases h with
    | helpControl h | helpChanged _ h => 
      refine .keep ?_
      simp only [Out.nodes, contNodes_nil, add_zero, add_le_add_iff_left]
      exact h.nodes_le
    | slotOther | slotInc =>
      refine .keep ?_
      simp only [Out.nodes, PayFrame.nextSlot_nodes]
      simp [Active.nodes]
    | leaveTmp h =>
      exact .keep (by simp [Out.nodes, Active.nodes, Cont.nodes, tmpNodes_eq_singleton h])
    | _ => exact .keep (by simp [Out.nodes, Active.nodes, Cont.nodes])

theorem Resumed.nodes_le {k : Cont} {r : Ret} {o : Out} (h : Resumed cfg tls m k r o)
    (hok : k.Ok cfg tls) (c : Contract) :
    o.mem = m ∧ o.nodes ≤ tls.head.nodes + (Active.ret c r).nodes + k.nodes := by
  cases h <;> refine ⟨rfl, ?_⟩
  case loadNode f n ha =>
    obtain ⟨hf, hn⟩ := hok
    simp only [Out.nodes, LoadFrame.begin_nodes]
    simp [LocalNode.nodes, hn ha, Active.nodes, Cont.nodes]
  case loadTmp f n ha =>
    obtain ⟨hf, -⟩ := hok
    simp only [Out.nodes, LoadFrame.begin_nodes]
    simp [Active.nodes, Cont.nodes, hf, LocalNode.nodes, LocalNode.fresh, tmpNodes]
  case payNode f n ha =>
    obtain ⟨⟨hf, hn⟩, -⟩ := hok
    simp [Out.nodes, LocalNode.nodes, hn ha, Active.nodes, Cont.nodes]
  case payTmp f n ha =>
    obtain ⟨⟨hf, -⟩, -⟩ := hok
    simp [Out.nodes, Active.nodes, Cont.nodes, hf, LocalNode.nodes, LocalNode.fresh, tmpNodes]
  case helpRetry h =>
    simpa [Out.nodes, Active.nodes, Cont.nodes] using h.nodes_le
  all_goals simp [Out.nodes, Active.nodes, Cont.nodes, CasFrame.load]

/-! ## The owners in a run -/

section Run

variable {T : Type*} {s : State T} {t : T} {m' : Mem} {th' : Thread} {o' : Multiset Ref}
  {g' : Multiset Guard}

theorem Thread.calling_nodes (th : Thread) (u : UserKind) (c : Call) :
    (th.calling u c).nodes = th.tls.head.nodes + c.active.nodes + contNodes c.calls +
      contNodes th.conts := by
  simp [Thread.nodes, Thread.calling, Cont.nodes, add_assoc]

theorem UserClause.nodeMove {u : UserKind} (h : UserClause cfg s t u m' th' o' g')
    (ha : (s.thread t).active = .user u) :
    NodeMove s.mem.inUse (s.thread t).nodes m'.inUse th'.nodes := by
  have h₀ : (s.thread t).nodes = (s.thread t).tls.head.nodes + contNodes (s.thread t).conts := by
    simp [Thread.nodes, ha, Active.nodes]
  cases h with
  | alloc | clone | fromInner | new => exact .keep le_rfl
  | exitEmpty => exact .keep le_rfl
  | exit hk _ h =>
    refine .keep (le_of_eq ?_)
    simp [ha, hk, Thread.nodes, Active.nodes, Cont.nodes, LocalNode.nodes, h]
  | destroyed | result | panic => exact .keep (by simp [Thread.nodes, Active.nodes])
  | _ =>
    refine .keep ?_
    rw [h₀, Thread.calling_nodes]
    simp [Active.nodes, Cont.nodes, SwapFrame.invoke, CasFrame.invoke, RcuFrame.invoke,
      CasFrame.load]

/-- What a thread does with its nodes in a clause of its function. -/
theorem Clause.nodeMove_after {th : Thread} {o : Out} (h : Clause cfg th.tls m th.active o)
    (hok : th.active.Ok cfg th.tls) (hf : m.inUse m.nodeCount ≠ .used) :
    NodeMove m.inUse th.nodes o.mem.inUse (th.after th.conts o).nodes := by
  simpa only [Thread.nodes, Thread.after, Out.nodes, contNodes_append, add_assoc] using
    (h.nodeMove hok hf).frame (contNodes th.conts)

theorem Move.nodeMove (h : Move cfg s t m' th' o' g') (ht : (s.thread t).Typed cfg)
    (hf : s.mem.inUse s.mem.nodeCount ≠ .used) :
    NodeMove s.mem.inUse (s.thread t).nodes m'.inUse th'.nodes := by
  cases h with
  | code h => exact h.nodeMove_after ht.active hf
  | @resume c r k ks o ha hk h =>
    obtain ⟨hm, hn⟩ := h.nodes_le (ht.conts k (by simp [hk])) c
    rw [hm]
    refine .keep ?_
    simpa only [Thread.nodes, Thread.after, Out.nodes, contNodes_append, ha, hk, contNodes_cons,
      add_assoc] using Multiset.add_le_add_right (u := contNodes ks) hn
  | receive ha hk =>
    exact .keep (by simp [Thread.nodes, Active.nodes, hk, Cont.nodes])
  | user ha h => exact h.nodeMove ha

variable [Fintype T] [DecidableEq T]

/-- The nodes that are owned at all. -/
def State.nodes (s : State T) : Multiset NodeId := Family.total Thread.nodes s.thread

/-- A node that is in use has at most one owner, and the nodes that do not exist yet are not in
use. -/
structure State.Owned (s : State T) : Prop where
  tenancy : Tenancy s.mem.inUse s.nodes
  fresh : ∀ n, s.mem.nodeCount ≤ n → s.mem.inUse n = .unused

end Run

end ArcSwap
