import ArcSwap.Invariants.Tenancy
import ArcSwap.Invariants.Transactions

/-!
# Every node has at most one owner

From the exchange that claims a node, or from its creation, until its own `start_cooldown`, a
`LocalNode` owns its node alone, and the node is in use. Nobody else fills a slot of the node or
publishes a generation in its control, so that the check of a fast slot and the write to it need
not be one access.
-/

namespace ArcSwap

variable {T : Type*} {cfg : Config} {s s' : State T} {t : T} {m : Mem} {tls : Tls} {n : NodeId}

/-! ## How long a node is owned -/

theorem Dispatched.keeps {f : PayFrame} {me who : NodeId} {c : ℕ} {a : Active}
    (h : Dispatched f me who c a) (hr : ∀ w, a ≠ .failed w) : a.nodes = tmpNodes f.tmp := by
  cases h with
  | pass | gen => rfl
  | myself | invalid => simp at hr

/-- A clause that does not fail keeps the nodes, but for the one that it puts into cooldown. -/
theorem Clause.keeps {a : Active} {o : Out} (h : Clause cfg tls m a o)
    (hok : a.Wraps → a.Ok cfg tls) (hr : ∀ w, o.active ≠ .failed w)
    (hn : n ∈ tls.head.nodes + a.nodes) :
    n ∈ o.nodes ∨ o.mem.inUse n = .cooldown := by
  cases h with
  | get h =>
    cases h with
    | push | pushLate | pushHead => exact .inl (by simpa [Out.nodes, Active.nodes] using hn)
    | _ =>
      simp only [Active.nodes, add_zero] at hn
      exact .inl (Multiset.mem_add.mpr (.inl (Multiset.mem_add.mpr (.inl hn))))
  | cooldown h =>
    cases h with
    | @swap e hu | @swapFail e hu =>
      simp only [Active.nodes, Multiset.mem_add, Multiset.mem_singleton] at hn
      rcases hn with hn | rfl
      · exact .inl (by simp [Out.nodes, hn])
      · exact .inr (by simp)
    | reserve | release => exact .inl (by simpa [Out.nodes, Active.nodes] using hn)
  | load h =>
    refine .inl ?_
    cases h with
    | enter =>
      simp only [Out.nodes, LoadFrame.begin_nodes]
      simpa [Active.nodes] using hn
    | claim | publishAddr =>
      refine Multiset.mem_of_le (le_of_eq (Eq.symm ?_)) hn
      simp only [Out.nodes, Active.nodes, contNodes_nil, add_zero]
      exact LoadFrame.setLocal_nodes _ _ _ rfl
    | discard =>
      have := (LoadFrame.setLocal_take (hok rfl).2.1).symm
      simp only [Active.nodes] at hn
      rw [← this] at hn
      simpa [Out.nodes, Active.nodes, Cont.nodes, or_assoc, or_comm, or_left_comm] using hn
    | leave h => simpa [Out.nodes, Active.nodes, LoadFrame.result, tmpNodes_eq_zero h] using hn
    | leaveTmp h =>
      simpa [Out.nodes, Active.nodes, Cont.nodes, tmpNodes_eq_singleton h] using hn
    | claimFull | genTagged | publishFull | offerFull | closeInvalid | noNode | notUsed =>
      simp at hr
    | _ => simpa [Out.nodes, Active.nodes, Cont.nodes] using hn
  | intoInner h | dropGuard h | dec h | cas h =>
    cases h <;> exact .inl (by simpa [Out.nodes, Active.nodes, Cont.nodes] using hn)
  | swap => exact .inl (by simpa [Out.nodes, Active.nodes, Cont.nodes, SwapFrame.exec] using hn)
  | payAll h =>
    refine .inl ?_
    cases h with
    | helpControl h | helpChanged _ h =>
      simp only [Out.nodes, contNodes_nil, add_zero]
      rwa [h.keeps hr]
    | slotOther | slotInc =>
      simp only [Out.nodes, PayFrame.nextSlot_nodes]
      simpa [Active.nodes] using hn
    | leave h => simpa [Out.nodes, Active.nodes, tmpNodes_eq_zero h] using hn
    | leaveTmp h =>
      simpa [Out.nodes, Active.nodes, Cont.nodes, tmpNodes_eq_singleton h] using hn
    | noNode | notUsed | helperBusy | misaligned => simp at hr
    | _ => simpa [Out.nodes, Active.nodes, Cont.nodes] using hn

/-- A return keeps the nodes. -/
theorem Resumed.keeps {q : Cont} {c : Contract} {v : Ret} {o : Out}
    (h : Resumed cfg tls m q v o) (hok : q.expects = .node → q.Ok cfg tls)
    (hr : ∀ w, o.active ≠ .failed w)
    (hn : n ∈ tls.head.nodes + (Active.ret c v).nodes + q.nodes) : n ∈ o.nodes := by
  cases h with
  | @loadNode f n' ha =>
    obtain ⟨hf, hh⟩ := hok rfl
    simp only [Out.nodes, LoadFrame.begin_nodes]
    simpa [Active.nodes, Cont.nodes, hf, LocalNode.nodes, hh ha] using hn
  | @loadTmp f n' ha =>
    obtain ⟨hf, -⟩ := hok rfl
    simp only [Out.nodes, LoadFrame.begin_nodes]
    simpa [Active.nodes, Cont.nodes, hf, LocalNode.nodes, LocalNode.fresh, tmpNodes] using hn
  | @payNode f n' ha =>
    obtain ⟨⟨hf, hh⟩, -⟩ := hok rfl
    simpa [Out.nodes, Active.nodes, Cont.nodes, hf, LocalNode.nodes, hh ha] using hn
  | @payTmp f n' ha =>
    obtain ⟨⟨hf, -⟩, -⟩ := hok rfl
    simpa [Out.nodes, Active.nodes, Cont.nodes, hf, LocalNode.nodes, LocalNode.fresh, tmpNodes]
      using hn
  | helpRetry h =>
    simp only [Out.nodes, contNodes_nil, add_zero]
    rw [h.keeps hr]
    simpa [Active.nodes, Cont.nodes] using hn
  | _ => simpa [Out.nodes, Active.nodes, Cont.nodes, CasFrame.load] using hn

theorem Thread.Doomed.not_wraps {th : Thread} (h : th.Doomed) : ¬ th.active.Wraps := by
  intro hw
  cases h with
  | failed ha | cooling ha | cooled ha =>
    rw [ha] at hw
    exact hw
  | @loading f pc ha hp =>
    rw [ha] at hw
    cases pc with
    | publishGen => exact hp
    | _ => exact hw

theorem Thread.Doomed.expects {th : Thread} (h : th.Doomed) {c : Contract} {v : Ret} {q : Cont}
    {ks : List Cont} (ha : th.active = .ret c v) (hk : th.conts = q :: ks) :
    q.expects ≠ .node := by
  cases h with
  | cooled _ hk' =>
    rw [hk] at hk'
    cases hk'
    simp [Cont.expects]
  | failed ha' | cooling ha' | loading ha' =>
    rw [ha] at ha'
    cases ha'

section Move

variable {m' : Mem} {th' : Thread} {o' : Multiset Ref} {g' : Multiset Guard}

/-- The caller is not user code that waits for a node. -/
def Cont.NotForNode (q : Cont) : Prop := ∀ u, q ≠ .user u .node

/-- User code does not call `Node::get`. -/
theorem Move.notForNode (h : Move cfg s t m' th' o' g')
    (hk : ∀ q ∈ (s.thread t).conts, q.NotForNode) : ∀ q ∈ th'.conts, q.NotForNode := by
  refine (h.frames (A := fun _ => True) (K := Cont.NotForNode) hk ?_ ?_ (fun _ => trivial) ?_).2
  · intro o _ h
    refine ⟨trivial, ?_⟩
    generalize (s.thread t).active = a at h
    cases h with
    | get h | cooldown h | load h | intoInner h | dropGuard h | dec h | payAll h | cas h =>
      cases h <;> simp [Cont.NotForNode]
    | swap => simp [SwapFrame.exec, Cont.NotForNode]
  · intro c v q o _ _ _ h
    refine ⟨trivial, ?_⟩
    cases h <;> simp [Cont.NotForNode]
  · intro u ha h
    refine ⟨trivial, ?_⟩
    cases h with
    | alloc | clone | fromInner | new | exitEmpty | destroyed | result | panic => exact hk
    | exit => simp [Cont.NotForNode]
    | _ =>
      intro q hq
      rcases List.mem_append.mp hq with hq | hq
      · simp [CasFrame.invoke, SwapFrame.invoke, RcuFrame.invoke] at hq
        try (subst hq; simp [Cont.NotForNode])
      · rcases List.mem_cons.mp hq with rfl | hq
        · simp [Cont.NotForNode, CasFrame.invoke, SwapFrame.invoke, RcuFrame.invoke]
        · exact hk q hq

/-- A thread that does not fail keeps its nodes, but for the one that it puts into cooldown. -/
theorem Move.keeps (h : Move cfg s t m' th' o' g') (ht : (s.thread t).Tenant cfg)
    (hk₀ : ∀ q ∈ (s.thread t).conts, q.NotForNode) (hr : ∀ w, th'.active ≠ .failed w)
    (hn : n ∈ (s.thread t).nodes) : n ∈ th'.nodes ∨ m'.inUse n = .cooldown := by
  cases h with
  | @code o h =>
    have hn' : n ∈ (s.thread t).tls.head.nodes + (s.thread t).active.nodes ∨
        n ∈ contNodes (s.thread t).conts := Multiset.mem_add.mp hn
    have hthen : ∀ {x}, x ∈ o.nodes + contNodes (s.thread t).conts →
        x ∈ ((s.thread t).after (s.thread t).conts o).nodes := by
      intro x hx
      simpa only [Thread.nodes, Thread.after, Out.nodes, contNodes_append, add_assoc] using hx
    rcases hn' with hn' | hn'
    · refine (h.keeps (fun hw => ?_) hr hn').imp_left fun hn =>
        hthen (Multiset.mem_add.mpr (.inl hn))
      exact (ht.resolve_right fun hd => hd.not_wraps hw).active
    · exact .inl (hthen (Multiset.mem_add.mpr (.inr hn')))
  | @resume c v q ks o ha hk h =>
    refine .inl ?_
    have hn' : n ∈ (s.thread t).tls.head.nodes + (Active.ret c v).nodes + q.nodes ∨
        n ∈ contNodes ks := by
      rw [← Multiset.mem_add]
      simpa only [Thread.nodes, ha, hk, contNodes_cons, add_assoc] using hn
    have hthen : ∀ {x}, x ∈ o.nodes + contNodes ks → x ∈ ((s.thread t).after ks o).nodes := by
      intro x hx
      simpa only [Thread.nodes, Thread.after, Out.nodes, contNodes_append, add_assoc] using hx
    rcases hn' with hn' | hn'
    · refine hthen (Multiset.mem_add.mpr (.inl (h.keeps (fun he => ?_) hr hn')))
      exact (ht.resolve_right fun hd => hd.expects ha hk he).conts q (by simp [hk])
    · exact hthen (Multiset.mem_add.mpr (.inr hn'))
  | @receive c v u c' ks ha hk =>
    refine .inl ?_
    have hv : (Active.ret c v).nodes = 0 := by
      have hty := ht.resolve_right fun hd => by
        cases hd with
        | cooled _ hk' =>
          rw [hk] at hk'
          cases hk'
        | failed ha' | cooling ha' | loading ha' =>
          rw [ha] at ha'
          cases ha'
      have hl := hty.linked
      have hm := hty.active
      rw [ha, hk] at hl
      rw [ha] at hm
      have hc : c ≠ .node := by
        rintro rfl
        have := hk₀ (.user u c') (by simp [hk]) u
        exact this (congrArg _ hl.1.symm)
      cases v with
      | node n' => cases c <;> simp_all [Active.Ok, Contract.Meets]
      | _ => rfl
    rw [Thread.nodes, ha, hv, hk] at hn
    simpa [Thread.nodes, Cont.nodes, Active.nodes] using hn
  | user ha h =>
    refine .inl ?_
    have h₀ : n ∈ (s.thread t).tls.head.nodes + contNodes (s.thread t).conts := by
      simpa [Thread.nodes, ha, Active.nodes] using hn
    cases h with
    | alloc | clone | fromInner | new | exitEmpty => exact hn
    | exit hk _ h =>
      simpa [ha, hk, Thread.nodes, Active.nodes, Cont.nodes, LocalNode.nodes, h] using hn
    | destroyed | result | panic => simpa [Thread.nodes, Active.nodes] using h₀
    | _ =>
      rw [Thread.calling_nodes]
      simpa [Active.nodes, Cont.nodes, SwapFrame.invoke, CasFrame.invoke, RcuFrame.invoke,
        CasFrame.load] using h₀

end Move

/-! ## Exclusive ownership -/

section Run

variable [Fintype T] [DecidableEq T]

/-- Every node has at most one owner, which is the only one to use it. -/
structure State.Exclusive (cfg : Config) (s : State T) : Prop where
  /-- Counting every `LocalNode`, a node has at most one owner. -/
  owners : ∀ n, s.nodes.count n ≤ 1
  /-- An owned node is in the state `NODE_USED`. -/
  used : ∀ t, ∀ n ∈ (s.thread t).nodes, s.mem.inUse n = .used
  /-- A node is claimed or created when it is not in use. -/
  begins : ∀ t c s', s.step cfg t c = some s' → ∀ n ∉ (s.thread t).nodes,
    n ∈ (s'.thread t).nodes → s.mem.inUse n ≠ .used ∧ s'.mem.inUse n = .used
  /-- It is given up in the own `start_cooldown`. -/
  ends : ∀ t c s', s.step cfg t c = some s' → (∀ w, (s'.thread t).active ≠ .failed w) →
    ∀ n ∈ (s.thread t).nodes, n ∈ (s'.thread t).nodes ∨ s'.mem.inUse n = .cooldown
  /-- Only the owner fills an empty slot of the node. -/
  fills : ∀ t c s', s.step cfg t c = some s' → ∀ d, s.mem.slot d = none →
    s'.mem.slot d ≠ none → d.node ∈ (s.thread t).nodes
  /-- Only the owner turns the control of the node from `IDLE` into something else. -/
  publishes : ∀ t c s', s.step cfg t c = some s' → ∀ n, s.mem.control n = idle →
    s'.mem.control n ≠ idle → n ∈ (s.thread t).nodes
  /-- The slot that `get_debt` has found empty is so when it writes to it. -/
  claims : ∀ t f n p j, (s.thread t).active = .load f (.claim n p j) →
    s.mem.slot ⟨n, j⟩ = none ∧ n ∈ (s.thread t).nodes
  /-- The assertions of `start_cooldown` and of the fast `get_debt` do not fail. -/
  asserted : ∀ t, (s.thread t).active ≠ .failed .cooldownUsed ∧
    (s.thread t).active ≠ .failed .fastSlotNone

omit [Fintype T] [DecidableEq T] in
theorem NodeMove.begins {u u' : NodeId → InUse} {x x' : Multiset NodeId} (h : NodeMove u x u' x')
    (hn : n ∉ x) (hn' : n ∈ x') : u n ≠ .used ∧ u' n = .used := by
  cases h with
  | keep hx => exact absurd (Multiset.mem_of_le hx hn') hn
  | @claim k _ hu hx =>
    rw [hx, Multiset.mem_add, Multiset.mem_singleton] at hn'
    rcases hn' with hn' | rfl
    · exact absurd hn' hn
    · exact ⟨hu, Function.update_self _ _ _⟩
  | release hx =>
    apply absurd _ hn
    rw [hx]
    exact Multiset.mem_add.mpr (.inl hn')
  | unuse _ hx => exact absurd (Multiset.mem_of_le hx hn') hn

theorem State.Tenanted.exclusive (h : s.Tenanted cfg)
    (hk : ∀ t, ∀ q ∈ (s.thread t).conts, q.NotForNode) : s.Exclusive cfg where
  owners n := by
    refine le_trans (h.owned.tenancy n) ?_
    split <;> simp
  used t n hn := h.inUse hn
  begins t c s' hs n hn hn' := by
    obtain ⟨m', th', o', g', hm, rfl⟩ := State.step_move hs
    refine (hm.tenant_nodeMove (h.threads t) ?_).begins hn (by simpa [State.moved] using hn')
    rw [h.owned.fresh _ le_rfl]
    simp
  ends t c s' hs hr n hn := by
    obtain ⟨m', th', o', g', hm, rfl⟩ := State.step_move hs
    simpa [State.moved] using hm.keeps (h.threads t) (hk t) (by simpa [State.moved] using hr) hn
  fills t c s' hs d hd hd' := by
    obtain ⟨m', th', o', g', hm, rfl⟩ := State.step_move hs
    by_contra hn
    rcases (hm.tenant_rely (h.threads t)).slot d hn with he | he
    · exact hd' (he.trans hd)
    · exact hd' he
  publishes t c s' hs n hc hc' := by
    obtain ⟨m', th', o', g', hm, rfl⟩ := State.step_move hs
    by_contra hn
    rcases (hm.tenant_rely (h.threads t)).control n hn with he | ⟨hg, -⟩
    · exact hc' (he.trans hc)
    · rw [hc] at hg
      exact absurd hg (by decide)
  claims t f n p j ha := by
    have hty := (h.threads t).typed ha id
    have hn := h.nodeOk t hty
    have hok := hty.active
    rw [ha] at hn hok
    refine ⟨hn, Sound.mem_nodes ?_⟩
    rw [ha]
    exact hok.2.1.mem
  asserted t := ⟨h.asserted t _ trivial, h.asserted t _ trivial⟩

/-- **Every node has at most one owner**, in every run: its owner finds it in use until it puts it
into cooldown itself, and nobody else fills its slots or publishes a generation in its control. -/
theorem State.Reachable.one_owner {P : State T → T → Prop} (h : s.Reachable cfg P) :
    s.Exclusive cfg := by
  obtain ⟨ht, hk⟩ := h.invariant
    (I := fun s => s.Tenanted cfg ∧ ∀ t, ∀ q ∈ (s.thread t).conts, q.NotForNode)
    ⟨State.init_tenanted, by simp [State.init, Thread.idle]⟩
    (by
      rintro s s' t c ⟨ht, hk⟩ - hs
      refine ⟨ht.step hs, ?_⟩
      obtain ⟨m', th', o', g', hm, rfl⟩ := State.step_move hs
      exact State.moved_forall (P := fun th => ∀ q ∈ th.conts, q.NotForNode)
        (hm.notForNode (hk t)) fun t' _ => hk t')
  exact ht.exclusive hk

/-- In the sample run, at the moment when a fast slot has been chosen. -/
theorem State.Reachable.one_owner_sample : (State.sample 12).Exclusive .sample :=
  State.Reachable.one_owner (State.sample_reachable 12)

end Run

end ArcSwap
