import ArcSwap.Machine.Moves
import ArcSwap.Invariants.Contract

/-!
# Typed threads

In a typed thread the stack of callers fits together, and the local variables of the functions are
what their program points say. Typing is kept by every step that neither fails an assertion nor
wraps the generations around.
-/

namespace ArcSwap

variable {cfg : Config} {tls : Tls} {m : Mem}

/-! ## The `LocalNode` in use -/

namespace LoadFrame

variable (f : LoadFrame) (head l : LocalNode)

@[simp] theorem setLocal_storage : (f.setLocal head l).1.storage = f.storage := by
  unfold setLocal; split <;> rfl

@[simp] theorem setLocal_start : (f.setLocal head l).1.start = f.start := by
  unfold setLocal; split <;> rfl

@[simp] theorem setLocal_seen : (f.setLocal head l).1.seen = f.seen := by
  unfold setLocal; split <;> rfl

@[simp] theorem setLocal_getD :
    (f.setLocal head l).1.tmp.getD (f.setLocal head l).2 = l := by
  unfold setLocal; split <;> simp [*]

variable {f head l}

theorem setLocal_tmpOk (h : l.Ok) : TmpOk (f.setLocal head l).1.tmp := by
  unfold setLocal; split <;> simp [TmpOk, *]

theorem setLocal_head_ok (hh : head.Ok) (h : l.Ok) : (f.setLocal head l).2.Ok := by
  unfold setLocal; split <;> assumption

theorem setLocal_head_node (h : l.node = (f.localNode head).node) :
    (f.setLocal head l).2.node = head.node := by
  unfold setLocal; split <;> simp_all [localNode]

theorem localNode_ok (ht : TmpOk f.tmp) (hh : head.Ok) : (f.localNode head).Ok := by
  unfold localNode
  cases h : f.tmp with
  | none => exact hh
  | some l => exact ht l h

theorem begin_ok (ht : TmpOk f.tmp) (h : InScope tls f.tmp) : (f.begin cfg).Ok cfg tls := by
  unfold LoadFrame.begin
  split <;> exact ⟨ht, h⟩

@[simp] theorem begin_promise : (f.begin cfg).promise = .guard f.storage f.start := rfl

end LoadFrame

theorem PayFrame.nextSlot_ok {f : PayFrame} {who : NodeId} {i : ℕ}
    (hk : f.ref.kind = cfg.kind f.storage) (h : InScope tls f.tmp) :
    (f.nextSlot who i).Ok cfg tls := by
  unfold PayFrame.nextSlot
  split
  · exact ⟨hk, h, by omega⟩
  · exact ⟨hk, h⟩

@[simp] theorem PayFrame.nextSlot_promise {f : PayFrame} {who : NodeId} {i : ℕ} :
    (f.nextSlot who i).promise = .paid f.ref := by
  unfold PayFrame.nextSlot
  split <;> rfl

theorem ScopeIs.inScope {tmp : Option LocalNode} {n : NodeId} (h : ScopeIs tls tmp n) :
    InScope tls tmp := by
  simp only [InScope, ScopeIs] at h ⊢
  simp [h]

@[simp] theorem tmpOk_none : TmpOk none := by simp [TmpOk]

/-! ## One clause -/

/-- The result of a clause is typed, where the function `a` was running. -/
structure Out.Typed (cfg : Config) (tls : Tls) (a : Active) (o : Out) : Prop where
  links : Links o.active.promise o.calls a.promise
  active : o.active.Ok cfg ⟨o.head, tls.alive⟩
  calls : ∀ k ∈ o.calls, k.Ok cfg ⟨o.head, tls.alive⟩
  head : o.head.Ok
  node : o.head.node = tls.head.node

/-- The load at which the generations wrap around. -/
def Active.Wraps : Active → Prop
  | .load _ (.publishGen _ gen) => gen = 0
  | _ => False

instance (a : Active) : Decidable a.Wraps := by
  unfold Active.Wraps
  split <;> infer_instance

theorem GetClause.typed {pc : GetPc} {o : Out} (h : GetClause tls.head m pc o)
    (hh : tls.head.Ok) : o.Typed cfg tls (.get pc) := by
  cases h <;> refine ⟨?_, ?_, ?_, hh, rfl⟩ <;>
    simp [Active.promise, Active.Ok, Contract.Meets]

theorem CooldownClause.typed {n : NodeId} {pc : CooldownPc} {o : Out}
    (h : CooldownClause tls.head m n pc o) (hh : tls.head.Ok) (hr : ∀ w, o.active ≠ .failed w) :
    o.Typed cfg tls (.cooldown n pc) := by
  cases h
  case swapFail => simp at hr
  all_goals
    refine ⟨?_, ?_, ?_, hh, rfl⟩ <;> simp [Active.promise, Active.Ok, Contract.Meets]

theorem LoadClause.typed {f : LoadFrame} {pc : LoadPc} {o : Out} (h : LoadClause cfg tls m f pc o)
    (hok : (Active.load f pc).Ok cfg tls) (hh : tls.head.Ok)
    (hr : ∀ w, o.active ≠ .failed w) (hw : ¬ (Active.load f pc).Wraps) :
    o.Typed cfg tls (.load f pc) := by
  obtain ⟨ht, hok⟩ := hok
  have hl := LoadFrame.localNode_ok ht hh
  cases h
  case discard => simp [Active.Wraps] at hw
  case claimFull | genTagged | publishFull | offerFull | closeInvalid | noNode | notUsed =>
    simp at hr
  case enter h =>
    exact ⟨rfl, f.begin_ok ht (by simpa [InScope, show f.tmp = none from hok] using h), by simp,
      hh, rfl⟩
  case enterGet h =>
    exact ⟨by simp [Active.promise, Cont.expects, Cont.promise], trivial,
      by simpa [Cont.Ok, Homeless] using ⟨hok, h⟩, hh, rfl⟩
  case probeFree hj _ =>
    exact ⟨rfl, ⟨ht, hok, hj ▸ Nat.mod_lt _ (by decide)⟩, by simp, hh, rfl⟩
  case claim n p j _ =>
    -- only the offset of the `LocalNode` changes
    have hn : ScopeIs tls f.tmp n := hok.1
    refine ⟨by simp [Active.promise], ⟨LoadFrame.setLocal_tmpOk hl, ?_, hok.2⟩, by simp,
      LoadFrame.setLocal_head_ok hh hl, LoadFrame.setLocal_head_node rfl⟩
    simpa [ScopeIs, LoadFrame.localNode] using hn
  case publishAddr n gen hg _ =>
    -- only the generation of the `LocalNode` changes
    have hn : ScopeIs tls f.tmp n := hok
    have hgen : IsGen gen := hg ▸ IsGen.next cfg.wide hl
    refine ⟨by simp [Active.promise], ⟨LoadFrame.setLocal_tmpOk hgen, ?_, hgen⟩, by simp,
      LoadFrame.setLocal_head_ok hh hgen, LoadFrame.setLocal_head_node rfl⟩
    simpa [ScopeIs, LoadFrame.localNode] using hn
  all_goals
    refine ⟨?_, ?_, ?_, hh, rfl⟩ <;>
      simp_all [Active.promise, Cont.expects, Cont.promise, Active.Ok, LoadPc.Ok, Cont.Ok, InScope,
        ScopeIs, LoadFrame.localNode, Guard.From, Guard.Fast, isEnvelope_clearTag,
        LoadFrame.result, Contract.Meets]

theorem IntoInnerClause.typed {g : Guard} {pc : IntoInnerPc} {o : Out}
    (h : IntoInnerClause tls.head m g pc o) (hh : tls.head.Ok) :
    o.Typed cfg tls (.intoInner g pc) := by
  cases h <;> refine ⟨?_, ?_, ?_, hh, rfl⟩ <;>
    simp_all [Active.promise, Cont.expects, Cont.promise, Active.Ok, Cont.Ok, Contract.Meets]

theorem DropClause.typed {g : Guard} {o : Out} (h : DropClause tls.head m g o)
    (hh : tls.head.Ok) : o.Typed cfg tls (.dropGuard g) := by
  cases h <;> refine ⟨?_, ?_, ?_, hh, rfl⟩ <;>
    simp [Active.promise, Active.Ok, Contract.Meets]

theorem DecClause.typed {r : Ref} {o : Out} (h : DecClause tls.head m r o)
    (hh : tls.head.Ok) : o.Typed cfg tls (.dec r) := by
  cases h <;> refine ⟨?_, ?_, ?_, hh, rfl⟩ <;>
    simp [Active.promise, Active.Ok, Contract.Meets, Cont.expects, Cont.promise,
      UserKind.contract, Cont.Ok]

theorem Dispatched.ok {f : PayFrame} {me who : NodeId} {c : ℕ} {a : Active}
    (h : Dispatched f me who c a) (hk : f.ref.kind = cfg.kind f.storage)
    (hs : ScopeIs tls f.tmp me) (hr : ∀ w, a ≠ .failed w) :
    a.Ok cfg tls ∧ a.promise = .paid f.ref := by
  cases h with
  | pass => exact ⟨⟨hk, hs.inScope, by simp⟩, rfl⟩
  | gen ht hm => exact ⟨⟨hk, hs, hm, ht⟩, rfl⟩
  | myself | invalid => simp at hr

theorem PayClause.typed {f : PayFrame} {pc : PayPc} {o : Out} (h : PayClause tls m f pc o)
    (hok : (Active.payAll f pc).Ok cfg tls) (hh : tls.head.Ok)
    (hr : ∀ w, o.active ≠ .failed w) (hv : ∀ n, ValidWord (m.control n))
    (he : ∀ n, IsEnvelope (m.spaceOffer n)) : o.Typed cfg tls (.payAll f pc) := by
  obtain ⟨hk, hok⟩ := hok
  cases h
  case noNode | notUsed | helperBusy | misaligned => simp at hr
  case enter h =>
    exact ⟨rfl, ⟨hk, by simpa [PayPc.Ok, InScope, show f.tmp = none from hok] using h⟩, by simp,
      hh, rfl⟩
  case enterGet h =>
    exact ⟨by simp [Active.promise, Cont.expects, Cont.promise], trivial,
      by simpa [Cont.Ok, Homeless] using ⟨⟨hok, h⟩, hk⟩, hh, rfl⟩
  case helpControl me who a h =>
    obtain ⟨ha, hp⟩ := h.ok hk (show ScopeIs tls f.tmp me from hok) hr
    exact ⟨hp, ha, by simp, hh, rfl⟩
  case helpChanged me who c a _ h =>
    obtain ⟨ha, hp⟩ := h.ok hk (show ScopeIs tls f.tmp me from hok.1) hr
    exact ⟨hp, ha, by simp, hh, rfl⟩
  case slotOther | slotInc =>
    exact ⟨PayFrame.nextSlot_promise, PayFrame.nextSlot_ok hk hok.1, by simp, hh, rfl⟩
  all_goals
    refine ⟨?_, ?_, ?_, hh, rfl⟩ <;>
      simp_all [Active.promise, Cont.expects, Cont.promise, Active.Ok, LoadPc.Ok, PayPc.Ok,
        Cont.Ok, InScope, ScopeIs, PayFrame.localNode, HelpOk, Contract.Meets]

theorem Clause.typed {a : Active} {o : Out} (h : Clause cfg tls m a o) (hok : a.Ok cfg tls)
    (hh : tls.head.Ok) (hr : ∀ w, o.active ≠ .failed w) (hw : ¬ a.Wraps)
    (hv : ∀ n, ValidWord (m.control n)) (he : ∀ n, IsEnvelope (m.spaceOffer n)) :
    o.Typed cfg tls a := by
  cases h with
  | get h => exact h.typed hh
  | cooldown h => exact h.typed hh hr
  | load h => exact h.typed hok hh hr hw
  | intoInner h => exact h.typed hh
  | dropGuard h => exact h.typed hh
  | dec h => exact h.typed hh
  | payAll h => exact h.typed hok hh hr hv he
  | swap =>
    exact ⟨⟨rfl, rfl⟩, ⟨rfl, rfl⟩, by simp [SwapFrame.exec, Cont.Ok], hh, rfl⟩
  | cas h =>
    obtain ⟨hn, hf, ho⟩ := hok
    cases h with
    | swapped => exact ⟨⟨rfl, rfl⟩, ⟨hf.1, rfl⟩, by simpa [Cont.Ok] using ⟨hf, ho⟩, hh, rfl⟩
    | late => exact ⟨⟨rfl, rfl⟩, hf.2, by simpa [Cont.Ok] using hn, hh, rfl⟩

/-! ## Returning -/

/-- The thread-local node stays what it is, or it gets its first node. -/
def Tls.Gets (tls : Tls) (head : LocalNode) : Prop :=
  head = tls.head ∨ (tls.alive = true ∧ tls.head.node = none ∧
    ∃ n, head = { tls.head with node := some n })

theorem LocalNode.fresh_ok (n : Option NodeId) : (LocalNode.fresh n).Ok := isGen_zero

theorem Resumed.typed {k : Cont} {r : Ret} {o : Out} (h : Resumed cfg tls m k r o)
    (hok : k.Ok cfg tls) (hm : k.expects.Meets cfg r) (hh : tls.head.Ok)
    (hr : ∀ w, o.active ≠ .failed w) :
    Links o.active.promise o.calls k.promise ∧ o.active.Ok cfg ⟨o.head, tls.alive⟩ ∧
      (∀ k ∈ o.calls, k.Ok cfg ⟨o.head, tls.alive⟩) ∧ o.head.Ok ∧ tls.Gets o.head := by
  cases h
  case discard => exact hok.elim
  case loadNode f n ha =>
    exact ⟨rfl, f.begin_ok (by simp [hok.1]) (by simp [InScope, hok.1]), by simp, hh,
      .inr ⟨ha, hok.2 ha, n, rfl⟩⟩
  case loadTmp f n ha =>
    refine ⟨rfl, LoadFrame.begin_ok ?_ (by simp [InScope, LocalNode.fresh]), by simp, hh,
      .inl rfl⟩
    simpa [TmpOk] using LocalNode.fresh_ok (some n)
  case payNode f n ha =>
    exact ⟨rfl, ⟨hok.2, by simp [PayPc.Ok, InScope, hok.1.1]⟩, by simp, hh,
      .inr ⟨ha, hok.1.2 ha, n, rfl⟩⟩
  case helpRetry f me who c w a h =>
    obtain ⟨ha, hp⟩ := h.ok hok.1 (show ScopeIs tls f.tmp me from hok.2.1) hr
    exact ⟨hp, ha, by simp, hh, .inl rfl⟩
  all_goals
    refine ⟨?_, ?_, ?_, hh, .inl rfl⟩ <;>
      simp_all [Active.promise, Cont.expects, Cont.promise, Active.Ok, LoadPc.Ok, PayPc.Ok,
        Cont.Ok, Contract.Meets, CasFrame.load, RcuFrame.casFrame, Guard.From, Guard.Fast,
        UserKind.contract, HelpOk, InScope, ScopeIs, LocalNode.fresh, Option.isSome_iff_exists]

/-! ## Threads -/

/-- An `into_inner` of a helping slot is the one of `fallback`. -/
def InnerOk (tls : Tls) (ks : List Cont) (g : Guard) : Prop :=
  g.Fast ∨ ∃ f r ks' n, ks = .fallback f r :: ks' ∧ g.debt = some (helpingSlot n) ∧
    ScopeIs tls f.tmp n

/-- The stack of the thread fits together, and its local variables are well-formed. -/
structure Thread.Typed (cfg : Config) (th : Thread) : Prop where
  linked : Linked th.active.promise th.conts
  active : th.active.Ok cfg th.tls
  conts : ∀ k ∈ th.conts, k.Ok cfg th.tls
  head : th.tls.head.Ok
  inner : ∀ g pc, th.active = .intoInner g pc → InnerOk th.tls th.conts g

theorem Thread.idle_typed : Thread.idle.Typed cfg :=
  ⟨rfl, trivial, by simp [Thread.idle], isGen_zero, by simp [Thread.idle]⟩

theorem Contract.Meets.fast {c : Contract} {g : Guard} {w : Option ℕ}
    (h : c.Meets cfg (.guard g w)) : g.Fast := by
  cases c <;> simp_all [Contract.Meets]

theorem Cont.promise_ne_node (k : Cont) : k.promise ≠ .node := by
  cases k
  case user u _ => cases u <;> simp [Cont.promise, UserKind.contract]
  all_goals simp [Cont.promise]

/-- Only the topmost caller can wait for a node. -/
theorem Links.expects_ne_node {c c' : Contract} {ks : List Cont} (h : Links c ks c')
    (hc : c ≠ .node) : ∀ k ∈ ks, k.expects ≠ .node := by
  induction ks generalizing c with
  | nil => simp
  | cons k ks ih =>
    simp only [List.mem_cons, forall_eq_or_imp]
    exact ⟨h.1 ▸ hc, ih h.2 k.promise_ne_node⟩

/-- A thread-local node that is not there yet is not in use. -/
theorem Cont.Ok.gets {k : Cont} {head : LocalNode} (h : k.Ok cfg tls) (hk : k.expects ≠ .node)
    (hg : tls.Gets head) : k.Ok cfg ⟨head, tls.alive⟩ := by
  obtain rfl | ⟨ha, hn, n, rfl⟩ := hg
  · exact h
  · have hs : ∀ tmp, InScope tls tmp →
        InScope ⟨{ tls.head with node := some n }, tls.alive⟩ tmp := by
      intro tmp h
      cases tmp <;> simp_all [InScope]
    have hs' : ∀ tmp n', ScopeIs tls tmp n' →
        ScopeIs ⟨{ tls.head with node := some n }, tls.alive⟩ tmp n' := by
      intro tmp n' h
      cases tmp <;> simp_all [ScopeIs]
    cases k <;> simp_all [Cont.Ok, Cont.expects, HelpOk]

theorem Cont.Ok.same {k : Cont} {tls' : Tls} (h : k.Ok cfg tls)
    (hn : tls'.head.node = tls.head.node) (ha : tls'.alive = tls.alive) : k.Ok cfg tls' := by
  have hs : ∀ tmp, InScope tls' tmp ↔ InScope tls tmp := by
    intro tmp
    cases tmp <;> simp [InScope, hn]
  have hs' : ∀ tmp n, ScopeIs tls' tmp n ↔ ScopeIs tls tmp n := by
    intro tmp n
    cases tmp <;> simp [ScopeIs, hn]
  cases k <;> simp_all [Cont.Ok, HelpOk, Homeless]

theorem Clause.inner {a : Active} {o : Out} {ks : List Cont} (h : Clause cfg tls m a o)
    (hok : a.Ok cfg tls) (hi : ∀ g pc, a = .intoInner g pc → InnerOk tls ks g) (g : Guard)
    (pc : IntoInnerPc) (ho : o.active = .intoInner g pc) :
    InnerOk ⟨o.head, tls.alive⟩ (o.calls ++ ks) g := by
  have hnext : ∀ (f : PayFrame) who i, f.nextSlot who i ≠ .intoInner g pc := by
    intro f who i
    unfold PayFrame.nextSlot
    split <;> simp
  have hdisp : ∀ {f : PayFrame} {me who c a}, Dispatched f me who c a → a ≠ .intoInner g pc := by
    intro f me who c a h
    cases h <;> simp
  cases h with
  | load h =>
    cases h <;> simp [LoadFrame.begin, LoadFrame.result] at ho
    case closeControl f n gen p h =>
      obtain ⟨rfl, rfl⟩ := ho
      exact .inr ⟨_, _, _, n, rfl, rfl, hok.2.1⟩
  | intoInner h =>
    cases h <;> simp at ho
    case start => exact ho.1 ▸ hi _ _ rfl
  | payAll h =>
    cases h with
    | helpControl h | helpChanged _ h => exact absurd ho (hdisp h)
    | slotOther | slotInc => exact absurd ho (hnext _ _ _)
    | _ => simp at ho
  | get h | cooldown h | dropGuard h | dec h | cas h => cases h <;> simp at ho
  | swap => simp [SwapFrame.exec] at ho

/-- The thread stays typed when a clause of its function is executed. -/
theorem Thread.Typed.after {th : Thread} {o : Out} (ht : th.Typed cfg)
    (hc : Clause cfg th.tls m th.active o) (h : o.Typed cfg th.tls th.active) :
    (th.after th.conts o).Typed cfg where
  linked := h.links.append ht.linked
  active := h.active
  conts := by
    intro k hk
    obtain hk | hk := List.mem_append.mp hk
    · exact h.calls k hk
    · exact (ht.conts k hk).same h.node rfl
  head := h.head
  inner := hc.inner ht.active ht.inner

theorem Resumed.inner {k : Cont} {r : Ret} {o : Out} {ks : List Cont}
    (h : Resumed cfg tls m k r o) (hm : k.expects.Meets cfg r) (g : Guard) (pc : IntoInnerPc)
    (ho : o.active = .intoInner g pc) : InnerOk ⟨o.head, tls.alive⟩ (o.calls ++ ks) g := by
  cases h <;> simp [LoadFrame.begin, CasFrame.load] at ho
  case helpRetry h => cases h <;> simp at ho
  case full => exact .inl (ho.1 ▸ hm.fast)
  case rcuSwapped => exact .inl (ho.1 ▸ hm.fast)

/-- The thread stays typed when it returns to a caller in the library. -/
theorem Thread.Typed.resumed {th : Thread} {c : Contract} {r : Ret} {k : Cont} {ks : List Cont}
    {o : Out} (ht : th.Typed cfg) (ha : th.active = .ret c r) (hk : th.conts = k :: ks)
    (h : Resumed cfg th.tls m k r o) (hr : ∀ w, o.active ≠ .failed w) :
    (th.after ks o).Typed cfg := by
  have hl : c = k.expects ∧ Linked k.promise ks := by
    simpa [ha, hk, Active.promise] using ht.linked
  have hm : k.expects.Meets cfg r := by simpa [← hl.1, ha, Active.Ok] using ht.active
  have hks : ∀ k' ∈ k :: ks, k'.Ok cfg th.tls := hk ▸ ht.conts
  obtain ⟨h₁, h₂, h₃, h₄, h₅⟩ := h.typed (hks k List.mem_cons_self) hm ht.head hr
  refine ⟨h₁.append hl.2, h₂, ?_, h₄, h.inner hm⟩
  intro k' hk'
  obtain hk' | hk' := List.mem_append.mp hk'
  · exact h₃ k' hk'
  · exact (hks k' (List.mem_cons_of_mem k hk')).gets
      (hl.2.expects_ne_node k.promise_ne_node k' hk') h₅

/-- A call of user code is typed. -/
structure Call.Typed (cfg : Config) (tls : Tls) (c : Call) : Prop where
  links : Links c.active.promise c.calls c.contract
  active : c.active.Ok cfg tls
  calls : ∀ k ∈ c.calls, k.Ok cfg tls
  inner : ∀ g pc, c.active = .intoInner g pc → g.Fast
  unpaid : ∀ r, c.contract ≠ .paid r

/-- The thread stays typed when its user code calls a function. -/
theorem Thread.Typed.calling {th : Thread} {u : UserKind} {c : Call} (ht : th.Typed cfg)
    (ha : th.active = .user u) (hc : c.Typed cfg th.tls) : (th.calling u c).Typed cfg where
  linked := hc.links.append ⟨rfl, by simpa [ha, Active.promise, Cont.promise] using ht.linked⟩
  active := hc.active
  conts := by
    intro k hk
    obtain hk | hk := List.mem_append.mp hk
    · exact hc.calls k hk
    · obtain rfl | hk := List.mem_cons.mp hk
      · exact hc.unpaid
      · exact ht.conts k hk
  head := ht.head
  inner := fun g pc h => .inl (hc.inner g pc h)

section User

variable {T : Type*} {s : State T} {t : T} {m' : Mem} {th' : Thread} {o' : Multiset Ref}
  {g' : Multiset Guard}

theorem UserClause.typed {u : UserKind} (h : UserClause cfg s t u m' th' o' g')
    (ha : (s.thread t).active = .user u) (ht : (s.thread t).Typed cfg)
    (hg : ∀ g ∈ s.guards, g.Fast) : th'.Typed cfg ∧ ∀ g ∈ g', g.Fast := by
  have hp : Linked u.contract (s.thread t).conts := by
    simpa [ha, Active.promise] using ht.linked
  have he : ∀ g, ∀ g₁ ∈ s.guards.erase g, g₁.Fast := fun g g₁ h =>
    hg g₁ (Multiset.mem_of_mem_erase h)
  cases h with
  | alloc | clone | new => exact ⟨ht, hg⟩
  | fromInner h =>
    refine ⟨ht, fun g hg' => ?_⟩
    obtain rfl | hg' := Multiset.mem_cons.mp hg'
    · simp [Guard.Fast]
    · exact hg g hg'
  | drop => exact ⟨ht.calling ha ⟨rfl, trivial, by simp, by simp, by simp⟩, hg⟩
  | intoInner h =>
    exact ⟨ht.calling ha ⟨rfl, trivial, by simp, by simpa using hg _ h, by simp⟩, he _⟩
  | dropGuard h => exact ⟨ht.calling ha ⟨rfl, hg _ h, by simp, by simp, by simp⟩, he _⟩
  | load =>
    exact ⟨ht.calling ha ⟨rfl, by simp [Active.Ok, LoadPc.Ok], by simp, by simp, by simp⟩, hg⟩
  | loadFull =>
    exact ⟨ht.calling ha ⟨⟨rfl, rfl⟩, by simp [Active.Ok, LoadPc.Ok], by simp [Cont.Ok],
      by simp, by simp⟩, hg⟩
  | swap =>
    exact ⟨ht.calling ha ⟨rfl, rfl, by simp [SwapFrame.invoke], by simp [SwapFrame.invoke],
      by simp [SwapFrame.invoke]⟩, hg⟩
  | compareAndSwap =>
    exact ⟨ht.calling ha
      ⟨⟨rfl, rfl⟩, by simp [CasFrame.invoke, CasFrame.load, Active.Ok, LoadPc.Ok],
      by simp [CasFrame.invoke, Cont.Ok], by simp [CasFrame.invoke, CasFrame.load],
      by simp [CasFrame.invoke]⟩, hg⟩
  | rcu =>
    exact ⟨ht.calling ha ⟨⟨rfl, rfl⟩, by simp [RcuFrame.invoke, Active.Ok, LoadPc.Ok],
      by simp [RcuFrame.invoke, Cont.Ok], by simp [RcuFrame.invoke], by simp [RcuFrame.invoke]⟩, hg⟩
  | consume | dropStorage =>
    exact ⟨ht.calling ha ⟨⟨rfl, rfl⟩, ⟨rfl, rfl⟩, by simp [Cont.Ok], by simp, by simp⟩, hg⟩
  | exitEmpty hk _ _ =>
    refine ⟨⟨ht.linked, by simp [ha, Active.Ok], by simp [hk], ht.head, by simp [ha]⟩, hg⟩
  | exit hk _ _ =>
    exact ⟨⟨⟨rfl, by simpa [hk, Cont.promise] using hp⟩, trivial, by simp [Cont.Ok], ht.head,
      by simp⟩, hg⟩
  | destroyed hu =>
    subst hu
    exact ⟨⟨hp, rfl, ht.conts, ht.head, by simp⟩, hg⟩
  | result hu _ hk =>
    subst hu
    exact ⟨⟨hp, .inl ⟨_, rfl, hk⟩, ht.conts, ht.head, by simp⟩, hg⟩
  | panic hu =>
    subst hu
    exact ⟨⟨hp, .inr rfl, ht.conts, ht.head, by simp⟩, hg⟩

/-- **A thread stays typed**, and the guards in the pool owe their references in fast slots. -/
theorem Move.typed (h : Move cfg s t m' th' o' g') (ht : (s.thread t).Typed cfg)
    (hg : ∀ g ∈ s.guards, g.Fast) (hr : ∀ w, th'.active ≠ .failed w)
    (hw : ¬ (s.thread t).active.Wraps) (hv : ∀ n, ValidWord (s.mem.control n))
    (he : ∀ n, IsEnvelope (s.mem.spaceOffer n)) : th'.Typed cfg ∧ ∀ g ∈ g', g.Fast := by
  cases h with
  | code h => exact ⟨ht.after h (h.typed ht.active ht.head hr hw hv he), hg⟩
  | resume ha hk h => exact ⟨ht.resumed ha hk h hr, hg⟩
  | @receive c r u c' ks ha hk =>
    have hl : c = c' ∧ Linked u.contract ks := by
      simpa [ha, hk, Active.promise, Cont.expects, Cont.promise] using ht.linked
    have hm : c.Meets cfg r := by simpa [ha, Active.Ok] using ht.active
    refine ⟨⟨hl.2, trivial, fun k hk' => ht.conts k (by simp [hk, hk']), ht.head, by simp⟩, ?_⟩
    cases r with
    | guard g w =>
      intro g₁ hg₁
      obtain rfl | hg₁ := Multiset.mem_cons.mp hg₁
      · exact hm.fast
      · exact hg g₁ hg₁
    | _ => exact hg
  | user ha h => exact h.typed ha ht hg

end User

end ArcSwap
