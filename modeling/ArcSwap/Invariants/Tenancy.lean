import ArcSwap.Invariants.Sound
import Mathlib.Tactic.Abel

/-!
# Owners in every run

When the generations of a thread wrap around, it gives its node up in the middle of a load, and the
load fails. The ownership of the nodes and the list do not depend on it: every thread either is
typed or does not come to use a node any more, and nothing is assumed of the run.
-/

namespace ArcSwap

variable {T : Type*} {cfg : Config} {s s' : State T} {t : T} {m' : Mem} {th' : Thread}
  {o' : Multiset Ref} {g' : Multiset Guard}

/-! ## Threads that have given their node up -/

/-- The program points of `fallback` between the publication and the use of the node. -/
def LoadPc.Waits : LoadPc → Prop
  | .candidate _ _ | .confirmHelping _ _ _ => True
  | _ => False

/-- The thread has failed, or it has given up its node in the middle of a load. -/
inductive Thread.Doomed (th : Thread) : Prop
  | failed {w} (ha : th.active = .failed w)
  | cooling {n pc f n' gen ks} (ha : th.active = .cooldown n pc)
    (hk : th.conts = .discard f n' gen :: ks) (hn : (f.localNode th.tls.head).node = none)
  | cooled {c v f n' gen ks} (ha : th.active = .ret c v)
    (hk : th.conts = .discard f n' gen :: ks) (hn : (f.localNode th.tls.head).node = none)
  | loading {f pc} (ha : th.active = .load f pc) (hp : pc.Waits)
    (hn : (f.localNode th.tls.head).node = none)

/-- Taking the node out of the `LocalNode` leaves none. -/
theorem LoadFrame.setLocal_none (f : LoadFrame) (head : LocalNode) :
    let fl := f.setLocal head { f.localNode head with node := none }
    (fl.1.localNode fl.2).node = none := by
  unfold LoadFrame.setLocal
  cases h : f.tmp <;> simp [LoadFrame.localNode, h]

/-- What a step of a doomed thread does: it goes on with the cooldown, or leaves everything as it
is. -/
theorem Move.doomed (h : Move cfg s t m' th' o' g') (hd : (s.thread t).Doomed) :
    th'.Doomed ∧ g' = s.guards ∧
      ((m' = s.mem ∧ th'.nodes ≤ (s.thread t).nodes ∧ th'.visits ≤ (s.thread t).visits ∧
        th'.active.pushes = 0) ∨
      ∃ n pc o, (s.thread t).active = .cooldown n pc ∧
        CooldownClause (s.thread t).tls.head s.mem n pc o ∧ m' = o.mem ∧
        th' = (s.thread t).after (s.thread t).conts o) := by
  cases hd with
  | @failed w ha =>
    cases h with
    | code h =>
      rw [ha] at h
      cases h
    | resume h | receive h | user h =>
      rw [ha] at h
      cases h
  | @cooling n pc f n' gen ks ha hk hn =>
    cases h with
    | @code o h =>
      rw [ha] at h
      cases h with
      | cooldown h =>
        refine ⟨?_, rfl, .inr ⟨n, pc, o, ha, h, rfl, rfl⟩⟩
        cases h with
        | reserve | swap => exact .cooling rfl (by simpa [Thread.after] using hk) hn
        | swapFail => exact .failed rfl
        | release => exact .cooled rfl (by simpa [Thread.after] using hk) hn
    | resume h | receive h | user h =>
      rw [ha] at h
      cases h
  | @cooled c v f n' gen ks ha hk hn =>
    cases h with
    | code h =>
      rw [ha] at h
      cases h
    | @resume c' v' q qs o ha' hk' h =>
      obtain ⟨rfl, rfl⟩ : .discard f n' gen = q ∧ ks = qs := by
        simpa [hk] using hk'
      cases h with
      | discard =>
        refine ⟨.loading rfl trivial hn, rfl, .inl ⟨rfl, ?_, ?_, rfl⟩⟩
        · apply Multiset.le_iff_exists_add.mpr
          refine ⟨(Active.ret c v).nodes, ?_⟩
          simp only [Thread.nodes, Thread.after, hk, ha, List.nil_append, contNodes_cons,
            Cont.nodes, Active.nodes]
          abel
        · apply Multiset.le_iff_exists_add.mpr
          refine ⟨(Active.ret c v).visits, ?_⟩
          simp only [Thread.visits, Thread.after, hk, ha, List.nil_append, contVisits_cons,
            Cont.visits, Active.visits]
          abel
    | receive _ hk' =>
      rw [hk] at hk'
      cases hk'
    | user h =>
      rw [ha] at h
      cases h
  | @loading f pc ha hp hn =>
    cases h with
    | @code o h =>
      rw [ha] at h
      cases h with
      | load h =>
        cases h with
        | candidate =>
          refine ⟨.loading rfl trivial hn, rfl, .inl ⟨rfl, ?_, ?_, rfl⟩⟩
          · simp [Thread.nodes, Thread.after, ha, Active.nodes]
          · simp [Thread.visits, Thread.after, ha, Active.visits]
        | noNode =>
          refine ⟨.failed rfl, rfl, .inl ⟨rfl, ?_, ?_, rfl⟩⟩
          · simp [Thread.nodes, Thread.after, Active.nodes]
          · simp [Thread.visits, Thread.after, Active.visits]
        | confirmHelping h | notUsed _ h =>
          rw [hn] at h
          cases h
        | _ => exact hp.elim
    | resume h | receive h | user h =>
      rw [ha] at h
      cases h

/-! ## Threads that go on or are doomed -/

/-- The thread is typed, or it does not come to use a node any more. -/
def Thread.Tenant (cfg : Config) (th : Thread) : Prop := th.Typed cfg ∨ th.Doomed

/-- A thread that is about to use a node is typed. -/
theorem Thread.Tenant.typed {th : Thread} (h : th.Tenant cfg) {f : LoadFrame} {pc : LoadPc}
    (ha : th.active = .load f pc) (hp : ¬ pc.Waits) : th.Typed cfg := by
  apply h.resolve_right
  intro hd
  cases hd with
  | failed ha' | cooling ha' | cooled ha' =>
    rw [ha] at ha'
    cases ha'
  | loading ha' hp' =>
    rw [ha] at ha'
    cases ha'
    exact hp hp'

/-- **A thread stays a tenant**, also when its generations wrap around and when it fails. -/
theorem Move.tenant (h : Move cfg s t m' th' o' g') (ht : (s.thread t).Tenant cfg)
    (hg : ∀ g ∈ s.guards, g.Fast) (hv : ∀ n, ValidWord (s.mem.control n))
    (he : ∀ n, IsEnvelope (s.mem.spaceOffer n)) : th'.Tenant cfg ∧ ∀ g ∈ g', g.Fast := by
  rcases ht with ht | hd
  swap
  · obtain ⟨hd', rfl, -⟩ := h.doomed hd
    exact ⟨.inr hd', hg⟩
  by_cases hr : ∃ w, th'.active = .failed w
  · obtain ⟨w, hw⟩ := hr
    refine ⟨.inr (.failed hw), ?_⟩
    cases h with
    | code | resume => exact hg
    | receive => cases hw
    | user ha h => exact (h.typed ha ht hg).2
  · by_cases hw : (s.thread t).active.Wraps
    · cases h with
      | @code o h =>
        refine ⟨.inr ?_, hg⟩
        cases hact : (s.thread t).active with
        | load f pc =>
          rw [hact] at h hw
          cases h with
          | load h =>
            cases h with
            | publishGen _ hgen => exact absurd hw hgen
            | discard => exact .cooling rfl rfl (LoadFrame.setLocal_none f _)
            | publishFull | noNode | notUsed => exact absurd ⟨_, rfl⟩ hr
            | _ => exact hw.elim
        | _ =>
          rw [hact] at hw
          exact hw.elim
      | resume ha | receive ha | user ha =>
        rw [ha] at hw
        exact hw.elim
    · obtain ⟨ht', hg'⟩ := h.typed ht hg (fun w hw => hr ⟨w, hw⟩) hw hv he
      exact ⟨.inl ht', hg'⟩

/-- The list, and what the thread does with it. -/
theorem Move.tenant_chain (h : Move cfg s t m' th' o' g') (ht : (s.thread t).Tenant cfg)
    (hm : s.mem.Chain) (hw : (s.thread t).Walks s.mem) :
    m'.Chain ∧ s.mem.Grows m' ∧ th'.Walks m' ∧
      ∀ n, ¬ s.mem.Listed n → m'.Listed n → n ∈ (s.thread t).active.pushes := by
  rcases ht with ht | hd
  · exact h.chain ht hm hw
  · obtain ⟨-, -, ⟨rfl, -, hv, hp⟩ | ⟨n, pc, o, ha, hc, rfl, rfl⟩⟩ := h.doomed hd
    · refine ⟨hm, .of_eq rfl, ⟨fun n hn => hw.visits n (Multiset.mem_of_le hv hn), ?_⟩,
        fun n h h' => absurd h' h⟩
      rw [hp]
      simp
    · have hc' : Clause cfg (s.thread t).tls s.mem (s.thread t).active o := by
        rw [ha]
        exact .cooldown hc
      exact hw.after hc' (by rw [ha]; trivial) hm

/-- The nodes that the thread owns. -/
theorem Move.tenant_nodeMove (h : Move cfg s t m' th' o' g') (ht : (s.thread t).Tenant cfg)
    (hf : s.mem.inUse s.mem.nodeCount ≠ .used) :
    NodeMove s.mem.inUse (s.thread t).nodes m'.inUse th'.nodes := by
  rcases ht with ht | hd
  · exact h.nodeMove ht hf
  · obtain ⟨-, -, ⟨rfl, hn, -⟩ | ⟨n, pc, o, ha, hc, rfl, rfl⟩⟩ := h.doomed hd
    · exact .keep hn
    · have hc' : Clause cfg (s.thread t).tls s.mem (s.thread t).active o := by
        rw [ha]
        exact .cooldown hc
      exact hc'.nodeMove_after (by rw [ha]; trivial) hf

/-- A doomed thread does not touch slots, controls and offered envelopes. -/
theorem Move.doomed_frame (h : Move cfg s t m' th' o' g') (hd : (s.thread t).Doomed) :
    m'.slot = s.mem.slot ∧ m'.control = s.mem.control ∧ m'.activeAddr = s.mem.activeAddr ∧
      m'.spaceOffer = s.mem.spaceOffer := by
  obtain ⟨-, -, ⟨rfl, -⟩ | ⟨n, pc, o, -, hc, rfl, -⟩⟩ := h.doomed hd
  · exact ⟨rfl, rfl, rfl, rfl⟩
  · cases hc <;> exact ⟨rfl, rfl, rfl, rfl⟩

theorem Move.tenant_rely (h : Move cfg s t m' th' o' g') (ht : (s.thread t).Tenant cfg) :
    Rely (s.thread t).nodes s.mem m' := by
  rcases ht with ht | hd
  · exact h.rely ht
  · obtain ⟨h₁, h₂, h₃, -⟩ := h.doomed_frame hd
    exact .of_eq h₁ h₂ h₃

theorem Move.tenant_words (h : Move cfg s t m' th' o' g') (ht : (s.thread t).Tenant cfg)
    (hv : ∀ n, ValidWord (s.mem.control n)) (he : ∀ n, IsEnvelope (s.mem.spaceOffer n)) :
    (∀ n, ValidWord (m'.control n)) ∧ ∀ n, IsEnvelope (m'.spaceOffer n) := by
  rcases ht with ht | hd
  · exact h.words ht hv he
  · obtain ⟨-, h₂, -, h₄⟩ := h.doomed_frame hd
    rw [h₂, h₄]
    exact ⟨hv, he⟩

/-- The assertions that hold in every run: those on the state of an own node, and on the fast slot
that has been chosen. -/
def Assertion.Owner : Assertion → Prop
  | .cooldownUsed | .fastSlotNone => True
  | _ => False

theorem Dispatched.owner {f : PayFrame} {me who : NodeId} {c : ℕ} {a : Active}
    (h : Dispatched f me who c a) {w : Assertion} (hw : w.Owner) : a ≠ .failed w := by
  rintro rfl
  cases h <;> exact hw

/-- No owner of a node finds it in another state, and no occupied slot is chosen. -/
theorem Clause.owner {tls : Tls} {m : Mem} {a : Active} {o : Out} (h : Clause cfg tls m a o)
    (hu : ∀ n ∈ a.nodes, m.inUse n = .used)
    (hc : ∀ f n p j, a = .load f (.claim n p j) → m.slot ⟨n, j⟩ = none) {w : Assertion}
    (hw : w.Owner) : o.active ≠ .failed w := by
  cases h with
  | get h | intoInner h | dropGuard h | dec h | cas h => cases h <;> simp
  | swap => simp [SwapFrame.exec]
  | cooldown h =>
    cases h with
    | swapFail h => exact absurd (hu _ (Multiset.mem_singleton_self _)) h
    | _ => simp
  | load h =>
    cases h with
    | claimFull h => exact absurd (hc _ _ _ _ rfl) h
    | enter => exact LoadFrame.begin_running _ w
    | leave => simp [LoadFrame.result]
    | genTagged | publishFull | offerFull | closeInvalid | noNode | notUsed =>
      rintro ⟨⟩
      exact hw
    | _ => simp
  | payAll h =>
    cases h with
    | helpControl h | helpChanged _ h => exact h.owner hw
    | slotOther | slotInc => exact PayFrame.nextSlot_running _ _ _ w
    | noNode | notUsed | helperBusy | misaligned =>
      rintro ⟨⟩
      exact hw
    | _ => simp

theorem Resumed.owner {q : Cont} {v : Ret} {tls : Tls} {m : Mem} {o : Out}
    (h : Resumed cfg tls m q v o) {w : Assertion} (hw : w.Owner) : o.active ≠ .failed w := by
  cases h with
  | loadNode | loadTmp => exact LoadFrame.begin_running _ w
  | helpRetry h => exact h.owner hw
  | casRetry | rcuClosure => simp [CasFrame.load]
  | _ => simp

theorem Move.owner (h : Move cfg s t m' th' o' g')
    (hu : ∀ n ∈ (s.thread t).nodes, s.mem.inUse n = .used)
    (hc : ∀ f n p j, (s.thread t).active = .load f (.claim n p j) → s.mem.slot ⟨n, j⟩ = none)
    {w : Assertion} (hw : w.Owner) : th'.active ≠ .failed w := by
  cases h with
  | code h =>
    apply h.owner (fun n hn => hu n ?_) hc hw
    simp [Thread.nodes, hn]
  | resume _ _ h => exact h.owner hw
  | receive => simp
  | user ha h =>
    cases h with
    | alloc | clone | fromInner | new | exitEmpty => simp [ha]
    | swap | compareAndSwap | rcu =>
      simp [Thread.calling, SwapFrame.invoke, CasFrame.invoke, RcuFrame.invoke, CasFrame.load]
    | _ => simp [Thread.calling]

/-- A doomed thread relies on nothing. -/
theorem Thread.Doomed.nodeOk {th : Thread} {m : Mem} (hd : th.Doomed) (ht : th.Typed cfg) :
    th.active.NodeOk cfg m := by
  cases hd with
  | failed ha | cooling ha | cooled ha =>
    rw [ha]
    trivial
  | @loading f pc ha hp hn =>
    have hok := ht.active
    rw [ha] at hok ⊢
    cases pc with
    | candidate | confirmHelping =>
      have hs := hok.2.1
      rw [ScopeIs] at hs
      rw [LoadFrame.localNode, hs] at hn
      cases hn
    | _ => exact hp.elim

/-! ## Every run -/

section Run

variable [Fintype T]

/-- What holds in every run: the threads are tenants, the list is a list, every node in use has one
owner, and no owner finds its node in another state or its chosen slot occupied. -/
structure State.Tenanted (cfg : Config) (s : State T) : Prop where
  threads : ∀ t, (s.thread t).Tenant cfg
  guards : ∀ g ∈ s.guards, g.Fast
  chain : s.mem.Chain
  walks : ∀ t, (s.thread t).Walks s.mem
  owned : s.Owned
  nodeOk : ∀ t, (s.thread t).Typed cfg → (s.thread t).active.NodeOk cfg s.mem
  words : ∀ n, ValidWord (s.mem.control n)
  envelopes : ∀ n, IsEnvelope (s.mem.spaceOffer n)
  asserted : ∀ t w, w.Owner → (s.thread t).active ≠ .failed w

theorem State.init_tenanted : (State.init : State T).Tenanted cfg := by
  have h : (State.init : State T).Sound cfg := State.init_sound
  refine ⟨fun t => .inl (h.typed t), h.guards, h.chain, h.walks, h.owned, fun _ _ => trivial,
    h.words, h.envelopes, fun t w _ => ?_⟩
  simp [State.init, Thread.idle]

namespace State.Tenanted

/-- A node that a thread owns is in use. -/
theorem inUse (h : s.Tenanted cfg) {n : NodeId} (hn : n ∈ (s.thread t).nodes) :
    s.mem.inUse n = .used := by
  by_contra hu
  have := h.owned.tenancy n
  rw [if_neg hu, Nat.le_zero, Multiset.count_eq_zero] at this
  exact this (Family.mem_total.mpr ⟨t, hn⟩)

variable [DecidableEq T]

/-- Two threads do not own the same node. -/
theorem owner_unique (h : s.Tenanted cfg) {n : NodeId} {t t' : T} (ht : n ∈ (s.thread t).nodes)
    (ht' : n ∈ (s.thread t').nodes) : t' = t := by
  refine Family.holder_unique (le_trans (h.owned.tenancy n) ?_) ht ht'
  split <;> simp

/-- **Tenancy is kept** by every step. -/
theorem step {c : Choice} (h : s.Tenanted cfg) (hs : s.step cfg t c = some s') :
    s'.Tenanted cfg := by
  obtain ⟨m', th', o', g', hm, rfl⟩ := State.step_move hs
  have ht := h.threads t
  -- the thread that takes the step
  obtain ⟨ht', hg'⟩ := hm.tenant ht h.guards h.words h.envelopes
  obtain ⟨hchain, hgrows, hwalks, hnew⟩ := hm.tenant_chain ht h.chain (h.walks t)
  obtain ⟨hwords, henv⟩ := hm.tenant_words ht h.words h.envelopes
  have hrely := hm.tenant_rely ht
  obtain ⟨hcount, hfresh⟩ := hm.fresh (fun n hn => h.chain.fresh n ((h.walks t).visits n hn))
    h.owned.fresh
  have hnodes := hm.tenant_nodeMove ht (by rw [h.owned.fresh _ le_rfl]; simp)
  have hnodeOk : th'.Typed cfg → th'.active.NodeOk cfg m' := by
    intro hty
    rcases ht with ht | hd
    · exact hm.nodeOk ht h.guards (h.nodeOk t ht)
    · exact (hm.doomed hd).1.nodeOk hty
  have hassert : ∀ w, w.Owner → th'.active ≠ .failed w := by
    intro w hw
    apply hm.owner (fun n hn => h.inUse hn) (fun f n p j ha => ?_) hw
    have := h.nodeOk t (ht.typed ha id)
    rwa [ha] at this
  -- the other threads
  have hother : ∀ t' ≠ t, ∀ n ∈ (s.thread t').nodes, n ∉ (s.thread t).nodes :=
    fun t' hne n hn hn' => hne (h.owner_unique hn' hn)
  refine
    { threads := State.moved_forall ht' fun t' _ => h.threads t'
      guards := hg'
      chain := hchain
      walks := State.moved_forall hwalks fun t' hne =>
        ⟨fun n hn => hgrows.listed ((h.walks t').visits n hn),
        fun n hn => ?_⟩
      owned := ⟨?_, hfresh⟩
      nodeOk := State.moved_forall (P := fun th => th.Typed cfg → th.active.NodeOk cfg m') hnodeOk
        fun t' hne hty => hty.nodeOk_rely (h.nodeOk t' hty) hrely (hother t' hne)
      words := hwords
      envelopes := henv
      asserted := State.moved_forall (P := fun th => ∀ w, w.Owner → th.active ≠ .failed w) hassert
        fun t' _ => h.asserted t' }
  case refine_1 =>
    obtain ⟨hn₁, hn₂⟩ := (h.walks t').pushes n hn
    refine ⟨fun hl => hother t' hne n ?_ ?_, lt_of_lt_of_le hn₂ hcount⟩
    · exact Sound.mem_nodes (Multiset.mem_add.mpr (.inr (Active.pushes_subset_nodes hn)))
    · exact Sound.mem_nodes
        (Multiset.mem_add.mpr (.inr (Active.pushes_subset_nodes (hnew n hn₁ hl))))
  case refine_2 =>
    have hten := h.owned.tenancy
    rw [State.nodes, Family.total_eq _ _ t] at hten
    rw [State.nodes, State.moved, Family.total_update]
    exact hten.move hnodes

end State.Tenanted

variable [DecidableEq T]

/-- **In every run** a node has at most one owner, and the list stays a list. -/
theorem State.Reachable.tenanted {P : State T → T → Prop} (h : s.Reachable cfg P) :
    s.Tenanted cfg :=
  h.invariant State.init_tenanted fun _ _ _ _ hi _ hs => hi.step hs

end Run

end ArcSwap
