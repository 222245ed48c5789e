import ArcSwap.Invariants.Ownership

/-!
# The list of the nodes

The list is prepend-only. The rank of a node is its position counted from the end: following `next`
lowers it by one, and the head has the highest. Every node that is visited or used is in the list;
a node that is being prepended is not yet.
-/

namespace ArcSwap

variable {cfg : Config} {tls : Tls} {m : Mem}

/-- The node is in the list. -/
def Mem.Listed (m : Mem) (n : NodeId) : Prop := 0 < m.rank n

/-- The nodes with a rank form a list. -/
structure Mem.Chain (m : Mem) : Prop where
  headNone : m.listHead = none → m.listLength = 0
  head : ∀ n, m.listHead = some n → m.rank n = m.listLength ∧ m.Listed n
  nextNone : ∀ n, m.Listed n → m.next n = none → m.rank n = 1
  next : ∀ n n', m.Listed n → m.next n = some n' → m.rank n = m.rank n' + 1 ∧ m.Listed n'
  le : ∀ n, m.rank n ≤ m.listLength
  inj : ∀ n n', m.Listed n → m.rank n = m.rank n' → n = n'
  fresh : ∀ n, m.Listed n → n < m.nodeCount

theorem Mem.empty_chain : Mem.empty.Chain := by
  constructor <;> simp [Mem.empty, Mem.Listed]

/-- The node that a writer is at. -/
def PayPc.visits : PayPc → Multiset NodeId
  | .enter | .prepay | .head | .dropVal | .leave => 0
  | .reserve who | .helpInUse who | .helpIdle _ who | .helpControl _ who | .helpAddr _ who _
  | .helpRecheck _ who _ | .helpTheirs _ who _ _ | .helpMine _ who _ _ _
  | .helpWrite _ who _ _ _ _ | .helpCas _ who _ _ _ _ | .helpTake _ who _ | .slot who _
  | .slotInc who _ | .unreserve who | .next who => {who}

/-- The nodes that the active function visits or uses. -/
def Active.visits : Active → Multiset NodeId
  | .get (.check n) | .get (.writers n) | .get (.unuse n _) | .get (.claim n)
  | .get (.next n) => {n}
  | .cooldown n _ => {n}
  | .load f _ => tmpNodes f.tmp
  | .payAll f pc => tmpNodes f.tmp + pc.visits
  | .ret _ (.node n) => {n}
  | _ => 0

/-- The nodes that a suspended caller visits or uses. -/
def Cont.visits : Cont → Multiset NodeId
  | .loadNode f | .discard f _ _ | .fallback f _ | .unused f _ => tmpNodes f.tmp
  | .payNode f | .valDropped f => tmpNodes f.tmp
  | .helpReplacement f _ who _ | .helpRetry f _ who _ => tmpNodes f.tmp + {who}
  | _ => 0

/-- The nodes that suspended callers visit or use. -/
def contVisits (ks : List Cont) : Multiset NodeId := (ks.map Cont.visits).sum

@[simp] theorem contVisits_nil : contVisits [] = 0 := rfl

@[simp] theorem contVisits_cons (k : Cont) (ks : List Cont) :
    contVisits (k :: ks) = k.visits + contVisits ks := by simp [contVisits]

@[simp] theorem contVisits_append (ks ks' : List Cont) :
    contVisits (ks ++ ks') = contVisits ks + contVisits ks' := by simp [contVisits]

/-- The nodes that a thread visits or uses. -/
def Thread.visits (th : Thread) : Multiset NodeId :=
  th.tls.head.nodes + th.active.visits + contVisits th.conts

/-- What a thread visits or uses after a clause, apart from its suspended callers. -/
def Out.visits (o : Out) : Multiset NodeId := o.head.nodes + o.active.visits + contVisits o.calls

/-- The node that the function is prepending to the list. -/
def Active.pushes : Active → Multiset NodeId
  | .get (.pushHead n) | .get (.push n _) => {n}
  | _ => 0

theorem Active.pushes_subset_nodes {a : Active} {n : NodeId} (h : n ∈ a.pushes) :
    n ∈ a.nodes := by
  cases a with
  | get pc =>
    cases pc with
    | pushHead | push => exact h
    | _ => simp [Active.pushes] at h
  | _ => simp [Active.pushes] at h

/-! ## Growing -/

theorem Mem.Chain.of_eq {m' : Mem} (h : m.Chain) (hh : m'.listHead = m.listHead)
    (hl : m'.listLength = m.listLength) (hn : m'.next = m.next) (hr : m'.rank = m.rank)
    (hc : m'.nodeCount = m.nodeCount) : m'.Chain := by
  have hL : m'.Listed = m.Listed := by
    funext n
    simp [Mem.Listed, hr]
  obtain ⟨h₁, h₂, h₃, h₄, h₅, h₆, h₇⟩ := h
  constructor <;> simpa only [hh, hl, hn, hr, hc, hL]

theorem Mem.Chain.newNode (h : m.Chain) : m.newNode.Chain := by
  obtain ⟨h₁, h₂, h₃, h₄, h₅, h₆, h₇⟩ := h
  refine ⟨h₁, h₂, h₃, h₄, h₅, h₆, fun n hn => Nat.lt_succ_of_lt (h₇ n hn)⟩

theorem Mem.Chain.setNext {n : NodeId} {x : Option NodeId} (h : m.Chain) (hn : ¬ m.Listed n) :
    (m.setNext n x).Chain := by
  obtain ⟨h₁, h₂, h₃, h₄, h₅, h₆, h₇⟩ := h
  have hne : ∀ k, m.Listed k → k ≠ n := fun k hk he => hn (he ▸ hk)
  refine ⟨h₁, h₂, fun k hk hx => ?_, fun k k' hk hx => ?_, h₅, h₆, h₇⟩
  · exact h₃ k hk (by simpa [hne k hk] using hx)
  · exact h₄ k k' hk (by simpa [hne k hk] using hx)

theorem Mem.Chain.push {n : NodeId} (h : m.Chain) (hn : ¬ m.Listed n) (hc : n < m.nodeCount) :
    ((m.setNext n m.listHead).push n).Chain := by
  have hne : ∀ k, m.Listed k → k ≠ n := fun k hk he => hn (he ▸ hk)
  have hself : ((m.setNext n m.listHead).push n).rank n = m.listLength + 1 := by simp
  have hother : ∀ k, k ≠ n → ((m.setNext n m.listHead).push n).rank k = m.rank k := by
    intro k hk
    simp [hk]
  have hlisted : ∀ k, k ≠ n → ((m.setNext n m.listHead).push n).Listed k → m.Listed k := by
    intro k hk
    simp [Mem.Listed, hk]
  constructor
  case headNone => simp
  case head =>
    intro k hk
    obtain rfl : n = k := by simpa using hk
    exact ⟨hself, by rw [Mem.Listed, hself]; omega⟩
  case nextNone =>
    intro k hk hx
    by_cases he : k = n
    · subst he
      rw [hself, h.headNone (by simpa using hx)]
    · rw [hother k he]
      exact h.nextNone k (hlisted k he hk) (by simpa [he] using hx)
  case next =>
    intro k k' hk hx
    by_cases he : k = n
    · subst he
      obtain ⟨hr, hl⟩ := h.head k' (by simpa using hx)
      rw [hself, Mem.Listed, hother k' (hne k' hl), hr]
      exact ⟨rfl, hr ▸ hl⟩
    · obtain ⟨hr, hl⟩ := h.next k k' (hlisted k he hk) (by simpa [he] using hx)
      rw [hother k he, Mem.Listed, hother k' (hne k' hl), hr]
      exact ⟨rfl, hl⟩
  case le =>
    intro k
    by_cases he : k = n
    · subst he
      exact hself.le
    · rw [hother k he]
      exact Nat.le_succ_of_le (h.le k)
  case inj =>
    intro k k' hk hx
    have hle := h.le k
    have hle' := h.le k'
    by_cases he : k = n <;> by_cases he' : k' = n
    · rw [he, he']
    · rw [he, hself, hother k' he'] at hx
      omega
    · rw [he', hself, hother k he] at hx
      omega
    · rw [hother k he, hother k' he'] at hx
      exact h.inj k k' (hlisted k he hk) hx
  case fresh =>
    intro k hk
    by_cases he : k = n
    · exact he ▸ hc
    · exact h.fresh k (hlisted k he hk)

/-- The ranks of the nodes in the list do not change. -/
def Mem.Grows (m m' : Mem) : Prop := ∀ n, m.Listed n → m'.rank n = m.rank n

theorem Mem.Grows.listed {m' : Mem} {n : NodeId} (h : m.Grows m') (hn : m.Listed n) :
    m'.Listed n := by
  rw [Mem.Listed, h n hn]
  exact hn

theorem Mem.Grows.of_eq {m' : Mem} (h : m'.rank = m.rank) : m.Grows m' := fun n _ => by rw [h]

/-- **A step keeps the list**, and adds at most the node that the function is prepending. -/
theorem Clause.chain {a : Active} {o : Out} (h : Clause cfg tls m a o) (hm : m.Chain)
    (hp : ∀ n ∈ a.pushes, ¬ m.Listed n ∧ n < m.nodeCount) :
    o.mem.Chain ∧ m.Grows o.mem ∧ (∀ n, ¬ m.Listed n → o.mem.Listed n → n ∈ a.pushes) := by
  have key : ∀ {m' : Mem}, m'.listHead = m.listHead → m'.listLength = m.listLength →
      m'.next = m.next → m'.rank = m.rank → m'.nodeCount = m.nodeCount →
      m'.Chain ∧ m.Grows m' ∧ (∀ n, ¬ m.Listed n → m'.Listed n → n ∈ a.pushes) := by
    intro m' hh hl hn hr hc
    exact ⟨hm.of_eq hh hl hn hr hc, .of_eq hr,
      fun n h h' => absurd (by simpa [Mem.Listed, hr] using h') h⟩
  cases h with
  | get h =>
    cases h with
    | create => exact ⟨hm.newNode, .of_eq rfl, fun n h h' => absurd h' h⟩
    | @push n x hx =>
      subst hx
      obtain ⟨hn, hc⟩ := hp n (by simp [Active.pushes])
      refine ⟨hm.push hn hc, fun k hk => ?_, fun k hk hk' => ?_⟩
      · have : k ≠ n := fun he => hn (he ▸ hk)
        simp [this]
      · by_contra he
        have : k ≠ n := by simpa [Active.pushes] using he
        exact hk (by simpa [Mem.Listed, this] using hk')
    | pushLate =>
      exact ⟨hm.setNext (hp _ (by simp [Active.pushes])).1, .of_eq rfl,
        fun n h h' => absurd h' h⟩
    | _ => exact key rfl rfl rfl rfl rfl
  | swap => exact key rfl rfl rfl rfl rfl
  | cooldown h | cas h | dec h | intoInner h | dropGuard h | load h | payAll h =>
    cases h <;> exact key rfl rfl rfl rfl rfl

/-! ## Visiting -/

theorem LoadFrame.begin_visits (f : LoadFrame) : (f.begin cfg).visits = tmpNodes f.tmp := rfl

theorem PayFrame.nextSlot_visits (f : PayFrame) (who : NodeId) (i : ℕ) :
    (f.nextSlot who i).visits = tmpNodes f.tmp + {who} := by
  unfold PayFrame.nextSlot
  split <;> rfl

theorem Dispatched.visits_le {f : PayFrame} {me who : NodeId} {c : ℕ} {a : Active}
    (h : Dispatched f me who c a) : a.visits ≤ tmpNodes f.tmp + {who} := by
  cases h <;> simp [Active.visits, PayPc.visits]

/-- A step goes on with the nodes it has visited or used, and with the head of the list or the
next node. -/
theorem Clause.visits {a : Active} {o : Out} (h : Clause cfg tls m a o) (hok : a.Ok cfg tls)
    (hm : m.Chain) (hv : ∀ n ∈ tls.head.nodes + a.visits, m.Listed n) :
    o.visits ≤ tls.head.nodes + a.visits ∨
      ∃ n, o.mem.Listed n ∧ o.visits ≤ tls.head.nodes + a.visits + {n} := by
  cases h with
  | get h =>
    cases h with
    | head h => exact .inr ⟨_, (hm.head _ h).2, by simp [Out.visits, Active.visits]⟩
    | @next n n' h =>
      refine .inr ⟨n', (hm.next n n' (hv n (by simp [Active.visits])) h).2, ?_⟩
      simp [Out.visits, Active.visits]
    | @push n => exact .inr ⟨n, by simp [Mem.Listed], by simp [Out.visits, Active.visits]⟩
    | _ => exact .inl (by simp [Out.visits, Active.visits])
  | cooldown h | intoInner h | dropGuard h | dec h =>
    cases h <;> exact .inl (by simp [Out.visits, Active.visits, Cont.visits])
  | cas h => cases h <;> exact .inl (by simp [Out.visits, Active.visits, Cont.visits, PayPc.visits])
  | swap =>
    exact .inl (by
      simp [Out.visits, Active.visits, Cont.visits, PayPc.visits, SwapFrame.exec])
  | load h =>
    refine .inl ?_
    cases h with
    | enter =>
      simp only [Out.visits, LoadFrame.begin_visits]
      simp [Active.visits]
    | claim | publishAddr =>
      refine le_of_eq ?_
      simp only [Out.visits, Active.visits, contVisits_nil, add_zero]
      exact LoadFrame.setLocal_nodes _ _ _ rfl
    | discard =>
      refine le_of_eq ?_
      simpa [Out.visits, Active.visits, Cont.visits, add_assoc, add_comm] using
        (LoadFrame.setLocal_take hok.2.1).symm
    | leave h => simp [Out.visits, Active.visits, LoadFrame.result]
    | leaveTmp h => simp [Out.visits, Active.visits, Cont.visits, tmpNodes_eq_singleton h]
    | _ => simp [Out.visits, Active.visits, Cont.visits]
  | payAll h =>
    cases h with
    | head h =>
      exact .inr ⟨_, (hm.head _ h).2, by simp [Out.visits, Active.visits, PayPc.visits, add_assoc]⟩
    | @next who n h =>
      refine .inr ⟨n, (hm.next who n (hv who (by simp [Active.visits, PayPc.visits])) h).2, ?_⟩
      simp only [Out.visits, Active.visits, PayPc.visits, contVisits_nil, add_zero, add_assoc,
        add_le_add_iff_left]
      exact le_add_self
    | helpControl h | helpChanged _ h =>
      refine .inl ?_
      simp only [Out.visits, contVisits_nil, add_zero, add_le_add_iff_left]
      exact h.visits_le
    | slotOther | slotInc =>
      refine .inl ?_
      simp only [Out.visits, PayFrame.nextSlot_visits]
      simp [Active.visits, PayPc.visits]
    | leaveTmp h =>
      exact .inl (by
        simp [Out.visits, Active.visits, PayPc.visits, Cont.visits, tmpNodes_eq_singleton h])
    | _ => exact .inl (by simp [Out.visits, Active.visits, Cont.visits, PayPc.visits])

theorem Resumed.visits_le {k : Cont} {r : Ret} {o : Out} (h : Resumed cfg tls m k r o)
    (hok : k.Ok cfg tls) (c : Contract) :
    o.visits ≤ tls.head.nodes + (Active.ret c r).visits + k.visits := by
  cases h
  case loadNode f n ha =>
    obtain ⟨hf, hn⟩ := hok
    simp only [Out.visits, LoadFrame.begin_visits]
    simp [LocalNode.nodes, hn ha, Active.visits, Cont.visits]
  case loadTmp f n ha =>
    obtain ⟨hf, -⟩ := hok
    simp only [Out.visits, LoadFrame.begin_visits]
    simp [Active.visits, Cont.visits, hf, LocalNode.nodes, LocalNode.fresh, tmpNodes]
  case payNode f n ha =>
    obtain ⟨⟨hf, hn⟩, -⟩ := hok
    simp [Out.visits, LocalNode.nodes, hn ha, Active.visits, PayPc.visits, Cont.visits]
  case payTmp f n ha =>
    obtain ⟨⟨hf, -⟩, -⟩ := hok
    simp [Out.visits, Active.visits, PayPc.visits, Cont.visits, hf, LocalNode.nodes,
      LocalNode.fresh, tmpNodes]
  case helpRetry h =>
    simpa [Out.visits, Active.visits, Cont.visits] using h.visits_le
  all_goals simp [Out.visits, Active.visits, PayPc.visits, Cont.visits, CasFrame.load]

/-- A function that is prepending a node has just created it, or was prepending it before. -/
theorem Clause.pushes {a : Active} {o : Out} {n : NodeId} (h : Clause cfg tls m a o)
    (hm : m.Chain) (hp : ∀ n ∈ a.pushes, ¬ m.Listed n ∧ n < m.nodeCount)
    (hn : n ∈ o.active.pushes) : ¬ o.mem.Listed n ∧ n < o.mem.nodeCount := by
  cases h with
  | get h =>
    cases h with
    | create =>
      obtain rfl : n = m.nodeCount := by simpa [Active.pushes] using hn
      exact ⟨fun h => absurd (hm.fresh _ h) (lt_irrefl _), by simp⟩
    | pushHead | pushLate => exact hp n hn
    | _ => simp [Active.pushes] at hn
  | load h =>
    cases h with
    | enter => simp [LoadFrame.begin, Active.pushes] at hn
    | leave => simp [LoadFrame.result, Active.pushes] at hn
    | _ => simp [Active.pushes] at hn
  | payAll h =>
    cases h with
    | helpControl h | helpChanged _ h => cases h <;> simp [Active.pushes] at hn
    | slotOther | slotInc =>
      simp only [PayFrame.nextSlot] at hn
      split at hn <;> simp [Active.pushes] at hn
    | _ => simp [Active.pushes] at hn
  | cooldown h | intoInner h | dropGuard h | dec h | cas h =>
    cases h <;> simp [Active.pushes] at hn
  | swap => simp [SwapFrame.exec, Active.pushes] at hn

theorem Resumed.pushes {k : Cont} {r : Ret} {o : Out} (h : Resumed cfg tls m k r o) :
    o.active.pushes = 0 := by
  cases h
  case helpRetry h => cases h <;> rfl
  all_goals rfl

section Run

variable {T : Type*} {s : State T} {t : T} {m' : Mem} {th' : Thread} {o' : Multiset Ref}
  {g' : Multiset Guard}

/-- The list and what a thread does with it fit together. -/
structure Thread.Walks (m : Mem) (th : Thread) : Prop where
  visits : ∀ n ∈ th.visits, m.Listed n
  pushes : ∀ n ∈ th.active.pushes, ¬ m.Listed n ∧ n < m.nodeCount

/-- What a thread does with the list in a clause of its function. -/
theorem Thread.Walks.after {th : Thread} {o : Out} (hw : th.Walks m)
    (h : Clause cfg th.tls m th.active o) (hok : th.active.Ok cfg th.tls) (hm : m.Chain) :
    o.mem.Chain ∧ m.Grows o.mem ∧ (th.after th.conts o).Walks o.mem ∧
      ∀ n, ¬ m.Listed n → o.mem.Listed n → n ∈ th.active.pushes := by
  obtain ⟨hc, hg, hl⟩ := h.chain hm hw.pushes
  have hv : ∀ n ∈ th.tls.head.nodes + th.active.visits, m.Listed n :=
    fun n hn => hw.visits n (Multiset.mem_add.mpr (.inl hn))
  refine ⟨hc, hg, ⟨fun n hn => ?_, fun n hn => h.pushes hm hw.pushes hn⟩, hl⟩
  have hn' : n ∈ o.visits + contVisits th.conts := by
    simpa [Thread.visits, Thread.after, Out.visits, add_assoc] using hn
  obtain hn' | hn' := Multiset.mem_add.mp hn'
  · obtain hle | ⟨n', hn₁, hle⟩ := h.visits hok hm hv
    · exact hg.listed (hv n (Multiset.mem_of_le hle hn'))
    · obtain h₁ | h₁ := Multiset.mem_add.mp (Multiset.mem_of_le hle hn')
      · exact hg.listed (hv n h₁)
      · exact Multiset.mem_singleton.mp h₁ ▸ hn₁
  · exact hg.listed (hw.visits n (Multiset.mem_add.mpr (.inr hn')))

theorem UserClause.chain {u : UserKind} (h : UserClause cfg s t u m' th' o' g')
    (ha : (s.thread t).active = .user u) (hm : s.mem.Chain) :
    m'.Chain ∧ m'.rank = s.mem.rank ∧ th'.visits ≤ (s.thread t).visits ∧
      th'.active.pushes = 0 := by
  have key : ∀ c : Call, c.active.visits = 0 → contVisits c.calls = 0 →
      ((s.thread t).calling u c).visits ≤ (s.thread t).visits := by
    intro c h₁ h₂
    simp only [Thread.visits, Thread.calling, contVisits_append, contVisits_cons, h₁, h₂, ha]
    simp [Cont.visits, Active.visits]
  have h₀ : (s.thread t).active.pushes = 0 := by rw [ha]; rfl
  cases h with
  | alloc | clone | new => exact ⟨hm.of_eq rfl rfl rfl rfl rfl, rfl, le_rfl, h₀⟩
  | fromInner => exact ⟨hm, rfl, le_rfl, h₀⟩
  | exitEmpty => exact ⟨hm, rfl, le_rfl, h₀⟩
  | exit hk _ h =>
    refine ⟨hm, rfl, le_of_eq ?_, rfl⟩
    simp [ha, hk, Thread.visits, Active.visits, Cont.visits, LocalNode.nodes, h]
  | destroyed | result | panic =>
    exact ⟨hm, rfl, by simp [Thread.visits, Active.visits], rfl⟩
  | drop | intoInner | dropGuard | load => exact ⟨hm, rfl, key _ rfl rfl, rfl⟩
  | loadFull => exact ⟨hm, rfl, key _ rfl (by simp [Cont.visits]), rfl⟩
  | swap => exact ⟨hm.of_eq rfl rfl rfl rfl rfl, rfl, key _ rfl rfl, rfl⟩
  | compareAndSwap | rcu | consume | dropStorage =>
    refine ⟨hm.of_eq rfl rfl rfl rfl rfl, rfl, key _ rfl ?_, rfl⟩
    simp [CasFrame.invoke, RcuFrame.invoke, Cont.visits]

/-- **A step keeps the list**, and what the thread does with it. -/
theorem Move.chain (h : Move cfg s t m' th' o' g') (ht : (s.thread t).Typed cfg)
    (hm : s.mem.Chain) (hw : (s.thread t).Walks s.mem) :
    m'.Chain ∧ s.mem.Grows m' ∧ th'.Walks m' ∧
      ∀ n, ¬ s.mem.Listed n → m'.Listed n → n ∈ (s.thread t).active.pushes := by
  have hsame : ∀ n, ¬ s.mem.Listed n → s.mem.Listed n → n ∈ (s.thread t).active.pushes :=
    fun n h h' => absurd h' h
  cases h with
  | code h => exact hw.after h ht.active hm
  | @resume c r k ks o ha hk h =>
    have hv := h.visits_le (ht.conts k (by simp [hk])) c
    obtain ⟨hmem, -⟩ := h.nodes_le (ht.conts k (by simp [hk])) c
    rw [hmem]
    refine ⟨hm, .of_eq rfl, ⟨fun n hn => hw.visits n ?_, ?_⟩, hsame⟩
    · have hn' : n ∈ o.visits + contVisits ks := by
        simpa [Thread.visits, Thread.after, Out.visits, add_assoc] using hn
      have := Multiset.mem_of_le (Multiset.add_le_add_right (u := contVisits ks) hv) hn'
      simpa [Thread.visits, ha, hk, add_assoc] using this
    · simp [Thread.after, h.pushes]
  | receive ha hk =>
    refine ⟨hm, .of_eq rfl, ⟨fun n hn => hw.visits n ?_, by simp [Active.pushes]⟩, hsame⟩
    simp only [Thread.visits, hk, contVisits_cons, Cont.visits, Active.visits, Multiset.mem_add]
      at hn ⊢
    tauto
  | user ha h =>
    obtain ⟨hc, hr, hv, hp⟩ := h.chain ha hm
    refine ⟨hc, .of_eq hr, ⟨fun n hn => ?_, by simp [hp]⟩, ?_⟩
    · exact Mem.Grows.listed (.of_eq hr) (hw.visits n (Multiset.mem_of_le hv hn))
    · intro n h h'
      exact absurd (by simpa [Mem.Listed, hr] using h') h

end Run

end ArcSwap
