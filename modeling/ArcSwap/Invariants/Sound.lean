import ArcSwap.Invariants.Chain
import ArcSwap.Invariants.Control
import ArcSwap.Machine.Runs

/-!
# Sound states

What holds in every state of a run in which no generation wraps around: the threads are typed, the
list is a list, every node in use has one owner, and the controls and helping slots are what their
owners have made of them. No assertion fails in such a run.
-/

namespace ArcSwap

variable {T : Type*} [Fintype T] {cfg : Config} {s s' : State T} {t : T}

/-- The generation counter of the thread does not wrap around in this step. -/
def State.NoWrap (s : State T) (t : T) : Prop := ¬ (s.thread t).active.Wraps

instance (s : State T) (t : T) : Decidable (s.NoWrap t) := inferInstanceAs (Decidable (¬ _))

/-! ## Soundness -/

/-- The threads, the list, the owners, the controls and the helping slots fit together. -/
structure State.Sound (cfg : Config) (s : State T) : Prop where
  typed : ∀ t, (s.thread t).Typed cfg
  running : ∀ t w, (s.thread t).active ≠ .failed w
  guards : ∀ g ∈ s.guards, g.Fast
  chain : s.mem.Chain
  walks : ∀ t, (s.thread t).Walks s.mem
  owned : s.Owned
  nodeOk : ∀ t, (s.thread t).active.NodeOk cfg s.mem
  publishes : ∀ n, s.mem.control n ≠ idle → ∃ t, (s.thread t).active.Publishes n
  offers : ∀ n, s.mem.slot (helpingSlot n) ≠ none → ∃ t, (s.thread t).active.Offers n
  words : ∀ n, ValidWord (s.mem.control n)
  envelopes : ∀ n, IsEnvelope (s.mem.spaceOffer n)

theorem State.init_sound : (State.init : State T).Sound cfg where
  typed _ := Thread.idle_typed
  running _ _ := by simp [State.init, Thread.idle]
  guards := by simp [State.init]
  chain := Mem.empty_chain
  walks _ := ⟨by simp [State.init, Thread.idle, Thread.visits, LocalNode.nodes, LocalNode.fresh,
    Active.visits], by simp [State.init, Thread.idle, Active.pushes]⟩
  owned := by
    have : (State.init : State T).nodes = 0 := Family.total_eq_zero fun t => by
      simp [State.init, Thread.idle, Thread.nodes, LocalNode.nodes, LocalNode.fresh, Active.nodes]
    exact ⟨fun n => by simp [this], fun n _ => rfl⟩
  nodeOk _ := trivial
  publishes n h := absurd rfl h
  offers n h := absurd rfl h
  words n := .inl rfl
  envelopes n := rfl

namespace State.Sound

/-- A node that a thread owns is in use. -/
theorem inUse (h : s.Sound cfg) {n : NodeId} (hn : n ∈ (s.thread t).nodes) :
    s.mem.inUse n = .used := by
  by_contra hu
  have := h.owned.tenancy n
  rw [if_neg hu, Nat.le_zero, Multiset.count_eq_zero] at this
  exact this (Family.mem_total.mpr ⟨t, hn⟩)

end State.Sound

variable [DecidableEq T]

namespace State.Sound

/-- Two threads do not own the same node. -/
theorem owner_unique (h : s.Sound cfg) {n : NodeId} {t t' : T} (ht : n ∈ (s.thread t).nodes)
    (ht' : n ∈ (s.thread t').nodes) : t' = t := by
  refine Family.holder_unique (le_trans (h.owned.tenancy n) ?_) ht ht'
  split <;> simp

theorem mem_nodes {th : Thread} {n : NodeId} (h : n ∈ th.tls.head.nodes + th.active.nodes) :
    n ∈ th.nodes := Multiset.mem_add.mpr (.inl h)

/-- The control of an own node is not `IDLE` only at the own doing. -/
theorem publishes_self (h : s.Sound cfg) {n : NodeId} (hn : n ∈ (s.thread t).nodes)
    (hc : s.mem.control n ≠ idle) : (s.thread t).active.Publishes n := by
  obtain ⟨t', ht'⟩ := h.publishes n hc
  rwa [← h.owner_unique hn (mem_nodes ((h.typed t').active.publishes_mem ht'))]

/-- The helping slot of an own node is occupied only at the own doing. -/
theorem offers_self (h : s.Sound cfg) {n : NodeId} (hn : n ∈ (s.thread t).nodes)
    (hs : s.mem.slot (helpingSlot n) ≠ none) : (s.thread t).active.Offers n := by
  obtain ⟨t', ht'⟩ := h.offers n hs
  rwa [← h.owner_unique hn ((h.typed t').offers_mem ht')]

/-- **Soundness is kept** by every step at which no generation wraps around. -/
theorem step {c : Choice} (h : s.Sound cfg) (hw : s.NoWrap t) (hs : s.step cfg t c = some s') :
    s'.Sound cfg := by
  obtain ⟨m', th', o', g', hm, rfl⟩ := State.step_move hs
  have ht := h.typed t
  -- the thread that takes the step
  have hrun : ∀ w, th'.active ≠ .failed w :=
    hm.running ht (h.nodeOk t) (h.running t) (fun _ hn => h.inUse hn)
      (fun _ hn => h.publishes_self hn) (fun _ hn => h.offers_self hn) h.words
  obtain ⟨ht', hg'⟩ := hm.typed ht h.guards hrun hw h.words h.envelopes
  obtain ⟨hchain, hgrows, hwalks, hnew⟩ := hm.chain ht h.chain (h.walks t)
  have hnodeOk := hm.nodeOk ht h.guards (h.nodeOk t)
  obtain ⟨hwords, henv⟩ := hm.words ht h.words h.envelopes
  have hrely := hm.rely ht
  obtain ⟨hcount, hfresh⟩ := hm.fresh (fun n hn => h.chain.fresh n ((h.walks t).visits n hn))
    h.owned.fresh
  have hnodes := hm.nodeMove ht (by rw [h.owned.fresh _ le_rfl]; simp)
  -- the other threads
  have hother : ∀ t' ≠ t, ∀ n ∈ (s.thread t').nodes, n ∉ (s.thread t).nodes :=
    fun t' hne n hn hn' => hne (h.owner_unique hn' hn)
  refine
    { typed := State.moved_forall ht' fun t' _ => h.typed t'
      running := State.moved_forall
        (P := fun th => ∀ w, th.active ≠ .failed w) hrun fun t' _ => h.running t'
      guards := hg'
      chain := hchain
      walks := State.moved_forall hwalks fun t' hne =>
        ⟨fun n hn => hgrows.listed ((h.walks t').visits n hn),
        fun n hn => ?_⟩
      owned := ⟨?_, hfresh⟩
      nodeOk := State.moved_forall (P := fun th => th.active.NodeOk cfg m') hnodeOk fun t' hne =>
        (h.typed t').nodeOk_rely (h.nodeOk t') hrely (hother t' hne)
      publishes := fun n hn => ?_
      offers := fun n hn => ?_
      words := hwords
      envelopes := henv }
  case refine_1 =>
    obtain ⟨hn₁, hn₂⟩ := (h.walks t').pushes n hn
    refine ⟨fun hl => hother t' hne n (mem_nodes ?_) (mem_nodes ?_), lt_of_lt_of_le hn₂ hcount⟩
    · exact Multiset.mem_add.mpr (.inr (Active.pushes_subset_nodes hn))
    · exact Multiset.mem_add.mpr (.inr (Active.pushes_subset_nodes (hnew n hn₁ hl)))
  case refine_2 =>
    have hten := h.owned.tenancy
    rw [State.nodes, Family.total_eq _ _ t] at hten
    rw [State.nodes, State.moved, Family.total_update]
    exact hten.move hnodes
  case refine_3 =>
    obtain hp | ⟨hc, hp⟩ := hm.publishes ht hrun hw hn
    · exact ⟨t, by simpa [State.moved] using hp⟩
    · obtain ⟨t', ht'⟩ := h.publishes n hc
      have hne : t' ≠ t := fun he => hp (he ▸ ht')
      exact ⟨t', by simpa [State.moved, hne] using ht'⟩
  case refine_4 =>
    obtain hp | ⟨hc, hp⟩ := hm.offers ht hrun (h.nodeOk t) hn
    · exact ⟨t, by simpa [State.moved] using hp⟩
    · obtain ⟨t', ht'⟩ := h.offers n hc
      have hne : t' ≠ t := fun he => hp (he ▸ ht')
      exact ⟨t', by simpa [State.moved, hne] using ht'⟩

end State.Sound

/-! ## Going on -/

omit [Fintype T] [DecidableEq T] in
/-- A suspended caller goes on with a value of the type that it expects. -/
theorem Cont.resume_isSome {q : Cont} {tls : Tls} {m : Mem} {v : Ret} (hu : ∀ u c, q ≠ .user u c)
    (hm : q.expects.Meets cfg v) : (q.resume cfg tls m v).isSome := by
  cases q with
  | user u c => exact absurd rfl (hu u c)
  | loadNode | payNode =>
    obtain ⟨n, rfl⟩ := hm
    simp only [Cont.resume]
    split <;> rfl
  | fallback | helpReplacement =>
    obtain ⟨r, rfl, -⟩ := hm
    rfl
  | full | rcuLoaded =>
    obtain ⟨g, rfl, -⟩ := hm
    rfl
  | casLoaded =>
    obtain ⟨g, rfl, -⟩ := hm
    simp only [Cont.resume]
    split <;> rfl
  | rcuSwapped =>
    obtain ⟨g, w, rfl, -⟩ := hm
    simp only [Cont.resume]
    split <;> rfl
  | rcuClosure => rcases hm with ⟨r, rfl, -⟩ | rfl <;> rfl
  | fullInner | rcuInner =>
    obtain rfl : v = .value _ none := hm
    rfl
  | swapPaid =>
    obtain rfl : v = .unit none := hm
    simp only [Cont.resume]
    split <;> rfl
  | _ =>
    obtain rfl : v = .unit none := hm
    rfl

/-- **The library never waits**: in a sound state a thread that is not in user code can take its
next step. -/
theorem State.Sound.goes (h : s.Sound cfg) (hu : ∀ u, (s.thread t).active ≠ .user u) :
    ∃ s', s.step cfg t (.go false) = some s' := by
  have hl := (h.typed t).linked
  have hok := (h.typed t).active
  cases ha : (s.thread t).active with
  | user u => exact absurd ha (hu u)
  | failed w => exact absurd ha (h.running t w)
  | ret c v =>
    rw [ha] at hl hok
    cases hks : (s.thread t).conts with
    | nil =>
      rw [hks] at hl
      obtain rfl : c = .never := hl
      exact hok.elim
    | cons q ks =>
      rw [hks] at hl
      obtain rfl : c = q.expects := hl.1
      by_cases hq : ∃ u c, q = .user u c
      · obtain ⟨u, c, rfl⟩ := hq
        obtain ⟨s', hs', -⟩ := State.goUser cfg ha hks
        exact ⟨s', hs'⟩
      · have hq' : ∀ u c, q ≠ .user u c := fun u c he => hq ⟨u, c, he⟩
        obtain ⟨o, ho⟩ := Option.isSome_iff_exists.mp (Cont.resume_isSome hq' hok)
        obtain ⟨s', hs', -⟩ := State.goBack cfg ha hks hq' ho
        exact ⟨s', hs'⟩
  | _ => exact ⟨_, State.step_go cfg (by rw [ha]; trivial)⟩

/-- **Every reachable state is sound** when no generation wraps around. -/
theorem State.Reachable.sound (h : s.Reachable cfg State.NoWrap) : s.Sound cfg :=
  h.invariant State.init_sound fun _ _ _ _ hi hw hs => hi.step hw hs

end ArcSwap
