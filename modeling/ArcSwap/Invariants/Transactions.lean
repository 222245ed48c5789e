import ArcSwap.Invariants.Helping

/-!
# Transactions in a run

When no generation is published that a writer in `help` watches, what helpers and readers know of
the replacements on their way holds in every reachable state: a replacement is for the transaction
it has been handed over to, it stays in an envelope that nobody writes to, and it is taken once.
-/

namespace ArcSwap

variable {cfg : Config} {tls : Tls} {m m' : Mem}

/-! ## Envelopes -/

/-- Every node owns one envelope: its own one at first. -/
structure Mem.Posted (m : Mem) : Prop where
  injective : Function.Injective m.owned
  fresh : ∀ n, m.nodeCount ≤ n → m.owned n = n

theorem Mem.Posted.of_eq (h : m.Posted) (ho : m'.owned = m.owned)
    (hc : m.nodeCount ≤ m'.nodeCount) : m'.Posted :=
  ⟨ho ▸ h.injective, fun n hn => ho ▸ h.fresh n (hc.trans hn)⟩

/-- The nodes exchange their envelopes. -/
theorem Mem.handOver_owned_swap {me who : NodeId} {w : ℕ} {o : Offer} (hne : me ≠ who) :
    (m.handOver me who w o).owned = m.owned ∘ Equiv.swap me who := by
  funext n
  simp only [Mem.handOver_owned, Function.comp_apply, Equiv.swap_apply_def]
  by_cases h₁ : n = me
  · simp [h₁]
  · by_cases h₂ : n = who
    · subst h₂
      simp [h₁]
    · simp [h₁, h₂]

theorem Mem.Posted.handOver {me who : NodeId} {w : ℕ} {o : Offer} (h : m.Posted) (hne : me ≠ who)
    (hme : me < m.nodeCount) (hwho : who < m.nodeCount) : (m.handOver me who w o).Posted := by
  constructor
  · rw [Mem.handOver_owned_swap hne]
    exact h.injective.comp (Equiv.injective _)
  · intro n hn
    have hn' : m.nodeCount ≤ n := hn
    have h₁ : n ≠ me := (lt_of_lt_of_le hme hn').ne'
    have h₂ : n ≠ who := (lt_of_lt_of_le hwho hn').ne'
    simpa [h₁, h₂] using h.fresh n hn'

theorem Clause.posted {a : Active} {o : Out} (h : Clause cfg tls m a o) (hok : a.Ok cfg tls)
    (hp : m.Posted) (hc : ∀ n ∈ tls.head.nodes + a.nodes, n < m.nodeCount)
    (hg : ∀ n, tag (m.control n) = genTag → n < m.nodeCount) : o.mem.Posted := by
  cases h with
  | get h =>
    cases h with
    | create => exact hp.of_eq rfl (Nat.le_succ _)
    | _ => exact hp.of_eq rfl le_rfl
  | cooldown h | cas h | dec h | intoInner h | dropGuard h | load h =>
    cases h <;> exact hp.of_eq rfl le_rfl
  | swap => exact hp.of_eq rfl le_rfl
  | payAll h =>
    cases h with
    | helpCas h =>
      obtain ⟨-, ⟨hs, hne, ht⟩, -⟩ := hok
      exact hp.handOver hne (hc _ hs.mem) (hg _ (h ▸ ht))
    | _ => exact hp.of_eq rfl le_rfl

/-- What a step does to the envelope that a node offers: it is on its way, it is the envelope that
the node owns, or it is as it was. -/
theorem Clause.spaces {a : Active} {o : Out} {n : NodeId} (h : Clause cfg tls m a o)
    (hok : a.Ok cfg tls) (hh : a.Handing cfg m) (hk : a.NodeOk cfg m) (hp : m.Posted)
    (hn : n < o.mem.nodeCount) (hr : ∀ w, o.active ≠ .failed w)
    (ht : tag (o.mem.control n) ≠ replacementTag) (ha : ¬ o.active.Away n) :
    o.mem.spaceOffer n = o.mem.space n ∨ (n < m.nodeCount ∧ tag (m.control n) ≠ replacementTag ∧
      ¬ a.Away n ∧ o.mem.spaceOffer n = m.spaceOffer n ∧ o.mem.space n = m.space n) := by
  have hidle : tag idle ≠ replacementTag := by decide
  cases h with
  | get h =>
    cases h with
    | create =>
      by_cases hnew : n = m.nodeCount
      · subst hnew
        left
        simp [Mem.space, hp.fresh _ le_rfl]
      · have hlt : n < m.nodeCount := by
          have : n < m.nodeCount + 1 := hn
          exact lt_of_le_of_ne (Nat.lt_succ_iff.mp this) hnew
        exact .inr ⟨hlt, ht, id, by simp [hnew], rfl⟩
    | _ => exact .inr ⟨hn, ht, id, rfl, rfl⟩
  | cooldown h | cas h | dec h | intoInner h | dropGuard h =>
    cases h <;> exact .inr ⟨hn, ht, id, rfl, rfl⟩
  | swap => exact .inr ⟨hn, ht, id, rfl, rfl⟩
  | load h =>
    cases h with
    | publishFull | closeInvalid | noNode | notUsed => simp at hr
    | @publishGen n' gen hc | @discard n' hc =>
      refine .inr ⟨hn, ?_, id, rfl, rfl⟩
      by_cases hw : n = n'
      · rw [hw, hc]
        exact hidle
      · simpa [hw] using ht
    | @closeControl n' gen p hc =>
      refine .inr ⟨hn, ?_, id, rfl, rfl⟩
      by_cases hw : n = n'
      · rw [hw, hc, hok.2.2.tag_genWord]
        decide
      · simpa [hw] using ht
    | @closeReplaced n' =>
      have hw : n ≠ n' := fun he => ha he.symm
      exact .inr ⟨hn, by simpa [hw] using ht, id, rfl, rfl⟩
    | takeEnvelope => exact .inr ⟨hn, ht, ha, rfl, rfl⟩
    | @keepEnvelope n' =>
      by_cases hw : n = n'
      · subst hw
        exact .inl ((Function.update_self _ _ _).trans hh)
      · exact .inr ⟨hn, ht, Ne.symm hw, by simp [hw], rfl⟩
    | _ => exact .inr ⟨hn, ht, id, rfl, rfl⟩
  | payAll h =>
    cases h with
    | @helpCas me who c q theirs mine h =>
      have hme : n ≠ me := fun he => ha he.symm
      have hwho : n ≠ who := by
        rintro rfl
        refine ht ?_
        simpa using hok.2.2.2.2.tag_replacementWord
      exact .inr ⟨hn, by simpa [hwho] using ht, id, rfl, by simp [Mem.space, hme, hwho]⟩
    | @helpTake me =>
      by_cases hw : n = me
      · subst hw
        exact .inl ((Function.update_self _ _ _).trans hh)
      · exact .inr ⟨hn, ht, Ne.symm hw, by simp [hw], rfl⟩
    | _ => exact .inr ⟨hn, ht, id, rfl, rfl⟩

/-! ## Offers -/

theorem Active.Publishes.receives {a : Active} {n : NodeId} (h : a.Publishes n) : a.Receives n := by
  cases a with
  | load f pc => cases pc <;> simp_all [Active.Publishes, Active.Receives]
  | _ => exact h.elim

theorem Active.Publishes.not_away {a : Active} {n : NodeId} (h : a.Publishes n) : ¬ a.Away n := by
  cases a with
  | load f pc => cases pc <;> simp_all [Active.Publishes, Active.Away]
  | _ => exact h.elim

theorem Active.Publishes.opened_le {a : Active} {n : NodeId} (h : a.Publishes n)
    (hn : a.NodeOk cfg m) (hh : a.Handing cfg m) : m.opened n ≤ m.now (m.activeAddr n) := by
  cases a with
  | load f pc =>
    cases pc <;> simp only [Active.Publishes] at h
    case closeControl =>
      subst h
      rw [hn.1.1]
      exact hh.opened
    all_goals
      subst h
      rw [hn.1]
      exact hh.opened
  | _ => exact h.elim

/-- A transaction whose generation has not been replaced has not been given anything. -/
theorem Active.Publishes.offer_open {a : Active} {n : NodeId} (h : a.Publishes n)
    (hn : a.NodeOk cfg m) (hh : a.Handing cfg m) (hg : tag (m.control n) = genTag) :
    m.offer n = none := by
  have key : ∀ {f gen}, m.Published n f.storage gen → m.Receiving cfg f n gen →
      m.offer n = none := by
    intro f gen hp hr
    refine hr.open_ (hp.2.resolve_right fun ht => ?_)
    rw [ht] at hg
    exact absurd hg (by decide)
  cases a with
  | load f pc =>
    cases pc <;> simp only [Active.Publishes] at h
    case closeControl =>
      subst h
      exact key hn.1 hh
    all_goals
      subst h
      exact key hn hh
  | _ => exact h.elim

/-- A function that receives replacements runs on its own node. -/
theorem Active.Ok.receives_mem {a : Active} {n : NodeId} (hok : a.Ok cfg tls)
    (hp : a.Receives n) : n ∈ tls.head.nodes + a.nodes := by
  cases a with
  | load f pc =>
    cases pc <;> simp only [Active.Receives] at hp
    all_goals
      subst hp
      exact hok.2.1.mem
  | _ => exact hp.elim

/-- A function that has got an envelope has got it for its own node. -/
theorem Active.Ok.away_mem {a : Active} {n : NodeId} (hok : a.Ok cfg tls)
    (hp : a.Away n) : n ∈ tls.head.nodes + a.nodes := by
  cases a with
  | load f pc =>
    cases pc <;> simp only [Active.Away] at hp
    all_goals
      subst hp
      exact hok.2.1.mem
  | payAll f pc =>
    cases pc <;> simp only [Active.Away] at hp
    subst hp
    exact ScopeIs.mem hok.2.1
  | _ => exact hp.elim

/-- A replacement has a receiver: it stays with the one it had, or it is handed over to a
transaction that is open. -/
theorem Clause.offered {a : Active} {o : Out} {n : NodeId} (h : Clause cfg tls m a o)
    (hok : a.Ok cfg tls) (hh : a.Handing cfg m) (hr : ∀ w, o.active ≠ .failed w)
    (hn : o.mem.offer n ≠ none) :
    o.active.Receives n ∨ (m.offer n ≠ none ∧ ¬ a.Receives n) ∨
      (tag (m.control n) = genTag ∧ ¬ a.Publishes n) := by
  cases h with
  | get h | cooldown h | cas h | dec h | intoInner h | dropGuard h =>
    cases h <;> exact .inr (.inl ⟨hn, id⟩)
  | swap => exact .inr (.inl ⟨hn, id⟩)
  | load h =>
    cases h with
    | publishFull | closeInvalid | offerFull | noNode | notUsed => simp at hr
    | @candidate n' | @offerDebt n' | @closeReplaced n' =>
      by_cases hw : n' = n
      · exact .inl hw
      · exact .inr (.inl ⟨hn, hw⟩)
    | @confirmHelping n₁ n' gen p h =>
      obtain rfl : n₁ = n' := by
        have := hok.2.1.symm.trans h
        simpa using this
      by_cases hw : n₁ = n
      · exact .inl hw
      · exact .inr (.inl ⟨hn, hw⟩)
    | @closeControl n' gen p hc =>
      have hw : n' ≠ n := by
        rintro rfl
        exact hn (hh.open_ hc)
      exact .inr (.inl ⟨hn, hw⟩)
    | @takeEnvelope n' =>
      have hw : n ≠ n' := by
        rintro rfl
        simp at hn
      exact .inr (.inl ⟨by simpa [hw] using hn, hw.symm⟩)
    | _ => exact .inr (.inl ⟨hn, id⟩)
  | payAll h =>
    cases h with
    | @helpCas me who c q theirs mine h =>
      by_cases hw : n = who
      · subst hw
        exact .inr (.inr ⟨h ▸ hok.2.1.2.2, id⟩)
      · exact .inr (.inl ⟨by simpa [hw] using hn, id⟩)
    | _ => exact .inr (.inl ⟨hn, id⟩)

/-! ## The logs grow -/

theorem Mem.setPtr_prefix (m : Mem) (s : StorageId) (p : Addr) (call : ℕ) (x : StorageId) :
    m.log x <+: (m.setPtr s p call).log x := by
  rw [Mem.setPtr_log]
  by_cases h : x = s
  · subst h
    simp
  · simp [h]

theorem Clause.log_prefix {a : Active} {o : Out} (h : Clause cfg tls m a o) (x : StorageId) :
    m.log x <+: o.mem.log x := by
  cases h with
  | get h | cooldown h | dec h | intoInner h | dropGuard h | load h | payAll h =>
    cases h <;> exact List.prefix_rfl
  | swap => exact m.setPtr_prefix _ _ _ x
  | cas h =>
    cases h with
    | swapped => exact m.setPtr_prefix _ _ _ x
    | late => exact List.prefix_rfl

section Run

variable {T : Type*} {s s' : State T} {t : T} {th' : Thread} {o' : Multiset Ref}
  {g' : Multiset Guard}

theorem UserClause.log_prefix {u : UserKind} (h : UserClause cfg s t u m' th' o' g')
    (x : StorageId) : s.mem.log x <+: m'.log x := by
  cases h with
  | new => exact Mem.setPtr_prefix s.mem.newCall _ _ _ x
  | _ => exact List.prefix_rfl

/-- **What a storage has held stays in its log.** -/
theorem Move.log_prefix (h : Move cfg s t m' th' o' g') (x : StorageId) :
    s.mem.log x <+: m'.log x := by
  cases h with
  | code h => exact h.log_prefix x
  | resume _ _ h => rw [h.mem_eq]
  | receive => exact List.prefix_rfl
  | user _ h => exact h.log_prefix x

theorem Move.now_le (h : Move cfg s t m' th' o' g') (x : StorageId) :
    s.mem.now x ≤ m'.now x :=
  Nat.sub_le_sub_right (h.log_prefix x).length_le 1

/-! ## One step -/

/-- User code does not touch the transactions. -/
theorem UserClause.transactions {u : UserKind} (h : UserClause cfg s t u m' th' o' g') :
    m'.opened = s.mem.opened ∧ m'.owned = s.mem.owned ∧ m'.offer = s.mem.offer ∧
      m'.handover = s.mem.handover := by
  cases h <;> exact ⟨rfl, rfl, rfl, rfl⟩

theorem UserClause.kept {u : UserKind} (h : UserClause cfg s t u m' th' o' g') (n : NodeId) :
    Kept s.mem m' n := by
  obtain ⟨-, h₁, h₂, h₃, -, -⟩ := h.frame
  obtain ⟨h₄, h₅, h₆, h₇⟩ := h.transactions
  exact .of_eq h₁ h₂ h₄ h₃ h₅ h₆ h₇

/-- A step leaves the transaction of a node that the thread does not own as it is, or it hands over
a replacement to it. -/
theorem Move.hands {n : NodeId} (h : Move cfg s t m' th' o' g') (ht : (s.thread t).Typed cfg)
    (hh : (s.thread t).active.Handing cfg s.mem) (hinj : Function.Injective s.mem.owned)
    (hn : n ∉ (s.thread t).nodes) (hc : n < s.mem.nodeCount) :
    Kept s.mem m' n ∨ ∃ x, Handed cfg s.mem m' n x := by
  cases h with
  | code h => exact h.hands ht.active hh hinj (fun hn' => hn (Multiset.mem_add.mpr (.inl hn'))) hc
  | resume _ _ h => rw [h.mem_eq]; exact .inl (.of_eq rfl rfl rfl rfl rfl rfl rfl)
  | receive => exact .inl (.of_eq rfl rfl rfl rfl rfl rfl rfl)
  | user _ h => exact .inl (h.kept n)

/-- A generation that the step has not published belongs to the transaction it has belonged to. -/
theorem Move.watched {n : NodeId} {c : ℕ} (h : Move cfg s t m' th' o' g')
    (ht : (s.thread t).Typed cfg) (hg : tag c = genTag) (hi : ¬ (s.thread t).active.Issues n c)
    (hidle : ∀ k ∈ (s.thread t).nodes, s.mem.control k ≠ idle → (s.thread t).active.Publishes k)
    (hc : s.mem.control n ≠ idle → n < s.mem.nodeCount) (hn : m'.control n = c) :
    Watched s.mem m' n := by
  cases h with
  | code h =>
    exact h.watched ht.active hg hi (fun k hk => hidle k (Multiset.mem_add.mpr (.inl hk))) hc hn
  | resume _ _ h => rw [h.mem_eq]; exact ⟨rfl, rfl, rfl, rfl⟩
  | receive => exact ⟨rfl, rfl, rfl, rfl⟩
  | user _ h =>
    obtain ⟨hk₁, hk₂, hk₃, hk₄, -⟩ := h.kept n
    exact ⟨hk₁.symm, hk₂, hk₃, hk₄⟩

theorem Cont.Handing.other {k : Cont} (hh : k.Handing m) (hok : k.Ok cfg tls)
    (hw : ∀ n c, k.Watches n c → tag c = genTag → m'.control n = c → Watched m m' n) :
    k.Handing m' := by
  cases k with
  | helpReplacement f me who c => exact hh.watched (hw who c ⟨rfl, rfl⟩ hok.2.2.2)
  | _ => trivial

theorem Resumed.handing {k : Cont} {r : Ret} {o : Out} (h : Resumed cfg tls m k r o)
    (hh : k.Handing m) (hok : k.Ok cfg tls) :
    o.active.Handing cfg o.mem ∧ ∀ k ∈ o.calls, k.Handing o.mem := by
  cases h with
  | discard => exact hok.elim
  | loadNode | loadTmp => exact ⟨LoadFrame.begin_handing _, by simp⟩
  | helpReplacement => exact ⟨hh, by simp⟩
  | helpRetry h => exact ⟨h.handing, by simp⟩
  | _ => exact ⟨trivial, by simp [Cont.Handing]⟩

theorem Thread.forall_calling {th : Thread} {u : UserKind} {c : Call} {P : Cont → Prop}
    (hc : ∀ k ∈ c.calls, P k) (hu : P (.user u c.contract)) (hk : ∀ k ∈ th.conts, P k) :
    ∀ k ∈ (th.calling u c).conts, P k := by
  intro k h
  simp only [Thread.calling, List.mem_append, List.mem_cons] at h
  rcases h with h | rfl | h
  · exact hc k h
  · exact hu
  · exact hk k h

theorem UserClause.handing {u : UserKind} (h : UserClause cfg s t u m' th' o' g')
    (ha : (s.thread t).active = .user u) (hc : ∀ k ∈ (s.thread t).conts, k.Handing m') :
    th'.active.Handing cfg m' ∧ ∀ k ∈ th'.conts, k.Handing m' := by
  cases h with
  | alloc | clone | fromInner | new | exitEmpty => exact ⟨by rw [ha]; trivial, hc⟩
  | exit => exact ⟨trivial, by simp [Cont.Handing]⟩
  | destroyed | result | panic => exact ⟨trivial, hc⟩
  | _ =>
    refine ⟨trivial, Thread.forall_calling ?_ trivial hc⟩
    simp [SwapFrame.invoke, CasFrame.invoke, RcuFrame.invoke, Cont.Handing]

theorem Move.spaces {n : NodeId} (h : Move cfg s t m' th' o' g') (ht : (s.thread t).Typed cfg)
    (hh : (s.thread t).active.Handing cfg s.mem) (hk : (s.thread t).active.NodeOk cfg s.mem)
    (hp : s.mem.Posted) (hn : n < m'.nodeCount) (hr : ∀ w, th'.active ≠ .failed w)
    (hg : tag (m'.control n) ≠ replacementTag) (ha : ¬ th'.active.Away n) :
    m'.spaceOffer n = m'.space n ∨ (n < s.mem.nodeCount ∧
      tag (s.mem.control n) ≠ replacementTag ∧ ¬ (s.thread t).active.Away n ∧
      m'.spaceOffer n = s.mem.spaceOffer n ∧ m'.space n = s.mem.space n) := by
  cases h with
  | code h => exact h.spaces ht.active hh hk hp hn hr hg ha
  | resume ha' _ h =>
    rw [h.mem_eq] at hn hg ⊢
    exact .inr ⟨hn, hg, by rw [ha']; exact id, rfl, rfl⟩
  | receive ha' => exact .inr ⟨hn, hg, by rw [ha']; exact id, rfl, rfl⟩
  | user ha' h =>
    obtain ⟨-, h₁, -, h₂, -, h₃⟩ := h.frame
    obtain ⟨-, h₄, -⟩ := h.transactions
    rw [h₃] at hn
    rw [h₁] at hg
    exact .inr ⟨hn, hg, by rw [ha']; exact id, by rw [h₂], by rw [Mem.space, Mem.space, h₄]⟩

theorem Move.offered {n : NodeId} (h : Move cfg s t m' th' o' g') (ht : (s.thread t).Typed cfg)
    (hh : (s.thread t).active.Handing cfg s.mem) (hr : ∀ w, th'.active ≠ .failed w)
    (hn : m'.offer n ≠ none) :
    th'.active.Receives n ∨ (s.mem.offer n ≠ none ∧ ¬ (s.thread t).active.Receives n) ∨
      (tag (s.mem.control n) = genTag ∧ ¬ (s.thread t).active.Publishes n) := by
  cases h with
  | code h => exact h.offered ht.active hh hr hn
  | resume ha _ h =>
    rw [h.mem_eq] at hn
    exact .inr (.inl ⟨hn, by rw [ha]; exact id⟩)
  | receive ha => exact .inr (.inl ⟨hn, by rw [ha]; exact id⟩)
  | user ha h =>
    rw [h.transactions.2.2.1] at hn
    exact .inr (.inl ⟨hn, by rw [ha]; exact id⟩)

theorem Move.posted (h : Move cfg s t m' th' o' g') (ht : (s.thread t).Typed cfg)
    (hp : s.mem.Posted) (hc : ∀ n ∈ (s.thread t).nodes, n < s.mem.nodeCount)
    (hg : ∀ n, tag (s.mem.control n) = genTag → n < s.mem.nodeCount) : m'.Posted := by
  cases h with
  | code h => exact h.posted ht.active hp (fun n hn => hc n (Multiset.mem_add.mpr (.inl hn))) hg
  | resume _ _ h => rwa [h.mem_eq]
  | receive => exact hp
  | user _ h => exact hp.of_eq h.transactions.2.1 h.frame.2.2.2.2.2.ge

/-! ## Handing over in a run -/

/-- What the threads know of the replacements on their way is true. -/
structure State.Handing (cfg : Config) (s : State T) : Prop where
  active : ∀ t, (s.thread t).active.Handing cfg s.mem
  conts : ∀ t, ∀ k ∈ (s.thread t).conts, k.Handing s.mem
  posted : s.mem.Posted
  space : ∀ n < s.mem.nodeCount, tag (s.mem.control n) ≠ replacementTag →
    (∀ t, ¬ (s.thread t).active.Away n) → s.mem.spaceOffer n = s.mem.space n
  offers : ∀ n, s.mem.offer n ≠ none → ∃ t, (s.thread t).active.Receives n

theorem State.init_handing : (State.init : State T).Handing cfg where
  active _ := trivial
  conts _ := by simp [State.init, Thread.idle]
  posted := ⟨Function.injective_id, fun _ _ => rfl⟩
  space n hn := absurd hn (Nat.not_lt_zero n)
  offers n hn := absurd rfl hn

variable [Fintype T] {n : NodeId}

namespace State.Sound

theorem lt_nodeCount (h : s.Sound cfg) (hn : n ∈ (s.thread t).nodes) : n < s.mem.nodeCount := by
  by_contra hle
  have hu := h.owned.fresh n (not_lt.mp hle)
  rw [h.inUse hn] at hu
  exact absurd hu (by simp)

theorem control_lt (h : s.Sound cfg) (hc : s.mem.control n ≠ idle) : n < s.mem.nodeCount := by
  obtain ⟨t, ht⟩ := h.publishes n hc
  exact h.lt_nodeCount (mem_nodes ((h.typed t).active.publishes_mem ht))

end State.Sound

/-- A published transaction was opened before now. -/
theorem State.Handing.opened_le (hh : s.Handing cfg) (h : s.Sound cfg)
    (hc : s.mem.control n ≠ idle) : s.mem.opened n ≤ s.mem.now (s.mem.activeAddr n) := by
  obtain ⟨t, ht⟩ := h.publishes n hc
  exact ht.opened_le (h.nodeOk t) (hh.active t)

variable [DecidableEq T]

/-- The control of an own node in which nothing is published is `IDLE`. -/
theorem State.Sound.control_idle (h : s.Sound cfg) (hn : n ∈ (s.thread t).nodes)
    (hp : ¬ (s.thread t).active.Publishes n) : s.mem.control n = idle :=
  by_contra fun hc => hp (h.publishes_self hn hc)

/-- A generation is published, and the load goes on. -/
theorem State.Sound.publish {f : LoadFrame} {gen : ℕ} {c : Choice} (h : s.Sound cfg)
    (ha : (s.thread t).active = .load f (.publishGen n gen)) (hg : gen ≠ 0)
    (hs : s.step cfg t c = some s') : (s'.thread t).active = .load f (.candidate n gen) ∧
      (s'.thread t).conts = (s.thread t).conts ∧ s'.mem.control n = genWord gen := by
  have hn : n ∈ (s.thread t).nodes := by
    have hok := (h.typed t).active
    have hmem : n ∈ (s.thread t).tls.head.nodes + (s.thread t).active.nodes := by
      rw [ha] at hok ⊢
      exact hok.2.1.mem
    exact mem_nodes hmem
  have hidle := h.control_idle hn (by rw [ha]; exact id)
  obtain ⟨o, ho, rfl⟩ := State.step_clause hs (by rw [ha]; trivial)
  rw [ha] at ho
  cases ho with
  | load ho =>
    cases ho with
    | publishGen => simp [State.moved, Thread.after]
    | discard => exact absurd rfl hg
    | publishFull hc => exact absurd hidle hc
    | noNode hpc => exact hpc.elim
    | notUsed hpc => exact hpc.elim

namespace State.Handing

/-- The envelope that a node offers is its own one, unless another is on its way to it. -/
theorem space_self (hh : s.Handing cfg) (h : s.Sound cfg) (hn : n ∈ (s.thread t).nodes)
    (hp : ¬ (s.thread t).active.Publishes n) (ha : ¬ (s.thread t).active.Away n) :
    s.mem.spaceOffer n = s.mem.space n := by
  refine hh.space n (h.lt_nodeCount hn) (by rw [h.control_idle hn hp]; decide) fun t' ht' => ?_
  obtain rfl := h.owner_unique hn (Sound.mem_nodes ((h.typed t').active.away_mem ht'))
  exact ha ht'

/-- The envelope that a node offers while a generation is published is its own one. -/
theorem space_open (hh : s.Handing cfg) (h : s.Sound cfg)
    (hc : tag (s.mem.control n) = genTag) : s.mem.spaceOffer n = s.mem.space n := by
  have hne : s.mem.control n ≠ idle := by
    intro hi
    rw [hi] at hc
    exact absurd hc (by decide)
  obtain ⟨t, ht⟩ := h.publishes n hne
  have hn := Sound.mem_nodes ((h.typed t).active.publishes_mem ht)
  refine hh.space n (h.lt_nodeCount hn) (by rw [hc]; decide) fun t' ht' => ?_
  obtain rfl := h.owner_unique hn (Sound.mem_nodes ((h.typed t').active.away_mem ht'))
  exact ht.not_away ht'

/-- A replacement on an own node is received by the owner. -/
theorem offers_self (hh : s.Handing cfg) (h : s.Sound cfg) (hn : n ∈ (s.thread t).nodes)
    (ho : s.mem.offer n ≠ none) : (s.thread t).active.Receives n := by
  obtain ⟨t', ht'⟩ := hh.offers n ho
  rwa [← h.owner_unique hn (Sound.mem_nodes ((h.typed t').active.receives_mem ht'))]

end State.Handing

namespace State.Handing

/-- **Handing over stays sound** in every step that neither wraps a generation around nor publishes
one that a writer watches. -/
theorem step {c : Choice} (hh : s.Handing cfg) (h : s.Sound cfg) (hw : s.NoWrap t)
    (hi : s.NoReissue t) (hs : s.step cfg t c = some s') : s'.Handing cfg := by
  have hrun' := (h.step hw hs).running t
  obtain ⟨m', th', o', g', hm, rfl⟩ := State.step_move hs
  have hrun : ∀ w, th'.active ≠ .failed w := by simpa [State.moved] using hrun'
  have ht := h.typed t
  have hwatched : ∀ t' n c, (s.thread t').Watches n c → tag c = genTag → m'.control n = c →
      Watched s.mem m' n := fun t' n c hn hg =>
    hm.watched ht hg (fun hi' => hi n c hi' t' hn) (fun _ hk => h.publishes_self hk)
      (fun hc => h.control_lt hc)
  have hconts : ∀ t', ∀ k ∈ (s.thread t').conts, k.Handing m' := fun t' k hk =>
    (hh.conts t' k hk).other ((h.typed t').conts k hk) fun n c hn =>
      hwatched t' n c (.inr ⟨k, hk, hn⟩)
  have hact : th'.active.Handing cfg m' ∧ ∀ k ∈ th'.conts, k.Handing m' := by
    refine hm.frames (hconts t) (fun o ho hc => ho ▸ ?_) (fun c r k o ho _ hk hr => ho ▸ ?_)
      (fun _ => trivial) fun u ha hu => hu.handing ha (hconts t)
    · exact hc.handing ht.active (h.nodeOk t) (hh.active t)
        (fun n hn => hh.space_self h (Sound.mem_nodes hn)) (fun n => hh.space_open h)
        (fun n hn => hh.offers_self h (Sound.mem_nodes hn)) (fun n => hh.opened_le h)
    · have hmem := List.mem_of_mem_head? hk
      exact hr.handing (hh.conts t k hmem) (ht.conts k hmem)
  have hother : ∀ t' ≠ t, ∀ n ∈ (s.thread t').nodes, n ∉ (s.thread t).nodes :=
    fun t' hne n hn hn' => hne (h.owner_unique hn' hn)
  refine
    { active := State.moved_forall (P := fun th => th.active.Handing cfg m') hact.1 fun t' hne => ?_
      conts := State.moved_forall
        (P := fun th => ∀ k ∈ th.conts, k.Handing m') hact.2 fun t' _ => hconts t'
      posted := ?_
      space := ?_
      offers := ?_ }
  case refine_1 =>
    refine (hh.active t').other (h.typed t') (h.nodeOk t')
      (fun n hn hp => h.control_idle hn hp) (fun n hn => ?_) (fun n c hn => ?_) hm.now_le
    · exact hm.hands ht (hh.active t) hh.posted.injective (hother t' hne n hn) (h.lt_nodeCount hn)
    · exact hwatched t' n c (.inl hn)
  case refine_2 =>
    refine hm.posted ht hh.posted (fun n hn => h.lt_nodeCount hn) fun n hg => h.control_lt ?_
    intro hi
    rw [hi] at hg
    exact absurd hg (by decide)
  case refine_3 =>
    intro n hn hg ha
    have ha' : ∀ t', ¬ (Function.update s.thread t th' t').active.Away n := ha
    have hself : ¬ th'.active.Away n := by simpa using ha' t
    obtain he | ⟨h₁, h₂, h₃, h₄, h₅⟩ :=
      hm.spaces ht (hh.active t) (h.nodeOk t) hh.posted hn hrun hg hself
    · exact he
    · refine h₄.trans ((hh.space n h₁ h₂ fun t' => ?_).trans h₅.symm)
      by_cases hne : t' = t
      · exact hne ▸ h₃
      · simpa [hne] using ha' t'
  case refine_4 =>
    intro n hn
    obtain hr | ⟨ho, hr⟩ | ⟨hg, hr⟩ := hm.offered ht (hh.active t) hrun hn
    · exact ⟨t, by simpa [State.moved] using hr⟩
    · obtain ⟨t', ht'⟩ := hh.offers n ho
      have hne : t' ≠ t := fun he => hr (he ▸ ht')
      exact ⟨t', by simpa [State.moved, hne] using ht'⟩
    · have hc : s.mem.control n ≠ idle := by
        intro hi
        rw [hi] at hg
        exact absurd hg (by decide)
      obtain ⟨t', ht'⟩ := h.publishes n hc
      have hne : t' ≠ t := fun he => hr (he ▸ ht')
      exact ⟨t', by simpa [State.moved, hne] using ht'.receives⟩

end State.Handing

/-- No generation is used a second time in this step, neither after the counter of the thread has
wrapped around nor while a writer in `help` watches it. -/
def State.FreshGen (s : State T) (t : T) : Prop := s.NoWrap t ∧ s.NoReissue t

instance (s : State T) (t : T) : Decidable (s.FreshGen t) := inferInstanceAs (Decidable (_ ∧ _))

/-- **Handing over is sound in every reachable state** when no generation is used a second time. -/
theorem State.Reachable.handing (h : s.Reachable cfg State.FreshGen) :
    s.Sound cfg ∧ s.Handing cfg :=
  h.invariant (I := fun s => s.Sound cfg ∧ s.Handing cfg)
    ⟨init_sound, init_handing⟩ fun _ _ _ _ hi hp hs =>
    ⟨hi.1.step hp.1 hs, hi.2.step hi.1 hp.1 hp.2 hs⟩

end Run

/-! ## A sample run -/

/-- Words of 64 bits and storages of `Arc`s; fast slots are used for the storage `0` only. -/
def Config.sample : Config := ⟨64, by decide, fun _ => .arc, fun x => decide (x = 0)⟩

/-- The thread `1` loads from the storage `0` and then from the storage `1`, the thread `0` writes
to each of them: it pays a debt in the first one, and it helps the reader in the second one. -/
def sampleSchedule : List (Fin 2 × Choice) :=
  [(0, .op (.alloc 1)), (0, .op (.new 0 1)), (1, .op (.load 0))] ++ goOn 1 13 ++
  [(0, .op (.alloc 2)), (0, .op (.swap 0 2))] ++ goOn 0 49 ++
  [(0, .op (.alloc 3)), (0, .op (.new 1 3)), (0, .op (.alloc 4)), (1, .op (.load 1))] ++
  goOn 1 5 ++ [(0, .op (.swap 1 4))] ++ goOn 0 62 ++ goOn 1 8

theorem sampleSchedule_isSome :
    (State.play .sample State.FreshGen .init sampleSchedule).isSome := by
  decide +kernel

/-- The state after `k` steps of the schedule. -/
def State.sample (k : ℕ) : State (Fin 2) := Guarded.after sampleSchedule_isSome k

theorem State.sample_reachable (k : ℕ) : (State.sample k).Reachable .sample State.FreshGen :=
  Guarded.after_reachable sampleSchedule_isSome k

/-- The run from the `k`-th state of the sample on. -/
theorem State.sample_run (k l : ℕ) :
    State.Run .sample State.FreshGen (State.sample k) (State.sample (k + l)) :=
  Guarded.after_run sampleSchedule_isSome k l

/-- The same when its steps meet a stronger condition. -/
theorem State.sample_run_of {k l : ℕ} {P : State (Fin 2) → Fin 2 → Prop} [∀ s t, Decidable (P s t)]
    (hp : ∀ s t, P s t → s.FreshGen t)
    (h : (State.play .sample P (State.sample k) ((sampleSchedule.drop k).take l)).isSome) :
    State.Run .sample P (State.sample k) (State.sample (k + l)) :=
  Guarded.after_run_of (Q := fun s (a : Fin 2 × Choice) => P s a.1) (fun s a => hp s a.1)
    sampleSchedule_isSome h

/-- The `k`-th step of the schedule. -/
theorem State.sample_step {k : ℕ} {t : Fin 2} {c : Choice} (h : sampleSchedule[k]? = some (t, c)) :
    (State.sample k).step .sample t c = some (State.sample (k + 1)) :=
  Guarded.after_step sampleSchedule_isSome h

end ArcSwap
