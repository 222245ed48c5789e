import ArcSwap.Invariants.Sound

/-!
# Handing over replacements

A helper has read a generation in the control of another node. As long as the control still holds
it, the transaction is the same, and what the helper has read of it is true; no generation that a
helper watches is published again. Every node owns one envelope, and the nodes exchange their
envelopes when a replacement is handed over: nobody writes into an envelope that is on its way.
-/

namespace ArcSwap

variable {cfg : Config} {tls : Tls} {m m' : Mem}

/-! ## Watched generations -/

/-- The function has read the word in the control of the node and may exchange it. -/
def Active.Watches (n : NodeId) (w : ℕ) : Active → Prop
  | .payAll _ (.helpAddr _ who c) | .payAll _ (.helpRecheck _ who c)
  | .payAll _ (.helpTheirs _ who c _) | .payAll _ (.helpMine _ who c _ _)
  | .payAll _ (.helpWrite _ who c _ _ _) | .payAll _ (.helpCas _ who c _ _ _) => who = n ∧ c = w
  | _ => False

/-- The suspended caller has read the word in the control of the node and may exchange it. -/
def Cont.Watches (n : NodeId) (w : ℕ) : Cont → Prop
  | .helpReplacement _ _ who c | .helpRetry _ _ who c => who = n ∧ c = w
  | _ => False

/-- The thread is in `help` on the node with the word that it has read from the control. -/
def Thread.Watches (th : Thread) (n : NodeId) (w : ℕ) : Prop :=
  th.active.Watches n w ∨ ∃ k ∈ th.conts, k.Watches n w

instance (a : Active) (n : NodeId) (w : ℕ) : Decidable (a.Watches n w) := by
  unfold Active.Watches
  split <;> infer_instance

instance (k : Cont) (n : NodeId) (w : ℕ) : Decidable (k.Watches n w) := by
  unfold Cont.Watches
  split <;> infer_instance

instance (th : Thread) (n : NodeId) (w : ℕ) : Decidable (th.Watches n w) :=
  inferInstanceAs (Decidable (_ ∨ _))

/-- The function publishes the word in the control of the node next. -/
def Active.Issues (n : NodeId) (w : ℕ) : Active → Prop
  | .load _ (.publishGen n' gen) => n' = n ∧ genWord gen = w
  | _ => False

/-- The step does not publish a generation that a writer in `help` has read from that control. -/
def State.NoReissue {T : Type*} (s : State T) (t : T) : Prop :=
  ∀ n w, (s.thread t).active.Issues n w → ∀ t', ¬ (s.thread t').Watches n w

/-- The node and the word that the function publishes next. -/
def Active.issues? : Active → Option (NodeId × ℕ)
  | .load _ (.publishGen n gen) => some (n, genWord gen)
  | _ => none

theorem Active.issues_iff {a : Active} {n : NodeId} {w : ℕ} :
    a.Issues n w ↔ a.issues? = some (n, w) := by
  cases a with
  | load f pc => cases pc <;> simp [Active.Issues, Active.issues?]
  | _ => simp [Active.Issues, Active.issues?]

theorem State.noReissue_iff {T : Type*} {s : State T} {t : T} :
    s.NoReissue t ↔ ∀ x ∈ (s.thread t).active.issues?, ∀ t', ¬ (s.thread t').Watches x.1 x.2 := by
  simp only [State.NoReissue, Active.issues_iff, Option.mem_def, Prod.forall]

instance {T : Type*} [Fintype T] (s : State T) (t : T) : Decidable (s.NoReissue t) :=
  decidable_of_iff _ State.noReissue_iff.symm

/-! ## What helpers and readers know -/

/-- What a helper knows of a transaction with the word `c` after it has checked its address. -/
def Mem.Helping (m : Mem) (f : PayFrame) (who : NodeId) (c : ℕ) : Prop :=
  m.control who = c → m.activeAddr who = f.storage ∧ m.opened who ≤ f.since

/-- What a helper knows of the envelope that it will get in return. -/
def Mem.Theirs (m : Mem) (who : NodeId) (c theirs : ℕ) : Prop :=
  m.control who = c → theirs = m.spaceOffer who

/-- The address of the envelope that a node owns. -/
def Mem.space (m : Mem) (n : NodeId) : ℕ := handoverAddr (m.owned n)

/-- The offer is for the transaction of `f` with the generation `gen`, and its value is in the
envelope that the node owns. -/
structure Offer.For (cfg : Config) (m : Mem) (f : LoadFrame) (n : NodeId) (gen : ℕ) (o : Offer) :
    Prop where
  word : o.word = genWord gen
  storage : o.storage = f.storage
  kind : o.value.kind = cfg.kind f.storage
  since : m.opened n ≤ o.since
  content : m.handover (m.owned n) = o.value.addr

/-- What a reader knows of its published transaction. -/
structure Mem.Receiving (cfg : Config) (m : Mem) (f : LoadFrame) (n : NodeId) (gen : ℕ) : Prop where
  opened : m.opened n ≤ m.now f.storage
  open_ : m.control n = genWord gen → m.offer n = none
  closed : tag (m.control n) = replacementTag → m.control n = replacementWord (m.space n) ∧
    ∃ o, m.offer n = some o ∧ o.For cfg m f n gen

/-- What a function knows of the replacements on their way. -/
def Active.Handing (cfg : Config) (m : Mem) : Active → Prop
  | .payAll f (.helpTheirs _ who c _) => m.Helping f who c
  | .payAll f (.helpMine _ who c _ theirs) => m.Helping f who c ∧ m.Theirs who c theirs
  | .payAll f (.helpWrite me who c _ theirs mine) =>
    m.Helping f who c ∧ m.Theirs who c theirs ∧ mine = m.space me
  | .payAll f (.helpCas me who c q theirs mine) =>
    m.Helping f who c ∧ m.Theirs who c theirs ∧ mine = m.space me ∧
      m.handover (m.owned me) = q.addr
  | .payAll _ (.helpTake me _ theirs) => theirs = m.space me
  | .load f (.candidate n gen) | .load f (.confirmHelping n gen _)
  | .load f (.offerDebt n gen _) | .load f (.closeControl n gen _) => m.Receiving cfg f n gen
  | .load f (.takeEnvelope n gen _ e) => e = m.space n ∧ ∃ o, m.offer n = some o ∧
    o.For cfg m f n gen
  | .load _ (.keepEnvelope n _ e _) => e = m.space n
  | _ => True

/-- What a suspended helper knows. -/
def Cont.Handing (m : Mem) : Cont → Prop
  | .helpReplacement f _ who c => m.Helping f who c
  | _ => True

/-- The function receives replacements in the control of the node, or has received one that it has
not taken yet. -/
def Active.Receives (n : NodeId) : Active → Prop
  | .load _ (.candidate n' _) | .load _ (.confirmHelping n' _ _) | .load _ (.offerDebt n' _ _)
  | .load _ (.closeControl n' _ _) | .load _ (.takeEnvelope n' _ _ _) => n' = n
  | _ => False

/-- The function has got an envelope that it has not put into the `space_offer` of its node yet. -/
def Active.Away (n : NodeId) : Active → Prop
  | .load _ (.takeEnvelope n' _ _ _) | .load _ (.keepEnvelope n' _ _ _) => n' = n
  | .payAll _ (.helpTake me _ _) => me = n
  | _ => False

/-! ## What a step does to the transactions of other threads -/

/-- The transaction of the node is as it was. -/
structure Kept (m m' : Mem) (n : NodeId) : Prop where
  control : m'.control n = m.control n
  activeAddr : m'.activeAddr n = m.activeAddr n
  opened : m'.opened n = m.opened n
  spaceOffer : m'.spaceOffer n = m.spaceOffer n
  owned : m'.owned n = m.owned n
  offer : m'.offer n = m.offer n
  content : m'.handover (m.owned n) = m.handover (m.owned n)

/-- A replacement has been handed over to the node. -/
structure Handed (cfg : Config) (m m' : Mem) (n : NodeId) (o : Offer) : Prop where
  word : m.control n = o.word
  gen : tag o.word = genTag
  control : m'.control n = replacementWord (m'.space n)
  activeAddr : m'.activeAddr n = m.activeAddr n
  opened : m'.opened n = m.opened n
  offer : m'.offer n = some o
  storage : o.storage = m.activeAddr n
  kind : o.value.kind = cfg.kind o.storage
  since : m.opened n ≤ o.since
  content : m'.handover (m'.owned n) = o.value.addr

theorem Kept.of_eq {n : NodeId} (h₁ : m'.control = m.control) (h₂ : m'.activeAddr = m.activeAddr)
    (h₃ : m'.opened = m.opened) (h₄ : m'.spaceOffer = m.spaceOffer) (h₅ : m'.owned = m.owned)
    (h₆ : m'.offer = m.offer) (h₇ : m'.handover = m.handover) : Kept m m' n := by
  constructor <;> simp [*]

/-- A step of a thread either leaves the transaction of another node as it is, or hands over a
replacement to it. -/
theorem Clause.hands {a : Active} {o : Out} {n : NodeId} (h : Clause cfg tls m a o)
    (hok : a.Ok cfg tls) (hh : a.Handing cfg m) (hinj : Function.Injective m.owned)
    (hn : n ∉ tls.head.nodes + a.nodes) (hc : n < m.nodeCount) :
    Kept m o.mem n ∨ ∃ x, Handed cfg m o.mem n x := by
  have hne : ∀ {tmp k}, tmpNodes tmp = a.nodes → ScopeIs tls tmp k → n ≠ k := by
    rintro tmp k ht hs rfl
    exact hn (ht ▸ hs.mem)
  cases h with
  | get h =>
    refine .inl ?_
    cases h with
    | create =>
      constructor <;> try rfl
      simp [hc.ne]
    | _ => exact .of_eq rfl rfl rfl rfl rfl rfl rfl
  | cooldown h | cas h | dec h | intoInner h | dropGuard h =>
    exact .inl (by cases h <;> exact .of_eq rfl rfl rfl rfl rfl rfl rfl)
  | swap => exact .inl (.of_eq rfl rfl rfl rfl rfl rfl rfl)
  | load h =>
    refine .inl ?_
    cases h with
    | publishAddr =>
      have := hne rfl (show ScopeIs tls _ _ from hok.2)
      constructor <;> first | rfl | simp [this]
    | publishGen | discard | publishFull =>
      have := hne rfl hok.2.1
      constructor <;> first | rfl | simp [this]
    | closeControl | closeReplaced | closeInvalid =>
      have := hne rfl hok.2.1
      constructor <;> first | rfl | simp [this]
    | takeEnvelope | keepEnvelope =>
      have := hne rfl hok.2.1
      constructor <;> first | rfl | simp [this]
    | _ => exact .of_eq rfl rfl rfl rfl rfl rfl rfl
  | payAll h =>
    cases h with
    | @helpWrite me who c q theirs mine _ =>
      have hme := hne rfl hok.2.1.1
      obtain ⟨-, -, rfl⟩ := hh
      refine .inl ?_
      constructor <;> first | rfl | simp [Mem.space, hinj.ne hme]
    | @helpCas me who c q theirs mine h =>
      have hme := hne rfl hok.2.1.1
      obtain ⟨hhelp, -, rfl, hcont⟩ := hh
      by_cases hw : n = who
      · subst hw
        obtain ⟨ha, hs⟩ := hhelp h
        refine .inr ⟨⟨c, _, q, _⟩, h, hok.2.1.2.2, ?_, rfl, rfl, Function.update_self _ _ _,
          ha.symm, hok.2.2.1, hs, ?_⟩
        · simp [Mem.space, hme]
        · simpa [hme] using hcont
      · refine .inl ?_
        constructor <;> first | rfl | simp [hw, hme]
    | helpTake =>
      have hme := hne rfl hok.2.1
      refine .inl ?_
      constructor <;> first | rfl | simp [hme]
    | _ => exact .inl (.of_eq rfl rfl rfl rfl rfl rfl rfl)

/-! ## What a step does to what a helper has read -/

/-- Where a control holds a word that is being watched, the transaction is as it was. -/
structure Watched (m m' : Mem) (n : NodeId) : Prop where
  control : m.control n = m'.control n
  activeAddr : m'.activeAddr n = m.activeAddr n
  opened : m'.opened n = m.opened n
  spaceOffer : m'.spaceOffer n = m.spaceOffer n

/-- A generation in a control that has not been published by the step was there before, and the
owner of the node has not touched the transaction. -/
theorem Clause.watched {a : Active} {o : Out} {n : NodeId} {c : ℕ} (h : Clause cfg tls m a o)
    (hok : a.Ok cfg tls) (ht : tag c = genTag) (hi : ¬ a.Issues n c)
    (hidle : ∀ k ∈ tls.head.nodes + a.nodes, m.control k ≠ idle → a.Publishes k)
    (hc : m.control n ≠ idle → n < m.nodeCount) (hn : o.mem.control n = c) :
    Watched m o.mem n := by
  have hne : c ≠ idle := by
    rintro rfl
    exact absurd ht (by decide)
  -- the owner changes its transaction only while its control is idle
  have hown : ∀ {k}, k ∈ tls.head.nodes + a.nodes → ¬ a.Publishes k → m.control n = c → n ≠ k := by
    rintro k hk hp hm rfl
    exact hp (hidle n hk (hm ▸ hne))
  have key : ∀ {m' : Mem}, m'.control = m.control → m'.activeAddr = m.activeAddr →
      m'.opened = m.opened → m'.spaceOffer = m.spaceOffer → Watched m m' n := by
    intro m' h₁ h₂ h₃ h₄
    constructor <;> simp [*]
  cases h with
  | get h =>
    cases h with
    | create =>
      have hm : m.control n = c := hn
      have := hc (hm ▸ hne)
      constructor <;> simp [this.ne]
    | _ => exact key rfl rfl rfl rfl
  | cooldown h | cas h | dec h | intoInner h | dropGuard h =>
    cases h <;> exact key rfl rfl rfl rfl
  | swap => exact key rfl rfl rfl rfl
  | load h =>
    cases h with
    | publishAddr =>
      have := hown (ScopeIs.mem hok.2) id hn
      constructor <;> first | rfl | simp [this]
    | @publishGen n' gen | @publishFull n' gen =>
      have hw : n ≠ n' := by
        rintro rfl
        exact hi ⟨rfl, by simpa using hn⟩
      constructor <;> first | rfl | simp [hw]
    | @discard n' =>
      have hw : n ≠ n' := by
        rintro rfl
        exact hi ⟨rfl, by simpa using hn⟩
      constructor <;> first | rfl | simp [hw]
    | @closeControl n' | @closeReplaced n' | @closeInvalid n' =>
      have hw : n ≠ n' := by
        rintro rfl
        exact hne (by simpa using hn.symm)
      constructor <;> first | rfl | simp [hw]
    | keepEnvelope =>
      have := hown hok.2.1.mem id hn
      constructor <;> first | rfl | simp [this]
    | _ => exact key rfl rfl rfl rfl
  | payAll h =>
    cases h with
    | @helpCas me who c' q theirs mine =>
      have hw : n ≠ who := by
        rintro rfl
        have hr : replacementWord mine = c := by simpa using hn
        rw [← hr, hok.2.2.2.2.tag_replacementWord] at ht
        exact absurd ht (by decide)
      constructor <;> first | rfl | simp [hw]
    | helpTake =>
      have := hown hok.2.1.mem id hn
      constructor <;> first | rfl | simp [this]
    | _ => exact key rfl rfl rfl rfl

theorem Mem.Helping.watched {f : PayFrame} {who : NodeId} {c : ℕ} (h : m.Helping f who c)
    (hw : m'.control who = c → Watched m m' who) : m'.Helping f who c := by
  intro hc
  obtain ⟨h₁, h₂, h₃, -⟩ := hw hc
  rw [h₂, h₃]
  exact h (h₁.trans hc)

theorem Mem.Theirs.watched {who : NodeId} {c theirs : ℕ} (h : m.Theirs who c theirs)
    (hw : m'.control who = c → Watched m m' who) : m'.Theirs who c theirs := by
  intro hc
  obtain ⟨h₁, -, -, h₄⟩ := hw hc
  rw [h₄]
  exact h (h₁.trans hc)

/-! ## What the thread that takes the step knows -/

theorem Offer.For.kept {f : LoadFrame} {n : NodeId} {gen : ℕ} {o : Offer} (h : o.For cfg m f n gen)
    (hk : Kept m m' n) : o.For cfg m' f n gen where
  word := h.word
  storage := h.storage
  kind := h.kind
  since := hk.opened ▸ h.since
  content := by rw [hk.owned, hk.content, h.content]

theorem Mem.Receiving.kept {f : LoadFrame} {n : NodeId} {gen : ℕ} (h : m.Receiving cfg f n gen)
    (hk : Kept m m' n) (hnow : ∀ x, m.now x ≤ m'.now x) : m'.Receiving cfg f n gen where
  opened := hk.opened ▸ h.opened.trans (hnow _)
  open_ hc := by
    rw [hk.offer]
    exact h.open_ (hk.control ▸ hc)
  closed hc := by
    obtain ⟨h₁, o, h₂, h₃⟩ := h.closed (hk.control ▸ hc)
    refine ⟨?_, o, hk.offer.trans h₂, h₃.kept hk⟩
    rw [hk.control, h₁, Mem.space, Mem.space, hk.owned]

theorem LoadFrame.begin_handing (f : LoadFrame) : (f.begin cfg).Handing cfg m := by
  unfold LoadFrame.begin
  split <;> trivial

theorem PayFrame.nextSlot_handing (f : PayFrame) (who : NodeId) (i : ℕ) :
    (f.nextSlot who i).Handing cfg m := by
  unfold PayFrame.nextSlot
  split <;> trivial

theorem Dispatched.handing {f : PayFrame} {me who : NodeId} {c : ℕ} {a : Active}
    (h : Dispatched f me who c a) : a.Handing cfg m := by
  cases h <;> trivial

/-- What the function that takes the step knows of the replacements on their way. -/
theorem Clause.handing {a : Active} {o : Out} (h : Clause cfg tls m a o) (hok : a.Ok cfg tls)
    (hn : a.NodeOk cfg m) (hh : a.Handing cfg m)
    (hsp : ∀ n ∈ tls.head.nodes + a.nodes, ¬ a.Publishes n → ¬ a.Away n →
      m.spaceOffer n = m.space n)
    (hsw : ∀ n, tag (m.control n) = genTag → m.spaceOffer n = m.space n)
    (hoff : ∀ n ∈ tls.head.nodes + a.nodes, m.offer n ≠ none → a.Receives n)
    (hopen : ∀ n, m.control n ≠ idle → m.opened n ≤ m.now (m.activeAddr n)) :
    o.active.Handing cfg o.mem ∧ ∀ k ∈ o.calls, k.Handing o.mem := by
  cases h with
  | get h | cooldown h | dropGuard h | dec h | cas h | intoInner h =>
    cases h <;> exact ⟨trivial, by simp [Cont.Handing]⟩
  | swap => exact ⟨trivial, by simp [SwapFrame.exec, Cont.Handing]⟩
  | load h =>
    cases h with
    | enter => exact ⟨LoadFrame.begin_handing _, by simp⟩
    | @publishGen n gen hc hg =>
      have htag := hok.2.2.tag_genWord
      refine ⟨⟨?_, fun _ => ?_, fun ht => ?_⟩, by simp⟩
      · have ha : m.activeAddr n = _ := hn
        simp [ha, Mem.now]
      · by_contra ho
        exact hoff n hok.2.1.mem ho
      · simp only [Mem.publish_control, Mem.setControl_control, Function.update_self] at ht
        rw [htag] at ht
        exact absurd ht (by decide)
    | candidate => exact ⟨hh, by simp⟩
    | @confirmHelping n n' gen p h =>
      obtain rfl : n = n' := by
        have := hok.2.1.symm.trans h
        simpa using this
      exact ⟨hh, by simp⟩
    | offerDebt =>
      exact ⟨hh.kept (.of_eq rfl rfl rfl rfl rfl rfl rfl) fun _ => le_rfl, by simp⟩
    | closeControl => exact ⟨trivial, by simp [Cont.Handing]⟩
    | @closeReplaced n gen p hg ht =>
      obtain ⟨hc, x, hx, hf⟩ := hh.closed ht
      refine ⟨⟨?_, x, hx, hf.word, hf.storage, hf.kind, hf.since, hf.content⟩, by simp⟩
      rw [hc]
      exact (isEnvelope_handoverAddr _).clearTag_replacementWord
    | takeEnvelope => exact ⟨hh.1, by simp⟩
    | leave => exact ⟨trivial, by simp⟩
    | _ => exact ⟨trivial, by simp [Cont.Handing]⟩
  | payAll h =>
    cases h with
    | helpControl h | helpChanged _ h => exact ⟨h.handing, by simp⟩
    | slotOther | slotInc => exact ⟨PayFrame.nextSlot_handing _ _ _, by simp⟩
    | @helpAddr me who c h =>
      refine ⟨trivial, ?_⟩
      simp only [List.mem_cons, List.not_mem_nil, or_false, forall_eq_or_imp, forall_eq]
      refine ⟨trivial, fun hc => ⟨h, ?_⟩⟩
      have hne : m.control who ≠ idle := by
        intro hi
        rw [hc.symm.trans hi] at hok
        exact absurd hok.2.2.2 (by decide)
      rw [← h]
      exact hopen who hne
    | helpTheirs => exact ⟨⟨hh, fun _ => rfl⟩, by simp⟩
    | helpMine => exact ⟨⟨hh.1, hh.2, hsp _ hok.2.1.1.mem id id⟩, by simp⟩
    | @helpWrite me who c q theirs mine =>
      obtain ⟨h₁, h₂, rfl⟩ := hh
      exact ⟨⟨h₁, h₂, rfl, by simp [Mem.space]⟩, by simp⟩
    | @helpCas me who c q theirs mine h =>
      obtain ⟨h₁, h₂, rfl, -⟩ := hh
      refine ⟨?_, by simp⟩
      have ht : theirs = m.space who := (h₂ h).trans (hsw who (h ▸ hok.2.1.2.2))
      simpa [Active.Handing, Mem.space] using ht
    | _ => exact ⟨trivial, by simp [Cont.Handing]⟩

/-! ## What the other threads know -/

/-- The offer that has been handed over is for the transaction that was open. -/
theorem Mem.Receiving.handed {f : LoadFrame} {n : NodeId} {gen : ℕ} {x : Offer}
    (hr : m.Receiving cfg f n gen) (h : Handed cfg m m' n x) (hp : m.Published n f.storage gen)
    (hg : IsGen gen) (hnow : ∀ x, m.now x ≤ m'.now x) : m'.Receiving cfg f n gen := by
  have hword : x.word = genWord gen := by
    rcases hp.2 with hc | hc
    · exact h.word.symm.trans hc
    · rw [h.word, h.gen] at hc
      exact absurd hc (by decide)
  have htag : tag (m'.control n) = replacementTag := by
    rw [h.control]
    exact (isEnvelope_handoverAddr _).tag_replacementWord
  have hstorage : x.storage = f.storage := h.storage.trans hp.1
  refine ⟨h.opened ▸ hr.opened.trans (hnow _), fun hc => ?_, fun _ => ?_⟩
  · rw [hc, hg.tag_genWord] at htag
    exact absurd htag (by decide)
  · exact ⟨h.control, x, h.offer, hword, hstorage, hstorage ▸ h.kind, h.opened ▸ h.since, h.content⟩

/-- What a thread knows of the replacements on their way stays true when another thread takes a
step. -/
theorem Active.Handing.other {th : Thread} (hh : th.active.Handing cfg m) (ht : th.Typed cfg)
    (hn : th.active.NodeOk cfg m)
    (hidle : ∀ n ∈ th.nodes, ¬ th.active.Publishes n → m.control n = idle)
    (hk : ∀ n ∈ th.nodes, Kept m m' n ∨ ∃ x, Handed cfg m m' n x)
    (hw : ∀ n c, th.active.Watches n c → tag c = genTag → m'.control n = c → Watched m m' n)
    (hnow : ∀ x, m.now x ≤ m'.now x) : th.active.Handing cfg m' := by
  have hmem : ∀ {tmp n}, tmpNodes tmp ≤ th.active.nodes → ScopeIs th.tls tmp n → n ∈ th.nodes := by
    intro tmp n hle hs
    refine Multiset.mem_add.mpr (.inl ?_)
    exact Multiset.mem_of_le (add_le_add_right hle _) hs.mem
  -- nothing is handed over to a node whose control is idle
  have hkept : ∀ {n}, n ∈ th.nodes → ¬ th.active.Publishes n → Kept m m' n := by
    intro n hn hp
    rcases hk n hn with h | ⟨x, h⟩
    · exact h
    · have := h.gen
      rw [← h.word, hidle n hn hp] at this
      exact absurd this (by decide)
  cases ha : th.active with
  | load f pc =>
    have hok := ht.active
    rw [ha] at hn hh hok hkept
    have hle : tmpNodes f.tmp ≤ th.active.nodes := by rw [ha]; rfl
    cases pc with
    | candidate n gen | confirmHelping n gen | offerDebt n gen =>
      rcases hk n (hmem hle hok.2.1) with h | ⟨x, h⟩
      · exact hh.kept h hnow
      · exact hh.handed h hn hok.2.2 hnow
    | closeControl n gen =>
      rcases hk n (hmem hle hok.2.1) with h | ⟨x, h⟩
      · exact hh.kept h hnow
      · exact hh.handed h hn.1 hok.2.2 hnow
    | takeEnvelope n gen p e =>
      have h := hkept (hmem hle hok.2.1) id
      obtain ⟨he, o, ho, hf⟩ := hh
      exact ⟨by rw [he, Mem.space, Mem.space, h.owned], o, h.offer.trans ho, hf.kept h⟩
    | keepEnvelope n p e q =>
      have h := hkept (hmem hle hok.2.1) id
      rw [Active.Handing, Mem.space, h.owned]
      exact hh
    | _ => trivial
  | payAll f pc =>
    have hok := ht.active
    rw [ha] at hh hok hkept hw
    have hle : tmpNodes f.tmp ≤ th.active.nodes := by rw [ha]; rfl
    have hspace : ∀ {k}, Kept m m' k → m'.space k = m.space k := by
      intro k h
      rw [Mem.space, Mem.space, h.owned]
    cases pc with
    | helpTheirs me who c q => exact hh.watched (hw who c ⟨rfl, rfl⟩ hok.2.1.2.2)
    | helpMine me who c q theirs =>
      have := hw who c ⟨rfl, rfl⟩ hok.2.1.2.2
      exact ⟨hh.1.watched this, hh.2.watched this⟩
    | helpWrite me who c q theirs mine =>
      have hw := hw who c ⟨rfl, rfl⟩ hok.2.1.2.2
      have h := hkept (hmem hle hok.2.1.1) id
      obtain ⟨h₁, h₂, h₃⟩ := hh
      exact ⟨h₁.watched hw, h₂.watched hw, h₃.trans (hspace h).symm⟩
    | helpCas me who c q theirs mine =>
      have hw := hw who c ⟨rfl, rfl⟩ hok.2.1.2.2
      have h := hkept (hmem hle hok.2.1.1) id
      obtain ⟨h₁, h₂, h₃, h₄⟩ := hh
      refine ⟨h₁.watched hw, h₂.watched hw, h₃.trans (hspace h).symm, ?_⟩
      rw [h.owned, h.content, h₄]
    | helpTake me who theirs =>
      have h := hkept (hmem hle hok.2.1) id
      exact Eq.trans hh (hspace h).symm
    | _ => trivial
  | _ => trivial

end ArcSwap
