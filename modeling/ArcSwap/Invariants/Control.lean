import ArcSwap.Invariants.Chain

/-!
# Controls and helping slots

The control of a node is not `IDLE`, and its helping slot is not empty, only while the owner of the
node is in `fallback`. The owner alone starts and ends a transaction; what others do to its node is
that a helper replaces the generation and that writers empty slots.
-/

namespace ArcSwap

variable {cfg : Config} {tls : Tls} {m : Mem}

/-- The function has published a generation in the control of the node. -/
def Active.Publishes (n : NodeId) : Active → Prop
  | .load _ (.candidate n' _) | .load _ (.confirmHelping n' _ _) | .load _ (.offerDebt n' _ _)
  | .load _ (.closeControl n' _ _) => n' = n
  | _ => False

/-- The function has put a debt into the helping slot of the node. -/
def Active.Offers (n : NodeId) : Active → Prop
  | .load _ (.closeControl n' _ _) | .load _ (.takeEnvelope n' _ _ _)
  | .load _ (.keepEnvelope n' _ _ _) | .load _ (.payUnused n' _ _) => n' = n
  | .intoInner g _ => g.debt = some (helpingSlot n)
  | _ => False

/-- The slot contains the pointer, or the debt has been paid. -/
def Mem.PaidOr (m : Mem) (d : SlotId) (r : Ref) : Prop := m.slot d = none ∨ m.slot d = some r

/-- A generation has been published for a load from the storage, and at most been replaced. -/
def Mem.Published (m : Mem) (n : NodeId) (s : StorageId) (gen : ℕ) : Prop :=
  m.activeAddr n = s ∧ (m.control n = genWord gen ∨ tag (m.control n) = replacementTag)

/-- What a function knows of the node it works on. -/
def Active.NodeOk (cfg : Config) (m : Mem) : Active → Prop
  | .load _ (.claim n _ j) => m.slot ⟨n, j⟩ = none
  | .load f (.publishGen n _) => m.activeAddr n = f.storage
  | .load f (.candidate n gen) | .load f (.confirmHelping n gen _)
  | .load f (.offerDebt n gen _) => m.Published n f.storage gen
  | .load f (.closeControl n gen p) =>
    m.Published n f.storage gen ∧ m.PaidOr (helpingSlot n) ⟨cfg.kind f.storage, p⟩
  | .load f (.takeEnvelope n _ p _) | .load f (.keepEnvelope n p _ _)
  | .load f (.payUnused n p _) => m.PaidOr (helpingSlot n) ⟨cfg.kind f.storage, p⟩
  | .intoInner g _ => ∀ n, g.debt = some (helpingSlot n) → m.PaidOr (helpingSlot n) g.ref
  | _ => True

/-- What a step of a thread that owns the nodes `own` does to the other nodes. -/
structure Rely (own : Multiset NodeId) (m m' : Mem) : Prop where
  slot : ∀ d, d.node ∉ own → m'.slot d = m.slot d ∨ m'.slot d = none
  control : ∀ n ∉ own, m'.control n = m.control n ∨
    (tag (m.control n) = genTag ∧ tag (m'.control n) = replacementTag)
  activeAddr : ∀ n ∉ own, m'.activeAddr n = m.activeAddr n

theorem Mem.PaidOr.rely {own : Multiset NodeId} {m' : Mem} {d : SlotId} {r : Ref}
    (h : m.PaidOr d r) (hr : Rely own m m') (hd : d.node ∉ own) : m'.PaidOr d r := by
  rcases hr.slot d hd with hs | hs
  · simpa [Mem.PaidOr, hs] using h
  · exact .inl hs

theorem Mem.Published.rely {own : Multiset NodeId} {m' : Mem} {n : NodeId} {s : StorageId}
    {gen : ℕ} (h : m.Published n s gen) (hr : Rely own m m') (hn : n ∉ own) :
    m'.Published n s gen := by
  refine ⟨by rw [hr.activeAddr n hn, h.1], ?_⟩
  rcases hr.control n hn with hc | hc
  · rw [hc]
    exact h.2
  · exact .inr hc.2

theorem ScopeIs.mem {tmp : Option LocalNode} {n : NodeId} (h : ScopeIs tls tmp n) :
    n ∈ tls.head.nodes + tmpNodes tmp := by
  cases tmp <;> simp_all [ScopeIs, LocalNode.nodes, tmpNodes]

section Rely

variable {own : Multiset NodeId} {m' : Mem} {n : NodeId}

theorem Rely.of_eq (hs : m'.slot = m.slot) (hc : m'.control = m.control)
    (ha : m'.activeAddr = m.activeAddr) : Rely own m m' :=
  ⟨fun _ _ => .inl (by rw [hs]), fun _ _ => .inl (by rw [hc]), fun _ _ => by rw [ha]⟩

theorem Rely.setSlot_none (d : SlotId) : Rely own m (m.setSlot d none) :=
  ⟨fun d' _ => by by_cases h : d' = d <;> simp [h], fun _ _ => .inl rfl, fun _ _ => rfl⟩

theorem Rely.setSlot {d : SlotId} {v : Option Ref} (hd : d.node ∈ own) :
    Rely own m (m.setSlot d v) := by
  refine ⟨fun d' h => .inl ?_, fun _ _ => .inl rfl, fun _ _ => rfl⟩
  rw [Mem.setSlot_slot, Function.update_of_ne]
  rintro rfl
  exact h hd

theorem Rely.setControl {w : ℕ} (hn : n ∈ own) : Rely own m (m.setControl n w) := by
  refine ⟨fun _ _ => .inl rfl, fun n' h => .inl ?_, fun _ _ => rfl⟩
  rw [Mem.setControl_control, Function.update_of_ne]
  rintro rfl
  exact h hn

theorem Rely.setActiveAddr {s : StorageId} (hn : n ∈ own) :
    Rely own m (m.setActiveAddr n s) := by
  refine ⟨fun _ _ => .inl rfl, fun _ _ => .inl rfl, fun n' h => ?_⟩
  rw [Mem.setActiveAddr_activeAddr, Function.update_of_ne]
  rintro rfl
  exact h hn

theorem Rely.publish {w : ℕ} (hn : n ∈ own) : Rely own m (m.publish n w) := by
  obtain ⟨hs, hc, ha⟩ := Rely.setControl (m := m) (w := w) hn
  exact ⟨hs, hc, ha⟩

theorem Rely.handOver {me who : NodeId} {w : ℕ} {o : Offer} (h : tag (m.control who) = genTag)
    (hw : tag w = replacementTag) : Rely own m (m.handOver me who w o) := by
  refine ⟨fun _ _ => .inl rfl, fun n' _ => ?_, fun _ _ => rfl⟩
  rw [Mem.handOver_control, Mem.setControl_control]
  by_cases hn : n' = who
  · subst hn
    exact .inr ⟨h, by simpa using hw⟩
  · exact .inl (by simp [hn])

end Rely

theorem Clause.rely {a : Active} {o : Out} (h : Clause cfg tls m a o) (hok : a.Ok cfg tls) :
    Rely (tls.head.nodes + a.nodes) m o.mem := by
  cases h with
  | get h | cooldown h | cas h | dec h => cases h <;> exact .of_eq rfl rfl rfl
  | swap => exact .of_eq rfl rfl rfl
  | intoInner h | dropGuard h =>
    cases h <;> first | exact .of_eq rfl rfl rfl | exact .setSlot_none _
  | load h =>
    cases h with
    | claim => exact .setSlot hok.2.1.mem
    | unclaim | payUnused => exact .setSlot_none _
    | offerDebt => exact .setSlot hok.2.1.mem
    | publishAddr => exact .setActiveAddr (ScopeIs.mem hok.2)
    | publishGen | discard | publishFull => exact .publish hok.2.1.mem
    | closeControl | closeReplaced | closeInvalid => exact .setControl hok.2.1.mem
    | _ => exact .of_eq rfl rfl rfl
  | payAll h =>
    cases h with
    | slot => exact .setSlot_none _
    | helpCas h =>
      obtain ⟨-, ⟨-, -, hc⟩, -, -, he⟩ := hok
      exact .handOver (h ▸ hc) he.tag_replacementWord
    | _ => exact .of_eq rfl rfl rfl

/-! ## What the thread that takes the step knows -/

theorem Guard.Fast.ne_helping {g : Guard} (h : g.Fast) (n : NodeId) :
    g.debt ≠ some (helpingSlot n) := fun hd =>
  absurd (h _ hd) (by simp [helpingSlot])

theorem Mem.Owes.of_paidOr {d : SlotId} {r : Ref} (h : m.PaidOr d r) (ho : ¬ m.Owes d r) :
    m.slot d = none := by
  rcases h with h | h
  · exact h
  · simp [Mem.Owes, h] at ho

theorem LoadFrame.begin_nodeOk (f : LoadFrame) : (f.begin cfg).NodeOk cfg m := by
  unfold LoadFrame.begin
  split <;> trivial

theorem PayFrame.nextSlot_nodeOk (f : PayFrame) (who : NodeId) (i : ℕ) :
    (f.nextSlot who i).NodeOk cfg m := by
  unfold PayFrame.nextSlot
  split <;> trivial

theorem Dispatched.nodeOk {f : PayFrame} {me who : NodeId} {c : ℕ} {a : Active}
    (h : Dispatched f me who c a) : a.NodeOk cfg m := by
  cases h <;> trivial

theorem Clause.nodeOk {a : Active} {o : Out} (h : Clause cfg tls m a o) (hok : a.Ok cfg tls)
    (hn : a.NodeOk cfg m) : o.active.NodeOk cfg o.mem := by
  cases h with
  | get h | cooldown h | dropGuard h | dec h | cas h => cases h <;> trivial
  | swap => trivial
  | intoInner h =>
    cases h with
    | start => exact hn
    | _ => trivial
  | load h =>
    cases h with
    | enter => exact LoadFrame.begin_nodeOk _
    | probeFree _ h => exact h
    | publishAddr => simp [Active.NodeOk]
    | publishGen => exact ⟨hn, .inl (by simp)⟩
    | candidate => exact hn
    | @confirmHelping n n' gen p h =>
      obtain rfl : n = n' := by
        have := hok.2.1.symm.trans h
        simpa using this
      exact hn
    | offerDebt => exact ⟨hn, .inr (by simp)⟩
    | @closeControl n gen p =>
      intro n' hd
      obtain rfl : n = n' := by simpa [helpingSlot] using hd
      exact hn.2
    | closeReplaced => exact hn.2
    | takeEnvelope => exact hn
    | keepEnvelope => exact hn
    | _ => trivial
  | payAll h =>
    cases h with
    | helpControl h | helpChanged _ h => exact h.nodeOk
    | slotOther | slotInc => exact PayFrame.nextSlot_nodeOk _ _ _
    | _ => trivial

theorem Resumed.nodeOk {k : Cont} {r : Ret} {o : Out} (h : Resumed cfg tls m k r o)
    (hok : k.Ok cfg tls) (hm : k.expects.Meets cfg r) : o.active.NodeOk cfg o.mem := by
  cases h with
  | loadNode | loadTmp => exact LoadFrame.begin_nodeOk _
  | discard => exact hok.elim
  | full | rcuSwapped => exact fun n hd => absurd hd (hm.fast.ne_helping n)
  | helpRetry h => exact h.nodeOk
  | _ => trivial

/-! ## Transactions and debts have an owner -/

/-- A function that has published a generation runs on its own node. -/
theorem Active.Ok.publishes_mem {a : Active} {n : NodeId} (hok : a.Ok cfg tls)
    (hp : a.Publishes n) : n ∈ tls.head.nodes + a.nodes := by
  cases a with
  | load f pc =>
    cases pc <;> simp only [Active.Publishes] at hp
    all_goals
      subst hp
      exact hok.2.1.mem
  | _ => exact hp.elim

/-- A control is not `IDLE` only while a function has published a generation. -/
theorem Clause.publishes {a : Active} {o : Out} {n : NodeId} (h : Clause cfg tls m a o)
    (hok : a.Ok cfg tls) (hr : ∀ w, o.active ≠ .failed w) (hw : ¬ a.Wraps)
    (hn : o.mem.control n ≠ idle) :
    o.active.Publishes n ∨ (m.control n ≠ idle ∧ ¬ a.Publishes n) := by
  cases h with
  | get h | cooldown h | cas h | dec h | intoInner h | dropGuard h =>
    cases h <;> exact .inr ⟨hn, id⟩
  | swap => exact .inr ⟨hn, id⟩
  | load h =>
    cases h with
    | @publishGen n' gen =>
      by_cases h : n' = n
      · exact .inl h
      · refine .inr ⟨?_, id⟩
        simpa [Function.update_of_ne (Ne.symm h)] using hn
    | discard => exact absurd rfl hw
    | publishFull | closeInvalid | offerFull | noNode | notUsed => simp at hr
    | @closeControl n' | @closeReplaced n' =>
      have h : n' ≠ n := by
        rintro rfl
        simp at hn
      exact .inr ⟨by simpa [Function.update_of_ne h.symm] using hn, h⟩
    | @candidate n' | @offerDebt n' =>
      by_cases h : n' = n
      · exact .inl h
      · exact .inr ⟨hn, h⟩
    | @confirmHelping n₁ n' gen p h =>
      obtain rfl : n₁ = n' := by
        have := hok.2.1.symm.trans h
        simpa using this
      by_cases h : n₁ = n
      · exact .inl h
      · exact .inr ⟨hn, h⟩
    | _ => exact .inr ⟨hn, id⟩
  | payAll h =>
    cases h with
    | @helpCas me who control q theirs mine h =>
      refine .inr ⟨?_, id⟩
      by_cases hw : n = who
      · subst hw
        obtain ⟨-, ⟨-, -, hc⟩, -⟩ := hok
        intro hi
        rw [← h, hi] at hc
        exact absurd hc (by decide)
      · simpa [Function.update_of_ne hw] using hn
    | _ => exact .inr ⟨hn, id⟩

/-- A function that has offered a debt runs on its own node. -/
theorem Thread.Typed.offers_mem {th : Thread} {n : NodeId} (ht : th.Typed cfg)
    (ho : th.active.Offers n) : n ∈ th.nodes := by
  have hle : th.tls.head.nodes + th.active.nodes ≤ th.nodes := by simp [Thread.nodes]
  cases ha : th.active with
  | load f pc =>
    have hok := ht.active
    rw [ha] at ho hok hle
    cases pc <;> simp only [Active.Offers] at ho
    case payUnused =>
      subst ho
      exact Multiset.mem_of_le hle (ScopeIs.mem hok.2)
    all_goals
      subst ho
      exact Multiset.mem_of_le hle hok.2.1.mem
  | intoInner g pc =>
    rw [ha] at ho
    obtain hf | ⟨f, r, ks, n', hk, hd, hs⟩ := ht.inner g pc ha
    · exact absurd ho (hf.ne_helping n)
    · obtain rfl : n' = n := by simpa [Active.Offers, hd, helpingSlot] using ho
      have := hs.mem
      simp only [Thread.nodes, hk, contNodes_cons, Cont.nodes, Multiset.mem_add] at this ⊢
      tauto
  | _ =>
    rw [ha] at ho
    exact ho.elim

theorem Mem.setSlot_none_ne {d x : SlotId} (h : (m.setSlot d none).slot x ≠ none) :
    x ≠ d ∧ m.slot x ≠ none := by
  by_cases hx : x = d
  · simp [hx] at h
  · exact ⟨hx, by simpa [hx] using h⟩

@[simp] theorem helpingSlot_inj {n n' : NodeId} : helpingSlot n = helpingSlot n' ↔ n = n' := by
  simp [helpingSlot]

/-- A helping slot is occupied only while a function has put a debt into it. -/
theorem Clause.offers {a : Active} {o : Out} {n : NodeId} (h : Clause cfg tls m a o)
    (hok : a.Ok cfg tls) (hk : a.NodeOk cfg m) (hr : ∀ w, o.active ≠ .failed w)
    (hn : o.mem.slot (helpingSlot n) ≠ none) :
    o.active.Offers n ∨ (m.slot (helpingSlot n) ≠ none ∧ ¬ a.Offers n) := by
  cases h with
  | get h | cooldown h | cas h | dec h => cases h <;> exact .inr ⟨hn, id⟩
  | swap => exact .inr ⟨hn, id⟩
  | intoInner h =>
    cases h with
    | owned h => exact .inr ⟨hn, by simp [Active.Offers, h]⟩
    | @start d hd =>
      by_cases h : d = helpingSlot n
      · exact .inl (h ▸ hd)
      · exact .inr ⟨hn, fun ho => h (Option.some.inj (hd.symm.trans ho))⟩
    | pay =>
      obtain ⟨hd, hs⟩ := Mem.setSlot_none_ne hn
      refine .inr ⟨hs, fun ho => hd ?_⟩
      simpa using (hok.symm.trans ho).symm
    | payLate ho => exact .inr ⟨hn, fun hd => hn (by
        obtain rfl := Option.some.inj (hok.symm.trans hd)
        exact Mem.Owes.of_paidOr (hk n hd) ho)⟩
  | dropGuard h =>
    cases h with
    | pay => exact .inr ⟨(Mem.setSlot_none_ne hn).2, id⟩
    | _ => exact .inr ⟨hn, id⟩
  | load h =>
    cases h with
    | offerFull | noNode | notUsed | closeInvalid => simp at hr
    | @claim n' p j =>
      have hne : helpingSlot n ≠ ⟨n', j⟩ := by
        have := hok.2.2
        simp only [helpingSlot, ne_eq, SlotId.mk.injEq]
        omega
      exact .inr ⟨by simpa [hne] using hn, id⟩
    | unclaim => exact .inr ⟨(Mem.setSlot_none_ne hn).2, id⟩
    | @offerDebt n' =>
      by_cases h : n' = n
      · exact .inl h
      · exact .inr ⟨by simpa [Ne.symm h] using hn, id⟩
    | @closeReplaced n' | @takeEnvelope n' | @keepEnvelope n' =>
      by_cases h : n' = n
      · exact .inl h
      · exact .inr ⟨hn, h⟩
    | @closeControl n' =>
      by_cases h : n' = n
      · exact .inl (by simp [Active.Offers, h])
      · exact .inr ⟨hn, h⟩
    | payUnused =>
      obtain ⟨hd, hs⟩ := Mem.setSlot_none_ne hn
      exact .inr ⟨hs, fun ho => hd (by simpa using ho.symm)⟩
    | payUnusedLate ho =>
      refine .inr ⟨hn, ?_⟩
      rintro rfl
      exact hn (Mem.Owes.of_paidOr hk ho)
    | _ => exact .inr ⟨hn, id⟩
  | payAll h =>
    cases h with
    | slot => exact .inr ⟨(Mem.setSlot_none_ne hn).2, id⟩
    | _ => exact .inr ⟨hn, id⟩

/-! ## No assertion fails -/

theorem Dispatched.running {f : PayFrame} {me who : NodeId} {a : Active}
    (h : Dispatched f me who (m.control who) a) (hi : m.control me = idle)
    (hv : ValidWord (m.control who)) (w : Assertion) : a ≠ .failed w := by
  cases h with
  | pass | gen => simp
  | myself ht hm =>
    subst hm
    rw [hi] at ht
    exact absurd ht (by decide)
  | invalid h₁ h₂ h₃ => exact absurd hv (by simp [ValidWord, h₁, h₂, h₃])

theorem not_inScope {tmp : Option LocalNode} (h : (tmp.getD tls.head).node = none) :
    ¬ InScope tls tmp := by
  simp [InScope, h]

theorem LoadPc.UsesNode.inScope {f : LoadFrame} {pc : LoadPc} (h : pc.UsesNode)
    (hok : (Active.load f pc).Ok cfg tls) : InScope tls f.tmp := by
  cases pc <;> simp only [LoadPc.UsesNode] at h
  case confirmHelping => exact hok.2.1.inScope
  all_goals exact hok.2

theorem LoadFrame.begin_running (f : LoadFrame) (w : Assertion) : f.begin cfg ≠ .failed w := by
  simp [LoadFrame.begin]

theorem PayFrame.nextSlot_running (f : PayFrame) (who : NodeId) (i : ℕ) (w : Assertion) :
    f.nextSlot who i ≠ .failed w := by
  unfold PayFrame.nextSlot
  split <;> simp

/-- **No assertion fails** in a function that owns its nodes, when their controls are not `IDLE`
and their helping slots are not empty only at its own doing. -/
theorem Clause.running {a : Active} {o : Out} (h : Clause cfg tls m a o) (hok : a.Ok cfg tls)
    (hh : tls.head.Ok) (hk : a.NodeOk cfg m)
    (hu : ∀ n ∈ tls.head.nodes + a.nodes, m.inUse n = .used)
    (hc : ∀ n ∈ tls.head.nodes + a.nodes, m.control n ≠ idle → a.Publishes n)
    (hs : ∀ n ∈ tls.head.nodes + a.nodes, m.slot (helpingSlot n) ≠ none → a.Offers n)
    (hv : ∀ n, ValidWord (m.control n)) (w : Assertion) : o.active ≠ .failed w := by
  have hidle : ∀ n ∈ tls.head.nodes + a.nodes, ¬ a.Publishes n → m.control n = idle :=
    fun n hn hp => by_contra fun h => hp (hc n hn h)
  cases h with
  | get h | intoInner h | dropGuard h | dec h | cas h => cases h <;> simp
  | swap => simp [SwapFrame.exec]
  | cooldown h =>
    cases h with
    | swapFail h => exact absurd (hu _ (by simp [Active.nodes])) h
    | _ => simp
  | load h =>
    cases h with
    | claimFull h => exact absurd hk h
    | genTagged hg ht =>
      have hl : IsGen _ := hg ▸ IsGen.next cfg.wide (LoadFrame.localNode_ok hok.1 hh)
      exact absurd hl.and_genTag ht
    | publishFull h => exact absurd (hidle _ hok.2.1.mem id) h
    | offerFull h => exact absurd (hs _ hok.2.1.mem h) id
    | closeInvalid hg h =>
      obtain ⟨⟨-, hw⟩, -⟩ := hk
      exact absurd hw (by simp [hg, h])
    | noNode hpc hn => exact absurd (hpc.inScope hok) (not_inScope hn)
    | notUsed hpc hn hu' => exact absurd (hu _ (ScopeIs.mem hn)) hu'
    | enter => exact LoadFrame.begin_running _ w
    | leave => simp [LoadFrame.result]
    | _ => simp
  | payAll h =>
    cases h with
    | noNode hn => exact absurd hok.2 (not_inScope hn)
    | notUsed hn hu' => exact absurd (hu _ (ScopeIs.mem hn)) hu'
    | helperBusy h => exact absurd (hidle _ (ScopeIs.mem hok.2) id) h
    | helpControl h => exact h.running (hidle _ (ScopeIs.mem hok.2) id) (hv _) w
    | helpChanged _ h => exact h.running (hidle _ (ScopeIs.mem hok.2.1) id) (hv _) w
    | misaligned h => exact absurd hok.2.2.2.2.tag_eq h
    | slotOther | slotInc => exact PayFrame.nextSlot_running _ _ _ w
    | _ => simp

/-! ## The words in the controls -/

/-- A control holds `IDLE`, a generation or a replacement, and an offered envelope is aligned. -/
theorem Clause.words {a : Active} {o : Out} (h : Clause cfg tls m a o) (hok : a.Ok cfg tls)
    (hv : ∀ n, ValidWord (m.control n)) (he : ∀ n, IsEnvelope (m.spaceOffer n)) :
    (∀ n, ValidWord (o.mem.control n)) ∧ ∀ n, IsEnvelope (o.mem.spaceOffer n) := by
  have hgen : ∀ {g}, IsGen g → ValidWord (genWord g) := fun hg => .inr (.inl hg.tag_genWord)
  have hvalid : ∀ {n w}, ValidWord w → ∀ x, ValidWord (Function.update m.control n w x) :=
    fun hw => (Function.forall_update_iff _ fun _ w => ValidWord w).mpr ⟨hw, fun n _ => hv n⟩
  have henv : ∀ {n e}, IsEnvelope e → ∀ x, IsEnvelope (Function.update m.spaceOffer n e x) :=
    fun hw => (Function.forall_update_iff _ fun _ e => IsEnvelope e).mpr ⟨hw, fun n _ => he n⟩
  cases h with
  | get h =>
    cases h with
    | create => exact ⟨hv, henv (isEnvelope_handoverAddr _)⟩
    | _ => exact ⟨hv, he⟩
  | cooldown h | cas h | dec h | intoInner h | dropGuard h => cases h <;> exact ⟨hv, he⟩
  | swap => exact ⟨hv, he⟩
  | load h =>
    cases h with
    | publishGen | discard | publishFull =>
      exact ⟨hvalid (hgen hok.2.2), he⟩
    | closeControl | closeReplaced | closeInvalid =>
      exact ⟨hvalid (.inl rfl), he⟩
    | keepEnvelope => exact ⟨hv, henv hok.2.2⟩
    | _ => exact ⟨hv, he⟩
  | payAll h =>
    cases h with
    | helpCas =>
      exact ⟨hvalid (.inr (.inr hok.2.2.2.2.tag_replacementWord)), he⟩
    | helpTake => exact ⟨hv, henv hok.2.2.2⟩
    | _ => exact ⟨hv, he⟩

/-! ## One step -/

section Run

variable {T : Type*} {s : State T} {t : T} {m' : Mem} {th' : Thread} {o' : Multiset Ref}
  {g' : Multiset Guard}

/-- No node comes into use that does not exist. -/
theorem Clause.fresh {a : Active} {tls : Tls} {o : Out} (h : Clause cfg tls m a o)
    (hl : ∀ n ∈ a.visits, n < m.nodeCount) (hf : ∀ n, m.nodeCount ≤ n → m.inUse n = .unused) :
    m.nodeCount ≤ o.mem.nodeCount ∧ ∀ n, o.mem.nodeCount ≤ n → o.mem.inUse n = .unused := by
  have key : ∀ {n u}, n < m.nodeCount →
      ∀ n', m.nodeCount ≤ n' → Function.update m.inUse n u n' = .unused := by
    intro n u hn n' hn'
    rw [Function.update_of_ne (lt_of_lt_of_le hn hn').ne']
    exact hf n' hn'
  cases h with
  | get h =>
    cases h with
    | claim => exact ⟨le_rfl, key (hl _ (by simp [Active.visits]))⟩
    | unuse => exact ⟨le_rfl, key (hl _ (by simp [Active.visits]))⟩
    | create =>
      refine ⟨Nat.le_succ _, fun n hn => ?_⟩
      have hn' : m.nodeCount + 1 ≤ n := hn
      rw [Mem.newNode_inUse, Mem.setInUse_inUse, Function.update_of_ne (Nat.lt_of_succ_le hn').ne']
      exact hf n (Nat.le_of_succ_le hn')
    | _ => exact ⟨le_rfl, hf⟩
  | cooldown h =>
    cases h with
    | swap | swapFail => exact ⟨le_rfl, key (hl _ (by simp [Active.visits]))⟩
    | _ => exact ⟨le_rfl, hf⟩
  | swap => exact ⟨le_rfl, hf⟩
  | cas h | dec h | intoInner h | dropGuard h | load h | payAll h =>
    cases h <;> exact ⟨le_rfl, hf⟩

/-- User code does not touch the nodes. -/
theorem UserClause.frame {u : UserKind} (h : UserClause cfg s t u m' th' o' g') :
    m'.slot = s.mem.slot ∧ m'.control = s.mem.control ∧ m'.activeAddr = s.mem.activeAddr ∧
      m'.spaceOffer = s.mem.spaceOffer ∧ m'.inUse = s.mem.inUse ∧
        m'.nodeCount = s.mem.nodeCount := by
  cases h <;> exact ⟨rfl, rfl, rfl, rfl, rfl, rfl⟩

theorem Resumed.mem_eq {k : Cont} {r : Ret} {tls : Tls} {o : Out} (h : Resumed cfg tls m k r o) :
    o.mem = m := by
  cases h <;> rfl

theorem Move.rely (h : Move cfg s t m' th' o' g') (ht : (s.thread t).Typed cfg) :
    Rely (s.thread t).nodes s.mem m' := by
  cases h with
  | code h =>
    obtain ⟨h₁, h₂, h₃⟩ := h.rely ht.active
    have hmem : ∀ n, n ∉ (s.thread t).nodes →
        n ∉ (s.thread t).tls.head.nodes + (s.thread t).active.nodes :=
      fun n hn h => hn (Multiset.mem_add.mpr (.inl h))
    exact ⟨fun d hd => h₁ d (hmem _ hd), fun n hn => h₂ n (hmem _ hn), fun n hn => h₃ n (hmem _ hn)⟩
  | resume _ _ h => rw [h.mem_eq]; exact .of_eq rfl rfl rfl
  | receive => exact .of_eq rfl rfl rfl
  | user _ h =>
    obtain ⟨h₁, h₂, h₃, -⟩ := h.frame
    exact .of_eq h₁ h₂ h₃

theorem Move.nodeOk (h : Move cfg s t m' th' o' g') (ht : (s.thread t).Typed cfg)
    (hg : ∀ g ∈ s.guards, g.Fast) (hn : (s.thread t).active.NodeOk cfg s.mem) :
    th'.active.NodeOk cfg m' := by
  cases h with
  | code h => exact h.nodeOk ht.active hn
  | @resume c r k ks o ha hk h =>
    have hl : c = k.expects := by
      have := ht.linked
      rw [ha, hk] at this
      exact this.1
    have hm : c.Meets cfg r := by
      have := ht.active
      rwa [ha] at this
    exact h.nodeOk (ht.conts k (by simp [hk])) (hl ▸ hm)
  | receive => trivial
  | user ha h =>
    cases h with
    | alloc | clone | fromInner | new | exitEmpty => simp [ha, Active.NodeOk]
    | intoInner h => exact fun n hd => absurd hd ((hg _ h).ne_helping n)
    | _ => trivial

theorem Move.fresh (h : Move cfg s t m' th' o' g')
    (hl : ∀ n ∈ (s.thread t).visits, n < s.mem.nodeCount)
    (hf : ∀ n, s.mem.nodeCount ≤ n → s.mem.inUse n = .unused) :
    s.mem.nodeCount ≤ m'.nodeCount ∧ ∀ n, m'.nodeCount ≤ n → m'.inUse n = .unused := by
  cases h with
  | code h => exact h.fresh (fun n hn => hl n (by simp [Thread.visits, hn])) hf
  | resume ha hk h => rw [h.mem_eq]; exact ⟨le_rfl, hf⟩
  | receive => exact ⟨le_rfl, hf⟩
  | user ha h =>
    obtain ⟨-, -, -, -, h₁, h₂⟩ := h.frame
    rw [h₁, h₂]
    exact ⟨le_rfl, hf⟩

/-- What a thread knows of its own node stays true when another thread takes a step. -/
theorem Thread.Typed.nodeOk_rely {th : Thread} {own : Multiset NodeId} (ht : th.Typed cfg)
    (hn : th.active.NodeOk cfg m) (hr : Rely own m m') (hd : ∀ n ∈ th.nodes, n ∉ own) :
    th.active.NodeOk cfg m' := by
  have hmem : ∀ {tmp n}, tmpNodes tmp ≤ th.active.nodes → ScopeIs th.tls tmp n → n ∉ own := by
    intro tmp n hle hs
    refine hd n (Multiset.mem_add.mpr (.inl ?_))
    exact Multiset.mem_of_le (add_le_add_right hle _) hs.mem
  cases ha : th.active with
  | load f pc =>
    have hok := ht.active
    rw [ha] at hn hok
    have hle : tmpNodes f.tmp ≤ th.active.nodes := by rw [ha]; rfl
    cases pc with
    | claim n p j =>
      rcases hr.slot ⟨n, j⟩ (hmem hle hok.2.1) with h | h
      · exact h.trans hn
      · exact h
    | publishGen => exact (hr.activeAddr _ (hmem hle hok.2.1)).trans hn
    | candidate | confirmHelping | offerDebt => exact hn.rely hr (hmem hle hok.2.1)
    | closeControl =>
      exact ⟨hn.1.rely hr (hmem hle hok.2.1), hn.2.rely hr (hmem hle hok.2.1)⟩
    | takeEnvelope | keepEnvelope => exact Mem.PaidOr.rely hn hr (hmem hle hok.2.1)
    | payUnused => exact Mem.PaidOr.rely hn hr (hmem hle hok.2)
    | _ => trivial
  | intoInner g pc =>
    rw [ha] at hn
    exact fun n hg => (hn n hg).rely hr (hd n (ht.offers_mem (by rwa [ha])))
  | _ => trivial

/-- **No assertion fails** in a step of a thread that owns its nodes. -/
theorem Move.running (h : Move cfg s t m' th' o' g') (ht : (s.thread t).Typed cfg)
    (hk : (s.thread t).active.NodeOk cfg s.mem)
    (hrun : ∀ w, (s.thread t).active ≠ .failed w)
    (hu : ∀ n ∈ (s.thread t).nodes, s.mem.inUse n = .used)
    (hc : ∀ n ∈ (s.thread t).nodes, s.mem.control n ≠ idle → (s.thread t).active.Publishes n)
    (hs : ∀ n ∈ (s.thread t).nodes, s.mem.slot (helpingSlot n) ≠ none →
      (s.thread t).active.Offers n)
    (hv : ∀ n, ValidWord (s.mem.control n)) (w : Assertion) : th'.active ≠ .failed w := by
  have hmem : ∀ n ∈ (s.thread t).tls.head.nodes + (s.thread t).active.nodes,
      n ∈ (s.thread t).nodes := fun n hn => Multiset.mem_add.mpr (.inl hn)
  cases h with
  | code h =>
    exact h.running ht.active ht.head hk (fun n hn => hu n (hmem n hn))
      (fun n hn => hc n (hmem n hn)) (fun n hn => hs n (hmem n hn)) hv w
  | resume ha hk h =>
    cases h with
    | loadNode | loadTmp => exact LoadFrame.begin_running _ w
    | @helpRetry f me who c w' a h =>
      -- the control of the helper is idle, for it has not published anything
      obtain ⟨-, hs, hm, hw⟩ := ht.conts _ (by rw [hk]; exact List.mem_cons_self)
      cases h with
      | pass | gen => simp [Thread.after]
      | myself _ h => exact absurd h hm
      | invalid h₁ h₂ h₃ => exact absurd hw (by simp [ValidWord, h₁, h₂, h₃])
    | casRetry | rcuClosure => simp [Thread.after, CasFrame.load]
    | _ => simp [Thread.after]
  | receive => simp
  | user ha h =>
    cases h with
    | alloc | clone | fromInner | new | exitEmpty => exact hrun w
    | swap | compareAndSwap | rcu =>
      simp [Thread.calling, SwapFrame.invoke, CasFrame.invoke, RcuFrame.invoke, CasFrame.load]
    | _ => simp [Thread.calling]

theorem Move.publishes {n : NodeId} (h : Move cfg s t m' th' o' g') (ht : (s.thread t).Typed cfg)
    (hr : ∀ w, th'.active ≠ .failed w) (hw : ¬ (s.thread t).active.Wraps)
    (hn : m'.control n ≠ idle) :
    th'.active.Publishes n ∨ (s.mem.control n ≠ idle ∧ ¬ (s.thread t).active.Publishes n) := by
  cases h with
  | code h => exact h.publishes ht.active hr hw hn
  | resume ha hk h => exact .inr ⟨h.mem_eq ▸ hn, by rw [ha]; exact id⟩
  | receive ha => exact .inr ⟨hn, by rw [ha]; exact id⟩
  | user ha h => exact .inr ⟨by rwa [h.frame.2.1] at hn, by rw [ha]; exact id⟩

theorem Move.offers {n : NodeId} (h : Move cfg s t m' th' o' g') (ht : (s.thread t).Typed cfg)
    (hr : ∀ w, th'.active ≠ .failed w) (hk : (s.thread t).active.NodeOk cfg s.mem)
    (hn : m'.slot (helpingSlot n) ≠ none) :
    th'.active.Offers n ∨
      (s.mem.slot (helpingSlot n) ≠ none ∧ ¬ (s.thread t).active.Offers n) := by
  cases h with
  | code h => exact h.offers ht.active hk hr hn
  | resume ha hk h => exact .inr ⟨h.mem_eq ▸ hn, by rw [ha]; exact id⟩
  | receive ha => exact .inr ⟨hn, by rw [ha]; exact id⟩
  | user ha h => exact .inr ⟨by rwa [h.frame.1] at hn, by rw [ha]; exact id⟩

theorem Move.words (h : Move cfg s t m' th' o' g') (ht : (s.thread t).Typed cfg)
    (hv : ∀ n, ValidWord (s.mem.control n)) (he : ∀ n, IsEnvelope (s.mem.spaceOffer n)) :
    (∀ n, ValidWord (m'.control n)) ∧ ∀ n, IsEnvelope (m'.spaceOffer n) := by
  cases h with
  | code h => exact h.words ht.active hv he
  | resume ha hk h => rw [h.mem_eq]; exact ⟨hv, he⟩
  | receive ha => exact ⟨hv, he⟩
  | user ha h =>
    obtain ⟨-, h₁, -, h₂, -⟩ := h.frame
    rw [h₁, h₂]
    exact ⟨hv, he⟩

end Run

end ArcSwap
