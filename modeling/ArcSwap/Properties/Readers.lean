import ArcSwap.Invariants.Scans
import ArcSwap.Properties.Register

/-!
# No reader in progress is missed

A writer has exchanged the pointer of a storage and helps the readers on one node after the other.
When `help` on a node returns, no transaction on this storage that was published before the exchange
has its generation in the control of the node any more: it has been closed, or it has been given a
replacement.
-/

namespace ArcSwap

variable {T : Type*} {cfg : Config} {tls : Tls} {m m' : Mem} {s s' s₀ s₁ s₂ : State T} {t u : T}
  {x : StorageId} {r : Ref} {n : NodeId} {p : Place} {ks : List Cont}

/-! ## When a transaction was published -/

/-- A generation in a control belongs to the transaction it has belonged to, or it has just been
published. -/
theorem Move.opens {th' : Thread} {o' : Multiset Ref} {g' : Multiset Guard}
    (h : Move cfg s t m' th' o' g') (ht : (s.thread t).Typed cfg)
    (hg : tag (m'.control n) = genTag)
    (hidle : ∀ k ∈ (s.thread t).nodes, s.mem.control k ≠ idle → (s.thread t).active.Publishes k)
    (hc : s.mem.control n ≠ idle → n < s.mem.nodeCount) :
    Watched s.mem m' n ∨ m'.opened n = s.mem.now (m'.activeAddr n) := by
  by_cases hi : (s.thread t).active.Issues n (m'.control n)
  · right
    cases hact : (s.thread t).active with
    | load f pc =>
      cases pc <;> rw [hact] at hi <;> simp only [Active.Issues] at hi
      obtain ⟨rfl, -⟩ := hi
      cases h with
      | code h =>
        rw [hact] at h
        cases h with
        | load h =>
          cases h with
          | publishGen | discard | publishFull => exact Function.update_self _ _ _
          | noNode hpc => exact hpc.elim
          | notUsed hpc => exact hpc.elim
      | resume ha | receive ha | user ha =>
        rw [hact] at ha
        cases ha
    | _ =>
      rw [hact] at hi
      exact hi.elim
  · exact .inl (h.watched ht hg hi hidle hc rfl)

/-- The writer that has written to the storage `x` at the position `w` of its log, and has come to
`p`, has been at the nodes of all transactions on `x` that were published before. -/
def Mem.Informs (m : Mem) (x : StorageId) (w : ℕ) (p : Place) : Prop :=
  ∀ n, tag (m.control n) = genTag → m.activeAddr n = x → m.Ahead n 0 p ∨ w ≤ m.opened n

variable [Fintype T]

theorem State.Sound.listed_of_control (h : s.Sound cfg) (hc : s.mem.control n ≠ idle) :
    s.mem.Listed n := by
  obtain ⟨t, ht⟩ := h.publishes n hc
  have hmem := (h.typed t).active.publishes_mem ht
  refine (h.walks t).visits n (Multiset.mem_add.mpr (.inl ?_))
  cases hact : (s.thread t).active with
  | load f pc => rwa [hact] at hmem
  | _ =>
    rw [hact] at ht
    exact ht.elim

theorem ne_idle_of_genTag {w : ℕ} (h : tag w = genTag) : w ≠ idle := by
  rintro rfl
  exact absurd h (by decide)

variable [DecidableEq T]

/-- What a writer has passed stays without open transactions from before its exchange. -/
theorem Mem.Informs.step {c : Choice} {p' : Place} {w : ℕ} (hi : s.mem.Informs x w p)
    (h : s.Sound cfg) (hnow : w ≤ s.mem.now x)
    (hp : Passes s.mem s'.mem x r p p') (hs : s.step cfg t c = some s') :
    s'.mem.Informs x w p' := by
  obtain ⟨m', th', o', g', hm, rfl⟩ := State.step_move hs
  intro n hg ha
  rcases hm.opens (h.typed t) hg (fun _ hk => h.publishes_self hk) (fun hc => h.control_lt hc) with
    ⟨h₁, h₂, h₃, -⟩ | ho
  · have hg₀ : tag (s.mem.control n) = genTag := h₁ ▸ hg
    have ha₀ : s.mem.activeAddr n = x := h₂ ▸ ha
    rcases hi n hg₀ ha₀ with hahead | hle
    · rcases hp n 0 (h.listed_of_control (ne_idle_of_genTag hg₀)) (Nat.zero_le _) hahead with h | h
      · exact .inl h
      · exact absurd ha (h hg)
    · exact .inr (h₃ ▸ hle)
  · refine .inr ?_
    have ha' : m'.activeAddr n = x := ha
    rw [ha'] at ho
    exact hnow.trans ho.ge

/-! ## From the exchange to the return of `help` -/

instance (a : Active) (n : NodeId) : Decidable (a.Publishes n) := by
  unfold Active.Publishes
  split <;> infer_instance


/-- The storage whose pointer the function exchanges next. -/
def Active.exchanges? : Active → Option StorageId
  | .swap f | .cas f _ => some f.storage
  | _ => none

/-- The thread takes `r` out of the storage `x` in this step: `ptr.swap`, or a `compare_exchange`
that succeeds. -/
structure State.Exchanges (cfg : Config) (s s' : State T) (t : T) (x : StorageId) (r : Ref) :
    Prop where
  step : ∃ c, s.step cfg t c = some s'
  code : (s.thread t).active.exchanges? = some x
  pays : (s'.thread t).active = .payAll (.start x r) .enter

/-- The thread has swapped the control of its node to `IDLE` at one instant of the run, in a load
from the storage, with its candidate in the helping slot unless that had been settled. -/
def State.Closes (cfg : Config) (s₁ s₂ : State T) (u : T) (n : NodeId) (x : StorageId) : Prop :=
  ∃ s s' c f gen p, State.Run cfg State.FreshGen s₁ s ∧ s.step cfg u c = some s' ∧
    State.Run cfg State.FreshGen s' s₂ ∧ (s.thread u).active = .load f (.closeControl n gen p) ∧
    f.storage = x ∧ s'.mem.control n = idle ∧ s'.mem.PaidOr (helpingSlot n) ⟨cfg.kind x, p⟩

theorem State.Exchanges.freshGen (h : s₀.Exchanges cfg s₁ t x r) : s₀.FreshGen t := by
  have hc := h.code
  refine ⟨fun hw => ?_, fun n w hi => ?_⟩ <;> cases hact : (s₀.thread t).active with
  | load f pc =>
    rw [hact] at hc
    cases hc
  | _ => simp_all [Active.Wraps, Active.Issues]

/-- The displaced pointer is the last one in the log, and the new one is appended to it. -/
theorem State.Exchanges.log (h : s₀.Exchanges cfg s₁ t x r) (hs : s₀.Sound cfg) :
    (⟨cfg.kind x, s₀.mem.ptr x⟩ : Ref) = r ∧
      (s₁.mem.log x).length = (s₀.mem.log x).length + 1 := by
  obtain ⟨⟨c, hstep⟩, hc, hp⟩ := h
  obtain ⟨m', th', o', g', hm, rfl⟩ := State.step_move hstep
  have hp' : th'.active = .payAll (.start x r) .enter := by simpa [State.moved] using hp
  have hok := (hs.typed t).active
  cases hact : (s₀.thread t).active with
  | swap f =>
    rw [hact] at hc
    obtain rfl := Option.some.inj hc
    cases hm with
    | code hm =>
      rw [hact] at hm
      cases hm with
      | swap =>
        have he : PayFrame.start f.storage ⟨cfg.kind f.storage, s₀.mem.ptr f.storage⟩ =
            PayFrame.start f.storage r := (Active.payAll.inj hp').1
        exact ⟨congrArg PayFrame.ref he, by simp [State.moved, SwapFrame.exec]⟩
    | resume ha | receive ha | user ha =>
      rw [hact] at ha
      cases ha
  | cas f old =>
    rw [hact] at hc hok
    obtain rfl := Option.some.inj hc
    cases hm with
    | code hm =>
      rw [hact] at hm
      cases hm with
      | cas hm =>
        cases hm with
        | swapped hptr =>
          have he : PayFrame.start f.storage old.ref = PayFrame.start f.storage r :=
            (Active.payAll.inj hp').1
          refine ⟨?_, by simp [State.moved]⟩
          rw [← show old.ref = r from congrArg PayFrame.ref he, hptr, ← hok.2.2, ← hok.2.1.1]
        | late => cases hp'
    | resume ha | receive ha | user ha =>
      rw [hact] at ha
      cases ha
  | _ =>
    rw [hact] at hc
    cases hc

/-- A reader goes on with its transaction, or it closes it. -/
theorem Clause.publishes_next {a : Active} {o : Out} (h : Clause cfg tls m a o)
    (hok : a.Ok cfg tls) (hr : ∀ w, o.active ≠ .failed w) (hp : a.Publishes n) :
    (o.active.Publishes n ∧ o.mem.activeAddr n = m.activeAddr n ∧ o.mem.opened n = m.opened n) ∨
      ∃ f gen p, a = .load f (.closeControl n gen p) ∧ o.mem.control n = idle ∧
        o.mem.slot = m.slot := by
  cases h with
  | load h =>
    cases h with
    | noNode | notUsed | offerFull | closeInvalid => simp at hr
    | candidate | offerDebt => exact .inl ⟨hp, rfl, rfl⟩
    | @confirmHelping n₁ n' gen p h =>
      obtain rfl : n₁ = n' := by
        have := hok.2.1.symm.trans h
        simpa using this
      exact .inl ⟨hp, rfl, rfl⟩
    | closeControl | closeReplaced =>
      obtain rfl := hp
      exact .inr ⟨_, _, _, rfl, Function.update_self _ _ _, rfl⟩
    | _ => exact hp.elim
  | _ => exact hp.elim

/-- What a step does to a transaction: it goes on, or its thread closes it. -/
theorem State.Linear.publishes_next {c : Choice} (h : s.Linear cfg) (hf : s.FreshGen t)
    (hs : s.step cfg t c = some s') (hp : (s.thread u).active.Publishes n) :
    ((s'.thread u).active.Publishes n ∧ s'.mem.activeAddr n = s.mem.activeAddr n ∧
      s'.mem.opened n = s.mem.opened n) ∨
    (u = t ∧ ∃ f gen p, (s.thread u).active = .load f (.closeControl n gen p) ∧
      s'.mem.control n = idle ∧ s'.mem.slot = s.mem.slot) := by
  have hrun' := (h.sound.step hf.1 hs).running t
  obtain ⟨m', th', o', g', hm, rfl⟩ := State.step_move hs
  have hrun : ∀ w, th'.active ≠ .failed w := by simpa [State.moved] using hrun'
  by_cases hne : u = t
  · subst hne
    cases hm with
    | code hm =>
      rcases hm.publishes_next (h.sound.typed u).active hrun hp with ⟨h₁, h₂, h₃⟩ | hclose
      · exact .inl ⟨by simpa [State.moved, Thread.after] using h₁, h₂, h₃⟩
      · exact .inr ⟨rfl, hclose⟩
    | resume ha | receive ha | user ha =>
      rw [ha] at hp
      exact hp.elim
  · have hmem := State.Sound.mem_nodes ((h.sound.typed u).active.publishes_mem hp)
    refine .inl ⟨by simpa [State.moved, hne] using hp, ?_⟩
    rcases hm.hands (h.sound.typed t) (h.handing.active t) h.handing.posted.injective
      (fun hn => hne (h.sound.owner_unique hn hmem)) (h.sound.lt_nodeCount hmem) with hk | ⟨o, hk⟩
    · exact ⟨hk.activeAddr, hk.opened⟩
    · exact ⟨hk.activeAddr, hk.opened⟩

theorem State.Closes.tail {c : Choice} (h : s₁.Closes cfg s u n x) (hf : s.FreshGen t)
    (hs : s.step cfg t c = some s') : s₁.Closes cfg s' u n x := by
  obtain ⟨s₃, s₄, c', f, gen, p, h₁, h₂, h₃, h₄⟩ := h
  exact ⟨s₃, s₄, c', f, gen, p, h₁, h₂, h₃.tail ⟨(t, c), hf, hs⟩, h₄⟩

/-- What holds between the exchange of a writer and the return of its `pay_all`. -/
structure State.Serving (cfg : Config) (s₁ s : State T) (t : T) (x : StorageId) (r : Ref)
    (ks : List Cont) (w : ℕ) : Prop where
  linear : s.Linear cfg
  covering : s.Covering cfg
  run : State.Run cfg State.FreshGen s₁ s
  now : w ≤ s.mem.now x
  scan : ∃ p, Scan x r ks p (s.thread t) ∧ s.mem.Informs x w p

theorem State.Serving.step {c : Choice} {t' : T} {w : ℕ} (h : s₁.Serving cfg s t x r ks w)
    (hf : s.FreshGen t') (hin : s.StaysAbove t ks t') (hs : s.step cfg t' c = some s') :
    s₁.Serving cfg s' t x r ks w where
  linear := h.linear.step hf hs
  covering := h.covering.step h.linear.sound h.linear.borrowing hf.1 hf.2 hs
  run := h.run.tail ⟨(t', c), hf, hs⟩
  now := by
    obtain ⟨m', th', o', g', hm, rfl⟩ := State.step_move hs
    exact h.now.trans (hm.now_le x)
  scan := by
    obtain ⟨p, hscan, hinf⟩ := h.scan
    obtain ⟨p', hscan', hpass⟩ :=
      State.scan_step h.linear.sound h.covering.rechecked hf.1 hin hscan hs
    exact ⟨p', hscan', hinf.step h.linear.sound h.now hpass hs⟩

/-- After the exchange the whole scan is ahead. -/
theorem State.Exchanges.serving (h : s₀.Reachable cfg State.FreshGen)
    (hx : s₀.Exchanges cfg s₁ t x r) :
    s₁.Serving cfg s₁ t x r (s₁.thread t).conts (s₀.mem.log x).length := by
  obtain ⟨c, hstep⟩ := hx.step
  have h₁ : s₁.Reachable cfg State.FreshGen := h.tail ⟨(t, c), hx.freshGen, hstep⟩
  refine ⟨h₁.linear, h₁.covering.2, .refl, ?_, .start, ⟨[], rfl, ?_⟩, fun n _ _ => .inl trivial⟩
  · rw [Mem.now, (hx.log h.linear.sound).2]
    exact le_rfl
  · rw [paying_nil, hx.pays]
    exact ⟨rfl, rfl, rfl⟩

/-- An open transaction whose generation is gone has been given a replacement. -/
theorem Active.Publishes.replaced {a : Active} {tls : Tls} {m : Mem} (hp : a.Publishes n)
    (hok : a.Ok cfg tls) (hn : a.NodeOk cfg m) (hg : tag (m.control n) ≠ genTag) :
    tag (m.control n) = replacementTag := by
  cases a with
  | load f pc =>
    have hgen : ∀ {gen}, IsGen gen → m.Published n f.storage gen →
        tag (m.control n) = replacementTag := by
      intro gen hi h
      apply h.2.resolve_left
      intro hc
      exact hg (hc ▸ hi.tag_genWord)
    cases pc <;> simp only [Active.Publishes] at hp
    case closeControl =>
      subst hp
      exact hgen hok.2.2 hn.1
    all_goals
      subst hp
      exact hgen hok.2.2 hn
  | _ => exact hp.elim

/-- **No reader in progress is missed**: when `help` on a node returns to a writer that has
exchanged the pointer of a storage, a transaction on this storage that had been published on the
node before the exchange has been closed or has been given a replacement; and a transaction on this
storage whose generation is in the control has been published since. -/
theorem State.Reachable.no_reader_missed {f : PayFrame} (h : s₀.Reachable cfg State.FreshGen)
    (hx : s₀.Exchanges cfg s₁ t x r) (hu : (s₀.thread u).active.Publishes n)
    (ha : s₀.mem.activeAddr n = x)
    (hrun : State.Run cfg
      (fun s t' => s.FreshGen t' ∧ s.StaysAbove t (s₁.thread t).conts t') s₁ s₂)
    (hret : (s₂.thread t).active = .payAll f (.slot n 0))
    (hk : (s₂.thread t).conts = (s₁.thread t).conts) :
    (s₁.Closes cfg s₂ u n x ∨
      ((s₂.thread u).active.Publishes n ∧ tag (s₂.mem.control n) = replacementTag)) ∧
    (tag (s₂.mem.control n) = genTag → s₂.mem.activeAddr n = x →
      (s₀.mem.log x).length ≤ s₂.mem.opened n) := by
  obtain ⟨c₀, hstep⟩ := hx.step
  have hlive : x ∈ s₀.mem.live :=
    h.linear.borrowing.live u x (.inl (ha ▸ hu.needs (h.linear.sound.nodeOk u)))
  have hopened : s₀.mem.opened n < (s₀.mem.log x).length := by
    refine lt_of_le_of_lt ?_ (h.linear.now_lt hlive)
    exact ha ▸ hu.opened_le (h.linear.sound.nodeOk u) (h.linear.handing.active u)
  -- the reader goes on with its transaction, or it closes it
  have key : s₁.Serving cfg s₂ t x r (s₁.thread t).conts (s₀.mem.log x).length ∧
      (s₁.Closes cfg s₂ u n x ∨ ((s₂.thread u).active.Publishes n ∧ s₂.mem.activeAddr n = x ∧
        s₂.mem.opened n = s₀.mem.opened n)) := by
    refine Guarded.Run.invariant (I := fun s =>
      s₁.Serving cfg s t x r (s₁.thread t).conts (s₀.mem.log x).length ∧
        (s₁.Closes cfg s u n x ∨ ((s.thread u).active.Publishes n ∧ s.mem.activeAddr n = x ∧
          s.mem.opened n = s₀.mem.opened n))) hrun ⟨hx.serving h, .inr ?_⟩ ?_
    · rcases h.linear.publishes_next hx.freshGen hstep hu with
        ⟨h₁, h₂, h₃⟩ | ⟨rfl, f, gen, p, hact, -⟩
      · exact ⟨h₁, h₂.trans ha, h₃⟩
      · have := hx.code
        rw [hact] at this
        cases this
    · rintro s s' ⟨t', c⟩ ⟨hserve, hreader⟩ ⟨hf, hin⟩ hs
      refine ⟨hserve.step hf hin hs, ?_⟩
      rcases hreader with hclosed | ⟨hp, haddr, ho⟩
      · exact .inl (hclosed.tail hf hs)
      · rcases hserve.linear.publishes_next hf hs hp with
          ⟨h₁, h₂, h₃⟩ | ⟨rfl, f, gen, p, hact, hidle, hslot⟩
        · exact .inr ⟨h₁, h₂.trans haddr, h₃.trans ho⟩
        · have hn := hserve.linear.sound.nodeOk u
          rw [hact] at hn
          have hfx : f.storage = x := hn.1.1.symm.trans haddr
          refine .inl ⟨s, s', c, f, gen, p, hserve.run, hs, .refl, hact, hfx, hidle, ?_⟩
          have := hn.2
          rw [hfx] at this
          rwa [Mem.PaidOr, hslot]
  obtain ⟨hserve, hreader⟩ := key
  -- `help` on the node is over, so that no old transaction has its generation in the control
  have hinf : tag (s₂.mem.control n) = genTag → s₂.mem.activeAddr n = x →
      (s₀.mem.log x).length ≤ s₂.mem.opened n := by
    intro hg haddr
    obtain ⟨p, ⟨above, habove, hpay⟩, hinf⟩ := hserve.scan
    obtain rfl : above = [] := by simpa [hk] using habove
    rw [paying_nil, hret] at hpay
    refine (hinf n hg haddr).resolve_left ?_
    rw [hpay.2.2]
    simp [PayPc.place, Mem.Ahead]
  refine ⟨?_, hinf⟩
  rcases hreader with hclosed | ⟨hp, haddr, ho⟩
  · exact .inl hclosed
  · refine .inr ⟨hp, ?_⟩
    apply hp.replaced (hserve.linear.sound.typed u).active (hserve.linear.sound.nodeOk u)
    intro hg
    have := hinf hg haddr
    omega

/-- The function is `pay_all` at a slot. -/
def Active.slot? : Active → Option (NodeId × ℕ)
  | .payAll _ (.slot who i) => some (who, i)
  | _ => none

theorem Active.slot?_eq {a : Active} {who : NodeId} {i : ℕ} (h : a.slot? = some (who, i)) :
    ∃ f, a = .payAll f (.slot who i) := by
  cases a with
  | payAll f pc =>
    cases pc <;> simp only [Active.slot?, reduceCtorEq, Option.some.injEq, Prod.mk.injEq] at h
    obtain ⟨rfl, rfl⟩ := h
    exact ⟨f, rfl⟩
  | _ => cases h

/-- In the sample run the reader `1` is waiting in its transaction on the storage `1`, and it is
given a replacement. -/
theorem State.Reachable.no_reader_missed_sample :
    ((State.sample 78).Closes .sample (State.sample 122) 1 0 1 ∨
      (((State.sample 122).thread 1).active.Publishes 0 ∧
        tag ((State.sample 122).mem.control 0) = replacementTag)) ∧
    (tag ((State.sample 122).mem.control 0) = genTag → (State.sample 122).mem.activeAddr 0 = 1 →
      ((State.sample 77).mem.log 1).length ≤ (State.sample 122).mem.opened 0) := by
  obtain ⟨f, hf⟩ := Active.slot?_eq (a := ((State.sample 122).thread 0).active)
    (show _ = some (0, 0) by decide +kernel)
  have hstep := State.sample_step (k := 77) (t := 0) (c := .go false) (by rfl)
  exact State.Reachable.no_reader_missed (State.sample_reachable 77)
    (r := ⟨.arc, 3⟩) ⟨⟨_, hstep⟩, by decide +kernel, by decide +kernel⟩ (by decide +kernel)
    (by decide +kernel)
    (State.sample_run_of (k := 78) (l := 44)
      (P := fun s t' => s.FreshGen t' ∧ s.StaysAbove 0 ((State.sample 78).thread 0).conts t')
      (fun _ _ h => h.1) (by decide +kernel)) hf (by decide +kernel)

end ArcSwap
