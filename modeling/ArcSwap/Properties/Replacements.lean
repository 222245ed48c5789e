import ArcSwap.Invariants.Books
import ArcSwap.Properties.Register

/-!
# Replacements are handed over once

A helper that has exchanged the generation of a transaction for its envelope has given away the
reference of its replacement. The reader of this very transaction takes it out of the envelope, and
nobody else does: a transaction is given at most one replacement, it has been loaded from the
storage of the transaction after the generation was published, and it waits in the envelope until it
is read.
-/

namespace ArcSwap

variable {T : Type*} {cfg : Config} {tls : Tls} {m m' : Mem} {s s' s₁ s₂ : State T} {t t' u : T}
  {f : LoadFrame} {n : NodeId} {gen w since : ℕ} {x : StorageId} {G : Multiset (T × Offer)}

/-! ## Giving and taking -/

/-- What the function hands over to the node in its next step. -/
def Active.handsOver (m : Mem) (n : NodeId) : Active → Multiset Offer
  | .payAll f (.helpCas _ who c q _ _) =>
    if who = n ∧ m.control who = c then {⟨c, f.storage, q, f.since⟩} else 0
  | _ => 0

/-- What the thread hands over to the node in its next step, with its name on it. -/
def State.handsOver (s : State T) (n : NodeId) (t : T) : Multiset (T × Offer) :=
  ((s.thread t).active.handsOver s.mem n).map fun o => (t, o)

/-- The replacement that the node has been given and has not taken yet. -/
def Mem.pending (m : Mem) (n : NodeId) : Multiset Offer := (m.offer n).elim 0 fun o => {o}

/-- The function is reading the replacement out of the envelope in the control of the node. -/
def Active.Takes (n : NodeId) : Active → Prop
  | .load _ (.takeEnvelope n' _ _ _) => n' = n
  | _ => False

/-- The function is in `load` between the publication of a generation on the node and the end of
`confirm`. -/
def Active.Confirms (n : NodeId) : Active → Prop
  | .load _ (.candidate n' _) | .load _ (.confirmHelping n' _ _) | .load _ (.offerDebt n' _ _)
  | .load _ (.closeControl n' _ _) | .load _ (.takeEnvelope n' _ _ _)
  | .load _ (.keepEnvelope n' _ _ _) => n' = n
  | _ => False

/-- The thread `t` takes a step only before the end of `confirm`. -/
def State.StaysIn (s : State T) (t : T) (n : NodeId) (t' : T) : Prop :=
  t' = t → (s.thread t).active.Confirms n

/-- A function that reads an envelope has got it from the control of its own node. -/
theorem Active.Ok.takes_mem {a : Active} (hok : a.Ok cfg tls) (h : a.Takes n) :
    n ∈ tls.head.nodes + a.nodes := by
  cases a with
  | load f pc =>
    cases pc <;> simp only [Active.Takes] at h
    subst h
    exact hok.2.1.mem
  | _ => exact h.elim

/-- A step changes what a node has been given by giving or taking. -/
theorem Clause.pending {a : Active} {o : Out} (h : Clause cfg tls m a o) (n : NodeId) :
    (a.handsOver m n = 0 ∧ o.mem.offer n = m.offer n) ∨
      (∃ y, a.handsOver m n = {y} ∧ o.mem.offer n = some y) ∨
      (a.Takes n ∧ a.handsOver m n = 0 ∧ o.mem.offer n = none) := by
  cases h with
  | get h | cooldown h | cas h | dec h | intoInner h | dropGuard h =>
    left
    cases h <;> exact ⟨rfl, rfl⟩
  | swap => exact .inl ⟨rfl, rfl⟩
  | load h =>
    cases h with
    | @takeEnvelope n' =>
      by_cases hn : n' = n
      · subst hn
        exact .inr (.inr ⟨rfl, rfl, Function.update_self _ _ _⟩)
      · exact .inl ⟨rfl, Function.update_of_ne (Ne.symm hn) _ _⟩
    | _ => exact .inl ⟨rfl, rfl⟩
  | payAll h =>
    cases h with
    | @helpCas me who c q theirs mine hc =>
      by_cases hn : who = n
      · subst hn
        refine .inr (.inl ⟨_, if_pos ⟨rfl, hc⟩, Function.update_self _ _ _⟩)
      · exact .inl ⟨if_neg fun h => hn h.1, Function.update_of_ne (Ne.symm hn) _ _⟩
    | helpLate hc => exact .inl ⟨if_neg fun h => hc h.2, rfl⟩
    | _ => exact .inl ⟨rfl, rfl⟩

theorem Active.handsOver_eq {a : Active} {y : Offer} (h : y ∈ a.handsOver m n) :
    ∃ f me theirs mine, a = .payAll f (.helpCas me n y.word y.value theirs mine) ∧
      m.control n = y.word ∧ f.storage = y.storage ∧ f.since = y.since := by
  cases a with
  | payAll f pc =>
    cases pc with
    | helpCas me who c q theirs mine =>
      simp only [Active.handsOver] at h
      split at h
      · rename_i hc
        obtain rfl := Multiset.mem_singleton.mp h
        obtain ⟨rfl, hc⟩ := hc
        exact ⟨f, me, theirs, mine, rfl, hc, rfl, rfl⟩
      · simp at h
    | _ => simp [Active.handsOver] at h
  | _ => simp [Active.handsOver] at h

theorem Move.pending {th' : Thread} {o' : Multiset Ref} {g' : Multiset Guard}
    (h : Move cfg s t m' th' o' g') (n : NodeId) :
    (s.handsOver n t = 0 ∧ m'.offer n = s.mem.offer n) ∨
      (∃ y, s.handsOver n t = {(t, y)} ∧ y ∈ (s.thread t).active.handsOver s.mem n ∧
        m'.offer n = some y) ∨
      ((s.thread t).active.Takes n ∧ s.handsOver n t = 0 ∧ m'.offer n = none) := by
  have hzero : ∀ {a}, (s.thread t).active = a → a.handsOver s.mem n = 0 → s.handsOver n t = 0 := by
    rintro a rfl ha
    rw [State.handsOver, ha, Multiset.map_zero]
  cases h with
  | code h =>
    rcases h.pending n with ⟨h₁, h₂⟩ | ⟨y, h₁, h₂⟩ | ⟨h₁, h₂, h₃⟩
    · exact .inl ⟨hzero rfl h₁, h₂⟩
    · refine .inr (.inl ⟨y, ?_, by simp [h₁], h₂⟩)
      rw [State.handsOver, h₁, Multiset.map_singleton]
    · exact .inr (.inr ⟨h₁, hzero rfl h₂, h₃⟩)
  | resume ha _ h => exact .inl ⟨hzero ha rfl, by rw [h.mem_eq]⟩
  | receive ha => exact .inl ⟨hzero ha rfl, rfl⟩
  | user ha h => exact .inl ⟨hzero ha rfl, by rw [h.transactions.2.2.1]⟩

/-! ## Where a replacement comes from -/

/-- What the helper has loaded, and is going to offer to a node. -/
def Active.fetched? : Active → Option (NodeId × Offer)
  | .payAll f (.helpTheirs _ who c q) | .payAll f (.helpMine _ who c q _)
  | .payAll f (.helpWrite _ who c q _ _) | .payAll f (.helpCas _ who c q _ _) =>
    some (who, ⟨c, f.storage, q, f.since⟩)
  | _ => none

/-- The load of a replacement that the suspended helper waits for: the node, the word in its
control, the storage, and the last position in its log when the load began. -/
def Cont.fetches? : Cont → Option (NodeId × ℕ × StorageId × ℕ)
  | .helpReplacement f _ who c => some (who, c, f.storage, f.since)
  | _ => none

theorem Active.fetched?_watches {a : Active} {y : Offer} (h : a.fetched? = some (n, y)) :
    a.Watches n y.word := by
  cases a with
  | payAll f pc =>
    cases pc <;> simp only [Active.fetched?, reduceCtorEq, Option.some.injEq, Prod.mk.injEq] at h
    all_goals
      obtain ⟨rfl, rfl⟩ := h
      exact ⟨rfl, rfl⟩
  | _ => cases h

theorem Cont.fetches?_watches {k : Cont} (h : k.fetches? = some (n, w, x, since)) :
    k.Watches n w := by
  cases k <;> simp only [Cont.fetches?, reduceCtorEq, Option.some.injEq, Prod.mk.injEq] at h
  obtain ⟨rfl, rfl, -, -⟩ := h
  exact ⟨rfl, rfl⟩

theorem Active.handsOver_fetched? {a : Active} {y : Offer} (h : y ∈ a.handsOver m n) :
    a.fetched? = some (n, y) := by
  obtain ⟨f, me, theirs, mine, rfl, -, hx, hs⟩ := Active.handsOver_eq h
  rw [Active.fetched?, hx, hs]

theorem Dispatched.fetched? {p : PayFrame} {me who : NodeId} {c : ℕ} {a : Active}
    (h : Dispatched p me who c a) : a.fetched? = none := by
  cases h <;> rfl

theorem PayFrame.nextSlot_fetched? (p : PayFrame) (who : NodeId) (i : ℕ) :
    (p.nextSlot who i).fetched? = none := by
  unfold PayFrame.nextSlot
  split <;> rfl

/-- No clause makes up a replacement. -/
theorem Clause.fetched {a : Active} {o : Out} (h : Clause cfg tls m a o) {y : NodeId × Offer}
    (hy : o.active.fetched? = some y) : a.fetched? = some y := by
  cases h with
  | get h | cooldown h | dec h | intoInner h | dropGuard h | cas h => cases h <;> cases hy
  | swap => cases hy
  | load h =>
    cases h with
    | enter =>
      unfold LoadFrame.begin at hy
      split at hy <;> cases hy
    | _ => cases hy
  | payAll h =>
    cases h with
    | helpControl h | helpChanged _ h => simp [h.fetched?] at hy
    | slotOther | slotInc => simp [PayFrame.nextSlot_fetched?] at hy
    | helpTheirs | helpMine | helpWrite => exact hy
    | _ => cases hy

/-- A clause that calls `replacement` begins to load from the storage it pays for. -/
theorem Clause.fetches {a : Active} {o : Out} (h : Clause cfg tls m a o) {k : Cont}
    (hk : k ∈ o.calls) (hf : k.fetches? = some (n, w, x, since)) :
    (∃ p me, a = .payAll p (.helpAddr me n w)) ∧ o.active = .load ⟨x, since, none, 0⟩ .enter ∧
      m.now x = since := by
  have key : ∀ {q}, o.calls = [q] → q.fetches? = none → False := by
    intro q hq hn
    obtain rfl : k = q := by simpa [hq] using hk
    rw [hn] at hf
    cases hf
  cases h with
  | get h | cooldown h | dec h | intoInner h | dropGuard h | cas h =>
    cases h <;> first | exact (key rfl rfl).elim | cases hk
  | swap => exact (key rfl rfl).elim
  | load h => cases h <;> first | exact (key rfl rfl).elim | cases hk
  | payAll h =>
    cases h with
    | helpAddr h =>
      simp only [List.mem_cons, List.not_mem_nil, or_false] at hk
      rcases hk with rfl | rfl
      · cases hf
      · simp only [Cont.fetches?, Option.some.injEq, Prod.mk.injEq] at hf
        obtain ⟨rfl, rfl, rfl, rfl⟩ := hf
        exact ⟨⟨_, _, rfl⟩, rfl, rfl⟩
    | _ => first | exact (key rfl rfl).elim | cases hk

theorem Resumed.fetches {k : Cont} {r : Ret} {o : Out} (h : Resumed cfg tls m k r o) :
    (∀ y, o.active.fetched? = some (n, y) →
      k.fetches? = some (n, y.word, y.storage, y.since)) ∧ ∀ k ∈ o.calls, k.fetches? = none := by
  cases h with
  | loadNode | loadTmp =>
    unfold LoadFrame.begin
    split <;> simp [Active.fetched?]
  | helpReplacement =>
    refine ⟨?_, by simp⟩
    rintro y h
    simp only [Active.fetched?, Option.some.injEq, Prod.mk.injEq] at h
    obtain ⟨rfl, rfl⟩ := h
    rfl
  | helpRetry h => simp [h.fetched?]
  | _ => simp [Active.fetched?, Cont.fetches?, CasFrame.load]

theorem UserClause.fetches {k : UserKind} {th' : Thread} {o' : Multiset Ref} {g' : Multiset Guard}
    (h : UserClause cfg s t k m' th' o' g') (ha : (s.thread t).active = .user k) :
    th'.active.fetched? = none ∧ ∀ q ∈ th'.conts, q.fetches? ≠ none → q ∈ (s.thread t).conts := by
  cases h with
  | alloc | clone | fromInner | new | exitEmpty => exact ⟨by rw [ha]; rfl, fun q hq _ => hq⟩
  | exit => simp [Active.fetched?, Cont.fetches?]
  | destroyed | result | panic => exact ⟨rfl, fun q hq _ => hq⟩
  | _ =>
    refine ⟨rfl, Thread.forall_calling ?_ (fun hf => absurd rfl hf) fun q hq _ => hq⟩
    simp [SwapFrame.invoke, CasFrame.invoke, RcuFrame.invoke, Cont.fetches?]

section Run

variable [Fintype T] [DecidableEq T]

/-- The thread has begun to load from the storage at one instant of the run, where the word is the
one that it had read in the control of the node. -/
def State.Fetched (cfg : Config) (s₁ s : State T) (u : T) (n : NodeId) (w : ℕ) (x : StorageId)
    (since : ℕ) : Prop :=
  ∃ s₂ s₃ c p me, State.Run cfg State.FreshGen s₁ s₂ ∧ s₂.step cfg u c = some s₃ ∧
    State.Run cfg State.FreshGen s₃ s ∧ (s₂.thread u).active = .payAll p (.helpAddr me n w) ∧
    (s₃.thread u).active = .load ⟨x, since, none, 0⟩ .enter ∧ s₂.mem.now x = since

/-- What is being loaded for the generation, and what has been loaded for it, has been begun since
`s₁`. -/
structure State.Fetching (cfg : Config) (s₁ s : State T) (n : NodeId) (w : ℕ) : Prop where
  active : ∀ u y, (s.thread u).active.fetched? = some (n, y) → y.word = w →
    s₁.Fetched cfg s u n w y.storage y.since
  conts : ∀ u, ∀ k ∈ (s.thread u).conts, ∀ x since, k.fetches? = some (n, w, x, since) →
    s₁.Fetched cfg s u n w x since

theorem State.Fetched.tail {c : Choice} (h : s₁.Fetched cfg s u n w x since) (hf : s.FreshGen t)
    (hs : s.step cfg t c = some s') : s₁.Fetched cfg s' u n w x since := by
  obtain ⟨s₂, s₃, c', p, me, h₁, h₂, h₃, h₄⟩ := h
  exact ⟨s₂, s₃, c', p, me, h₁, h₂, h₃.tail ⟨(t, c), hf, hs⟩, h₄⟩

theorem State.Fetching.step {c : Choice} (h : s₁.Fetching cfg s n w)
    (hr : State.Run cfg State.FreshGen s₁ s) (hf : s.FreshGen t)
    (hs : s.step cfg t c = some s') : s₁.Fetching cfg s' n w := by
  have htail : ∀ {u x since}, s₁.Fetched cfg s u n w x since → s₁.Fetched cfg s' u n w x since :=
    fun h => h.tail hf hs
  have hs' := hs
  obtain ⟨m', th', o', g', hm, rfl⟩ := State.step_move hs
  have hself : (∀ y, th'.active.fetched? = some (n, y) → y.word = w →
      s₁.Fetched cfg (s.moved t m' th' o' g') t n w y.storage y.since) ∧
      ∀ k ∈ th'.conts, ∀ x since, k.fetches? = some (n, w, x, since) →
        s₁.Fetched cfg (s.moved t m' th' o' g') t n w x since := by
    cases hm with
    | code hm =>
      refine ⟨fun y hy hw => htail (h.active t y (hm.fetched hy) hw), fun k hk x since hx => ?_⟩
      rcases List.mem_append.mp hk with hk | hk
      · obtain ⟨⟨p, me, ha⟩, hload, hnow⟩ := hm.fetches hk hx
        exact ⟨s, _, c, p, me, hr, hs, .refl, ha,
          by simpa [State.moved, Thread.after] using hload, hnow⟩
      · exact htail (h.conts t k hk x since hx)
    | resume _ hk hm =>
      obtain ⟨h₁, h₂⟩ := hm.fetches
      refine ⟨fun y hy hw => ?_, fun q hq x since hx => ?_⟩
      · exact htail (h.conts t _ (by simp [hk]) _ _ (hw ▸ h₁ y hy))
      · rcases List.mem_append.mp hq with hq | hq
        · rw [h₂ q hq] at hx
          cases hx
        · exact htail (h.conts t q (by simp [hk, hq]) x since hx)
    | receive _ hk =>
      refine ⟨fun y hy => (by cases hy), fun q hq x since hx => ?_⟩
      exact htail (h.conts t q (by simp [hk, hq]) x since hx)
    | user ha hm =>
      obtain ⟨h₁, h₂⟩ := hm.fetches ha
      refine ⟨fun y hy => ?_, fun q hq x since hx => htail (h.conts t q (h₂ q hq ?_) x since hx)⟩
      · rw [h₁] at hy
        cases hy
      · rw [hx]
        exact Option.some_ne_none _
  constructor
  · intro u y hy hw
    by_cases hne : u = t
    · subst hne
      exact hself.1 y (by simpa [State.moved] using hy) hw
    · exact htail (h.active u y (by simpa [State.moved, hne] using hy) hw)
  · intro u k hk x since hx
    by_cases hne : u = t
    · subst hne
      exact hself.2 k (by simpa [State.moved] using hk) x since hx
    · exact htail (h.conts u k (by simpa [State.moved, hne] using hk) x since hx)

/-! ## One transaction -/

/-- The replacement has been loaded by the helper from the storage of this transaction, since the
generation was published in the state `s₁`, and it has been offered for this generation. -/
structure State.Serves (cfg : Config) (s₁ s : State T) (f : LoadFrame) (n : NodeId) (gen : ℕ)
    (y : T × Offer) : Prop where
  word : y.2.word = genWord gen
  storage : y.2.storage = f.storage
  kind : y.2.value.kind = cfg.kind f.storage
  fetched : s₁.Fetched cfg s y.1 n (genWord gen) f.storage y.2.since
  loaded : s.mem.Within f.storage y.2.since fun c => c.addr = y.2.value.addr

theorem State.Serves.tail {c : Choice} {y : T × Offer} (h : s₁.Serves cfg s f n gen y)
    (hf : s.FreshGen t) (hs : s.step cfg t c = some s') : s₁.Serves cfg s' f n gen y where
  word := h.word
  storage := h.storage
  kind := h.kind
  fetched := h.fetched.tail hf hs
  loaded := by
    obtain ⟨m', th', o', g', hm, rfl⟩ := State.step_move hs
    exact h.loaded.imp (hm.log_prefix _) le_rfl fun _ hc => hc

end Run

/-- The program points of `load` at which a replacement for the generation may come, or has come and
has not been read yet. -/
def LoadPc.Receives (n : NodeId) (gen : ℕ) : LoadPc → Prop
  | .candidate n' gen' | .confirmHelping n' gen' _ | .offerDebt n' gen' _ | .closeControl n' gen' _
  | .takeEnvelope n' gen' _ _ => n' = n ∧ gen' = gen
  | _ => False

/-- How far `confirm` has come, with what has been handed over to the node since the generation was
published. -/
inductive Phase (m : Mem) (f : LoadFrame) (n : NodeId) (gen : ℕ) (G : Multiset (T × Offer)) :
    Active → Prop
  | receives {pc : LoadPc} (h : pc.Receives n gen) (hG : G.map Prod.snd = m.pending n) :
    Phase m f n gen G (.load f pc)
  | taken {p e q y} (hG : G = {y}) (hq : y.2.value.addr = q) :
    Phase m f n gen G (.load f (.keepEnvelope n p e q))
  | err {p q y} (hG : G = {y}) (hq : y.2.value.addr = q) :
    Phase m f n gen G (.load f (.payUnused n p q))
  | ok {g} (hG : G = 0) : Phase m f n gen G (.intoInner g .start)

theorem Active.Confirms.handsOver {a : Active} {k : NodeId} (h : a.Confirms n) :
    a.handsOver m k = 0 := by
  cases a with
  | load f pc => rfl
  | _ => exact h.elim

theorem LoadPc.Receives.published {pc : LoadPc} (h : pc.Receives n gen)
    (hp : (Active.load f pc).Publishes n) (hn : (Active.load f pc).NodeOk cfg m) :
    m.Published n f.storage gen := by
  cases pc with
  | candidate | confirmHelping | offerDebt =>
    obtain ⟨rfl, rfl⟩ := h
    exact hn
  | closeControl =>
    obtain ⟨rfl, rfl⟩ := h
    exact hn.1
  | _ => exact hp.elim

/-- A published transaction waits with its generation in the control, or with the replacement in the
envelope. -/
theorem Mem.Receiving.waits (h : m.Receiving cfg f n gen) (hp : m.Published n f.storage gen)
    (hG : G.map Prod.snd = m.pending n) : (m.control n = genWord gen ∧ G = 0) ∨
      (tag (m.control n) = replacementTag ∧
        ∃ y, G = {y} ∧ m.envelope (clearTag (m.control n)) = y.2.value.addr) := by
  rcases hp.2 with hc | hr
  · left
    rw [Mem.pending, h.open_ hc] at hG
    exact ⟨hc, Multiset.map_eq_zero.mp hG⟩
  · right
    obtain ⟨hc, y, hy, hf⟩ := h.closed hr
    rw [Mem.pending, hy] at hG
    obtain ⟨z, rfl, rfl⟩ := Multiset.map_eq_singleton.mp hG
    refine ⟨hr, z, rfl, ?_⟩
    rw [hc, Mem.space, (isEnvelope_handoverAddr _).clearTag_replacementWord, Mem.envelope,
      handoverNode_handoverAddr, hf.content]

/-- The reader goes on with `confirm`. -/
theorem Clause.phase {a : Active} {o : Out} (h : Clause cfg tls m a o) (hp : Phase m f n gen G a)
    (hc : a.Confirms n) (hok : a.Ok cfg tls) (hh : a.Handing cfg m)
    (hr : ∀ v, o.active ≠ .failed v) :
    Phase o.mem f n gen G o.active ∧ o.nodes = tls.head.nodes + a.nodes := by
  have hnodes : ∀ {pc' : LoadPc}, tls.head.nodes + (Active.load f pc').nodes + contNodes [] =
      tls.head.nodes + tmpNodes f.tmp := fun {_} => add_zero _
  cases hp with
  | receives hpc hG =>
    cases h with
    | load h =>
      cases h with
      | noNode | notUsed | offerFull | closeInvalid => simp at hr
      | candidate | offerDebt => exact ⟨.receives hpc hG, hnodes⟩
      | @confirmHelping n₁ n₂ _ _ h =>
        obtain rfl : n₁ = n₂ := by
          have := hok.2.1.symm.trans h
          simpa using this
        exact ⟨.receives hpc hG, hnodes⟩
      | closeControl hcon =>
        obtain ⟨rfl, rfl⟩ := hpc
        refine ⟨.ok ?_, ?_⟩
        · rw [Mem.pending, hh.open_ hcon] at hG
          exact Multiset.map_eq_zero.mp hG
        · simp only [Out.nodes, Active.nodes, Cont.nodes, contNodes_cons, contNodes_nil, add_zero]
      | closeReplaced => exact ⟨.receives hpc hG, hnodes⟩
      | takeEnvelope =>
        obtain ⟨rfl, rfl⟩ := hpc
        obtain ⟨rfl, y, hy, hf⟩ := hh
        rw [Mem.pending, hy] at hG
        obtain ⟨z, rfl, rfl⟩ := Multiset.map_eq_singleton.mp hG
        refine ⟨.taken rfl ?_, hnodes⟩
        rw [← hf.content, Mem.envelope, Mem.space, handoverNode_handoverAddr]
      | _ => exact hpc.elim
  | taken hG hq =>
    cases h with
    | load h =>
      cases h with
      | noNode hpc => exact hpc.elim
      | notUsed hpc => exact hpc.elim
      | keepEnvelope => exact ⟨.err hG hq, hnodes⟩
  | err => exact hc.elim
  | ok => exact hc.elim

section Run

variable [Fintype T] [DecidableEq T]

/-- What holds from the publication of a generation in the state `s₁` to the end of `confirm`. -/
structure State.Underway (cfg : Config) (s₁ s : State T) (t : T) (f : LoadFrame) (n : NodeId)
    (gen : ℕ) (G : Multiset (T × Offer)) : Prop where
  linear : s.Linear cfg
  run : State.Run cfg State.FreshGen s₁ s
  owns : n ∈ (s.thread t).nodes
  fetching : s₁.Fetching cfg s n (genWord gen)
  serves : ∀ y ∈ G, s₁.Serves cfg s f n gen y
  phase : Phase s.mem f n gen G (s.thread t).active

omit [DecidableEq T] in
/-- A replacement is handed over to an open transaction, for the storage that it loads from. -/
theorem State.Linear.hands_open (h : s.Linear cfg) {y : Offer}
    (hy : y ∈ (s.thread u).active.handsOver s.mem n) :
    tag (s.mem.control n) = genTag ∧ s.mem.control n = y.word ∧ s.mem.activeAddr n = y.storage ∧
      y.value.kind = cfg.kind y.storage ∧
      s.mem.Within y.storage y.since (fun c => c.addr = y.value.addr) := by
  obtain ⟨p, me, theirs, mine, ha, hc, hx, hs⟩ := Active.handsOver_eq hy
  have hok := (h.sound.typed u).active
  have hh := h.handing.active u
  have hw := h.windows.active u
  rw [ha] at hok hh hw
  obtain ⟨haddr, -⟩ := hh.1 hc
  exact ⟨hc ▸ hok.2.1.2.2, hc, haddr.trans hx, hx ▸ hok.2.2.1, hx ▸ hs ▸ hw⟩

omit [Fintype T] [DecidableEq T] in
/-- Nothing is handed over to a node after its transaction has been closed. -/
theorem Phase.receives_of_gen {a : Active} (h : Phase m f n gen G a)
    (hc : ¬ a.Publishes n → m.control n = idle) (hg : tag (m.control n) = genTag) :
    ∃ pc : LoadPc, a = .load f pc ∧ pc.Receives n gen ∧ a.Publishes n ∧
      G.map Prod.snd = m.pending n := by
  have hp : a.Publishes n := by
    by_contra hp
    rw [hc hp] at hg
    exact absurd hg (by decide)
  cases h with
  | receives hpc hG => exact ⟨_, rfl, hpc, hp, hG⟩
  | taken | err | ok => exact hp.elim

theorem State.Underway.step {c : Choice} (h : s₁.Underway cfg s t f n gen G) (hf : s.FreshGen t')
    (hin : s.StaysIn t n t') (hs : s.step cfg t' c = some s') :
    s₁.Underway cfg s' t f n gen (G + s.handsOver n t') := by
  have hlin := h.linear.step hf hs
  have hrun := h.run.tail ⟨(t', c), hf, hs⟩
  have hfet := h.fetching.step h.run hf hs
  have hserves : ∀ y ∈ G, s₁.Serves cfg s' f n gen y := fun y hy => (h.serves y hy).tail hf hs
  have hsound := h.linear.sound
  have hfail' := (hsound.step hf.1 hs).running t'
  have hs' := hs
  obtain ⟨m', th', o', g', hm, rfl⟩ := State.step_move hs
  have hfail : ∀ v, th'.active ≠ .failed v := by simpa [State.moved] using hfail'
  by_cases hne : t' = t
  · -- the reader goes on
    subst hne
    have hconf := hin rfl
    cases hm with
    | @code o hm =>
      have hzero : s.handsOver n t' = 0 := by
        rw [State.handsOver, hconf.handsOver, Multiset.map_zero]
      obtain ⟨hp, hn⟩ := hm.phase h.phase hconf (hsound.typed t').active
        (h.linear.handing.active t') hfail
      rw [hzero, add_zero]
      refine ⟨hlin, hrun, ?_, hfet, hserves, by simpa [State.moved, Thread.after] using hp⟩
      have howns := h.owns
      rw [Thread.nodes, ← hn] at howns
      simpa [State.moved, Thread.after, Thread.nodes, Out.nodes, add_assoc] using howns
    | resume ha | receive ha | user ha =>
      rw [ha] at hconf
      exact hconf.elim
  · -- another thread takes the step
    have hthread : (s.moved t' m' th' o' g').thread t = s.thread t := by
      simp [State.moved, Ne.symm hne]
    have hnot : n ∉ (s.thread t').nodes := fun hn => hne (hsound.owner_unique h.owns hn)
    rcases hm.pending n with ⟨hz, ho⟩ | ⟨y, hy, hmem, ho⟩ | ⟨htake, -⟩
    · rw [hz, add_zero]
      refine ⟨hlin, hrun, hthread ▸ h.owns, hfet, hserves, hthread ▸ ?_⟩
      have hp := h.phase
      generalize (s.thread t).active = a at hp
      cases hp with
      | receives hpc hG =>
        exact .receives hpc
          (hG.trans (by rw [Mem.pending, Mem.pending, State.moved, ho]))
      | taken hG hq => exact .taken hG hq
      | err hG hq => exact .err hG hq
      | ok hG => exact .ok hG
    · -- the replacement comes while the generation is in the control
      obtain ⟨hg, hw, hx, hk, hl⟩ := h.linear.hands_open hmem
      obtain ⟨pc, ha, hpc, hpub, hG⟩ :=
        h.phase.receives_of_gen (hsound.control_idle h.owns) hg
      have hpublished := hpc.published (ha ▸ hpub) (ha ▸ hsound.nodeOk t)
      have hword : s.mem.control n = genWord gen := by
        apply hpublished.2.resolve_right
        intro hr
        rw [hr] at hg
        exact absurd hg (by decide)
      have hnone : s.mem.offer n = none := h.linear.handing.offer_open hsound hg
      obtain rfl : G = 0 := by
        rw [Mem.pending, hnone] at hG
        exact Multiset.map_eq_zero.mp hG
      rw [hy, zero_add]
      refine ⟨hlin, hrun, hthread ▸ h.owns, hfet, ?_, hthread ▸ ha ▸ .receives hpc ?_⟩
      · intro z hz
        obtain rfl := Multiset.mem_singleton.mp hz
        have hstorage : y.storage = f.storage := hx.symm.trans hpublished.1
        have hfetched := h.fetching.active t' y (Active.handsOver_fetched? hmem)
          (hw.symm.trans hword)
        refine ⟨hw.symm.trans hword, hstorage, hstorage ▸ hk, hstorage ▸ hfetched.tail hf hs', ?_⟩
        exact hstorage ▸ hl.imp (hm.log_prefix _) le_rfl fun _ hc => hc
      · rw [Mem.pending, State.moved, ho]
        rfl
    · have hmem := State.Sound.mem_nodes ((hsound.typed t').active.takes_mem htake)
      exact absurd hmem hnot

/-- A generation is published: the transaction begins with nothing handed over. -/
theorem State.Linear.underway {c : Choice} (h : s.Linear cfg)
    (ha : (s.thread t).active = .load f (.publishGen n gen)) (hf : s.FreshGen t)
    (hs : s.step cfg t c = some s₁) : s₁.Underway cfg s₁ t f n gen 0 := by
  have hlin := h.step hf hs
  have hok := (h.sound.typed t).active
  have hgen : gen ≠ 0 := fun hg => hf.1 (by rw [ha]; exact hg)
  obtain ⟨hact, hconts, hcon⟩ := h.sound.publish ha hgen hs
  rw [ha] at hok
  have hg : tag (s₁.mem.control n) = genTag := hcon ▸ hok.2.2.tag_genWord
  have hissue : (s.thread t).active.Issues n (genWord gen) := by
    rw [ha]
    exact ⟨rfl, rfl⟩
  -- nobody watches a generation that has just been published
  have hwatch : ∀ u, ¬ (s₁.thread u).Watches n (genWord gen) := by
    intro u hu
    apply hf.2 n _ hissue u
    by_cases hne : u = t
    · subst hne
      rcases hu with hu | hu
      · rw [hact] at hu
        exact hu.elim
      · exact .inr (hconts ▸ hu)
    · obtain ⟨m', th', o', g', -, rfl⟩ := State.step_move hs
      simpa [State.moved, hne] using hu
  refine ⟨hlin, .refl, ?_, ⟨fun u y hy hw => ?_, fun u k hk x since hx => ?_⟩, by simp, ?_⟩
  · exact State.Sound.mem_nodes ((hlin.sound.typed t).active.publishes_mem (by rw [hact]; rfl))
  · exact absurd (.inl (hw ▸ Active.fetched?_watches hy)) (hwatch u)
  · exact absurd (.inr ⟨k, hk, Cont.fetches?_watches hx⟩) (hwatch u)
  · have hnone : s₁.mem.offer n = none := hlin.handing.offer_open hlin.sound hg
    have hpend : s₁.mem.pending n = 0 := by
      rw [Mem.pending, hnone]
      rfl
    rw [hact]
    exact .receives ⟨rfl, rfl⟩ hpend.symm

/-! ## What is handed over -/

/-- What has become of the transaction, published in the state `s₁`, whose node has been given the
replacements `G` since. -/
structure State.Confirmation (cfg : Config) (s₁ s : State T) (t : T) (f : LoadFrame) (n : NodeId)
    (gen : ℕ) (G : Multiset (T × Offer)) : Prop where
  /-- They are for this transaction. -/
  serves : ∀ y ∈ G, s₁.Serves cfg s f n gen y
  /-- There is at most one. -/
  once : G.card ≤ 1
  /-- As long as the control has not been closed, it has the generation in it and nothing has been
  handed over, or it has the envelope in it, with the replacement. -/
  waits : (s.thread t).active.Publishes n → (s.mem.control n = genWord gen ∧ G = 0) ∨
    (tag (s.mem.control n) = replacementTag ∧
      ∃ y, G = {y} ∧ s.mem.envelope (clearTag (s.mem.control n)) = y.2.value.addr)
  /-- When the reader has closed it, the replacement is still in the envelope. -/
  reads : ∀ f' gen' p e, (s.thread t).active = .load f' (.takeEnvelope n gen' p e) →
    ∃ y, G = {y} ∧ s.mem.envelope e = y.2.value.addr
  /-- `confirm` returns `Err` with the replacement. -/
  err : ∀ f' p q, (s.thread t).active = .load f' (.payUnused n p q) →
    ∃ y, G = {y} ∧ y.2.value.addr = q
  /-- `confirm` returns `Ok`: nothing has been handed over. -/
  ok : ∀ g, (s.thread t).active = .intoInner g .start → G = 0

/-- Replacements are handed over once, to the transaction that they are for. -/
structure State.HandsOver (cfg : Config) (s : State T) : Prop where
  /-- When a reader publishes a generation now, it is given what has been loaded for it. -/
  confirms : ∀ t f n gen c s₁ s₂ G, (s.thread t).active = .load f (.publishGen n gen) →
    s.FreshGen t → s.step cfg t c = some s₁ →
    Guarded.Tally (fun s a => s.step cfg a.1 a.2)
      (fun s (a : T × Choice) => s.FreshGen a.1 ∧ s.StaysIn t n a.1)
      (fun s a _ => s.handsOver n a.1) s₁ s₂ G → s₁.Confirmation cfg s₂ t f n gen G
  /-- A helper that hands over its replacement gives up its reference, to an open transaction on the
  storage that it pays for, with nothing handed over before; the replacement is in the envelope. -/
  gives : ∀ u n y c s', y ∈ (s.thread u).active.handsOver s.mem n → s.step cfg u c = some s' →
    (∃ t, (s.thread t).active.Publishes n) ∧ s.mem.control n = y.word ∧
      s.mem.activeAddr n = y.storage ∧ s.mem.pending n = 0 ∧ s'.mem.pending n = {y} ∧
      s'.mem.envelope (clearTag (s'.mem.control n)) = y.value.addr ∧
      (s.thread u).claims cfg = (s'.thread u).claims cfg + {y.value.claim} ∧
      s'.mem.count = s.mem.count
  /-- It waits for its reader, and is in the envelope until it is taken. -/
  waits : ∀ n, ∀ y ∈ s.mem.pending n, (∃ t, (s.thread t).active.Receives n) ∧
    ∀ t c s', s.step cfg t c = some s' → y ∈ s'.mem.pending n ∨ (s.thread t).active.Takes n
  /-- The reader that reads it out of the envelope has the reference. -/
  takes : ∀ t f n gen p e c s', (s.thread t).active = .load f (.takeEnvelope n gen p e) →
    s.step cfg t c = some s' → (s'.thread t).active =
      .load f (.keepEnvelope n p e (s.mem.envelope e)) ∧
      (∃ y, s.mem.pending n = {y} ∧ y.value = ⟨cfg.kind f.storage, s.mem.envelope e⟩) ∧
      s'.mem.pending n = 0 ∧ (s'.thread t).claims cfg =
        (s.thread t).claims cfg + {Ref.claim ⟨cfg.kind f.storage, s.mem.envelope e⟩} ∧
      s'.mem.count = s.mem.count
  /-- A helper whose `compare_exchange` fails keeps its reference, and drops it next. -/
  keeps : ∀ u p me n w q theirs mine c s',
    (s.thread u).active = .payAll p (.helpCas me n w q theirs mine) → s.mem.control n ≠ w →
    s.step cfg u c = some s' → s'.mem = s.mem ∧ (s'.thread u).active = .dec q ∧
      (s'.thread u).claims cfg = (s.thread u).claims cfg
  /-- The drop takes the reference off the count. -/
  drops : ∀ u q c s', (s.thread u).active = .dec q → s.step cfg u c = some s' →
    (q.Counted → s'.mem.count q = s.mem.count q - 1) ∧
      (∀ r ≠ q, s'.mem.count r = s.mem.count r) ∧
      (s.thread u).claims cfg = (s'.thread u).claims cfg + {q.claim}

theorem State.Underway.confirmation (h : s₁.Underway cfg s t f n gen G) :
    s₁.Confirmation cfg s t f n gen G := by
  have hphase := h.phase
  have hh := h.linear.handing.active t
  have hn := h.linear.sound.nodeOk t
  refine ⟨h.serves, ?_, fun hp => ?_, fun f' gen' p e ha => ?_, fun f' p q ha => ?_,
    fun g ha => ?_⟩
  · generalize (s.thread t).active = a at hphase
    cases hphase with
    | receives _ hG =>
      rw [← Multiset.card_map Prod.snd, hG, Mem.pending]
      cases s.mem.offer n <;> simp
    | taken hG | err hG | ok hG => simp [hG]
  · generalize (s.thread t).active = a at hphase hp hh hn
    cases hphase with
    | @receives pc hpc hG =>
      have hpub := hpc.published hp hn
      cases pc with
      | candidate | confirmHelping | offerDebt | closeControl =>
        obtain ⟨rfl, rfl⟩ := hpc
        exact Mem.Receiving.waits hh hpub hG
      | _ => exact hp.elim
    | taken | err | ok => exact hp.elim
  · rw [ha] at hphase hh
    cases hphase with
    | receives hpc hG =>
      obtain ⟨-, rfl⟩ := hpc
      obtain ⟨rfl, y, hy, hf⟩ := hh
      rw [Mem.pending, hy] at hG
      obtain ⟨z, rfl, rfl⟩ := Multiset.map_eq_singleton.mp hG
      refine ⟨z, rfl, ?_⟩
      rw [← hf.content, Mem.envelope, Mem.space, handoverNode_handoverAddr]
  · rw [ha] at hphase
    cases hphase with
    | receives hpc => exact hpc.elim
    | err hG hq => exact ⟨_, hG, hq⟩
  · rw [ha] at hphase
    cases hphase with
    | ok hG => exact hG

/-- What a helper gives away when its `compare_exchange` succeeds. -/
theorem State.Linear.gives {c : Choice} {y : Offer} (h : s.Linear cfg)
    (hy : y ∈ (s.thread u).active.handsOver s.mem n) (hs : s.step cfg u c = some s') :
    s'.mem.pending n = {y} ∧ s'.mem.envelope (clearTag (s'.mem.control n)) = y.value.addr ∧
      (s.thread u).claims cfg = (s'.thread u).claims cfg + {y.value.claim} ∧
      s'.mem.count = s.mem.count := by
  obtain ⟨p, me, theirs, mine, ha, hc, hx, hsince⟩ := Active.handsOver_eq hy
  obtain ⟨o, ho, rfl⟩ := State.step_clause hs (by rw [ha]; trivial)
  have hh := h.handing.active u
  rw [ha] at ho hh
  obtain ⟨-, -, rfl, hcont⟩ := hh
  cases ho with
  | payAll ho =>
    cases ho with
    | helpLate hc' => exact absurd hc hc'
    | helpCas =>
      refine ⟨?_, ?_, ?_, rfl⟩
      · rw [hx, hsince]
        simp [Mem.pending, State.moved]
      · simp [State.moved, Mem.space, (isEnvelope_handoverAddr _).clearTag_replacementWord,
          Mem.envelope, hcont]
      · simp only [Thread.claims, ha, State.moved, Function.update_self, Thread.after,
          Active.claims, PayPc.claims, List.nil_append]
        abel

/-- What a reader has got when it has read the envelope. -/
theorem State.Linear.takes {c : Choice} {p : Addr} {e : ℕ} (h : s.Linear cfg)
    (ha : (s.thread t).active = .load f (.takeEnvelope n gen p e))
    (hs : s.step cfg t c = some s') :
    (s'.thread t).active = .load f (.keepEnvelope n p e (s.mem.envelope e)) ∧
      (∃ y, s.mem.pending n = {y} ∧ y.value = ⟨cfg.kind f.storage, s.mem.envelope e⟩) ∧
      s'.mem.pending n = 0 ∧ (s'.thread t).claims cfg =
        (s.thread t).claims cfg + {Ref.claim ⟨cfg.kind f.storage, s.mem.envelope e⟩} ∧
      s'.mem.count = s.mem.count := by
  obtain ⟨o, ho, rfl⟩ := State.step_clause hs (by rw [ha]; trivial)
  have hh := h.handing.active t
  rw [ha] at ho hh
  obtain ⟨rfl, y, hy, hf⟩ := hh
  cases ho with
  | load ho =>
    cases ho with
    | noNode hpc => exact hpc.elim
    | notUsed hpc => exact hpc.elim
    | takeEnvelope =>
      refine ⟨by simp [State.moved, Thread.after], ⟨y, by simp [Mem.pending, hy], ?_⟩, ?_, ?_, rfl⟩
      · rw [Mem.envelope, Mem.space, handoverNode_handoverAddr, hf.content, ← hf.kind]
      · simp [Mem.pending, State.moved]
      · simp only [Thread.claims, ha, State.moved, Function.update_self, Thread.after,
          Active.claims, LoadPc.claims, List.nil_append]
        abel

omit [Fintype T] in
/-- What a helper does when its `compare_exchange` fails. -/
theorem State.keeps [Fintype T] {c : Choice} {p : PayFrame} {me : NodeId} {q : Ref}
    {theirs mine : ℕ} (ha : (s.thread u).active = .payAll p (.helpCas me n w q theirs mine))
    (hw : s.mem.control n ≠ w) (hs : s.step cfg u c = some s') :
    s'.mem = s.mem ∧ (s'.thread u).active = .dec q ∧
      (s'.thread u).claims cfg = (s.thread u).claims cfg := by
  obtain ⟨o, ho, rfl⟩ := State.step_clause hs (by rw [ha]; trivial)
  rw [ha] at ho
  cases ho with
  | payAll ho =>
    cases ho with
    | helpCas hc => exact absurd hc hw
    | helpLate =>
      refine ⟨rfl, by simp [State.moved, Thread.after], ?_⟩
      simp only [Thread.claims, ha, State.moved, Function.update_self, Thread.after,
        Active.claims, PayPc.claims, Cont.claims, contClaims_append, contClaims_cons,
        contClaims_nil]
      abel

omit [Fintype T] in
/-- What a drop does. -/
theorem State.drops [Fintype T] {c : Choice} {q : Ref} (ha : (s.thread u).active = .dec q)
    (hs : s.step cfg u c = some s') : (q.Counted → s'.mem.count q = s.mem.count q - 1) ∧
      (∀ r ≠ q, s'.mem.count r = s.mem.count r) ∧
      (s.thread u).claims cfg = (s'.thread u).claims cfg + {q.claim} := by
  obtain ⟨o, ho, rfl⟩ := State.step_clause hs (by rw [ha]; trivial)
  rw [ha] at ho
  cases ho with
  | dec ho =>
    have hmem : o.mem = s.mem.dec q := by cases ho <;> rfl
    have hclaims : o.claims cfg = 0 := by cases ho <;> rfl
    refine ⟨fun hq => ?_, fun r hr => ?_, ?_⟩
    · simp [State.moved, hmem, hq]
    · simp only [State.moved, hmem, Mem.dec_count]
      split
      · exact Function.update_of_ne hr _ _
      · rfl
    · have hafter : ((s.thread u).after (s.thread u).conts o).claims cfg =
          o.claims cfg + contClaims (s.thread u).conts := by
        simp only [Thread.claims, Thread.after, Out.claims, contClaims_append, add_assoc]
      simp only [State.moved, Function.update_self]
      rw [hafter, hclaims, Thread.claims, ha, zero_add, add_comm]
      rfl

/-- **Replacements are handed over once**, to the transaction that they are for, in every reachable
state. -/
theorem State.Reachable.replacements_once (h : s.Reachable cfg State.FreshGen) :
    s.HandsOver cfg where
  confirms t f n gen c s₁ s₂ G ha hf hs htally := by
    refine State.Underway.confirmation ?_
    refine htally.invariant (I := fun s G => s₁.Underway cfg s t f n gen G)
      (h.linear.underway ha hf hs) ?_
    intro s s' a G hi hp hs
    exact hi.step hp.1 hp.2 hs
  gives u n y c s' hy hs := by
    obtain ⟨hg, hw, hx, -⟩ := h.linear.hands_open hy
    obtain ⟨t, ht⟩ := h.linear.sound.publishes n fun hi => by
      rw [hi] at hg
      exact absurd hg (by decide)
    have hnone := h.linear.handing.offer_open h.linear.sound hg
    exact ⟨⟨t, ht⟩, hw, hx, by rw [Mem.pending, hnone]; rfl, h.linear.gives hy hs⟩
  waits n y hy := by
    have ho : s.mem.offer n = some y := by
      cases hn : s.mem.offer n with
      | none => simp [Mem.pending, hn] at hy
      | some z => simpa [Mem.pending, hn, eq_comm] using hy
    refine ⟨h.linear.handing.offers n (by simp [ho]), fun t c s' hs => ?_⟩
    obtain ⟨m', th', o', g', hm, rfl⟩ := State.step_move hs
    rcases hm.pending n with ⟨-, ho'⟩ | ⟨z, -, hz, -⟩ | ⟨htake, -⟩
    · left
      rw [State.moved, Mem.pending, ho', ho]
      exact Multiset.mem_singleton_self y
    · -- a second replacement would have found the generation in the control
      have hnone := h.linear.handing.offer_open h.linear.sound (h.linear.hands_open hz).1
      rw [ho] at hnone
      cases hnone
    · exact .inr htake
  takes t f n gen p e c s' ha hs := h.linear.takes ha hs
  keeps u p me n w q theirs mine c s' ha hw hs := State.keeps ha hw hs
  drops u q c s' ha hs := State.drops ha hs

/-- In the sample run, when the writer is about to hand over its replacement. -/
theorem State.Reachable.replacements_once_sample : (State.sample 120).HandsOver .sample :=
  State.Reachable.replacements_once (State.sample_reachable 120)

end Run

end ArcSwap
