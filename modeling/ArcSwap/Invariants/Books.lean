import ArcSwap.Invariants.Claims

/-!
# The books of a run

The counts and the debts make up for the claims in every reachable state, provided that a debt is
only ever paid with a reference of its own kind. This is the case when all storages are of one
type: then all debts, and all that debts are paid with, are of one kind.
-/

namespace ArcSwap

variable {T : Type*} {cfg : Config} {s s' : State T} {t : T} {m' : Mem} {th' : Thread}
  {o' : Multiset Ref} {g' : Multiset Guard}

/-! ## The claims of a state -/

/-- The claims of what user code holds. -/
def poolClaims (o : Multiset Ref) (g : Multiset Guard) : Claims :=
  o.map Ref.claim + g.map Guard.claim

/-- All claims. -/
def State.claims [Fintype T] (cfg : Config) (s : State T) : Claims :=
  Family.total (Thread.claims cfg) s.thread + poolClaims s.owned s.guards + s.mem.claims cfg

/-- The counts and the debts make up for all claims, and every debt is referred to. -/
def State.Balanced [Fintype T] (cfg : Config) (s : State T) : Prop :=
  Ledger.Balanced Ref.Counted s.mem.slots s.mem.count s.mem.slot (s.claims cfg)

/-- If the thread pays a debt in this step, then with a reference of the same kind, or for a pointer
that has no count. -/
def State.SameKind (cfg : Config) (s : State T) (t : T) : Prop :=
  ∀ d r, (s.thread t).active.pays? cfg = some (d, r) → r.Counted → s.mem.Owes d r →
    s.mem.slot d = some r

/-! ## Steps of user code -/

/-- User code gives away the claim on a value. -/
theorem State.Gives.same {r : Ref} (h : s.Gives r) (g : Multiset Guard) :
    Ledger.Same Ref.Counted (poolClaims (s.owned.erase r) g + {r.claim})
      (poolClaims s.owned g) := by
  by_cases hr : r ∈ s.owned
  · refine .of_eq ?_
    conv_rhs => rw [← Multiset.cons_erase hr]
    rw [poolClaims, poolClaims, Multiset.map_cons, ← Multiset.singleton_add]
    abel
  · rw [Multiset.erase_of_notMem hr]
    exact .add_singleton (h.resolve_left hr) _

theorem poolClaims_erase_guard {o : Multiset Ref} {g : Multiset Guard} {x : Guard} (hx : x ∈ g) :
    poolClaims o (g.erase x) + {x.claim} = poolClaims o g := by
  conv_rhs => rw [← Multiset.cons_erase hx]
  rw [poolClaims, poolClaims, Multiset.map_cons, ← Multiset.singleton_add]
  abel

theorem poolClaims_cons_owned {o : Multiset Ref} {g : Multiset Guard} {r : Ref} :
    poolClaims (r ::ₘ o) g = poolClaims o g + {r.claim} := by
  rw [poolClaims, poolClaims, Multiset.map_cons, ← Multiset.singleton_add]
  abel

theorem poolClaims_cons_guard {o : Multiset Ref} {g : Multiset Guard} {x : Guard} :
    poolClaims o (x ::ₘ g) = poolClaims o g + {x.claim} := by
  rw [poolClaims, poolClaims, Multiset.map_cons, ← Multiset.singleton_add]
  abel

theorem Thread.calling_claims (th : Thread) (u : UserKind) (c : Call) :
    (th.calling u c).claims cfg = c.active.claims cfg + contClaims c.calls +
      contClaims th.conts := by
  simp only [Thread.claims, Thread.calling, contClaims_append, contClaims_cons, Cont.claims,
    zero_add, add_assoc]

theorem Thread.user_claims {th : Thread} {u : UserKind} (h : th.active = .user u) :
    th.claims cfg = contClaims th.conts := by
  rw [Thread.claims, h]
  exact zero_add _

/-- User code hands a value over to the function it calls. -/
theorem State.Gives.entry {r : Ref} {y : Claims} (h : s.Gives r) (hc : m'.count = s.mem.count)
    (hs : m'.slot = s.mem.slot) (hm : m'.claims cfg = s.mem.claims cfg)
    (hy : th'.claims cfg = y + {r.claim}) :
    s.mem.Entry m' (y + poolClaims s.owned s.guards + s.mem.claims cfg)
      (th'.claims cfg + poolClaims (s.owned.erase r) s.guards + m'.claims cfg) := by
  refine .inside (.same hc hs ?_) hm
  rw [hy, add_assoc, add_comm y, add_comm y, add_comm ({r.claim} : Claims)]
  exact (h.same _).add_right y

/-- A step of user code makes an entry in the books. -/
theorem UserClause.entry {u : UserKind} (h : UserClause cfg s t u m' th' o' g')
    (ha : (s.thread t).active = .user u) :
    s.mem.Entry m' ((s.thread t).claims cfg + poolClaims s.owned s.guards + s.mem.claims cfg)
      (th'.claims cfg + poolClaims o' g' + m'.claims cfg) := by
  rw [Thread.user_claims ha]
  cases h with
  | @alloc p hp hf =>
    have hc : (s.mem.alloc p).count =
        Function.update s.mem.count ⟨.arc, p⟩ (s.mem.count ⟨.arc, p⟩ + 1) := by
      rw [Mem.alloc, hf.1]
    refine .inside ?_ rfl
    rw [Mem.Entry, hc, Thread.user_claims ha, poolClaims_cons_owned, ← add_assoc]
    exact Ledger.Move.inc (.refl _)
  | clone =>
    refine .inside (.inc ?_) rfl
    rw [Thread.user_claims ha, poolClaims_cons_owned, ← add_assoc]
  | drop h =>
    exact State.Gives.entry (.inl h) rfl rfl rfl (by
      rw [Thread.calling_claims]
      simp only [Active.claims, contClaims_nil, add_zero]
      exact add_comm _ _)
  | @fromInner r h =>
    refine .inside (.same rfl rfl ?_) rfl
    rw [Thread.user_claims ha, poolClaims_cons_guard, add_comm, add_comm _ (poolClaims _ _)]
    exact (State.Gives.same (.inl h) _).add_right _
  | @intoInner g h | @dropGuard g h =>
    refine .inside (.keep rfl rfl ?_) rfl
    rw [Thread.calling_claims, ← poolClaims_erase_guard h]
    simp only [Active.claims, contClaims_nil, add_zero]
    abel
  | @new x p hx hb hg =>
    have hoff : (s.mem.newStorage x p).offeredClaims = s.mem.offeredClaims := rfl
    refine .same rfl rfl ?_
    rw [Thread.user_claims ha, Mem.claims, Mem.claims, Mem.newStorage_storedClaims hx, hoff]
    have := ((hg.same s.guards).add_right (contClaims (s.thread t).conts)).add_right
      (s.mem.storedClaims cfg + s.mem.offeredClaims)
    refine Ledger.Same.trans (.of_eq ?_) (this.trans (.of_eq ?_)) <;> abel
  | swap hx hg =>
    exact hg.entry rfl rfl rfl (by
      rw [Thread.calling_claims]
      simp only [SwapFrame.invoke, Active.claims, contClaims_nil, add_zero]
      exact add_comm _ _)
  | compareAndSwap hx hg =>
    exact hg.entry rfl rfl rfl (by
      rw [Thread.calling_claims]
      simp only [CasFrame.invoke, CasFrame.load, Active.claims, LoadPc.claims, Cont.claims,
        contClaims_cons, contClaims_nil, add_zero, zero_add]
      exact add_comm _ _)
  | result hu hg => exact hg.entry rfl rfl rfl (add_comm _ _)
  | @consume x hx | @dropStorage x hx =>
    have hoff : (s.mem.endStorage x).offeredClaims = s.mem.offeredClaims := rfl
    refine .keep rfl rfl ?_
    rw [Thread.calling_claims, Mem.claims, Mem.claims, ← Mem.endStorage_storedClaims hx, hoff]
    simp only [Active.claims, PayPc.claims, Cont.claims, PayFrame.start_ref, contClaims_cons,
      contClaims_nil, add_zero, Mem.stored]
    abel
  | exit hk => exact .inside (.keep rfl rfl (by rw [hk]; rfl)) rfl
  | exitEmpty => exact .inside (.keep rfl rfl (by rw [← Thread.user_claims ha]; rfl)) rfl
  | destroyed | panic =>
    refine .inside (.keep rfl rfl ?_) rfl
    simp only [Thread.claims, Active.claims, Ret.claims, zero_add]
  | load | loadFull | rcu =>
    refine .inside (.keep rfl rfl ?_) rfl
    rw [Thread.calling_claims]
    simp only [RcuFrame.invoke, Active.claims, LoadPc.claims, Cont.claims, contClaims_cons,
      contClaims_nil, add_zero, zero_add]

/-! ## One step -/

theorem Thread.after_claims (th : Thread) (ks : List Cont) (o : Out) :
    (th.after ks o).claims cfg = o.claims cfg + contClaims ks := by
  rw [Thread.claims, Thread.after, contClaims_append, Out.claims, add_assoc]

/-- What user code has been given goes to the pools. -/
theorem Ret.claims_receive {c : Contract} {r : Ret} (hc : ∀ r, c ≠ .paid r) :
    poolClaims s.owned s.guards + r.claims c =
      poolClaims (s.receive r).owned (s.receive r).guards := by
  cases r with
  | guard g w => cases c <;> first | exact absurd rfl (hc _) | exact poolClaims_cons_guard.symm
  | value v w => cases c <;> first | exact absurd rfl (hc _) | exact poolClaims_cons_owned.symm
  | _ => cases c <;> first | exact absurd rfl (hc _) | exact add_zero _

/-- A step makes an entry in the books. -/
theorem Move.entry (h : Move cfg s t m' th' o' g') (ht : (s.thread t).Typed cfg)
    (hh : (s.thread t).active.Handing cfg s.mem)
    (hx : ∀ x, (s.thread t).active.needs? = some x → x ∈ s.mem.live)
    (hn : ∀ n ∈ (s.thread t).nodes, n < s.mem.nodeCount)
    (hw : ∀ n, tag (s.mem.control n) = genTag → n < s.mem.nodeCount ∧ s.mem.offer n = none)
    (hnew : s.mem.offer s.mem.nodeCount = none) (hpay : s.SameKind cfg t)
    (hr : ∀ w, th'.active ≠ .failed w) :
    s.mem.Entry m' ((s.thread t).claims cfg + poolClaims s.owned s.guards + s.mem.claims cfg)
      (th'.claims cfg + poolClaims o' g' + m'.claims cfg) := by
  cases h with
  | @code o h =>
    have he := h.entry ht.active hh hx (fun n hn' => hn n (Multiset.mem_add.mpr (.inl hn'))) hw
      hnew hpay hr
    rw [Thread.after_claims, Thread.claims, add_assoc _ _ (poolClaims _ _), add_right_comm,
      add_assoc _ _ (poolClaims _ _), add_right_comm (o.claims cfg)]
    exact Ledger.Move.frame he _
  | @resume c r k ks o ha hk h =>
    have hl : c = k.expects := by
      have := ht.linked
      rw [ha, hk] at this
      exact this.1
    have hc := h.claims (ht.conts k (by simp [hk])) hr
    refine .inside (.keep (by rw [h.mem_eq]) (by rw [h.mem_eq]) ?_) (by rw [h.mem_eq])
    rw [Thread.after_claims, Thread.claims, ha, hk, hc, contClaims_cons, hl, Active.claims]
    abel
  | @receive c r u c' ks ha hk =>
    have hl : c = c' := by
      have := ht.linked
      rw [ha, hk] at this
      exact this.1
    have hu : ∀ r, c' ≠ .paid r := ht.conts (.user u c') (by simp [hk])
    refine .inside (.keep rfl rfl ?_) rfl
    rw [← Ret.claims_receive (hl ▸ hu), Thread.claims, Thread.claims, ha, hk, contClaims_cons]
    simp only [Active.claims, Cont.claims, zero_add]
    abel
  | user ha h => exact h.entry ha

variable [Fintype T]

/-- No replacement has been given to a transaction whose generation has not been replaced. -/
theorem State.Handing.offer_open {n : NodeId} (hh : s.Handing cfg) (h : s.Sound cfg)
    (hg : tag (s.mem.control n) = genTag) : s.mem.offer n = none := by
  have hne : s.mem.control n ≠ idle := by
    intro hi
    rw [hi] at hg
    exact absurd hg (by decide)
  obtain ⟨t, ht⟩ := h.publishes n hne
  exact ht.offer_open (h.nodeOk t) (hh.active t) hg

theorem State.Handing.offer_new (hh : s.Handing cfg) (h : s.Sound cfg) :
    s.mem.offer s.mem.nodeCount = none := by
  by_contra ho
  obtain ⟨t, ht⟩ := hh.offers _ ho
  have hm := (h.typed t).active.receives_mem ht
  exact absurd (h.lt_nodeCount (Multiset.mem_add.mpr (.inl hm))) (lt_irrefl _)

theorem State.init_balanced : (State.init : State T).Balanced cfg where
  sum r _ := by
    have h₀ : Family.total (Thread.claims cfg) (State.init : State T).thread = 0 :=
      Family.total_eq_zero fun t => rfl
    rw [State.claims, h₀]
    rfl
  inside d r h := by simp [State.init, Mem.empty] at h
  referred d r _ h := by simp [State.init, Mem.empty] at h

variable [DecidableEq T]

/-- What a step of the machine does to all claims. -/
theorem State.Sound.entry {c : Choice} (h : s.Sound cfg) (hh : s.Handing cfg) (hbo : s.Borrowing)
    (hw : s.NoWrap t) (hpay : s.SameKind cfg t) (hs : s.step cfg t c = some s') :
    s.mem.Entry s'.mem (s.claims cfg) (s'.claims cfg) := by
  have hrun' := (h.step hw hs).running t
  obtain ⟨m', th', o', g', hm, rfl⟩ := State.step_move hs
  have hrun : ∀ w, th'.active ≠ .failed w := by simpa [State.moved] using hrun'
  have he := hm.entry (h.typed t) (hh.active t) (fun x hx => hbo.live t x (.inl hx))
    (fun n hn => h.lt_nodeCount hn)
    (fun n hg => ⟨h.control_lt (fun hi => by rw [hi] at hg; exact absurd hg (by decide)),
      hh.offer_open h hg⟩) (hh.offer_new h) hpay hrun
  have hold : s.claims cfg = (s.thread t).claims cfg + poolClaims s.owned s.guards +
      s.mem.claims cfg + Family.rest (Thread.claims cfg) s.thread t := by
    rw [State.claims, Family.total_eq _ _ t]
    abel
  have hnew : (s.moved t m' th' o' g').claims cfg = th'.claims cfg + poolClaims o' g' +
      m'.claims cfg + Family.rest (Thread.claims cfg) s.thread t := by
    rw [State.claims, State.moved, Family.total_update]
    abel
  rw [hold, hnew]
  exact Ledger.Move.frame he _

/-- **The books stay balanced** in a step that pays a debt, if any, with a reference of its kind. -/
theorem State.Balanced.step {c : Choice} (hb : s.Balanced cfg) (h : s.Sound cfg)
    (hh : s.Handing cfg) (hbo : s.Borrowing) (hw : s.NoWrap t) (hpay : s.SameKind cfg t)
    (hs : s.step cfg t c = some s') : s'.Balanced cfg := by
  have he := h.entry hh hbo hw hpay hs
  obtain ⟨m', th', o', g', hm, rfl⟩ := State.step_move hs
  have hcount := (hm.fresh (fun n hn => h.chain.fresh n ((h.walks t).visits n hn)) h.owned.fresh).1
  exact (Ledger.Balanced.move hb he).grow (Mem.slots_mono hcount)

/-- The books of a state balance, and everything that this rests on holds. -/
structure State.Accounted (cfg : Config) (s : State T) : Prop where
  sound : s.Sound cfg
  handing : s.Handing cfg
  borrowing : s.Borrowing
  balanced : s.Balanced cfg

omit [DecidableEq T] in
theorem State.init_accounted : (State.init : State T).Accounted cfg :=
  ⟨init_sound, init_handing, init_borrowing, init_balanced⟩

theorem State.Accounted.step {c : Choice} (h : s.Accounted cfg) (hf : s.FreshGen t)
    (hk : s.SameKind cfg t) (hs : s.step cfg t c = some s') : s'.Accounted cfg where
  sound := h.sound.step hf.1 hs
  handing := h.handing.step h.sound hf.1 hf.2 hs
  borrowing := h.borrowing.step h.sound hs
  balanced := h.balanced.step h.sound h.handing h.borrowing hf.1 hk hs

/-! ## Storages of one type -/

/-- All storages are of the same type. -/
def Config.Uniform (cfg : Config) (k : RefKind) : Prop := ∀ x, cfg.kind x = k

/-- A guard that owes its reference is of the kind `k`. -/
def Guard.OfKind (k : RefKind) (g : Guard) : Prop := g.debt ≠ none → g.ref.kind = k

/-- The guard that the function releases is of the kind `k` if it owes its reference. -/
def Active.OfKind (k : RefKind) : Active → Prop
  | .intoInner g _ | .dropGuard g => g.OfKind k
  | _ => True

/-- All debts are of the kind `k`. -/
structure State.OfKind (k : RefKind) (s : State T) : Prop where
  slots : ∀ d r, s.mem.slot d = some r → r.kind = k
  guards : ∀ g ∈ s.guards, g.OfKind k
  active : ∀ t, (s.thread t).active.OfKind k

section OfKind

variable {k : RefKind} {tls : Tls} {m : Mem}

theorem Guard.From.ofKind {x : StorageId} {g : Guard} (h : g.From cfg x) (hu : cfg.Uniform k) :
    g.OfKind k := fun _ => h.1.trans (hu x)

theorem Contract.Meets.ofKind {c : Contract} {g : Guard} {w : Option ℕ}
    (h : c.Meets cfg (.guard g w)) (hu : cfg.Uniform k) : g.OfKind k := by
  intro _
  cases c with
  | guard x =>
    obtain ⟨g', he, hk, -⟩ := h
    obtain ⟨rfl, -⟩ := Ret.guard.inj he
    exact hk.trans (hu x)
  | cas f =>
    obtain ⟨g', w', he, hk, -⟩ := h
    obtain ⟨rfl, -⟩ := Ret.guard.inj he
    exact hk.trans (hu f.storage)
  | _ => simp [Contract.Meets] at h

theorem Dispatched.ofKind {f : PayFrame} {me who : NodeId} {c : ℕ} {a : Active}
    (h : Dispatched f me who c a) : a.OfKind k := by
  cases h <;> trivial

theorem Clause.ofKind {a : Active} {o : Out} (h : Clause cfg tls m a o) (hok : a.Ok cfg tls)
    (hu : cfg.Uniform k) (ha : a.OfKind k) : o.active.OfKind k := by
  cases h with
  | get h | cooldown h | dropGuard h | dec h => cases h <;> trivial
  | swap => trivial
  | intoInner h =>
    cases h with
    | start => exact ha
    | _ => trivial
  | cas h =>
    cases h with
    | late => exact hok.2.1.ofKind hu
    | _ => trivial
  | load h =>
    cases h with
    | enter =>
      unfold LoadFrame.begin
      trivial
    | closeControl => exact fun _ => hu _
    | _ => trivial
  | payAll h =>
    cases h with
    | helpControl h | helpChanged _ h => exact h.ofKind
    | slotOther | slotInc =>
      unfold PayFrame.nextSlot
      split <;> trivial
    | _ => trivial

theorem Clause.slot_ofKind {a : Active} {o : Out} (h : Clause cfg tls m a o) (hu : cfg.Uniform k)
    (hm : ∀ d r, m.slot d = some r → r.kind = k) : ∀ d r, o.mem.slot d = some r → r.kind = k := by
  have hsome : ∀ d r, r.kind = k → ∀ d' r',
    (m.setSlot d (some r)).slot d' = some r' → r'.kind = k := by
    intro d r hr d' r' h
    by_cases hd : d' = d
    · obtain rfl : r = r' := by simpa [hd] using h
      exact hr
    · exact hm d' r' (by simpa [hd] using h)
  have hnone : ∀ d d' r', (m.setSlot d none).slot d' = some r' → r'.kind = k := by
    intro d d' r' h
    by_cases hd : d' = d
    · simp [hd] at h
    · exact hm d' r' (by simpa [hd] using h)
  cases h with
  | get h | cooldown h | dec h | cas h => cases h <;> exact hm
  | swap => exact hm
  | intoInner h | dropGuard h => cases h <;> first | exact hm | exact hnone _
  | load h =>
    cases h with
    | claim | offerDebt => exact hsome _ _ (hu _)
    | unclaim | payUnused => exact hnone _
    | _ => exact hm
  | payAll h =>
    cases h with
    | slot => exact hnone _
    | _ => exact hm

theorem Resumed.ofKind {q : Cont} {r : Ret} {o : Out} (h : Resumed cfg tls m q r o)
    (hok : q.Ok cfg tls) (hm : q.expects.Meets cfg r) (hu : cfg.Uniform k) :
    o.active.OfKind k := by
  cases h with
  | loadNode | loadTmp =>
    unfold LoadFrame.begin
    trivial
  | helpRetry h => exact h.ofKind
  | full | rcuSwapped => exact hm.ofKind hu
  | rcuPanicked => exact hok.ofKind hu
  | rcuRetry | rcuInner => exact hok.1.ofKind hu
  | _ => trivial

end OfKind

variable {k : RefKind}

omit [Fintype T] [DecidableEq T] in
theorem State.init_ofKind : (State.init : State T).OfKind k where
  slots d r h := by simp [State.init, Mem.empty] at h
  guards := by simp [State.init]
  active _ := trivial

/-- All debts stay of one kind. -/
theorem State.OfKind.step {c : Choice} (hk : s.OfKind k) (h : s.Sound cfg) (hu : cfg.Uniform k)
    (hs : s.step cfg t c = some s') : s'.OfKind k := by
  obtain ⟨m', th', o', g', hm, rfl⟩ := State.step_move hs
  have ht := h.typed t
  have hact : th'.active.OfKind k ∧ (∀ g ∈ g', g.OfKind k) ∧
      ∀ d r, m'.slot d = some r → r.kind = k := by
    cases hm with
    | code hm => exact ⟨hm.ofKind ht.active hu (hk.active t), hk.guards, hm.slot_ofKind hu hk.slots⟩
    | @resume c r q ks o ha hc hm =>
      have hl : c = q.expects := by
        have := ht.linked
        rw [ha, hc] at this
        exact this.1
      have hmeet : c.Meets cfg r := by
        have := ht.active
        rwa [ha] at this
      exact ⟨hm.ofKind (ht.conts q (by simp [hc])) (hl ▸ hmeet) hu, hk.guards,
        hm.mem_eq ▸ hk.slots⟩
    | @receive c r u c' ks ha hc =>
      have hmeet : c.Meets cfg r := by
        have := ht.active
        rwa [ha] at this
      refine ⟨trivial, ?_, hk.slots⟩
      cases r with
      | guard g w => exact Multiset.forall_mem_cons.mpr ⟨hmeet.ofKind hu, hk.guards⟩
      | _ => exact hk.guards
    | user ha hm =>
      refine ⟨?_, ?_, hm.frame.1 ▸ hk.slots⟩
      · cases hm with
        | alloc | clone | fromInner | new | exitEmpty => exact ha ▸ trivial
        | intoInner h | dropGuard h => exact hk.guards _ h
        | _ => trivial
      · cases hm with
        | fromInner =>
          exact Multiset.forall_mem_cons.mpr ⟨fun hd => absurd rfl hd, hk.guards⟩
        | intoInner | dropGuard => exact fun g hg => hk.guards g (Multiset.mem_of_mem_erase hg)
        | _ => exact hk.guards
  exact ⟨hact.2.2, hact.2.1, State.moved_forall (P := fun th => th.active.OfKind k) hact.1
    fun t' _ => hk.active t'⟩

omit [Fintype T] [DecidableEq T] in
/-- A slot that contains the pointer of a value of this kind contains the value. -/
theorem State.OfKind.slot_eq (hk : s.OfKind k) {d : SlotId} {r : Ref} (hr : r.kind = k)
    (ho : s.mem.Owes d r) : s.mem.slot d = some r := by
  obtain ⟨r', hs, ha⟩ := Option.map_eq_some_iff.mp ho
  have hr' := hk.slots d r' hs
  obtain ⟨k₁, a₁⟩ := r
  obtain ⟨k₂, a₂⟩ := r'
  simp only at hr hr' ha
  rw [hs, ha, hr, hr']

omit [Fintype T] [DecidableEq T] in
/-- When all debts are of one kind, they are paid with references of their kind. -/
theorem State.OfKind.sameKind (hk : s.OfKind k) (hu : cfg.Uniform k)
    (ht : (s.thread t).Typed cfg) : s.SameKind cfg t := by
  intro d r hp _ ho
  refine hk.slot_eq ?_ ho
  have hok := ht.active
  have ha := hk.active t
  cases hact : (s.thread t).active with
  | load f pc =>
    rw [hact] at hp
    cases pc <;> simp only [Active.pays?, reduceCtorEq, Option.some.injEq, Prod.mk.injEq] at hp
    case unclaim | payUnused => exact hp.2 ▸ hu _
  | intoInner g pc =>
    rw [hact] at hp hok ha
    cases pc <;> simp only [Active.pays?, reduceCtorEq, Option.some.injEq, Prod.mk.injEq] at hp
    obtain ⟨-, rfl⟩ := hp
    exact ha (by simp [show g.debt = some _ from hok])
  | dropGuard g =>
    rw [hact] at hp ha
    obtain ⟨d', hd, he⟩ := Option.map_eq_some_iff.mp hp
    obtain ⟨-, rfl⟩ := Prod.mk.inj he
    exact ha (by simp [hd])
  | payAll f pc =>
    rw [hact] at hp hok
    cases pc <;> simp only [Active.pays?, reduceCtorEq, Option.some.injEq, Prod.mk.injEq] at hp
    exact hp.2 ▸ hok.1.trans (hu _)
  | _ =>
    rw [hact] at hp
    simp [Active.pays?] at hp

/-! ## Runs -/

/-- **The books balance in every reachable state** when no generation is used a second time and
debts are only paid with references of their own kind. -/
theorem State.Reachable.accounted
    (h : s.Reachable cfg fun s t => s.FreshGen t ∧ s.SameKind cfg t) : s.Accounted cfg :=
  h.invariant init_accounted fun _ _ _ _ hi hp hs => hi.step hp.1 hp.2 hs

/-- When all storages are of one type, debts are only paid with references of their own kind. -/
theorem State.Reachable.accounted_of_uniform (hu : cfg.Uniform k)
    (h : s.Reachable cfg State.FreshGen) : s.Accounted cfg ∧ s.OfKind k :=
  h.invariant (I := fun s => s.Accounted cfg ∧ s.OfKind k) ⟨init_accounted, init_ofKind⟩
    fun _ _ t _ hi hp hs =>
      ⟨hi.1.step hp (hi.2.sameKind hu (hi.1.sound.typed t)) hs, hi.2.step hi.1.sound hu hs⟩

end ArcSwap
