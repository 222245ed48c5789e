import ArcSwap.Properties.Alive
import ArcSwap.Properties.Kinds
import ArcSwap.Properties.Register

/-!
# What an address means

The address of an object that has been destroyed may be handed out again, for another object. An
address keeps its meaning as long as somebody has a reference to what is there, be it counted or
owed.
-/

namespace ArcSwap

variable {T : Type*} {cfg : Config} {s s' : State T} {t : T} {p : Addr} {r : Ref}

/-! ## Addresses that are in use -/

/-- There is an object at the address that has not been destroyed, or the address is null. -/
def Mem.Pinned (m : Mem) (p : Addr) : Prop := p = 0 ∨ ∃ k, 1 ≤ m.count ⟨k, p⟩

theorem Mem.Pinned.of_count {m : Mem} (h : r.Counted → 1 ≤ m.count r) : m.Pinned r.addr := by
  by_cases hr : r.Counted
  · exact .inr ⟨r.kind, h hr⟩
  · exact .inl (not_not.mp hr)

theorem Mem.Pinned.not_freed {m : Mem} (h : m.Pinned p) (hp : p ≠ 0) : ¬ m.Freed p := by
  rintro ⟨ha, hw⟩
  obtain ⟨k, hk⟩ := h.resolve_left hp
  cases k <;> omega

/-- The allocator does not hand out an address that is in use. -/
theorem Move.object {m' : Mem} {th' : Thread} {o' : Multiset Ref} {g' : Multiset Guard}
    (h : Move cfg s t m' th' o' g') (hp : s.mem.Pinned p) : m'.object p = s.mem.object p := by
  cases h with
  | code h => rw [h.object]
  | resume _ _ h => rw [h.mem_eq]
  | receive => rfl
  | user _ h =>
    cases h with
    | @alloc q hq hf =>
      have hne : p ≠ q := by
        rintro rfl
        exact hp.not_freed hq hf
      simp [hne]
    | _ => rfl

/-! ## What is relied on -/

theorem Links.expects {c c' : Contract} {ks : List Cont} {q : Cont} (h : Links c ks c')
    (hq : q ∈ ks) : c = q.expects ∨ ∃ k ∈ ks, k.promise = q.expects := by
  induction ks generalizing c with
  | nil => cases hq
  | cons k ks ih =>
    rcases List.mem_cons.mp hq with rfl | hq
    · exact .inl h.1
    · rcases ih h.2 hq with hk | ⟨k', hk', he⟩
      · exact .inr ⟨k, List.mem_cons_self, hk⟩
      · exact .inr ⟨k', List.mem_cons_of_mem _ hk', he⟩

/-- The active function or a suspended caller returns a value of the type `c`. -/
def Thread.Promises (th : Thread) (c : Contract) : Prop :=
  th.active.promise = c ∨ ∃ k ∈ th.conts, k.promise = c

theorem Thread.Typed.promises {th : Thread} {q : Cont} (h : th.Typed cfg) (hq : q ∈ th.conts) :
    th.Promises q.expects := h.linked.expects hq

/-- Who pays the debts of a value has a reference to it. -/
theorem Thread.Promises.paid_claims {th : Thread} (hp : th.Promises (.paid r)) :
    r.claim ∈ th.claims cfg := by
  rw [Thread.claims, Multiset.mem_add]
  rcases hp with hp | ⟨q, hq, hp⟩
  · left
    cases ha : th.active with
    | payAll f pc =>
      rw [ha] at hp
      obtain rfl := Contract.paid.inj hp
      cases pc <;> simp [Active.claims, PayPc.claims]
    | ret c v =>
      rw [ha] at hp
      obtain rfl : c = .paid r := hp
      exact Multiset.mem_singleton_self _
    | user u =>
      rw [ha] at hp
      cases u <;> cases hp
    | _ =>
      rw [ha] at hp
      cases hp
  · refine .inr (mem_contClaims hq ?_)
    cases q with
    | payNode f | valDropped f =>
      obtain rfl := Contract.paid.inj hp
      exact Multiset.mem_singleton_self _
    | helpReplacement f | helpRetry f =>
      obtain rfl := Contract.paid.inj hp
      simp [Cont.claims]
    | payLeft r' =>
      obtain rfl := Contract.paid.inj hp
      exact Multiset.mem_singleton_self _
    | user u => cases u <;> cases hp
    | _ => cases hp

/-! ## What is in a storage -/

/-- A storage holds the object that stands last in its log. -/
theorem Mem.Latest.holds {m : Mem} {x : StorageId} {i : ℕ} {e : ArcSwap.Entry} (h : m.Latest Eq x)
    (hi : (m.log x).length = i + 1) (he : (m.log x)[i]? = some e) :
    m.content (m.ptr x) = e.content := by
  obtain ⟨e', he', hE⟩ := h
  have hnow : m.now x = i := by
    unfold Mem.now
    omega
  rw [hnow] at he'
  rw [hE, ← Option.some.inj (he.symm.trans he')]

/-- With the same log a storage holds the same object. -/
theorem Mem.Latest.congr {m m' : Mem} {x : StorageId} (h : m.Latest Eq x) (h' : m'.Latest Eq x)
    (hl : m'.log x = m.log x) : m'.content (m'.ptr x) = m.content (m.ptr x) := by
  obtain ⟨e, he, hE⟩ := h
  obtain ⟨e', he', hE'⟩ := h'
  rw [Mem.now, hl] at he'
  rw [hE, hE', Option.some.inj (he'.symm.trans he)]

/-- What is in a storage is the object that has been written there. -/
def State.Current (s : State T) : Prop := ∀ x ∈ s.mem.live, s.mem.Latest Eq x

theorem State.init_current : (State.init : State T).Current := fun x hx => by
  simp [State.init, Mem.empty] at hx

variable [Fintype T] [DecidableEq T]

omit [Fintype T] [DecidableEq T] in
theorem State.Safe.pinned {x : StorageId} (h : s.Safe cfg) (hx : x ∈ s.mem.live) :
    s.mem.Pinned (s.mem.ptr x) := Mem.Pinned.of_count (r := s.mem.stored cfg x) (h.stored x hx)

theorem State.Current.step {c : Choice} (h : s.Current) (hsafe : s.Safe cfg)
    (hs : s.step cfg t c = some s') : s'.Current := by
  obtain ⟨m', th', o', g', hm, rfl⟩ := State.step_move hs
  intro x hx
  refine hm.latest (fun _ => rfl) (h x) (fun hl c hc => ?_) hx
  rw [← hc, Mem.content, Mem.content, hm.object (hsafe.pinned hl)]

/-- The conditions under which the counts are right. -/
abbrev State.Calm (cfg : Config) (s : State T) (t : T) : Prop := s.FreshGen t ∧ s.SameKind cfg t

omit [Fintype T] [DecidableEq T] in
/-- A step that neither publishes a generation nor pays a debt meets every condition. -/
theorem State.plain (hi : (s.thread t).active.issues? = none)
    (hp : (s.thread t).active.pays? cfg = none) : s.Calm cfg t := by
  refine ⟨⟨fun hw => ?_, fun n w hw => ?_⟩, fun d r hd => ?_⟩
  · cases ha : (s.thread t).active with
    | load f pc => cases pc <;> simp_all [Active.Wraps, Active.issues?]
    | _ => simp_all [Active.Wraps]
  · rw [Active.issues_iff, hi] at hw
    cases hw
  · rw [hp] at hd
    cases hd

omit [Fintype T] [DecidableEq T] in
/-- A step of user code meets every condition. -/
theorem State.calm_of_user {u : UserKind} (h : (s.thread t).active = .user u) : s.Calm cfg t :=
  State.plain (by rw [h]; rfl) (by rw [h]; rfl)

/-- When all storages are of one type, only generations have to be fresh. -/
theorem State.Reachable.calm_step {k : RefKind} (hu : cfg.Uniform k)
    (h : s.Reachable cfg (State.Calm cfg)) (hf : s.FreshGen t) : s.Calm cfg t := by
  obtain ⟨ha, hk⟩ := State.Reachable.accounted_of_uniform hu (h.mono fun _ _ hp => hp.1)
  exact ⟨hf, hk.sameKind hu (ha.sound.typed t)⟩

theorem State.Reachable.safe (h : s.Reachable cfg (State.Calm cfg)) : s.Safe cfg :=
  h.accounted.safe (h.mono fun _ _ hp => hp.1).covering.2

/-- **What is in a storage is the object that has been written there**, in every reachable state. -/
theorem State.Reachable.current (h : s.Reachable cfg (State.Calm cfg)) : s.Current := by
  refine (h.invariant (I := fun s => s.Current ∧ s.Reachable cfg (State.Calm cfg))
    ⟨State.init_current, .refl⟩ fun s s' t c hi hp hs => ⟨?_, ?_⟩).1
  · exact hi.1.step hi.2.safe hs
  · exact hi.2.tail ⟨(t, c), hp, hs⟩

omit [DecidableEq T] in
theorem State.Accounted.pinned (h : s.Accounted cfg) (hc : r.claim ∈ s.claims cfg) :
    s.mem.Pinned r.addr :=
  .of_count fun hr => h.balanced.pos hr (o := none) hc (by simp)

omit [DecidableEq T] in
theorem State.mem_claims {c : Ref × Option SlotId} (h : c ∈ (s.thread t).claims cfg) :
    c ∈ s.claims cfg := by
  rw [State.claims, Multiset.mem_add, Multiset.mem_add, Family.mem_total]
  exact .inl (.inl ⟨t, h⟩)

/-- A value that is being returned, or made of a guard, is alive. -/
theorem State.Accounted.promised (h : s.Accounted cfg) (hv : s.Covering cfg)
    (hp : (s.thread t).Promises (.is r)) : s.mem.Pinned r.addr := by
  have ht := h.sound.typed t
  rcases hp with hp | ⟨q, hq, hp⟩
  · cases ha : (s.thread t).active with
    | intoInner g pc =>
      rw [ha] at hp
      obtain rfl := Contract.is.inj hp
      cases pc with
      | start =>
        exact .of_count ((h.safe hv).keeps t g (.inl (by rw [ha]; rfl)))
      | pay d =>
        refine h.pinned (State.mem_claims (t := t) ?_)
        simp [Thread.claims, ha, Active.claims]
    | ret c v =>
      rw [ha] at hp
      obtain rfl : c = .is r := hp
      have hv : v = .value r none := by
        have := ht.active
        rwa [ha] at this
      refine h.pinned (State.mem_claims (t := t) ?_)
      simp [Thread.claims, ha, hv, Active.claims, Ret.claims]
    | user u =>
      rw [ha] at hp
      cases u <;> cases hp
    | _ =>
      rw [ha] at hp
      cases hp
  · cases q with
    | intoInner r' =>
      obtain rfl := Contract.is.inj hp
      refine h.pinned (State.mem_claims (t := t)
        (Multiset.mem_add.mpr (.inr (mem_contClaims hq ?_))))
      exact Multiset.mem_singleton_self _
    | consumed r' =>
      obtain rfl := Contract.is.inj hp
      exact h.pinned (State.mem_claims (ht.promises hq).paid_claims)
    | user u => cases u <;> cases hp
    | _ => cases hp

/-- **Whatever somebody relies on is in use.** -/
theorem State.Accounted.relied (h : s.Accounted cfg) (hv : s.Covering cfg) (hp : s.Relies p) :
    s.mem.Pinned p := by
  have hsafe := h.safe hv
  have hclaim : ∀ {t} {r : Ref}, r.claim ∈ (s.thread t).active.claims cfg → s.mem.Pinned r.addr :=
    fun hr => h.pinned (State.mem_claims (Multiset.mem_add.mpr (.inl hr)))
  have hcont : ∀ {t q} {r : Ref},
    q ∈ (s.thread t).conts → r.claim ∈ q.claims → s.mem.Pinned r.addr :=
    fun hq hr => h.pinned (State.mem_claims (Multiset.mem_add.mpr (.inr (mem_contClaims hq hr))))
  have hguard : ∀ {t g}, (s.thread t).Keeps g → s.mem.Pinned g.ref.addr :=
    fun hg => .of_count (hsafe.keeps _ _ hg)
  rcases hp with ⟨x, hx, rfl⟩ | ⟨n, o, ho, rfl⟩ | ⟨t, ha | ⟨q, hq, ha⟩⟩
  · exact hsafe.pinned hx
  · obtain ⟨t, ht⟩ := h.handing.offers n (by rw [ho]; simp)
    have hn := h.sound.lt_nodeCount (Sound.mem_nodes ((h.sound.typed t).active.receives_mem ht))
    refine h.pinned (Multiset.mem_add.mpr (.inr (Multiset.mem_add.mpr (.inr ?_))))
    refine Multiset.mem_sum.mpr ⟨n, Finset.mem_range.mpr hn, ?_⟩
    simp [Mem.offered, ho]
  · have hok := (h.sound.typed t).active
    cases hact : (s.thread t).active with
    | load f pc =>
      rw [hact] at ha hok
      cases pc <;> simp only [Active.Relies] at ha
      case confirmHelping n gen q | offerDebt n gen q | closeControl n gen q =>
        obtain ⟨hc, rfl⟩ := ha
        have hgen : tag (s.mem.control n) = genTag := hc ▸ hok.2.2.tag_genWord
        have hr := hv.chosen t n f.storage q (by rw [hact]; exact ⟨rfl, rfl, rfl⟩) hgen
        exact .of_count (r := ⟨cfg.kind f.storage, q⟩) fun hr' => h.pos_of_reaches hr' hr
      case keepEnvelope n p₀ e q | payUnused n p₀ q =>
        subst ha
        refine hclaim (t := t) (r := ⟨cfg.kind f.storage, q⟩) ?_
        simp [hact, Active.claims, LoadPc.claims]
      case leave g =>
        subst ha
        exact hguard (t := t) (.inl (by rw [hact]; rfl))
    | payAll f pc =>
      rw [hact] at ha
      cases pc <;> simp only [Active.Relies] at ha
      all_goals
        subst ha
        refine hclaim (t := t) ?_
        simp [hact, Active.claims, PayPc.claims]
    | ret c v =>
      rw [hact] at ha hok
      cases v with
      | guard g w =>
        obtain rfl : g.ref.addr = p := ha
        exact hguard (t := t) (.inl (by rw [hact]; rfl))
      | value r w =>
        obtain rfl : r.addr = p := ha
        refine hclaim (t := t) ?_
        rw [hact]
        cases c <;> first
          | exact Multiset.mem_singleton_self _
          | exact absurd hok (by simp [Active.Ok, Contract.Meets])
      | _ => exact ha.elim
    | _ =>
      rw [hact] at ha
      exact ha.elim
  · cases q <;> simp only [Cont.Relies] at ha
    all_goals subst ha
    case fallback f r => exact h.promised hv ((h.sound.typed t).promises hq)
    case fullInner x start r => exact h.promised hv ((h.sound.typed t).promises hq)
    case unused => exact hcont hq (Multiset.mem_singleton_self _)
    case loadLeft x start g => exact hguard (.inr ⟨_, hq, rfl⟩)
    case casRefused f g => exact hguard (.inr ⟨_, hq, rfl⟩)

/-- What somebody relies on keeps its meaning. -/
theorem State.Accounted.stays {E : Content → Content → Prop} {c : Choice} (h : s.Accounted cfg)
    (hv : s.Covering cfg) (hs : s.step cfg t c = some s') (hp : s.Relies p) :
    Stays E s.mem s'.mem p := by
  obtain ⟨m', th', o', g', hm, rfl⟩ := State.step_move hs
  intro c hc
  show E (Mem.content m' p) c
  rwa [Mem.content, hm.object (h.relied hv hp)]

end ArcSwap
