import ArcSwap.Values.Loads

/-!
# No update is lost

What a `swap` or a `compare_and_swap` returns is the very object that it has replaced, and an `rcu`
replaces the very object that its closure was given by what the closure has made of it: whoever
compares a pointer holds a reference to what it points to, so that its address is not used for
another object meanwhile.
-/

namespace ArcSwap

variable {T : Type*} {cfg : Config} {tls : Tls} {m m' : Mem} {s s' s₀ s₁ s₂ : State T} {t : T}
  {p : Addr} {x : StorageId} {c c' : Content} {call k : ℕ}

/-! ## What a call has replaced -/

/-- The call has replaced the content `c` by `c'`, at the position `k` of the log. -/
structure Mem.Replaced (m : Mem) (x : StorageId) (call k : ℕ) (c c' : Content) : Prop where
  pos : 0 < k
  old : ∃ e, (m.log x)[k - 1]? = some e ∧ e.content = c
  new : (m.log x)[k]? = some ⟨c', call⟩

theorem Mem.Replaced.mono (h : m.Replaced x call k c c') (hl : m.log x <+: m'.log x) :
    m'.Replaced x call k c c' := by
  obtain ⟨hk, ⟨e, he, hc⟩, hn⟩ := h
  exact ⟨hk, ⟨e, getElem?_of_prefix hl he, hc⟩, getElem?_of_prefix hl hn⟩

theorem Mem.Replaced.other (h : m.Replaced x call k (m.content p) c')
    (hl : ∀ x, m.log x <+: m'.log x) (hp : m'.content p = m.content p) :
    m'.Replaced x call k (m'.content p) c' :=
  hp ▸ h.mono (hl x)

/-- What is written replaces what the storage holds. -/
theorem Mem.Latest.replaced (h : m.Latest Eq x) (p : Addr) (call : ℕ) :
    (m.setPtr x p call).Replaced x call (m.log x).length (m.content (m.ptr x)) (m.content p) := by
  obtain ⟨e, he, hc⟩ := h
  obtain ⟨hi, -⟩ := List.getElem?_eq_some_iff.mp he
  refine ⟨by unfold Mem.now at hi; omega, ⟨e, ?_, hc.symm⟩, by simp⟩
  exact getElem?_of_prefix (m.setPtr_prefix x p call x) he

/-- What is said of the closures of `rcu`: what they were given, and what they have made of it. -/
abbrev Computed := RcuFrame → Content → Content → Prop

/-- What the active function knows of the objects that it has replaced or is going to. -/
def Active.Meant (R : Computed) (m : Mem) : Active → Prop
  | .cas g _ => m.content g.new.addr = g.content
  | .ret (.swap f) (.value r (some k)) =>
    ∃ c, c.addr = f.new.addr ∧ m.Replaced f.storage f.call k (m.content r.addr) c
  | .ret (.cas g) (.guard old (some k)) =>
    m.Replaced g.storage g.call k (m.content old.ref.addr) g.content
  | .ret (.rcu f) (.value r (some k)) => ∃ made, R f (m.content r.addr) made ∧
    m.Replaced f.storage f.call k (m.content r.addr) made
  | _ => True

/-- What a suspended caller knows of them. -/
def Cont.Meant (R : Computed) (m : Mem) : Cont → Prop
  | .casLoaded g | .casRetry g => m.content g.new.addr = g.content
  | .casPaid g old k | .casDec g old k =>
    m.Replaced g.storage g.call k (m.content old.ref.addr) g.content
  | .swapPaid f old k =>
    ∃ c, c.addr = f.new.addr ∧ m.Replaced f.storage f.call k (m.content old.addr) c
  | .rcuClosure _ cur given => m.content cur.ref.addr = given
  | .rcuSwapped f cur given g => m.content cur.ref.addr = given ∧ R f given g.content
  | .rcuInner f _ given made r w | .rcuDone f given made r w =>
    R f given made ∧ m.content r.addr = given ∧
      ∀ k, w = some k → m.Replaced f.storage f.call k given made
  | _ => True

/-- The function knows something of the object at the address. -/
def Active.Names (p : Addr) : Active → Prop
  | .cas g _ => g.new.addr = p
  | .ret (.swap _) (.value r _) | .ret (.rcu _) (.value r _) => r.addr = p
  | .ret (.cas _) (.guard g _) => g.ref.addr = p
  | _ => False

/-- The suspended caller knows something of the object at the address. -/
def Cont.Names (p : Addr) : Cont → Prop
  | .casLoaded g | .casRetry g => g.new.addr = p
  | .casPaid _ old _ | .casDec _ old _ => old.ref.addr = p
  | .swapPaid _ old _ => old.addr = p
  | .rcuClosure _ cur _ | .rcuSwapped _ cur _ _ => cur.ref.addr = p
  | .rcuInner _ _ _ _ r _ | .rcuDone _ _ _ r _ => r.addr = p
  | _ => False

/-! ## One clause -/

section Clause

variable {R R' : Computed}

/-- What is known stays true as long as the addresses keep their meaning. -/
theorem Active.Meant.other {a : Active} (h : a.Meant R m) (hl : ∀ x, m.log x <+: m'.log x)
    (hp : ∀ p, a.Names p → m'.content p = m.content p) (hR : ∀ f c c', R f c c' → R' f c c') :
    a.Meant R' m' := by
  cases a with
  | cas g old => exact (hp _ rfl).trans h
  | ret c r =>
    rcases c with - | - | - | - | - | - | - | f | g | f | -
    case swap =>
      rcases r with (- | k) | n | ⟨g, w⟩ | ⟨v, - | k⟩ | - <;> try trivial
      obtain ⟨c, hc, h⟩ := h
      exact ⟨c, hc, h.other hl (hp _ rfl)⟩
    case cas =>
      rcases r with (- | k) | n | ⟨old, - | k⟩ | ⟨v, w⟩ | - <;> try trivial
      exact Mem.Replaced.other h hl (hp _ rfl)
    case rcu =>
      rcases r with (- | k) | n | ⟨g, w⟩ | ⟨v, - | k⟩ | - <;> try trivial
      obtain ⟨made, hr, h⟩ := h
      exact ⟨made, hp v.addr rfl ▸ hR _ _ _ hr, h.other hl (hp _ rfl)⟩
    all_goals trivial
  | _ => trivial

theorem Cont.Meant.other {k : Cont} (h : k.Meant R m) (hl : ∀ x, m.log x <+: m'.log x)
    (hp : ∀ p, k.Names p → m'.content p = m.content p) (hR : ∀ f c c', R f c c' → R' f c c') :
    k.Meant R' m' := by
  cases k with
  | casLoaded | casRetry | rcuClosure => exact (hp _ rfl).trans h
  | casPaid | casDec => exact Mem.Replaced.other h hl (hp _ rfl)
  | swapPaid f old =>
    obtain ⟨c, hc, h⟩ := h
    exact ⟨c, hc, h.other hl (hp _ rfl)⟩
  | rcuSwapped => exact ⟨(hp _ rfl).trans h.1, hR _ _ _ h.2⟩
  | rcuInner | rcuDone =>
    exact ⟨hR _ _ _ h.1, (hp _ rfl).trans h.2.1, fun k hk => (h.2.2 k hk).mono (hl _)⟩
  | _ => trivial

theorem Clause.meant {a : Active} {o : Out} (h : Clause cfg tls m a o) (hok : a.Ok cfg tls)
    (ha : a.Meant R m) (hc : ∀ x, a.needs? = some x → m.Latest Eq x) :
    o.active.Meant R o.mem ∧ ∀ k ∈ o.calls, k.Meant R o.mem := by
  cases h with
  | get h | cooldown h | dec h | dropGuard h | intoInner h =>
    cases h <;> first
      | exact ⟨trivial, List.forall_mem_nil _⟩
      | exact ⟨trivial, List.forall_mem_singleton.mpr trivial⟩
  | @swap f =>
    refine ⟨trivial, List.forall_mem_singleton.mpr ⟨m.content f.new.addr, rfl, ?_⟩⟩
    exact (hc _ rfl).replaced f.new.addr f.call
  | @cas f old o h =>
    cases h with
    | swapped he =>
      refine ⟨trivial, List.forall_mem_singleton.mpr ?_⟩
      have hr := (hc _ rfl).replaced f.new.addr f.call
      rw [he, show m.content f.new.addr = f.content from ha] at hr
      show Mem.Replaced _ _ _ _ (m.content old.ref.addr) _
      rwa [hok.2.2]
    | late => exact ⟨trivial, List.forall_mem_singleton.mpr ha⟩
  | load h =>
    cases h with
    | enter =>
      refine ⟨?_, List.forall_mem_nil _⟩
      unfold LoadFrame.begin
      split <;> trivial
    | _ =>
      first
      | exact ⟨trivial, List.forall_mem_nil _⟩
      | exact ⟨trivial, List.forall_mem_singleton.mpr trivial⟩
  | payAll h =>
    cases h with
    | helpControl h | helpChanged _ h => exact ⟨by cases h <;> trivial, List.forall_mem_nil _⟩
    | slotOther | slotInc =>
      refine ⟨?_, List.forall_mem_nil _⟩
      unfold PayFrame.nextSlot
      split <;> trivial
    | helpAddr => exact ⟨trivial, by simp [Cont.Meant]⟩
    | _ =>
      first
      | exact ⟨trivial, List.forall_mem_nil _⟩
      | exact ⟨trivial, List.forall_mem_singleton.mpr trivial⟩

/-- A closure that returns has computed something. -/
theorem Resumed.meant {k : Cont} {r : Ret} {o : Out} (h : Resumed cfg tls m k r o)
    (hok : k.Ok cfg tls) (hm : k.expects.Meets cfg r) (hk : k.Meant R m)
    (ha : (Active.ret k.expects r).Meant R m) (hR : ∀ f c c', R f c c' → R' f c c')
    (hnew : ∀ f cur given new w, k = .rcuClosure f cur given → r = .value new w →
      R' f (m.content cur.ref.addr) (m.content new.addr)) :
    o.active.Meant R' o.mem ∧ ∀ k ∈ o.calls, k.Meant R' o.mem := by
  cases h with
  | loadNode | loadTmp =>
    refine ⟨?_, List.forall_mem_nil _⟩
    unfold LoadFrame.begin
    split <;> trivial
  | helpRetry h => exact ⟨by cases h <;> trivial, List.forall_mem_nil _⟩
  | swapPaid => exact ⟨hk, List.forall_mem_nil _⟩
  | casLoaded | casDec => exact ⟨hk, List.forall_mem_nil _⟩
  | casRetry | casPaid => exact ⟨trivial, List.forall_mem_singleton.mpr hk⟩
  | rcuLoaded | rcuAgain => exact ⟨trivial, List.forall_mem_singleton.mpr rfl⟩
  | rcuClosure =>
    obtain rfl : m.content _ = _ := hk
    refine ⟨trivial, List.forall_mem_cons.mpr ⟨rfl, List.forall_mem_singleton.mpr ⟨rfl, ?_⟩⟩⟩
    exact hnew _ _ _ _ _ rfl rfl
  | @rcuSwapped f cur given g prev wrote he =>
    obtain ⟨hgiven, hr⟩ := hk
    obtain ⟨-, hst, hcall, -⟩ := hok
    refine ⟨trivial, List.forall_mem_singleton.mpr ⟨hR _ _ _ hr, he ▸ hgiven, ?_⟩⟩
    rintro k rfl
    have hrep : m.Replaced g.storage g.call k (m.content prev.ref.addr) g.content := ha
    rwa [← he, hgiven, hst, hcall] at hrep
  | rcuInner =>
    obtain ⟨rfl, -⟩ := Ret.value.inj hm
    exact ⟨trivial, List.forall_mem_singleton.mpr ⟨hR _ _ _ hk.1, hk.2⟩⟩
  | @rcuDone f given made r wrote =>
    obtain ⟨hr, hgiven, hrep⟩ := hk
    refine ⟨?_, List.forall_mem_nil _⟩
    cases wrote with
    | none => trivial
    | some k => exact ⟨made, hgiven ▸ hR _ _ _ hr, hgiven ▸ hrep k rfl⟩
  | _ =>
    first
    | exact ⟨trivial, List.forall_mem_nil _⟩
    | exact ⟨trivial, List.forall_mem_singleton.mpr trivial⟩

end Clause

/-! ## What must not be reused -/

section Named

variable [Fintype T] [DecidableEq T] {a : Active} {q : Cont}

/-- Whatever a call knows something of is in use. -/
theorem State.Accounted.named (h : s.Accounted cfg) (hv : s.Covering cfg)
    (hp : (s.thread t).active.Names p ∨ ∃ q ∈ (s.thread t).conts, q.Names p) :
    s.mem.Pinned p := by
  have hsafe := h.safe hv
  have ht := h.sound.typed t
  have hclaim : ∀ {r : Ref}, r.claim ∈ (s.thread t).active.claims cfg → s.mem.Pinned r.addr :=
    fun hr => h.pinned (State.mem_claims (Multiset.mem_add.mpr (.inl hr)))
  have hcont : ∀ {q : Cont} {r : Ref}, q ∈ (s.thread t).conts → r.claim ∈ q.claims →
      s.mem.Pinned r.addr :=
    fun hq hr => h.pinned (State.mem_claims (Multiset.mem_add.mpr (.inr (mem_contClaims hq hr))))
  have hguard : ∀ {g}, (s.thread t).Keeps g → s.mem.Pinned g.ref.addr :=
    fun hg => .of_count (hsafe.keeps _ _ hg)
  rcases hp with hp | ⟨q, hq, hp⟩
  · cases ha : (s.thread t).active with
    | cas g old =>
      rw [ha] at hp
      obtain rfl : g.new.addr = p := hp
      refine hclaim ?_
      simp [ha, Active.claims]
    | ret c r =>
      rw [ha] at hp
      cases r with
      | guard g w =>
        obtain rfl : g.ref.addr = p := by cases c <;> first | exact hp | exact hp.elim
        exact hguard (.inl (by rw [ha]; rfl))
      | value r w =>
        have hr : r.addr = p ∧ r.claim ∈ Ret.claims c (.value r w) := by
          cases c <;> first | exact ⟨hp, Multiset.mem_singleton_self _⟩ | exact hp.elim
        exact hr.1 ▸ hclaim (by rw [ha]; exact hr.2)
      | _ => cases c <;> exact hp.elim
    | _ =>
      rw [ha] at hp
      exact hp.elim
  · cases q <;> simp only [Cont.Names] at hp
    all_goals subst hp
    case casLoaded | casRetry => exact hcont hq (Multiset.mem_singleton_self _)
    case casPaid | casDec | rcuClosure | rcuSwapped => exact hguard (.inr ⟨_, hq, rfl⟩)
    case swapPaid => exact h.pinned (State.mem_claims (ht.promises hq).paid_claims)
    case rcuInner => exact h.promised hv (ht.promises hq)
    case rcuDone => exact hcont hq (Multiset.mem_singleton_self _)

end Named

/-! ## One step -/

/-- What all threads know of the objects that they have replaced or are going to. -/
def State.Meant (R : T → Computed) (s : State T) : Prop :=
  ∀ t, (s.thread t).active.Meant (R t) s.mem ∧ ∀ k ∈ (s.thread t).conts, k.Meant (R t) s.mem

/-- The closure of an `rcu` returns: it has been given `c`, and it has made `c'` of it. -/
def State.Computes (s : State T) (t : T) (f : RcuFrame) (c c' : Content) : Prop :=
  ∃ cur new w ks, (s.thread t).active = .ret (.closure f.storage) (.value new w) ∧
    (s.thread t).conts = .rcuClosure f cur c :: ks ∧ s.mem.content cur.ref.addr = c ∧
    s.mem.content new.addr = c'

theorem UserClause.meant {R : Computed} {u : UserKind} {th' : Thread} {o' : Multiset Ref}
    {g' : Multiset Guard} (h : UserClause cfg s t u m' th' o' g')
    (ha : (s.thread t).active = .user u) (hc : ∀ k ∈ (s.thread t).conts, k.Meant R m') :
    th'.active.Meant R m' ∧ ∀ k ∈ th'.conts, k.Meant R m' := by
  cases h with
  | alloc | clone | fromInner | new | exitEmpty => exact ⟨by rw [ha]; trivial, hc⟩
  | exit => exact ⟨trivial, List.forall_mem_singleton.mpr trivial⟩
  | destroyed | result | panic => exact ⟨trivial, hc⟩
  | compareAndSwap =>
    exact ⟨trivial, Thread.forall_calling (List.forall_mem_singleton.mpr rfl) trivial hc⟩
  | _ =>
    refine ⟨trivial, Thread.forall_calling ?_ trivial hc⟩
    first | exact List.forall_mem_nil _ | exact List.forall_mem_singleton.mpr trivial

section Step

variable [Fintype T] [DecidableEq T] {R R' : T → Computed}

/-- **What is known of the objects stays true** in every step. -/
theorem State.Meant.step {c : Choice} (h : s.Meant R) (ha : s.Accounted cfg) (hv : s.Covering cfg)
    (hc : s.Current) (hs : s.step cfg t c = some s') (hR : ∀ t f c c', R t f c c' → R' t f c c')
    (hnew : ∀ f c c', s.Computes t f c c' → R' t f c c') : s'.Meant R' := by
  obtain ⟨m', th', o', g', hm, rfl⟩ := State.step_move hs
  have ht := ha.sound.typed t
  have hobj : ∀ {p}, s.mem.Pinned p → m'.content p = s.mem.content p := fun hp => by
    rw [Mem.content, Mem.content, hm.object hp]
  have hconts : ∀ t', ∀ k ∈ (s.thread t').conts, k.Meant (R' t') m' := fun t' k hk =>
    ((h t').2 k hk).other hm.log_prefix (fun p hp => hobj (ha.named hv (.inr ⟨k, hk, hp⟩))) (hR t')
  have hself : th'.active.Meant (R' t) m' ∧ ∀ k ∈ th'.conts, k.Meant (R' t) m' := by
    refine hm.frames (hconts t) (fun o ho hcl => ho ▸ ?_) (fun c r k o ho hr hk hres => ho ▸ ?_)
      (fun _ => trivial) fun u hu hcl => hcl.meant hu (hconts t)
    · refine hcl.meant ht.active ?_ fun x hx => hc x (ha.borrowing.live t x (.inl hx))
      exact (h t).1.other (fun _ => List.prefix_rfl) (fun _ _ => rfl) (hR t)
    · obtain ⟨ks, hks⟩ := List.head?_eq_some_iff.mp hk
      have hmem := List.mem_of_mem_head? hk
      have hl := ht.linked
      rw [hr, hks] at hl
      obtain rfl : c = k.expects := hl.1
      have hmeets := ht.active
      have hmeant := (h t).1
      rw [hr] at hmeets hmeant
      refine hres.meant (ht.conts k hmem) hmeets ((h t).2 k hmem) hmeant (hR t) ?_
      rintro f cur given new w rfl rfl
      obtain rfl : s.mem.content cur.ref.addr = given := (h t).2 _ hmem
      exact hnew f _ _ ⟨cur, new, w, ks, hr, hks, rfl, rfl⟩
  intro t'
  by_cases hne : t' = t
  · subst hne
    simpa [State.moved] using hself
  · have hact := (h t').1.other hm.log_prefix
      (fun p hp => hobj (ha.named hv (.inl hp))) (hR t')
    simpa [State.moved, hne] using ⟨hact, hconts t'⟩

/-! ## Runs -/

omit [Fintype T] [DecidableEq T] in
theorem TicketMove.calls_le {calls calls' : ℕ} {log log' : StorageId → List Entry}
    {x x' : Multiset ℕ} (h : TicketMove calls log x calls' log' x') : calls ≤ calls' := by
  cases h with
  | keep | spend => exact le_rfl
  | issue | stamp => exact Nat.le_succ _

/-- Calls are numbered in the order in which they are made. -/
theorem State.Linear.calls_le {c : Choice} (h : s.Linear cfg) (hs : s.step cfg t c = some s') :
    s.mem.calls ≤ s'.mem.calls := by
  obtain ⟨m', th', o', g', hm, rfl⟩ := State.step_move hs
  exact (hm.ticketMove (h.sound.typed t)).calls_le

omit [DecidableEq T] in
/-- While the closure of an `rcu` runs, the call has not written yet. -/
theorem State.Linear.computes (h : s.Linear cfg) {f : RcuFrame} (hc : s.Computes t f c c') :
    f.call < s.mem.calls ∧ ∀ x k, ¬ s.mem.WrittenBy f.call x k := by
  obtain ⟨cur, new, w, ks, -, hks, -, -⟩ := hc
  have hmem : f.call ∈ s.tickets := by
    refine Family.mem_total.mpr ⟨t, Multiset.mem_add.mpr (.inr ?_)⟩
    rw [hks, contTickets_cons]
    exact Multiset.mem_add.mpr (.inl (Multiset.mem_singleton_self _))
  refine ⟨h.tickets.issued _ hmem, ?_⟩
  rintro x k ⟨v, hv⟩
  exact (h.tickets.spent x _ (List.mem_of_getElem? hv)).2 hmem

theorem State.Reachable.meant (h : s.Reachable cfg (State.Calm cfg)) :
    s.Meant fun _ f _ _ => f.call < s.mem.calls := by
  refine (h.invariant (I := fun s => s.Reachable cfg (State.Calm cfg) ∧
    s.Meant fun _ f _ _ => f.call < s.mem.calls) ⟨.refl, ?_⟩ fun s s' t c hi hp hs => ?_).2
  · exact fun t => ⟨trivial, List.forall_mem_nil _⟩
  · obtain ⟨hr, hi⟩ := hi
    have hlin := (hr.mono fun _ _ hp => hp.1).linear
    have hle := hlin.calls_le hs
    refine ⟨hr.tail ⟨(t, c), hp, hs⟩, hi.step hr.accounted
      (hr.mono fun _ _ hp => hp.1).covering.2 hr.current hs (fun _ _ _ _ hf => hf.trans_le hle)
      fun f c c' hf => (hlin.computes hf).1.trans_le hle⟩

/-! ## The instant of a replacement -/

/-- Only a storage that exists is written to by a call that has been made before. -/
theorem State.Linear.written_live {a : Choice} {e : Entry} (h : s.Linear cfg)
    (hs : s.step cfg t a = some s') (he : (s'.mem.log x)[(s.mem.log x).length]? = some e)
    (hc : e.call < s.mem.calls) : x ∈ s.mem.live := by
  have hne : s'.mem.log x ≠ s.mem.log x := fun hl => by
    rw [hl] at he
    simp at he
  obtain ⟨m', th', o', g', hm, rfl⟩ := State.step_move hs
  replace hne : m'.log x ≠ s.mem.log x := hne
  cases hm with
  | code hcl => exact h.borrowing.live t x (.inl (hcl.log_needs hne))
  | resume _ _ hr => exact absurd (by rw [hr.mem_eq]) hne
  | receive => exact absurd rfl hne
  | user _ hu =>
    cases hu with
    | @new y p =>
      by_cases hx : x = y
      · subst hx
        have he' : (⟨s.mem.newCall.content p, s.mem.calls⟩ : Entry) = e := by
          simpa [State.moved] using he
        exact absurd hc (by rw [← he']; exact lt_irrefl _)
      · exact absurd (by simp [hx]) hne
    | _ => exact absurd rfl hne

/-- The storage exists before and after such a write. -/
theorem State.Linear.write_live {a : Choice} {e : Entry} (h : s.Linear cfg)
    (hs : s.step cfg t a = some s') (he : (s'.mem.log x)[(s.mem.log x).length]? = some e)
    (hc : e.call < s.mem.calls) : x ∈ s.mem.live ∧ x ∈ s'.mem.live :=
  ⟨h.written_live hs he hc, h.borrowing.log_live hs fun hl => by simp [hl] at he⟩

theorem State.Linear.calls_run (h : s.Linear cfg) (hr : State.Run cfg (State.Calm cfg) s s') :
    s.mem.calls ≤ s'.mem.calls :=
  (Guarded.Run.invariant (I := fun s' => s.mem.calls ≤ s'.mem.calls ∧ s'.Linear cfg) hr
    ⟨le_rfl, h⟩ fun _ _ _ hi hp ha => ⟨hi.1.trans (hi.2.calls_le ha), hi.2.step hp.1 ha⟩).1

/-- The call has replaced the object `c` in the storage by `c'` at one instant of the run, and it
has not written at any other. Every run between the states takes the step
(`State.Reachable.displaces_iff`). -/
structure State.Displaces (cfg : Config) (s₁ s₂ : State T) (call : ℕ) (x : StorageId)
    (c c' : Content) (s s' : State T) : Prop where
  before : State.Run cfg (State.Calm cfg) s₁ s
  step : Guarded.Next (fun s a => s.step cfg a.1 a.2)
    (fun s (a : T × Choice) => s.Calm cfg a.1) s s'
  after : State.Run cfg (State.Calm cfg) s' s₂
  old : s.mem.content (s.mem.ptr x) = c
  new : s'.mem.content (s'.mem.ptr x) = c'
  first : ∀ x' k, ¬ s.mem.WrittenBy call x' k
  once : ∃ k, s'.mem.WrittenBy call x k ∧ ∀ x' k', s₂.mem.WrittenBy call x' k' → x' = x ∧ k' = k

theorem State.Reachable.displaces (h : s₁.Reachable cfg (State.Calm cfg))
    (hr : State.Run cfg (State.Calm cfg) s₁ s₂) (hcall : call < s₁.mem.calls)
    (hn : ∀ x' k, ¬ s₁.mem.WrittenBy call x' k) (hrep : s₂.mem.Replaced x call k c c') :
    ∃ s s', State.Displaces cfg s₁ s₂ call x c c' s s' := by
  have hlin : ∀ {s : State T}, s.Reachable cfg (State.Calm cfg) → s.Linear cfg :=
    fun h => (h.mono fun _ _ hp => hp.1).linear
  obtain ⟨hpos, ⟨e, he, rfl⟩, hnew⟩ := hrep
  have hle : (s₁.mem.log x).length ≤ k :=
    Mem.length_le_of_not_writtenBy (State.Run.log_prefix hr x) (hn x k) hnew
  obtain ⟨s, s', hr₁, ⟨a, hp, ha⟩, hr₂, hl, hl', hlast, hsame⟩ := Guarded.Run.exists_write
    (fun s => s.mem.log x) hr (hlin h)
    (fun s s' a hi hp ha => State.Linear.log_step s s' a hi hp.1 ha x) hle hnew
  have h₁ : s.Reachable cfg (State.Calm cfg) := Relation.ReflTransGen.trans h hr₁
  have h₁' : s'.Reachable cfg (State.Calm cfg) := h₁.tail ⟨a, hp, ha⟩
  have hrs : State.Run cfg (State.Calm cfg) s s₂ := Relation.ReflTransGen.head ⟨a, hp, ha⟩ hr₂
  obtain ⟨hx, hx'⟩ := (hlin h₁).write_live ha (hl.symm ▸ hlast)
    (hcall.trans_le ((hlin h).calls_run hr₁))
  have hunique : ∀ x' k', s₂.mem.WrittenBy call x' k' → x' = x ∧ k' = k := by
    rintro x' k' ⟨v, hv⟩
    exact (hlin (h₁'.trans hr₂)).tickets.once hv hnew rfl
  refine ⟨s, s', hr₁, ⟨a, hp, ha⟩, hr₂, ?_, ?_, ?_, k, ⟨c', hlast⟩, hunique⟩
  · exact (h₁.current x hx).holds (by omega) ((hsame (k - 1) (by omega)).trans he)
  · exact (h₁'.current x hx').holds hl' hlast
  · exact Mem.not_writtenBy (State.Run.log_prefix hrs) hl.le hunique

/-- **Replaced at an instant of the given run**: every run between the two states takes the step in
which the call writes. -/
theorem State.Reachable.displaces_iff (h : s₁.Reachable cfg (State.Calm cfg))
    (hcall : call < s₁.mem.calls) : (∃ s s', State.Displaces cfg s₁ s₂ call x c c' s s') ↔
      State.Run cfg (State.Calm cfg) s₁ s₂ ∧ ∀ us, State.Path cfg (State.Calm cfg) s₁ us s₂ →
        ∃ s s', [s, s'] <:+: us ∧ State.Displaces cfg s₁ s₂ call x c c' s s' := by
  have hlin : ∀ {s : State T}, State.Run cfg (State.Calm cfg) s₁ s → s.Linear cfg :=
    fun hr => State.Reachable.linear (State.Reachable.mono (h.trans hr) fun _ _ hp => hp.1)
  have hcur : ∀ {s : State T}, State.Run cfg (State.Calm cfg) s₁ s → s.Current :=
    fun hr => State.Reachable.current (h.trans hr)
  constructor
  · rintro ⟨s, s', hr₁, ⟨a, hg, ha⟩, hr₂, rfl, rfl, hfirst, k, hw, honce⟩
    have hr₁' : State.Run cfg (State.Calm cfg) s₁ s' := hr₁.tail ⟨a, hg, ha⟩
    refine ⟨hr₁'.trans hr₂, fun us hp => ?_⟩
    obtain ⟨-, hpre, hle⟩ := State.Linear.log_step s s' a (hlin hr₁) hg.1 ha x
    obtain ⟨e, he⟩ := id hw
    -- the entry of the call is the new one
    have hk : (s.mem.log x).length ≤ k := Mem.length_le_of_not_writtenBy hpre (hfirst x k) he
    have hk' := (List.getElem?_eq_some_iff.mp he).1
    obtain rfl : k = (s.mem.log x).length := by omega
    obtain ⟨v, v', hv, hl, hl'⟩ := hp.exists_append (fun s => s.mem.log x) (hlin .refl)
      (fun s s' a hi hp ha => State.Linear.log_step s s' a hi hp.1 ha x) (hr₁.log_prefix x) hpre
      (by omega) (hr₂.log_prefix x)
    obtain ⟨hrv, ⟨b, hg', hb⟩, hrv'⟩ := hp.steps hv
    have hrvb : State.Run cfg (State.Calm cfg) s₁ v' := hrv.tail ⟨b, hg', hb⟩
    have hev : (v'.mem.log x)[(v.mem.log x).length]? = some ⟨e, call⟩ := by
      rw [show v'.mem.log x = s'.mem.log x from hl', show v.mem.log x = s.mem.log x from hl, he]
    obtain ⟨hx, hx'⟩ := (hlin hr₁).write_live ha he (hcall.trans_le ((hlin .refl).calls_run hr₁))
    obtain ⟨hxv, hxv'⟩ := (hlin hrv).write_live hb hev
      (hcall.trans_le ((hlin .refl).calls_run hrv))
    refine ⟨v, v', hv, hrv, ⟨b, hg', hb⟩, hrv', (hcur hr₁ x hx).congr (hcur hrv x hxv) hl,
      (hcur hr₁' x hx').congr (hcur hrvb x hxv') hl', ?_, _, ⟨e, hl ▸ hev⟩, honce⟩
    exact Mem.not_writtenBy (State.Run.log_prefix (.head ⟨b, hg', hb⟩ hrv')) (hl ▸ le_rfl) honce
  · rintro ⟨hr, hp⟩
    obtain ⟨us, hpath⟩ := hr.exists_path
    obtain ⟨s, s', -, hd⟩ := hp us hpath
    exact ⟨s, s', hd⟩

/-! ## Operations -/

/-- An operation that writes, called in `s₀` with `s₁` the state after the call, has exchanged an
object for another one when it returns in `s₂`. -/
def Op.Exchanges (cfg : Config) (s₀ s₁ s₂ : State T) : Op → Ret → Prop
  | .swap x p, r => ∃ v k c s s', r = .value v (some k) ∧ c.addr = p ∧
      State.Displaces cfg s₁ s₂ s₀.mem.calls x (s₂.mem.content v.addr) c s s'
  | .compareAndSwap x current p, r => ∃ g w, r = .guard g w ∧ (g.ref.addr = current → ∃ s s',
      State.Displaces cfg s₁ s₂ s₀.mem.calls x (s₂.mem.content g.ref.addr) (s₀.mem.content p) s s')
  | _, _ => True

/-- The closures of the call have been computed in the run from `s₁` on. -/
def State.ComputedIn (cfg : Config) (s₁ : State T) (call : ℕ) (s : State T) : T → Computed :=
  fun t f c c' => f.call = call → ∃ u, State.Run cfg (State.Calm cfg) s₁ u ∧
    u.Computes t f c c' ∧ State.Run cfg (State.Calm cfg) u s

/-- What is known of the objects after the call of an operation. -/
theorem State.Reachable.meant_run {a : Choice} {u : UserKind}
    (h : s₀.Reachable cfg (State.Calm cfg)) (hu : (s₀.thread t).active = .user u)
    (hs : s₀.step cfg t a = some s₁) (hr : State.Run cfg (State.Calm cfg) s₁ s₂) :
    s₂.Meant (s₁.ComputedIn cfg s₀.mem.calls s₂) := by
  have hcov : ∀ {s : State T}, s.Reachable cfg (State.Calm cfg) → s.Covering cfg :=
    fun h => (h.mono fun _ _ hp => hp.1).covering.2
  have h₁ : s₁.Reachable cfg (State.Calm cfg) := h.tail ⟨(t, a), State.calm_of_user hu, hs⟩
  refine (Guarded.Run.invariant (I := fun s => State.Run cfg (State.Calm cfg) s₁ s ∧
    s.Meant (s₁.ComputedIn cfg s₀.mem.calls s)) hr ⟨.refl, ?_⟩ ?_).2
  · refine h.meant.step h.accounted (hcov h) h.current hs (fun _ _ _ _ hf he => ?_) ?_
    · exact absurd he hf.ne
    · rintro f c c' ⟨cur, new, w, ks, ha, -⟩
      rw [hu] at ha
      cases ha
  · rintro s s' b ⟨hrs, hi⟩ hp hb
    have h₂ : s.Reachable cfg (State.Calm cfg) := Relation.ReflTransGen.trans h₁ hrs
    refine ⟨hrs.tail ⟨b, hp, hb⟩, hi.step h₂.accounted (hcov h₂) h₂.current hb ?_ ?_⟩
    · intro t' f c c' hf he
      obtain ⟨v, hv, hc, hv'⟩ := hf he
      exact ⟨v, hv, hc, hv'.tail ⟨b, hp, hb⟩⟩
    · exact fun f c c' hc _ => ⟨s, hrs, hc, .single ⟨b, hp, hb⟩⟩

/-- **What is returned is what has been replaced**: also when addresses are used again, a `swap` and
a successful `compare_and_swap` return the very object that they have taken out of the storage, and
`compare_and_swap` has put the very object there that it was called with. -/
theorem State.Reachable.exchanges_objects {o : Op} {r : Ret}
    (h : s₀.Reachable cfg (State.Calm cfg)) (hc : s₀.step cfg t (.op o) = some s₁)
    (hr : State.Run cfg (State.Calm cfg) s₁ s₂) (hret : s₀.Returns cfg t o s₂ r) :
    o.Exchanges cfg s₀ s₁ s₂ r := by
  obtain ⟨u, -, hu, -⟩ := id hret
  have h₁ : s₁.Reachable cfg (State.Calm cfg) := h.tail ⟨(t, .op o), State.calm_of_user hu, hc⟩
  have h₂ : s₂.Reachable cfg (State.Calm cfg) := Relation.ReflTransGen.trans h₁ hr
  have hl := State.Reachable.linear (h.mono fun _ _ hp => hp.1)
  have hl₂ := State.Reachable.linear (h₂.mono fun _ _ hp => hp.1)
  -- the number of the call is new
  have hnew : ∀ x' k, ¬ s₀.mem.WrittenBy s₀.mem.calls x' k := by
    rintro x' k ⟨v, hv⟩
    exact lt_irrefl _ (hl.tickets.spent x' _ (List.mem_of_getElem? hv)).1
  have hm := (h.meant_run hu hc hr t).1
  obtain ⟨ha, hmeets, -⟩ := hl₂.returned hret
  rw [ha] at hm
  simp only [State.step, hu] at hc
  cases o with
  | swap x p =>
    simp only [State.userOp, Option.ite_none_right_eq_some, Option.some.injEq] at hc
    obtain ⟨⟨hx, -⟩, rfl⟩ := hc
    obtain ⟨k, hk⟩ := hmeets
    obtain ⟨v, rfl⟩ : ∃ v, r = .value v (some k) := by simpa using hk
    obtain ⟨c, hcp, hrep⟩ := hm
    obtain ⟨s, s', hd⟩ := h₁.displaces hr (Nat.lt_succ_self _) hnew hrep
    exact ⟨v, k, c, s, s', rfl, hcp, hd⟩
  | compareAndSwap x current p =>
    simp only [State.userOp, Option.ite_none_right_eq_some, Option.some.injEq] at hc
    obtain ⟨⟨hx, -⟩, rfl⟩ := hc
    obtain ⟨g, w, rfl, -, -, hw⟩ := hmeets
    refine ⟨g, w, rfl, fun hcur => ?_⟩
    obtain ⟨k, rfl⟩ := Option.isSome_iff_exists.mp (hw.mpr hcur)
    exact h₁.displaces hr (Nat.lt_succ_self _) hnew hm
  | _ => trivial

/-- The swap that pays the debt of a reader. -/
theorem State.Reachable.exchanges_objects_sample : (Op.swap 0 2).Exchanges .sample
    (State.sample 17) (State.sample 18) (State.sample 66) (.value ⟨.arc, 1⟩ (some 1)) := by
  have hrun : State.Run .sample (State.Calm .sample) (State.sample 0) (State.sample 17) :=
    State.sample_run_of (k := 0) (l := 17) (fun _ _ h => h.1) (by decide +kernel)
  exact State.Reachable.exchanges_objects (t := 0) hrun (State.sample_step rfl)
    (State.sample_run_of (k := 18) (l := 48) (fun _ _ h => h.1) (by decide +kernel))
    (State.returns_of_main (by decide +kernel) (by decide +kernel))

/-- The call `f` of `rcu` in the state `s₀`, with `s₁` the state after the call, has returned in
`s₂`. -/
inductive State.Updated (cfg : Config) (s₀ s₁ s₂ : State T) (t : T) (f : RcuFrame) : Ret → Prop
  /-- At one instant after an invocation of the closure has returned, the object that it was given
  has been replaced by the one that it has made. The displaced object is returned. -/
  | value {v k u c c' s s'} (hu : State.Run cfg (State.Calm cfg) s₁ u) (hc : u.Computes t f c c')
    (hd : State.Displaces cfg u s₂ f.call f.storage c c' s s')
    (hv : s₂.mem.content v.addr = c)
    (hh : (s₂.thread t).claims cfg = {v.claim} + (s₀.thread t).claims cfg) :
    Updated cfg s₀ s₁ s₂ t f (.value v (some k))
  /-- The storage has not been changed, and the thread holds what it has held before. -/
  | panicked (hn : ∀ x k, ¬ s₂.mem.WrittenBy f.call x k)
    (hh : (s₂.thread t).claims cfg = (s₀.thread t).claims cfg) :
    Updated cfg s₀ s₁ s₂ t f .panicked

omit [DecidableEq T] in
/-- What the thread holds after an `rcu`, beside what it has held before. -/
theorem State.Linear.rcu_claims {r : Ret} (h : s₂.Linear cfg)
    (hret : s₀.Returns cfg t (.rcu x) s₂ r) :
    (s₂.thread t).claims cfg = Ret.claims (.rcu ⟨x, s₀.mem.now x, s₀.mem.calls⟩) r +
      (s₀.thread t).claims cfg := by
  obtain ⟨ha, -, -⟩ := h.returned hret
  obtain ⟨u, -, hu, -, hks⟩ := hret
  rw [Thread.claims, Thread.claims, ha, hks, hu]
  simp [Active.claims, Cont.claims, Op.contract]

omit [DecidableEq T] in
/-- An `rcu` that panics has not spent its ticket. -/
theorem State.Linear.rcu_panicked (h : s₂.Linear cfg)
    (hret : s₀.Returns cfg t (.rcu x) s₂ .panicked) (x' : StorageId) (k : ℕ) :
    ¬ s₂.mem.WrittenBy s₀.mem.calls x' k := by
  rintro ⟨v, hv⟩
  refine (h.tickets.spent x' _ (List.mem_of_getElem? hv)).2 (Family.mem_total.mpr ⟨t, ?_⟩)
  simp [Thread.tickets, (h.returned hret).1, Op.contract, Active.tickets]

/-- **No update is lost**: in every interleaving, an `rcu` that returns has replaced the very object
that its closure was given by what the closure has made of it, at one instant and at no other; an
`rcu` whose closure panics has changed nothing. -/
theorem State.Reachable.rcu_updates {r : Ret} (h : s₀.Reachable cfg (State.Calm cfg))
    (hc : s₀.step cfg t (.op (.rcu x)) = some s₁) (hr : State.Run cfg (State.Calm cfg) s₁ s₂)
    (hret : s₀.Returns cfg t (.rcu x) s₂ r) :
    State.Updated cfg s₀ s₁ s₂ t ⟨x, s₀.mem.now x, s₀.mem.calls⟩ r := by
  obtain ⟨u, -, hu, -, hks⟩ := id hret
  have h₁ : s₁.Reachable cfg (State.Calm cfg) := h.tail ⟨(t, _), State.calm_of_user hu, hc⟩
  have h₂ : s₂.Reachable cfg (State.Calm cfg) := Relation.ReflTransGen.trans h₁ hr
  have hl₂ := State.Reachable.linear (h₂.mono fun _ _ hp => hp.1)
  have hm := (h.meant_run hu hc hr t).1
  obtain ⟨ha, hmeets, -⟩ := hl₂.returned hret
  rw [ha] at hm
  have hclaims := hl₂.rcu_claims hret
  rcases hmeets with ⟨v, k, rfl, -⟩ | rfl
  · obtain ⟨made, hcomp, hrep⟩ := hm
    obtain ⟨w, hw, hcw, hrw⟩ := hcomp rfl
    have hlw : w.Reachable cfg (State.Calm cfg) := Relation.ReflTransGen.trans h₁ hw
    obtain ⟨hlt, hn⟩ := (State.Reachable.linear (hlw.mono fun _ _ hp => hp.1)).computes hcw
    obtain ⟨s, s', hd⟩ := hlw.displaces hrw hlt hn hrep
    exact .value hw hcw hd rfl hclaims
  · exact .panicked (hl₂.rcu_panicked hret) (by simpa [Ret.claims] using hclaims)

/-- The thread `true` calls `rcu`. While its closure runs, the thread `false` stores another value;
the exchange fails, and the closure is called again. -/
def rcuSchedule : List (Bool × Choice) := List.flatten
  [[(false, .op (.alloc 1)), (false, .op (.new 0 1)), (true, .op (.rcu 0))], goOn true 13,
    [(true, .op (.alloc 2)), (true, .result ⟨.arc, 2⟩), (false, .op (.alloc 3)),
      (false, .op (.store 0 3))], goOn false 51, goOn true 10, [(true, .done)],
    goOn true 5, [(true, .done)], goOn true 2,
    [(true, .op (.alloc 4)), (true, .result ⟨.arc, 4⟩)], goOn true 61]

theorem rcuSchedule_isSome :
    (State.play .sample (State.Calm .sample) .init rcuSchedule).isSome := by
  decide +kernel

/-- The second attempt, which replaces the value of the other thread. -/
theorem State.Reachable.rcu_updates_sample : State.Updated .sample
    (Guarded.after rcuSchedule_isSome 2) (Guarded.after rcuSchedule_isSome 3)
    (Guarded.after rcuSchedule_isSome 153) true ⟨0, 0, 1⟩ (.value ⟨.arc, 3⟩ (some 2)) :=
  State.Reachable.rcu_updates (x := 0) (Guarded.after_reachable rcuSchedule_isSome 2)
    (Guarded.after_step rcuSchedule_isSome (k := 2) rfl)
    (Guarded.after_run_of (k := 3) (l := 150) (fun _ _ h => h) rcuSchedule_isSome
      (by decide +kernel))
    (State.returns_of_main (by decide +kernel) (by decide +kernel))

end Step

end ArcSwap
