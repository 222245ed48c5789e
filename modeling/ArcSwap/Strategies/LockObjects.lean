import ArcSwap.Strategies.LockCounts
import ArcSwap.Values.Updates

/-!
# Objects under the locks

Whoever reads a pointer counts it before he gives the lock back, and whoever takes a pointer out of
a storage waits for the lock before he drops it. So an address keeps its meaning from the moment at
which it is read, and a call knows the objects that it has read or replaced, also when addresses are
used again.
-/

namespace ArcSwap.Locked

variable {T : Type*} {cfg : Config} {s s' : State T} {t : T} {m m' : Mem} {p : Addr}
  {x : StorageId} {r : Ref} {l l' : StorageId → RwLock T} {th' : Thread} {o' : Multiset Ref}
  {g' : Multiset Guard}

/-! ## What a call knows -/

/-- What is said of the values that `store` and `swap` were given. -/
abbrev Given := SwapFrame → Content → Prop

/-- What is known of a returned value. -/
def Says (N : Given) (R : Computed) (m : Mem) : Contract → Ret → Prop
  | .guard x start, .guard g _ => m.Loaded Eq x start g.ref.addr
  | .value x start, .value v _ => m.Loaded Eq x start v.addr
  | .swap f, .value v (some k) =>
    ∃ c, N f c ∧ m.Replaced f.storage f.call k (m.content v.addr) c
  | .swap f, .unit (some k) => ∃ c c', N f c' ∧ m.Replaced f.storage f.call k c c'
  | .cas f, .guard g (some k) =>
    m.Replaced f.storage f.call k (m.content g.ref.addr) f.content
  | .cas f, .guard g none => m.Loaded Eq f.storage f.start g.ref.addr
  | .rcu f, .value v (some k) => ∃ made, R f (m.content v.addr) made ∧
    m.Replaced f.storage f.call k (m.content v.addr) made
  | _, _ => True

/-- What the active function knows. -/
def Active.Knows (N : Given) (R : Computed) (m : Mem) : Active → Prop
  | .load x start (.inc r) | .load x start (.unlock r) => m.Loaded Eq x start r.addr
  | .load x start _ => start ≤ m.now x
  | .swap f => N f (m.content f.new.addr)
  | .cas f (.inc old) | .cas f (.unlock old none) => m.Loaded Eq f.storage f.start old.addr
  | .cas f (.unlock old (some k)) =>
    m.Replaced f.storage f.call k (m.content old.addr) f.content
  | .cas f _ => f.start ≤ m.now f.storage ∧ m.content f.new.addr = f.content
  | .ret c r => Says N R m c r
  | _ => True

/-- What a suspended caller knows. -/
def Cont.Knows (N : Given) (R : Computed) (m : Mem) : Cont → Prop
  | .swapWaited f old k => ∃ c, N f c ∧ m.Replaced f.storage f.call k (m.content old.addr) c
  | .stored f k => ∃ c c', N f c' ∧ m.Replaced f.storage f.call k c c'
  | .casRefused f old => m.Loaded Eq f.storage f.start old.addr
  | .rcuClosure _ cur given => m.content cur.addr = given
  | .rcuSwapped f cur given g => m.content cur.addr = given ∧ R f given g.content
  | .rcuDone f given made v w =>
    R f given made ∧ m.content v.addr = given ∧
      ∀ k, w = some k → m.Replaced f.storage f.call k given made
  | _ => True

/-- The function knows something of the object at the address. -/
def Active.Names (p : Addr) : Active → Prop
  | .load _ _ (.inc r) | .load _ _ (.unlock r) => r.addr = p
  | .swap f | .cas f .write | .cas f .exchange => f.new.addr = p
  | .cas _ (.inc old) | .cas _ (.unlock old _) => old.addr = p
  | .ret _ (.guard g _) => g.ref.addr = p
  | .ret _ (.value v _) => v.addr = p
  | _ => False

/-- The suspended caller knows something of the object at the address. -/
def Cont.Names (p : Addr) : Cont → Prop
  | .swapWaited _ old _ | .casRefused _ old => old.addr = p
  | .rcuClosure _ cur _ | .rcuSwapped _ cur _ _ => cur.addr = p
  | .rcuDone _ _ _ v _ => v.addr = p
  | _ => False

/-! ## One clause -/

section Clause

variable {N N' : Given} {R R' : Computed}

theorem stays_of_eq (hp : m'.content p = m.content p) : Stays Eq m m' p := fun _ hc => hp.trans hc

/-- What is known of a returned value stays true as long as the addresses keep their meaning. -/
theorem Says.other {c : Contract} {r : Ret} (h : Says N R m c r)
    (hl : ∀ x, m.log x <+: m'.log x)
    (hp : ∀ p, (Active.ret c r).Names p → m'.content p = m.content p)
    (hN : ∀ f c, N f c → N' f c) (hR : ∀ f c c', R f c c' → R' f c c') : Says N' R' m' c r := by
  cases c with
  | guard y start =>
    cases r <;> first | exact Mem.Loaded.stays h (hl _) (stays_of_eq (hp _ rfl)) | trivial
  | value y start =>
    cases r <;> first | exact Mem.Loaded.stays h (hl _) (stays_of_eq (hp _ rfl)) | trivial
  | swap f =>
    rcases r with (- | k) | n | ⟨g, w⟩ | ⟨v, - | k⟩ | - <;> try trivial
    · obtain ⟨c, c', hc, h⟩ := h
      exact ⟨c, c', hN _ _ hc, h.mono (hl _)⟩
    · obtain ⟨c, hc, h⟩ := h
      exact ⟨c, hN _ _ hc, h.other hl (hp _ rfl)⟩
  | cas f =>
    rcases r with w | n | ⟨g, - | k⟩ | ⟨v, w⟩ | - <;> try trivial
    · exact Mem.Loaded.stays h (hl _) (stays_of_eq (hp _ rfl))
    · exact Mem.Replaced.other h hl (hp _ rfl)
  | rcu f =>
    rcases r with w | n | ⟨g, w⟩ | ⟨v, - | k⟩ | - <;> try trivial
    obtain ⟨made, hr, h⟩ := h
    exact ⟨made, hp v.addr rfl ▸ hR _ _ _ hr, h.other hl (hp _ rfl)⟩
  | _ => trivial

theorem Active.Knows.other {a : Active} (h : a.Knows N R m) (hl : ∀ x, m.log x <+: m'.log x)
    (hp : ∀ p, a.Names p → m'.content p = m.content p)
    (hN : ∀ f c, N f c → N' f c) (hR : ∀ f c c', R f c c' → R' f c c') : a.Knows N' R' m' := by
  have hn : ∀ x, m.now x ≤ m'.now x := fun x => Nat.sub_le_sub_right (hl x).length_le 1
  cases a with
  | load y start pc =>
    cases pc with
    | inc | unlock => exact Mem.Loaded.stays h (hl _) (stays_of_eq (hp _ rfl))
    | _ => exact le_trans h (hn _)
  | swap f =>
    refine hN _ _ ?_
    rw [hp _ rfl]
    exact h
  | cas f pc =>
    cases pc with
    | write | exchange => exact ⟨h.1.trans (hn _), (hp _ rfl).trans h.2⟩
    | inc => exact Mem.Loaded.stays h (hl _) (stays_of_eq (hp _ rfl))
    | unlock old wrote =>
      cases wrote with
      | none => exact Mem.Loaded.stays h (hl _) (stays_of_eq (hp _ rfl))
      | some k => exact Mem.Replaced.other h hl (hp _ rfl)
  | ret c r => exact Says.other h hl hp hN hR
  | _ => trivial

theorem Cont.Knows.other {k : Cont} (h : k.Knows N R m) (hl : ∀ x, m.log x <+: m'.log x)
    (hp : ∀ p, k.Names p → m'.content p = m.content p)
    (hN : ∀ f c, N f c → N' f c) (hR : ∀ f c c', R f c c' → R' f c c') : k.Knows N' R' m' := by
  cases k with
  | swapWaited f old k =>
    obtain ⟨c, hc, h⟩ := h
    exact ⟨c, hN _ _ hc, h.other hl (hp _ rfl)⟩
  | stored f k =>
    obtain ⟨c, c', hc, h⟩ := h
    exact ⟨c, c', hN _ _ hc, h.mono (hl _)⟩
  | casRefused => exact Mem.Loaded.stays h (hl _) (stays_of_eq (hp _ rfl))
  | rcuClosure => exact (hp _ rfl).trans h
  | rcuSwapped => exact ⟨(hp _ rfl).trans h.1, hR _ _ _ h.2⟩
  | rcuDone => exact ⟨hR _ _ _ h.1, (hp _ rfl).trans h.2.1, fun k hk => (h.2.2 k hk).mono (hl _)⟩
  | _ => trivial

variable [DecidableEq T]

theorem Clause.knows {a : Active} {o : Out T} (h : Clause cfg t l m a o)
    (ha : a.Knows N R m) (hc : ∀ x, a.needs? = some x → m.Latest Eq x) :
    o.active.Knows N R o.mem ∧ ∀ k ∈ o.calls, k.Knows N R o.mem := by
  cases h with
  | read | inc | unlock | casWrite => exact ⟨ha, List.forall_mem_nil _⟩
  | load => exact ⟨(hc _ rfl).loaded ha, List.forall_mem_nil _⟩
  | waitWrite | waitUnlock | dec => exact ⟨trivial, List.forall_mem_nil _⟩
  | @swap f =>
    refine ⟨trivial, List.forall_mem_singleton.mpr ⟨m.content f.new.addr, ha, ?_⟩⟩
    exact (hc _ rfl).replaced f.new.addr f.call
  | @casSwapped f he =>
    refine ⟨?_, List.forall_mem_nil _⟩
    have hr := (hc _ rfl).replaced f.new.addr f.call
    rwa [he, ha.2] at hr
  | casOther => exact ⟨(hc _ rfl).loaded ha.1, List.forall_mem_nil _⟩
  | casInc => exact ⟨trivial, List.forall_mem_singleton.mpr ha⟩
  | @casUnlock f old wrote => exact ⟨by cases wrote <;> exact ha, List.forall_mem_nil _⟩
  | destroy => exact ⟨trivial, List.forall_mem_singleton.mpr trivial⟩

omit [DecidableEq T] in
/-- A closure that returns has computed something. -/
theorem Resumed.knows {k : Cont} {r : Ret} {a : Active} {calls : List Cont}
    (h : Resumed m k r a calls) (hok : k.Ok cfg) (hk : k.Knows N R m) (ha : Says N R m k.expects r)
    (hN : ∀ f c, N f c → N' f c) (hR : ∀ f c c', R f c c' → R' f c c')
    (hnew : ∀ f cur given new w, k = .rcuClosure f cur given → r = .value new w →
      R' f (m.content cur.addr) (m.content new.addr)) :
    a.Knows N' R' m ∧ ∀ k ∈ calls, k.Knows N' R' m := by
  cases h with
  | full => exact ⟨ha, List.forall_mem_nil _⟩
  | @swapWaited f =>
    obtain ⟨c, hc, h⟩ := hk
    exact ⟨⟨c, hN _ _ hc, h⟩, List.forall_mem_nil _⟩
  | storeWaited =>
    obtain ⟨c, hc, h⟩ := hk
    exact ⟨trivial, List.forall_mem_singleton.mpr ⟨_, c, hN _ _ hc, h⟩⟩
  | stored =>
    obtain ⟨c, c', hc, h⟩ := hk
    exact ⟨⟨c, c', hN _ _ hc, h⟩, List.forall_mem_nil _⟩
  | casRefused => exact ⟨hk, List.forall_mem_nil _⟩
  | rcuLoaded | rcuAgain => exact ⟨trivial, List.forall_mem_singleton.mpr rfl⟩
  | rcuClosure =>
    obtain rfl : m.content _ = _ := hk
    exact ⟨⟨le_rfl, rfl⟩, List.forall_mem_singleton.mpr ⟨rfl, hnew _ _ _ _ _ rfl rfl⟩⟩
  | @rcuSwapped f cur given g prev wrote he =>
    obtain ⟨hgiven, hr⟩ := hk
    obtain ⟨-, hst, hcall, -⟩ := hok
    refine ⟨trivial, List.forall_mem_singleton.mpr ⟨hR _ _ _ hr, he ▸ hgiven, ?_⟩⟩
    rintro k rfl
    have hrep : m.Replaced g.storage g.call k (m.content prev.ref.addr) g.content := ha
    rwa [← he, hgiven, hst, hcall] at hrep
  | @rcuDone f given made r wrote =>
    obtain ⟨hr, hgiven, hrep⟩ := hk
    refine ⟨?_, List.forall_mem_nil _⟩
    cases wrote with
    | none => trivial
    | some k => exact ⟨made, hgiven ▸ hR _ _ _ hr, hgiven ▸ hrep k rfl⟩
  | _ =>
    first
    | exact ⟨trivial, List.forall_mem_nil _⟩
    | exact ⟨trivial, List.forall_mem_singleton.mpr trivial⟩

omit [DecidableEq T] in
theorem Calls.knows {c : Call} (h : Calls cfg s m' c o' g')
    (hN : ∀ f : SwapFrame, f.call = s.mem.calls → m'.calls = s.mem.calls + 1 →
      N f (s.mem.content f.new.addr)) :
    c.active.Knows N R m' ∧ ∀ k ∈ c.calls, k.Knows N R m' := by
  cases h with
  | load | loadFull | rcu =>
    first
    | exact ⟨le_refl (s.mem.now _), List.forall_mem_nil _⟩
    | exact ⟨le_refl (s.mem.now _), List.forall_mem_singleton.mpr trivial⟩
  | swap => exact ⟨hN _ rfl rfl, List.forall_mem_nil _⟩
  | compareAndSwap => exact ⟨⟨le_refl (s.mem.now _), rfl⟩, List.forall_mem_nil _⟩
  | _ =>
    first
    | exact ⟨trivial, List.forall_mem_nil _⟩
    | exact ⟨trivial, List.forall_mem_singleton.mpr trivial⟩

omit [DecidableEq T] in
theorem Works.knows {u : UserKind} {a : Active} (h : Works cfg s t u m' l' a o' g') :
    a.Knows N R m' := by
  cases h <;> trivial

end Clause

/-! ## What a step does to the logs and the objects -/

section Move

variable [DecidableEq T]

theorem Clause.log_prefix {a : Active} {o : Out T} (h : Clause cfg t l m a o) (x : StorageId) :
    m.log x <+: o.mem.log x := by
  cases h with
  | swap | casSwapped => exact m.setPtr_prefix _ _ _ x
  | _ => exact List.prefix_rfl

theorem Move.log_prefix (h : Move cfg s t m' l' th' o' g') (x : StorageId) :
    s.mem.log x <+: m'.log x := by
  cases h with
  | code h => exact h.log_prefix x
  | resume | receive => exact List.prefix_rfl
  | call _ h => cases h <;> exact List.prefix_rfl
  | work _ h =>
    cases h with
    | new => exact s.mem.newCall.setPtr_prefix _ _ _ x
    | _ => exact List.prefix_rfl

/-- The allocator does not hand out an address that is in use. -/
theorem Move.object (h : Move cfg s t m' l' th' o' g') (hp : s.mem.Pinned p) :
    m'.object p = s.mem.object p := by
  cases h with
  | @code o h =>
    generalize (s.thread t).active = a at h
    cases h <;> rfl
  | resume | receive => rfl
  | call _ h => cases h <;> rfl
  | work _ h =>
    cases h with
    | @alloc _ q hq hf =>
      have hne : p ≠ q := by
        rintro rfl
        exact hp.not_freed hq hf
      simp [hne]
    | _ => rfl

theorem Clause.latest {a : Active} {o : Out T} (h : Clause cfg t l m a o) (hl : m.Latest Eq x) :
    o.mem.Latest Eq x := by
  cases h with
  | swap | casSwapped => exact Mem.Latest.setPtr (fun _ => rfl) fun _ => hl
  | _ => exact hl

theorem Move.latest (h : Move cfg s t m' l' th' o' g') (hl : x ∈ s.mem.live → s.mem.Latest Eq x)
    (hp : x ∈ s.mem.live → s.mem.Pinned (s.mem.ptr x)) (hx : x ∈ m'.live) : m'.Latest Eq x := by
  cases h with
  | code h => exact h.latest (hl (h.live_eq ▸ hx))
  | resume | receive => exact hl hx
  | call _ h =>
    cases h with
    | consume | dropStorage =>
      have hx' := Finset.mem_of_mem_erase hx
      exact hl hx'
    | _ => exact hl hx
  | @work u m' l' a o' g' ha h =>
    have hobj := fun hx => (Move.work ha h).object (hp hx)
    cases h with
    | @new _ y q =>
      refine Mem.Latest.setPtr (m := s.mem.newCall) (fun _ => rfl) fun hne => hl ?_
      simpa [hne] using hx
    | alloc =>
      obtain ⟨e, he, hE⟩ := hl hx
      refine ⟨e, he, ?_⟩
      rw [← hE, Mem.content, Mem.content]
      exact congrArg _ (hobj hx)
    | _ => exact hl hx

end Move

/-! ## What must not be reused -/

theorem Linked.expects {c : Contract} {ks : List Cont} {q : Cont} (h : Linked c ks) (hq : q ∈ ks) :
    c = q.expects ∨ ∃ k ∈ ks, k.promise = q.expects := by
  induction ks generalizing c with
  | nil => cases hq
  | cons k ks ih =>
    rcases List.mem_cons.mp hq with rfl | hq
    · exact .inl h.1
    · rcases ih h.2 hq with hk | ⟨k', hk', he⟩
      · exact .inr ⟨k, List.mem_cons_self, hk⟩
      · exact .inr ⟨k', List.mem_cons_of_mem _ hk', he⟩

/-- Who waits for the readers of a value has a reference to it. -/
theorem Thread.Typed.waits_claims {th : Thread} {q : Cont} (h : th.Typed cfg) (hq : q ∈ th.conts)
    (he : q.expects = .paid r) : r.claim ∈ th.claims := by
  rcases h.linked.expects hq with hp | ⟨k, -, hp⟩
  · refine Thread.mem_gather.mpr (.inl ?_)
    rw [he] at hp
    cases ha : th.active with
    | wait y v pc =>
      rw [ha] at hp
      obtain rfl := Contract.paid.inj hp
      exact Multiset.mem_singleton_self _
    | ret c v =>
      rw [ha] at hp
      obtain rfl : c = .paid r := hp
      exact Multiset.mem_singleton_self _
    | user u =>
      rw [ha] at hp
      cases u <;> cases hp
    | _ =>
      rw [ha] at hp
      cases hp
  · rw [he] at hp
    cases k with
    | user u => cases u <;> cases hp
    | _ => cases hp

variable [Fintype T] [DecidableEq T]

theorem State.Sound.pinned (h : s.Sound cfg) (hc : r.claim ∈ s.claims cfg) :
    s.mem.Pinned r.addr := .of_count (h.pos hc)

/-- Whatever a call knows something of is in use. -/
theorem State.Sound.named (h : s.Sound cfg)
    (hp : (s.thread t).active.Names p ∨ ∃ q ∈ (s.thread t).conts, q.Names p) : s.mem.Pinned p := by
  have ht := h.typed t
  have hclaim : ∀ {r : Ref}, r.claim ∈ (s.thread t).active.claims → s.mem.Pinned r.addr :=
    fun hr => h.pinned (State.mem_claims_of_thread (Thread.mem_gather.mpr (.inl hr)))
  have hcont : ∀ {q : Cont} {r : Ref}, q ∈ (s.thread t).conts → r.claim ∈ q.claims →
      s.mem.Pinned r.addr :=
    fun hq hr => h.pinned (State.mem_claims_of_thread (Thread.mem_gather.mpr (.inr ⟨_, hq, hr⟩)))
  rcases hp with hp | ⟨q, hq, hp⟩
  · cases ha : (s.thread t).active with
    | load y start pc =>
      rw [ha] at hp
      cases pc with
      | inc v =>
        obtain rfl : v.addr = p := hp
        exact .of_count (h.counts_pos (t := t) (by rw [ha]; rfl))
      | unlock v =>
        obtain rfl : v.addr = p := hp
        exact hclaim (by rw [ha]; exact Multiset.mem_singleton_self _)
      | _ => exact hp.elim
    | swap f =>
      rw [ha] at hp
      obtain rfl : f.new.addr = p := hp
      exact hclaim (by rw [ha]; exact Multiset.mem_singleton_self _)
    | cas f pc =>
      rw [ha] at hp
      cases pc with
      | write | exchange =>
        obtain rfl : f.new.addr = p := hp
        exact hclaim (by rw [ha]; exact Multiset.mem_singleton_self _)
      | inc old =>
        obtain rfl : old.addr = p := hp
        exact .of_count (h.counts_pos (t := t) (by rw [ha]; rfl))
      | unlock old wrote =>
        obtain rfl : old.addr = p := hp
        exact hclaim (by rw [ha]; exact Multiset.mem_singleton_self _)
    | ret c v =>
      have hok := ht.active
      rw [ha] at hp hok
      cases v with
      | guard g w =>
        obtain rfl : g.ref.addr = p := hp
        refine hclaim (r := g.ref) ?_
        have hg : g.claim = g.ref.claim := by
          rw [Guard.claim, show g.debt = none from hok.2]
          rfl
        rw [ha, ← hg]
        cases c <;> first
          | exact Multiset.mem_singleton_self _
          | exact absurd hok.1 (by simp [Contract.Meets])
      | value v w =>
        obtain rfl : v.addr = p := hp
        refine hclaim (r := v) ?_
        rw [ha]
        cases c <;> first
          | exact Multiset.mem_singleton_self _
          | exact absurd hok.1 (by simp [Contract.Meets])
      | _ => exact hp.elim
    | _ =>
      rw [ha] at hp
      exact hp.elim
  · cases q <;> simp only [Cont.Names] at hp
    all_goals subst hp
    case swapWaited => exact h.pinned (State.mem_claims_of_thread (ht.waits_claims hq rfl))
    all_goals exact hcont hq (Multiset.mem_singleton_self _)

/-! ## One step -/

/-- What is in a storage is the object that has been written there. -/
def State.Current (s : State T) : Prop := ∀ x ∈ s.mem.live, s.mem.Latest Eq x

/-- What all threads know. -/
def State.Knows (N : Given) (R : T → Computed) (s : State T) : Prop :=
  ∀ t, (s.thread t).active.Knows N (R t) s.mem ∧ ∀ k ∈ (s.thread t).conts, k.Knows N (R t) s.mem

/-- The closure of an `rcu` returns: it has been given `c`, and it has made `c'` of it. -/
def State.Computes (s : State T) (t : T) (f : RcuFrame) (c c' : Content) : Prop :=
  ∃ cur new w ks, (s.thread t).active = .ret (.closure f.storage) (.value new w) ∧
    (s.thread t).conts = .rcuClosure f cur c :: ks ∧ s.mem.content cur.addr = c ∧
    s.mem.content new.addr = c'

omit [Fintype T] in
theorem Move.current (h : Move cfg s t m' l' th' o' g') (hc : s.Current)
    (hp : ∀ x ∈ s.mem.live, s.mem.Pinned (s.mem.ptr x)) : (s.moved t m' l' th' o' g').Current :=
  fun x hx => h.latest (hc x) (hp x) hx

theorem State.Sound.stored_pinned (h : s.Sound cfg) (hx : x ∈ s.mem.live) :
    s.mem.Pinned (s.mem.ptr x) := .of_count (r := s.mem.stored cfg x) (h.stored_pos hx)

/-- **What is known of the objects stays true** in every step. -/
theorem Move.knows {N N' : Given} {R R' : T → Computed} (hm : Move cfg s t m' l' th' o' g')
    (h : s.Sound cfg) (hc : s.Current) (hk : s.Knows N R)
    (hN : ∀ f c, N f c → N' f c) (hR : ∀ t f c c', R t f c c' → R' t f c c')
    (hgiven : ∀ f : SwapFrame, f.call = s.mem.calls → m'.calls = s.mem.calls + 1 →
      N' f (s.mem.content f.new.addr))
    (hnew : ∀ f c c', s.Computes t f c c' → R' t f c c') :
    (s.moved t m' l' th' o' g').Knows N' R' := by
  have ht := h.typed t
  have hobj : ∀ {p}, s.mem.Pinned p → m'.content p = s.mem.content p := fun hp => by
    rw [Mem.content, Mem.content, hm.object hp]
  have hconts : ∀ t', ∀ k ∈ (s.thread t').conts, k.Knows N' (R' t') m' := fun t' k hq =>
    ((hk t').2 k hq).other hm.log_prefix (fun p hp => hobj (h.named (.inr ⟨k, hq, hp⟩))) hN (hR t')
  have hself : th'.active.Knows N' (R' t) m' ∧ ∀ k ∈ th'.conts, k.Knows N' (R' t) m' := by
    cases hm with
    | code hcl =>
      obtain ⟨h₁, h₂⟩ := hcl.knows
        ((hk t).1.other (fun _ => List.prefix_rfl) (fun _ _ => rfl) hN (hR t))
        fun x hx => hc x (h.live t x (.inl hx))
      exact ⟨h₁, List.forall_mem_append.mpr ⟨h₂, hconts t⟩⟩
    | @resume c r k ks a calls ha hks hres =>
      have hl := ht.linked
      have hact := (hk t).1
      rw [ha, hks] at hl
      rw [ha] at hact
      obtain rfl : c = k.expects := hl.1
      have hmem : k ∈ (s.thread t).conts := by simp [hks]
      obtain ⟨h₁, h₂⟩ := hres.knows (ht.conts k hmem) ((hk t).2 k hmem) hact hN (hR t) (by
        rintro f cur given new w rfl rfl
        obtain rfl : s.mem.content cur.addr = given := (hk t).2 _ hmem
        exact hnew f _ _ ⟨cur, new, w, ks, ha, hks, rfl, rfl⟩)
      refine ⟨h₁, List.forall_mem_append.mpr ⟨h₂, fun q hq => hconts t q ?_⟩⟩
      simp [hks, hq]
    | @receive c r u c' ks ha hks => exact ⟨trivial, fun q hq => hconts t q (by simp [hks, hq])⟩
    | call ha hcl =>
      obtain ⟨h₁, h₂⟩ := hcl.knows (R := R' t) hgiven
      exact ⟨h₁, List.forall_mem_append.mpr ⟨h₂, List.forall_mem_cons.mpr ⟨trivial, hconts t⟩⟩⟩
    | work ha hcl => exact ⟨hcl.knows, hconts t⟩
  intro t'
  by_cases hne : t' = t
  · subst hne
    rw [State.moved_self]
    exact hself
  · rw [State.moved_of_ne hne]
    exact ⟨(hk t').1.other hm.log_prefix (fun p hp => hobj (h.named (.inl hp))) hN (hR t'),
      hconts t'⟩

end ArcSwap.Locked
