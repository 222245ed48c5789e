import ArcSwap.Invariants.Borrows

/-!
# What a storage has held during a call

The log of a storage says what it has held, in order. A call knows the last position in the log
when it began, and what it has loaded stands in the log from this position on: loaded by itself, or
by a helper that has found its transaction open.

What is known of a content in the log and of what a pointer means now is a relation `E`, so that
the same argument speaks of addresses and of objects: an address keeps its meaning for ever, an
object only as long as nobody reuses its address.
-/

namespace ArcSwap

variable {cfg : Config} {tls : Tls} {m m' : Mem} {E : Content → Content → Prop}

/-! ## Positions in the log -/

/-- The storage has held, at a position from `start` on, a content that satisfies `P`. -/
def Mem.Within (m : Mem) (x : StorageId) (start : ℕ) (P : Content → Prop) : Prop :=
  ∃ i e, start ≤ i ∧ (m.log x)[i]? = some e ∧ P e.content

/-- The storage has held what the pointer means now. -/
def Mem.Loaded (E : Content → Content → Prop) (m : Mem) (x : StorageId) (start : ℕ) (p : Addr) :
    Prop :=
  m.Within x start (E (m.content p))

/-- The last entry of the log is what the storage holds. -/
def Mem.Latest (E : Content → Content → Prop) (m : Mem) (x : StorageId) : Prop :=
  ∃ e, (m.log x)[m.now x]? = some e ∧ E (m.content (m.ptr x)) e.content

/-- The call has written to the storage at the position `k` of the log: it has replaced a content
that satisfies `P` by one that satisfies `Q`. -/
structure Mem.Wrote (m : Mem) (x : StorageId) (start call k : ℕ) (P Q : Content → Prop) : Prop where
  start : start < k
  old : ∃ e, (m.log x)[k - 1]? = some e ∧ P e.content
  new : ∃ c, (m.log x)[k]? = some ⟨c, call⟩ ∧ Q c

theorem getElem?_of_prefix {α : Type*} {l l' : List α} {i : ℕ} {a : α} (h : l <+: l')
    (ha : l[i]? = some a) : l'[i]? = some a := by
  obtain ⟨r, rfl⟩ := h
  obtain ⟨hi, -⟩ := List.getElem?_eq_some_iff.mp ha
  rwa [List.getElem?_append_left hi]

theorem Mem.Within.imp {x : StorageId} {start start' : ℕ} {P Q : Content → Prop}
    (h : m.Within x start P) (hp : m.log x <+: m'.log x) (hs : start' ≤ start)
    (hq : ∀ c, P c → Q c) : m'.Within x start' Q := by
  obtain ⟨i, e, hi, he, hP⟩ := h
  exact ⟨i, e, hs.trans hi, getElem?_of_prefix hp he, hq _ hP⟩

theorem Mem.Wrote.imp {x : StorageId} {start call k : ℕ} {P Q P' Q' : Content → Prop}
    (h : m.Wrote x start call k P Q) (hp : m.log x <+: m'.log x) (hP : ∀ c, P c → P' c)
    (hQ : ∀ c, Q c → Q' c) : m'.Wrote x start call k P' Q' := by
  obtain ⟨hk, ⟨e, he, hPe⟩, c, hc, hQc⟩ := h
  exact ⟨hk, ⟨e, getElem?_of_prefix hp he, hP _ hPe⟩,
    c, getElem?_of_prefix hp hc, hQ _ hQc⟩

/-! ## What a call has found out -/

/-- What is known at the program points of `load`. -/
def LoadPc.Window (E : Content → Content → Prop) (m : Mem) (f : LoadFrame) : LoadPc → Prop
  | .newFast p | .probe _ p _ | .claim _ p _ | .confirm p _ | .unclaim p _ =>
    m.Within f.storage f.start (E ⟨p, f.seen⟩)
  | .candidate n _ => f.start ≤ m.opened n
  | .confirmHelping n gen p | .offerDebt n gen p | .closeControl n gen p =>
    f.start ≤ m.opened n ∧ (m.control n = genWord gen → m.Loaded E f.storage f.start p)
  | .takeEnvelope n _ _ _ => f.start ≤ m.opened n
  | .keepEnvelope _ _ _ q | .payUnused _ _ q => m.Loaded E f.storage f.start q
  | .leave g => m.Loaded E f.storage f.start g.ref.addr
  | _ => True

/-- What is known at the program points of `pay_all`: where a replacement comes from. -/
def PayPc.Window (E : Content → Content → Prop) (m : Mem) (f : PayFrame) : PayPc → Prop
  | .helpTheirs _ _ _ q | .helpMine _ _ _ q _ | .helpWrite _ _ _ q _ _ | .helpCas _ _ _ q _ _ =>
    m.Loaded E f.storage f.since q.addr
  | _ => True

/-- What is known of a returned value. -/
def Contract.Says (E : Content → Content → Prop) (m : Mem) : Contract → Ret → Prop
  | .guard x start, .guard g _ => m.Loaded E x start g.ref.addr
  | .value x start, .value r _ => m.Loaded E x start r.addr
  | .swap f, .value r (some k) =>
    m.Wrote f.storage f.start f.call k (·.addr = r.addr) (·.addr = f.new.addr)
  | .swap f, .unit (some k) =>
    m.Wrote f.storage f.start f.call k (fun _ => True) (·.addr = f.new.addr)
  | .cas f, .guard _ (some k) =>
    m.Wrote f.storage f.start f.call k (·.addr = f.current) (·.addr = f.new.addr)
  | .cas f, .guard g none => m.Loaded E f.storage f.start g.ref.addr
  | _, _ => True

/-- What the active function knows of the logs. -/
def Active.Window (E : Content → Content → Prop) (m : Mem) : Active → Prop
  | .load f pc => f.start ≤ m.now f.storage ∧ pc.Window E m f
  | .payAll f pc => pc.Window E m f
  | .swap f => f.start ≤ m.now f.storage
  | .cas f _ => f.start ≤ m.now f.storage
  | .ret c r => c.Says E m r
  | _ => True

/-- What a suspended caller knows of the logs. -/
def Cont.Window (E : Content → Content → Prop) (m : Mem) : Cont → Prop
  | .loadNode f => f.start ≤ m.now f.storage
  | .fallback f r | .unused f r =>
    f.start ≤ m.now f.storage ∧ m.Loaded E f.storage f.start r.addr
  | .loadLeft x start g => m.Loaded E x start g.ref.addr
  | .fullInner x start r => m.Loaded E x start r.addr
  | .casLoaded f | .casRetry f => f.start ≤ m.now f.storage
  | .casRefused f old => m.Loaded E f.storage f.start old.ref.addr
  | .casPaid f _ k | .casDec f _ k =>
    m.Wrote f.storage f.start f.call k (·.addr = f.current) (·.addr = f.new.addr)
  | .swapPaid f old k =>
    m.Wrote f.storage f.start f.call k (·.addr = old.addr) (·.addr = f.new.addr)
  | .stored f k =>
    m.Wrote f.storage f.start f.call k (fun _ => True) (·.addr = f.new.addr)
  | _ => True

/-! ## One clause -/

theorem LoadFrame.begin_window {f : LoadFrame} (h : f.start ≤ m.now f.storage) :
    (f.begin cfg).Window E m := by
  unfold LoadFrame.begin
  split <;> exact ⟨h, trivial⟩

theorem PayFrame.nextSlot_window (f : PayFrame) (who : NodeId) (i : ℕ) :
    (f.nextSlot who i).Window E m := by
  unfold PayFrame.nextSlot
  split <;> trivial

theorem Dispatched.window {f : PayFrame} {me who : NodeId} {c : ℕ} {a : Active}
    (h : Dispatched f me who c a) : a.Window E m := by
  cases h <;> trivial

/-- What the storage holds is in the window of a call that is running. -/
theorem Mem.Latest.loaded {x : StorageId} {start : ℕ} (h : m.Latest E x) (hs : start ≤ m.now x) :
    m.Loaded E x start (m.ptr x) := by
  obtain ⟨e, he, hE⟩ := h
  exact ⟨_, e, hs, he, hE⟩

/-- What a call that writes knows afterwards. -/
theorem Mem.Latest.wrote {x : StorageId} {start call : ℕ} {p : Addr} (h : m.Latest E x)
    (hE : ∀ c c', E c c' → c'.addr = c.addr) (hs : start ≤ m.now x) :
    (m.setPtr x p call).Wrote x start call (m.log x).length (·.addr = m.ptr x) (·.addr = p) := by
  obtain ⟨e, he, hc⟩ := h
  obtain ⟨hi, -⟩ := List.getElem?_eq_some_iff.mp he
  refine ⟨by unfold Mem.now at hs; omega, ⟨e, ?_, hE _ _ hc⟩, m.content p, ?_, rfl⟩
  · exact getElem?_of_prefix (m.setPtr_prefix x p call x) he
  · simp

/-- What a function has found out stays in the window of its call. -/
theorem Clause.window {a : Active} {o : Out} (h : Clause cfg tls m a o) (hok : a.Ok cfg tls)
    (hk : a.NodeOk cfg m) (hh : a.Handing cfg m) (ha : a.Window E m)
    (hE : ∀ c c', E c c' → c'.addr = c.addr)
    (hl : ∀ x, a.needs? = some x → m.Latest E x)
    (ho : ∀ n x, m.offer n = some x → m.Loaded E x.storage x.since x.value.addr)
    (hp : ∀ f p d, a = .load f (.unclaim p d) → ¬ m.Owes d ⟨cfg.kind f.storage, p⟩ →
      m.Within f.storage f.start (E ⟨p, f.seen⟩) → m.Loaded E f.storage f.start p) :
    o.active.Window E o.mem ∧ ∀ k ∈ o.calls, k.Window E o.mem := by
  cases h with
  | get h | cooldown h | dec h | dropGuard h | intoInner h =>
    cases h <;> first
      | exact ⟨trivial, List.forall_mem_nil _⟩
      | exact ⟨trivial, List.forall_mem_singleton.mpr trivial⟩
  | swap => exact ⟨trivial, List.forall_mem_singleton.mpr ((hl _ rfl).wrote hE ha)⟩
  | @cas f old o h =>
    cases h with
    | swapped hc =>
      have hw : (m.setPtr f.storage f.new.addr f.call).Wrote f.storage f.start f.call
          (m.log f.storage).length (·.addr = m.ptr f.storage) (·.addr = f.new.addr) :=
        (hl _ rfl).wrote hE ha
      rw [hc] at hw
      exact ⟨trivial, List.forall_mem_singleton.mpr hw⟩
    | late => exact ⟨trivial, List.forall_mem_singleton.mpr ha⟩
  | @load f pc o h =>
    obtain ⟨hs, hw⟩ := ha
    have hlatest : m.Latest E f.storage := hl _ rfl
    cases h with
    | enter => exact ⟨LoadFrame.begin_window hs, List.forall_mem_nil _⟩
    | enterGet => exact ⟨trivial, List.forall_mem_singleton.mpr hs⟩
    | attempt => exact ⟨⟨hs, hlatest.loaded hs⟩, List.forall_mem_nil _⟩
    | newFast | probeFree | probeNext => exact ⟨⟨hs, hw⟩, List.forall_mem_nil _⟩
    | claim =>
      simp only [Active.Window, LoadPc.Window, LoadFrame.setLocal_start, LoadFrame.setLocal_storage,
        LoadFrame.setLocal_seen]
      exact ⟨⟨hs, hw⟩, List.forall_mem_nil _⟩
    | confirm hc => exact ⟨⟨hs, hc ▸ hlatest.loaded hs⟩, List.forall_mem_nil _⟩
    | confirmChanged => exact ⟨⟨hs, hw⟩, List.forall_mem_nil _⟩
    | unclaimLate hn =>
      exact ⟨⟨hs, hp f _ _ rfl hn hw⟩, List.forall_mem_nil _⟩
    | publishAddr =>
      simp only [Active.Window, LoadPc.Window, LoadFrame.setLocal_start, LoadFrame.setLocal_storage]
      exact ⟨⟨hs, trivial⟩, List.forall_mem_nil _⟩
    | @publishGen n gen =>
      have hn : m.activeAddr n = f.storage := hk
      refine ⟨⟨hs, ?_⟩, List.forall_mem_nil _⟩
      simpa [LoadPc.Window, hn] using hs
    | candidate => exact ⟨⟨hs, hw, fun _ => hlatest.loaded hs⟩, List.forall_mem_nil _⟩
    | @confirmHelping n n' gen p h =>
      obtain rfl : n = n' := by
        have := hok.2.1.symm.trans h
        simpa using this
      exact ⟨⟨hs, hw⟩, List.forall_mem_nil _⟩
    | offerDebt => exact ⟨⟨hs, hw⟩, List.forall_mem_nil _⟩
    | closeControl hc => exact ⟨trivial, List.forall_mem_singleton.mpr ⟨hs, hw.2 hc⟩⟩
    | closeReplaced => exact ⟨⟨hs, hw.1⟩, List.forall_mem_nil _⟩
    | @takeEnvelope n gen p e =>
      obtain ⟨rfl, x, hx, hf⟩ := hh
      have hq : m.envelope (m.space n) = x.value.addr := by
        rw [← hf.content, Mem.envelope, Mem.space, handoverNode_handoverAddr]
      have hx : m.Loaded E f.storage f.start (m.envelope (m.space n)) := by
        rw [hq, ← hf.storage]
        exact (ho n x hx).imp List.prefix_rfl (hw.trans hf.since) fun _ => id
      exact ⟨⟨hs, hx⟩, List.forall_mem_nil _⟩
    | keepEnvelope => exact ⟨⟨hs, hw⟩, List.forall_mem_nil _⟩
    | payUnused => exact ⟨⟨hs, hw⟩, List.forall_mem_nil _⟩
    | payUnusedLate => exact ⟨trivial, List.forall_mem_singleton.mpr ⟨hs, hw⟩⟩
    | leave => exact ⟨hw, List.forall_mem_nil _⟩
    | leaveTmp => exact ⟨trivial, List.forall_mem_singleton.mpr hw⟩
    | discard => exact ⟨trivial, List.forall_mem_singleton.mpr trivial⟩
    | probeFull | newHelping | unclaim => exact ⟨⟨hs, trivial⟩, List.forall_mem_nil _⟩
    | _ => exact ⟨trivial, List.forall_mem_nil _⟩
  | payAll h =>
    cases h with
    | helpControl h | helpChanged _ h => exact ⟨h.window, List.forall_mem_nil _⟩
    | slotOther | slotInc => exact ⟨PayFrame.nextSlot_window _ _ _, List.forall_mem_nil _⟩
    | helpAddr => exact ⟨⟨le_rfl, trivial⟩, by simp [Cont.Window]⟩
    | helpTheirs | helpMine | helpWrite => exact ⟨ha, List.forall_mem_nil _⟩
    | _ =>
      first
      | exact ⟨trivial, List.forall_mem_nil _⟩
      | exact ⟨trivial, List.forall_mem_singleton.mpr trivial⟩

theorem Resumed.window {k : Cont} {r : Ret} {o : Out} (h : Resumed cfg tls m k r o)
    (hok : k.Ok cfg tls) (hm : k.expects.Meets cfg r) (hk : k.Window E m)
    (hs : k.expects.Says E m r) : o.active.Window E o.mem ∧ ∀ k ∈ o.calls, k.Window E o.mem := by
  cases h with
  | discard => exact hok.elim
  | loadNode | loadTmp => exact ⟨LoadFrame.begin_window hk, List.forall_mem_nil _⟩
  | fallback =>
    obtain ⟨rfl, -⟩ := Ret.value.inj hm
    exact ⟨hk, List.forall_mem_nil _⟩
  | unused => exact ⟨hk, List.forall_mem_nil _⟩
  | loadLeft => exact ⟨hk, List.forall_mem_nil _⟩
  | full => exact ⟨trivial, List.forall_mem_singleton.mpr hs⟩
  | fullInner =>
    obtain ⟨rfl, -⟩ := Ret.value.inj hm
    exact ⟨hk, List.forall_mem_nil _⟩
  | helpReplacement => exact ⟨hs, List.forall_mem_nil _⟩
  | helpRetry h => exact ⟨h.window, List.forall_mem_nil _⟩
  | swapPaid => exact ⟨hk, List.forall_mem_nil _⟩
  | storePaid =>
    exact ⟨trivial, List.forall_mem_singleton.mpr
      (hk.imp List.prefix_rfl (fun _ _ => trivial) fun _ => id)⟩
  | stored => exact ⟨hk, List.forall_mem_nil _⟩
  | casLoaded => exact ⟨hk, List.forall_mem_nil _⟩
  | casRefuse => exact ⟨trivial, List.forall_mem_singleton.mpr hs⟩
  | casRetry => exact ⟨⟨hk, trivial⟩, List.forall_mem_singleton.mpr hk⟩
  | casRefused => exact ⟨hk, List.forall_mem_nil _⟩
  | casPaid => exact ⟨trivial, List.forall_mem_singleton.mpr hk⟩
  | casDec => exact ⟨hk, List.forall_mem_nil _⟩
  | rcuClosure => exact ⟨⟨le_rfl, trivial⟩, by simp [Cont.Window, RcuFrame.casFrame]⟩
  | _ =>
    first
    | exact ⟨trivial, List.forall_mem_nil _⟩
    | exact ⟨trivial, List.forall_mem_singleton.mpr trivial⟩

/-! ## What must not be reused -/

/-- The function relies on what the pointer means. -/
def Active.Relies (m : Mem) (p : Addr) : Active → Prop
  | .load _ (.confirmHelping n gen q) | .load _ (.offerDebt n gen q)
  | .load _ (.closeControl n gen q) => m.control n = genWord gen ∧ q = p
  | .load _ (.keepEnvelope _ _ _ q) | .load _ (.payUnused _ _ q) => q = p
  | .load _ (.leave g) => g.ref.addr = p
  | .payAll _ (.helpTheirs _ _ _ q) | .payAll _ (.helpMine _ _ _ q _)
  | .payAll _ (.helpWrite _ _ _ q _ _) | .payAll _ (.helpCas _ _ _ q _ _) => q.addr = p
  | .ret _ (.guard g _) => g.ref.addr = p
  | .ret _ (.value r _) => r.addr = p
  | _ => False

/-- The suspended caller relies on what the pointer means. -/
def Cont.Relies (p : Addr) : Cont → Prop
  | .fallback _ r | .unused _ r | .fullInner _ _ r => r.addr = p
  | .loadLeft _ _ g => g.ref.addr = p
  | .casRefused _ old => old.ref.addr = p
  | _ => False

/-- What the relation `E` says of the pointer remains true. -/
def Stays (E : Content → Content → Prop) (m m' : Mem) (p : Addr) : Prop :=
  ∀ c, E (m.content p) c → E (m'.content p) c

theorem Mem.Loaded.stays {x : StorageId} {start : ℕ} {p : Addr} (h : m.Loaded E x start p)
    (hl : m.log x <+: m'.log x) (hs : Stays E m m' p) : m'.Loaded E x start p :=
  h.imp hl le_rfl hs

theorem Contract.Says.other {c : Contract} {r : Ret} (h : c.Says E m r)
    (hl : ∀ x, m.log x <+: m'.log x) (hs : ∀ p, (Active.ret c r).Relies m p → Stays E m m' p) :
    c.Says E m' r := by
  have hw : ∀ {x start call k P Q}, m.Wrote x start call k P Q → m'.Wrote x start call k P Q :=
    fun h => h.imp (hl _) (fun _ => id) fun _ => id
  cases c with
  | guard x start => cases r <;> first | exact Mem.Loaded.stays h (hl x) (hs _ rfl) | trivial
  | value x start => cases r <;> first | exact Mem.Loaded.stays h (hl x) (hs _ rfl) | trivial
  | swap f =>
    rcases r with (_ | k) | n | ⟨g, w⟩ | ⟨v, _ | k⟩ | _ <;> first | trivial | exact hw h
  | cas f =>
    rcases r with w | n | ⟨g, _ | k⟩ | ⟨v, w⟩ | _ <;>
      first | trivial | exact hw h | exact Mem.Loaded.stays h (hl _) (hs _ rfl)
  | _ => trivial

/-- What a thread has found out stays true when another thread takes a step. -/
theorem Active.Window.other {a : Active} (h : a.Window E m) (hok : a.Ok cfg tls)
    (hl : ∀ x, m.log x <+: m'.log x) (hs : ∀ p, a.Relies m p → Stays E m m' p)
    (ho : ∀ n, a.Receives n → m'.opened n = m.opened n)
    (hc : ∀ n w, a.Publishes n → tag w = genTag → m'.control n = w → m.control n = w) :
    a.Window E m' := by
  have hn : ∀ x, m.now x ≤ m'.now x := fun x => Nat.sub_le_sub_right (hl x).length_le 1
  cases a with
  | load f pc =>
    obtain ⟨h₁, h₂⟩ := h
    refine ⟨h₁.trans (hn _), ?_⟩
    cases pc with
    | newFast | probe | claim | confirm | unclaim => exact h₂.imp (hl _) le_rfl fun _ => id
    | candidate n => exact le_of_le_of_eq h₂ (ho n rfl).symm
    | takeEnvelope n => exact le_of_le_of_eq h₂ (ho n rfl).symm
    | confirmHelping n gen p | offerDebt n gen p | closeControl n gen p =>
      refine ⟨le_of_le_of_eq h₂.1 (ho n rfl).symm, fun hw => ?_⟩
      have hw' := hc n _ rfl hok.2.2.tag_genWord hw
      exact (h₂.2 hw').stays (hl _) (hs p ⟨hw', rfl⟩)
    | keepEnvelope | payUnused | leave => exact Mem.Loaded.stays h₂ (hl _) (hs _ rfl)
    | _ => trivial
  | payAll f pc =>
    cases pc with
    | helpTheirs | helpMine | helpWrite | helpCas => exact Mem.Loaded.stays h (hl _) (hs _ rfl)
    | _ => trivial
  | swap | cas => exact le_trans h (hn _)
  | ret c r => exact Contract.Says.other h hl hs
  | _ => trivial

theorem Cont.Window.other {k : Cont} (h : k.Window E m) (hl : ∀ x, m.log x <+: m'.log x)
    (hs : ∀ p, k.Relies p → Stays E m m' p) : k.Window E m' := by
  have hn : ∀ x, m.now x ≤ m'.now x := fun x => Nat.sub_le_sub_right (hl x).length_le 1
  cases k with
  | loadNode | casLoaded | casRetry => exact le_trans h (hn _)
  | fallback | unused => exact ⟨h.1.trans (hn _), h.2.stays (hl _) (hs _ rfl)⟩
  | loadLeft | fullInner | casRefused => exact Mem.Loaded.stays h (hl _) (hs _ rfl)
  | casPaid | casDec | swapPaid | stored => exact Mem.Wrote.imp h (hl _) (fun _ => id) fun _ => id
  | _ => trivial

/-! ## One step -/

/-- A replacement that is handed over has been loaded before. -/
theorem Clause.offer_loaded {a : Active} {o : Out} {n : NodeId} {x : Offer}
    (h : Clause cfg tls m a o) (ha : a.Window E m) (hx : o.mem.offer n = some x) :
    m.offer n = some x ∨ (m.Loaded E x.storage x.since x.value.addr) := by
  cases h with
  | get h | cooldown h | dec h | intoInner h | dropGuard h | cas h =>
    left
    cases h <;> exact hx
  | swap => exact .inl hx
  | load h =>
    left
    cases h with
    | @takeEnvelope n' =>
      by_cases hn : n = n'
      · simp [hn] at hx
      · simpa [hn] using hx
    | _ => exact hx
  | payAll h =>
    cases h with
    | @helpCas me who =>
      by_cases hn : n = who
      · subst hn
        simp only [Mem.handOver_offer, Function.update_self, Option.some.injEq] at hx
        subst hx
        exact .inr ha
      · exact .inl (by simpa [hn] using hx)
    | _ => exact .inl hx

theorem Mem.Latest.setPtr {x y : StorageId} {p : Addr} {call : ℕ} (hr : ∀ c, E c c)
    (h : x ≠ y → m.Latest E x) : (m.setPtr y p call).Latest E x := by
  by_cases hx : x = y
  · subst hx
    exact ⟨⟨m.content p, call⟩, by simp [Mem.now], by simpa [Mem.content] using hr _⟩
  · obtain ⟨e, he, hE⟩ := h hx
    exact ⟨e, by simpa [Mem.now, hx] using he, by simpa [Mem.content, hx] using hE⟩

/-- The code of the library does not allocate objects. -/
theorem Clause.object {a : Active} {o : Out} (h : Clause cfg tls m a o) :
    o.mem.object = m.object := by
  cases h with
  | get h | cooldown h | dec h | intoInner h | dropGuard h | load h | payAll h | cas h =>
    cases h <;> rfl
  | swap => rfl

theorem Stays.of_object {p : Addr} (h : m'.object = m.object) : Stays E m m' p := fun c hc => by
  rwa [Mem.content, h]

theorem Clause.latest {a : Active} {o : Out} {x : StorageId} (h : Clause cfg tls m a o)
    (hr : ∀ c, E c c) (hl : m.Latest E x) : o.mem.Latest E x := by
  cases h with
  | get h | cooldown h | dec h | intoInner h | dropGuard h | load h | payAll h =>
    cases h <;> exact hl
  | swap => exact Mem.Latest.setPtr hr fun _ => hl
  | cas h =>
    cases h with
    | swapped => exact Mem.Latest.setPtr hr fun _ => hl
    | late => exact hl

section Run

variable {T : Type*} {s s' : State T} {t : T} {th' : Thread} {o' : Multiset Ref}
  {g' : Multiset Guard}

theorem UserClause.window {u : UserKind} (h : UserClause cfg s t u m' th' o' g')
    (ha : (s.thread t).active = .user u) (hc : ∀ k ∈ (s.thread t).conts, k.Window E m') :
    th'.active.Window E m' ∧ ∀ k ∈ th'.conts, k.Window E m' := by
  cases h with
  | alloc | clone | fromInner | new | exitEmpty => exact ⟨by rw [ha]; trivial, hc⟩
  | exit => exact ⟨trivial, List.forall_mem_singleton.mpr trivial⟩
  | destroyed | result | panic => exact ⟨trivial, hc⟩
  | load => exact ⟨⟨le_rfl, trivial⟩, Thread.forall_calling (List.forall_mem_nil _) trivial hc⟩
  | swap => exact ⟨le_refl (s.mem.now _), Thread.forall_calling (List.forall_mem_nil _) trivial hc⟩
  | compareAndSwap =>
    exact ⟨⟨le_rfl, trivial⟩, Thread.forall_calling
      (List.forall_mem_singleton.mpr (le_refl (s.mem.now _))) trivial hc⟩
  | loadFull | rcu =>
    exact ⟨⟨le_rfl, trivial⟩,
      Thread.forall_calling (List.forall_mem_singleton.mpr trivial) trivial hc⟩
  | _ =>
    refine ⟨trivial, Thread.forall_calling ?_ trivial hc⟩
    first | exact List.forall_mem_nil _ | exact List.forall_mem_singleton.mpr trivial

theorem Move.latest {x : StorageId} (h : Move cfg s t m' th' o' g') (hr : ∀ c, E c c)
    (hl : x ∈ s.mem.live → s.mem.Latest E x)
    (hs : x ∈ s.mem.live → Stays E s.mem m' (s.mem.ptr x)) (hx : x ∈ m'.live) : m'.Latest E x := by
  cases h with
  | code h => exact h.latest hr (hl (h.live ▸ hx))
  | resume _ _ h =>
    rw [h.mem_eq] at hx ⊢
    exact hl hx
  | receive => exact hl hx
  | user _ h =>
    cases h with
    | @new y p =>
      refine Mem.Latest.setPtr (m := s.mem.newCall) hr fun hne => hl ?_
      simpa [hne] using hx
    | consume | dropStorage =>
      have hx' := Finset.mem_of_mem_erase hx
      exact hl hx'
    | alloc =>
      obtain ⟨e, he, hE⟩ := hl hx
      exact ⟨e, he, hs hx _ hE⟩
    | _ => exact hl hx

/-! ## Windows in a run -/

/-- Somebody relies on what the pointer means. -/
def State.Relies (s : State T) (p : Addr) : Prop :=
  (∃ x ∈ s.mem.live, s.mem.ptr x = p) ∨ (∃ n o, s.mem.offer n = some o ∧ o.value.addr = p) ∨
    ∃ t, (s.thread t).active.Relies s.mem p ∨ ∃ k ∈ (s.thread t).conts, k.Relies p

/-- What has been loaded stands in the logs, in the windows of the calls. -/
structure State.Windows (E : Content → Content → Prop) (s : State T) : Prop where
  latest : ∀ x ∈ s.mem.live, s.mem.Latest E x
  offers : ∀ n o, s.mem.offer n = some o → s.mem.Loaded E o.storage o.since o.value.addr
  active : ∀ t, (s.thread t).active.Window E s.mem
  conts : ∀ t, ∀ k ∈ (s.thread t).conts, k.Window E s.mem

theorem State.init_windows : (State.init : State T).Windows E where
  latest x hx := by simp [State.init, Mem.empty] at hx
  offers n o ho := by simp [State.init, Mem.empty] at ho
  active t := trivial
  conts t := by simp [State.init, Thread.idle]

variable [Fintype T] [DecidableEq T]

/-- **What has been loaded stays in the windows**, in a step in which no pointer that somebody
relies on changes its meaning, and at which a debt that somebody else has paid is on what the
storage has held. -/
theorem State.Windows.step_of {c : Choice} (hw : s.Windows E) (h : s.Sound cfg)
    (hh : s.Handing cfg) (hb : s.Borrowing) (hr : ∀ c, E c c)
    (hE : ∀ c c', E c c' → c'.addr = c.addr)
    (hp : ∀ f p d, (s.thread t).active = .load f (.unclaim p d) →
      ¬ s.mem.Owes d ⟨cfg.kind f.storage, p⟩ →
      s.mem.Within f.storage f.start (E ⟨p, f.seen⟩) → s.mem.Loaded E f.storage f.start p)
    (hst : ∀ p, s.Relies p → Stays E s.mem s'.mem p)
    (hs : s.step cfg t c = some s') : s'.Windows E := by
  obtain ⟨m', th', o', g', hm, rfl⟩ := State.step_move hs
  have ht := h.typed t
  have hst' : ∀ p, s.Relies p → Stays E s.mem m' p := hst
  have hconts : ∀ t', ∀ k ∈ (s.thread t').conts, k.Window E m' := fun t' k hk =>
    (hw.conts t' k hk).other hm.log_prefix fun p hp =>
      hst' p (.inr (.inr ⟨t', .inr ⟨k, hk, hp⟩⟩))
  have hact : th'.active.Window E m' ∧ ∀ k ∈ th'.conts, k.Window E m' := by
    refine hm.frames (hconts t) (fun o ho hc => ho ▸ ?_) (fun c r k o ho ha hk hres => ho ▸ ?_)
      (fun _ => trivial) fun u ha hu => hu.window ha (hconts t)
    · exact hc.window ht.active (h.nodeOk t) (hh.active t) (hw.active t) hE
        (fun x hx => hw.latest x (hb.live t x (.inl hx))) hw.offers hp
    · have hmem := List.mem_of_mem_head? hk
      obtain ⟨ks, hks⟩ := List.head?_eq_some_iff.mp hk
      have hl : c = k.expects := by
        have := ht.linked
        rw [ha, hks] at this
        exact this.1
      have hmeets := ht.active
      have hsays := hw.active t
      rw [ha] at hmeets hsays
      exact hres.window (ht.conts k hmem) (hl ▸ hmeets) (hw.conts t k hmem) (hl ▸ hsays)
  have hother : ∀ t' ≠ t, (s.thread t').active.Window E m' := by
    intro t' hne
    have hn : ∀ n, (s.thread t').active.Receives n → n ∈ (s.thread t').nodes := fun n hn =>
      Sound.mem_nodes ((h.typed t').active.receives_mem hn)
    have hown : ∀ n, (s.thread t').active.Receives n → n ∉ (s.thread t).nodes := fun n hr hn' =>
      hne (h.owner_unique hn' (hn n hr))
    refine (hw.active t').other (h.typed t').active hm.log_prefix
      (fun p hp => hst' p (.inr (.inr ⟨t', .inl hp⟩))) (fun n hr => ?_) fun n w hp hg hc => ?_
    · rcases hm.hands ht (hh.active t) hh.posted.injective (hown n hr)
          (h.lt_nodeCount (hn n hr)) with
        hk | ⟨x, hk⟩
      · exact hk.opened
      · exact hk.opened
    · rcases (hm.rely ht).control n (hown n hp.receives) with he | ⟨-, he⟩
      · exact he ▸ hc
      · rw [hc, hg] at he
        exact absurd he (by decide)
  refine
    { latest := fun x hx => hm.latest hr (hw.latest x)
        (fun hl => hst' _ (.inl ⟨x, hl, rfl⟩)) hx
      offers := fun n x hx => ?_
      active := State.moved_forall (P := fun th => th.active.Window E m') hact.1 hother
      conts := State.moved_forall (P := fun th => ∀ k ∈ th.conts, k.Window E m') hact.2
        fun t' _ => hconts t' }
  have hlog := hm.log_prefix
  have hold : ∀ x, s.mem.offer n = some x → m'.Loaded E x.storage x.since x.value.addr :=
    fun x hx => (hw.offers n x hx).stays (hlog _) (hst' _ (.inr (.inl ⟨n, x, hx, rfl⟩)))
  cases hm with
  | code hc =>
    rcases hc.offer_loaded (hw.active t) hx with hx | hx
    · exact hold x hx
    · exact hx.stays (hlog _) (.of_object hc.object)
  | resume _ _ hr => exact hold x (hr.mem_eq ▸ hx)
  | receive => exact hold x hx
  | user _ hu => exact hold x (hu.transactions.2.2.1 ▸ hx)

/-- The same, when such a debt is on what the reader has read. -/
theorem State.Windows.step {c : Choice} (hw : s.Windows E) (h : s.Sound cfg) (hh : s.Handing cfg)
    (hb : s.Borrowing) (hr : ∀ c, E c c) (hE : ∀ c c', E c c' → c'.addr = c.addr)
    (hp : ∀ f p d, (s.thread t).active = .load f (.unclaim p d) →
      ¬ s.mem.Owes d ⟨cfg.kind f.storage, p⟩ → ∀ c, E ⟨p, f.seen⟩ c → E (s.mem.content p) c)
    (hst : ∀ p, s.Relies p → Stays E s.mem s'.mem p)
    (hs : s.step cfg t c = some s') : s'.Windows E :=
  hw.step_of h hh hb hr hE
    (fun f p d ha hn hin => hin.imp List.prefix_rfl le_rfl (hp f p d ha hn)) hst hs

end Run

end ArcSwap
