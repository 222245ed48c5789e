import ArcSwap.Invariants.Books
import ArcSwap.Strategies.LockMoves

/-!
# The books of the locks

Nothing is owed here: whoever refers to an object is counted. The only reference that is not counted
is the pointer that a reader, or a refused `compare_and_swap`, has read under the lock and has not
counted yet. The value it means is still in the storage, or whoever has taken it out is waiting for
the lock.
-/

namespace ArcSwap.Locked

/-! ## Types -/

/-- What a function returns. -/
def Active.promise : Active → Contract
  | .user u => u.contract
  | .load x start _ => .guard x start
  | .wait _ r _ => .paid r
  | .swap f => .swap f
  | .cas f _ => .cas f
  | .dec _ => .unit
  | .ret c _ => c

/-- What a suspended caller returns in the end. -/
def Cont.promise : Cont → Contract
  | .user u _ => u.contract
  | .destroyed | .dropped _ => .unit
  | .full x start => .value x start
  | .swapWaited f _ _ | .stored f _ => .swap f
  | .consumed r => .is r
  | .casRefused f _ => .cas f
  | .rcuLoaded f | .rcuClosure f _ _ | .rcuSwapped f _ _ _ | .rcuDone f _ _ _ _ | .rcuAgain f _
  | .rcuUnwind f => .rcu f

/-- What a suspended caller waits for. -/
def Cont.expects : Cont → Contract
  | .user _ c => c
  | .full x start => .guard x start
  | .swapWaited _ old _ => .paid old
  | .consumed r | .dropped r => .paid r
  | .rcuLoaded f => .guard f.storage f.start
  | .rcuClosure f _ _ => .closure f.storage
  | .rcuSwapped _ _ _ g => .cas g
  | .destroyed | .stored _ _ | .casRefused _ _ | .rcuDone _ _ _ _ _ | .rcuAgain _ _
  | .rcuUnwind _ => .unit

/-- A stack on which a function that returns a `c` may run. -/
def Linked : Contract → List Cont → Prop
  | c, [] => c = .never
  | c, k :: ks => c = k.expects ∧ Linked k.promise ks

/-- A guard is the value itself: it owes nothing. -/
def Free : Ret → Prop
  | .guard g _ => g.debt = none
  | _ => True

/-- What is known of the values that a function works with. -/
def Active.Ok (cfg : Config) : Active → Prop
  | .load x _ (.inc r) | .load x _ (.unlock r) => r.kind = cfg.kind x
  | .wait x r _ => r.kind = cfg.kind x
  | .swap f => f.new.kind = cfg.kind f.storage
  | .cas f (.inc old) =>
    f.new.kind = cfg.kind f.storage ∧ old.kind = cfg.kind f.storage ∧ old.addr ≠ f.current
  | .cas f (.unlock old wrote) =>
    f.new.kind = cfg.kind f.storage ∧ old.kind = cfg.kind f.storage ∧
      (wrote.isSome ↔ old.addr = f.current)
  | .cas f _ => f.new.kind = cfg.kind f.storage
  | .ret c r => c.Meets cfg r ∧ Free r
  | _ => True

/-- What is known of the values that a suspended caller works with. -/
def Cont.Ok (cfg : Config) : Cont → Prop
  | .user _ c => ∀ r, c ≠ .paid r
  | .swapWaited f old _ => old.kind = cfg.kind f.storage
  | .stored f _ => f.store = true
  | .casRefused f old =>
    f.new.kind = cfg.kind f.storage ∧ old.kind = cfg.kind f.storage ∧ old.addr ≠ f.current
  | .rcuClosure f cur _ => cur.kind = cfg.kind f.storage
  | .rcuSwapped f cur _ g =>
    cur.kind = cfg.kind f.storage ∧ g.storage = f.storage ∧ g.call = f.call ∧ g.current = cur.addr
  | .rcuDone f _ _ r wrote => r.kind = cfg.kind f.storage ∧ wrote.isSome
  | .rcuAgain f prev => prev.kind = cfg.kind f.storage
  | _ => True

/-- The stack fits together, and the values are of their types. -/
structure Thread.Typed (cfg : Config) (th : Thread) : Prop where
  linked : Linked th.active.promise th.conts
  active : th.active.Ok cfg
  conts : ∀ k ∈ th.conts, k.Ok cfg

variable {T : Type*} [DecidableEq T] {cfg : Config} {s s' : State T} {t : T}
  {l l' : StorageId → RwLock T} {m m' : Mem} {th' : Thread} {o' : Multiset Ref}
  {g' : Multiset Guard}

/-- A clause leaves the types as they are. -/
theorem Clause.typed {a : Active} {o : Out T} (h : Clause cfg t l m a o) (ha : a.Ok cfg) :
    o.active.Ok cfg ∧ (∀ k ∈ o.calls, k.Ok cfg) ∧
      ∀ ks, Linked a.promise ks → Linked o.active.promise (o.calls ++ ks) := by
  cases h with
  | read | waitWrite => exact ⟨ha, List.forall_mem_nil _, fun _ hl => hl⟩
  | load => exact ⟨rfl, List.forall_mem_nil _, fun _ hl => hl⟩
  | inc => exact ⟨ha, List.forall_mem_nil _, fun _ hl => hl⟩
  | unlock =>
    refine ⟨⟨⟨_, rfl, ha, fun d hd => ?_⟩, rfl⟩, List.forall_mem_nil _, fun _ hl => hl⟩
    cases hd
  | waitUnlock => exact ⟨⟨rfl, trivial⟩, List.forall_mem_nil _, fun _ hl => hl⟩
  | swap => exact ⟨rfl, List.forall_mem_singleton.mpr rfl, fun _ hl => ⟨rfl, hl⟩⟩
  | casWrite => exact ⟨ha, List.forall_mem_nil _, fun _ hl => hl⟩
  | casSwapped h =>
    exact ⟨⟨ha, rfl, iff_of_true rfl rfl⟩, List.forall_mem_nil _, fun _ hl => hl⟩
  | casOther h => exact ⟨⟨ha, rfl, h⟩, List.forall_mem_nil _, fun _ hl => hl⟩
  | casInc =>
    exact ⟨trivial, List.forall_mem_singleton.mpr ha, fun _ hl => ⟨rfl, hl⟩⟩
  | casUnlock =>
    refine ⟨⟨⟨_, _, rfl, ha.2.1, fun d hd => ?_, ha.2.2⟩, rfl⟩, List.forall_mem_nil _,
      fun _ hl => hl⟩
    cases hd
  | destroy => exact ⟨trivial, List.forall_mem_singleton.mpr trivial, fun _ hl => ⟨rfl, hl⟩⟩
  | dec => exact ⟨⟨rfl, trivial⟩, List.forall_mem_nil _, fun _ hl => hl⟩

theorem Resumed.typed {k : Cont} {r : Ret} {a : Active} {calls : List Cont}
    (h : Resumed m k r a calls) (hk : k.Ok cfg) (hr : k.expects.Meets cfg r) :
    a.Ok cfg ∧ (∀ k ∈ calls, k.Ok cfg) ∧
      ∀ ks, Linked k.promise ks → Linked a.promise (calls ++ ks) := by
  cases h with
  | destroyed => exact ⟨⟨rfl, trivial⟩, List.forall_mem_nil _, fun _ hl => hl⟩
  | full =>
    obtain ⟨g, hg, hkind, -⟩ := hr
    obtain ⟨rfl, -⟩ := Ret.guard.inj hg
    exact ⟨⟨⟨_, rfl, hkind⟩, trivial⟩, List.forall_mem_nil _, fun _ hl => hl⟩
  | @swapWaited f old wrote _ h =>
    refine ⟨⟨⟨wrote, ?_⟩, trivial⟩, List.forall_mem_nil _, fun _ hl => hl⟩
    rw [h]
    exact ⟨old, rfl⟩
  | storeWaited h => exact ⟨trivial, List.forall_mem_singleton.mpr h, fun _ hl => ⟨rfl, hl⟩⟩
  | @stored f wrote =>
    refine ⟨⟨⟨wrote, ?_⟩, trivial⟩, List.forall_mem_nil _, fun _ hl => hl⟩
    rw [show f.store = true from hk]
    rfl
  | consumed => exact ⟨⟨rfl, trivial⟩, List.forall_mem_nil _, fun _ hl => hl⟩
  | dropped => exact ⟨trivial, List.forall_mem_nil _, fun _ hl => hl⟩
  | casRefused =>
    exact ⟨⟨hk.1, hk.2.1, by simpa using hk.2.2⟩, List.forall_mem_nil _, fun _ hl => hl⟩
  | rcuLoaded =>
    obtain ⟨g, hg, hkind, -⟩ := hr
    obtain ⟨rfl, -⟩ := Ret.guard.inj hg
    exact ⟨trivial, List.forall_mem_singleton.mpr hkind, fun _ hl => ⟨rfl, hl⟩⟩
  | rcuClosure =>
    obtain ⟨v, hv, hkind⟩ := hr.resolve_right (by simp)
    obtain ⟨rfl, -⟩ := Ret.value.inj hv
    exact ⟨hkind, List.forall_mem_singleton.mpr ⟨hk, rfl, rfl, rfl⟩, fun _ hl => ⟨rfl, hl⟩⟩
  | rcuPanicked => exact ⟨trivial, List.forall_mem_singleton.mpr trivial, fun _ hl => ⟨rfl, hl⟩⟩
  | rcuSwapped h =>
    obtain ⟨g, w, hg, hkind, -, hw⟩ := hr
    obtain ⟨rfl, rfl⟩ := Ret.guard.inj hg
    refine ⟨trivial, List.forall_mem_singleton.mpr ⟨?_, hw.mpr ?_⟩, fun _ hl => ⟨rfl, hl⟩⟩
    · rwa [← hk.2.1]
    · rw [hk.2.2.2, h]
  | rcuRetry h =>
    obtain ⟨g, w, hg, hkind, -, hw⟩ := hr
    obtain ⟨rfl, rfl⟩ := Ret.guard.inj hg
    refine ⟨trivial, List.forall_mem_singleton.mpr ?_, fun _ hl => ⟨rfl, hl⟩⟩
    show _ = _
    rwa [← hk.2.1]
  | @rcuDone f given made r wrote =>
    obtain ⟨hkind, hw⟩ := hk
    obtain ⟨w, rfl⟩ := Option.isSome_iff_exists.mp hw
    exact ⟨⟨.inl ⟨r, w, rfl, hkind⟩, trivial⟩, List.forall_mem_nil _, fun _ hl => hl⟩
  | rcuAgain => exact ⟨trivial, List.forall_mem_singleton.mpr hk, fun _ hl => ⟨rfl, hl⟩⟩
  | rcuUnwind => exact ⟨⟨.inr rfl, trivial⟩, List.forall_mem_nil _, fun _ hl => hl⟩

omit [DecidableEq T] in
theorem Calls.typed {c : Call} (h : Calls cfg s m' c o' g') (u : UserKind) :
    c.active.Ok cfg ∧ (∀ k ∈ c.calls, k.Ok cfg) ∧ (∀ r, c.contract ≠ .paid r) ∧
      ∀ ks, Linked u.contract ks →
        Linked c.active.promise (c.calls ++ .user u c.contract :: ks) := by
  cases h with
  | drop | dropGuard | load | swap | compareAndSwap =>
    refine ⟨?_, List.forall_mem_nil _, fun r hr => (by cases hr), fun _ hl => ⟨rfl, hl⟩⟩
    trivial
  | loadFull | rcu =>
    exact ⟨trivial, List.forall_mem_singleton.mpr trivial, fun r hr => (by cases hr),
      fun _ hl => ⟨rfl, rfl, hl⟩⟩
  | consume | dropStorage =>
    exact ⟨rfl, List.forall_mem_singleton.mpr trivial, fun r hr => (by cases hr),
      fun _ hl => ⟨rfl, rfl, hl⟩⟩

omit [DecidableEq T] in
theorem Works.typed {u : UserKind} {a : Active} (h : Works cfg s t u m' l' a o' g') :
    a.Ok cfg ∧ a.promise = u.contract := by
  cases h with
  | destroyed => exact ⟨⟨rfl, trivial⟩, rfl⟩
  | result _ hk => exact ⟨⟨.inl ⟨_, rfl, hk⟩, trivial⟩, rfl⟩
  | panic => exact ⟨⟨.inr rfl, trivial⟩, rfl⟩
  | _ => exact ⟨trivial, rfl⟩

/-- **Threads stay typed.** -/
theorem Move.typed (h : Move cfg s t m' l' th' o' g') (ht : (s.thread t).Typed cfg) :
    th'.Typed cfg := by
  obtain ⟨hl, ha, hk⟩ := ht
  cases h with
  | code h =>
    obtain ⟨h₁, h₂, h₃⟩ := h.typed ha
    exact ⟨h₃ _ hl, h₁, List.forall_mem_append.mpr ⟨h₂, hk⟩⟩
  | resume hact hc h =>
    rw [hact] at ha
    rw [hact, hc] at hl
    rw [hc] at hk
    obtain ⟨h₀, hk⟩ := List.forall_mem_cons.mp hk
    obtain ⟨rfl, hl⟩ := hl
    obtain ⟨h₁, h₂, h₃⟩ := h.typed h₀ ha.1
    exact ⟨h₃ _ hl, h₁, List.forall_mem_append.mpr ⟨h₂, hk⟩⟩
  | receive hact hc =>
    rw [hact, hc] at hl
    rw [hc] at hk
    exact ⟨hl.2, trivial, (List.forall_mem_cons.mp hk).2⟩
  | call hact h =>
    rw [hact] at hl
    obtain ⟨h₁, h₂, h₃, h₄⟩ := h.typed _
    exact ⟨h₄ _ hl, h₁, List.forall_mem_append.mpr ⟨h₂, List.forall_mem_cons.mpr ⟨h₃, hk⟩⟩⟩
  | work hact h =>
    rw [hact] at hl
    obtain ⟨h₁, h₂⟩ := h.typed
    exact ⟨h₂.symm ▸ hl, h₁, hk⟩

/-! ## Storages that must exist -/

/-- The storage that a function reads or writes. -/
def Active.needs? : Active → Option StorageId
  | .wait _ _ _ => none
  | a => a.storage?

/-- The thread relies on the storage. -/
def Thread.Needs (th : Thread) (x : StorageId) : Prop :=
  th.active.needs? = some x ∨ ∃ k ∈ th.conts, k.storage? = some x

theorem Active.needs?_storage? {a : Active} {x : StorageId} (h : a.needs? = some x) :
    a.storage? = some x := by
  cases a with
  | wait => cases h
  | _ => exact h

theorem Thread.Needs.borrows {th : Thread} {x : StorageId} (h : th.Needs x) : th.Borrows x :=
  h.imp_left Active.needs?_storage?

theorem Clause.needs {a : Active} {o : Out T} {x : StorageId} (h : Clause cfg t l m a o)
    (hx : o.active.needs? = some x ∨ ∃ k ∈ o.calls, k.storage? = some x) :
    a.needs? = some x := by
  cases h <;> simp_all [Active.needs?, Active.storage?, Cont.storage?, execSwap]

theorem Resumed.needs {k : Cont} {r : Ret} {a : Active} {calls : List Cont} {x : StorageId}
    (h : Resumed m k r a calls) (hx : a.needs? = some x ∨ ∃ q ∈ calls, q.storage? = some x) :
    k.storage? = some x := by
  cases h <;> simp_all [Active.needs?, Active.storage?, Cont.storage?, casFrame]

omit [DecidableEq T] in
theorem Calls.needs {c : Call} {x : StorageId} (h : Calls cfg s m' c o' g')
    (hx : c.active.needs? = some x ∨ ∃ k ∈ c.calls, k.storage? = some x) : x ∈ m'.live := by
  cases h with
  | load hl | loadFull hl | swap hl | compareAndSwap hl | rcu hl =>
    obtain rfl : _ = x := by simpa [Active.needs?, Active.storage?, Cont.storage?] using hx
    exact hl
  | _ => simp [Active.needs?, Active.storage?, Cont.storage?] at hx

/-- A thread goes on with the storages that it has relied on, or calls an operation of a storage
that exists. -/
theorem Move.needs {x : StorageId} (h : Move cfg s t m' l' th' o' g') (hx : th'.Needs x) :
    (s.thread t).Needs x ∨ x ∈ m'.live := by
  have happend : ∀ {a : Active} {ks ks' : List Cont}, Thread.Needs ⟨a, ks ++ ks'⟩ x →
      (a.needs? = some x ∨ ∃ k ∈ ks, k.storage? = some x) ∨ ∃ k ∈ ks', k.storage? = some x := by
    intro a ks ks' h
    simpa only [Thread.Needs, List.mem_append, or_and_right, exists_or, ← or_assoc] using h
  cases h with
  | code h => exact .inl ((happend hx).imp_left h.needs)
  | resume _ hc h =>
    refine .inl (.inr ?_)
    rw [hc]
    rcases happend hx with hx | ⟨k, hk, hx⟩
    · exact ⟨_, List.mem_cons_self, h.needs hx⟩
    · exact ⟨k, List.mem_cons_of_mem _ hk, hx⟩
  | receive _ hc =>
    obtain ⟨k, hk, hx⟩ := hx.resolve_left (by simp [Active.needs?, Active.storage?])
    exact .inl (.inr ⟨k, by simp [hc, hk], hx⟩)
  | call _ h =>
    rcases happend hx with hx | ⟨k, hk, hx⟩
    · exact .inr (h.needs hx)
    · rcases List.mem_cons.mp hk with rfl | hk
      · cases hx
      · exact .inl (.inr ⟨k, hk, hx⟩)
  | work _ h =>
    refine .inl (.inr (hx.resolve_left ?_))
    cases h <;> simp [Active.needs?, Active.storage?]

theorem Clause.live_eq {a : Active} {o : Out T} (h : Clause cfg t l m a o) :
    o.mem.live = m.live := by
  cases h <;> rfl

/-- A storage is given up when nobody borrows it. -/
theorem Move.live (h : Move cfg s t m' l' th' o' g') {x : StorageId} (hx : x ∈ s.mem.live)
    {t' : T} (hb : (s.thread t').Borrows x) : x ∈ m'.live := by
  cases h with
  | code h => exact h.live_eq ▸ hx
  | resume | receive => exact hx
  | call _ h =>
    cases h with
    | @consume y _ hu | @dropStorage y _ hu =>
      refine Finset.mem_erase.mpr ⟨?_, hx⟩
      rintro rfl
      exact hu t' hb
    | _ => exact hx
  | work _ h =>
    cases h with
    | new => exact Finset.mem_insert_of_mem hx
    | _ => exact hx

/-! ## Who holds a lock -/

/-- What the active function and the suspended callers of a thread have together. -/
def Thread.gather {A : Type*} (a : Active → Multiset A) (k : Cont → Multiset A) (th : Thread) :
    Multiset A :=
  a th.active + (th.conts.map k).sum

theorem Thread.gather_append {A : Type*} (a : Active → Multiset A) (k : Cont → Multiset A)
    (x : Active) (ks ks' : List Cont) :
    Thread.gather a k ⟨x, ks ++ ks'⟩ = Thread.gather a k ⟨x, ks⟩ + (ks'.map k).sum := by
  rw [gather, gather, List.map_append, List.sum_append, add_assoc]

theorem Thread.mem_gather {A : Type*} {a : Active → Multiset A} {k : Cont → Multiset A}
    {th : Thread} {x : A} :
    x ∈ th.gather a k ↔ x ∈ a th.active ∨ ∃ q ∈ th.conts, x ∈ k q := by
  rw [gather, Multiset.mem_add]
  refine or_congr_right ?_
  induction th.conts with
  | nil => simp
  | cons q ks ih => simp [ih]

/-- The locks that the active function holds as a reader. -/
def Active.reads : Active → Multiset StorageId
  | .load _ _ .read => 0
  | .load x _ _ => {x}
  | _ => 0

/-- The locks that the active function holds as the writer. -/
def Active.writes : Active → Multiset StorageId
  | .wait x _ .unlock => {x}
  | .cas _ .write => 0
  | .cas f _ => {f.storage}
  | _ => 0

/-- The locks that a suspended caller holds as the writer: the new value that was refused is dropped
under the lock. -/
def Cont.writes : Cont → Multiset StorageId
  | .casRefused f _ => {f.storage}
  | _ => 0

/-- The locks that the thread holds as the writer. -/
abbrev Thread.writes (th : Thread) : Multiset StorageId := th.gather Active.writes Cont.writes

/-- Who holds the lock of a storage borrows the storage. -/
theorem Thread.borrows_of_reads {th : Thread} {x : StorageId} (h : x ∈ th.active.reads) :
    th.Borrows x := by
  left
  cases ha : th.active with
  | load y start pc =>
    rw [ha] at h
    cases pc with
    | read => simp [Active.reads] at h
    | _ => exact congrArg some (Multiset.mem_singleton.mp h).symm
  | _ =>
    rw [ha] at h
    simp [Active.reads] at h

theorem Thread.borrows_of_writes {th : Thread} {x : StorageId} (h : x ∈ th.writes) :
    th.Borrows x := by
  rcases Thread.mem_gather.mp h with h | ⟨k, hk, h⟩
  · left
    cases ha : th.active with
    | wait y r pc =>
      rw [ha] at h
      cases pc with
      | write => simp [Active.writes] at h
      | unlock => exact congrArg some (Multiset.mem_singleton.mp h).symm
    | cas f pc =>
      rw [ha] at h
      cases pc with
      | write => simp [Active.writes] at h
      | _ => exact congrArg some (Multiset.mem_singleton.mp h).symm
    | _ =>
      rw [ha] at h
      simp [Active.writes] at h
  · refine .inr ⟨k, hk, ?_⟩
    cases k with
    | casRefused f old => exact congrArg some (Multiset.mem_singleton.mp h).symm
    | _ => simp [Cont.writes] at h

theorem Clause.locks {a : Active} {o : Out T} (h : Clause cfg t l m a o) :
    RwLock.Move t l a.reads (Thread.writes ⟨a, []⟩) o.lock o.active.reads
      (Thread.writes ⟨o.active, o.calls⟩) := by
  cases h with
  | read h => simpa [Thread.gather, Active.reads] using .read h
  | waitWrite h => simpa [Thread.gather, Active.writes] using .write h
  | casWrite h => simpa [Thread.gather, Active.writes] using .write h
  | @unlock x start r => exact .unlockRead (x := x) (zero_add _).symm
  | @waitUnlock x r => exact .unlockWrite (x := x) (by simp [Thread.gather, Active.writes])
  | @casUnlock f => exact .unlockWrite (x := f.storage) (by simp [Thread.gather, Active.writes])
  | _ => exact .keep

omit [DecidableEq T] in
theorem Resumed.locks {k : Cont} {r : Ret} {a : Active} {calls : List Cont}
    (h : Resumed m k r a calls) : a.reads = 0 ∧ Thread.writes ⟨a, calls⟩ = k.writes := by
  cases h <;> exact ⟨rfl, rfl⟩

omit [DecidableEq T] in
theorem Calls.locks {c : Call} (h : Calls cfg s m' c o' g') :
    c.active.reads = 0 ∧ Thread.writes ⟨c.active, c.calls⟩ = 0 := by
  cases h <;> exact ⟨rfl, rfl⟩

omit [DecidableEq T] in
theorem Works.locks {u : UserKind} {a : Active} (h : Works cfg s t u m' l' a o' g') :
    a.reads = 0 ∧ a.writes = 0 ∧
      (l' = s.lock ∨ ∃ x, s.Unborrowed x ∧ l' = Function.update s.lock x .free) := by
  cases h with
  | new h hb => exact ⟨rfl, rfl, .inr ⟨_, hb, rfl⟩⟩
  | _ => exact ⟨rfl, rfl, .inl rfl⟩

/-- **What a step does to the locks.** -/
theorem Move.locks (h : Move cfg s t m' l' th' o' g')
    (hl : RwLock.Agrees s.lock (fun t => (s.thread t).active.reads) fun t => (s.thread t).writes) :
    RwLock.Move t s.lock (s.thread t).active.reads (s.thread t).writes l' th'.active.reads
      th'.writes := by
  have hkeep : th'.active.reads = (s.thread t).active.reads → th'.writes = (s.thread t).writes →
      RwLock.Move t s.lock (s.thread t).active.reads (s.thread t).writes s.lock th'.active.reads
        th'.writes := by
    intro hr hw
    rw [hr, hw]
    exact .keep
  cases h with
  | @code o h =>
    have hm := h.locks.frame 0 ((s.thread t).conts.map Cont.writes).sum
    rw [← Thread.gather_append, ← Thread.gather_append, add_zero, add_zero] at hm
    exact hm
  | @resume c r k ks a calls ha hc h =>
    obtain ⟨hr, hw⟩ := h.locks
    refine hkeep ?_ ?_
    · rw [ha]
      exact hr
    · rw [Thread.writes, Thread.gather_append, ← Thread.writes, hw, Thread.writes, Thread.gather,
        ha, hc, List.map_cons, List.sum_cons]
      exact (zero_add _).symm
  | receive ha hc =>
    refine hkeep ?_ ?_
    · rw [ha]
      rfl
    · rw [Thread.writes, Thread.writes, Thread.gather, Thread.gather, ha, hc, List.map_cons,
        List.sum_cons]
      exact congrArg (0 + ·) (zero_add _).symm
  | call ha h =>
    obtain ⟨hr, hw⟩ := h.locks
    refine hkeep ?_ ?_
    · rw [ha]
      exact hr
    · rw [Thread.calling, Thread.writes, Thread.gather_append, ← Thread.writes, hw, Thread.writes,
        Thread.gather, ha, List.map_cons, List.sum_cons]
      exact congrArg (0 + ·) (zero_add _)
  | @work u m' l' a o' g' ha h =>
    obtain ⟨hr, hw, hl'⟩ := h.locks
    have hr' : a.reads = (s.thread t).active.reads := by
      rw [hr, ha]
      rfl
    have hw' : Thread.writes ⟨a, (s.thread t).conts⟩ = (s.thread t).writes := by
      rw [Thread.writes, Thread.writes, Thread.gather, Thread.gather, hw, ha]
      rfl
    rcases hl' with rfl | ⟨x, hx, rfl⟩
    · exact hkeep hr' hw'
    · rw [hr', hw']
      -- nobody holds the lock of a storage that is not borrowed
      refine .renew fun t' => ⟨?_, ?_⟩
      · rw [hl.readers, Multiset.count_eq_zero]
        exact fun hx' => hx t' (Thread.borrows_of_reads hx')
      · rw [hl.writers, Multiset.count_eq_zero]
        exact fun hx' => hx t' (Thread.borrows_of_writes hx')

/-! ## The claims -/

/-- The claims of the active function. A pointer that has not been counted yet is none. -/
def Active.claims : Active → Claims
  | .load _ _ (.unlock r) => {r.claim}
  | .wait _ r _ => {r.claim}
  | .swap f => {f.new.claim}
  | .cas _ (.unlock old _) => {old.claim}
  | .cas f _ => {f.new.claim}
  | .dec r => {r.claim}
  | .ret c r => r.claims c
  | _ => 0

/-- The claims of a suspended caller. -/
def Cont.claims : Cont → Claims
  | .casRefused _ old => {old.claim}
  | .rcuClosure _ cur _ | .rcuSwapped _ cur _ _ => {cur.claim}
  | .rcuDone _ _ _ r _ => {r.claim}
  | .rcuAgain _ prev => {prev.claim}
  | _ => 0

/-- The claims of a thread. -/
abbrev Thread.claims (th : Thread) : Claims := th.gather Active.claims Cont.claims

/-- All claims. -/
def State.claims [Fintype T] (cfg : Config) (s : State T) : Claims :=
  Family.total Thread.claims s.thread + poolClaims s.owned s.guards + s.mem.claims cfg

/-- A clause makes an entry in the books. -/
theorem Clause.entry {a : Active} {o : Out T} (h : Clause cfg t l m a o) (ha : a.Ok cfg)
    (hx : ∀ x, a.needs? = some x → x ∈ m.live) :
    m.Entry o.mem (Thread.claims ⟨a, []⟩ + m.claims cfg)
      (Thread.claims ⟨o.active, o.calls⟩ + o.mem.claims cfg) := by
  cases h with
  | inc | casInc => exact .inside (.inc (by simp [Thread.gather, Active.claims, Cont.claims])) rfl
  | destroy | dec =>
    exact .inside (.dec (by simp [Thread.gather, Active.claims, Cont.claims, Ret.claims])) rfl
  | @swap f =>
    refine Mem.setPtr_entry (hx _ rfl) ha ?_
    simp only [execSwap, Thread.gather, Active.claims, Cont.claims, List.map_nil, List.sum_nil,
      List.map_cons, List.sum_cons, add_zero]
    exact add_comm _ _
  | @casSwapped f h =>
    refine Mem.setPtr_entry (hx _ rfl) ha ?_
    rw [Mem.stored, h]
    simp only [Thread.gather, Active.claims, List.map_nil, List.sum_nil, add_zero]
    exact add_comm _ _
  | _ => exact .inside (.keep rfl rfl rfl) rfl

omit [DecidableEq T] in
/-- What is returned goes to the caller. -/
theorem Resumed.claims {k : Cont} {r : Ret} {a : Active} {calls : List Cont}
    (h : Resumed m k r a calls) (hr : Free r) :
    Thread.claims ⟨a, calls⟩ = k.claims + r.claims k.expects := by
  cases h <;> simp_all [Thread.gather, Active.claims, Cont.claims, Cont.expects, Ret.claims,
    Guard.claim, Ref.claim, Free, casFrame, add_comm]

omit [DecidableEq T] in
/-- What user code gives away leaves the pools. -/
theorem State.Gives.erase {r : Ref} (h : s.Gives r) :
    Ledger.Same Ref.Counted (poolClaims (s.owned.erase r) s.guards + {r.claim})
      (poolClaims s.owned s.guards) := by
  by_cases hr : r ∈ s.owned
  · rw [← poolClaims_cons_owned, Multiset.cons_erase hr]
    exact .refl _
  · rw [Multiset.erase_of_notMem hr]
    exact .add_singleton (h.resolve_left hr) _

omit [DecidableEq T] in
/-- A call of user code makes an entry in the books. -/
theorem Calls.entry {c : Call} (h : Calls cfg s m' c o' g') (hg : ∀ g ∈ s.guards, g.debt = none) :
    s.mem.Entry m' (poolClaims s.owned s.guards + s.mem.claims cfg)
      (Thread.claims ⟨c.active, c.calls⟩ + poolClaims o' g' + m'.claims cfg) := by
  have hgive : ∀ {r : Ref} {n : Mem} {a : Active}, s.Gives r → n.count = s.mem.count →
      n.slot = s.mem.slot → n.claims cfg = s.mem.claims cfg → Thread.claims ⟨a, []⟩ = {r.claim} →
      s.mem.Entry n (poolClaims s.owned s.guards + s.mem.claims cfg)
        (Thread.claims ⟨a, []⟩ + poolClaims (s.owned.erase r) s.guards + n.claims cfg) := by
    intro r n a h hc hs hm hr
    refine .inside (.same hc hs ?_) hm
    rw [hr, add_comm]
    exact h.erase
  cases h with
  | drop h => exact hgive (.inl h) rfl rfl rfl rfl
  | @dropGuard g h =>
    refine .inside (.keep rfl rfl ?_) rfl
    rw [← poolClaims_erase_guard h, Guard.claim, hg g h]
    exact add_comm _ _
  | load | loadFull | rcu => exact .inside (.keep rfl rfl (zero_add _)) rfl
  | swap _ hp | compareAndSwap _ hp => exact hgive hp rfl rfl rfl rfl
  | @consume x hx | @dropStorage x hx =>
    have hst : (s.mem.endStorage x).storedClaims cfg + _ = _ := Mem.endStorage_storedClaims hx
    have hoff : (s.mem.endStorage x).offeredClaims = s.mem.offeredClaims := rfl
    refine .keep rfl rfl ?_
    rw [Mem.claims, Mem.claims, hoff, ← hst]
    simp only [Thread.gather, Active.claims, Cont.claims, List.map_cons, List.map_nil,
      List.sum_cons, List.sum_nil, add_zero, Mem.stored]
    abel

omit [DecidableEq T] in
/-- A step of user code on its own makes an entry in the books. -/
theorem Works.entry {u : UserKind} {a : Active} (h : Works cfg s t u m' l' a o' g')
    (hg : ∀ g ∈ s.guards, g.debt = none) :
    s.mem.Entry m' (poolClaims s.owned s.guards + s.mem.claims cfg)
      (Thread.claims ⟨a, []⟩ + poolClaims o' g' + m'.claims cfg) := by
  have hzero : ∀ u, Thread.claims ⟨.user u, []⟩ = 0 := fun u => rfl
  cases h with
  | @alloc _ p hp hf =>
    have hc : (s.mem.alloc p).count =
        Function.update s.mem.count ⟨.arc, p⟩ (s.mem.count ⟨.arc, p⟩ + 1) := by
      rw [Mem.alloc, hf.1]
    refine .inside ?_ rfl
    rw [Mem.Entry, hc, hzero, zero_add, poolClaims_cons_owned]
    exact Ledger.Move.inc (.refl _)
  | clone => exact .inside (.inc (by rw [hzero, zero_add, poolClaims_cons_owned])) rfl
  | @fromInner _ r h =>
    refine .inside (.same rfl rfl ?_) rfl
    rw [hzero, zero_add, poolClaims_cons_guard]
    exact State.Gives.erase (.inl h)
  | @intoInner _ g h =>
    refine .inside (.keep rfl rfl ?_) rfl
    rw [hzero, zero_add, poolClaims_cons_owned, ← poolClaims_erase_guard h, Guard.claim, hg g h]
    rfl
  | @new _ x p hx _ hp =>
    have hoff : (s.mem.newStorage x p).offeredClaims = s.mem.offeredClaims := rfl
    refine .same rfl rfl ?_
    rw [hzero, zero_add, Mem.claims, Mem.claims, Mem.newStorage_storedClaims hx, hoff]
    have := hp.erase.add_right (s.mem.storedClaims cfg + s.mem.offeredClaims)
    refine Ledger.Same.trans (.of_eq ?_) this
    abel
  | exit | destroyed | panic => exact .inside (.keep rfl rfl (zero_add _)) rfl
  | result hp =>
    refine .inside (.same rfl rfl ?_) rfl
    rw [add_comm]
    exact hp.erase

omit [DecidableEq T] in
/-- What user code has been given goes to the pools. -/
theorem State.receive_claims {c : Contract} {r : Ret} (hc : ∀ r, c ≠ .paid r) :
    poolClaims s.owned s.guards + r.claims c =
      poolClaims (s.receive r).owned (s.receive r).guards := by
  cases r with
  | guard g w => cases c <;> first | exact absurd rfl (hc _) | exact poolClaims_cons_guard.symm
  | value v w => cases c <;> first | exact absurd rfl (hc _) | exact poolClaims_cons_owned.symm
  | _ => cases c <;> first | exact absurd rfl (hc _) | exact add_zero _

/-- **Every step makes an entry in the books.** -/
theorem Move.entry (h : Move cfg s t m' l' th' o' g') (ht : (s.thread t).Typed cfg)
    (hx : ∀ x, (s.thread t).Needs x → x ∈ s.mem.live) (hg : ∀ g ∈ s.guards, g.debt = none) :
    s.mem.Entry m' ((s.thread t).claims + poolClaims s.owned s.guards + s.mem.claims cfg)
      (th'.claims + poolClaims o' g' + m'.claims cfg) := by
  -- the callers that stay suspended
  have hframe : ∀ {m₁ : Mem} {x x' y z z' : Claims}, s.mem.Entry m₁ x x' → z = x + y →
      z' = x' + y → s.mem.Entry m₁ z z' := by
    rintro m₁ x x' y z z' h rfl rfl
    exact Ledger.Move.frame h y
  have hactive : ∀ {a : Active}, (s.thread t).active = a →
      (s.thread t).claims = a.claims + ((s.thread t).conts.map Cont.claims).sum := by
    rintro a rfl
    rfl
  cases h with
  | @code o h =>
    refine hframe (y := ((s.thread t).conts.map Cont.claims).sum + poolClaims s.owned s.guards)
      (h.entry ht.active fun x hn => hx x (.inl hn)) ?_ ?_
    · rw [hactive rfl, Thread.claims, Thread.gather, List.map_nil, List.sum_nil, add_zero]
      abel
    · rw [Thread.claims, Thread.gather_append]
      abel
  | @resume c r k ks a calls ha hc h =>
    have hl := ht.linked
    have hok := ht.active
    rw [ha, hc] at hl
    rw [ha] at hok
    refine .inside (.keep rfl rfl ?_) rfl
    rw [hactive ha, Thread.claims, Thread.gather_append, ← Thread.claims, h.claims hok.2, hc,
      List.map_cons, List.sum_cons, show c = k.expects from hl.1, Active.claims]
    abel
  | @receive c r u c' ks ha hc =>
    have hl := ht.linked
    have hok := ht.conts
    rw [ha, hc] at hl
    rw [hc] at hok
    have hp := State.receive_claims (s := s) (r := r) (hok _ List.mem_cons_self)
    refine .inside (.keep rfl rfl ?_) rfl
    rw [hactive ha, hc, List.map_cons, List.sum_cons, show c = c' from hl.1, ← hp, Thread.claims,
      Thread.gather]
    simp only [Active.claims, Cont.claims]
    abel
  | @call u m' c o' g' ha h =>
    refine hframe (y := ((s.thread t).conts.map Cont.claims).sum) (h.entry hg) ?_ ?_
    · rw [hactive ha]
      simp only [Active.claims]
      abel
    · rw [Thread.calling, Thread.claims, Thread.gather_append, List.map_cons, List.sum_cons]
      simp only [Cont.claims]
      abel
  | @work u m' l' a o' g' ha h =>
    refine hframe (y := ((s.thread t).conts.map Cont.claims).sum) (h.entry hg) ?_ ?_
    · rw [hactive ha]
      simp only [Active.claims]
      abel
    · rw [Thread.claims, Thread.claims, Thread.gather, Thread.gather, List.map_nil, List.sum_nil,
        add_zero]
      abel

/-! ## Pointers that have not been counted yet -/

/-- The value that the function has read under the lock and has not counted yet. -/
def Active.reading? : Active → Option (StorageId × Ref)
  | .load x _ (.inc r) => some (x, r)
  | .cas f (.inc r) => some (f.storage, r)
  | _ => none

/-- The value is in the storage, or whoever has taken it out is waiting for the lock. -/
def State.Kept (cfg : Config) (s : State T) (x : StorageId) (r : Ref) : Prop :=
  s.mem.stored cfg x = r ∨ ∃ t, (s.thread t).active = .wait x r .write

/-- The thread holds the lock of the storage. -/
def Thread.HasLock (th : Thread) (x : StorageId) : Prop := x ∈ th.active.reads ∨ x ∈ th.writes

theorem Thread.HasLock.borrows {th : Thread} {x : StorageId} (h : th.HasLock x) : th.Borrows x :=
  h.elim Thread.borrows_of_reads Thread.borrows_of_writes

theorem Thread.hasLock {th : Thread} {x : StorageId} {r : Ref}
    (h : th.active.reading? = some (x, r)) : th.HasLock x := by
  cases ha : th.active with
  | load y start pc =>
    rw [ha] at h
    cases pc with
    | inc r' =>
      obtain ⟨rfl, -⟩ := Prod.mk.inj (Option.some.inj h)
      left
      rw [ha]
      exact Multiset.mem_singleton_self _
    | _ => cases h
  | cas f pc =>
    rw [ha] at h
    cases pc with
    | inc r' =>
      obtain ⟨rfl, -⟩ := Prod.mk.inj (Option.some.inj h)
      refine .inr (Thread.mem_gather.mpr (.inl ?_))
      rw [ha]
      exact Multiset.mem_singleton_self _
    | _ => cases h
  | _ =>
    rw [ha] at h
    cases h

theorem Clause.reads_stored {a : Active} {o : Out T} {x : StorageId} {r : Ref}
    (h : Clause cfg t l m a o) (hr : o.active.reading? = some (x, r)) : o.mem.stored cfg x = r := by
  cases h with
  | load | casOther =>
    obtain ⟨rfl, rfl⟩ := Prod.mk.inj (Option.some.inj hr)
    rfl
  | _ => cases hr

/-- What a thread has just read is in the storage. -/
theorem Move.reads_stored {x : StorageId} {r : Ref} (h : Move cfg s t m' l' th' o' g')
    (hr : th'.active.reading? = some (x, r)) : m'.stored cfg x = r := by
  cases h with
  | code h => exact h.reads_stored hr
  | resume _ _ h => cases h <;> cases hr
  | receive => cases hr
  | call _ h => cases h <;> cases hr
  | work _ h => cases h <;> cases hr

/-- The locks know who holds them. -/
abbrev State.Agreed (s : State T) : Prop :=
  RwLock.Agrees s.lock (fun t => (s.thread t).active.reads) fun t => (s.thread t).writes

/-- What is in a storage stays there, or whoever takes it out waits for the lock next. -/
theorem Clause.keeps {a : Active} {o : Out T} {x : StorageId} (h : Clause cfg t l m a o)
    (hx : x ∉ Thread.writes ⟨a, []⟩) : o.mem.stored cfg x = m.stored cfg x ∨
      o.active = .wait x (m.stored cfg x) .write := by
  cases h with
  | @swap f =>
    by_cases hf : x = f.storage
    · subst hf
      exact .inr rfl
    · left
      simp [Mem.stored, execSwap, hf]
  | @casSwapped f =>
    have hf : x ≠ f.storage := by
      rintro rfl
      exact hx (by simp [Thread.gather, Active.writes])
    left
    simp [Mem.stored, hf]
  | _ => exact .inl rfl

theorem Move.keeps {x : StorageId} {t' : T} (h : Move cfg s t m' l' th' o' g')
    (hb : (s.thread t').Borrows x) (hx : x ∉ (s.thread t).writes) :
    m'.stored cfg x = s.mem.stored cfg x ∨ th'.active = .wait x (s.mem.stored cfg x) .write := by
  cases h with
  | code h =>
    refine h.keeps fun hw => hx ?_
    refine Thread.mem_gather.mpr (.inl ?_)
    simpa [Thread.gather] using hw
  | resume | receive => exact .inl rfl
  | call _ h => cases h <;> exact .inl rfl
  | work _ h =>
    cases h with
    | @new _ y _ _ hu =>
      have hne : x ≠ y := by
        rintro rfl
        exact hu t' hb
      left
      simp [Mem.stored, hne]
    | _ => exact .inl rfl

/-- Nobody takes the lock as the writer while another thread holds it. -/
theorem Move.waits {x : StorageId} {r : Ref} {t' : T} (h : Move cfg s t m' l' th' o' g')
    (hl : s.Agreed) (hh : (s.thread t').HasLock x) :
    (s.thread t).active ≠ .wait x r .write := by
  intro ha
  cases h with
  | code h =>
    rw [ha] at h
    cases h with
    | waitWrite h =>
      rw [hl.write_eq_none hh] at h
      cases h
  | resume ha' | receive ha' | call ha' | work ha' =>
    rw [ha] at ha'
    cases ha'

/-- **A value that has been read under the lock is kept** until it has been counted. -/
theorem State.Kept.move {x : StorageId} {r : Ref} {t' : T} (hk : s.Kept cfg x r) (hl : s.Agreed)
    (ht : t' ≠ t) (hh : (s.thread t').HasLock x) (h : Move cfg s t m' l' th' o' g') :
    (s.moved t m' l' th' o' g').Kept cfg x r := by
  rcases hk with rfl | ⟨t₂, h₂⟩
  · have hx : x ∉ (s.thread t).writes := fun hw =>
      hh.elim (hl.not_reader hw) fun hw' => ht (hl.writer_eq hw' hw)
    rcases h.keeps hh.borrows hx with he | he
    · exact .inl he
    · exact .inr ⟨t, by rwa [State.moved_self]⟩
  · have hne : t₂ ≠ t := by
      rintro rfl
      exact h.waits hl hh h₂
    exact .inr ⟨t₂, by rwa [State.moved_of_ne hne]⟩

/-! ## Reachable states -/

variable [Fintype T]

/-- What is known of a reachable state. -/
structure State.Sound (cfg : Config) (s : State T) : Prop where
  typed : ∀ t, (s.thread t).Typed cfg
  guards : ∀ g ∈ s.guards, g.debt = none
  nodes : s.mem.nodeCount = 0
  agreed : s.Agreed
  live : ∀ t x, (s.thread t).Needs x → x ∈ s.mem.live
  kept : ∀ t x r, (s.thread t).active.reading? = some (x, r) → s.Kept cfg x r
  balanced : Ledger.Balanced Ref.Counted s.mem.slots s.mem.count s.mem.slot (s.claims cfg)

omit [DecidableEq T] in
theorem State.init_claims : (State.init : State T).claims cfg = 0 := by
  have h : Family.total Thread.claims (State.init : State T).thread = 0 :=
    Family.total_eq_zero fun _ => rfl
  rw [State.claims, h]
  rfl

theorem State.init_sound : (State.init : State T).Sound cfg where
  typed _ := ⟨rfl, trivial, List.forall_mem_nil _⟩
  guards _ h := absurd h (Multiset.notMem_zero _)
  nodes := rfl
  agreed := ⟨fun _ _ => rfl, fun _ _ => rfl⟩
  live t x h := by simp [State.init, Thread.idle, Thread.Needs, Active.needs?, Active.storage?] at h
  kept t x r h := by cases h
  balanced :=
    { sum := fun r _ => by rw [State.init_claims]; rfl
      inside := fun d r h => by cases h
      referred := fun d r _ h => by cases h }

omit [Fintype T] in
/-- The debt nodes are not touched. -/
theorem Move.slots (h : Move cfg s t m' l' th' o' g') :
    m'.slot = s.mem.slot ∧ m'.nodeCount = s.mem.nodeCount := by
  cases h with
  | @code o h =>
    generalize (s.thread t).active = a at h
    cases h <;> exact ⟨rfl, rfl⟩
  | resume | receive => exact ⟨rfl, rfl⟩
  | call _ h => cases h <;> exact ⟨rfl, rfl⟩
  | work _ h => cases h <;> exact ⟨rfl, rfl⟩

omit [Fintype T] in
/-- Guards owe nothing. -/
theorem Move.guards (h : Move cfg s t m' l' th' o' g') (ht : (s.thread t).Typed cfg)
    (hg : ∀ g ∈ s.guards, g.debt = none) : ∀ g ∈ g', g.debt = none := by
  cases h with
  | code | resume => exact hg
  | @receive c r u c' ks ha hc =>
    have hok := ht.active
    rw [ha] at hok
    cases r with
    | guard g w => exact Multiset.forall_mem_cons.mpr ⟨hok.2, hg⟩
    | _ => exact hg
  | call _ h =>
    cases h with
    | dropGuard => exact fun g hg' => hg g (Multiset.mem_of_mem_erase hg')
    | _ => exact hg
  | work _ h =>
    cases h with
    | fromInner => exact Multiset.forall_mem_cons.mpr ⟨rfl, hg⟩
    | intoInner => exact fun g hg' => hg g (Multiset.mem_of_mem_erase hg')
    | _ => exact hg

/-- **What is known stays so.** -/
theorem State.Sound.move (h : s.Sound cfg) (hm : Move cfg s t m' l' th' o' g') :
    (s.moved t m' l' th' o' g').Sound cfg where
  typed := State.moved_forall (hm.typed (h.typed t)) fun t' _ => h.typed t'
  guards := hm.guards (h.typed t) h.guards
  nodes := hm.slots.2.trans h.nodes
  agreed := by
    refine h.agreed.move (t := t) ?_ fun t' ht => ?_
    · rw [State.moved_self]
      exact hm.locks h.agreed
    · simp [State.moved_of_ne ht]
  live t' x hx := by
    by_cases ht : t' = t
    · subst ht
      rw [State.moved_self] at hx
      exact (hm.needs hx).elim (fun hn => hm.live (h.live t' x hn) hn.borrows) id
    · rw [State.moved_of_ne ht] at hx
      exact hm.live (h.live t' x hx) hx.borrows
  kept t' x r hr := by
    by_cases ht : t' = t
    · subst ht
      rw [State.moved_self] at hr
      exact .inl (hm.reads_stored hr)
    · rw [State.moved_of_ne ht] at hr
      exact (h.kept t' x r hr).move h.agreed ht (Thread.hasLock hr) hm
  balanced := by
    have he := hm.entry (h.typed t) (h.live t) h.guards
    have hold : s.claims cfg = (s.thread t).claims + poolClaims s.owned s.guards +
        s.mem.claims cfg + Family.rest Thread.claims s.thread t := by
      rw [State.claims, Family.total_eq _ _ t]
      abel
    have hnew : (s.moved t m' l' th' o' g').claims cfg = th'.claims + poolClaims o' g' +
        m'.claims cfg + Family.rest Thread.claims s.thread t := by
      rw [State.claims, State.moved, Family.total_update]
      abel
    have hb := h.balanced
    rw [hold] at hb
    have hslots : m'.slots = s.mem.slots := by rw [Mem.slots, Mem.slots, hm.slots.2]
    rw [hnew]
    show Ledger.Balanced Ref.Counted m'.slots m'.count m'.slot _
    rw [hslots]
    exact hb.move (Ledger.Move.frame he _)

/-- **Every reachable state is sound.** -/
theorem State.Reachable.sound (h : s.Reachable cfg) : s.Sound cfg :=
  h.invariant State.init_sound fun s s' t c hi hs => by
    obtain ⟨m', l', th', o', g', hm, rfl⟩ := State.step_move hs
    exact hi.move hm

end ArcSwap.Locked
