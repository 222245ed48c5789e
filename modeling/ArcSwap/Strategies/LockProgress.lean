import ArcSwap.Strategies.LockRegister

/-!
# Who waits for whom

A thread waits only for a lock, and somebody holds this lock. Whoever holds a lock can go on, but
for one case: `compare_and_swap` drops the value that it has refused under the lock, and the
destructor of the value is user code. When it calls an operation of the same storage, the thread
waits for itself.
-/

namespace ArcSwap.Locked

variable {T : Type*} {cfg : Config} {s s' : State T} {t : T} {m : Mem} {x : StorageId}
  {l : StorageId → RwLock T}

/-- The lock that the function waits for. -/
def Active.awaits? : Active → Option StorageId
  | .load x _ .read | .wait x _ .write => some x
  | .cas f .write => some f.storage
  | _ => none

/-- The thread is in a `compare_and_swap` that drops the value it has refused, and the destructor of
the value, or what it has called, is running. -/
def Thread.Destroys (th : Thread) (x : StorageId) : Prop :=
  ∃ f old, f.storage = x ∧ Cont.casRefused f old ∈ th.conts ∧
    ((∃ u, th.active = .user u) ∨ Cont.casRefused f old ∈ th.conts.tail)

/-- How a thread that is in the library goes on. -/
inductive State.GoesOn [Fintype T] [DecidableEq T] (cfg : Config) (s : State T) (t : T) : Prop
  | go {s' : State T} (h : s.step cfg t (.go false) = some s')
  /-- It waits for a lock, and the thread that holds the lock goes on. -/
  | waits {x : StorageId} {t' : T} {s' : State T} (hx : (s.thread t).active.awaits? = some x)
    (hl : (s.thread t').HasLock x) (h : s.step cfg t' (.go false) = some s')
  /-- It waits for a lock that is held while a destructor runs. -/
  | destructor {x : StorageId} {t' : T} (hx : (s.thread t).active.awaits? = some x)
    (hl : (s.thread t').HasLock x) (h : (s.thread t').Destroys x)

/-! ## Code that can go on -/

section Code

variable [DecidableEq T]

/-- Code that does not wait for a lock has a next step. -/
theorem Active.exec_isSome {a : Active} (hu : ∀ u, a ≠ .user u) (hr : ∀ c r, a ≠ .ret c r)
    (ha : a.awaits? = none) : (a.exec cfg t l m).isSome := by
  cases a with
  | user u => exact absurd rfl (hu u)
  | ret c r => exact absurd rfl (hr c r)
  | load y start pc =>
    cases pc with
    | read => cases ha
    | _ => rfl
  | wait y r pc =>
    cases pc with
    | write => cases ha
    | unlock => rfl
  | cas f pc =>
    cases pc with
    | write => cases ha
    | exchange =>
      simp only [Active.exec, CasPc.exec]
      split <;> rfl
    | _ => rfl
  | swap f | dec r => rfl

omit [DecidableEq T] in
/-- A suspended caller goes on with a value of the type that it expects. -/
theorem Cont.resume_isSome {k : Cont} {r : Ret} (hu : ∀ u c, k ≠ .user u c)
    (hm : k.expects.Meets cfg r) : (k.resume m r).isSome := by
  cases k with
  | user u c => exact absurd rfl (hu u c)
  | full | rcuLoaded =>
    obtain ⟨g, rfl, -⟩ := hm
    rfl
  | swapWaited f old wrote =>
    obtain rfl : r = .unit none := hm
    simp only [Cont.resume]
    split <;> rfl
  | rcuClosure f cur given =>
    rcases hm with ⟨v, rfl, -⟩ | rfl <;> rfl
  | rcuSwapped f cur given g =>
    obtain ⟨g', w, rfl, -⟩ := hm
    simp only [Cont.resume]
    split <;> rfl
  | _ =>
    obtain rfl : r = .unit none := hm
    rfl

variable [Fintype T]

theorem State.step_go {b : Bool} (hu : ∀ u, (s.thread t).active ≠ .user u)
    (hr : ∀ c r, (s.thread t).active ≠ .ret c r) :
    s.step cfg t (.go b) = ((s.thread t).active.exec cfg t s.lock s.mem).map fun o =>
      s.set t o.mem o.lock ⟨o.active, o.calls ++ (s.thread t).conts⟩ := by
  cases ha : (s.thread t).active with
  | user u => exact absurd ha (hu u)
  | ret c r => exact absurd ha (hr c r)
  | _ => simp only [State.step, ha]

/-- A value is returned to whoever waits for it. -/
theorem State.Sound.returns {c : Contract} {r : Ret} (h : s.Sound cfg)
    (ha : (s.thread t).active = .ret c r) : ∃ s', s.step cfg t (.go false) = some s' := by
  have hl := (h.typed t).linked
  have hok := (h.typed t).active
  rw [ha] at hl hok
  simp only [State.step, ha, State.return]
  cases hks : (s.thread t).conts with
  | nil =>
    rw [hks] at hl
    obtain rfl : c = .never := hl
    exact hok.1.elim
  | cons k ks =>
    rw [hks] at hl
    obtain rfl : c = k.expects := hl.1
    cases k with
    | user u c' => exact ⟨_, rfl⟩
    | _ =>
      obtain ⟨o, ho⟩ := Option.isSome_iff_exists.mp
        (Cont.resume_isSome (m := s.mem) (fun _ _ he => by cases he) hok.1)
      exact ⟨_, Option.map_eq_some_iff.mpr ⟨o, ho, rfl⟩⟩

/-- **Code that does not wait for a lock goes on.** -/
theorem State.Sound.goes (h : s.Sound cfg) (hu : ∀ u, (s.thread t).active ≠ .user u)
    (ha : (s.thread t).active.awaits? = none) : ∃ s', s.step cfg t (.go false) = some s' := by
  by_cases hr : ∃ c r, (s.thread t).active = .ret c r
  · obtain ⟨c, r, hr⟩ := hr
    exact h.returns hr
  · have hr' : ∀ c r, (s.thread t).active ≠ .ret c r := fun c r he => hr ⟨c, r, he⟩
    have hexec : ((s.thread t).active.exec cfg t s.lock s.mem).isSome :=
      Active.exec_isSome hu hr' ha
    obtain ⟨o, ho⟩ := Option.isSome_iff_exists.mp hexec
    exact ⟨_, by rw [State.step_go hu hr', ho]; rfl⟩

/-! ## Who holds a lock -/

/-- **Who holds a lock goes on**, but for the destructor of a value that has been refused. -/
theorem State.Sound.holder_goes (h : s.Sound cfg) (hl : (s.thread t).HasLock x) :
    (∃ s', s.step cfg t (.go false) = some s') ∨ (s.thread t).Destroys x := by
  have hactive : ∀ {a : Active}, (s.thread t).active = a → (∀ u, a ≠ .user u) →
      a.awaits? = none → ∃ s', s.step cfg t (.go false) = some s' := by
    rintro a rfl hu ha
    exact h.goes hu ha
  rcases hl with hl | hl
  · left
    cases ha : (s.thread t).active with
    | load y start pc =>
      rw [ha] at hl
      cases pc with
      | read => exact absurd hl (Multiset.notMem_zero _)
      | _ => exact hactive ha (fun _ he => by cases he) rfl
    | _ =>
      rw [ha] at hl
      exact absurd hl (Multiset.notMem_zero _)
  · rcases Thread.mem_gather.mp hl with hl | ⟨k, hk, hl⟩
    · left
      cases ha : (s.thread t).active with
      | wait y r pc =>
        rw [ha] at hl
        cases pc with
        | write => exact absurd hl (Multiset.notMem_zero _)
        | unlock => exact hactive ha (fun _ he => by cases he) rfl
      | cas f pc =>
        rw [ha] at hl
        cases pc with
        | write => exact absurd hl (Multiset.notMem_zero _)
        | _ => exact hactive ha (fun _ he => by cases he) rfl
      | _ =>
        rw [ha] at hl
        exact absurd hl (Multiset.notMem_zero _)
    · cases k with
      | casRefused f old =>
        obtain rfl : x = f.storage := Multiset.mem_singleton.mp hl
        obtain ⟨k', ks, hks⟩ := List.exists_cons_of_ne_nil (List.ne_nil_of_mem hk)
        rcases List.mem_cons.mp (hks ▸ hk) with rfl | hk'
        · -- nothing has been called but the drop of the value
          have hlink := (h.typed t).linked
          rw [hks] at hlink
          have hunit : (s.thread t).active.promise = .unit := hlink.1
          cases ha : (s.thread t).active with
          | user u => exact .inr ⟨f, old, rfl, hk, .inl ⟨u, ha⟩⟩
          | dec r => exact .inl (hactive ha (fun _ he => by cases he) rfl)
          | ret c r => exact .inl (h.returns ha)
          | _ =>
            rw [ha] at hunit
            cases hunit
        · exact .inr ⟨f, old, rfl, hk, .inr (by rw [hks]; exact hk')⟩
      | _ => exact absurd hl (Multiset.notMem_zero _)

/-- A lock that cannot be taken is held by a thread. -/
theorem State.Sound.held_by (h : s.Sound cfg) (ha : (s.thread t).active.awaits? = some x)
    (hs : s.step cfg t (.go false) = none) : ∃ t', (s.thread t').HasLock x := by
  have hpos : ∀ {t'}, 0 < (s.lock x).readers t' ∨ 0 < (s.lock x).writers t' →
      (s.thread t').HasLock x := by
    intro t' hp
    rw [h.agreed.readers, h.agreed.writers, Multiset.count_pos, Multiset.count_pos] at hp
    exact hp
  have hnone : (s.thread t).active.exec cfg t s.lock s.mem = none := by
    rw [State.step_go (fun u he => by rw [he] at ha; cases ha)
      (fun c r he => by rw [he] at ha; cases ha), Option.map_eq_none_iff] at hs
    exact hs
  have hwrite : (s.lock x).write t = none → ∃ t', (s.thread t').HasLock x := fun hw => by
    obtain ⟨t', ht⟩ := RwLock.exists_holder hw
    exact ⟨t', hpos ht⟩
  cases hact : (s.thread t).active with
  | load y start pc =>
    rw [hact] at ha hnone
    cases pc with
    | read =>
      obtain rfl : y = x := Option.some.inj ha
      obtain ⟨t', ht⟩ := RwLock.exists_writer (Option.map_eq_none_iff.mp hnone)
      exact ⟨t', hpos (.inr ht)⟩
    | _ => cases ha
  | wait y r pc =>
    rw [hact] at ha hnone
    cases pc with
    | write =>
      obtain rfl : y = x := Option.some.inj ha
      exact hwrite (Option.map_eq_none_iff.mp hnone)
    | unlock => cases ha
  | cas f pc =>
    rw [hact] at ha hnone
    cases pc with
    | write =>
      obtain rfl : f.storage = x := Option.some.inj ha
      exact hwrite (Option.map_eq_none_iff.mp hnone)
    | _ => cases ha
  | _ =>
    rw [hact] at ha
    cases ha

/-- **No deadlock**, as long as the destructors stay away: in every reachable state a thread that is
in the library goes on, or it waits for a lock whose holder goes on, or for one that is held while
the destructor of a refused value runs. -/
theorem State.Reachable.waits_for_holder (h : s.Reachable cfg)
    (hu : ∀ u, (s.thread t).active ≠ .user u) : s.GoesOn cfg t := by
  have hs := h.sound
  cases ha : (s.thread t).active.awaits? with
  | none =>
    obtain ⟨s', hs'⟩ := hs.goes hu ha
    exact .go hs'
  | some x =>
    cases hstep : s.step cfg t (.go false) with
    | some s' => exact .go hstep
    | none =>
      obtain ⟨t', hl⟩ := hs.held_by ha hstep
      rcases hs.holder_goes hl with ⟨s', hs'⟩ | hd
      · exact .waits ha hl hs'
      · exact .destructor ha hl hd

/-- The thread `true` drops the value that `compare_and_swap` has refused, and the destructor loads
from the same storage. The thread `false` waits for the lock meanwhile. -/
def stuckSchedule : List (Bool × Choice) := List.flatten
  [[(true, .op (.alloc 1)), (true, .op (.new 0 1)), (true, .op (.alloc 2)),
    (true, .op (.compareAndSwap 0 5 2))], goOn true 1, [(false, .op (.load 0))], goOn true 3,
    [(true, .op (.load 0))]]

theorem stuckSchedule_isSome : (State.play .sample .init stuckSchedule).isSome := by
  decide +kernel

/-- The reader waits while `compare_and_swap` is about to compare. -/
theorem State.Reachable.waits_for_holder_sample :
    (Guarded.after stuckSchedule_isSome 6).GoesOn .sample false := by
  refine State.Reachable.waits_for_holder (Guarded.after_reachable stuckSchedule_isSome 6) ?_
  intro u hu
  have ha : ((Guarded.after stuckSchedule_isSome 6).thread false).active = .load 0 0 .read := by
    decide +kernel
  rw [ha] at hu
  cases hu

/-! ## Waiting for oneself -/

/-- The thread waits for a lock that it holds itself as the writer. -/
def Thread.Stuck (th : Thread) (x : StorageId) : Prop :=
  th.active.awaits? = some x ∧ x ∈ th.writes

instance (th : Thread) (x : StorageId) : Decidable (th.Stuck x) :=
  inferInstanceAs (Decidable (_ ∧ _))

/-- A thread that waits for itself takes no step. -/
theorem State.Sound.stuck_step (h : s.Sound cfg) (hs : (s.thread t).Stuck x) (c : Choice) :
    s.step cfg t c = none := by
  obtain ⟨ha, hw⟩ := hs
  have hlock : s.lock x = .exclusive t := by
    have hp := h.agreed.writer hw
    cases hl : s.lock x with
    | shared ts => simp [hl, RwLock.writers] at hp
    | exclusive t' =>
      rw [hl] at hp
      have ht : t = t' := by
        by_contra hne
        simp [RwLock.writers, hne] at hp
      rw [ht]
  cases hact : (s.thread t).active with
  | load y start pc =>
    rw [hact] at ha
    cases pc with
    | read =>
      obtain rfl : y = x := Option.some.inj ha
      cases c <;> simp [State.step, hact, Active.exec, LoadPc.exec, hlock, RwLock.read]
    | _ => cases ha
  | wait y r pc =>
    rw [hact] at ha
    cases pc with
    | write =>
      obtain rfl : y = x := Option.some.inj ha
      cases c <;> simp [State.step, hact, Active.exec, WaitPc.exec, hlock, RwLock.write]
    | unlock => cases ha
  | cas f pc =>
    rw [hact] at ha
    cases pc with
    | write =>
      obtain rfl : f.storage = x := Option.some.inj ha
      cases c <;> simp [State.step, hact, Active.exec, CasPc.exec, hlock, RwLock.write]
    | _ => cases ha
  | _ =>
    rw [hact] at ha
    cases ha

/-- The thread stays where it is in every run, and it keeps the lock. -/
structure State.StuckIn (cfg : Config) (s : State T) (t : T) (x : StorageId) : Prop where
  stays : ∀ s', State.Run cfg s s' → s'.thread t = s.thread t
  holds : ∀ s', State.Run cfg s s' → (s'.thread t).HasLock x
  /-- Nobody else comes to hold it. -/
  excludes : ∀ s', State.Run cfg s s' → ∀ t' ≠ t, ¬ (s'.thread t').HasLock x

/-- **A destructor can lock its thread up**: a thread that waits for a lock which it holds itself
stays there for ever, whatever the others do, and nobody takes the lock any more. -/
theorem State.Reachable.waits_for_itself (h : s.Reachable cfg) (hs : (s.thread t).Stuck x) :
    s.StuckIn cfg t x := by
  have hrun : ∀ s', State.Run cfg s s' → s'.Sound cfg ∧ s'.thread t = s.thread t := by
    intro s' hr
    refine Guarded.Run.invariant (I := fun s' => s'.Sound cfg ∧ s'.thread t = s.thread t) hr
      ⟨h.sound, rfl⟩ fun s₁ s₂ a hi _ ha => ?_
    obtain ⟨hsound, he⟩ := hi
    have hne : t ≠ a.1 := by
      intro ht
      have hnone := hsound.stuck_step (t := t) (x := x) (he ▸ hs) a.2
      rw [ht, ha] at hnone
      cases hnone
    obtain ⟨m', l', th', o', g', hm, rfl⟩ := State.step_move ha
    exact ⟨hsound.move hm, (State.moved_of_ne hne).trans he⟩
  have hwrites : ∀ s', State.Run cfg s s' → x ∈ (s'.thread t).writes := fun s' hr => by
    rw [(hrun s' hr).2]
    exact hs.2
  refine ⟨fun s' hr => (hrun s' hr).2, fun s' hr => .inr (hwrites s' hr), fun s' hr t' ht hl => ?_⟩
  have hagreed := (hrun s' hr).1.agreed
  rcases hl with hl | hl
  · exact hagreed.not_reader (hwrites s' hr) hl
  · exact ht (hagreed.writer_eq (hwrites s' hr) hl).symm

/-- The destructor of the refused value loads from the storage. -/
theorem State.Reachable.waits_for_itself_sample :
    (Guarded.after stuckSchedule_isSome 10).StuckIn .sample true 0 :=
  State.Reachable.waits_for_itself (Guarded.after_reachable stuckSchedule_isSome 10)
    (by decide +kernel)

end Code

end ArcSwap.Locked
