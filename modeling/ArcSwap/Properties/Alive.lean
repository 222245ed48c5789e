import ArcSwap.Invariants.Books
import ArcSwap.Invariants.Coverage

/-!
# No use after free

A guard may hold no reference count of its own. When its debt has not been paid, the storage still
holds the pointer, or the writer that has taken it out has not come to the slot, or the slot has
been filled again by somebody else: in each case there is another claim on the object, so that its
count is not zero.
-/

namespace ArcSwap

variable {T : Type*} {cfg : Config} {s : State T} {t : T} {r : Ref} {k : RefKind}

/-! ## What is referred to, and what is counted -/

/-- The guard that the function has been given or returns. -/
def Active.guard? : Active → Option Guard
  | .intoInner g .start | .dropGuard g | .cas _ g | .ret _ (.guard g _) => some g
  | .load _ (.leave g) => some g
  | _ => none

/-- The guard that a suspended caller holds. -/
def Cont.guard? : Cont → Option Guard
  | .loadLeft _ _ g | .casRefused _ g | .casPaid _ g _ | .casDec _ g _ | .rcuClosure _ g _
  | .rcuSwapped _ g _ _ | .rcuInner _ g _ _ _ _ | .rcuAgain _ g => some g
  | _ => none

/-- The thread holds the guard in the middle of an operation. -/
def Thread.Keeps (th : Thread) (g : Guard) : Prop :=
  th.active.guard? = some g ∨ ∃ q ∈ th.conts, q.guard? = some g

/-- The guards that the thread holds in the middle of operations. -/
def Thread.kept (th : Thread) : Multiset Guard :=
  ↑(th.active.guard?.toList ++ th.conts.filterMap Cont.guard?)

/-- All guards that are alive: user code holds them, or operations in progress. -/
def State.kept [Fintype T] (s : State T) : Multiset Guard :=
  s.guards + Family.total Thread.kept s.thread

/-- The pointer on which the function calls `inc` or `dec` next. -/
def Active.counts? : Active → Option Ref
  | .intoInner g .start => g.debt.map fun _ => g.ref
  | .dec r => some r
  | .payAll f .prepay | .payAll f (.slotInc _ _) => some f.ref
  | _ => none

/-- Nothing that can be reached has been destroyed. -/
structure State.Safe (cfg : Config) (s : State T) : Prop where
  stored : ∀ x ∈ s.mem.live, (s.mem.stored cfg x).Counted → 1 ≤ s.mem.count (s.mem.stored cfg x)
  owned : ∀ r ∈ s.owned, r.Counted → 1 ≤ s.mem.count r
  /-- The guards that user code holds, returned by `load` or by `compare_and_swap`. -/
  guards : ∀ g ∈ s.guards, g.ref.Counted → 1 ≤ s.mem.count g.ref
  /-- The guards that `compare_and_swap` and `rcu` hold, or that are being dropped or returned. -/
  keeps : ∀ t g, (s.thread t).Keeps g → g.ref.Counted → 1 ≤ s.mem.count g.ref
  /-- Where the code calls `inc` or `dec`. -/
  counts : ∀ t r, (s.thread t).active.counts? = some r → r.Counted → 1 ≤ s.mem.count r
  /-- The code changes a count nowhere else. -/
  only : ∀ t b, (s.thread t).active.counts? = none →
    ((s.thread t).active.exec cfg (s.thread t).tls s.mem b).mem.count = s.mem.count
  /-- What user code can clone: its own values, and what it has a guard for. -/
  clones : ∀ t r, s.Holds t r → r.Counted → 1 ≤ s.mem.count r

/-- A clause of the code changes a count only where it calls `inc` or `dec`. -/
theorem Clause.count_eq {tls : Tls} {m : Mem} {a : Active} {o : Out} (h : Clause cfg tls m a o) :
    o.mem.count = m.count ∨ ∃ r, a.counts? = some r ∧
      (o.mem.count = (m.inc r).count ∨ o.mem.count = (m.dec r).count) := by
  cases h with
  | get h | cooldown h | cas h | dropGuard h | load h => cases h <;> exact .inl rfl
  | swap => exact .inl rfl
  | dec h => cases h <;> exact .inr ⟨_, rfl, .inr rfl⟩
  | intoInner h =>
    cases h with
    | start h => exact .inr ⟨_, by simp [Active.counts?, h], .inl rfl⟩
    | _ => exact .inl rfl
  | payAll h =>
    cases h with
    | prepay | slotInc => exact .inr ⟨_, rfl, .inl rfl⟩
    | _ => exact .inl rfl

/-! ## Claims that keep an object alive -/

theorem Active.Unconfirmed.mem_claims {a : Active} {d : SlotId} (h : a.Unconfirmed cfg d r) :
    (r, some d) ∈ a.claims cfg := by
  cases a with
  | load f pc =>
    cases pc <;> simp only [Active.Unconfirmed] at h
    all_goals
      obtain ⟨rfl, rfl⟩ := h
      simp [Active.claims, LoadPc.claims]
  | _ => exact h.elim

theorem mem_contClaims {ks : List Cont} {q : Cont} {c : Ref × Option SlotId} (hq : q ∈ ks)
    (hc : c ∈ q.claims) : c ∈ contClaims ks := by
  induction ks with
  | nil => simp at hq
  | cons q' ks ih =>
    rw [contClaims_cons, Multiset.mem_add]
    rcases List.mem_cons.mp hq with rfl | hq
    · exact .inl hc
    · exact .inr (ih hq)

/-- A writer that has not come to a step yet has a reference for the value that it pays for. -/
theorem Thread.Reaches.mem_claims {th : Thread} {m : Mem} {x : StorageId} {n : NodeId} {i : ℕ}
    (h : th.Reaches m x r n i) : r.claim ∈ th.claims cfg := by
  rw [Thread.claims, Multiset.mem_add]
  rcases h with h | ⟨q, hq, h⟩
  · left
    cases ha : th.active with
    | payAll f pc =>
      rw [ha] at h
      obtain ⟨-, rfl, h⟩ := h
      cases pc <;> simp [Active.claims, PayPc.claims]
    | _ =>
      rw [ha] at h
      exact h.elim
  · refine .inr (mem_contClaims hq ?_)
    cases q with
    | payNode f => simp [Cont.claims, h.2]
    | helpReplacement | helpRetry => simp [Cont.claims, h.2.1]
    | _ => exact h.elim

/-- A claim of somebody other than the function that has filled the slot and not settled it. -/
inductive State.Firm (cfg : Config) (s : State T) (c : Ref × Option SlotId) : Prop
  | pool (h : c ∈ poolClaims s.owned s.guards)
  | conts (t : T) (h : c ∈ contClaims (s.thread t).conts)
  | active (t : T) (h : c ∈ (s.thread t).active.claims cfg)
    (hu : ∀ d, ¬ (s.thread t).active.Unconfirmed cfg d c.1)
  | mem (h : c ∈ s.mem.claims cfg)

theorem State.firm_of_guard {g : Guard} (hg : g ∈ s.guards) : s.Firm cfg g.claim :=
  .pool (Multiset.mem_add.mpr (.inr (Multiset.mem_map.mpr ⟨g, hg, rfl⟩)))

theorem State.firm_of_owned (hr : r ∈ s.owned) : s.Firm cfg r.claim :=
  .pool (Multiset.mem_add.mpr (.inl (Multiset.mem_map.mpr ⟨r, hr, rfl⟩)))

variable [Fintype T]

theorem State.Firm.mem_claims {c : Ref × Option SlotId} (h : s.Firm cfg c) : c ∈ s.claims cfg := by
  rw [State.claims, Multiset.mem_add, Multiset.mem_add, Family.mem_total]
  cases h with
  | pool h => exact .inl (.inr h)
  | conts t h => exact .inl (.inl ⟨t, Multiset.mem_add.mpr (.inr h)⟩)
  | active t h => exact .inl (.inl ⟨t, Multiset.mem_add.mpr (.inl h)⟩)
  | mem h => exact .inr h

variable [DecidableEq T]

/-- Beside the claim of the function that has filled the slot there is another one. -/
theorem State.Firm.two_le {d : SlotId} (h : s.Firm cfg (r, some d))
    (hu : (s.thread t).active.Unconfirmed cfg d r) : 2 ≤ (s.claims cfg).count (r, some d) := by
  have hone : 1 ≤ ((s.thread t).active.claims cfg).count (r, some d) :=
    Multiset.one_le_count_iff_mem.mpr hu.mem_claims
  have hsum : (s.claims cfg).count (r, some d) =
      ((s.thread t).active.claims cfg).count (r, some d) +
      (contClaims (s.thread t).conts).count (r, some d) +
      (Family.rest (Thread.claims cfg) s.thread t).count (r, some d) +
      (poolClaims s.owned s.guards).count (r, some d) + (s.mem.claims cfg).count (r, some d) := by
    rw [State.claims, Family.total_eq _ _ t, Thread.claims]
    simp only [Multiset.count_add]
  have hrest : ∀ t' ≠ t, (r, some d) ∈ (s.thread t').claims cfg →
      1 ≤ (Family.rest (Thread.claims cfg) s.thread t).count (r, some d) := fun t' hne h =>
    Multiset.one_le_count_iff_mem.mpr (Family.mem_rest.mpr ⟨t', hne, h⟩)
  cases h with
  | pool h =>
    have := Multiset.one_le_count_iff_mem.mpr h
    omega
  | mem h =>
    have := Multiset.one_le_count_iff_mem.mpr h
    omega
  | conts t' h =>
    by_cases hne : t' = t
    · have := Multiset.one_le_count_iff_mem.mpr (hne ▸ h)
      omega
    · have := hrest t' hne (Multiset.mem_add.mpr (.inr h))
      omega
  | active t' h hu' =>
    have := hrest t' (fun he => hu' d (he ▸ hu)) (Multiset.mem_add.mpr (.inl h))
    omega

omit [DecidableEq T] in
/-- A storage, or a writer that has not come to a step yet, keeps the object alive. -/
theorem State.Accounted.pos_of_reaches {x : StorageId} {n : NodeId} {i : ℕ}
    (h : s.Accounted cfg) (hr : r.Counted) (ha : s.Reaches cfg x r n i) : 1 ≤ s.mem.count r := by
  refine h.balanced.pos hr (o := none) ?_ (by simp)
  rw [State.claims, Multiset.mem_add, Multiset.mem_add, Family.mem_total]
  rcases ha with ⟨hx, rfl⟩ | ⟨t, ha⟩
  · refine .inr (Multiset.mem_add.mpr (.inl (Multiset.mem_sum.mpr ⟨x, hx, ?_⟩)))
    simp [Mem.stored, Ref.claim]
  · exact .inl (.inl ⟨t, ha.mem_claims⟩)

/-- **What is referred to is alive**: by a storage, a value, a guard, or an operation in progress,
other than a load that has just put the pointer into a slot. -/
theorem State.Accounted.alive {o : Option SlotId} (h : s.Accounted cfg) (hv : s.Covering cfg)
    (hr : r.Counted) (hc : s.Firm cfg (r, o)) : 1 ≤ s.mem.count r := by
  by_cases ho : ∃ d, o = some d ∧ s.mem.slot d = some r
  · obtain ⟨d, rfl, hd⟩ := ho
    rcases hv.debts d r hd with ⟨t, hu⟩ | ⟨x, ha⟩
    · exact h.balanced.pos_of_two hr (hc.two_le hu)
    · exact h.pos_of_reaches hr ha
  · exact h.balanced.pos hr hc.mem_claims fun d hd hs => ho ⟨d, hd, hs⟩

/-! ## Nothing is used after it has been destroyed -/

theorem Cont.guard?_claims {q : Cont} {g : Guard} (h : q.guard? = some g) : g.claim ∈ q.claims := by
  cases q <;> simp_all [Cont.guard?, Cont.claims]

theorem Active.guard?_claims {a : Active} {g : Guard} {tls : Tls} (hok : a.Ok cfg tls)
    (h : a.guard? = some g) : g.claim ∈ a.claims cfg ∧ ∀ d, ¬ a.Unconfirmed cfg d r := by
  cases a with
  | load f pc =>
    cases pc <;> simp_all [Active.guard?, Active.claims, LoadPc.claims, Active.Unconfirmed]
  | intoInner g' pc => cases pc <;> simp_all [Active.guard?, Active.claims, Active.Unconfirmed]
  | ret c v =>
    cases v <;> simp only [Active.guard?, reduceCtorEq, Option.some.injEq] at h
    subst h
    refine ⟨?_, fun d => id⟩
    cases c <;> first
      | exact Multiset.mem_singleton_self _
      | exact absurd hok (by simp [Active.Ok, Contract.Meets])
  | _ => simp_all [Active.guard?, Active.claims, Active.Unconfirmed]

theorem map_claim_conts_le (ks : List Cont) :
    (ks.filterMap Cont.guard? : Multiset Guard).map Guard.claim ≤ contClaims ks := by
  induction ks with
  | nil => simp
  | cons q ks ih =>
    cases hq : q.guard? with
    | none =>
      rw [List.filterMap_cons_none hq, contClaims_cons]
      exact ih.trans (Multiset.le_add_left _ _)
    | some g =>
      rw [List.filterMap_cons_some hq, contClaims_cons, ← Multiset.cons_coe, Multiset.map_cons,
        ← Multiset.singleton_add]
      exact add_le_add (Multiset.singleton_le.mpr (Cont.guard?_claims hq)) ih

/-- The guards that a thread holds have claims of their own. -/
theorem Thread.Typed.map_claim_kept_le {th : Thread} (h : th.Typed cfg) :
    th.kept.map Guard.claim ≤ th.claims cfg := by
  rw [Thread.kept, ← Multiset.coe_add, Multiset.map_add]
  refine add_le_add ?_ (map_claim_conts_le _)
  cases hg : th.active.guard? with
  | none => simp
  | some g => simpa using (Active.guard?_claims (r := g.ref) h.active hg).1

theorem Active.counts?_claims {a : Active} (h : a.counts? = some r) :
    (∃ o, (r, o) ∈ a.claims cfg) ∧ ∀ d r, ¬ a.Unconfirmed cfg d r := by
  cases a with
  | intoInner g pc =>
    cases pc <;> simp only [Active.counts?, reduceCtorEq, Option.map_eq_some_iff] at h
    obtain ⟨d, hd, rfl⟩ := h
    exact ⟨⟨g.debt, Multiset.mem_singleton_self _⟩, fun _ _ => id⟩
  | dec r' =>
    obtain rfl := Option.some.inj h
    exact ⟨⟨none, Multiset.mem_singleton_self _⟩, fun _ _ => id⟩
  | payAll f pc =>
    cases pc <;> simp only [Active.counts?, reduceCtorEq, Option.some.injEq] at h
    all_goals
      subst h
      exact ⟨⟨none, Multiset.mem_singleton_self _⟩, fun _ _ => id⟩
  | load f pc => simp [Active.counts?] at h
  | _ => simp [Active.counts?] at h

theorem State.Accounted.safe (h : s.Accounted cfg) (hv : s.Covering cfg) : s.Safe cfg where
  stored x hx hr := h.pos_of_reaches (x := x) (n := 0) (i := 0) hr (.inl ⟨hx, rfl⟩)
  owned r hr hc := h.alive hv hc (firm_of_owned hr)
  guards g hg hc := h.alive hv hc (firm_of_guard hg)
  keeps t g hg hc := by
    rcases hg with hg | ⟨q, hq, hg⟩
    · obtain ⟨hmem, hu⟩ := Active.guard?_claims (r := g.ref) (h.sound.typed t).active hg
      exact h.alive hv hc (.active t hmem hu)
    · exact h.alive hv hc (.conts t (mem_contClaims hq (Cont.guard?_claims hg)))
  counts t r hr hc := by
    obtain ⟨⟨o, (hmem : _ ∈ (s.thread t).active.claims cfg)⟩, hu⟩ := Active.counts?_claims hr
    exact h.alive hv hc (.active t hmem fun d => hu d r)
  only t b hn := by
    by_cases hcode : (s.thread t).active.IsCode
    · rcases (Active.exec_clause hcode).count_eq with he | ⟨r, hr, -⟩
      · exact he
      · rw [hn] at hr
        cases hr
    · cases ha : (s.thread t).active <;> first
        | rfl
        | (rw [ha] at hcode; exact absurd trivial hcode)
  clones t r hr hc := by
    rcases hr with hr | ⟨g, hg, rfl⟩ | ⟨q, hq, hr⟩
    · exact h.alive hv hc (firm_of_owned hr)
    · exact h.alive hv hc (firm_of_guard hg)
    · cases q with
      | rcuClosure f cur given =>
        obtain rfl := Option.some.inj hr
        exact h.alive hv hc (.conts t (mem_contClaims hq (Multiset.mem_singleton_self _)))
      | _ => cases hr

/-- **Nothing is used after it has been freed**: what a storage, an owned value or a guard refers
to has not been destroyed, and the code counts references only on objects that are alive. -/
theorem State.Reachable.no_use_after_free (hu : cfg.Uniform k)
    (h : s.Reachable cfg State.FreshGen) : s.Safe cfg :=
  (h.accounted_of_uniform hu).1.safe h.covering.2

theorem State.Reachable.no_use_after_free_sample : (State.sample 49).Safe .sample :=
  State.Reachable.no_use_after_free (k := .arc) (fun _ => rfl) (State.sample_reachable 49)

end ArcSwap
