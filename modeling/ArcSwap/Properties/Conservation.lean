import ArcSwap.Invariants.Books
import Mathlib.Algebra.BigOperators.Group.Finset.Piecewise

/-!
# Reference counts are conserved

The count of an object and the debts on it make up for everything that refers to it: the storages,
the owned values, the guards, the replacements on their way and the operations in progress. Every
debt has somebody who knows of it. When nothing is going on and no guard is left, the count is the
number of the storages and the owned values.
-/

namespace ArcSwap

variable {T : Type*} [Fintype T] {cfg : Config} {s : State T} {r : Ref} {k : RefKind}

/-! ## Who refers to an object -/

/-- The number of the storages that hold `r`. -/
def Mem.storedIn (cfg : Config) (m : Mem) (r : Ref) : ℕ :=
  (m.live.filter fun x => m.stored cfg x = r).card

/-- The number of the replacements `r` that have been handed over and not been taken yet. -/
def Mem.offeredTo (m : Mem) (r : Ref) : ℕ :=
  ((Finset.range m.nodeCount).filter fun n => (m.offer n).map Offer.value = some r).card

/-- The number of the debt slots that contain `r`. -/
def Mem.owedIn (m : Mem) (r : Ref) : ℕ := (m.slots.filter fun d => m.slot d = some r).card

/-- The number of the references to `r` that the operation in progress of a thread works with. -/
def Thread.claimsOn (cfg : Config) (th : Thread) (r : Ref) : ℕ :=
  Ledger.claimsOn (th.claims cfg) r

/-- No operation is in progress, and no guard is left. -/
def State.Quiet (s : State T) : Prop :=
  (∀ t, ∃ u, (s.thread t).active = .user u ∧ (s.thread t).conts = []) ∧ s.guards = 0

/-- The count of `r`, the debts on it and the claims on it fit together. -/
structure State.Conserved (cfg : Config) (s : State T) (r : Ref) : Prop where
  /-- The count and the debts make up for the claims. -/
  sum : s.mem.count r + s.mem.owedIn r = s.mem.storedIn cfg r + s.owned.count r +
    s.guards.countP (fun g => g.ref = r) + s.mem.offeredTo r + ∑ t, (s.thread t).claimsOn cfg r
  /-- A slot that contains `r` belongs to a node. -/
  inside : ∀ d, s.mem.slot d = some r → d ∈ s.mem.slots
  /-- A slot that contains `r` is referred to by a guard or by an operation in progress. -/
  referred : ∀ d, s.mem.slot d = some r →
    (∃ g ∈ s.guards, g.ref = r ∧ g.debt = some d) ∨ ∃ t, (r, some d) ∈ (s.thread t).claims cfg
  /-- When nothing is going on, the storages and the owned values are all that is counted. -/
  quiet : s.Quiet → (∀ d, s.mem.slot d ≠ some r) ∧
    s.mem.count r = s.mem.storedIn cfg r + s.owned.count r

/-! ## Counting the claims -/

theorem claimsOn_sum {ι : Type*} (I : Finset ι) (f : ι → Claims) (r : Ref) :
    Ledger.claimsOn (∑ i ∈ I, f i) r = ∑ i ∈ I, Ledger.claimsOn (f i) r :=
  map_sum (Multiset.countPAddMonoidHom fun c : Ref × Option SlotId => c.1 = r) f I

theorem Mem.claimsOn_stored (m : Mem) :
    Ledger.claimsOn (m.storedClaims cfg) r = m.storedIn cfg r := by
  rw [Mem.storedClaims, claimsOn_sum, Mem.storedIn, Finset.card_filter]
  exact Finset.sum_congr rfl fun x _ => Ledger.claimsOn_singleton _ _ _

theorem Mem.claimsOn_offered (m : Mem) : Ledger.claimsOn m.offeredClaims r = m.offeredTo r := by
  rw [Mem.offeredClaims, claimsOn_sum, Mem.offeredTo, Finset.card_filter]
  refine Finset.sum_congr rfl fun n _ => ?_
  cases h : m.offer n with
  | none => simp [Mem.offered, h, Ledger.claimsOn]
  | some o => simp [Mem.offered, h, Ref.claim]

theorem claimsOn_poolClaims (o : Multiset Ref) (g : Multiset Guard) :
    Ledger.claimsOn (poolClaims o g) r = o.count r + g.countP (fun x => x.ref = r) := by
  rw [poolClaims, Ledger.claimsOn_add, Ledger.claimsOn, Ledger.claimsOn, Multiset.countP_map,
    Multiset.countP_map, Multiset.count, Multiset.countP_eq_card_filter,
    Multiset.countP_eq_card_filter]
  simp only [Ref.claim, Guard.claim, eq_comm]

theorem State.claimsOn_claims : Ledger.claimsOn (s.claims cfg) r =
    s.mem.storedIn cfg r + s.owned.count r + s.guards.countP (fun g => g.ref = r) +
      s.mem.offeredTo r + ∑ t, (s.thread t).claimsOn cfg r := by
  rw [State.claims, Mem.claims, Ledger.claimsOn_add, Ledger.claimsOn_add, Ledger.claimsOn_add,
    claimsOn_poolClaims, Mem.claimsOn_stored, Mem.claimsOn_offered, Family.total, claimsOn_sum]
  simp only [Thread.claimsOn]
  omega

/-- A claim that knows a slot is that of a guard or of an operation in progress. -/
theorem State.mem_claims_some {d : SlotId} (h : (r, some d) ∈ s.claims cfg) :
    (∃ g ∈ s.guards, g.ref = r ∧ g.debt = some d) ∨ ∃ t, (r, some d) ∈ (s.thread t).claims cfg := by
  simp only [State.claims, poolClaims, Mem.claims, Mem.storedClaims, Mem.offeredClaims,
    Multiset.mem_add, Family.mem_total, Multiset.mem_map, Multiset.mem_sum] at h
  rcases h with (⟨t, h⟩ | ⟨v, -, h⟩ | ⟨g, hg, h⟩) | ⟨x, -, h⟩ | ⟨n, -, h⟩
  · exact .inr ⟨t, h⟩
  · simp [Ref.claim] at h
  · simp only [Guard.claim, Prod.mk.injEq] at h
    exact .inl ⟨g, hg, h⟩
  · simp [Ref.claim] at h
  · cases ho : s.mem.offer n <;> simp [Mem.offered, ho, Ref.claim] at h

/-! ## Nothing is going on -/

omit [Fintype T] in
theorem State.Quiet.claims_eq_zero (hq : s.Quiet) (t : T) : (s.thread t).claims cfg = 0 := by
  obtain ⟨u, ha, hk⟩ := hq.1 t
  rw [Thread.user_claims ha, hk]
  rfl

omit [Fintype T] in
theorem State.Quiet.offeredTo (hq : s.Quiet) (hh : s.Handing cfg) : s.mem.offeredTo r = 0 := by
  rw [Mem.offeredTo, Finset.card_eq_zero, Finset.filter_eq_empty_iff]
  intro n _ ho
  obtain ⟨t, ht⟩ := hh.offers n fun hn => by simp [hn] at ho
  obtain ⟨u, ha, -⟩ := hq.1 t
  rw [ha] at ht
  exact ht

/-! ## Conservation -/

theorem State.Accounted.conserved (h : s.Accounted cfg) (hr : r.Counted) : s.Conserved cfg r := by
  have hsum : s.mem.count r + s.mem.owedIn r = _ := (h.balanced.sum r hr).trans s.claimsOn_claims
  have hreferred : ∀ d, s.mem.slot d = some r → _ := fun d hd =>
    State.mem_claims_some (h.balanced.referred d r hr hd)
  refine ⟨hsum, fun d => h.balanced.inside d r, hreferred, fun hq => ?_⟩
  have hslot : ∀ d, s.mem.slot d ≠ some r := by
    intro d hd
    rcases hreferred d hd with ⟨g, hg, -⟩ | ⟨t, ht⟩
    · simp [hq.2] at hg
    · simp [hq.claims_eq_zero] at ht
  have howed : s.mem.owedIn r = 0 := by simp [Mem.owedIn, hslot]
  have hclaims : ∑ t, (s.thread t).claimsOn cfg r = 0 :=
    Finset.sum_eq_zero fun t _ => by rw [Thread.claimsOn, hq.claims_eq_zero]; rfl
  rw [howed, hclaims, hq.offeredTo h.handing, hq.2] at hsum
  exact ⟨hslot, by simpa using hsum⟩

variable [DecidableEq T]

/-- **Reference counts are conserved** in every reachable state: the count of an object and the
debts on it make up for everything that refers to it. -/
theorem State.Reachable.counts_conserved (hu : cfg.Uniform k) (h : s.Reachable cfg State.FreshGen)
    (hr : r.Counted) : s.Conserved cfg r :=
  (h.accounted_of_uniform hu).1.conserved hr

theorem State.Reachable.counts_conserved_sample : (State.sample 49).Conserved .sample ⟨.arc, 1⟩ :=
  State.Reachable.counts_conserved (k := .arc) (fun _ => rfl) (State.sample_reachable 49)
    (by decide)

end ArcSwap
