import ArcSwap.Strategies.LockBooks
import ArcSwap.Values.Loads

/-!
# Counts under the locks

Under the locks a count is no more and no less than the number of those who refer to the object:
nobody borrows a reference from a storage. That a reader finds the object alive when it comes to
count it is what the lock is for.
-/

namespace ArcSwap.Locked

variable {T : Type*} {cfg : Config} {s : State T} {t : T} {x : StorageId} {r : Ref}

/-- The number of the references to `r` that the operation in progress of a thread works with. -/
def Thread.claimsOn (th : Thread) (r : Ref) : ℕ := Ledger.claimsOn th.claims r

/-- The pointer on which the function calls `inc` or `dec` next. -/
def Active.counts? : Active → Option Ref
  | .load _ _ (.inc r) | .cas _ (.inc r) | .dec r => some r
  | _ => none

/-- The counts are exact, and nothing that can be reached has been destroyed. -/
structure State.Exact [Fintype T] [DecidableEq T] (cfg : Config) (s : State T) : Prop where
  /-- The storages, the owned values, the guards and the operations in progress. -/
  sum : ∀ r, r.Counted → s.mem.count r = s.mem.storedIn cfg r + s.owned.count r +
    s.guards.countP (fun g => g.ref = r) + ∑ t, (s.thread t).claimsOn r
  /-- Where the code calls `inc` or `dec`, the object is alive. -/
  counts : ∀ t r, (s.thread t).active.counts? = some r → r.Counted → 1 ≤ s.mem.count r
  /-- The code changes a count nowhere else. -/
  only : ∀ t o, (s.thread t).active.counts? = none →
    (s.thread t).active.exec cfg t s.lock s.mem = some o → o.mem.count = s.mem.count
  /-- What user code can clone is alive. -/
  clones : ∀ t r, s.Holds t r → r.Counted → 1 ≤ s.mem.count r
  /-- Who holds a lock as the writer excludes the readers and the other writers. -/
  excluded : ∀ x t, x ∈ (s.thread t).writes → ∀ t',
    x ∉ (s.thread t').active.reads ∧ (x ∈ (s.thread t').writes → t' = t)

/-! ## Counting the claims -/

variable [Fintype T]

theorem State.claimsOn_claims : Ledger.claimsOn (s.claims cfg) r =
    s.mem.storedIn cfg r + s.owned.count r + s.guards.countP (fun g => g.ref = r) +
      s.mem.offeredTo r + ∑ t, (s.thread t).claimsOn r := by
  rw [State.claims, Mem.claims, Ledger.claimsOn_add, Ledger.claimsOn_add, Ledger.claimsOn_add,
    claimsOn_poolClaims, Mem.claimsOn_stored, Mem.claimsOn_offered, Family.total, claimsOn_sum]
  simp only [Thread.claimsOn]
  omega

theorem State.mem_claims_of_thread {c : Ref × Option SlotId} (h : c ∈ (s.thread t).claims) :
    c ∈ s.claims cfg := by
  rw [State.claims, Multiset.mem_add, Multiset.mem_add, Family.mem_total]
  exact .inl (.inl ⟨t, h⟩)

theorem State.mem_claims_of_stored (hx : x ∈ s.mem.live) :
    (s.mem.stored cfg x).claim ∈ s.claims cfg := by
  rw [State.claims, Multiset.mem_add]
  refine .inr (Multiset.mem_add.mpr (.inl (Multiset.mem_sum.mpr ⟨x, hx, ?_⟩)))
  exact Multiset.mem_singleton_self _

variable [DecidableEq T]

/-- Every claim is backed by the count. -/
theorem State.Sound.pos (h : s.Sound cfg) (hc : r.claim ∈ s.claims cfg) (hr : r.Counted) :
    1 ≤ s.mem.count r :=
  h.balanced.pos hr (o := none) hc (by simp)

theorem State.Sound.stored_pos (h : s.Sound cfg) (hx : x ∈ s.mem.live)
    (hr : (s.mem.stored cfg x).Counted) : 1 ≤ s.mem.count (s.mem.stored cfg x) :=
  h.pos (State.mem_claims_of_stored hx) hr

/-- A pointer that has been read under the lock is alive. -/
theorem State.Sound.kept_pos (h : s.Sound cfg)
    (hread : (s.thread t).active.reading? = some (x, r)) (hr : r.Counted) : 1 ≤ s.mem.count r := by
  rcases h.kept t x r hread with rfl | ⟨t', ha⟩
  · refine h.stored_pos (h.live t x (.inl ?_)) hr
    cases ha : (s.thread t).active with
    | load y start pc =>
      rw [ha] at hread
      cases pc with
      | inc r' =>
        obtain ⟨rfl, -⟩ := Prod.mk.inj (Option.some.inj hread)
        rfl
      | _ => cases hread
    | cas f pc =>
      rw [ha] at hread
      cases pc with
      | inc r' =>
        obtain ⟨rfl, -⟩ := Prod.mk.inj (Option.some.inj hread)
        rfl
      | _ => cases hread
    | _ =>
      rw [ha] at hread
      cases hread
  · -- the writer that has taken the value out has not dropped it
    refine h.pos (State.mem_claims_of_thread (t := t') (Thread.mem_gather.mpr (.inl ?_))) hr
    rw [ha]
    exact Multiset.mem_singleton_self _

theorem State.Sound.counts_pos (h : s.Sound cfg) (hc : (s.thread t).active.counts? = some r)
    (hr : r.Counted) : 1 ≤ s.mem.count r := by
  cases ha : (s.thread t).active with
  | load y start pc =>
    rw [ha] at hc
    cases pc with
    | inc r' => exact h.kept_pos (t := t) (by rw [ha, ← Option.some.inj hc]; rfl) hr
    | _ => cases hc
  | cas f pc =>
    rw [ha] at hc
    cases pc with
    | inc r' => exact h.kept_pos (t := t) (by rw [ha, ← Option.some.inj hc]; rfl) hr
    | _ => cases hc
  | dec r' =>
    rw [ha] at hc
    obtain rfl := Option.some.inj hc
    refine h.pos (State.mem_claims_of_thread (t := t) (Thread.mem_gather.mpr (.inl ?_))) hr
    rw [ha]
    exact Multiset.mem_singleton_self _
  | _ =>
    rw [ha] at hc
    cases hc

theorem State.Sound.holds_pos (h : s.Sound cfg) (hh : s.Holds t r) (hr : r.Counted) :
    1 ≤ s.mem.count r := by
  refine h.pos ?_ hr
  rcases hh with ho | ⟨g, hg, rfl⟩ | ⟨k, hk, hl⟩
  · rw [State.claims, poolClaims]
    refine Multiset.mem_add.mpr (.inl (Multiset.mem_add.mpr (.inr ?_)))
    exact Multiset.mem_add.mpr (.inl (Multiset.mem_map_of_mem _ ho))
  · rw [State.claims, poolClaims]
    refine Multiset.mem_add.mpr (.inl (Multiset.mem_add.mpr (.inr ?_)))
    refine Multiset.mem_add.mpr (.inr ?_)
    have hc : g.claim = g.ref.claim := by
      rw [Guard.claim, h.guards g hg]
      rfl
    exact hc ▸ Multiset.mem_map_of_mem Guard.claim hg
  · refine State.mem_claims_of_thread (t := t) (Thread.mem_gather.mpr (.inr ⟨k, hk, ?_⟩))
    cases k with
    | rcuClosure f cur given =>
      obtain rfl := Option.some.inj hl
      exact Multiset.mem_singleton_self _
    | _ => cases hl

omit [Fintype T] in
/-- A clause changes a count only where it calls `inc` or `dec`. -/
theorem Clause.count_eq {l : StorageId → RwLock T} {m : Mem} {a : Active} {o : Out T}
    (h : Clause cfg t l m a o) (hc : a.counts? = none) : o.mem.count = m.count := by
  cases h with
  | inc | casInc | destroy | dec => cases hc
  | _ => rfl

/-- **Under the locks the counts are exact** in every reachable state, whatever the destructors and
the closures do: the count of an object is the number of those who refer to it, and nobody finds an
object destroyed. -/
theorem State.Reachable.counts_exact (h : s.Reachable cfg) : s.Exact cfg where
  sum r hr := by
    have hs := h.sound
    have hsum : s.mem.count r + s.mem.owedIn r = _ :=
      (hs.balanced.sum r hr).trans State.claimsOn_claims
    have howed : s.mem.owedIn r = 0 := by simp [Mem.owedIn, Mem.slots, hs.nodes]
    have hoffered : s.mem.offeredTo r = 0 := by simp [Mem.offeredTo, hs.nodes]
    omega
  counts _ _ hc hr := h.sound.counts_pos hc hr
  only _ _ hc ho := (Active.exec_clause ho).count_eq hc
  clones _ _ hh hr := h.sound.holds_pos hh hr
  excluded _ _ hw _ :=
    ⟨h.sound.agreed.not_reader hw, fun hw' => h.sound.agreed.writer_eq hw' hw⟩

/-- The thread `true` calls `rcu`. While its closure runs, the thread `false` stores another value;
the exchange fails, and the closure is called again. -/
def lockSchedule : List (Bool × Choice) := List.flatten
  [[(false, .op (.alloc 1)), (false, .op (.new 0 1)), (true, .op (.rcu 0))], goOn true 5,
    [(true, .op (.alloc 2)), (false, .op (.alloc 3)), (false, .op (.store 0 3))], goOn false 7,
    [(true, .result ⟨.arc, 2⟩)], goOn true 5, [(true, .done)], goOn true 5, [(true, .done)],
    goOn true 2, [(true, .op (.alloc 4)), (true, .result ⟨.arc, 4⟩)], goOn true 7]

theorem lockSchedule_isSome : (State.play .sample .init lockSchedule).isSome := by
  decide +kernel

/-- The thread `true` has been refused and holds the lock. -/
theorem State.Reachable.counts_exact_sample :
    (Guarded.after lockSchedule_isSome 22).Exact .sample :=
  State.Reachable.counts_exact (Guarded.after_reachable lockSchedule_isSome 22)

end ArcSwap.Locked
