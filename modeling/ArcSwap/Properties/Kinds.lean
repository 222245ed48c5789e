import ArcSwap.Properties.Alive
import ArcSwap.Properties.Conservation

/-!
# Strong and weak storages

`Arc::into_raw` and `Weak::into_raw` of one allocation are the same address, and a debt slot knows
nothing but the address. A writer to a storage of `Weak`s that finds the address in a slot pays the
debt with a weak reference, also when it is the debt of a guard for an `Arc`. The counts stay right
as long as this does not happen.
-/

namespace ArcSwap

variable {T : Type*} [Fintype T] {cfg : Config} {s : State T} {r : Ref}

/-! ## What the counts cover -/

/-- The counts cover what refers to the allocations, each of its own kind. -/
structure State.Undisturbed (cfg : Config) (s : State T) : Prop where
  /-- The storages, the owned values, the guards without a debt and what operations in progress own
  are all counted. -/
  counted : ∀ r : Ref, r.Counted → s.mem.storedIn cfg r + s.owned.count r +
    s.guards.count ⟨r, none⟩ + ∑ t, ((s.thread t).claims cfg).count (r, none) ≤ s.mem.count r
  /-- What a storage holds has not been dropped. -/
  stored : ∀ x ∈ s.mem.live, (s.mem.stored cfg x).Counted → 1 ≤ s.mem.count (s.mem.stored cfg x)
  /-- What an owned value refers to has not been dropped. -/
  owned : ∀ r ∈ s.owned, r.Counted → 1 ≤ s.mem.count r
  /-- What a guard refers to has not been dropped. -/
  guards : ∀ g ∈ s.guards, g.ref.Counted → 1 ≤ s.mem.count g.ref

theorem Mem.count_stored (m : Mem) : (m.storedClaims cfg).count (r, none) = m.storedIn cfg r := by
  rw [Mem.storedClaims, Multiset.count_sum', Mem.storedIn, Finset.card_filter]
  refine Finset.sum_congr rfl fun x _ => ?_
  rw [Ref.claim, Multiset.count_singleton]
  simp [eq_comm]

theorem count_poolClaims (o : Multiset Ref) (g : Multiset Guard) :
    (poolClaims o g).count (r, none) = o.count r + g.count ⟨r, none⟩ := by
  rw [poolClaims, Multiset.count_add]
  congr 1
  · exact Multiset.count_map_eq_count' (fun r : Ref => r.claim) o
      (fun r r' h => by simpa [Ref.claim] using h) r
  · refine Multiset.count_map_eq_count' (fun g : Guard => g.claim) g (fun g g' h => ?_) ⟨r, none⟩
    cases g
    cases g'
    simpa [Guard.claim] using h

theorem State.Accounted.counted (h : s.Accounted cfg) (hr : r.Counted) :
    s.mem.storedIn cfg r + s.owned.count r + s.guards.count ⟨r, none⟩ +
      ∑ t, ((s.thread t).claims cfg).count (r, none) ≤ s.mem.count r := by
  refine le_trans ?_ (h.balanced.count_none_le hr)
  have hsum : (s.claims cfg).count (r, none) =
      ∑ t, ((s.thread t).claims cfg).count (r, none) +
        (s.owned.count r + s.guards.count ⟨r, none⟩) +
      (s.mem.storedIn cfg r + s.mem.offeredClaims.count (r, none)) := by
    rw [State.claims, Mem.claims, Multiset.count_add, Multiset.count_add, Multiset.count_add,
      count_poolClaims, Mem.count_stored, Family.total, Multiset.count_sum']
  omega

/-! ## A sample run -/

/-- The storage `1` is of `Weak`s, the others are of `Arc`s. -/
def Config.mixed : Config :=
  ⟨64, Config.sample.wide, fun | 1 => .weak | _ => .arc, fun _ => true⟩

/-- One thread: both storages refer to the allocation `1`, a guard is loaded from the storage `0`,
and the storage `1` is set to null. Then the guard is dropped. -/
def mixedSchedule : List (Fin 1 × Choice) := List.flatten
  [[(0, .op (.alloc 1)), (0, .op (.downgrade 1)), (0, .op (.new 0 1)), (0, .op (.new 1 1)),
    (0, .op (.load 0))], goOn 0 13,
    [(0, .op (.store 1 0))], goOn 0 28,
    [(0, .op (.dropGuard ⟨⟨.arc, 1⟩, some ⟨0, 0⟩⟩))], goOn 0 2]

omit [Fintype T] in
theorem State.sameKind_iff {t : T} : s.SameKind cfg t ↔
    ∀ x ∈ (s.thread t).active.pays? cfg, x.2.Counted → s.mem.Owes x.1 x.2 →
      s.mem.slot x.1 = some x.2 := by
  constructor
  · intro h x hx
    exact h x.1 x.2 hx
  · intro h d r hp
    exact h (d, r) hp

instance (s : State T) (t : T) : Decidable (s.SameKind cfg t) :=
  decidable_of_iff _ State.sameKind_iff.symm

/-! ## When the counts stay right -/

/-- **Strong and weak storages do not disturb each other** in every run in which debts are only paid
with references of their own kind, and no generation is used a second time. -/
theorem State.Reachable.kinds_undisturbed [DecidableEq T]
    (h : s.Reachable cfg fun s t => s.FreshGen t ∧ s.SameKind cfg t) : s.Undisturbed cfg := by
  have ha := h.accounted
  have hsafe := ha.safe (h.mono fun _ _ hp => hp.1).covering.2
  exact ⟨fun r hr => ha.counted hr, hsafe.stored, hsafe.owned, hsafe.guards⟩

/-- In the sample run, when the guard for the `Arc` is held and the `Weak` has been taken out of its
storage. -/
theorem State.Reachable.kinds_undisturbed_sample : ∃ s,
    State.play .mixed (fun s t => s.FreshGen t ∧ s.SameKind .mixed t) .init
      (mixedSchedule.take 27) = some s ∧
    s.Undisturbed .mixed := by
  have hsome : (State.play .mixed (fun s t => s.FreshGen t ∧ s.SameKind .mixed t) .init
      (mixedSchedule.take 27)).isSome := by decide +kernel
  obtain ⟨s, hs⟩ := Option.isSome_iff_exists.mp hsome
  exact ⟨s, hs, State.Reachable.kinds_undisturbed (Guarded.run_of_play hs)⟩

/-- **Strong and weak storages can disturb each other**: the writer to the storage of `Weak`s has
paid the debt of the guard, and the drop of the guard destroys the object that the storage of `Arc`s
still holds. The strong count is less than the number of the storages. -/
theorem State.kinds_disturbed : ∃ s, State.play .mixed State.FreshGen .init mixedSchedule = some s ∧
    s.Reachable .mixed State.FreshGen ∧ ¬ s.Undisturbed .mixed ∧ 0 ∈ s.mem.live ∧
    s.mem.stored .mixed 0 = ⟨.arc, 1⟩ ∧
    s.mem.count ⟨.arc, 1⟩ < s.mem.storedIn .mixed ⟨.arc, 1⟩ := by
  have hplay : (State.play .mixed State.FreshGen .init mixedSchedule).map (fun s =>
      (decide (0 ∈ s.mem.live), s.mem.stored .mixed 0, s.mem.count ⟨.arc, 1⟩,
        s.mem.storedIn .mixed ⟨.arc, 1⟩)) = some (true, ⟨.arc, 1⟩, 0, 1) := by
    decide +kernel
  obtain ⟨s, hs, h⟩ := Option.map_eq_some_iff.mp hplay
  simp only [Prod.mk.injEq, decide_eq_true_eq] at h
  obtain ⟨hlive, hst, hcount, hstored⟩ := h
  refine ⟨s, hs, Guarded.run_of_play hs, fun hu => ?_, hlive, hst, by omega⟩
  have hle := hu.counted ⟨.arc, 1⟩ (by decide)
  omega

end ArcSwap
