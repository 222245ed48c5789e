import ArcSwap.Invariants.Borrows

/-!
# Who takes care of a debt

A writer that has taken a pointer out of a storage visits all nodes: on each of them it looks for a
reader to help first, and for debts on the pointer then. A slot that contains a pointer is either
about to be settled by the function that has filled it, or a storage holds the pointer still, or
a writer that has not come to the slot yet will pay it. In the same way, a reader that has chosen
a candidate and has not been helped has a storage that still holds it, or a writer that has not
been at its node.
-/

namespace ArcSwap

variable {cfg : Config} {tls : Tls} {m m' : Mem} {x : StorageId} {r : Ref} {n : NodeId} {k : ℕ}

/-! ## How far a writer has come -/

/-- How far `pay_all` has come. -/
inductive Place
  /-- It has not read the head of the list yet. -/
  | start
  /-- It visits the node, with the step `k` next: `0` is `help`, and `i + 1` the slot `i`. -/
  | visit (who : NodeId) (k : ℕ)
  /-- It has visited all nodes. -/
  | done
  deriving DecidableEq, Repr

/-- How far `pay_all` has come at its program points. -/
def PayPc.place : PayPc → Place
  | .enter | .prepay | .head => .start
  | .reserve who | .helpInUse who | .helpIdle _ who | .helpControl _ who | .helpAddr _ who _
  | .helpRecheck _ who _ | .helpTheirs _ who _ _ | .helpMine _ who _ _ _
  | .helpWrite _ who _ _ _ _ | .helpCas _ who _ _ _ _ => .visit who 0
  | .helpTake _ who _ => .visit who 1
  | .slot who i => .visit who (i + 1)
  | .slotInc who i => .visit who (i + 2)
  | .unreserve who | .next who => .visit who (debtSlotCnt + 2)
  | .dropVal | .leave => .done

/-- How far `pay_all` has come while it waits for a call. In `helpRetry` it has read the control
anew: if there is no generation in it, nobody is waiting for help. -/
def Cont.place : Cont → Place
  | .payNode _ => .start
  | .helpReplacement _ _ who _ => .visit who 0
  | .helpRetry _ _ who c => .visit who (if tag c = genTag then 0 else 1)
  | _ => .done

/-- The step `k` at the node `n` is still to come. -/
def Mem.Ahead (m : Mem) (n : NodeId) (k : ℕ) : Place → Prop
  | .start => True
  | .visit who j => m.rank n < m.rank who ∨ (n = who ∧ j ≤ k)
  | .done => False

/-- The function pays for `r`, taken out of the storage `x`, and comes to the step `k` at the
node `n` yet. -/
def Active.Reaches (m : Mem) (x : StorageId) (r : Ref) (n : NodeId) (k : ℕ) : Active → Prop
  | .payAll f pc => f.storage = x ∧ f.ref = r ∧ m.Ahead n k pc.place
  | _ => False

/-- The same for a suspended caller. -/
def Cont.Reaches (m : Mem) (x : StorageId) (r : Ref) (n : NodeId) (k : ℕ) : Cont → Prop
  | .payNode f => f.storage = x ∧ f.ref = r
  | .helpReplacement f me who c =>
    f.storage = x ∧ f.ref = r ∧ m.Ahead n k (Cont.helpReplacement f me who c).place
  | .helpRetry f me who c =>
    f.storage = x ∧ f.ref = r ∧ m.Ahead n k (Cont.helpRetry f me who c).place
  | _ => False

/-- The function `a` on the callers `ks` pays for `r` and comes to the step yet. -/
def ReachesIn (m : Mem) (x : StorageId) (r : Ref) (n : NodeId) (k : ℕ) (a : Active)
    (ks : List Cont) : Prop :=
  a.Reaches m x r n k ∨ ∃ q ∈ ks, q.Reaches m x r n k

/-- The thread pays for `r` and comes to the step yet. -/
def Thread.Reaches (m : Mem) (x : StorageId) (r : Ref) (n : NodeId) (k : ℕ) (th : Thread) : Prop :=
  ReachesIn m x r n k th.active th.conts

/-- There is nothing to do at the step `k` at the node `n` for a writer that pays for `r`, taken
out of `x`. -/
def Mem.Settled (m : Mem) (x : StorageId) (r : Ref) (n : NodeId) : ℕ → Prop
  | 0 => tag (m.control n) = genTag → m.activeAddr n ≠ x
  | i + 1 => ¬ m.Owes ⟨n, i⟩ r

/-- A helper that has found another storage looks at the control again. -/
def Active.Rechecked (m : Mem) : Active → Prop
  | .payAll f (.helpRecheck _ who c) => m.control who = c → m.activeAddr who ≠ f.storage
  | _ => True

/-! ## Being ahead -/

theorem Mem.Ahead.mono {p : Place} {k' : ℕ} (h : m.Ahead n k p) (hk : k ≤ k') : m.Ahead n k' p := by
  cases p with
  | start => trivial
  | visit who j => exact h.imp_right fun h => ⟨h.1, h.2.trans hk⟩
  | done => exact h

theorem Mem.Ahead.grows {p : Place} (h : m.Ahead n k p) (hg : m.Grows m') (hn : m.Listed n)
    (hp : ∀ who j, p = .visit who j → m.Listed who) : m'.Ahead n k p := by
  cases p with
  | start => trivial
  | visit who j =>
    rw [Mem.Ahead, hg n hn, hg who (hp who j rfl)]
    exact h
  | done => exact h

theorem Cont.Reaches.mono {q : Cont} {k' : ℕ} (h : q.Reaches m x r n k) (hk : k ≤ k') :
    q.Reaches m x r n k' := by
  cases q with
  | payNode => exact h
  | helpReplacement | helpRetry => exact ⟨h.1, h.2.1, h.2.2.mono hk⟩
  | _ => exact h.elim

theorem Active.Reaches.mono {a : Active} {k' : ℕ} (h : a.Reaches m x r n k) (hk : k ≤ k') :
    a.Reaches m x r n k' := by
  cases a with
  | payAll => exact ⟨h.1, h.2.1, h.2.2.mono hk⟩
  | _ => exact h.elim

theorem Thread.Reaches.mono {th : Thread} {k' : ℕ} (h : th.Reaches m x r n k) (hk : k ≤ k') :
    th.Reaches m x r n k' :=
  h.imp (fun h => h.mono hk) fun ⟨q, hq, h⟩ => ⟨q, hq, h.mono hk⟩

theorem PayPc.place_visits {pc : PayPc} {who : NodeId} {j : ℕ} (h : pc.place = .visit who j) :
    who ∈ pc.visits := by
  cases pc <;> simp_all [PayPc.place, PayPc.visits]

theorem Cont.place_visits {q : Cont} {who : NodeId} {j : ℕ} (h : q.place = .visit who j) :
    who ∈ q.visits := by
  cases q <;> simp_all [Cont.place, Cont.visits]

theorem Active.Reaches.grows {a : Active} (h : a.Reaches m x r n k) (hg : m.Grows m')
    (hn : m.Listed n) (hv : ∀ n ∈ a.visits, m.Listed n) : a.Reaches m' x r n k := by
  cases a with
  | payAll f pc =>
    exact ⟨h.1, h.2.1, h.2.2.grows hg hn fun who j hp =>
      hv who (Multiset.mem_add.mpr (.inr (PayPc.place_visits hp)))⟩
  | _ => exact h.elim

theorem Cont.Reaches.grows {q : Cont} (h : q.Reaches m x r n k) (hg : m.Grows m')
    (hn : m.Listed n) (hv : ∀ n ∈ q.visits, m.Listed n) : q.Reaches m' x r n k := by
  cases q with
  | payNode => exact h
  | helpReplacement | helpRetry =>
    exact ⟨h.1, h.2.1, h.2.2.grows hg hn fun who j hp => hv who (Cont.place_visits hp)⟩
  | _ => exact h.elim

theorem mem_contVisits {ks : List Cont} {q : Cont} (hq : q ∈ ks) (hn : n ∈ q.visits) :
    n ∈ contVisits ks := by
  induction ks with
  | nil => simp at hq
  | cons q' ks ih =>
    rw [contVisits_cons, Multiset.mem_add]
    rcases List.mem_cons.mp hq with rfl | hq
    · exact .inl hn
    · exact .inr (ih hq)

theorem Thread.Reaches.grows {th : Thread} (h : th.Reaches m x r n k) (hg : m.Grows m')
    (hn : m.Listed n) (hv : ∀ n ∈ th.visits, m.Listed n) : th.Reaches m' x r n k := by
  simp only [Thread.visits, Multiset.mem_add] at hv
  rcases h with h | ⟨q, hq, h⟩
  · exact .inl (h.grows hg hn fun n hn => hv n (.inl (.inr hn)))
  · exact .inr ⟨q, hq, h.grows hg hn fun n hn => hv n (.inr (mem_contVisits hq hn))⟩

/-! ## One clause -/

@[simp] theorem reachesIn_nil {a : Active} :
    ReachesIn m x r n k a [] ↔ a.Reaches m x r n k := by
  simp [ReachesIn]

@[simp] theorem reachesIn_cons {a : Active} {q : Cont} {ks : List Cont} :
    ReachesIn m x r n k a (q :: ks) ↔ q.Reaches m x r n k ∨ ReachesIn m x r n k a ks := by
  simp only [ReachesIn, List.mem_cons, exists_eq_or_imp]
  tauto

/-- The slots of a node are visited one after the other. -/
theorem PayFrame.nextSlot_reaches {f : PayFrame} {who : NodeId} {i : ℕ}
    (h : m.rank n < m.rank who ∨ (n = who ∧ i + 2 ≤ k)) (hi : i ≤ debtSlotCnt) :
    (f.nextSlot who i).Reaches m f.storage f.ref n k := by
  unfold PayFrame.nextSlot
  split
  · exact ⟨rfl, rfl, h⟩
  · refine ⟨rfl, rfl, h.imp_right fun h => ⟨h.1, ?_⟩⟩
    omega

/-- The loop of `help` is left when there is no generation in the control. -/
theorem Dispatched.reaches {f : PayFrame} {me who : NodeId} {c : ℕ} {a : Active}
    (h : Dispatched f me who c a) (hr : ∀ w, a ≠ .failed w)
    (ha : m.Ahead n k (.visit who (if tag c = genTag then 0 else 1))) :
    a.Reaches m f.storage f.ref n k := by
  cases h with
  | pass h =>
    refine ⟨rfl, rfl, ?_⟩
    rw [if_neg] at ha
    · exact ha
    · rcases h with rfl | h
      · decide
      · rw [h]
        decide
  | gen h =>
    refine ⟨rfl, rfl, ?_⟩
    rwa [if_pos h] at ha
  | myself | invalid => simp at hr

/-- After the node comes the next one in the list. -/
theorem Mem.Chain.ahead_next {who n' : NodeId} {j : ℕ} (hm : m.Chain) (hn : m.Listed n)
    (hw : m.Listed who) (h : m.next who = some n')
    (ha : m.Ahead n k (.visit who j)) (hj : k < j) : m.Ahead n k (.visit n' 0) := by
  obtain ⟨hr, -⟩ := hm.next who n' hw h
  rcases ha with ha | ⟨-, ha⟩
  · rcases Nat.lt_or_eq_of_le (show m.rank n ≤ m.rank n' by omega) with hlt | heq
    · exact .inl hlt
    · exact .inr ⟨hm.inj n n' hn heq, Nat.zero_le k⟩
  · omega

/-- **A writer comes to every step that is ahead of it**: after a clause of `pay_all` the step is
still ahead, or there was nothing to do any more. -/
theorem PayClause.reaches {f : PayFrame} {pc : PayPc} {o : Out} (h : PayClause tls m f pc o)
    (hok : (Active.payAll f pc).Ok cfg tls) (hm : m.Chain) (hv : ∀ n ∈ pc.visits, m.Listed n)
    (hc : (Active.payAll f pc).Rechecked m) (hr : ∀ w, o.active ≠ .failed w) (hn : m.Listed n)
    (hk : k ≤ debtSlotCnt + 1) (ha : m.Ahead n k pc.place) :
    ReachesIn o.mem f.storage f.ref n k o.active o.calls ∨ o.mem.Settled f.storage f.ref n k := by
  -- the control has been read: help is over if there is no generation in it
  have key : ∀ {who}, m.Ahead n k (.visit who 0) →
      m.Ahead n k (.visit who (if tag (m.control who) = genTag then 0 else 1)) ∨
        m.Settled f.storage f.ref n k := by
    intro who ha
    rcases ha with ha | ⟨rfl, -⟩
    · exact .inl (.inl ha)
    · split
      · exact .inl (.inr ⟨rfl, Nat.zero_le k⟩)
      · rename_i hg
        cases k with
        | zero => exact .inr fun h => absurd h hg
        | succ k => exact .inl (.inr ⟨rfl, by omega⟩)
  cases h with
  | noNode | notUsed | helperBusy | misaligned => simp at hr
  | enter | prepay => exact .inl (.inl ⟨rfl, rfl, trivial⟩)
  | enterGet => exact .inl (reachesIn_cons.mpr (.inl ⟨rfl, rfl⟩))
  | headNone h =>
    have := hm.le n
    rw [hm.headNone h] at this
    exact absurd hn (by simp [Mem.Listed]; omega)
  | @head n' h =>
    refine .inl (.inl ⟨rfl, rfl, ?_⟩)
    have hle := hm.le n
    rw [← (hm.head n' h).1] at hle
    rcases Nat.lt_or_eq_of_le hle with hlt | heq
    · exact .inl hlt
    · exact .inr ⟨hm.inj n n' hn heq, Nat.zero_le k⟩
  | helpControl h => exact (key ha).imp_left fun ha => .inl (h.reaches hr ha)
  | @helpChanged _ who c _ hne h => exact (key ha).imp_left fun ha => .inl (h.reaches hr ha)
  | helpAddr => exact .inl (reachesIn_cons.mpr (.inr (reachesIn_cons.mpr (.inl ⟨rfl, rfl, ha⟩))))
  | @helpRecheck me who c h =>
    rcases ha with ha | ⟨rfl, -⟩
    · exact .inl (.inl ⟨rfl, rfl, .inl ha⟩)
    · cases k with
      | zero => exact .inr fun _ => hc h
      | succ k => exact .inl (.inl ⟨rfl, rfl, .inr ⟨rfl, by omega⟩⟩)
  | @helpCas me who c q theirs mine h =>
    rcases ha with ha | ⟨rfl, -⟩
    · exact .inl (.inl ⟨rfl, rfl, .inl ha⟩)
    · cases k with
      | zero =>
        refine .inr fun hg => ?_
        have hw : tag (replacementWord mine) = genTag := by simpa using hg
        rw [hok.2.2.2.2.tag_replacementWord] at hw
        exact absurd hw (by decide)
      | succ k => exact .inl (.inl ⟨rfl, rfl, .inr ⟨rfl, by omega⟩⟩)
  | helpLate => exact (key ha).imp_left fun ha => reachesIn_cons.mpr (.inl ⟨rfl, rfl, ha⟩)
  | @slot who i ho =>
    rcases ha with ha | ⟨rfl, ha⟩
    · exact .inl (.inl ⟨rfl, rfl, .inl ha⟩)
    · by_cases hki : k = i + 1
      · subst hki
        exact .inr (by simp [Mem.Settled, Mem.Owes])
      · exact .inl (.inl ⟨rfl, rfl, .inr ⟨rfl, by omega⟩⟩)
  | @slotOther who i ho =>
    rcases ha with ha | ⟨rfl, ha⟩
    · exact .inl (.inl (PayFrame.nextSlot_reaches (.inl ha) hok.2.2))
    · by_cases hki : k = i + 1
      · subst hki
        exact .inr ho
      · exact .inl (.inl (PayFrame.nextSlot_reaches (.inr ⟨rfl, by omega⟩) hok.2.2))
  | slotInc => exact .inl (.inl (PayFrame.nextSlot_reaches ha hok.2.2))
  | @nextNone who h =>
    have hw := hv who (by simp [PayPc.visits])
    have h₁ := hm.nextNone who hw h
    rcases ha with ha | ⟨-, ha⟩
    · exact absurd hn (by simp only [Mem.Listed]; omega)
    · omega
  | @next who n' h =>
    have hw := hv who (by simp [PayPc.visits])
    exact .inl (.inl ⟨rfl, rfl, hm.ahead_next hn hw h ha (by omega)⟩)
  | dropVal | leave | leaveTmp => exact ha.elim
  | _ => exact .inl (.inl ⟨rfl, rfl, ha⟩)

/-! ## Storages -/

/-- The storage exists and holds `r`. -/
def Mem.Stores (cfg : Config) (m : Mem) (x : StorageId) (r : Ref) : Prop :=
  x ∈ m.live ∧ (⟨cfg.kind x, m.ptr x⟩ : Ref) = r

/-- Another pointer in another storage. -/
theorem Mem.Stores.setPtr {y : StorageId} {p : Addr} {call : ℕ} (h : m.Stores cfg x r)
    (hne : x ≠ y) : (m.setPtr y p call).Stores cfg x r := by
  refine ⟨h.1, ?_⟩
  rw [← h.2, Mem.setPtr_ptr, Function.update_of_ne hne]

/-- Whoever takes a pointer out of a storage pays for it. -/
theorem Clause.stores {a : Active} {o : Out} (h : Clause cfg tls m a o) (hok : a.Ok cfg tls)
    (hs : m.Stores cfg x r) :
    o.mem.Stores cfg x r ∨ ReachesIn o.mem x r n k o.active o.calls := by
  cases h with
  | get h | cooldown h | dec h | intoInner h | dropGuard h | load h | payAll h =>
    cases h <;> exact .inl hs
  | @swap f =>
    by_cases hx : x = f.storage
    · subst hx
      exact .inr (.inl ⟨rfl, hs.2, trivial⟩)
    · exact .inl (hs.setPtr hx)
  | @cas f old o h =>
    cases h with
    | late => exact .inl hs
    | swapped h =>
      by_cases hx : x = f.storage
      · subst hx
        refine .inr (.inl ⟨rfl, ?_, trivial⟩)
        rw [← hs.2, h, ← hok.2.2, ← hok.2.1.1]
        rfl
      · exact .inl (hs.setPtr hx)

/-! ## Debts that are not confirmed -/

/-- The function has put `r` into the slot and has not decided yet whether the slot keeps it. -/
def Active.Unconfirmed (cfg : Config) (d : SlotId) (r : Ref) : Active → Prop
  | .load f (.confirm p d') | .load f (.unclaim p d') => d' = d ∧
    (⟨cfg.kind f.storage, p⟩ : Ref) = r
  | .load f (.closeControl n _ p) | .load f (.takeEnvelope n _ p _)
  | .load f (.keepEnvelope n p _ _) | .load f (.payUnused n p _) =>
    helpingSlot n = d ∧ (⟨cfg.kind f.storage, p⟩ : Ref) = r
  | _ => False

/-- The function has chosen the candidate `p` from the storage, in a transaction of the node. -/
def Active.Chooses (n : NodeId) (x : StorageId) (p : Addr) : Active → Prop
  | .load f (.confirmHelping n' _ p') | .load f (.offerDebt n' _ p')
  | .load f (.closeControl n' _ p') => n' = n ∧ f.storage = x ∧ p' = p
  | _ => False

theorem Active.Chooses.publishes {a : Active} {p : Addr} (h : a.Chooses n x p) : a.Publishes n := by
  cases a with
  | load f pc => cases pc <;> first | exact h.1 | exact h.elim
  | _ => exact h.elim

theorem Active.Chooses.needs {a : Active} {p : Addr} (h : a.Chooses n x p) : a.needs? = some x := by
  cases a with
  | load f pc =>
    cases pc <;> first
      | exact h.elim
      | (rw [← h.2.1]; rfl)
  | _ => exact h.elim

/-- A debt is confirmed when the storage still holds the pointer, or when nobody has replaced the
generation. -/
inductive Confirms (cfg : Config) (m : Mem) (a : Active) (d : SlotId) (r : Ref) : Prop
  | stored {x : StorageId} (hx : a.needs? = some x) (h : (⟨cfg.kind x, m.ptr x⟩ : Ref) = r)
  | chosen {n : NodeId} {x : StorageId} {p : Addr} (hd : helpingSlot n = d)
    (hp : (⟨cfg.kind x, p⟩ : Ref) = r)
    (hg : tag (m.control n) = genTag) (h : a.Chooses n x p)

theorem Mem.slot_setSlot_none {d d' : SlotId} {v : Ref} (h : (m.setSlot d' none).slot d = some v) :
    d ≠ d' ∧ m.slot d = some v := by
  by_cases hd : d = d'
  · simp [hd] at h
  · exact ⟨hd, by simpa [hd] using h⟩

/-- A slot that contains a pointer has just been filled, or it has been filled before and its debt
is confirmed now, or nothing happens to it. -/
theorem Clause.confirms {a : Active} {o : Out} {d : SlotId} (h : Clause cfg tls m a o)
    (hok : a.Ok cfg tls) (hr : ∀ w, o.active ≠ .failed w) (hs : o.mem.slot d = some r) :
    o.active.Unconfirmed cfg d r ∨
      (m.slot d = some r ∧ (a.Unconfirmed cfg d r → Confirms cfg m a d r)) := by
  cases h with
  | get h | cooldown h | cas h | dec h => cases h <;> exact .inr ⟨hs, False.elim⟩
  | swap => exact .inr ⟨hs, False.elim⟩
  | intoInner h | dropGuard h =>
    cases h <;> first
      | exact .inr ⟨hs, False.elim⟩
      | exact .inr ⟨(Mem.slot_setSlot_none hs).2, False.elim⟩
  | payAll h =>
    cases h <;> first
      | exact .inr ⟨hs, False.elim⟩
      | exact .inr ⟨(Mem.slot_setSlot_none hs).2, False.elim⟩
  | @load f pc o h =>
    cases h with
    | closeInvalid | noNode | notUsed => simp at hr
    | @claim n p j =>
      by_cases hd : d = ⟨n, j⟩
      · subst hd
        exact .inl ⟨rfl, by simpa using hs⟩
      · exact .inr ⟨by simpa [hd] using hs, False.elim⟩
    | confirm h =>
      exact .inr ⟨hs, fun hu => .stored rfl (by rw [← hu.2, h])⟩
    | @confirmChanged p d' =>
      by_cases hu : d' = d ∧ (⟨cfg.kind f.storage, p⟩ : Ref) = r
      · exact .inl hu
      · exact .inr ⟨hs, fun h => absurd h hu⟩
    | unclaim =>
      obtain ⟨hne, hs⟩ := Mem.slot_setSlot_none hs
      exact .inr ⟨hs, fun hu => absurd hu.1.symm hne⟩
    | unclaimLate ho =>
      refine .inr ⟨hs, fun hu => absurd ?_ ho⟩
      rw [Mem.Owes, hu.1, hs, ← hu.2]
      rfl
    | @offerDebt n gen p =>
      by_cases hd : d = helpingSlot n
      · subst hd
        exact .inl ⟨rfl, by simpa using hs⟩
      · exact .inr ⟨by simpa [hd] using hs, False.elim⟩
    | @closeControl n gen p h =>
      refine .inr ⟨hs, fun hu => .chosen hu.1 hu.2 ?_ ⟨rfl, rfl, rfl⟩⟩
      rw [h]
      exact hok.2.2.tag_genWord
    | @closeReplaced n gen p | @takeEnvelope n gen p | @keepEnvelope n p =>
      by_cases hu : helpingSlot n = d ∧ (⟨cfg.kind f.storage, p⟩ : Ref) = r
      · exact .inl hu
      · exact .inr ⟨hs, fun h => absurd h hu⟩
    | payUnused =>
      obtain ⟨hne, hs⟩ := Mem.slot_setSlot_none hs
      exact .inr ⟨hs, fun hu => absurd hu.1.symm hne⟩
    | payUnusedLate ho =>
      refine .inr ⟨hs, fun hu => absurd ?_ ho⟩
      rw [Mem.Owes, hu.1, hs, ← hu.2]
      rfl
    | _ => exact .inr ⟨hs, False.elim⟩

/-- A candidate is what the storage holds when it is loaded. -/
theorem Clause.chooses {a : Active} {o : Out} {p : Addr} (h : Clause cfg tls m a o)
    (hok : a.Ok cfg tls) (hc : o.active.Chooses n x p) :
    (a.needs? = some x ∧ m.ptr x = p ∧ o.mem = m) ∨
      (a.Chooses n x p ∧ o.mem.control n = m.control n) := by
  cases h with
  | get h | cooldown h | cas h | dec h | intoInner h | dropGuard h => cases h <;> exact hc.elim
  | swap => exact hc.elim
  | payAll h =>
    cases h with
    | helpControl h | helpChanged _ h => cases h <;> exact hc.elim
    | slotOther | slotInc =>
      simp only [PayFrame.nextSlot] at hc
      split at hc <;> exact hc.elim
    | _ => exact hc.elim
  | load h =>
    cases h with
    | enter =>
      simp only [LoadFrame.begin] at hc
      split at hc <;> exact hc.elim
    | candidate => exact .inl ⟨by rw [← hc.2.1]; rfl, by rw [← hc.2.1]; exact hc.2.2, rfl⟩
    | @confirmHelping n₁ n' gen p h =>
      obtain rfl : n₁ = n' := by
        have := hok.2.1.symm.trans h
        simpa using this
      exact .inr ⟨hc, rfl⟩
    | offerDebt => exact .inr ⟨hc, rfl⟩
    | _ => exact hc.elim

/-- Slots are filled on listed nodes only. -/
theorem Clause.slots {a : Active} {o : Out} {d : SlotId} (h : Clause cfg tls m a o)
    (hok : a.Ok cfg tls) (hs : o.mem.slot d = some r) :
    m.slot d = some r ∨ (d.node ∈ tls.head.nodes + a.visits ∧ d.idx ≤ debtSlotCnt) := by
  cases h with
  | get h | cooldown h | cas h | dec h => cases h <;> exact .inl hs
  | swap => exact .inl hs
  | intoInner h | dropGuard h | payAll h =>
    cases h <;> first
      | exact .inl hs
      | exact .inl (Mem.slot_setSlot_none hs).2
  | load h =>
    cases h with
    | @claim n p j =>
      by_cases hd : d = ⟨n, j⟩
      · subst hd
        exact .inr ⟨hok.2.1.mem, hok.2.2.le⟩
      · exact .inl (by simpa [hd] using hs)
    | unclaim | payUnused => exact .inl (Mem.slot_setSlot_none hs).2
    | @offerDebt n gen p =>
      by_cases hd : d = helpingSlot n
      · subst hd
        exact .inr ⟨hok.2.1.mem, le_rfl⟩
      · exact .inl (by simpa [hd] using hs)
    | _ => exact .inl hs

theorem Dispatched.rechecked {f : PayFrame} {me who : NodeId} {c : ℕ} {a : Active}
    (h : Dispatched f me who c a) : a.Rechecked m := by
  cases h <;> trivial

theorem PayFrame.nextSlot_rechecked (f : PayFrame) (who : NodeId) (i : ℕ) :
    (f.nextSlot who i).Rechecked m := by
  unfold PayFrame.nextSlot
  split <;> trivial

theorem LoadFrame.begin_rechecked (f : LoadFrame) : (f.begin cfg).Rechecked m := by
  unfold LoadFrame.begin
  split <;> trivial

theorem Clause.rechecked {a : Active} {o : Out} (h : Clause cfg tls m a o) :
    o.active.Rechecked o.mem := by
  cases h with
  | get h | cooldown h | cas h | dec h | intoInner h | dropGuard h => cases h <;> trivial
  | swap => trivial
  | load h =>
    cases h with
    | enter => exact LoadFrame.begin_rechecked _
    | _ => trivial
  | payAll h =>
    cases h with
    | helpControl h | helpChanged _ h => exact h.rechecked
    | slotOther | slotInc => exact PayFrame.nextSlot_rechecked _ _ _
    | helpAddrOther h => exact fun _ => h
    | _ => trivial

/-! ## One step -/

section Run

variable {T : Type*} {s s' : State T} {t : T} {th' : Thread} {o' : Multiset Ref}
  {g' : Multiset Guard}

/-- A writer that waits for a call comes to the steps that are ahead of it when the call returns. -/
theorem Resumed.reaches {q : Cont} {v : Ret} {o : Out} (h : Resumed cfg tls m q v o)
    (hr : ∀ w, o.active ≠ .failed w) (ha : q.Reaches m x r n k) :
    ReachesIn o.mem x r n k o.active o.calls := by
  cases h with
  | payNode | payTmp => exact .inl ⟨ha.1, ha.2, trivial⟩
  | helpReplacement => exact .inl ha
  | helpRetry h =>
    obtain ⟨rfl, rfl, ha⟩ := ha
    exact .inl (h.reaches hr ha)
  | _ => exact ha.elim

theorem ReachesIn.append {a : Active} {ks ks' : List Cont} (h : ReachesIn m x r n k a ks) :
    ReachesIn m x r n k a (ks ++ ks') :=
  h.imp_right fun ⟨q, hq, h⟩ => ⟨q, List.mem_append_left _ hq, h⟩

/-- A step of a writer: what was ahead of it is so still, or there is nothing to do any more. -/
theorem Move.reaches (h : Move cfg s t m' th' o' g') (ht : (s.thread t).Typed cfg)
    (hm : s.mem.Chain) (hw : (s.thread t).Walks s.mem) (hg : s.mem.Grows m')
    (hc : (s.thread t).active.Rechecked s.mem) (hr : ∀ w, th'.active ≠ .failed w)
    (hn : s.mem.Listed n) (hk : k ≤ debtSlotCnt + 1) (ha : (s.thread t).Reaches s.mem x r n k) :
    th'.Reaches m' x r n k ∨ m'.Settled x r n k := by
  have hv := hw.visits
  simp only [Thread.visits, Multiset.mem_add] at hv
  have hconts : ∀ q ∈ (s.thread t).conts, q.Reaches s.mem x r n k → q.Reaches m' x r n k :=
    fun q hq h => h.grows hg hn fun n hn => hv n (.inr (mem_contVisits hq hn))
  cases h with
  | @code o h =>
    rcases ha with ha | ⟨q, hq, ha⟩
    · cases hact : (s.thread t).active with
      | payAll f pc =>
        have hok := ht.active
        rw [hact] at h ha hok hc
        obtain ⟨rfl, rfl, ha⟩ := ha
        cases h with
        | payAll h =>
          refine (h.reaches hok hm (fun n hn => hv n (.inl (.inr ?_))) hc hr hn hk ha).imp_left
            fun h => h.append
          rw [hact]
          exact Multiset.mem_add.mpr (.inr hn)
      | _ =>
        rw [hact] at ha
        exact ha.elim
    · exact .inl (.inr ⟨q, List.mem_append_right _ hq, hconts q hq ha⟩)
  | @resume c v q ks o hact hks h =>
    rcases ha with ha | ⟨q', hq, ha⟩
    · rw [hact] at ha
      exact ha.elim
    · have hq' := hconts q' hq ha
      rw [hks] at hq
      rcases List.mem_cons.mp hq with rfl | hq
      · exact .inl (h.reaches hr ha).append
      · exact .inl (.inr ⟨q', List.mem_append_right _ hq, hq'⟩)
  | @receive c v u c' ks hact hks =>
    rcases ha with ha | ⟨q, hq, ha⟩
    · rw [hact] at ha
      exact ha.elim
    · rw [hks] at hq
      rcases List.mem_cons.mp hq with rfl | hq
      · exact ha.elim
      · exact .inl (.inr ⟨q, hq, ha⟩)
  | user hact h =>
    rcases ha with ha | ⟨q, hq, ha⟩
    · rw [hact] at ha
      exact ha.elim
    · refine .inl (.inr ⟨q, ?_, hconts q hq ha⟩)
      cases h with
      | alloc | clone | fromInner | new | exitEmpty | destroyed | result | panic => exact hq
      | exit hk =>
        rw [hk] at hq
        exact absurd hq List.not_mem_nil
      | _ => exact List.mem_append_right _ (List.mem_cons_of_mem _ hq)

/-- Whoever takes a pointer out of a storage, or the storage away, pays for it. -/
theorem Move.stores (h : Move cfg s t m' th' o' g') (ht : (s.thread t).Typed cfg)
    (hs : s.mem.Stores cfg x r) : m'.Stores cfg x r ∨ th'.Reaches m' x r n k := by
  cases h with
  | code h => exact (h.stores ht.active hs).imp_right fun h => h.append
  | resume _ _ h => exact .inl (h.mem_eq ▸ hs)
  | receive => exact .inl hs
  | user _ h =>
    cases h with
    | @new y p hy =>
      have hne : x ≠ y := fun he => hy (he ▸ hs.1)
      exact .inl ⟨Finset.mem_insert_of_mem hs.1, by rw [← hs.2]; simp [hne]⟩
    | @consume y | @dropStorage y =>
      by_cases hxy : x = y
      · subst hxy
        exact .inr (.inl ⟨rfl, hs.2, trivial⟩)
      · exact .inl ⟨Finset.mem_erase.mpr ⟨hxy, hs.1⟩, hs.2⟩
    | _ => exact .inl hs

theorem Move.confirms {d : SlotId} (h : Move cfg s t m' th' o' g') (ht : (s.thread t).Typed cfg)
    (hr : ∀ w, th'.active ≠ .failed w) (hs : m'.slot d = some r) :
    th'.active.Unconfirmed cfg d r ∨ (s.mem.slot d = some r ∧
      ((s.thread t).active.Unconfirmed cfg d r → Confirms cfg s.mem (s.thread t).active d r)) := by
  cases h with
  | code h => exact h.confirms ht.active hr hs
  | resume ha _ h =>
    rw [h.mem_eq] at hs
    exact .inr ⟨hs, by rw [ha]; exact False.elim⟩
  | receive ha => exact .inr ⟨hs, by rw [ha]; exact False.elim⟩
  | user ha h =>
    rw [h.frame.1] at hs
    exact .inr ⟨hs, by rw [ha]; exact False.elim⟩

theorem Resumed.not_chooses {q : Cont} {v : Ret} {o : Out} {p : Addr}
    (h : Resumed cfg tls m q v o) :
    ¬ o.active.Chooses n x p := by
  cases h with
  | loadNode | loadTmp =>
    simp only [LoadFrame.begin]
    split <;> exact id
  | helpRetry h => cases h <;> exact id
  | _ => exact id

theorem Move.chooses {p : Addr} (h : Move cfg s t m' th' o' g') (ht : (s.thread t).Typed cfg)
    (hc : th'.active.Chooses n x p) :
    ((s.thread t).active.needs? = some x ∧ s.mem.ptr x = p ∧ m' = s.mem) ∨
      ((s.thread t).active.Chooses n x p ∧ m'.control n = s.mem.control n) := by
  cases h with
  | code h => exact h.chooses ht.active hc
  | resume _ _ h => exact absurd hc h.not_chooses
  | receive => exact hc.elim
  | user ha h =>
    cases h with
    | alloc | clone | fromInner | new | exitEmpty =>
      rw [ha] at hc
      exact hc.elim
    | _ => exact hc.elim

theorem Move.slots {d : SlotId} (h : Move cfg s t m' th' o' g') (ht : (s.thread t).Typed cfg)
    (hs : m'.slot d = some r) :
    s.mem.slot d = some r ∨ (d.node ∈ (s.thread t).visits ∧ d.idx ≤ debtSlotCnt) := by
  cases h with
  | code h =>
    exact (h.slots ht.active hs).imp_right fun h => ⟨Multiset.mem_add.mpr (.inl h.1), h.2⟩
  | resume _ _ h => exact .inl (h.mem_eq ▸ hs)
  | receive => exact .inl hs
  | user _ h => exact .inl (h.frame.1 ▸ hs)

theorem Move.rechecked (h : Move cfg s t m' th' o' g') : th'.active.Rechecked m' := by
  cases h with
  | code h => exact h.rechecked
  | resume _ _ h =>
    cases h with
    | loadNode | loadTmp => exact LoadFrame.begin_rechecked _
    | helpRetry h => exact h.rechecked
    | _ => trivial
  | receive => trivial
  | user ha h =>
    cases h with
    | alloc | clone | fromInner | new | exitEmpty =>
      rw [ha]
      trivial
    | _ => trivial

/-! ## Coverage in a run -/

/-- The storage still holds `r`, or a writer that pays for it comes to the step yet. -/
def State.Reaches (cfg : Config) (s : State T) (x : StorageId) (r : Ref) (n : NodeId) (k : ℕ) :
    Prop :=
  s.mem.Stores cfg x r ∨ ∃ t, (s.thread t).Reaches s.mem x r n k

/-- Debts and candidates are taken care of. -/
structure State.Covering (cfg : Config) (s : State T) : Prop where
  slots : ∀ d r, s.mem.slot d = some r → s.mem.Listed d.node ∧ d.idx ≤ debtSlotCnt
  rechecked : ∀ t, (s.thread t).active.Rechecked s.mem
  chosen : ∀ t n x p, (s.thread t).active.Chooses n x p → tag (s.mem.control n) = genTag →
    s.Reaches cfg x ⟨cfg.kind x, p⟩ n 0
  debts : ∀ d r, s.mem.slot d = some r → (∃ t, (s.thread t).active.Unconfirmed cfg d r) ∨
    ∃ x, s.Reaches cfg x r d.node (d.idx + 1)

theorem State.init_covering : (State.init : State T).Covering cfg where
  slots d r h := by simp [State.init, Mem.empty] at h
  rechecked t := trivial
  chosen t n x p h := h.elim
  debts d r h := by simp [State.init, Mem.empty] at h

theorem State.Reaches.mono {k' : ℕ} (h : s.Reaches cfg x r n k) (hk : k ≤ k') :
    s.Reaches cfg x r n k' :=
  h.imp_right fun ⟨t, h⟩ => ⟨t, h.mono hk⟩

variable [Fintype T] [DecidableEq T]

/-- **A writer misses nothing**: in every step, a storage that holds `r` keeps it or a writer takes
it out; and what is ahead of a writer stays ahead until there is nothing to do any more. -/
theorem State.Reaches.step {c : Choice} (ha : s.Reaches cfg x r n k) (h : s.Sound cfg)
    (hc : ∀ t, (s.thread t).active.Rechecked s.mem) (hw : s.NoWrap t) (hn : s.mem.Listed n)
    (hk : k ≤ debtSlotCnt + 1) (hs : s.step cfg t c = some s') :
    s'.Reaches cfg x r n k ∨ s'.mem.Settled x r n k := by
  have hrun' := (h.step hw hs).running t
  obtain ⟨m', th', o', g', hm, rfl⟩ := State.step_move hs
  have hrun : ∀ w, th'.active ≠ .failed w := by simpa [State.moved] using hrun'
  obtain ⟨-, hgrows, -, -⟩ := hm.chain (h.typed t) h.chain (h.walks t)
  have hself : th'.Reaches m' x r n k → (s.moved t m' th' o' g').Reaches cfg x r n k := fun ha =>
    .inr ⟨t, by simpa [State.moved] using ha⟩
  rcases ha with ha | ⟨t', ha⟩
  · rcases hm.stores (n := n) (k := k) (h.typed t) ha with ha | ha
    · exact .inl (.inl ha)
    · exact .inl (hself ha)
  · by_cases ht : t' = t
    · subst ht
      exact (hm.reaches (h.typed t') h.chain (h.walks t') hgrows (hc t') hrun hn hk ha).imp_left
        hself
    · refine .inl (.inr ⟨t', ?_⟩)
      simpa [State.moved, ht] using ha.grows hgrows hn (h.walks t').visits

/-- **Debts and candidates stay taken care of.** -/
theorem State.Covering.step {c : Choice} (hv : s.Covering cfg) (h : s.Sound cfg)
    (hb : s.Borrowing) (hw : s.NoWrap t) (hi : s.NoReissue t) (hs : s.step cfg t c = some s') :
    s'.Covering cfg := by
  have hsound' := h.step hw hs
  have hreach : ∀ {x r n k}, s.Reaches cfg x r n k → s.mem.Listed n → k ≤ debtSlotCnt + 1 →
      s'.Reaches cfg x r n k ∨ s'.mem.Settled x r n k :=
    fun ha hn hk => ha.step h hv.rechecked hw hn hk hs
  obtain ⟨m', th', o', g', hm, rfl⟩ := State.step_move hs
  have ht := h.typed t
  have hrun : ∀ w, th'.active ≠ .failed w := by simpa [State.moved] using hsound'.running t
  obtain ⟨-, hgrows, -, -⟩ := hm.chain ht h.chain (h.walks t)
  have hwatched : ∀ t' n c, (s.thread t').Watches n c → tag c = genTag → m'.control n = c →
      Watched s.mem m' n := fun t' n c hn hg =>
    hm.watched ht hg (fun hi' => hi n c hi' t' hn) (fun _ hk => h.publishes_self hk)
      (fun hc => h.control_lt hc)
  have hlisted : ∀ {t n x p}, (s.thread t).active.Chooses n x p → s.mem.Listed n := by
    intro t n x p hc
    have hmem := (h.typed t).active.publishes_mem hc.publishes
    refine (h.walks t).visits n (Multiset.mem_add.mpr (.inl ?_))
    cases hact : (s.thread t).active with
    | load f pc => rwa [hact] at hmem
    | _ =>
      rw [hact] at hc
      exact hc.elim
  refine ⟨fun d r hd => ?_, ?_, fun t' n x p hc hg => ?_, fun d r hd => ?_⟩
  case refine_1 =>
    rcases hm.slots ht hd with hd | ⟨hd, hi⟩
    · exact ⟨hgrows.listed (hv.slots d r hd).1, (hv.slots d r hd).2⟩
    · exact ⟨hgrows.listed ((h.walks t).visits _ hd), hi⟩
  case refine_2 =>
    refine State.moved_forall (P := fun th => th.active.Rechecked m') hm.rechecked fun t' _ => ?_
    have hc := hv.rechecked t'
    have hok := (h.typed t').active
    cases hact : (s.thread t').active with
    | payAll f pc =>
      cases pc with
      | helpRecheck me who c =>
        rw [hact] at hc hok
        intro hcon
        obtain ⟨h₁, h₂, -, -⟩ := hwatched t' who c (.inl (by rw [hact]; exact ⟨rfl, rfl⟩))
          hok.2.2.2 hcon
        rw [h₂]
        exact hc (h₁.trans hcon)
      | _ => trivial
    | _ => trivial
  case refine_3 =>
    -- the transaction is open: the writer has not settled it
    have hopen : (s.moved t m' th' o' g').mem.Settled x ⟨cfg.kind x, p⟩ n 0 → False := by
      intro hset
      have hn := hsound'.nodeOk t'
      refine hset hg ?_
      have hneed := hc.publishes.needs hn
      rw [hc.needs] at hneed
      exact (Option.some.inj hneed).symm
    have hold : (s.thread t').active.Chooses n x p → tag (s.mem.control n) = genTag →
        (s.moved t m' th' o' g').Reaches cfg x ⟨cfg.kind x, p⟩ n 0 := fun hc' hg' =>
      (hreach (hv.chosen t' n x p hc' hg') (hlisted hc') (Nat.zero_le _)).resolve_right hopen
    by_cases hne : t' = t
    · subst hne
      have hc' : th'.active.Chooses n x p := by simpa [State.moved] using hc
      rcases hm.chooses ht hc' with ⟨hx, hp, rfl⟩ | ⟨hc', hcon⟩
      · exact .inl ⟨hb.live t' x (.inl hx), by rw [← hp]; rfl⟩
      · exact hold hc' (hcon ▸ hg)
    · have hc' : (s.thread t').active.Chooses n x p := by simpa [State.moved, hne] using hc
      have hmem := State.Sound.mem_nodes ((h.typed t').active.publishes_mem hc'.publishes)
      refine hold hc' ?_
      rcases (hm.rely ht).control n fun hn => hne (h.owner_unique hn hmem) with hcon | ⟨hg', -⟩
      · exact hcon ▸ hg
      · exact hg'
  case refine_4 =>
    have hunset : ∀ {x}, (s.moved t m' th' o' g').mem.Settled x r d.node (d.idx + 1) → False :=
      fun hset => hset (by simp [Mem.Owes,
        show (s.moved t m' th' o' g').mem.slot d = some r from hd])
    rcases hm.confirms ht hrun hd with hu | ⟨hd', hconf⟩
    · exact .inl ⟨t, by simpa [State.moved] using hu⟩
    · obtain ⟨hn, hidx⟩ := hv.slots d r hd'
      have hcovered : ∀ {x}, s.Reaches cfg x r d.node (d.idx + 1) →
          ∃ x, (s.moved t m' th' o' g').Reaches cfg x r d.node (d.idx + 1) := fun {x} ha =>
        ⟨x, (hreach ha hn (by omega)).resolve_right hunset⟩
      rcases hv.debts d r hd' with ⟨t', hu⟩ | ⟨x, ha⟩
      · by_cases hne : t' = t
        · subst hne
          cases hconf hu with
          | @stored x hx hp => exact .inr (hcovered (x := x) (.inl ⟨hb.live t' x (.inl hx), hp⟩))
          | @chosen n x p hd₁ hp hg hc =>
            subst hd₁ hp
            exact .inr (hcovered ((hv.chosen t' n x p hc hg).mono (Nat.zero_le _)))
        · exact .inl ⟨t', by simpa [State.moved, hne] using hu⟩
      · exact .inr (hcovered ha)

/-- **Debts and candidates are taken care of in every reachable state** when no generation is used
a second time. -/
theorem State.Reachable.covering (h : s.Reachable cfg State.FreshGen) :
    (s.Sound cfg ∧ s.Borrowing) ∧ s.Covering cfg :=
  h.invariant (I := fun s => (s.Sound cfg ∧ s.Borrowing) ∧ s.Covering cfg)
    ⟨⟨init_sound, init_borrowing⟩, init_covering⟩ fun _ _ _ _ hi hp hs =>
      ⟨⟨hi.1.1.step hp.1 hs, hi.1.2.step hi.1.1 hs⟩, hi.2.step hi.1.1 hi.1.2 hp.1 hp.2 hs⟩

end Run

end ArcSwap
