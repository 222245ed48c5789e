import ArcSwap.Foundations.LinkedLists
import ArcSwap.Invariants.Scans
import ArcSwap.Invariants.Tenancy

/-!
# Every traversal is complete

The nodes in the list are those that have been prepended. The list only grows, at its head, so that
what a traversal meets is the list as it was when it loaded `LIST_HEAD`: each node once, whatever is
prepended in the meantime.
-/

namespace ArcSwap

variable {cfg : Config} {tls : Tls} {m m' : Mem} {n : NodeId} {l l' : List NodeId}
  {l₀ ks : List Cont}

/-! ## The list -/

/-- From a node of the list one meets every rank below. -/
theorem Mem.Chain.ranks (h : m.Chain) {o : Option NodeId} (hl : Leads m.next o l) {a : NodeId}
    (ho : o = some a) (ha : m.Listed a) {k : ℕ} (hk : 0 < k) (hle : k ≤ m.rank a) :
    ∃ b ∈ l, m.rank b = k := by
  induction hl generalizing a with
  | nil => cases ho
  | @cons b l hl ih =>
    cases ho
    obtain hlt | rfl := Nat.lt_or_eq_of_le hle
    · cases hx : m.next b with
      | none =>
        have := h.nextNone b ha hx
        omega
      | some b' =>
        obtain ⟨hr, hb'⟩ := h.next b b' ha hx
        obtain ⟨c, hc, hck⟩ := ih hx hb' (by omega)
        exact ⟨c, List.mem_cons_of_mem _ hc, hck⟩
    · exact ⟨b, List.mem_cons_self .., rfl⟩

/-- **The list is finite**, and its nodes are those that have been prepended. -/
theorem Mem.Chain.linked (h : m.Chain) :
    ∃ l, Leads m.next m.listHead l ∧ ∀ n, n ∈ l ↔ m.Listed n := by
  obtain ⟨l, hl, hm⟩ : ∃ l, Leads m.next m.listHead l ∧ ∀ n ∈ l, m.Listed n := by
    apply Leads.exists_of_rank m.rank
    · intro a b ha hb
      obtain ⟨hr, hl⟩ := h.next a b ha hb
      exact ⟨by omega, hl⟩
    · intro a ha
      exact (h.head a ha).2
  refine ⟨l, hl, fun n => ⟨hm n, fun hn => ?_⟩⟩
  cases hh : m.listHead with
  | none =>
    have hle := h.le n
    rw [h.headNone hh] at hle
    exact absurd hn (by simp [Mem.Listed, Nat.le_zero.mp hle])
  | some a =>
    obtain ⟨ha, hal⟩ := h.head a hh
    obtain ⟨b, hb, hbn⟩ := h.ranks hl hh hal hn (ha ▸ h.le n)
    rwa [h.inj n b hn hbn.symm]

/-- The list has grown at its head. -/
theorem Mem.Chain.grown (h : m.Chain) (h' : m'.Chain) (hg : m.Grows m')
    (hn : ∀ n, m.Listed n → m'.next n = m.next n) (hl : Leads m.next m.listHead l)
    (hl' : Leads m'.next m'.listHead l') : ∃ new, l' = new ++ l := by
  obtain ⟨l₁, hl₁, hm₁⟩ := h.linked
  obtain rfl := hl.unique hl₁
  obtain ⟨l₂, hl₂, hm₂⟩ := h'.linked
  obtain rfl := hl'.unique hl₂
  cases hh : m.listHead with
  | none =>
    rw [hh] at hl
    cases hl
    exact ⟨l', by simp⟩
  | some a =>
    have ha : a ∈ l' := (hm₂ a).mpr (hg.listed (h.head a hh).2)
    obtain ⟨l₃, l₄, rfl, hsuf⟩ := hl'.split ha
    have hsame : Leads m'.next (some a) l := by
      rw [← hh]
      exact hl.congr fun b hb => hn b ((hm₁ b).mp hb)
    exact ⟨l₃, by rw [hsuf.unique hsame]⟩

/-! ## Traversals -/

/-- The cursor of the traversal in `Node::get`: the first node that it has not met yet, and `some
none` at the end of the list. -/
def GetPc.cursor (m : Mem) : GetPc → Option (Option NodeId)
  | .check n => some (some n)
  | .writers n | .unuse n _ | .claim n | .next n => some (m.next n)
  | .create => some none
  | .head | .pushHead _ | .push _ _ => none

/-- The cursor of the traversal in `pay_all`. -/
def PayPc.cursor (m : Mem) : PayPc → Option (Option NodeId)
  | .reserve who => some (some who)
  | .helpInUse who | .helpIdle _ who | .helpControl _ who | .helpAddr _ who _
  | .helpRecheck _ who _ | .helpTheirs _ who _ _ | .helpMine _ who _ _ _
  | .helpWrite _ who _ _ _ _ | .helpCas _ who _ _ _ _ | .helpTake _ who _ | .slot who _
  | .slotInc who _ | .unreserve who | .next who => some (m.next who)
  | .dropVal => some none
  | .enter | .prepay | .head | .leave => none

/-- The cursor of the traversal that is the active function. -/
def Active.cursor (m : Mem) : Active → Option (Option NodeId)
  | .get pc => pc.cursor m
  | .payAll _ pc => pc.cursor m
  | _ => none

/-- The cursor of a suspended traversal. -/
def Cont.cursor (m : Mem) : Cont → Option (Option NodeId)
  | .helpReplacement _ _ who _ | .helpRetry _ _ who _ => some (m.next who)
  | _ => none

/-- The traversal has met all nodes. -/
def Active.Traversed : Active → Prop
  | .get .create | .payAll _ .dropVal => True
  | _ => False

/-- The cursor of the traversal that the function `a` and the callers `l` above it belong to. -/
def cursorIn (m : Mem) (a : Active) (l : List Cont) : Option (Option NodeId) :=
  l.getLast?.elim (a.cursor m) (Cont.cursor m)

@[simp] theorem cursorIn_nil {a : Active} : cursorIn m a [] = a.cursor m := rfl

@[simp] theorem cursorIn_concat {a : Active} {q : Cont} :
    cursorIn m a (l₀ ++ [q]) = q.cursor m := by
  rw [cursorIn, List.getLast?_concat]
  rfl

/-- The node that the closure is applied to next. -/
def Active.meets : Active → Multiset NodeId
  | .get (.check n) | .payAll _ (.reserve n) => {n}
  | _ => 0

/-- What the traversal does: it stays where it is, or it meets the next node. -/
def Meets (m : Mem) (met : Multiset NodeId) (x x' : Option NodeId) : Prop :=
  (met = 0 ∧ x' = x) ∨ ∃ n, met = {n} ∧ x = some n ∧ x' = m.next n

theorem GetClause.cursor {head : LocalNode} {pc : GetPc} {o : Out} {x' : Option NodeId}
    (h : GetClause head m pc o) (ht : (pc.cursor m).isSome) (hc : pc ≠ .create)
    (hx : cursorIn o.mem o.active o.calls = some x') :
    ∃ x, pc.cursor m = some x ∧ Meets m (Active.get pc).meets x x' := by
  cases h with
  | headNone | head | pushHead | push | pushLate => simp [GetPc.cursor] at ht
  | create => exact absurd rfl hc
  | claim => simp [Active.cursor] at hx
  | checkCooldown | checkOther =>
    simp only [cursorIn_nil, Active.cursor, GetPc.cursor, Option.some.injEq] at hx
    exact ⟨_, rfl, .inr ⟨_, rfl, rfl, hx.symm⟩⟩
  | nextNone h | next h =>
    simp only [cursorIn_nil, Active.cursor, GetPc.cursor, Option.some.injEq] at hx
    exact ⟨_, rfl, .inl ⟨rfl, by rw [← hx, h]⟩⟩
  | _ =>
    simp only [cursorIn_nil, Active.cursor, GetPc.cursor, Option.some.injEq] at hx
    exact ⟨_, rfl, .inl ⟨rfl, hx.symm⟩⟩

theorem Dispatched.cursor {f : PayFrame} {me who : NodeId} {c : ℕ} {a : Active}
    {x : Option NodeId} (h : Dispatched f me who c a) (hx : a.cursor m = some x) :
    m.next who = x := by
  cases h with
  | pass | gen => simpa [Active.cursor, PayPc.cursor] using hx
  | myself | invalid => simp [Active.cursor] at hx

theorem PayFrame.nextSlot_cursor (f : PayFrame) (who : NodeId) (i : ℕ) :
    (f.nextSlot who i).cursor m = some (m.next who) := by
  unfold PayFrame.nextSlot
  split <;> rfl

theorem PayClause.cursor {f : PayFrame} {pc : PayPc} {o : Out} {x' : Option NodeId}
    (h : PayClause tls m f pc o) (ht : (pc.cursor m).isSome) (hc : pc ≠ .dropVal)
    (hx : cursorIn o.mem o.active o.calls = some x') :
    ∃ x, pc.cursor m = some x ∧ Meets m (Active.payAll f pc).meets x x' := by
  cases h with
  | enter | enterGet | prepay | headNone | head | leave | leaveTmp => simp [PayPc.cursor] at ht
  | dropVal => exact absurd rfl hc
  | noNode | notUsed | helperBusy | misaligned => simp [Active.cursor] at hx
  | reserve =>
    simp only [cursorIn_nil, Active.cursor, PayPc.cursor, Option.some.injEq] at hx
    exact ⟨_, rfl, .inr ⟨_, rfl, rfl, hx.symm⟩⟩
  | helpControl h | helpChanged _ h => exact ⟨_, rfl, .inl ⟨rfl, (h.cursor hx).symm⟩⟩
  | slotOther | slotInc =>
    simp only [cursorIn_nil, PayFrame.nextSlot_cursor, Option.some.injEq] at hx
    exact ⟨_, rfl, .inl ⟨rfl, hx.symm⟩⟩
  | helpAddr | helpLate =>
    simp only [cursorIn, List.getLast?_cons_cons, List.getLast?_singleton, Option.elim_some,
      Cont.cursor, Option.some.injEq] at hx
    exact ⟨_, rfl, .inl ⟨rfl, hx.symm⟩⟩
  | nextNone h | next h =>
    simp only [cursorIn_nil, Active.cursor, PayPc.cursor, Option.some.injEq] at hx
    exact ⟨_, rfl, .inl ⟨rfl, by rw [← hx, h]⟩⟩
  | _ =>
    simp only [cursorIn_nil, Active.cursor, PayPc.cursor, Option.some.injEq] at hx
    exact ⟨_, rfl, .inl ⟨rfl, hx.symm⟩⟩

/-- A suspended traversal goes on where it was. -/
theorem Resumed.cursor {q : Cont} {v : Ret} {o : Out} {x x' : Option NodeId}
    (h : Resumed cfg tls m q v o) (hq : q.cursor m = some x)
    (hx : cursorIn o.mem o.active o.calls = some x') : x' = x := by
  cases h with
  | helpReplacement =>
    rw [← Option.some.inj hq]
    exact (Option.some.inj hx).symm
  | helpRetry h =>
    rw [← Option.some.inj hq]
    exact (h.cursor hx).symm
  | _ => simp [Cont.cursor] at hq

section Move

variable {T : Type*} {s s' : State T} {t : T} {th' : Thread} {o' : Multiset Ref}
  {g' : Multiset Guard}
  {l₁ : List Cont} {x x' : Option NodeId}

/-- The node that the traversal above the callers `ks` meets in this step of the thread. -/
def Thread.meets (ks : List Cont) (th : Thread) : Multiset NodeId :=
  if th.conts = ks then th.active.meets else 0

theorem Cont.cursor_visits {q : Cont} (h : (q.cursor m).isSome) :
    ∃ who ∈ q.visits, ∀ m : Mem, q.cursor m = some (m.next who) := by
  cases q with
  | helpReplacement f me who | helpRetry f me who =>
    exact ⟨who, by simp [Cont.visits], fun _ => rfl⟩
  | _ => simp [Cont.cursor] at h

/-- **A traversal goes on** in every step of its thread: it stays where it is, or it meets the next
node of the list. -/
theorem Move.cursor (h : Move cfg s t m' th' o' g') (hk : (s.thread t).conts = l₀ ++ ks)
    (hx : cursorIn s.mem (s.thread t).active l₀ = some x)
    (hc : l₀ = [] → ¬ (s.thread t).active.Traversed)
    (hv : ∀ n ∈ (s.thread t).visits, s.mem.Listed n)
    (hn : ∀ n, s.mem.Listed n → m'.next n = s.mem.next n) (hk' : th'.conts = l₁ ++ ks)
    (hx' : cursorIn m' th'.active l₁ = some x') : Meets s.mem ((s.thread t).meets ks) x x' := by
  rcases List.eq_nil_or_concat l₀ with rfl | ⟨l₂, q, rfl⟩
  · rw [List.nil_append] at hk
    rw [cursorIn_nil] at hx
    rw [Thread.meets, if_pos hk]
    -- the function is the traversal itself
    cases h with
    | @code o h =>
      have hl : o.calls ++ ks = l₁ ++ ks := by rw [← hk', Thread.after, hk]
      obtain rfl := List.append_cancel_right hl
      cases hact : (s.thread t).active with
      | get pc =>
        rw [hact] at h hx hc
        cases h with
        | get h =>
          rw [Active.cursor] at hx
          obtain ⟨y, hy, hm⟩ := h.cursor (by simp [hx]) (by rintro rfl; exact hc rfl trivial) hx'
          obtain rfl : y = x := Option.some.inj (hy.symm.trans hx)
          exact hm
      | payAll f pc =>
        rw [hact] at h hx hc
        cases h with
        | payAll h =>
          rw [Active.cursor] at hx
          obtain ⟨y, hy, hm⟩ := h.cursor (by simp [hx]) (by rintro rfl; exact hc rfl trivial) hx'
          obtain rfl : y = x := Option.some.inj (hy.symm.trans hx)
          exact hm
      | _ => simp [hact, Active.cursor] at hx
    | resume ha | receive ha | user ha => simp [ha, Active.cursor] at hx
  · -- something runs above the traversal
    rw [List.concat_eq_append] at hk hx
    rw [cursorIn_concat] at hx
    have hk₀ : (s.thread t).conts = l₂ ++ q :: ks := by simpa using hk
    obtain ⟨who, hwho, hq⟩ := Cont.cursor_visits (q := q) (m := s.mem) (by simp [hx])
    have hne : (s.thread t).conts ≠ ks := by
      intro he
      have := congrArg List.length (he.symm.trans hk₀)
      simp only [List.length_append, List.length_cons] at this
      omega
    rw [Thread.meets, if_neg hne]
    refine .inl ⟨rfl, ?_⟩
    have hlisted : s.mem.Listed who := by
      apply hv who
      refine Multiset.mem_add.mpr (.inr (mem_contVisits (q := q) ?_ hwho))
      simp [hk₀]
    rcases h.stays hk₀ (by rintro u c rfl; simp [Cont.cursor] at hx) with
      ⟨l₃, hl₃⟩ | ⟨rfl, c, v, o, ha, hr, rfl, rfl⟩
    · have hl : (l₃ ++ [q]) ++ ks = l₁ ++ ks := by
        rw [← hk', hl₃, List.append_assoc, List.singleton_append]
      obtain rfl := List.append_cancel_right hl
      rw [cursorIn_concat, hq, hn who hlisted] at hx'
      rw [hq] at hx
      exact (Option.some.inj hx').symm.trans (Option.some.inj hx)
    · obtain rfl : o.calls = l₁ := List.append_cancel_right hk'
      exact hr.cursor hx hx'

/-- What a thread relies on of the list: it grows by nodes that are not in it yet. -/
structure Mem.Prepends (m m' : Mem) : Prop where
  ranks : m.Grows m'
  next : ∀ n, m.Listed n → m'.next n = m.next n

theorem Mem.Prepends.trans {m₁ m₂ m₃ : Mem} (h : m₁.Prepends m₂) (h' : m₂.Prepends m₃) :
    m₁.Prepends m₃ where
  ranks n hn := (h'.ranks n (h.ranks.listed hn)).trans (h.ranks n hn)
  next n hn := (h'.next n (h.ranks.listed hn)).trans (h.next n hn)

theorem Clause.next {a : Active} {o : Out} (h : Clause cfg tls m a o)
    (hp : ∀ n ∈ a.pushes, ¬ m.Listed n) (hn : m.Listed n) : o.mem.next n = m.next n := by
  cases h with
  | get h =>
    cases h with
    | @push k | @pushLate k =>
      have hne : n ≠ k := by
        rintro rfl
        exact hp n (Multiset.mem_singleton_self _) hn
      simp [hne]
    | _ => rfl
  | swap => rfl
  | cooldown h | cas h | dec h | intoInner h | dropGuard h | load h | payAll h => cases h <;> rfl

theorem Move.next (h : Move cfg s t m' th' o' g') (hw : (s.thread t).Walks s.mem)
    (hn : s.mem.Listed n) : m'.next n = s.mem.next n := by
  cases h with
  | code h => exact h.next (fun k hk => (hw.pushes k hk).1) hn
  | resume _ _ h => rw [h.mem_eq]
  | receive => rfl
  | user _ h => cases h <;> rfl

/-- What other threads do to the list does not concern a traversal. -/
theorem Thread.cursor_frame {th : Thread} (hk : th.conts = l₀ ++ ks)
    (hv : ∀ n ∈ th.visits, m.Listed n) (hp : m.Prepends m') :
    cursorIn m' th.active l₀ = cursorIn m th.active l₀ := by
  rcases List.eq_nil_or_concat l₀ with rfl | ⟨l₂, q, rfl⟩
  · rw [cursorIn_nil, cursorIn_nil]
    have hv' : ∀ n ∈ th.active.visits, m'.next n = m.next n := by
      intro n hn
      apply hp.next n (hv n _)
      simp [Thread.visits, hn]
    cases ha : th.active with
    | get pc =>
      rw [ha] at hv'
      cases pc with
      | writers n | unuse n | claim n | next n =>
        exact congrArg some (hv' n (Multiset.mem_singleton_self _))
      | _ => rfl
    | payAll f pc =>
      rw [ha] at hv'
      have hpc : ∀ n ∈ pc.visits, m'.next n = m.next n := fun n hn =>
        hv' n (Multiset.mem_add.mpr (.inr hn))
      cases pc with
      | enter | prepay | head | reserve | dropVal | leave => rfl
      | _ => exact congrArg some (hpc _ (Multiset.mem_singleton_self _))
    | _ => rfl
  · rw [List.concat_eq_append, cursorIn_concat, cursorIn_concat]
    cases hq : (q.cursor m).isSome with
    | true =>
      obtain ⟨who, hwho, he⟩ := Cont.cursor_visits hq
      rw [he, he, hp.next who]
      apply hv who
      exact Multiset.mem_add.mpr (.inr (mem_contVisits (q := q) (by simp [hk]) hwho))
    | false => cases q <;> first | rfl | simp [Cont.cursor] at hq

end Move

/-! ## Every run -/

section Run

variable {T : Type*} [Fintype T] [DecidableEq T] {s s' : State T} {t t' : T}

theorem State.Tenanted.prepends {c : Choice} (h : s.Tenanted cfg)
    (hs : s.step cfg t c = some s') : s.mem.Prepends s'.mem := by
  obtain ⟨m', th', o', g', hm, rfl⟩ := State.step_move hs
  refine ⟨(hm.tenant_chain (h.threads t) h.chain (h.walks t)).2.1, fun n hn => ?_⟩
  exact hm.next (h.walks t) hn

/-- The thread is in the middle of a traversal above the callers `ks`: the closure has not stopped
it, and it has not come to the end of the list. -/
def State.Traverses (s : State T) (t : T) (ks : List Cont) : Prop :=
  ∃ l, (s.thread t).conts = l ++ ks ∧ (cursorIn s.mem (s.thread t).active l).isSome ∧
    (l = [] → ¬ (s.thread t).active.Traversed)

/-- The nodes that the traversal of the thread `t` above the callers `ks` meets in a step. -/
def State.meets (t : T) (ks : List Cont) (s : State T) (a : T × Choice) (_ : State T) :
    Multiset NodeId :=
  if a.1 = t then (s.thread t).meets ks else 0

/-- The traversal of the thread `t` above the callers `ks` has met the nodes in `x`, in the list
that was `l` when it loaded the head. -/
structure State.Meeting (cfg : Config) (t : T) (ks : List Cont) (l : List NodeId) (s : State T)
    (x : Multiset NodeId) : Prop where
  tenanted : s.Tenanted cfg
  listed : ∀ n ∈ l, s.mem.Listed n
  le : x ≤ l
  rest : ∀ l₀ y, (s.thread t).conts = l₀ ++ ks → cursorIn s.mem (s.thread t).active l₀ = some y →
    ∃ r, Leads s.mem.next y r ∧ x + r = l

/-- A traversal meets the node at its cursor. -/
theorem Active.meets_cursor (a : Active) :
    a.meets = 0 ∨ ∃ n, a.meets = {n} ∧ a.cursor m = some (some n) := by
  cases a with
  | get pc =>
    cases pc with
    | check n => exact .inr ⟨n, rfl, rfl⟩
    | _ => exact .inl rfl
  | payAll f pc =>
    cases pc with
    | reserve n => exact .inr ⟨n, rfl, rfl⟩
    | _ => exact .inl rfl
  | _ => exact .inl rfl

omit [DecidableEq T] in
theorem State.Meeting.le_meets {x : Multiset NodeId} (h : s.Meeting cfg t ks l x) :
    x + (s.thread t).meets ks ≤ l := by
  rw [Thread.meets]
  split
  · rename_i hk
    rcases (s.thread t).active.meets_cursor (m := s.mem) with h₀ | ⟨n, hn, he⟩
    · rw [h₀, add_zero]
      exact h.le
    · obtain ⟨r, hr, hl⟩ := h.rest [] _ hk he
      obtain ⟨r', rfl, -⟩ := hr.tail
      rw [hn, ← hl]
      apply Multiset.le_iff_exists_add.mpr
      refine ⟨r', ?_⟩
      rw [← Multiset.cons_coe, ← Multiset.singleton_add, add_assoc]
  · rw [add_zero]
    exact h.le

/-- **What has been met and what is ahead is the list**, in every step. -/
theorem State.Meeting.step {x : Multiset NodeId} {a : T × Choice} (h : s.Meeting cfg t ks l x)
    (hp : a.1 = t → s.Traverses t ks) (hs : s.step cfg a.1 a.2 = some s') :
    s'.Meeting cfg t ks l (x + State.meets t ks s a s') := by
  have hprep := h.tenanted.prepends hs
  have hlisted : ∀ n ∈ l, s'.mem.Listed n := fun n hn => hprep.ranks.listed (h.listed n hn)
  have hleads : ∀ {y r}, Leads s.mem.next y r → (∃ z, z + r = (l : Multiset NodeId)) →
      Leads s'.mem.next y r := by
    rintro y r hr ⟨z, hz⟩
    apply hr.congr
    intro n hn
    apply hprep.next n (h.listed n _)
    rw [← Multiset.mem_coe, ← hz]
    exact Multiset.mem_add.mpr (.inr (Multiset.mem_coe.mpr hn))
  refine ⟨h.tenanted.step hs, hlisted, ?_, ?_⟩
  · rw [State.meets]
    split
    · exact h.le_meets
    · rw [add_zero]
      exact h.le
  · intro l₁ y' hk' hy'
    obtain ⟨m', th', o', g', hm, rfl⟩ := State.step_move hs
    have hv := (h.tenanted.walks t).visits
    by_cases ht : a.1 = t
    · rw [State.meets, if_pos ht]
      obtain ⟨l₀, hk, hsome, hend⟩ := hp ht
      obtain ⟨y, hy⟩ := Option.isSome_iff_exists.mp hsome
      obtain ⟨r, hr, hl⟩ := h.rest l₀ y hk hy
      obtain rfl := ht
      simp only [State.moved, Function.update_self] at hk' hy'
      rcases hm.cursor hk hy hend hv hprep.next hk' hy' with ⟨h₀, rfl⟩ | ⟨n, hn, rfl, rfl⟩
      · refine ⟨r, hleads hr ⟨x, hl⟩, ?_⟩
        rw [h₀, add_zero, hl]
      · obtain ⟨r', rfl, hr'⟩ := hr.tail
        have hl' : x + {n} + (r' : Multiset NodeId) = l := by
          rw [← hl, add_assoc, Multiset.singleton_add, Multiset.cons_coe]
        refine ⟨r', hleads hr' ⟨_, hl'⟩, ?_⟩
        rw [hn, hl']
    · rw [State.meets, if_neg ht, add_zero]
      have hth : ((s.moved a.1 m' th' o' g').thread t) = s.thread t := by
        simp [State.moved, Ne.symm ht]
      rw [hth] at hk' hy'
      rw [Thread.cursor_frame hk' hv hprep] at hy'
      obtain ⟨r, hr, hl⟩ := h.rest l₁ y' hk' hy'
      exact ⟨r, hleads hr ⟨x, hl⟩, hl⟩

/-- The function is about to load `LIST_HEAD` for a traversal. -/
def Active.Begins : Active → Prop
  | .get .head | .payAll _ .head => True
  | _ => False

/-- From the load of `LIST_HEAD` on, the whole list is ahead. -/
theorem State.Tenanted.meeting {c : Choice} (h : s.Tenanted cfg)
    (hl : Leads s.mem.next s.mem.listHead l) (hb : (s.thread t).active.Begins)
    (hs : s.step cfg t c = some s') : s'.Meeting cfg t (s.thread t).conts l 0 := by
  have hprep := h.prepends hs
  obtain ⟨l₁, hl₁, hm₁⟩ := h.chain.linked
  obtain rfl := hl.unique hl₁
  have hlisted : ∀ n ∈ l, s.mem.Listed n := fun n hn => (hm₁ n).mp hn
  refine ⟨h.step hs, fun n hn => hprep.ranks.listed (hlisted n hn), Multiset.zero_le _, ?_⟩
  intro l₀ y hk hy
  have hlist : Leads s'.mem.next s.mem.listHead l :=
    hl.congr fun n hn => hprep.next n (hlisted n hn)
  obtain ⟨m', th', o', g', hm, rfl⟩ := State.step_move hs
  simp only [State.moved, Function.update_self] at hk hy
  have hcursor : th'.conts = (s.thread t).conts ∧ th'.active.cursor m' = some s.mem.listHead := by
    cases hact : (s.thread t).active with
    | get pc =>
      rw [hact] at hb
      cases pc with
      | head =>
        cases hm with
        | code h =>
          rw [hact] at h
          cases h with
          | get h => cases h <;> simp_all [Thread.after, Active.cursor, GetPc.cursor]
        | resume ha | receive ha | user ha => simp [hact] at ha
      | _ => exact hb.elim
    | payAll f pc =>
      rw [hact] at hb
      cases pc with
      | head =>
        cases hm with
        | code h =>
          rw [hact] at h
          cases h with
          | payAll h => cases h <;> simp_all [Thread.after, Active.cursor, PayPc.cursor]
        | resume ha | receive ha | user ha => simp [hact] at ha
      | _ => exact hb.elim
    | _ =>
      rw [hact] at hb
      exact hb.elim
  obtain ⟨hsame, he⟩ := hcursor
  obtain rfl : l₀ = [] := by
    rw [hsame] at hk
    simpa using hk
  obtain rfl : s.mem.listHead = y := by
    rw [cursorIn_nil, he] at hy
    exact Option.some.inj hy
  exact ⟨l, hlist, by simp⟩

/-- Every traversal that loads `LIST_HEAD` from now on meets the node once, unless its closure stops
it before. -/
def State.MeetsOnce (cfg : Config) (s : State T) (n : NodeId) : Prop :=
  ∀ s₁, s.Run cfg (fun _ _ => True) s₁ → ∀ t c s₂, (s₁.thread t).active.Begins →
    s₁.step cfg t c = some s₂ → ∀ s₃ x, Guarded.Tally (fun s a => s.step cfg a.1 a.2)
      (fun s (a : T × Choice) => a.1 = t → s.Traverses t (s₁.thread t).conts)
      (State.meets t (s₁.thread t).conts) s₂ s₃ x →
    x.count n ≤ 1 ∧ ((s₃.thread t).conts = (s₁.thread t).conts → (s₃.thread t).active.Traversed →
      x.count n = 1)

/-- The list of the nodes loses nothing, and every scan of it is complete. -/
structure State.Complete (cfg : Config) (s : State T) (l : List NodeId) : Prop where
  /-- The chain from `LIST_HEAD` ends, and meets nobody twice. -/
  chain : Leads s.mem.next s.mem.listHead l
  nodup : l.Nodup
  /-- A node that `Node::get` returns is in it. -/
  returned : ∀ t c n, (s.thread t).active = .ret c (.node n) → n ∈ l
  /-- So is the node of a slot that has been written to. -/
  written : ∀ d, s.mem.slot d ≠ none → d.node ∈ l
  /-- They stay in it, with the same `next`. -/
  stays : ∀ s', s.Run cfg (fun _ _ => True) s' →
    ∃ new, Leads s'.mem.next s'.mem.listHead (new ++ l) ∧ ∀ n ∈ l, s'.mem.next n = s.mem.next n
  /-- Every traversal that begins later applies its closure to each of them once. -/
  once : ∀ n ∈ l, s.MeetsOnce cfg n

/-- Along a run the list grows at its head. -/
theorem State.Tenanted.run (h : s.Tenanted cfg) {P : State T → T → Prop}
    (hr : s.Run cfg P s') : s'.Tenanted cfg ∧ s.mem.Prepends s'.mem :=
  Guarded.Run.invariant (I := fun s' => s'.Tenanted cfg ∧ s.mem.Prepends s'.mem) hr
    ⟨h, fun _ _ => rfl, fun _ _ => rfl⟩
    fun _ _ _ hi _ hs => ⟨hi.1.step hs, hi.2.trans (hi.1.prepends hs)⟩

theorem State.Tenanted.meetsOnce (h : s.Tenanted cfg) (hn : s.mem.Listed n) :
    s.MeetsOnce cfg n := by
  intro s₁ hr t c s₂ hb hs s₃ x hx
  obtain ⟨h₁, hp₁⟩ := h.run hr
  obtain ⟨l, hl, hml⟩ := h₁.chain.linked
  have hcount : l.count n = 1 :=
    List.count_eq_one_of_mem hl.nodup ((hml n).mpr (hp₁.ranks.listed hn))
  have hmeet : s₃.Meeting cfg t (s₁.thread t).conts l x :=
    hx.invariant (h₁.meeting hl hb hs) fun _ _ _ _ hi hp hs => hi.step hp hs
  refine ⟨?_, fun hk hend => ?_⟩
  · rw [← hcount, ← Multiset.coe_count]
    exact Multiset.count_le_of_le n hmeet.le
  · -- at the end nothing is ahead
    have hcursor : (s₃.thread t).active.cursor s₃.mem = some none := by
      cases ha : (s₃.thread t).active with
      | get pc =>
        rw [ha] at hend
        cases pc with
        | create => rfl
        | _ => exact hend.elim
      | payAll f pc =>
        rw [ha] at hend
        cases pc with
        | dropVal => rfl
        | _ => exact hend.elim
      | _ =>
        rw [ha] at hend
        exact hend.elim
    obtain ⟨r, hr, hxl⟩ := hmeet.rest [] none hk hcursor
    cases hr
    rw [← hcount, ← Multiset.coe_count, ← hxl]
    simp

theorem State.Reachable.slot_listed {P : State T → T → Prop} (h : s.Reachable cfg P) {d : SlotId}
    (hd : s.mem.slot d ≠ none) : s.mem.Listed d.node := by
  refine (h.invariant (I := fun s => s.Tenanted cfg ∧
    ∀ d, s.mem.slot d ≠ none → s.mem.Listed d.node) ⟨State.init_tenanted, ?_⟩ ?_).2 d hd
  · intro d hd
    exact absurd rfl hd
  · rintro s s' t c ⟨ht, hi⟩ - hs
    refine ⟨ht.step hs, fun d hd => ?_⟩
    have hprep := ht.prepends hs
    apply hprep.ranks.listed
    obtain ⟨m', th', o', g', hm, rfl⟩ := State.step_move hs
    obtain ⟨r, hr⟩ := Option.ne_none_iff_exists'.mp hd
    rcases ht.threads t with hty | hdoom
    · rcases hm.slots hty hr with he | ⟨hn, -⟩
      · exact hi d (by simp [he])
      · exact (ht.walks t).visits _ hn
    · apply hi d
      rw [← (hm.doomed_frame hdoom).1]
      exact hd

/-- **The node list loses nothing and every scan is complete**, in every run. -/
theorem State.Reachable.scans_complete {P : State T → T → Prop} (h : s.Reachable cfg P) :
    ∃ l, s.Complete cfg l := by
  have ht := h.tenanted
  obtain ⟨l, hl, hm⟩ := ht.chain.linked
  refine ⟨l, hl, hl.nodup, fun t c n ha => ?_, fun d hd => ?_, fun s' hr => ?_, fun n hn => ?_⟩
  · apply (hm n).mpr
    apply (ht.walks t).visits n
    simp [Thread.visits, ha, Active.visits]
  · exact (hm _).mpr (h.slot_listed hd)
  · obtain ⟨ht', hp⟩ := ht.run hr
    obtain ⟨l', hl', -⟩ := ht'.chain.linked
    obtain ⟨new, rfl⟩ := ht.chain.grown ht'.chain hp.ranks hp.next hl hl'
    exact ⟨new, hl', fun n hn => hp.next n ((hm n).mp hn)⟩
  · exact ht.meetsOnce ((hm n).mp hn)

/-- In the sample run, when both threads have prepended their nodes and a slot is owed. -/
theorem State.Reachable.scans_complete_sample : ∃ l, (State.sample 49).Complete .sample l :=
  State.Reachable.scans_complete (State.sample_reachable 49)

end Run

end ArcSwap
