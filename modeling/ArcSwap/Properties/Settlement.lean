import ArcSwap.Properties.Alive
import ArcSwap.Invariants.Scans

/-!
# A write settles all debts

When `pay_all` returns the pointer that has been taken out of a storage, every guard on it that has
been alive since before has a reference of its own: no slot is passed while it contains the pointer,
and a slot that is filled again later has a claim of its own. What `pay_all` itself adds to the
count is the number of the slots that it has emptied.
-/

namespace ArcSwap

variable {T : Type*} {cfg : Config} {tls : Tls} {m m' : Mem} {s s' s₁ s₂ s₃ : State T} {t t' : T}
  {x : StorageId} {r : Ref} {p : Place} {ks : List Cont} {k : RefKind}

/-! ## The own steps of `pay_all` -/

/-- The callers that wait for the `pay_all` whose own step is next: it is running, or it drops the
reference that it had paid in advance. -/
def Thread.paying? (th : Thread) : Option (List Cont) :=
  match th.active, th.conts with
  | .payAll _ _, ks => some ks
  | .dec _, .valDropped _ :: ks => some ks
  | _, _ => none

/-- The next step is one of the `pay_all` that the callers `ks` wait for. -/
def Thread.PaysSelf (ks : List Cont) (th : Thread) : Prop := th.paying? = some ks

instance (ks : List Cont) (th : Thread) : Decidable (th.PaysSelf ks) :=
  inferInstanceAs (Decidable (_ = _))

theorem Thread.paysSelf_iff {th : Thread} : th.PaysSelf ks ↔
    (∃ f pc, th.active = .payAll f pc ∧ th.conts = ks) ∨
      ∃ r f, th.active = .dec r ∧ th.conts = .valDropped f :: ks := by
  unfold Thread.PaysSelf Thread.paying?
  split <;> simp_all

/-- The number of the slots that are empty after a step, and were not before. -/
def State.emptied (s s' : State T) : ℕ :=
  (s.mem.slots.filter fun d => s.mem.slot d ≠ none ∧ s'.mem.slot d = none).card

/-- What a step of the machine amounts to for the `pay_all` that the callers `ks` of the thread `t`
wait for: the number of the slots that it has emptied, and what it has added to the count. -/
def State.settled [DecidableEq T] (t : T) (ks : List Cont) (r : Ref) (s : State T) (a : T × Choice)
    (s' : State T) : ℕ × ℤ :=
  if a.1 = t ∧ (s.thread t).PaysSelf ks then
    (s.emptied s', (s'.mem.count r : ℤ) - s.mem.count r)
  else 0

/-- The thread is about to return to the callers `ks`. -/
def Thread.ReturnsTo (ks : List Cont) (th : Thread) : Prop :=
  (∃ c v, th.active = .ret c v) ∧ th.conts = ks

/-- What the `pay_all` for `r` does that the thread is about to run in `s₁`. -/
structure State.Settles [Fintype T] [DecidableEq T] (cfg : Config) (s₁ : State T) (t : T)
    (ks : List Cont) (r : Ref) : Prop where
  /-- Guards on `r` that are alive from the beginning to the end, be they held by user code or by an
  operation in progress, have references of their own, and there is one more for the value that is
  returned. -/
  guards : ∀ (G : Multiset Guard) s₂ s₃ c, (∀ g ∈ G, g.ref = r) →
    State.Run cfg (fun s t' => s.FreshGen t' ∧ s.StaysAbove t ks t' ∧ G ≤ s.kept) s₁ s₂ →
    G ≤ s₂.kept → (s₂.thread t).ReturnsTo ks → s₂.step cfg t c = some s₃ →
    1 + G.card ≤ s₃.mem.count r
  /-- It only empties slots that contain `r`. -/
  slots : ∀ s s' c, State.Run cfg (fun s t' => s.FreshGen t' ∧ s.StaysAbove t ks t') s₁ s →
    (s.thread t).PaysSelf ks → s.step cfg t c = some s' →
    ∀ d, s'.mem.slot d ≠ s.mem.slot d → s.mem.slot d = some r ∧ s'.mem.slot d = none
  /-- What it adds to the count is the number of the slots that it empties. -/
  net : ∀ s₂ y, Guarded.Tally (fun s a => s.step cfg a.1 a.2)
      (fun s (a : T × Choice) => s.FreshGen a.1 ∧ s.StaysAbove t ks a.1) (State.settled t ks r)
      s₁ s₂ y →
    (s₂.thread t).ReturnsTo ks → y.2 = y.1

/-! ## References paid in advance -/

/-- The number of references that `pay_all` has paid in advance. -/
def PayPc.advance : PayPc → ℤ
  | .enter | .prepay | .slotInc _ _ | .leave => 0
  | _ => 1

/-- The function `a` and the callers `above` belong to a `pay_all` for `r` that has paid this number
of references in advance. -/
inductive Advance (r : Ref) (a : Active) : List Cont → ℤ → Prop
  | pay {f pc} (ha : a = .payAll f pc) (hf : f.ref = r) : Advance r a [] pc.advance
  | returned {c v} (ha : a = .ret c v) : Advance r a [] 0
  | node {l f} (hf : f.ref = r) : Advance r a (l ++ [.payNode f]) 0
  | replacement {l f me who c} (hf : f.ref = r) :
    Advance r a (l ++ [.helpReplacement f me who c]) 1
  | retry {l f me who c} (hf : f.ref = r) : Advance r a (l ++ [.helpRetry f me who c]) 1
  | val {f} (ha : a = .dec r) (hf : f.ref = r) : Advance r a [.valDropped f] 1
  | dropped {f c v} (ha : a = .ret c v) (hf : f.ref = r) : Advance r a [.valDropped f] 0
  | destroyed {l f} (hf : f.ref = r) : Advance r a (l ++ [.destroyed, .valDropped f]) 0
  | left {l} : Advance r a (l ++ [.payLeft r]) 0

/-- A clause of `pay_all` that does not empty a slot adds to the count what it pays in advance. -/
structure Adds (m m' : Mem) (r : Ref) (e : ℕ) (i i' : ℤ) : Prop where
  count : (m'.count r : ℤ) - m.count r = e + (i' - i)
  slot : e = 0 ∧ m'.slot = m.slot ∨ e = 1 ∧ ∃ d, m.Owes d r ∧
    m'.slot = Function.update m.slot d none

theorem Adds.keep {i : ℤ} (hc : m'.count = m.count) (hs : m'.slot = m.slot) :
    Adds m m' r 0 i i := ⟨by simp [hc], .inl ⟨rfl, hs⟩⟩

theorem Adds.inc (hr : r.Counted) : Adds m (m.inc r) r 0 0 1 :=
  ⟨by simp [Mem.inc, hr], .inl ⟨rfl, rfl⟩⟩

theorem PayFrame.nextSlot_advance {f : PayFrame} {who : NodeId} {i : ℕ} (hf : f.ref = r) :
    Advance r (f.nextSlot who i) [] 1 := by
  unfold PayFrame.nextSlot
  split
  · exact .pay rfl hf
  · exact .pay rfl hf

theorem Dispatched.advance {f : PayFrame} {me who : NodeId} {c : ℕ} {a : Active}
    (h : Dispatched f me who c a) (hr : ∀ w, a ≠ .failed w) (hf : f.ref = r) :
    Advance r a [] 1 := by
  cases h with
  | pass | gen => exact .pay rfl hf
  | myself | invalid => simp at hr

/-- What a clause of `pay_all` adds to the count. -/
theorem PayClause.advance {f : PayFrame} {pc : PayPc} {o : Out} (h : PayClause tls m f pc o)
    (hr : ∀ w, o.active ≠ .failed w) (hc : f.ref.Counted) :
    ∃ e i, Advance f.ref o.active o.calls i ∧ Adds m o.mem f.ref e pc.advance i := by
  cases h with
  | noNode | notUsed | helperBusy | misaligned => simp at hr
  | enterGet => exact ⟨0, 0, .node (l := []) rfl, .keep rfl rfl⟩
  | prepay => exact ⟨0, 1, .pay rfl rfl, .inc hc⟩
  | helpControl h | helpChanged _ h => exact ⟨0, 1, h.advance hr rfl, .keep rfl rfl⟩
  | helpAddr => exact ⟨0, 1, .replacement (l := [_]) rfl, .keep rfl rfl⟩
  | helpLate => exact ⟨0, 1, .retry (l := []) rfl, .keep rfl rfl⟩
  | slot ho => exact ⟨1, 0, .pay rfl rfl, by simp [PayPc.advance], .inr ⟨rfl, _, ho, rfl⟩⟩
  | slotOther => exact ⟨0, 1, PayFrame.nextSlot_advance rfl, .keep rfl rfl⟩
  | slotInc => exact ⟨0, 1, PayFrame.nextSlot_advance rfl, .inc hc⟩
  | dropVal => exact ⟨0, 1, .val rfl rfl, .keep rfl rfl⟩
  | leave => exact ⟨0, 0, .returned rfl, .keep rfl rfl⟩
  | leaveTmp => exact ⟨0, 0, .left (l := []), .keep rfl rfl⟩
  | _ => exact ⟨0, _, .pay rfl rfl, .keep rfl rfl⟩

section Move

variable {th' : Thread} {o' : Multiset Ref} {g' : Multiset Guard} {l : List Cont} {i : ℤ}

theorem Thread.PaysSelf.callers {th : Thread} (h : th.PaysSelf ks) (hk : th.conts = l ++ ks) :
    l = [] ∨ ∃ f, l = [.valDropped f] := by
  rcases Thread.paysSelf_iff.mp h with ⟨f, pc, -, hc⟩ | ⟨r, f, -, hc⟩
  · exact .inl (by simpa [hc] using hk)
  · rw [hc] at hk
    exact .inr ⟨f, (List.append_cancel_right (hk : [.valDropped f] ++ ks = l ++ ks)).symm⟩

/-- `pay_all` publishes no generation. -/
theorem State.freshGen_of_paysSelf (h : (s.thread t).PaysSelf ks) :
    s.FreshGen t ∧ s.StaysAbove t ks t := by
  rcases Thread.paysSelf_iff.mp h with ⟨f, pc, hact, -⟩ | ⟨r, f, hact, -⟩
  all_goals
    refine ⟨⟨?_, fun n w hi => ?_⟩, fun _ c v ha => ?_⟩
    · rw [State.NoWrap, hact]
      exact id
    · rw [hact] at hi
      exact hi.elim
    · rw [hact] at ha
      cases ha

theorem Thread.not_paysSelf {th : Thread} {q : Cont} (hk : th.conts = (l ++ [q]) ++ ks)
    (hq : ∀ f, q ≠ .valDropped f) : ¬ th.PaysSelf ks := by
  intro h
  rcases Thread.PaysSelf.callers h hk with hnil | ⟨f, hf⟩
  · simp at hnil
  · have := congrArg List.getLast? hf
    rw [List.getLast?_concat, List.getLast?_singleton, Option.some.injEq] at this
    exact hq f this

/-- **What is paid in advance** is added to the count, and what slots are paid with is not: in every
step of a `pay_all`, and in no other step of its thread does it change. -/
theorem Move.advance (h : Move cfg s t m' th' o' g') (hr : ∀ w, th'.active ≠ .failed w)
    (hc : r.Counted) (hpos : (s.thread t).active.counts? = some r → 1 ≤ s.mem.count r)
    (hin : s.StaysAbove t ks t) (hk : (s.thread t).conts = l ++ ks)
    (ha : Advance r (s.thread t).active l i) :
    ∃ l' i', th'.conts = l' ++ ks ∧ Advance r th'.active l' i' ∧
      ((s.thread t).PaysSelf ks → ∃ e, Adds s.mem m' r e i i') ∧
      (¬ (s.thread t).PaysSelf ks → i' = i) := by
  cases ha with
  | @pay f pc hact hf =>
    subst hf
    have hself : (s.thread t).PaysSelf ks :=
      Thread.paysSelf_iff.mpr (.inl ⟨f, pc, hact, by simpa using hk⟩)
    cases h with
    | @code o h =>
      rw [hact] at h
      cases h with
      | payAll h =>
        obtain ⟨e, i', hadv, hadds⟩ := h.advance hr hc
        exact ⟨o.calls, i', by simp [Thread.after, hk], hadv, fun _ => ⟨e, hadds⟩,
          fun hn => absurd hself hn⟩
    | resume ha | receive ha | user ha =>
      rw [hact] at ha
      cases ha
  | @returned c v hact => exact absurd (by simpa using hk) (hin rfl c v hact)
  | @node l f hf =>
    have hself := Thread.not_paysSelf hk (by simp)
    rcases h.stays (by simpa using hk) (by simp) with ⟨l', hk'⟩ | ⟨-, c, v, o, -, ho, rfl, rfl⟩
    · exact ⟨l' ++ [.payNode f], 0, by simpa using hk', .node hf, fun hs => absurd hs hself,
        fun _ => rfl⟩
    · refine ⟨o.calls, 0, rfl, ?_, fun hs => absurd hs hself, fun _ => rfl⟩
      cases ho <;> exact .pay rfl hf
  | @replacement l f me who c hf =>
    have hself := Thread.not_paysSelf hk (by simp)
    rcases h.stays (by simpa using hk) (by simp) with ⟨l', hk'⟩ | ⟨-, c', v, o, -, ho, rfl, rfl⟩
    · exact ⟨l' ++ [_], 1, by simpa using hk', .replacement hf, fun hs => absurd hs hself,
        fun _ => rfl⟩
    · refine ⟨o.calls, 1, rfl, ?_, fun hs => absurd hs hself, fun _ => rfl⟩
      cases ho
      exact .pay rfl hf
  | @retry l f me who c hf =>
    have hself := Thread.not_paysSelf hk (by simp)
    rcases h.stays (by simpa using hk) (by simp) with ⟨l', hk'⟩ | ⟨-, c', v, o, -, ho, rfl, rfl⟩
    · exact ⟨l' ++ [_], 1, by simpa using hk', .retry hf, fun hs => absurd hs hself, fun _ => rfl⟩
    · refine ⟨o.calls, 1, rfl, ?_, fun hs => absurd hs hself, fun _ => rfl⟩
      cases ho with
      | helpRetry hd => exact hd.advance hr hf
  | @val f hact hf =>
    have hself : (s.thread t).PaysSelf ks := Thread.paysSelf_iff.mpr (.inr ⟨r, f, hact, hk⟩)
    have hone := hpos (by rw [hact]; rfl)
    have hadds : Adds s.mem (s.mem.dec r) r 0 1 0 := by
      refine ⟨?_, .inl ⟨rfl, rfl⟩⟩
      simp only [Mem.dec_count, if_pos hc, Function.update_self]
      omega
    cases h with
    | @code o h =>
      rw [hact] at h
      cases h with
      | dec h =>
        cases h with
        | last =>
          exact ⟨[.destroyed, .valDropped f], 0, by simp [Thread.after, hk],
            .destroyed (l := []) hf, fun _ => ⟨0, hadds⟩, fun hn => absurd hself hn⟩
        | dec =>
          exact ⟨[.valDropped f], 0, by simp [Thread.after, hk], .dropped rfl hf,
            fun _ => ⟨0, hadds⟩, fun hn => absurd hself hn⟩
    | resume ha | receive ha | user ha =>
      rw [hact] at ha
      cases ha
  | @dropped f c v hact hf =>
    have hself : ¬ (s.thread t).PaysSelf ks := by
      simp [Thread.paysSelf_iff, hact]
    obtain ⟨o, ho, rfl, rfl⟩ := h.resumed hact hk (by simp)
    refine ⟨o.calls, 0, rfl, ?_, fun hs => absurd hs hself, fun _ => rfl⟩
    cases ho
    exact .pay rfl hf
  | @destroyed l f hf =>
    have hself : ¬ (s.thread t).PaysSelf ks := fun hself => by
      rcases Thread.PaysSelf.callers hself hk with hnil | ⟨f, hf⟩
      · simp at hnil
      · simpa using congrArg List.length hf
    have hk' : (s.thread t).conts = l ++ .destroyed :: .valDropped f :: ks := by simpa using hk
    rcases h.stays hk' (by simp) with ⟨l', hk'⟩ | ⟨-, c', v, o, -, ho, rfl, rfl⟩
    · exact ⟨l' ++ [_, _], 0, by simpa using hk', .destroyed hf, fun hs => absurd hs hself,
        fun _ => rfl⟩
    · cases ho
      exact ⟨[.valDropped f], 0, rfl, .dropped rfl hf, fun hs => absurd hs hself, fun _ => rfl⟩
  | @left l =>
    have hself := Thread.not_paysSelf hk (by simp)
    rcases h.stays (by simpa using hk) (by simp) with ⟨l', hk'⟩ | ⟨-, c', v, o, -, ho, rfl, rfl⟩
    · exact ⟨l' ++ [_], 0, by simpa using hk', .left, fun hs => absurd hs hself, fun _ => rfl⟩
    · refine ⟨o.calls, 0, rfl, ?_, fun hs => absurd hs hself, fun _ => rfl⟩
      cases ho
      exact .returned rfl

end Move

/-! ## Emptied slots -/

theorem State.emptied_eq_zero (h : s'.mem.slot = s.mem.slot) : s.emptied s' = 0 := by
  rw [State.emptied, Finset.card_eq_zero, Finset.filter_eq_empty_iff]
  rintro d - ⟨hne, he⟩
  exact hne (h ▸ he)

theorem State.emptied_eq_one {d : SlotId} (hd : d ∈ s.mem.slots) (hs : s.mem.slot d ≠ none)
    (h : s'.mem.slot = Function.update s.mem.slot d none) : s.emptied s' = 1 := by
  rw [State.emptied, Finset.card_eq_one]
  refine ⟨d, Finset.ext fun d' => ?_⟩
  rw [Finset.mem_filter, Finset.mem_singleton, h]
  constructor
  · rintro ⟨-, hne, he⟩
    by_contra hd'
    rw [Function.update_of_ne hd'] at he
    exact hne he
  · rintro rfl
    exact ⟨hd, hs, Function.update_self _ _ _⟩

section Run

variable [Fintype T] [DecidableEq T]

/-- What `pay_all` has added to the count beside what it has paid slots with is what it has paid in
advance. -/
structure State.Advanced (cfg : Config) (s : State T) (t : T) (ks : List Cont) (r : Ref) (i : ℤ) :
    Prop where
  reachable : s.Reachable cfg State.FreshGen
  scan : ∃ l, (s.thread t).conts = l ++ ks ∧ Advance r (s.thread t).active l i

/-- **One step of a `pay_all`**: it empties a slot that contains the pointer, or pays a reference in
advance, or takes it back. -/
theorem State.Advanced.step {c : Choice} {i : ℤ} (h : s.Advanced cfg t ks r i)
    (hu : cfg.Uniform k) (hk : r.kind = k) (hc : r.Counted) (hf : s.FreshGen t')
    (hin : s.StaysAbove t ks t') (hs : s.step cfg t' c = some s') :
    ∃ i', s'.Advanced cfg t ks r i' ∧
      (if t' = t ∧ (s.thread t).PaysSelf ks then
        (s'.mem.count r : ℤ) - s.mem.count r = s.emptied s' + (i' - i) ∧
          ∀ d, s'.mem.slot d ≠ s.mem.slot d → s.mem.slot d = some r ∧ s'.mem.slot d = none
      else i' = i) := by
  have hreach : s'.Reachable cfg State.FreshGen := h.reachable.tail ⟨(t', c), hf, hs⟩
  obtain ⟨hacc, hkind⟩ := h.reachable.accounted_of_uniform hu
  have hsafe := hacc.safe h.reachable.covering.2
  have hrun' := (hacc.sound.step hf.1 hs).running
  obtain ⟨l, hks, hadv⟩ := h.scan
  obtain ⟨m', th', o', g', hm, rfl⟩ := State.step_move hs
  by_cases hne : t' = t
  · subst hne
    have hrun : ∀ w, th'.active ≠ .failed w := by simpa [State.moved] using hrun' t'
    obtain ⟨l', i', hks', hadv', hself, hother⟩ := hm.advance hrun hc
      (fun ha => hsafe.counts t' r ha hc) hin hks hadv
    refine ⟨i', ⟨hreach, l', by simpa [State.moved] using hks', by simpa [State.moved] using hadv'⟩,
      ?_⟩
    by_cases hp : (s.thread t').PaysSelf ks
    · rw [if_pos ⟨rfl, hp⟩]
      obtain ⟨e, hcount, ⟨rfl, hslot⟩ | ⟨rfl, d, ho, hslot⟩⟩ := hself hp
      · rw [State.emptied_eq_zero hslot]
        exact ⟨hcount, fun d hd => absurd (congrFun hslot d) hd⟩
      · have hd := hkind.slot_eq hk ho
        rw [State.emptied_eq_one (hacc.balanced.inside d r hd) (by simp [hd]) hslot]
        refine ⟨hcount, fun d' hd' => ?_⟩
        have he : (s.moved t' m' th' o' g').mem.slot d' = Function.update s.mem.slot d none d' :=
          congrFun hslot d'
        rw [he] at hd' ⊢
        by_cases hdd : d' = d
        · subst hdd
          exact ⟨hd, Function.update_self _ _ _⟩
        · exact absurd (Function.update_of_ne hdd _ _) hd'
    · rw [if_neg fun hn => hp hn.2]
      exact hother hp
  · refine ⟨i, ⟨hreach, l, ?_⟩, ?_⟩
    · simpa [State.moved, Ne.symm hne] using ⟨hks, hadv⟩
    · rw [if_neg fun hn => hne hn.1]

/-- Beside what it has paid slots with, `pay_all` has added to the count what it has paid in
advance, at every moment. -/
theorem State.Advanced.tally {y : ℕ × ℤ} (h : s₁.Advanced cfg t ks r 0) (hu : cfg.Uniform k)
    (hk : r.kind = k) (hc : r.Counted)
    (hrun : Guarded.Tally (fun s a => s.step cfg a.1 a.2)
      (fun s (a : T × Choice) => s.FreshGen a.1 ∧ s.StaysAbove t ks a.1) (State.settled t ks r)
      s₁ s y) : ∃ i : ℤ, s.Advanced cfg t ks r i ∧ y.2 = (y.1 : ℤ) + i := by
  refine hrun.invariant (I := fun s y => ∃ i : ℤ, s.Advanced cfg t ks r i ∧ y.2 = (y.1 : ℤ) + i)
    ⟨0, h, rfl⟩ ?_
  rintro s s' ⟨t', c⟩ y ⟨i, hi, hy⟩ ⟨hf, hin⟩ hs
  obtain ⟨i', hi', hstep⟩ := hi.step hu hk hc hf hin hs
  refine ⟨i', hi', ?_⟩
  simp only [State.settled]
  by_cases hp : t' = t ∧ (s.thread t).PaysSelf ks
  · rw [if_pos hp] at hstep ⊢
    simp only [Prod.fst_add, Prod.snd_add, Nat.cast_add, hy, hstep.1]
    omega
  · rw [if_neg hp] at hstep ⊢
    simpa [hstep] using hy

/-- Nothing is paid in advance when `pay_all` returns. -/
theorem State.Advanced.returned {i : ℤ} (h : s.Advanced cfg t ks r i)
    (hret : (s.thread t).ReturnsTo ks) : i = 0 := by
  obtain ⟨l, hks, hadv⟩ := h.scan
  obtain ⟨⟨c, v, ha⟩, hk⟩ := hret
  have hnil : l = [] := by simpa [hk] using hks
  rw [ha, hnil] at hadv
  generalize hl : ([] : List Cont) = l' at hadv
  cases hadv with
  | pay hact => cases hact
  | returned => rfl
  | _ => simp at hl

/-! ## Guards that stay alive -/

/-- The scan for `r`, taken out of `x`, has come to the place `p`, and the guards in `G` do not need
the slots that it has passed: somebody else refers to what has been put there since. -/
structure State.Spares (cfg : Config) (s : State T) (t : T) (x : StorageId) (r : Ref)
    (ks : List Cont) (G : Multiset Guard) (p : Place) : Prop where
  reachable : s.Reachable cfg State.FreshGen
  scan : Scan x r ks p (s.thread t)
  spared : ∀ d, s.mem.slot d = some r → s.mem.Ahead d.node (d.idx + 1) p ∨
    (G.map Guard.claim).count (r, some d) < (s.claims cfg).count (r, some d)

/-- Guards that are alive have claims of their own, beside what a thread claims more. -/
theorem State.Sound.map_claim_le {G : Multiset Guard} {y : Claims} (h : s.Sound cfg)
    (hy : y + (s.thread t).kept.map Guard.claim ≤ (s.thread t).claims cfg) (hg : G ≤ s.kept) :
    y + G.map Guard.claim ≤
      Family.total (Thread.claims cfg) s.thread + poolClaims s.owned s.guards := by
  have htotal := Family.total_map_add_le (φ := Guard.claim) (g := s.thread) (t := t)
    (fun t' _ => (h.typed t').map_claim_kept_le) hy
  have hkept : y + s.kept.map Guard.claim =
      y + (Family.total Thread.kept s.thread).map Guard.claim + s.guards.map Guard.claim := by
    rw [State.kept, Multiset.map_add, add_comm (s.guards.map Guard.claim), add_assoc]
  calc y + G.map Guard.claim ≤ y + s.kept.map Guard.claim :=
        add_le_add le_rfl (Multiset.map_le_map hg)
    _ = _ := hkept
    _ ≤ _ := add_le_add htotal (Multiset.le_add_left _ _)

/-- **No slot is passed while it contains the pointer**, and one that is filled again is filled by
somebody who is not one of the guards. -/
theorem State.Spares.step {c : Choice} {G : Multiset Guard} (h : s.Spares cfg t x r ks G p)
    (hu : cfg.Uniform k) (hc : r.Counted) (hf : s.FreshGen t') (hin : s.StaysAbove t ks t')
    (hg : G ≤ s.kept) (hs : s.step cfg t' c = some s') :
    ∃ p', s'.Spares cfg t x r ks G p' := by
  obtain ⟨hacc, hkind⟩ := h.reachable.accounted_of_uniform hu
  have hcov := h.reachable.covering.2
  obtain ⟨p', hscan', hpass⟩ :=
    State.scan_step hacc.sound hcov.rechecked hf.1 hin h.scan hs
  refine ⟨p', h.reachable.tail ⟨(t', c), hf, hs⟩, hscan', fun d hd => ?_⟩
  have hentry := hacc.sound.entry hacc.handing hacc.borrowing hf.1
    (hkind.sameKind hu (hacc.sound.typed t')) hs
  rcases Ledger.Move.debt hentry hc hd with ⟨hold, hle⟩ | ⟨-, hlt⟩
  · rcases h.spared d hold with ha | hlt
    · obtain ⟨hl, hidx⟩ := hcov.slots d r hold
      refine .inl ((hpass d.node (d.idx + 1) hl (by omega) ha).resolve_right fun hset => ?_)
      exact hset (Mem.Owes.of_slot hd)
    · exact .inr (hlt.trans_le hle)
  · refine .inr (lt_of_le_of_lt (Multiset.count_le_of_le _ ?_) hlt)
    have hle := hacc.sound.map_claim_le (t := t) (y := 0)
      (by simpa using (hacc.sound.typed t).map_claim_kept_le) hg
    rw [zero_add] at hle
    exact hle.trans (Multiset.le_add_right _ _)

/-- When `pay_all` returns, the guards have references of their own beside the one that it
returns. -/
theorem State.Spares.returned {G : Multiset Guard} (h : s.Spares cfg t x r ks G p)
    (hu : cfg.Uniform k) (hc : r.Counted) (hlink : Linked (.paid r) ks) (hr : ∀ g ∈ G, g.ref = r)
    (hg : G ≤ s.kept) (hret : (s.thread t).ReturnsTo ks) : G.card < s.mem.count r := by
  have hacc := (h.reachable.accounted_of_uniform hu).1
  obtain ⟨⟨c, v, ha⟩, hk⟩ := hret
  have hp : p = .done := by
    obtain ⟨l, hks, hp⟩ := h.scan
    obtain rfl : l = [] := by simpa [hk] using hks
    rw [paying_nil, ha] at hp
    exact hp
  subst hp
  have hc' : c = .paid r := by
    have hl := (hacc.sound.typed t).linked
    rw [ha, hk] at hl
    cases ks with
    | nil => cases hlink
    | cons q ks => exact hl.1.trans hlink.1.symm
  subst hc'
  rw [← Multiset.card_map Guard.claim]
  refine hacc.balanced.card_lt hc ?_ ?_ fun d hd => (h.spared d hd).resolve_left id
  · intro c' hc'
    obtain ⟨g, hg, rfl⟩ := Multiset.mem_map.mp hc'
    exact hr g hg
  · -- the value that is returned is claimed beside the guards of the callers
    have hself : {r.claim} + (s.thread t).kept.map Guard.claim ≤ (s.thread t).claims cfg := by
      have hv : v = .unit none := by
        have hm := (hacc.sound.typed t).active
        rwa [ha] at hm
      rw [Thread.kept, Thread.claims, ha, hv]
      exact add_le_add le_rfl (map_claim_conts_le _)
    rw [add_comm]
    exact (hacc.sound.map_claim_le hself hg).trans (Multiset.le_add_right _ _)

/-- The return to a caller that has waited for `pay_all` does not change the memory. -/
theorem State.step_paid {c : Choice} (ht : (s.thread t).Typed cfg) (hlink : Linked (.paid r) ks)
    (hret : (s.thread t).ReturnsTo ks) (hs : s.step cfg t c = some s') : s'.mem = s.mem := by
  obtain ⟨⟨c', v, ha⟩, hk⟩ := hret
  obtain ⟨m', th', o', g', hm, rfl⟩ := State.step_move hs
  cases ks with
  | nil => cases hlink
  | cons q ks =>
    obtain ⟨o, ho, rfl, -⟩ := hm.resumed ha hk fun u c'' hq => by
      have hok := ht.conts q (by simp [hk])
      have hl := hlink.1
      subst hq
      exact hok r hl.symm
    exact ho.mem_eq

/-! ## All debts are settled -/

/-- **A write settles all the debts** of the value it has taken out of a storage: guards on it that
stay alive have references of their own when `pay_all` returns, beside the one that is returned.
`pay_all` only empties slots that contain the value, and adds to its count as many references as it
has emptied slots. -/
theorem State.Reachable.debts_settled {f : PayFrame} (hu : cfg.Uniform k)
    (h : s₁.Reachable cfg State.FreshGen) (ha : (s₁.thread t).active = .payAll f .enter)
    (hc : f.ref.Counted) : s₁.Settles cfg t (s₁.thread t).conts f.ref := by
  have htyped := (h.accounted_of_uniform hu).1.sound.typed t
  have hlink : Linked (.paid f.ref) (s₁.thread t).conts := by
    have := htyped.linked
    rwa [ha] at this
  have hkind : f.ref.kind = k := by
    have := htyped.active
    rw [ha] at this
    exact this.1.trans (hu _)
  have hadv : s₁.Advanced cfg t (s₁.thread t).conts f.ref 0 := ⟨h, [], rfl, .pay ha rfl⟩
  refine ⟨fun G s₂ s₃ c hG hrun hg hret hs => ?_, fun s s' c hrun hp hs d hd => ?_,
    fun s₂ y htally hret => ?_⟩
  · have hscan : Scan f.storage f.ref (s₁.thread t).conts .start (s₁.thread t) :=
      ⟨[], rfl, by rw [paying_nil, ha]; exact ⟨rfl, rfl, rfl⟩⟩
    obtain ⟨p, hp⟩ := hrun.invariant
      (I := fun s => ∃ p, s.Spares cfg t f.storage f.ref (s₁.thread t).conts G p)
      ⟨.start, h, hscan, fun d _ => .inl trivial⟩
      fun s s' a ⟨p, hi⟩ hq hs => hi.step hu hc hq.1 hq.2.1 hq.2.2 hs
    have hlt := hp.returned hu hc hlink hG hg hret
    rw [State.step_paid ((hp.reachable.accounted_of_uniform hu).1.sound.typed t) hlink hret hs]
    omega
  · obtain ⟨y, htally⟩ := hrun.tally (State.settled t (s₁.thread t).conts f.ref)
    obtain ⟨i, hi, -⟩ := hadv.tally hu hkind hc htally
    obtain ⟨hf, hin⟩ := State.freshGen_of_paysSelf hp
    obtain ⟨i', -, hstep⟩ := hi.step hu hkind hc hf hin hs
    rw [if_pos ⟨rfl, hp⟩] at hstep
    exact hstep.2 d hd
  · obtain ⟨i, hi, hy⟩ := hadv.tally hu hkind hc htally
    rw [hy, hi.returned hret, add_zero]

/-- The `swap` of the sample run, which pays the debt of a guard. -/
theorem State.Reachable.debts_settled_sample :
    (State.sample 19).Settles .sample 0 ((State.sample 19).thread 0).conts ⟨.arc, 1⟩ :=
  State.Reachable.debts_settled (k := .arc) (f := .start 0 ⟨.arc, 1⟩) (fun _ => rfl)
    (State.sample_reachable 19) (by decide +kernel) (by decide)

end Run

end ArcSwap
