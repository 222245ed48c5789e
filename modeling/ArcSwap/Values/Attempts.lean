import ArcSwap.Invariants.Scans
import ArcSwap.Values.Updates

/-!
# The attempts of an `rcu`

An `rcu` calls its closure again and again, until an exchange succeeds. Each value that the closure
has made is dropped when it is refused, before the closure is called again; the last one goes into
the storage, in place of the very object that the closure was given.
-/

namespace ArcSwap

variable {T : Type*} {cfg : Config} {tls : Tls} {m m' : Mem} {s s' s₀ s₁ s₂ : State T} {t t' : T}
  {x : StorageId} {c c' : Content} {ks : List Cont} {X : List Attempt}

/-- What an `rcu` does with the values that its closure makes. -/
inductive Attempt
  /-- The closure was given an object, and it has returned a value. -/
  | made (given made : Content) (new : Ref)
  /-- The value has been refused, and it is being dropped. -/
  | dropped (new : Ref)
  deriving DecidableEq

/-- All values have been refused, and each has been dropped before the closure was called again. -/
inductive Refused : List Attempt → Prop
  | none : Refused []
  | more {X c c' r} (h : Refused X) (hr : r.addr = c'.addr) :
    Refused (X ++ [.made c c' r, .dropped r])

/-- What the next step of the thread shows of the `rcu` with the callers `ks`. -/
def Thread.attempt? (ks : List Cont) (m : Mem) (th : Thread) : Option Attempt :=
  match th.active, th.conts with
  | .ret _ (.value new _), .rcuClosure _ _ given :: l =>
    if l = ks then some (.made given (m.content new.addr) new) else none
  | .dec r, .casRefused _ _ :: .rcuSwapped _ _ _ _ :: l =>
    if l = ks then some (.dropped r) else none
  | _, _ => none

/-- What a step shows of the `rcu` that the thread `t` is in, with the callers `ks`. -/
def State.attempt? [DecidableEq T] (t : T) (ks : List Cont) (s : State T) (a : T × Choice) :
    Option Attempt :=
  if a.1 = t then (s.thread t).attempt? ks s.mem else none

theorem Thread.attempt?_eq_some {th : Thread} {e : Attempt} (h : th.attempt? ks m = some e) :
    (∃ d new w f cur given, th.active = .ret d (.value new w) ∧
      th.conts = .rcuClosure f cur given :: ks ∧ e = .made given (m.content new.addr) new) ∨
    ∃ r g old f cur given g', th.active = .dec r ∧
      th.conts = .casRefused g old :: .rcuSwapped f cur given g' :: ks ∧ e = .dropped r := by
  unfold Thread.attempt? at h
  split at h
  · rename_i ha hk
    simp only [Option.ite_none_right_eq_some, Option.some.injEq] at h
    obtain ⟨rfl, rfl⟩ := h
    exact .inl ⟨_, _, _, _, _, _, ha, hk, rfl⟩
  · rename_i ha hk
    simp only [Option.ite_none_right_eq_some, Option.some.injEq] at h
    obtain ⟨rfl, rfl⟩ := h
    exact .inr ⟨_, _, _, _, _, _, _, ha, hk, rfl⟩
  · cases h

/-- Nothing is shown while the `rcu` waits for something else than its closure and the drop. -/
theorem Thread.attempt?_eq_none {th : Thread} {l : List Cont} (hk : th.conts = l ++ ks)
    (hmade : ∀ f cur given, l = [.rcuClosure f cur given] → ∀ d v, th.active ≠ .ret d v)
    (hdrop : ∀ g old f cur given g', l = [.casRefused g old, .rcuSwapped f cur given g'] →
      ∀ r, th.active ≠ .dec r) : th.attempt? ks m = none := by
  by_contra hne
  obtain ⟨e, he⟩ := Option.ne_none_iff_exists'.mp hne
  rcases Thread.attempt?_eq_some he with
    ⟨d, new, w, f, cur, given, ha, hc, -⟩ | ⟨r, g, old, f, cur, given, g', ha, hc, -⟩
  · refine hmade f cur given ?_ d _ ha
    exact List.append_cancel_right (hk.symm.trans hc)
  · refine hdrop g old f cur given g' ?_ r ha
    exact List.append_cancel_right (hk.symm.trans hc)

/-! ## How far an `rcu` has come -/

/-- The caller waits in the `compare_and_swap`, whose new value has not been refused. -/
inductive Cont.Swaps (g : CasFrame) : Cont → Prop
  | loaded : Swaps g (.casLoaded g)
  | retry : Swaps g (.casRetry g)
  | paid {old k} : Swaps g (.casPaid g old k)
  | dec {old k} : Swaps g (.casDec g old k)

/-- How far the `rcu` has come, with the callers `l` of the active function down to its own, after
the attempts `X`. -/
inductive Trying (m : Mem) (f : RcuFrame) : Active → List Cont → List Attempt → Prop
  | load {a l} : Trying m f a (l ++ [.rcuLoaded f]) []
  | closure {a l cur given X} (hX : Refused X) : Trying m f a (l ++ [.rcuClosure f cur given]) X
  | swap {a l q cur given g X} (hq : q.Swaps g) (hX : Refused X) :
    Trying m f a (l ++ [q, .rcuSwapped f cur given g]) (X ++ [.made given g.content g.new])
  | cas {old cur given g X} (hX : Refused X) :
    Trying m f (.cas g old) [.rcuSwapped f cur given g] (X ++ [.made given g.content g.new])
  | refuse {old cur given g X} (hX : Refused X) :
    Trying m f (.dec g.new) [.casRefused g old, .rcuSwapped f cur given g]
      (X ++ [.made given g.content g.new])
  | drop {a l old cur given g X} (hX : Refused X) :
    Trying m f a (l ++ [.destroyed, .casRefused g old, .rcuSwapped f cur given g]) X
  | dropped {d v old cur given g X} (hX : Refused X) :
    Trying m f (.ret d v) [.casRefused g old, .rcuSwapped f cur given g] X
  | swapped {old k cur given g X} (hX : Refused X) :
    Trying m f (.ret (.cas g) (.guard old (some k))) [.rcuSwapped f cur given g]
      (X ++ [.made given g.content g.new])
  | retry {old cur given g X} (hX : Refused X) :
    Trying m f (.ret (.cas g) (.guard old none)) [.rcuSwapped f cur given g] X
  | inner {a l cur given made r w new X} (hX : Refused X)
      (hw : ∀ k, w = some k → m.Replaced f.storage f.call k given made) :
    Trying m f a (l ++ [.rcuInner f cur given made r w]) (X ++ [.made given made new])
  | done {a l given made r w new X} (hX : Refused X)
      (hw : ∀ k, w = some k → m.Replaced f.storage f.call k given made) :
    Trying m f a (l ++ [.rcuDone f given made r w]) (X ++ [.made given made new])
  | again {a l prev X} (hX : Refused X) : Trying m f a (l ++ [.rcuAgain f prev]) X
  | unwind {a l X} (hX : Refused X) : Trying m f a (l ++ [.rcuUnwind f]) X
  | value {r w given made new X} (hX : Refused X)
      (hw : ∀ k, w = some k → m.Replaced f.storage f.call k given made) :
    Trying m f (.ret (.rcu f) (.value r w)) [] (X ++ [.made given made new])
  | panicked {X : List Attempt} (hX : Refused X) : Trying m f (.ret (.rcu f) .panicked) [] X

theorem Trying.mono {f : RcuFrame} {a : Active} {l : List Cont} (h : Trying m f a l X)
    (hl : ∀ x, m.log x <+: m'.log x) : Trying m' f a l X := by
  cases h with
  | inner hX hw => exact .inner hX fun k hk => (hw k hk).mono (hl _)
  | done hX hw => exact .done hX fun k hk => (hw k hk).mono (hl _)
  | value hX hw => exact .value hX fun k hk => (hw k hk).mono (hl _)
  | load => exact .load
  | closure hX => exact .closure hX
  | swap hq hX => exact .swap hq hX
  | cas hX => exact .cas hX
  | refuse hX => exact .refuse hX
  | drop hX => exact .drop hX
  | dropped hX => exact .dropped hX
  | swapped hX => exact .swapped hX
  | retry hX => exact .retry hX
  | again hX => exact .again hX
  | unwind hX => exact .unwind hX
  | panicked hX => exact .panicked hX

section Step

variable {th' : Thread} {o' : Multiset Ref} {g' : Multiset Guard} {R : Computed} {f : RcuFrame}
  {l : List Cont}

/-- A call returns to a caller of the `rcu` that is not waiting for the closure. -/
theorem Move.returns {d : Contract} {v : Ret} {q : Cont} {B : List Cont}
    (hm : Move cfg s t m' th' o' g') (ha : (s.thread t).active = .ret d v)
    (hk : (s.thread t).conts = (q :: B) ++ ks) (hu : ∀ u c, q ≠ .user u c)
    (hq : ∀ f cur given, q ≠ .rcuClosure f cur given) : (s.thread t).attempt? ks s.mem = none ∧
    ∃ o, Resumed cfg (s.thread t).tls s.mem q v o ∧ th'.active = o.active ∧
      th'.conts = (o.calls ++ B) ++ ks := by
  refine ⟨Thread.attempt?_eq_none hk (fun f cur given he => ?_) fun _ _ _ _ _ _ _ r hr => ?_, ?_⟩
  · exact absurd (List.cons.inj he).1 (hq f cur given)
  · rw [ha] at hr
    cases hr
  · rcases hm.cont_stays (l := []) hk with
      ⟨hn, -⟩ | ⟨d', v', ha', -, ⟨o, ho, -, rfl⟩ | ⟨u, c, rfl, -⟩⟩
    · exact absurd ha (hn rfl d v)
    · obtain ⟨-, rfl⟩ := Active.ret.inj (ha.symm.trans ha')
      exact ⟨o, ho, rfl, by simp [Thread.after]⟩
    · exact absurd rfl (hu u c)

/-- A caller of the `rcu` goes on waiting, or its call returns. -/
theorem Move.waits {q : Cont} {B : List Cont} (hm : Move cfg s t m' th' o' g')
    (hk : (s.thread t).conts = (l ++ q :: B) ++ ks) (hu : ∀ u c, q ≠ .user u c)
    (hr : ∀ g old, q ≠ .casRefused g old) (hs : ∀ f cur given g, q ≠ .rcuSwapped f cur given g) :
    ((s.thread t).attempt? ks s.mem = none ∧ ∃ l', th'.conts = (l' ++ q :: B) ++ ks) ∨
    ∃ d v o, (s.thread t).active = .ret d v ∧ (s.thread t).conts = (q :: B) ++ ks ∧
      Resumed cfg (s.thread t).tls s.mem q v o ∧ th'.active = o.active ∧
        th'.conts = (o.calls ++ B) ++ ks := by
  rcases hm.cont_stays (hk.trans (List.append_assoc _ _ _)) with
    ⟨hret, l', hl'⟩ | ⟨d, v, ha, rfl, ⟨o, ho, -, rfl⟩ | ⟨u, c, rfl, -⟩⟩
  · refine .inl ⟨Thread.attempt?_eq_none hk (fun f cur given he => hret ?_) ?_, l',
      by simpa using hl'⟩
    · exact (List.append_eq_singleton_iff.mp he).elim And.left fun h => by simp at h
    · intro g old f cur given g' he
      rcases List.append_eq_cons_iff.mp he with ⟨-, he⟩ | ⟨l, -, he⟩
      · exact absurd (List.cons.inj he).1 (hr g old)
      · rcases List.append_eq_singleton_iff.mp he.symm with ⟨-, he⟩ | ⟨-, he⟩
        · exact absurd (List.cons.inj he).1 (hs f cur given g')
        · cases he
  · exact .inr ⟨d, v, o, ha, hk, ho, rfl, by simp [Thread.after]⟩
  · exact absurd rfl (hu u c)

/-- The `rcu` waits for a call that shows nothing, or this returns. -/
theorem Move.tries {q : Cont} {B : List Cont} (hm : Move cfg s t m' th' o' g')
    (hk : (s.thread t).conts = (l ++ q :: B) ++ ks) (hu : ∀ u c, q ≠ .user u c)
    (hr : ∀ g old, q ≠ .casRefused g old) (hs : ∀ f cur given g, q ≠ .rcuSwapped f cur given g)
    (hq : ∀ f cur given, q ≠ .rcuClosure f cur given)
    (hstay : ∀ a l, Trying m' f a (l ++ q :: B) X)
    (hret : ∀ v o, Resumed cfg (s.thread t).tls s.mem q v o →
      Trying m' f o.active (o.calls ++ B) X) :
    ∃ l', th'.conts = l' ++ ks ∧
      Trying m' f th'.active l' (X ++ ((s.thread t).attempt? ks s.mem).toList) := by
  rcases hm.waits hk hu hr hs with ⟨hn, l', hl⟩ | ⟨d, v, o, ha, hc, ho, he, hl⟩
  · refine ⟨_, hl, ?_⟩
    rw [hn, Option.toList_none, List.append_nil]
    exact hstay _ l'
  · refine ⟨_, hl, ?_⟩
    rw [(hm.returns ha hc hu hq).1, he, Option.toList_none, List.append_nil]
    exact hret v o ho

/-- The `compare_and_swap` of an `rcu` has found the pointer that the closure was given if and only
if it has written. -/
theorem Thread.Typed.swapped_iff {g : CasFrame} {old cur : Guard} {w : Option ℕ} {given : Content}
    (ht : (s.thread t).Typed cfg) (ha : (s.thread t).active = .ret (.cas g) (.guard old w))
    (hk : (s.thread t).conts = .rcuSwapped f cur given g :: ks) :
    w.isSome ↔ cur.ref.addr = old.ref.addr := by
  have hmeets := ht.active
  rw [ha] at hmeets
  obtain ⟨old', w', he, -, -, hw⟩ := hmeets
  obtain ⟨rfl, rfl⟩ := Ret.guard.inj he
  obtain ⟨-, -, -, hcur⟩ := ht.conts (.rcuSwapped f cur given g) (by rw [hk]; exact .head _)
  rw [hw, hcur, eq_comm]

/-- **An `rcu` goes on** in every step of its thread. -/
theorem Trying.step (h : Trying s.mem f (s.thread t).active l X)
    (hk : (s.thread t).conts = l ++ ks) (hm : Move cfg s t m' th' o' g')
    (ht : (s.thread t).Typed cfg) (hM : ∀ q ∈ th'.conts, q.Meant R m')
    (hin : s.StaysAbove t ks t) : ∃ l', th'.conts = l' ++ ks ∧
      Trying m' f th'.active l' (X ++ ((s.thread t).attempt? ks s.mem).toList) := by
  have hmono := h.mono hm.log_prefix
  generalize ha : (s.thread t).active = a at h hmono
  cases hmono with
  | load =>
    refine hm.tries hk (by simp) (by simp) (by simp) (by simp) (fun _ _ => .load) fun v o ho => ?_
    cases ho
    exact .closure (l := []) .none
  | closure hX =>
    rcases hm.waits hk (by simp) (by simp) (by simp) with
      ⟨hn, l', hl⟩ | ⟨d, v, o, hr, hc, ho, he, hl⟩
    · refine ⟨_, hl, ?_⟩
      rw [hn, Option.toList_none, List.append_nil]
      exact .closure hX
    · refine ⟨_, hl, ?_⟩
      rw [he]
      cases ho with
      | rcuClosure =>
        rw [show (s.thread t).attempt? ks s.mem = some _ by simp [Thread.attempt?, hr, hc]; rfl]
        exact .swap (l := []) .loaded hX
      | rcuPanicked =>
        rw [show (s.thread t).attempt? ks s.mem = none by simp [Thread.attempt?, hr, hc]]
        simpa using Trying.unwind (l := []) hX
  | swap hq hX =>
    refine hm.tries hk (by cases hq <;> simp) (by cases hq <;> simp) (by cases hq <;> simp)
      (by cases hq <;> simp) (fun _ _ => .swap hq hX) fun v o ho => ?_
    cases hq with
    | loaded =>
      cases ho with
      | casLoaded => exact .cas hX
      | casRefuse => exact .refuse hX
    | retry =>
      cases ho
      exact .swap (l := []) .loaded hX
    | paid =>
      cases ho
      exact .swap (l := []) .dec hX
    | dec =>
      cases ho
      exact .swapped hX
  | cas hX =>
    rw [Thread.attempt?_eq_none hk (by simp) (by simp), Option.toList_none, List.append_nil]
    cases hm with
    | code hcl =>
      rw [ha] at hcl
      cases hcl with
      | cas hcl =>
        cases hcl with
        | swapped => exact ⟨_, by rw [Thread.after, hk]; rfl, .swap (l := []) .paid hX⟩
        | late => exact ⟨_, by rw [Thread.after, hk]; rfl, .swap (l := []) .retry hX⟩
    | resume hr | receive hr | user hr => exact absurd (ha.symm.trans hr) (by simp)
  | @refuse old cur given g X hX =>
    -- the value that has been refused is dropped
    rw [show (s.thread t).attempt? ks s.mem = some (.dropped g.new) by
      simp [Thread.attempt?, ha, hk], Option.toList_some, List.append_assoc]
    have hX' : Refused (X ++ [.made given g.content g.new, .dropped g.new]) := .more hX rfl
    cases hm with
    | code hcl =>
      rw [ha] at hcl
      cases hcl with
      | dec hcl =>
        cases hcl with
        | last => exact ⟨_, by rw [Thread.after, hk]; rfl, .drop (l := []) hX'⟩
        | dec => exact ⟨_, by rw [Thread.after, hk]; rfl, .dropped hX'⟩
    | resume hr | receive hr | user hr => exact absurd (ha.symm.trans hr) (by simp)
  | drop hX =>
    refine hm.tries hk (by simp) (by simp) (by simp) (by simp) (fun _ _ => .drop hX)
      fun v o ho => ?_
    cases ho
    exact .dropped hX
  | dropped hX =>
    obtain ⟨hn, o, ho, he, hl⟩ := hm.returns ha hk (by simp) (by simp)
    rw [hn, he, Option.toList_none, List.append_nil]
    cases ho
    exact ⟨_, hl, .retry hX⟩
  | swapped hX =>
    obtain ⟨hn, o, ho, he, hl⟩ := hm.returns ha hk (by simp) (by simp)
    rw [hn, he, Option.toList_none, List.append_nil]
    cases ho with
    | rcuSwapped =>
      obtain ⟨-, -, hw⟩ := hM (.rcuInner _ _ _ _ _ _) (by rw [hl]; exact List.mem_cons_self)
      exact ⟨_, hl, .inner (l := []) hX hw⟩
    | rcuRetry hne => exact absurd ((ht.swapped_iff ha hk).mp rfl) hne
  | retry hX =>
    obtain ⟨hn, o, ho, he, hl⟩ := hm.returns ha hk (by simp) (by simp)
    rw [hn, he, Option.toList_none, List.append_nil]
    cases ho with
    | rcuSwapped hcur => exact absurd ((ht.swapped_iff ha hk).mpr hcur) (by simp)
    | rcuRetry => exact ⟨_, hl, .again (l := []) hX⟩
  | inner hX hw =>
    refine hm.tries hk (by simp) (by simp) (by simp) (by simp) (fun _ _ => .inner hX hw)
      fun v o ho => ?_
    cases ho
    exact .done (l := []) hX hw
  | done hX hw =>
    refine hm.tries hk (by simp) (by simp) (by simp) (by simp) (fun _ _ => .done hX hw)
      fun v o ho => ?_
    cases ho
    exact .value hX hw
  | again hX =>
    refine hm.tries hk (by simp) (by simp) (by simp) (by simp) (fun _ _ => .again hX)
      fun v o ho => ?_
    cases ho
    exact .closure (l := []) hX
  | unwind hX =>
    refine hm.tries hk (by simp) (by simp) (by simp) (by simp) (fun _ _ => .unwind hX)
      fun v o ho => ?_
    cases ho
    exact .panicked hX
  | value | panicked => exact absurd hk (hin rfl _ _ ha)

end Step

/-! ## Runs -/

section Run

variable [Fintype T] [DecidableEq T] {k : RefKind} {f : RcuFrame} {l : List Cont}

/-- A run in which the `rcu` of the thread `t` with the callers `ks` has not returned, with its
attempts. -/
def State.Attempts (cfg : Config) (t : T) (ks : List Cont) :
    State T → State T → List Attempt → Prop :=
  Guarded.Trace (fun s a => s.step cfg a.1 a.2)
    (fun s (a : T × Choice) => s.FreshGen a.1 ∧ s.StaysAbove t ks a.1) (State.attempt? t ks)

/-- The run is a run of the machine that keeps the counts right. -/
theorem State.Run.calm {P : State T → T × Choice → Prop} (hu : cfg.Uniform k)
    (h : s₁.Reachable cfg (State.Calm cfg))
    (hr : Guarded.Run (fun s (a : T × Choice) => s.step cfg a.1 a.2) P s₁ s₂)
    (hP : ∀ s a, P s a → s.FreshGen a.1) : State.Run cfg (State.Calm cfg) s₁ s₂ :=
  Guarded.Run.guard (I := fun s => s.Reachable cfg (State.Calm cfg)) hr h
    (fun _ _ a hi hp hs => hi.tail ⟨a, hi.calm_step hu (hP _ a hp), hs⟩)
    fun _ a hi hp => hi.calm_step hu (hP _ a hp)

theorem State.Attempts.calm (h : State.Attempts cfg t ks s₁ s₂ X) (hu : cfg.Uniform k)
    (h₁ : s₁.Reachable cfg (State.Calm cfg)) : State.Run cfg (State.Calm cfg) s₁ s₂ :=
  State.Run.calm hu h₁ (Guarded.Trace.run h) fun _ _ hp => hp.1

/-- An `rcu` goes on in every run. -/
theorem State.Attempts.trying (h : State.Attempts cfg t ks s₁ s X) (hu : cfg.Uniform k)
    (h₁ : s₁.Reachable cfg (State.Calm cfg)) (hk : (s₁.thread t).conts = l ++ ks)
    (h₀ : Trying s₁.mem f (s₁.thread t).active l []) :
    ∃ l', (s.thread t).conts = l' ++ ks ∧ Trying s.mem f (s.thread t).active l' X := by
  refine Guarded.Trace.invariant (I := fun s X => ∃ l', (s.thread t).conts = l' ++ ks ∧
    Trying s.mem f (s.thread t).active l' X) h ⟨l, hk, h₀⟩ ?_
  rintro s s' ⟨t', a⟩ X hr ⟨l', hl, hX⟩ ⟨hf, hin⟩ hs
  have hR : s.Reachable cfg (State.Calm cfg) :=
    Relation.ReflTransGen.trans h₁ (State.Run.calm hu h₁ hr fun _ _ hp => hp.1)
  have hR' : s'.Reachable cfg (State.Calm cfg) := hR.tail ⟨(t', a), hR.calm_step hu hf, hs⟩
  obtain ⟨m', th', o', g', hm, rfl⟩ := State.step_move hs
  by_cases ht : t' = t
  · subst ht
    have hM := (hR'.meant t').2
    simpa [State.moved, State.attempt?] using
      hX.step hl hm (hR.accounted.sound.typed t') (by simpa [State.moved] using hM) hin
  · have hl' := hX.mono hm.log_prefix
    simpa [State.moved, State.attempt?, Ne.symm ht, ht, hl] using hl'

omit [Fintype T] [DecidableEq T] in
/-- An `rcu` that waits for its closure is the one that has been called. -/
theorem Trying.frame_eq {a : Active} {f' : RcuFrame} {cur : Guard} {given : Content}
    (h : Trying m f a [.rcuClosure f' cur given] X) : f' = f := by
  generalize hl : [Cont.rcuClosure f' cur given] = l at h
  cases h with
  | closure =>
    obtain ⟨-, he⟩ := List.append_eq_singleton_iff.mp hl.symm |>.resolve_right (by simp)
    simp only [List.cons.injEq, Cont.rcuClosure.injEq, and_true] at he
    exact he.1.symm
  | _ =>
    have hlast := congrArg List.getLast? hl
    simp at hlast

omit [Fintype T] [DecidableEq T] in
/-- How an `rcu` ends. -/
theorem Trying.ends {d : Contract} {r : Ret} (h : Trying m f (.ret d r) [] X) :
    (∃ v w given made new L, r = .value v w ∧ X = L ++ [.made given made new] ∧ Refused L ∧
      ∀ k, w = some k → m.Replaced f.storage f.call k given made) ∨
    (r = .panicked ∧ Refused X) := by
  generalize hl : ([] : List Cont) = l, ha : Active.ret d r = a at h
  cases h with
  | value hX hw =>
    obtain ⟨-, rfl⟩ := Active.ret.inj ha
    exact .inl ⟨_, _, _, _, _, _, rfl, rfl, hX, hw⟩
  | panicked hX =>
    obtain ⟨-, rfl⟩ := Active.ret.inj ha
    exact .inr ⟨rfl, hX⟩
  | _ => simp at hl

/-- What is shown of a value that has been made is what the closure has computed. -/
theorem State.Attempts.computes {a : T × Choice} {new : Ref} (h : State.Attempts cfg t ks s₁ s X)
    (hu : cfg.Uniform k) (h₁ : s₁.Reachable cfg (State.Calm cfg))
    (hk : (s₁.thread t).conts = l ++ ks) (h₀ : Trying s₁.mem f (s₁.thread t).active l [])
    (he : s.attempt? t ks a = some (.made c c' new)) : a.1 = t ∧ s.Computes t f c c' := by
  simp only [State.attempt?, Option.ite_none_right_eq_some] at he
  obtain ⟨ht, he⟩ := he
  refine ⟨ht, ?_⟩
  rcases Thread.attempt?_eq_some he with
    ⟨d, new', w, f', cur, given, ha, hc, he⟩ | ⟨r, g, old, f', cur, given, g', ha, hc, he⟩
  · obtain ⟨rfl, rfl, rfl⟩ := Attempt.made.inj he
    obtain ⟨l', hl, htry⟩ := h.trying hu h₁ hk h₀
    obtain rfl : l' = [.rcuClosure f' cur c] := List.append_cancel_right (hl.symm.trans hc)
    obtain rfl := htry.frame_eq
    have hR : s.Reachable cfg (State.Calm cfg) := Relation.ReflTransGen.trans h₁ (h.calm hu h₁)
    have hgiven : s.mem.content cur.ref.addr = c :=
      (hR.meant t).2 (.rcuClosure f' cur c) (by rw [hc]; exact List.mem_cons_self)
    have htyped := (hR.accounted.sound.typed t).linked
    rw [ha, hc] at htyped
    obtain rfl : d = .closure f'.storage := htyped.1
    exact ⟨cur, new, w, ks, ha, hc, hgiven, rfl⟩
  · cases he

end Run

end ArcSwap
