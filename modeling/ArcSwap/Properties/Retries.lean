import ArcSwap.Invariants.Scans

/-!
# Help gets out

The loop of `help` starts another round only when it has read a value of the control that differs
from the one it has acted on. Each round consumes a change of that control, and takes a bounded
number of own steps, whatever the nested load of the replacement does in between.
-/

namespace ArcSwap

variable {T : Type*} {cfg : Config} {tls : Tls} {m m' : Mem} {s s' : State T} {t : T}
  {who : NodeId} {ks : List Cont}

/-! ## The call of `help` -/

/-- The program points of `help` for the node `who`. -/
def PayPc.Helps (who : NodeId) : PayPc → Prop
  | .helpInUse w | .helpIdle _ w | .helpControl _ w | .helpAddr _ w _ | .helpRecheck _ w _
  | .helpTheirs _ w _ _ | .helpMine _ w _ _ _ | .helpWrite _ w _ _ _ _ | .helpCas _ w _ _ _ _
  | .helpTake _ w _ => w = who
  | _ => False

/-- The function is in `help` for the node `who`. -/
def Active.Helps (who : NodeId) : Active → Prop
  | .payAll _ pc => pc.Helps who
  | _ => False

/-- The suspended caller is in `help` for the node `who`. -/
def Cont.Helps (who : NodeId) : Cont → Prop
  | .helpReplacement _ _ w _ | .helpRetry _ _ w _ => w = who
  | _ => False

/-- The thread is in a call of `help` above the callers `ks`, with `l` between them. -/
def HelpsIn (who : NodeId) (a : Active) (l : List Cont) : Prop :=
  l.getLast?.elim (a.Helps who) (Cont.Helps who)

/-- The thread is in a call of `help` for the node `who` above the callers `ks`. -/
def Thread.Helps (who : NodeId) (ks : List Cont) (th : Thread) : Prop :=
  ∃ l, th.conts = l ++ ks ∧ HelpsIn who th.active l

/-- The loop of `help` is entered in this step, for the first time or once more. -/
def PayPc.Loops (m : Mem) : PayPc → Prop
  | .helpControl _ _ => True
  | .helpRecheck _ w c => m.control w ≠ c
  | .helpCas _ w c _ _ _ => m.control w ≠ c
  | _ => False

instance (pc : PayPc) : Decidable (pc.Loops m) := by
  unfold PayPc.Loops
  split <;> infer_instance

/-- The same for the active function. -/
def Active.Loops (m : Mem) : Active → Prop
  | .payAll _ pc => pc.Loops m
  | _ => False

instance (a : Active) : Decidable (a.Loops m) := by
  unfold Active.Loops
  split <;> infer_instance

/-- What has happened in a call of `help`. -/
@[ext]
structure HelpCost where
  /-- The rounds of its loop that have been started. -/
  rounds : ℕ
  /-- The changes of the control of the other node, by any thread. -/
  changes : ℕ
  /-- The steps of `help` itself, without those of the functions it has called. -/
  steps : ℕ

instance : Zero HelpCost := ⟨⟨0, 0, 0⟩⟩

instance : Add HelpCost :=
  ⟨fun x y => ⟨x.rounds + y.rounds, x.changes + y.changes, x.steps + y.steps⟩⟩

@[simp] theorem HelpCost.zero_rounds : (0 : HelpCost).rounds = 0 := rfl
@[simp] theorem HelpCost.zero_changes : (0 : HelpCost).changes = 0 := rfl
@[simp] theorem HelpCost.zero_steps : (0 : HelpCost).steps = 0 := rfl
@[simp] theorem HelpCost.add_rounds (x y : HelpCost) : (x + y).rounds = x.rounds + y.rounds := rfl
@[simp] theorem HelpCost.add_changes (x y : HelpCost) :
    (x + y).changes = x.changes + y.changes := rfl
@[simp] theorem HelpCost.add_steps (x y : HelpCost) : (x + y).steps = x.steps + y.steps := rfl

/-- What a step of the machine amounts to for the call of `help` of the thread `t` for the node
`who` above the callers `ks`. -/
def State.helpCost [DecidableEq T] (t : T) (who : NodeId) (ks : List Cont) (s : State T)
    (a : T × Choice) (s' : State T) : HelpCost where
  rounds := if a.1 = t ∧ (s.thread t).conts = ks ∧ (s.thread t).active.Loops s.mem then 1 else 0
  changes := if s'.mem.control who ≠ s.mem.control who then 1 else 0
  steps := if a.1 = t ∧ ((s.thread t).conts = ks ∨
    (s.thread t).active.IsRet ∧ (s.thread t).conts.tail = ks) then 1 else 0

/-! ## Rounds and steps that are left -/

/-- The control has changed since `help` has read the value `c`. -/
def Mem.stale (m : Mem) (who : NodeId) (c : ℕ) : ℕ := if m.control who = c then 0 else 1

/-- Where a call of `help` is: `d` rounds can be started without another change of the control, and
`k` own steps are left in this round. -/
inductive HelpAt (m : Mem) (who : NodeId) (a : Active) : List Cont → ℕ → ℕ → Prop
  | inUse {f} (h : a = .payAll f (.helpInUse who)) : HelpAt m who a [] 1 3
  | idle {f me} (h : a = .payAll f (.helpIdle me who)) : HelpAt m who a [] 1 2
  | control {f me} (h : a = .payAll f (.helpControl me who)) : HelpAt m who a [] 1 1
  | addr {f me c} (h : a = .payAll f (.helpAddr me who c)) : HelpAt m who a [] (m.stale who c) 7
  | recheck {f me c} (h : a = .payAll f (.helpRecheck me who c)) :
    HelpAt m who a [] (m.stale who c) 1
  | replacement {l f me c} : HelpAt m who a (l ++ [.helpReplacement f me who c]) (m.stale who c) 6
  | theirs {f me c q} (h : a = .payAll f (.helpTheirs me who c q)) :
    HelpAt m who a [] (m.stale who c) 5
  | mine {f me c q e} (h : a = .payAll f (.helpMine me who c q e)) :
    HelpAt m who a [] (m.stale who c) 4
  | write {f me c q e e'} (h : a = .payAll f (.helpWrite me who c q e e')) :
    HelpAt m who a [] (m.stale who c) 3
  | cas {f me c q e e'} (h : a = .payAll f (.helpCas me who c q e e')) :
    HelpAt m who a [] (m.stale who c) 2
  | retry {l f me c} : HelpAt m who a (l ++ [.helpRetry f me who c]) (m.stale who c) 8
  | take {f me e} (h : a = .payAll f (.helpTake me who e)) : HelpAt m who a [] 0 1

/-- Without a change of the control, what has been read of it stays what it is. -/
theorem Mem.stale_le (c : ℕ) :
    m'.stale who c ≤ m.stale who c + if m'.control who ≠ m.control who then 1 else 0 := by
  unfold Mem.stale
  by_cases h : m'.control who = m.control who
  · simp [h]
  · rw [if_pos h]
    split <;> omega

@[simp] theorem Mem.stale_self : m.stale who (m.control who) = 0 := if_pos rfl

theorem Dispatched.helpAt {f : PayFrame} {me : NodeId} {a : Active}
    (h : Dispatched f me who (m.control who) a) (ha : HelpsIn who a []) :
    HelpAt m who a [] 0 7 := by
  cases h with
  | gen =>
    have : HelpAt m who (.payAll f (.helpAddr me who (m.control who))) []
        (m.stale who (m.control who)) 7 := .addr rfl
    rwa [Mem.stale_self] at this
  | pass | myself | invalid => exact ha.elim

/-- A clause of `help` uses up an own step, and a round when it starts one. -/
theorem PayClause.helpAt {f : PayFrame} {pc : PayPc} {o : Out} {d k : ℕ}
    (h : PayClause tls m f pc o) (ha : HelpAt m who (.payAll f pc) [] d k) :
    ∃ d' k', (HelpsIn who o.active o.calls → HelpAt o.mem who o.active o.calls d' k') ∧
      (if pc.Loops m then 1 else 0) + d' ≤
        d + (if o.mem.control who ≠ m.control who then 1 else 0) ∧
      1 + k' ≤ k + 8 * (if pc.Loops m then 1 else 0) := by
  generalize hl : ([] : List Cont) = l at ha
  cases ha with
  | replacement | retry => simp at hl
  | inUse ha =>
    cases ha
    cases h with
    | helpInUse => exact ⟨1, 2, fun _ => .idle rfl, by simp [PayPc.Loops], by simp [PayPc.Loops]⟩
    | _ => exact ⟨0, 0, False.elim, by simp [PayPc.Loops], by simp [PayPc.Loops]⟩
  | idle ha =>
    cases ha
    cases h with
    | helpIdle => exact ⟨1, 1, fun _ => .control rfl, by simp [PayPc.Loops], by simp [PayPc.Loops]⟩
    | helperBusy => exact ⟨0, 0, False.elim, by simp [PayPc.Loops], by simp [PayPc.Loops]⟩
  | control ha =>
    cases ha
    cases h with
    | helpControl h => exact ⟨0, 7, h.helpAt, by simp [PayPc.Loops], by simp [PayPc.Loops]⟩
  | @addr _ me c ha =>
    cases ha
    cases h with
    | helpAddr =>
      refine ⟨m.stale who c, 6, fun _ => ?_, by simp [PayPc.Loops], by simp [PayPc.Loops]⟩
      exact .replacement (l := [_])
    | helpAddrOther =>
      exact ⟨m.stale who c, 1, fun _ => .recheck rfl, by simp [PayPc.Loops], by simp [PayPc.Loops]⟩
  | @recheck _ me c ha =>
    cases ha
    cases h with
    | helpRecheck => exact ⟨0, 0, False.elim, by simp_all [PayPc.Loops], by simp⟩
    | helpChanged hc h =>
      refine ⟨0, 7, h.helpAt, ?_, ?_⟩
      · simp [PayPc.Loops, Mem.stale, hc]
      · simp [PayPc.Loops, hc]
  | @theirs _ me c q ha =>
    cases ha
    cases h with
    | helpTheirs =>
      exact ⟨m.stale who c, 4, fun _ => .mine rfl, by simp [PayPc.Loops], by simp [PayPc.Loops]⟩
  | @mine _ me c q e ha =>
    cases ha
    cases h with
    | helpMine =>
      exact ⟨m.stale who c, 3, fun _ => .write rfl, by simp [PayPc.Loops], by simp [PayPc.Loops]⟩
  | @write _ me c q e e' ha =>
    cases ha
    cases h with
    | helpWrite =>
      exact ⟨m.stale who c, 2, fun _ => .cas rfl, by simp [PayPc.Loops], by simp [PayPc.Loops]⟩
    | misaligned => exact ⟨0, 0, False.elim, by simp [PayPc.Loops], by simp [PayPc.Loops]⟩
  | @cas _ me c q e e' ha =>
    cases ha
    cases h with
    | helpCas h =>
      exact ⟨0, 1, fun _ => .take rfl, by simp [PayPc.Loops, h], by simp [PayPc.Loops, h]⟩
    | helpLate hc =>
      refine ⟨0, 8, fun _ => ?_, ?_, ?_⟩
      · have : HelpAt m who (.dec q)
            ([] ++ [.helpRetry { f with readAt := m.epoch who } me who (m.control who)])
            (m.stale who (m.control who)) 8 := .retry
        rwa [Mem.stale_self] at this
      · simp [PayPc.Loops, Mem.stale, hc]
      · simp [PayPc.Loops, hc]
  | take ha =>
    cases ha
    cases h with
    | helpTake => exact ⟨0, 0, False.elim, by simp [PayPc.Loops], by simp [PayPc.Loops]⟩

/-- When the load of the replacement, or the drop of a replacement that nobody took, returns, `help`
goes on. -/
theorem Resumed.helpAt {q : Cont} {v : Ret} {o : Out} {a : Active} {d k : ℕ}
    (h : Resumed cfg tls m q v o) (ha : HelpAt m who a [q] d k) :
    ∃ k', (HelpsIn who o.active o.calls → HelpAt o.mem who o.active o.calls d k') ∧ 1 + k' ≤ k := by
  generalize hl : [q] = l at ha
  cases ha with
  | @replacement l f me c =>
    have hl' : [] ++ [q] = l ++ [.helpReplacement f me who c] := hl
    obtain ⟨rfl, hq⟩ := List.append_inj' hl' rfl
    cases hq
    cases h
    exact ⟨5, fun _ => .theirs rfl, le_rfl⟩
  | @retry l f me c =>
    have hl' : [] ++ [q] = l ++ [.helpRetry f me who c] := hl
    obtain ⟨rfl, hq⟩ := List.append_inj' hl' rfl
    cases hq
    cases h with
    | helpRetry h =>
      refine ⟨7, fun ha => ?_, le_rfl⟩
      cases h with
      | gen => exact .addr rfl
      | pass | myself | invalid => exact ha.elim
  | _ => simp at hl

/-! ## One step -/

/-- Where a call of `help` is, if it has not been left. -/
def Thread.HelpsAt (m : Mem) (who : NodeId) (ks : List Cont) (d k : ℕ) (th : Thread) : Prop :=
  th.Helps who ks → ∃ l, th.conts = l ++ ks ∧ HelpAt m who th.active l d k

theorem HelpAt.helpsIn {a : Active} {l : List Cont} {d k : ℕ} (h : HelpAt m who a l d k) :
    HelpsIn who a l := by
  cases h with
  | replacement | retry =>
    rw [HelpsIn, List.getLast?_concat]
    rfl
  | _ =>
    subst_vars
    rfl

theorem HelpAt.pos {a : Active} {l : List Cont} {d k : ℕ} (h : HelpAt m who a l d k) : 1 ≤ k := by
  cases h <;> decide

/-- While something runs above `help`, only the control matters. -/
theorem HelpAt.above {a a' : Active} {l j : List Cont} {d k : ℕ} {q : Cont}
    (h : HelpAt m who a (l ++ [q]) d k) : ∃ d', HelpAt m' who a' (j ++ [q]) d' k ∧
      d' ≤ d + if m'.control who ≠ m.control who then 1 else 0 := by
  generalize hl : l ++ [q] = l' at h
  cases h with
  | replacement =>
    cases (List.append_inj' hl rfl).2
    exact ⟨_, .replacement, Mem.stale_le _⟩
  | retry =>
    cases (List.append_inj' hl rfl).2
    exact ⟨_, .retry, Mem.stale_le _⟩
  | _ => simp at hl

/-- A step of another thread. -/
theorem HelpAt.other {a : Active} {l : List Cont} {d k : ℕ} (h : HelpAt m who a l d k) :
    ∃ d', HelpAt m' who a l d' k ∧
      d' ≤ d + if m'.control who ≠ m.control who then 1 else 0 := by
  cases h with
  | inUse h => exact ⟨1, .inUse h, by omega⟩
  | idle h => exact ⟨1, .idle h, by omega⟩
  | control h => exact ⟨1, .control h, by omega⟩
  | take h => exact ⟨0, .take h, by omega⟩
  | addr h => exact ⟨_, .addr h, Mem.stale_le _⟩
  | recheck h => exact ⟨_, .recheck h, Mem.stale_le _⟩
  | theirs h => exact ⟨_, .theirs h, Mem.stale_le _⟩
  | mine h => exact ⟨_, .mine h, Mem.stale_le _⟩
  | write h => exact ⟨_, .write h, Mem.stale_le _⟩
  | cas h => exact ⟨_, .cas h, Mem.stale_le _⟩
  | replacement => exact ⟨_, .replacement, Mem.stale_le _⟩
  | retry => exact ⟨_, .retry, Mem.stale_le _⟩

section Move

variable {th' : Thread} {o' : Multiset Ref} {g' : Multiset Guard} {l : List Cont} {d k : ℕ}

/-- **A step of the thread in `help`** uses up an own step and a round, if it is one of `help`
itself. -/
theorem Move.helpAt (h : Move cfg s t m' th' o' g') (hk : (s.thread t).conts = l ++ ks)
    (ha : HelpAt s.mem who (s.thread t).active l d k) :
    ∃ d' k', (th'.Helps who ks → ∃ l', th'.conts = l' ++ ks ∧ HelpAt m' who th'.active l' d' k') ∧
      (if (s.thread t).conts = ks ∧ (s.thread t).active.Loops s.mem then 1 else 0) + d' ≤
        d + (if m'.control who ≠ s.mem.control who then 1 else 0) ∧
      (if (s.thread t).conts = ks ∨ (s.thread t).active.IsRet ∧ (s.thread t).conts.tail = ks
          then 1 else 0) + k' ≤
        k + 8 * (if (s.thread t).conts = ks ∧ (s.thread t).active.Loops s.mem then 1 else 0) := by
  rcases List.eq_nil_or_concat l with rfl | ⟨j, q, rfl⟩
  · have hk' : (s.thread t).conts = ks := by simpa using hk
    simp only [hk', true_and, true_or, if_true]
    cases hact : (s.thread t).active with
    | payAll f pc =>
      cases h with
      | @code o h =>
        rw [hact] at h ha
        cases h with
        | payAll h =>
          obtain ⟨d', k', hat, hd, hk₁⟩ := h.helpAt ha
          refine ⟨d', k', fun hh => ⟨o.calls, by simp [Thread.after, hk'], hat ?_⟩, hd, hk₁⟩
          obtain ⟨l', hl', hh⟩ := hh
          obtain rfl : o.calls = l' := by simpa [Thread.after, hk'] using hl'
          exact hh
      | resume h | receive h | user h =>
        rw [hact] at h
        cases h
    | _ =>
      rw [hact] at ha
      exact ha.helpsIn.elim
  · rw [List.concat_eq_append] at hk ha
    have hk' : (s.thread t).conts = j ++ q :: ks := by simpa using hk
    have hq : ∀ u c, q ≠ .user u c := by
      rintro u c rfl
      have := ha.helpsIn
      rw [HelpsIn, List.getLast?_concat] at this
      exact this
    have hne : (s.thread t).conts ≠ ks := by
      intro he
      have := congrArg List.length (he.symm.trans hk')
      simp at this
      omega
    simp only [hne, false_and, false_or, if_false, Nat.zero_add, Nat.mul_zero, Nat.add_zero]
    by_cases hret : (s.thread t).active.IsRet ∧ (s.thread t).conts.tail = ks
    · rw [if_pos hret]
      -- the function above `help` returns to it
      obtain rfl : j = [] := by
        have := congrArg List.length (hk' ▸ hret.2)
        cases j with
        | nil => rfl
        | cons =>
          simp at this
          omega
      cases hact : (s.thread t).active with
      | ret c v =>
        obtain ⟨o, ho, rfl, rfl⟩ := h.resumed hact hk' hq
        obtain ⟨k', hat, hk₁⟩ := ho.helpAt ha
        refine ⟨d, k', fun hh => ⟨o.calls, rfl, hat ?_⟩, by omega, by omega⟩
        obtain ⟨l', hl', hh⟩ := hh
        obtain rfl : o.calls = l' := List.append_cancel_right hl'
        exact hh
      | _ =>
        rw [hact] at hret
        exact hret.1.elim
    · rw [if_neg hret]
      rcases h.stays hk' hq with ⟨l', hl'⟩ | ⟨rfl, c, v, o, hact, -⟩
      · obtain ⟨d', hat, hd⟩ := ha.above (j := l')
        exact ⟨d', k, fun _ => ⟨l' ++ [q], by simpa using hl', hat⟩, hd, by omega⟩
      · exact absurd ⟨by rw [hact]; trivial, by rw [hk']; rfl⟩ hret

end Move

/-! ## A whole call -/

section Run

variable [Fintype T] [DecidableEq T]

/-- How often the loop of the call of `help` for the node `who` goes round, in every run from its
beginning until it is left. -/
structure State.GetsOut (cfg : Config) (s : State T) (t : T) (who : NodeId) (ks : List Cont) :
    Prop where
  /-- Beside the first round, each one needs a change of the control. -/
  rounds : ∀ s' x, Guarded.Tally (fun s a => s.step cfg a.1 a.2)
    (fun s (_ : T × Choice) => (s.thread t).Helps who ks) (State.helpCost t who ks) s s' x →
    x.rounds ≤ 1 + x.changes
  /-- No round takes more than eight steps. -/
  steps : ∀ s' x, Guarded.Tally (fun s a => s.step cfg a.1 a.2)
    (fun s (_ : T × Choice) => (s.thread t).Helps who ks) (State.helpCost t who ks) s s' x →
    x.steps ≤ 3 + 8 * x.rounds
  /-- So it is left: as long as it is not, a step of its own is left. -/
  left : ∀ s' x, Guarded.Tally (fun s a => s.step cfg a.1 a.2)
    (fun s (_ : T × Choice) => (s.thread t).Helps who ks) (State.helpCost t who ks) s s' x →
    (s'.thread t).Helps who ks → x.steps < 3 + 8 * (1 + x.changes)
  /-- Nothing holds it up: where no generation has wrapped around, the next step of the thread can
  be taken, be it one of `help` or of the functions that it has called. -/
  goes : ∀ s' x, Guarded.Tally (fun s a => s.step cfg a.1 a.2)
    (fun s (_ : T × Choice) => (s.thread t).Helps who ks) (State.helpCost t who ks) s s' x →
    s'.Reachable cfg State.NoWrap → (∀ u, (s'.thread t).active ≠ .user u) →
    ∃ s'', s'.step cfg t (.go false) = some s''

/-- The rounds that can be started and the steps that are left make up for what has happened. -/
structure State.HelpBounded (s : State T) (t : T) (who : NodeId) (ks : List Cont) (x : HelpCost)
    (d k : ℕ) : Prop where
  position : (s.thread t).HelpsAt s.mem who ks d k
  rounds : x.rounds + d ≤ 1 + x.changes
  steps : x.steps + k ≤ 3 + 8 * x.rounds

theorem State.HelpBounded.step {t' : T} {c : Choice} {x : HelpCost} {d k : ℕ}
    (h : s.HelpBounded t who ks x d k) (hin : (s.thread t).Helps who ks)
    (hs : s.step cfg t' c = some s') :
    ∃ d' k', s'.HelpBounded t who ks (x + s.helpCost t who ks (t', c) s') d' k' := by
  obtain ⟨l, hk, hat⟩ := h.position hin
  have hr := h.rounds
  have hst := h.steps
  obtain ⟨m', th', o', g', hm, rfl⟩ := State.step_move hs
  by_cases hne : t' = t
  · subst hne
    obtain ⟨d', k', hat', hd, hk'⟩ := hm.helpAt hk hat
    refine ⟨d', k', ?_, ?_, ?_⟩
    · simpa [Thread.HelpsAt, State.moved] using hat'
    · simp only [State.helpCost, HelpCost.add_rounds, HelpCost.add_changes, true_and]
      have : (s.moved t' m' th' o' g').mem = m' := rfl
      rw [this]
      omega
    · simp only [State.helpCost, HelpCost.add_rounds, HelpCost.add_steps, true_and]
      omega
  · obtain ⟨d', hat', hd⟩ : ∃ d', HelpAt m' who (s.thread t).active l d' k ∧
        d' ≤ d + if m'.control who ≠ s.mem.control who then 1 else 0 := hat.other
    refine ⟨d', k, fun _ => ⟨l, ?_⟩, ?_, ?_⟩
    · simpa [State.moved, Ne.symm hne] using ⟨hk, hat'⟩
    · simp only [State.helpCost, HelpCost.add_rounds, HelpCost.add_changes, hne, false_and,
        if_false]
      have : (s.moved t' m' th' o' g').mem = m' := rfl
      rw [this]
      omega
    · simp only [State.helpCost, HelpCost.add_rounds, HelpCost.add_steps, hne, false_and, if_false]
      omega

theorem State.HelpBounded.tally {x : HelpCost} {d k : ℕ} (h : s.HelpBounded t who ks 0 d k)
    (hx : Guarded.Tally (fun s a => s.step cfg a.1 a.2)
      (fun s (_ : T × Choice) => (s.thread t).Helps who ks) (State.helpCost t who ks) s s' x) :
    ∃ d k, s'.HelpBounded t who ks x d k := by
  apply hx.invariant (I := fun s x => ∃ d k, s.HelpBounded t who ks x d k) ⟨d, k, h⟩
  rintro s₁ s₂ ⟨t', c⟩ x ⟨d, k, hb⟩ hin hs
  exact hb.step hin hs

/-- **`help` always gets out** unless the other side moves: in every run, its loop starts at most
one round more than the control of the other node has been changed during the call, and makes at
most eight steps of its own in each. -/
theorem State.help_gets_out {f : PayFrame}
    (ha : (s.thread t).active = .payAll f (.helpInUse who)) :
    s.GetsOut cfg t who (s.thread t).conts := by
  have h₀ : s.HelpBounded t who (s.thread t).conts 0 1 3 :=
    ⟨fun _ => ⟨[], rfl, .inUse ha⟩, by simp, by simp⟩
  constructor
  · intro s' x hx
    obtain ⟨d, k, hb⟩ := h₀.tally hx
    have := hb.rounds
    omega
  · intro s' x hx
    obtain ⟨d, k, hb⟩ := h₀.tally hx
    have := hb.steps
    omega
  · intro s' x hx hin
    obtain ⟨d, k, hb⟩ := h₀.tally hx
    obtain ⟨l, -, hat⟩ := hb.position hin
    have hk := hat.pos
    have hr := hb.rounds
    have hst := hb.steps
    omega
  · exact fun s' x _ hr hu => hr.sound.goes hu

/-- The call of `help` of the sample run that hands over a replacement. -/
theorem State.help_gets_out_sample :
    (State.sample 97).GetsOut .sample 0 0 ((State.sample 97).thread 0).conts :=
  State.help_gets_out (f := ⟨1, ⟨.arc, 3⟩, none, 0, 0, 0⟩) (by decide +kernel)

end Run

end ArcSwap
