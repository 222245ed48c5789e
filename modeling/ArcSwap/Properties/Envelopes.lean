import ArcSwap.Invariants.Transactions
import Mathlib.Data.Finset.Card

/-!
# Envelopes are owned one to one

A node owns the envelope in its control while a replacement is published there, then the one that
its owner has taken out of the control and not stored in `space_offer` yet; a helper that has won
the exchange owns the envelope of the other side until it has stored it; at all other times a node
owns the envelope in its `space_offer`. Every node owns one envelope, and every envelope has one
node that owns it.
-/

namespace ArcSwap

variable {T : Type*} {cfg : Config} {s s' : State T} {t : T} {n : NodeId} {e : ℕ}

/-! ## Who owns an envelope -/

/-- The function holds the envelope `e` of the node: it has taken it out of the control of the
node, or it has won it, and it has not stored it yet. -/
def Active.Holds (n : NodeId) (e : ℕ) : Active → Prop
  | .load _ (.takeEnvelope n' _ _ e') | .load _ (.keepEnvelope n' _ e' _) => n' = n ∧ e' = e
  | .payAll _ (.helpTake me _ theirs) => me = n ∧ theirs = e
  | _ => False

/-- The node owns the envelope. -/
inductive State.Envelope (s : State T) (n : NodeId) (e : ℕ) : Prop
  | published (h : tag (s.mem.control n) = replacementTag) (he : clearTag (s.mem.control n) = e)
  | held (t : T) (h : (s.thread t).active.Holds n e)
  | offered (h : tag (s.mem.control n) ≠ replacementTag)
    (ha : ∀ t e', ¬ (s.thread t).active.Holds n e') (he : s.mem.spaceOffer n = e)

/-- A replacement is in the envelope: it is published in a control, or the owner of the node has
taken it out of there and reads it next. -/
def State.OnItsWay (s : State T) (e : ℕ) : Prop :=
  ∃ n, (tag (s.mem.control n) = replacementTag ∧ clearTag (s.mem.control n) = e) ∨
    ∃ t f gen p, (s.thread t).active = .load f (.takeEnvelope n gen p e)

/-- The envelopes of all nodes are owned one to one. -/
structure State.OneToOne (s : State T) : Prop where
  /-- Every node owns one envelope of some node. -/
  owns : ∀ n < s.mem.nodeCount, ∃ k < s.mem.nodeCount, ∀ e, s.Envelope n e ↔ e = handoverAddr k
  /-- Every envelope is owned by one node. -/
  owned : ∀ k < s.mem.nodeCount, ∃! n, n < s.mem.nodeCount ∧ s.Envelope n (handoverAddr k)
  /-- A helper writes into the envelope that its own node owns. -/
  writes : ∀ t f me who c q theirs mine,
    (s.thread t).active = .payAll f (.helpWrite me who c q theirs mine) → s.Envelope me mine

/-! ## The envelope of a node -/

theorem Active.Holds.away {a : Active} (h : a.Holds n e) : a.Away n := by
  cases a with
  | load f pc => cases pc <;> first | exact h.1 | exact h.elim
  | payAll f pc => cases pc <;> first | exact h.1 | exact h.elim
  | _ => exact h.elim

theorem Active.Away.holds {a : Active} (h : a.Away n) : ∃ e, a.Holds n e := by
  cases a with
  | load f pc => cases pc <;> first | exact ⟨_, h, rfl⟩ | exact h.elim
  | payAll f pc => cases pc <;> first | exact ⟨_, h, rfl⟩ | exact h.elim
  | _ => exact h.elim

theorem Active.Holds.eq_space {a : Active} {m : Mem} (h : a.Holds n e) (hh : a.Handing cfg m) :
    e = m.space n := by
  cases a with
  | load f pc =>
    cases pc with
    | takeEnvelope n' gen p e' =>
      obtain ⟨rfl, rfl⟩ := h
      exact hh.1
    | keepEnvelope n' p e' q =>
      obtain ⟨rfl, rfl⟩ := h
      exact hh
    | _ => exact h.elim
  | payAll f pc =>
    cases pc with
    | helpTake me who theirs =>
      obtain ⟨rfl, rfl⟩ := h
      exact hh
    | _ => exact h.elim
  | _ => exact h.elim

theorem Active.Publishes.control_eq {a : Active} {m : Mem} (h : a.Publishes n)
    (hh : a.Handing cfg m) (ht : tag (m.control n) = replacementTag) :
    m.control n = replacementWord (m.space n) := by
  cases a with
  | load f pc =>
    cases pc <;> simp only [Active.Publishes] at h
    all_goals
      subst h
      exact (hh.closed ht).1
  | _ => exact h.elim

variable [Fintype T]

/-- The envelope in a control is that of its node. -/
theorem State.Handing.control_eq (hh : s.Handing cfg) (h : s.Sound cfg)
    (ht : tag (s.mem.control n) = replacementTag) : clearTag (s.mem.control n) = s.mem.space n := by
  have hne : s.mem.control n ≠ idle := by
    intro hi
    rw [hi] at ht
    exact absurd ht (by decide)
  obtain ⟨t, hp⟩ := h.publishes n hne
  rw [hp.control_eq (hh.active t) ht]
  exact (isEnvelope_handoverAddr _).clearTag_replacementWord

/-- The envelope that a node owns is the one that the bookkeeping says. -/
theorem State.Handing.envelope_iff (hh : s.Handing cfg) (h : s.Sound cfg)
    (hn : n < s.mem.nodeCount) : s.Envelope n e ↔ e = s.mem.space n := by
  constructor
  · intro he
    cases he with
    | published ht he => rw [← he, hh.control_eq h ht]
    | held t ht => exact ht.eq_space (hh.active t)
    | offered ht ha he =>
      rw [← he]
      refine hh.space n hn ht fun t haw => ?_
      obtain ⟨e', he'⟩ := haw.holds
      exact ha t e' he'
  · rintro rfl
    by_cases ht : tag (s.mem.control n) = replacementTag
    · exact .published ht (hh.control_eq h ht)
    · by_cases ha : ∃ t, (s.thread t).active.Away n
      · obtain ⟨t, haw⟩ := ha
        obtain ⟨e', he'⟩ := haw.holds
        have := he'.eq_space (hh.active t)
        exact .held t (this ▸ he')
      · refine .offered ht (fun t e' he' => ha ⟨t, he'.away⟩) ?_
        exact hh.space n hn ht fun t haw => ha ⟨t, haw⟩

/-! ## The bijection -/

theorem Mem.Posted.owned_lt {m : Mem} (h : m.Posted) (hn : n < m.nodeCount) :
    m.owned n < m.nodeCount := by
  by_contra hle
  have hfix := h.fresh _ (not_lt.mp hle)
  have heq : m.owned n = n := h.injective hfix
  exact hle (heq.symm ▸ hn)

/-- Every envelope is owned by a node. -/
theorem Mem.Posted.exists_owner {m : Mem} {k : NodeId} (h : m.Posted) (hk : k < m.nodeCount) :
    ∃ n < m.nodeCount, m.owned n = k := by
  have hsub : (Finset.range m.nodeCount).image m.owned ⊆ Finset.range m.nodeCount := by
    intro x hx
    obtain ⟨n, hn, rfl⟩ := Finset.mem_image.mp hx
    exact Finset.mem_range.mpr (h.owned_lt (Finset.mem_range.mp hn))
  have hcard := Finset.card_image_of_injective (Finset.range m.nodeCount) h.injective
  have heq := Finset.eq_of_subset_of_card_le hsub hcard.ge
  have hmem : k ∈ (Finset.range m.nodeCount).image m.owned := by
    rw [heq]
    exact Finset.mem_range.mpr hk
  obtain ⟨n, hn, hnk⟩ := Finset.mem_image.mp hmem
  exact ⟨n, Finset.mem_range.mp hn, hnk⟩

theorem State.Handing.oneToOne (hh : s.Handing cfg) (h : s.Sound cfg) : s.OneToOne where
  owns n hn := ⟨s.mem.owned n, hh.posted.owned_lt hn, fun _ => hh.envelope_iff h hn⟩
  owned k hk := by
    obtain ⟨n, hn, hnk⟩ := hh.posted.exists_owner hk
    refine ⟨n, ⟨hn, (hh.envelope_iff h hn).mpr (by rw [Mem.space, hnk])⟩, ?_⟩
    rintro n' ⟨hn', he'⟩
    have hsp := (hh.envelope_iff h hn').mp he'
    exact hh.posted.injective ((handoverAddr_injective hsp).symm.trans hnk.symm)
  writes t f me who c q theirs mine ha := by
    have hact := hh.active t
    have hok := (h.typed t).active
    rw [ha] at hact hok
    have hme : me ∈ (s.thread t).nodes := State.Sound.mem_nodes (ha ▸ hok.2.1.1.mem)
    exact (hh.envelope_iff h (h.lt_nodeCount hme)).mpr hact.2.2

/-! ## Nobody writes into an envelope on its way -/

/-- The only write into an envelope is that of a helper. -/
theorem Clause.handover {a : Active} {tls : Tls} {m : Mem} {o : Out} (h : Clause cfg tls m a o) :
    o.mem.handover = m.handover ∨ ∃ f me who c q theirs mine,
      a = .payAll f (.helpWrite me who c q theirs mine) ∧ o.mem = m.setEnvelope mine q.addr := by
  cases h with
  | get h | cooldown h | cas h | dec h | intoInner h | dropGuard h | load h =>
    left
    cases h <;> rfl
  | swap => exact .inl rfl
  | payAll h =>
    cases h with
    | helpWrite => exact .inr ⟨_, _, _, _, _, _, _, rfl, rfl⟩
    | _ => exact .inl rfl

variable [DecidableEq T]

/-- The envelope of a helper that is about to write is not on its way. -/
theorem State.Handing.owned_ne {f : PayFrame} {me who : NodeId} {c theirs mine : ℕ} {q : Ref}
    (hh : s.Handing cfg) (h : s.Sound cfg) (he : s.OnItsWay e)
    (ha : (s.thread t).active = .payAll f (.helpWrite me who c q theirs mine)) :
    mine = s.mem.space me ∧ handoverNode e ≠ s.mem.owned me := by
  have hact := hh.active t
  have hok := (h.typed t).active
  rw [ha] at hact hok
  have hme : me ∈ (s.thread t).nodes := State.Sound.mem_nodes (ha ▸ hok.2.1.1.mem)
  have hidle : s.mem.control me = idle := h.control_idle hme (by rw [ha]; exact id)
  refine ⟨hact.2.2, fun heq => ?_⟩
  -- the envelope on its way belongs to another node
  obtain ⟨n, ⟨ht, hc⟩ | ⟨t', f', gen, p, ha'⟩⟩ := he
  · have hsp : e = s.mem.space n := hc.symm.trans (hh.control_eq h ht)
    obtain rfl : n = me := hh.posted.injective (by
      rw [hsp, Mem.space, handoverNode_handoverAddr] at heq
      exact heq)
    rw [hidle] at ht
    exact absurd ht (by decide)
  · have hact' := hh.active t'
    have hok' := (h.typed t').active
    rw [ha'] at hact' hok'
    obtain rfl : n = me := hh.posted.injective (by
      rw [hact'.1, Mem.space, handoverNode_handoverAddr] at heq
      exact heq)
    have hn : n ∈ (s.thread t').nodes := State.Sound.mem_nodes (ha' ▸ hok'.2.1.mem)
    obtain rfl := h.owner_unique hme hn
    rw [ha] at ha'
    cases ha'

/-- What is in an envelope stays there until it is read. -/
theorem State.Handing.envelope_step {c : Choice} (hh : s.Handing cfg) (h : s.Sound cfg)
    (he : s.OnItsWay e) (hs : s.step cfg t c = some s') :
    s'.mem.envelope e = s.mem.envelope e := by
  obtain ⟨m', th', o', g', hm, rfl⟩ := State.step_move hs
  change m'.handover (handoverNode e) = s.mem.handover (handoverNode e)
  cases hm with
  | resume _ _ hm => rw [hm.mem_eq]
  | receive => rfl
  | user _ hm => rw [hm.transactions.2.2.2]
  | @code o hm =>
    obtain hk | ⟨f, me, who, c, q, theirs, mine, ha, hmem⟩ := hm.handover
    · rw [hk]
    · obtain ⟨rfl, hne⟩ := hh.owned_ne h he ha
      rw [hmem, Mem.setEnvelope_handover, Mem.space, handoverNode_handoverAddr,
        Function.update_of_ne hne]

/-- **Envelopes are owned one to one** in every reachable state. No helper is about to write into an
envelope that has been published, and what is in it stays there until the owner of the node has read
it. -/
theorem State.Reachable.envelopes_one_to_one (h : s.Reachable cfg State.FreshGen) :
    s.OneToOne ∧ ∀ e, s.OnItsWay e →
      (∀ t f me who c q theirs mine,
        (s.thread t).active = .payAll f (.helpWrite me who c q theirs mine) → mine ≠ e) ∧
      ∀ t c s', s.step cfg t c = some s' → s'.mem.envelope e = s.mem.envelope e := by
  obtain ⟨hs, hh⟩ := h.handing
  refine ⟨hh.oneToOne hs, fun e he => ⟨fun t f me who c q theirs mine ha => ?_,
    fun _ _ _ hstep => hh.envelope_step hs he hstep⟩⟩
  obtain ⟨rfl, hne⟩ := hh.owned_ne hs he ha
  rintro rfl
  exact hne (handoverNode_handoverAddr _)

/-- The helper has won the exchange. -/
theorem State.Reachable.envelopes_one_to_one_sample : (State.sample 121).OneToOne ∧
    ∀ e, (State.sample 121).OnItsWay e →
      (∀ t f me who c q theirs mine, ((State.sample 121).thread t).active =
        .payAll f (.helpWrite me who c q theirs mine) → mine ≠ e) ∧
      ∀ t c s', (State.sample 121).step .sample t c = some s' →
        s'.mem.envelope e = (State.sample 121).mem.envelope e :=
  State.Reachable.envelopes_one_to_one (State.sample_reachable 121)

end ArcSwap
