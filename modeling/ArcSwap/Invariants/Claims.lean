import ArcSwap.Foundations.Ledger
import ArcSwap.Invariants.Borrows
import Mathlib.Data.Finset.Prod
import Mathlib.Tactic.Abel

/-!
# Claims on objects

Everything that refers to an object has a claim on it: the storages, the owned values, the guards,
the replacements that have been handed over, and the local variables of the functions that are
running. A claim knows the slot in which its reference may be owed. Every clause of the code is an
entry in the books: a reference is counted, given back, owed, paid, or changes hands.
-/

namespace ArcSwap

variable {cfg : Config} {tls : Tls} {m m' : Mem}

/-! ## The claims -/

/-- Claims on values, with the slots in which they may be owed. -/
abbrev Claims := Ledger.Claims Ref SlotId

/-- The claim of an owned value. -/
def Ref.claim (r : Ref) : Ref × Option SlotId := (r, none)

/-- The claim of a guard. -/
def Guard.claim (g : Guard) : Ref × Option SlotId := (g.ref, g.debt)

/-- The claims of a `load` from a storage of the kind `k`. From the write to a slot on, it refers to
what it has written there, and it has the replacement once it has read the envelope. -/
def LoadPc.claims (k : RefKind) : LoadPc → Claims
  | .confirm p d | .unclaim p d => {(⟨k, p⟩, some d)}
  | .closeControl n _ p | .takeEnvelope n _ p _ => {(⟨k, p⟩, some (helpingSlot n))}
  | .keepEnvelope n p _ q | .payUnused n p q =>
    {(⟨k, p⟩, some (helpingSlot n))} + {Ref.claim ⟨k, q⟩}
  | .leave g => {g.claim}
  | _ => 0

/-- The claims of `pay_all`: the value that has been taken out of a storage, the reference paid in
advance, and the replacement that it offers. -/
def PayPc.claims (f : PayFrame) : PayPc → Claims
  | .enter | .prepay | .slotInc _ _ | .leave => {f.ref.claim}
  | .helpTheirs _ _ _ q | .helpMine _ _ _ q _ | .helpWrite _ _ _ q _ _ | .helpCas _ _ _ q _ _ =>
    {f.ref.claim} + {f.ref.claim} + {q.claim}
  | _ => {f.ref.claim} + {f.ref.claim}

/-- The claims of a value that is being returned; `pay_all` leaves the value it was called for to
its caller. -/
def Ret.claims : Contract → Ret → Claims
  | .paid r, _ => {r.claim}
  | _, .guard g _ => {g.claim}
  | _, .value r _ => {r.claim}
  | _, _ => 0

/-- The claims of the active function. -/
def Active.claims (cfg : Config) : Active → Claims
  | .load f pc => pc.claims (cfg.kind f.storage)
  | .intoInner g .start => {g.claim}
  | .intoInner g (.pay d) => {(g.ref, some d)} + {g.ref.claim}
  | .dropGuard g => {g.claim}
  | .dec r => {r.claim}
  | .payAll f pc => pc.claims f
  | .swap f => {f.new.claim}
  | .cas f old => {f.new.claim} + {old.claim}
  | .ret c r => r.claims c
  | _ => 0

/-- The claims of a suspended caller. -/
def Cont.claims : Cont → Claims
  | .unused _ q => {q.claim}
  | .loadLeft _ _ g => {g.claim}
  | .intoInner r | .payLeft r => {r.claim}
  | .payNode f | .valDropped f => {f.ref.claim}
  | .helpReplacement f _ _ _ | .helpRetry f _ _ _ => {f.ref.claim} + {f.ref.claim}
  | .casLoaded f | .casRetry f => {f.new.claim}
  | .casRefused _ old | .casPaid _ old _ | .casDec _ old _ => {old.claim}
  | .rcuClosure _ cur _ | .rcuSwapped _ cur _ _ | .rcuInner _ cur _ _ _ _ => {cur.claim}
  | .rcuDone _ _ _ r _ => {r.claim}
  | .rcuAgain _ prev => {prev.claim}
  | _ => 0

/-- The claims of suspended callers. -/
def contClaims (ks : List Cont) : Claims := (ks.map Cont.claims).sum

@[simp] theorem contClaims_nil : contClaims [] = 0 := rfl

@[simp] theorem contClaims_cons (k : Cont) (ks : List Cont) :
    contClaims (k :: ks) = k.claims + contClaims ks := by simp [contClaims]

@[simp] theorem contClaims_append (ks ks' : List Cont) :
    contClaims (ks ++ ks') = contClaims ks + contClaims ks' := by simp [contClaims]

/-- The claims of a thread. -/
def Thread.claims (cfg : Config) (th : Thread) : Claims :=
  th.active.claims cfg + contClaims th.conts

/-- The claims of a thread after a clause, apart from those of its suspended callers. -/
def Out.claims (cfg : Config) (o : Out) : Claims := o.active.claims cfg + contClaims o.calls

namespace Mem

/-- The value in a storage. -/
def stored (cfg : Config) (m : Mem) (x : StorageId) : Ref := ⟨cfg.kind x, m.ptr x⟩

/-- The claim of a replacement that has been handed over to a node. -/
def offered (m : Mem) (n : NodeId) : Claims := (m.offer n).elim 0 fun o => {o.value.claim}

/-- The claims of the storages. -/
def storedClaims (cfg : Config) (m : Mem) : Claims := ∑ x ∈ m.live, {(m.stored cfg x).claim}

/-- The claims of the replacements. -/
def offeredClaims (m : Mem) : Claims := ∑ n ∈ Finset.range m.nodeCount, m.offered n

/-- The claims in the shared memory. -/
def claims (cfg : Config) (m : Mem) : Claims := m.storedClaims cfg + m.offeredClaims

/-- The slots of all nodes. -/
def slots (m : Mem) : Finset SlotId :=
  (Finset.range m.nodeCount ×ˢ Finset.range (debtSlotCnt + 1)).image fun x => ⟨x.1, x.2⟩

theorem mem_slots {d : SlotId} : d ∈ m.slots ↔ d.node < m.nodeCount ∧ d.idx ≤ debtSlotCnt := by
  obtain ⟨n, i⟩ := d
  rw [← Nat.lt_succ_iff]
  simp [slots]

theorem slots_mono (h : m.nodeCount ≤ m'.nodeCount) : m.slots ⊆ m'.slots := fun _ hd =>
  mem_slots.mpr ⟨lt_of_lt_of_le (mem_slots.mp hd).1 h, (mem_slots.mp hd).2⟩

/-! ## What a step does to the claims in the memory -/

/-- What a storage holds is replaced. -/
theorem setPtr_storedClaims {x : StorageId} {p : Addr} {call : ℕ} (hx : x ∈ m.live) :
    (m.setPtr x p call).storedClaims cfg + {(m.stored cfg x).claim} =
      m.storedClaims cfg + {Ref.claim ⟨cfg.kind x, p⟩} := by
  rw [storedClaims, storedClaims, setPtr_live, ← Finset.add_sum_erase _ _ hx,
    ← Finset.add_sum_erase _ (fun y => {(m.stored cfg y).claim}) hx]
  have : ∑ y ∈ m.live.erase x, {((m.setPtr x p call).stored cfg y).claim} =
      ∑ y ∈ m.live.erase x, ({(m.stored cfg y).claim} : Claims) :=
    Finset.sum_congr rfl fun y hy => by
      rw [stored, stored, setPtr_ptr, Function.update_of_ne (Finset.ne_of_mem_erase hy)]
  rw [this, stored, setPtr_ptr, Function.update_self]
  abel

/-- The storage `x` comes into existence. -/
theorem newStorage_storedClaims {x : StorageId} {p : Addr} (hx : x ∉ m.live) :
    (m.newStorage x p).storedClaims cfg = m.storedClaims cfg + {Ref.claim ⟨cfg.kind x, p⟩} := by
  have : ∑ y ∈ m.live, {((m.newStorage x p).stored cfg y).claim} =
      ∑ y ∈ m.live, ({(m.stored cfg y).claim} : Claims) :=
    Finset.sum_congr rfl fun y hy => by
      have hne : y ≠ x := fun he => hx (he ▸ hy)
      simp [stored, hne]
  rw [storedClaims, newStorage_live, Finset.sum_insert hx, this, stored, newStorage_ptr,
    setPtr_ptr, Function.update_self, add_comm, storedClaims]

/-- The storage `x` is given up. -/
theorem endStorage_storedClaims {x : StorageId} (hx : x ∈ m.live) :
    (m.endStorage x).storedClaims cfg + {(m.stored cfg x).claim} = m.storedClaims cfg :=
  Finset.sum_erase_add _ _ hx

/-- A node is given a replacement, or takes it. -/
theorem offeredClaims_update {n : NodeId} {v : Option Offer} (hn : n < m.nodeCount)
    (hc : m'.nodeCount = m.nodeCount) (ho : m'.offer = Function.update m.offer n v) :
    m'.offeredClaims + m.offered n = m.offeredClaims + m'.offered n := by
  have hn' := Finset.mem_range.mpr hn
  rw [offeredClaims, offeredClaims, hc, ← Finset.add_sum_erase _ _ hn',
    ← Finset.add_sum_erase _ m.offered hn']
  have : ∑ k ∈ (Finset.range m.nodeCount).erase n, m'.offered k =
      ∑ k ∈ (Finset.range m.nodeCount).erase n, m.offered k :=
    Finset.sum_congr rfl fun k hk => by
      rw [offered, offered, ho, Function.update_of_ne (Finset.ne_of_mem_erase hk)]
  rw [this]
  abel

/-- A new node has not been given anything. -/
theorem newNode_offeredClaims (h : m.offer m.nodeCount = none) :
    m.newNode.offeredClaims = m.offeredClaims := by
  rw [offeredClaims, newNode_nodeCount, Finset.sum_range_succ]
  have : m.newNode.offered m.nodeCount = 0 := by simp [offered, h]
  rw [this, add_zero]
  rfl

end Mem

/-! ## Entries -/

section Entries

variable {x x' : Claims} {r : Ref} {d : SlotId}

/-- The entry that a step from `m` to `m'` makes in the books. -/
abbrev Mem.Entry (m m' : Mem) (x x' : Claims) : Prop :=
  Ledger.Move Ref.Counted m.slots m.count m.slot x m'.count m'.slot x'

theorem Mem.Entry.same (hc : m'.count = m.count) (hs : m'.slot = m.slot)
    (h : Ledger.Same Ref.Counted x' x) : m.Entry m' x x' := by
  rw [Mem.Entry, hc, hs]
  exact .keep h

theorem Mem.Entry.keep (hc : m'.count = m.count) (hs : m'.slot = m.slot) (h : x' = x) :
    m.Entry m' x x' := .same hc hs (.of_eq h)

theorem Mem.Entry.inc (h : x' = x + {r.claim}) : m.Entry (m.inc r) x x' := by
  unfold Mem.Entry Mem.inc
  by_cases hr : r.Counted
  · rw [if_pos hr]
    exact .inc (.of_eq h)
  · rw [if_neg hr]
    exact .keep ((Ledger.Same.of_eq h).trans (.add_singleton hr x))

theorem Mem.Entry.dec (h : x' + {r.claim} = x) : m.Entry (m.dec r) x x' := by
  unfold Mem.Entry Mem.dec
  by_cases hr : r.Counted
  · rw [if_pos hr]
    exact .dec hr (.of_eq h)
  · rw [if_neg hr]
    exact .keep ((Ledger.Same.add_singleton hr x').symm.trans (.of_eq h))

theorem Mem.Entry.forget {z : Claims} (hs : m.slot d ≠ some r) (hx : x = z + {(r, some d)})
    (hx' : x' = z + {r.claim}) : m.Entry m x x' :=
  Ledger.Move.forget hs (.of_eq hx.symm) (.of_eq hx')

theorem Mem.Entry.fill (hd : d ∈ m.slots) (hs : m.slot d = none) (h : x' = x + {(r, some d)}) :
    m.Entry (m.setSlot d (some r)) x x' := Ledger.Move.fill hd hs (.of_eq h)

/-- A slot with a pointer that has no count is emptied. -/
theorem Mem.Entry.void (ho : m.Owes d r) (hr : ¬ r.Counted)
    (h : Ledger.Same Ref.Counted x' x) : m.Entry (m.setSlot d none) x x' := by
  obtain ⟨r', hs, hr'⟩ := Option.map_eq_some_iff.mp ho
  refine Ledger.Move.void (fun hc => hr ?_) hs h
  rwa [Ref.Counted, ← hr']

theorem Mem.Entry.settle (ho : m.Owes d r) (hs : r.Counted → m.Owes d r → m.slot d = some r)
    (h : x' + {(r, some d)} = x) : m.Entry (m.setSlot d none) x x' := by
  by_cases hr : r.Counted
  · exact Ledger.Move.settle (hs hr ho) (.of_eq h)
  · exact .void ho hr ((Ledger.Same.add_singleton hr x').symm.trans (.of_eq h))

theorem Mem.Entry.payFor (ho : m.Owes d r) (hs : r.Counted → m.Owes d r → m.slot d = some r)
    (h : x' + {r.claim} = x) : m.Entry (m.setSlot d none) x x' := by
  by_cases hr : r.Counted
  · exact Ledger.Move.payFor (hs hr ho) (.of_eq h)
  · exact .void ho hr ((Ledger.Same.add_singleton hr x').symm.trans (.of_eq h))

/-- An entry that does not concern the claims in the memory. -/
theorem Mem.Entry.inside (h : m.Entry m' x x') (hc : m'.claims cfg = m.claims cfg) :
    m.Entry m' (x + m.claims cfg) (x' + m'.claims cfg) := by
  rw [hc]
  exact Ledger.Move.frame h _

end Entries

/-! ## One clause -/

/-- The debt that the function tries to pay next. -/
def Active.pays? (cfg : Config) : Active → Option (SlotId × Ref)
  | .load f (.unclaim p d) => some (d, ⟨cfg.kind f.storage, p⟩)
  | .load f (.payUnused n p _) => some (helpingSlot n, ⟨cfg.kind f.storage, p⟩)
  | .intoInner g (.pay d) => some (d, g.ref)
  | .dropGuard g => g.debt.map fun d => (d, g.ref)
  | .payAll f (.slot who i) => some (⟨who, i⟩, f.ref)
  | _ => none

theorem Mem.Owes.of_slot {d : SlotId} {r : Ref} (h : m.slot d = some r) : m.Owes d r := by
  simp [Mem.Owes, h]

theorem LoadFrame.begin_claims (f : LoadFrame) : (f.begin cfg).claims cfg = 0 := by
  unfold LoadFrame.begin
  split <;> rfl

theorem PayFrame.nextSlot_claims (f : PayFrame) (who : NodeId) (i : ℕ) :
    (f.nextSlot who i).claims cfg = {f.ref.claim} + {f.ref.claim} := by
  unfold PayFrame.nextSlot
  split <;> rfl

theorem Dispatched.claims {f : PayFrame} {me who : NodeId} {c : ℕ} {a : Active}
    (h : Dispatched f me who c a) (hr : ∀ w, a ≠ .failed w) :
    a.claims cfg = {f.ref.claim} + {f.ref.claim} := by
  cases h with
  | pass | gen => rfl
  | myself | invalid => simp at hr

/-- A clause of `load` makes an entry in the books. -/
theorem LoadClause.entry {f : LoadFrame} {pc : LoadPc} {o : Out} (h : LoadClause cfg tls m f pc o)
    (hok : (Active.load f pc).Ok cfg tls) (hh : (Active.load f pc).Handing cfg m)
    (hn : ∀ n ∈ tls.head.nodes + tmpNodes f.tmp, n < m.nodeCount)
    (hpay : ∀ d r, (Active.load f pc).pays? cfg = some (d, r) → r.Counted → m.Owes d r →
      m.slot d = some r)
    (hr : ∀ w, o.active ≠ .failed w) :
    m.Entry o.mem ((Active.load f pc).claims cfg + m.claims cfg)
      (o.claims cfg + o.mem.claims cfg) := by
  have hmem : ∀ {n}, ScopeIs tls f.tmp n → n < m.nodeCount := fun hs => hn _ hs.mem
  cases h with
  | claimFull | genTagged | publishFull | offerFull | closeInvalid | noNode | notUsed => simp at hr
  | enter => exact .inside (.keep rfl rfl (by rw [Out.claims, LoadFrame.begin_claims]; rfl)) rfl
  | @claim n p j hs =>
    refine .inside (.fill (Mem.mem_slots.mpr ⟨hmem hok.2.1, hok.2.2.le⟩) hs ?_) rfl
    simp only [Out.claims, Active.claims, LoadPc.claims, LoadFrame.setLocal_storage,
      contClaims_nil, add_zero, zero_add]
  | unclaim ho =>
    refine .inside (.settle ho (hpay _ _ rfl) ?_) rfl
    simp only [Out.claims, Active.claims, LoadPc.claims, contClaims_nil, add_zero, zero_add]
  | unclaimLate ho =>
    refine .inside (.forget (z := 0) (fun hs => ho (.of_slot hs)) (zero_add _).symm ?_) rfl
    simp only [Out.claims, Active.claims, LoadPc.claims, contClaims_nil, add_zero, zero_add]
    rfl
  | @offerDebt n gen p hs =>
    refine .inside (.fill (Mem.mem_slots.mpr ⟨hmem hok.2.1, le_rfl⟩) hs ?_) rfl
    simp only [Out.claims, Active.claims, LoadPc.claims, contClaims_nil, add_zero, zero_add]
  | @takeEnvelope n gen p e =>
    -- the replacement changes hands
    obtain ⟨rfl, x, hx, hf⟩ := hh
    have hq : (⟨cfg.kind f.storage, m.envelope (m.space n)⟩ : Ref) = x.value := by
      rw [Mem.envelope, Mem.space, handoverNode_handoverAddr, hf.content, ← hf.kind]
    have hoff : (m.takeOffer n).offeredClaims + _ = _ :=
      Mem.offeredClaims_update (hmem hok.2.1) rfl rfl
    have h₁ : m.offered n = {x.value.claim} := by simp [Mem.offered, hx]
    have h₂ : (m.takeOffer n).offered n = 0 := by simp [Mem.offered]
    rw [h₁, h₂, add_zero] at hoff
    have hst : (m.takeOffer n).storedClaims cfg = m.storedClaims cfg := rfl
    refine .keep rfl rfl ?_
    simp only [Out.claims, Active.claims, LoadPc.claims, contClaims_nil, hq, Mem.claims, ← hoff,
      hst]
    abel
  | payUnused ho =>
    refine .inside (.settle ho (hpay _ _ rfl) ?_) rfl
    simp only [Out.claims, Active.claims, LoadPc.claims, contClaims_nil, add_zero]
    exact add_comm _ _
  | @payUnusedLate n p q ho =>
    refine .inside (.forget (z := {Ref.claim ⟨cfg.kind f.storage, q⟩}) (fun hs => ho (.of_slot hs))
      (add_comm _ _) ?_) rfl
    simp only [Out.claims, Active.claims, contClaims_nil, contClaims_cons, Cont.claims, add_zero]
    exact add_comm _ _
  | _ =>
    refine .inside (.keep rfl rfl ?_) rfl
    simp only [Out.claims, Active.claims, LoadPc.claims, Cont.claims, LoadFrame.result, Ret.claims,
      contClaims_nil, contClaims_cons,
      add_zero, zero_add]
    try rfl

/-- A clause of `pay_all` makes an entry in the books. -/
theorem PayClause.entry {f : PayFrame} {pc : PayPc} {o : Out} (h : PayClause tls m f pc o)
    (hok : (Active.payAll f pc).Ok cfg tls)
    (hw : ∀ n, tag (m.control n) = genTag → n < m.nodeCount ∧ m.offer n = none)
    (hpay : ∀ d r, (Active.payAll f pc).pays? cfg = some (d, r) → r.Counted → m.Owes d r →
      m.slot d = some r)
    (hr : ∀ w, o.active ≠ .failed w) :
    m.Entry o.mem ((Active.payAll f pc).claims cfg + m.claims cfg)
      (o.claims cfg + o.mem.claims cfg) := by
  cases h with
  | noNode | notUsed | helperBusy | misaligned => simp at hr
  | helpControl h | helpChanged _ h =>
    exact .inside (.keep rfl rfl (by rw [Out.claims, h.claims hr]; rfl)) rfl
  | prepay => exact .inside (.inc (by rw [Out.claims]; rfl)) rfl
  | @helpCas me who c q theirs mine h =>
    -- the replacement is handed over
    have ht : tag (m.control who) = genTag := h ▸ hok.2.1.2.2
    obtain ⟨hlt, hnone⟩ := hw who ht
    have hoff : (m.handOver me who (replacementWord mine)
        ⟨c, f.storage, q, f.since⟩).offeredClaims + _ = _ :=
      Mem.offeredClaims_update hlt rfl rfl
    have h₁ : m.offered who = 0 := by simp [Mem.offered, hnone]
    have h₂ : (m.handOver me who (replacementWord mine) ⟨c, f.storage, q, f.since⟩).offered who =
        {q.claim} := by simp [Mem.offered]
    rw [h₁, h₂, add_zero] at hoff
    refine .keep rfl rfl ?_
    have hst : (m.handOver me who (replacementWord mine) ⟨c, f.storage, q, f.since⟩).storedClaims
        cfg = m.storedClaims cfg := rfl
    simp only [Out.claims, Active.claims, PayPc.claims, contClaims_nil, Mem.claims, hoff, hst]
    abel
  | helpLate =>
    refine .inside (.keep rfl rfl ?_) rfl
    simp only [Out.claims, Active.claims, PayPc.claims, Cont.claims, contClaims_nil,
      contClaims_cons, add_zero]
    exact add_comm _ _
  | slot ho => exact .inside (.payFor ho (hpay _ _ rfl) (by rw [Out.claims]; rfl)) rfl
  | slotOther =>
    exact .inside (.keep rfl rfl (by rw [Out.claims, PayFrame.nextSlot_claims]; rfl)) rfl
  | slotInc => exact .inside (.inc (by rw [Out.claims, PayFrame.nextSlot_claims]; rfl)) rfl
  | _ =>
    refine .inside (.keep rfl rfl ?_) rfl
    simp only [Out.claims, Active.claims, LoadPc.claims, PayPc.claims, Cont.claims, Ret.claims,
      contClaims_nil, contClaims_cons,
      add_zero, zero_add]

theorem IntoInnerClause.entry {g : Guard} {pc : IntoInnerPc} {o : Out}
    (h : IntoInnerClause tls.head m g pc o) (hok : (Active.intoInner g pc).Ok cfg tls)
    (hpay : ∀ d r, (Active.intoInner g pc).pays? cfg = some (d, r) → r.Counted →
      m.Owes d r → m.slot d = some r) :
    m.Entry o.mem ((Active.intoInner g pc).claims cfg + m.claims cfg)
      (o.claims cfg + o.mem.claims cfg) := by
  cases h with
  | owned h =>
    refine .inside (.keep rfl rfl ?_) rfl
    simp only [Out.claims, Active.claims, Ret.claims, Guard.claim, Ref.claim, h, contClaims_nil,
      add_zero]
  | start h =>
    refine .inside (.inc ?_) rfl
    simp only [Out.claims, Active.claims, Guard.claim, h, contClaims_nil, add_zero]
  | pay ho =>
    refine .inside (.settle ho (hpay _ _ rfl) ?_) rfl
    simp only [Out.claims, Active.claims, Ret.claims, contClaims_nil, add_zero]
    exact add_comm _ _
  | payLate ho =>
    refine .inside (.forget (z := {g.ref.claim}) (fun hs => ho (.of_slot hs)) (add_comm _ _) ?_) rfl
    simp only [Out.claims, Active.claims, Cont.claims, contClaims_nil, contClaims_cons, add_zero]

theorem DropClause.entry {g : Guard} {o : Out} (h : DropClause tls.head m g o)
    (hpay : ∀ d r, (Active.dropGuard g).pays? cfg = some (d, r) → r.Counted → m.Owes d r →
      m.slot d = some r) :
    m.Entry o.mem ((Active.dropGuard g).claims cfg + m.claims cfg)
      (o.claims cfg + o.mem.claims cfg) := by
  cases h with
  | owned h =>
    refine .inside (.keep rfl rfl ?_) rfl
    simp only [Out.claims, Active.claims, Guard.claim, Ref.claim, h, contClaims_nil, add_zero]
  | pay h ho =>
    refine .inside (.settle ho (hpay _ _ (by simp [Active.pays?, h])) ?_) rfl
    simp only [Out.claims, Active.claims, Ret.claims, Guard.claim, h, contClaims_nil, add_zero,
      zero_add]
  | payLate h ho =>
    refine .inside (.forget (z := 0) (fun hs => ho (.of_slot hs)) ?_ ?_) rfl
    · simp only [Active.claims, Guard.claim, h, zero_add]
    · simp only [Out.claims, Active.claims, contClaims_nil, add_zero, zero_add]

/-- The exchange of the pointer in a storage. -/
theorem Mem.setPtr_entry {x : StorageId} {r : Ref} {call : ℕ} {y y' : Claims} (hx : x ∈ m.live)
    (hk : r.kind = cfg.kind x) (h : y' + {r.claim} = y + {(m.stored cfg x).claim}) :
    m.Entry (m.setPtr x r.addr call) (y + m.claims cfg)
      (y' + (m.setPtr x r.addr call).claims cfg) := by
  have hst : (m.setPtr x r.addr call).storedClaims cfg + _ = _ := m.setPtr_storedClaims hx
  have hr : (⟨cfg.kind x, r.addr⟩ : Ref) = r := by rw [← hk]
  have hoff : (m.setPtr x r.addr call).offeredClaims = m.offeredClaims := rfl
  rw [hr] at hst
  refine .keep rfl rfl (add_right_cancel (b := {r.claim} + {(m.stored cfg x).claim}) ?_)
  calc y' + ((m.setPtr x r.addr call).storedClaims cfg + (m.setPtr x r.addr call).offeredClaims) +
        ({r.claim} + {(m.stored cfg x).claim})
      = (y' + {r.claim}) + ((m.setPtr x r.addr call).storedClaims cfg +
          {(m.stored cfg x).claim}) + m.offeredClaims := by
        rw [hoff]
        abel
    _ = (y + {(m.stored cfg x).claim}) + (m.storedClaims cfg + {r.claim}) + m.offeredClaims := by
        rw [h, hst]
    _ = y + (m.storedClaims cfg + m.offeredClaims) + ({r.claim} + {(m.stored cfg x).claim}) := by
        abel

/-- **Every clause of the code makes an entry in the books.** -/
theorem Clause.entry {a : Active} {o : Out} (h : Clause cfg tls m a o) (hok : a.Ok cfg tls)
    (hh : a.Handing cfg m) (hx : ∀ x, a.needs? = some x → x ∈ m.live)
    (hn : ∀ n ∈ tls.head.nodes + a.nodes, n < m.nodeCount)
    (hw : ∀ n, tag (m.control n) = genTag → n < m.nodeCount ∧ m.offer n = none)
    (hnew : m.offer m.nodeCount = none)
    (hpay : ∀ d r, a.pays? cfg = some (d, r) → r.Counted → m.Owes d r →
      m.slot d = some r)
    (hr : ∀ w, o.active ≠ .failed w) :
    m.Entry o.mem (a.claims cfg + m.claims cfg) (o.claims cfg + o.mem.claims cfg) := by
  cases h with
  | load h => exact h.entry hok hh hn hpay hr
  | payAll h => exact h.entry hok hw hpay hr
  | intoInner h => exact h.entry hok hpay
  | dropGuard h => exact h.entry hpay
  | get h =>
    cases h with
    | create =>
      refine .inside (.keep rfl rfl rfl) ?_
      rw [Mem.claims, Mem.newNode_offeredClaims hnew]
      rfl
    | _ => exact .inside (.keep rfl rfl rfl) rfl
  | cooldown h => cases h <;> exact .inside (.keep rfl rfl rfl) rfl
  | @dec r _ h =>
    cases h <;> refine .inside (.dec ?_) rfl <;>
      simp only [Out.claims, Active.claims, Ret.claims, Cont.claims, contClaims_nil,
        contClaims_cons, add_zero, zero_add]
  | @swap f =>
    refine Mem.setPtr_entry (hx _ rfl) hok ?_
    simp only [SwapFrame.exec, Out.claims, Active.claims, PayPc.claims, Cont.claims,
      contClaims_nil, contClaims_cons, add_zero]
    exact add_comm _ _
  | @cas f old _ h =>
    cases h with
    | swapped h =>
      have hst : m.stored cfg f.storage = old.ref := by
        rw [Mem.stored, h, ← hok.2.2, ← hok.2.1.1]
      refine Mem.setPtr_entry (hx _ rfl) hok.1 ?_
      simp only [Out.claims, Active.claims, PayPc.claims, Cont.claims, contClaims_nil,
        contClaims_cons, add_zero, hst, PayFrame.start_ref]
      abel
    | late =>
      refine .inside (.keep rfl rfl ?_) rfl
      simp only [Out.claims, Active.claims, Cont.claims, contClaims_nil, contClaims_cons, add_zero]
      exact add_comm _ _

/-! ## Returns -/

/-- What is returned goes to the caller. -/
theorem Resumed.claims {k : Cont} {r : Ret} {o : Out} (h : Resumed cfg tls m k r o)
    (hok : k.Ok cfg tls) (hr : ∀ w, o.active ≠ .failed w) :
    o.claims cfg = k.claims + r.claims k.expects := by
  cases h with
  | discard => exact hok.elim
  | loadNode | loadTmp => rw [Out.claims, LoadFrame.begin_claims]; rfl
  | helpRetry h =>
    rw [Out.claims, h.claims hr]
    rfl
  | _ =>
    simp only [Out.claims, Active.claims, LoadPc.claims, PayPc.claims, Cont.claims, Cont.expects,
      Ret.claims, CasFrame.load, RcuFrame.casFrame, Guard.claim, contClaims_nil, contClaims_cons,
      add_zero, zero_add]
    try first | rfl | exact add_comm _ _

end ArcSwap
