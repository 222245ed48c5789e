import ArcSwap.Machine.Step

/-!
# What a step can do

The clauses of the code as relations, one constructor for each outcome of each access: the case
analysis of a step is done once, in `Active.exec_clause`, `Cont.resume_resumed` and
`State.step_move`, and an invariant is checked constructor by constructor.
-/

namespace ArcSwap

variable {cfg : Config} {head : LocalNode} {tls : Tls} {m : Mem} {spurious : Bool}

/-! ## Nodes -/

/-- The outcomes of `Node::get`. -/
inductive GetClause (head : LocalNode) (m : Mem) : GetPc → Out → Prop
  | headNone (h : m.listHead = none) : GetClause head m .head ⟨m, head, .get .create, []⟩
  | head {n} (h : m.listHead = some n) : GetClause head m .head ⟨m, head, .get (.check n), []⟩
  | checkCooldown {n} (h : m.inUse n = .cooldown) :
    GetClause head m (.check n) ⟨m, head, .get (.writers n), []⟩
  | checkOther {n} (h : m.inUse n ≠ .cooldown) :
    GetClause head m (.check n) ⟨m, head, .get (.claim n), []⟩
  | writersZero {n} (h : m.activeWriters n = 0) :
    GetClause head m (.writers n) ⟨m, head, .get (.unuse n (m.epoch n)), []⟩
  | writersSome {n} (h : m.activeWriters n ≠ 0) :
    GetClause head m (.writers n) ⟨m, head, .get (.claim n), []⟩
  | unuse {n e} (h : m.inUse n = .cooldown) :
    GetClause head m (.unuse n e) ⟨m.setInUse n .unused, head, .get (.claim n), []⟩
  | unuseLate {n e} (h : m.inUse n ≠ .cooldown) :
    GetClause head m (.unuse n e) ⟨m, head, .get (.claim n), []⟩
  | claim {n} (h : m.inUse n = .unused) :
    GetClause head m (.claim n) ⟨m.setInUse n .used, head, .ret .node (.node n), []⟩
  | claimLate {n} (h : m.inUse n ≠ .unused) :
    GetClause head m (.claim n) ⟨m, head, .get (.next n), []⟩
  | nextNone {n} (h : m.next n = none) :
    GetClause head m (.next n) ⟨m, head, .get .create, []⟩
  | next {n n'} (h : m.next n = some n') :
    GetClause head m (.next n) ⟨m, head, .get (.check n'), []⟩
  | create : GetClause head m .create ⟨m.newNode, head, .get (.pushHead m.nodeCount), []⟩
  | pushHead {n} : GetClause head m (.pushHead n) ⟨m, head, .get (.push n m.listHead), []⟩
  | push {n} {h : Option NodeId} (hh : m.listHead = h) :
    GetClause head m (.push n h) ⟨(m.setNext n h).push n, head, .ret .node (.node n), []⟩
  | pushLate {n} {h : Option NodeId} :
    GetClause head m (.push n h) ⟨m.setNext n h, head, .get (.push n m.listHead), []⟩

theorem GetPc.exec_clause (pc : GetPc) : GetClause head m pc (pc.exec head m spurious) := by
  cases pc <;> simp only [GetPc.exec]
  case head =>
    split
    · exact .headNone ‹_›
    · exact .head ‹_›
  case next =>
    split
    · exact .nextNone ‹_›
    · exact .next ‹_›
  case push =>
    split
    · rename_i h
      exact .push h.1
    · exact .pushLate
  case create => exact .create
  case pushHead => exact .pushHead
  all_goals split <;> constructor <;> assumption

/-- The outcomes of `Node::start_cooldown`. -/
inductive CooldownClause (head : LocalNode) (m : Mem) (n : NodeId) : CooldownPc → Out → Prop
  | reserve :
    CooldownClause head m n .reserve ⟨m.addWriter n, head, .cooldown n (.swap (m.epoch n)), []⟩
  | swap {e} (h : m.inUse n = .used) :
    CooldownClause head m n (.swap e) ⟨m.startCooldown n, head, .cooldown n (.release e), []⟩
  | swapFail {e} (h : m.inUse n ≠ .used) :
    CooldownClause head m n (.swap e) ⟨m.startCooldown n, head, .failed .cooldownUsed, []⟩
  | release {e} :
    CooldownClause head m n (.release e) ⟨m.subWriter n, head, .ret .unit (.unit none), []⟩

theorem CooldownPc.exec_clause {n : NodeId} (pc : CooldownPc) :
    CooldownClause head m n pc (pc.exec head m n) := by
  cases pc with
  | reserve => exact .reserve
  | swap e =>
    by_cases h : m.inUse n = .used
    · simpa only [CooldownPc.exec, if_pos h] using .swap h
    · simpa only [CooldownPc.exec, if_neg h] using .swapFail h
  | release e => exact .release

/-! ## Loading -/

/-- The program points that look at the node of the `LocalNode`. -/
def LoadPc.UsesNode : LoadPc → Prop
  | .newFast _ | .newHelping | .confirmHelping _ _ _ => True
  | _ => False

/-- The outcomes of `HybridStrategy::load`. -/
inductive LoadClause (cfg : Config) (tls : Tls) (m : Mem) (f : LoadFrame) : LoadPc → Out → Prop
  | enter (ha : tls.alive = true) (h : tls.head.node.isSome) :
    LoadClause cfg tls m f .enter ⟨m, tls.head, f.begin cfg, []⟩
  | enterGet (h : tls.alive = true → tls.head.node = none) :
    LoadClause cfg tls m f .enter ⟨m, tls.head, .get .head, [.loadNode f]⟩
  | attempt :
    LoadClause cfg tls m f .attempt
      ⟨m, tls.head, .load { f with seen := m.object (m.ptr f.storage) }
        (.newFast (m.ptr f.storage)), []⟩
  | newFast {p n} (h : (f.localNode tls.head).node = some n) :
    LoadClause cfg tls m f (.newFast p) ⟨m, tls.head, .load f (.probe n p 0), []⟩
  | probeFree {n p i j} (hj : j = (i + (f.localNode tls.head).offset) % debtSlotCnt)
      (h : m.slot ⟨n, j⟩ = none) :
    LoadClause cfg tls m f (.probe n p i) ⟨m, tls.head, .load f (.claim n p j), []⟩
  | probeNext {n p i} (h : i + 1 < debtSlotCnt) :
    LoadClause cfg tls m f (.probe n p i) ⟨m, tls.head, .load f (.probe n p (i + 1)), []⟩
  | probeFull {n p i} :
    LoadClause cfg tls m f (.probe n p i) ⟨m, tls.head, .load f .newHelping, []⟩
  | claim {n p j} (h : m.slot ⟨n, j⟩ = none) :
    LoadClause cfg tls m f (.claim n p j)
      ⟨m.setSlot ⟨n, j⟩ (some ⟨cfg.kind f.storage, p⟩),
        (f.setLocal tls.head { f.localNode tls.head with offset := j + 1 }).2,
        .load (f.setLocal tls.head { f.localNode tls.head with offset := j + 1 }).1
          (.confirm p ⟨n, j⟩), []⟩
  | claimFull {n p j} (h : m.slot ⟨n, j⟩ ≠ none) :
    LoadClause cfg tls m f (.claim n p j) ⟨m, tls.head, .failed .fastSlotNone, []⟩
  | confirm {p d} (h : m.ptr f.storage = p) :
    LoadClause cfg tls m f (.confirm p d)
      ⟨m, tls.head, .load f (.leave ⟨⟨cfg.kind f.storage, p⟩, some d⟩), []⟩
  | confirmChanged {p d} (h : m.ptr f.storage ≠ p) :
    LoadClause cfg tls m f (.confirm p d) ⟨m, tls.head, .load f (.unclaim p d), []⟩
  | unclaim {p d} (h : m.Owes d ⟨cfg.kind f.storage, p⟩) :
    LoadClause cfg tls m f (.unclaim p d) ⟨m.setSlot d none, tls.head, .load f .newHelping, []⟩
  | unclaimLate {p d} (h : ¬ m.Owes d ⟨cfg.kind f.storage, p⟩) :
    LoadClause cfg tls m f (.unclaim p d)
      ⟨m, tls.head, .load f (.leave ⟨⟨cfg.kind f.storage, p⟩, none⟩), []⟩
  | newHelping {n} (h : (f.localNode tls.head).node = some n) :
    LoadClause cfg tls m f .newHelping ⟨m, tls.head, .load f (.publishAddr n), []⟩
  | publishAddr {n gen} (h : gen = ((f.localNode tls.head).generation + 4) % 2 ^ cfg.wordBits)
      (ht : gen &&& genTag = 0) :
    LoadClause cfg tls m f (.publishAddr n)
      ⟨m.setActiveAddr n f.storage,
        (f.setLocal tls.head { f.localNode tls.head with generation := gen }).2,
        .load (f.setLocal tls.head { f.localNode tls.head with generation := gen }).1
          (.publishGen n gen), []⟩
  | genTagged {n gen} (h : gen = ((f.localNode tls.head).generation + 4) % 2 ^ cfg.wordBits)
      (ht : gen &&& genTag ≠ 0) :
    LoadClause cfg tls m f (.publishAddr n) ⟨m, tls.head, .failed .genTagFree, []⟩
  | publishGen {n gen} (h : m.control n = idle) (hg : gen ≠ 0) :
    LoadClause cfg tls m f (.publishGen n gen)
      ⟨m.publish n (genWord gen), tls.head, .load f (.candidate n gen), []⟩
  | discard {n} (h : m.control n = idle) :
    LoadClause cfg tls m f (.publishGen n 0)
      ⟨m.publish n (genWord 0),
        (f.setLocal tls.head { f.localNode tls.head with node := none }).2,
        .cooldown n .reserve,
        [.discard (f.setLocal tls.head { f.localNode tls.head with node := none }).1 n 0]⟩
  | publishFull {n gen} (h : m.control n ≠ idle) :
    LoadClause cfg tls m f (.publishGen n gen)
      ⟨m.publish n (genWord gen), tls.head, .failed .controlIdle, []⟩
  | candidate {n gen} :
    LoadClause cfg tls m f (.candidate n gen)
      ⟨m, tls.head, .load f (.confirmHelping n gen (m.ptr f.storage)), []⟩
  | confirmHelping {n n' gen p} (h : (f.localNode tls.head).node = some n') :
    LoadClause cfg tls m f (.confirmHelping n gen p)
      ⟨m, tls.head, .load f (.offerDebt n' gen p), []⟩
  | offerDebt {n gen p} (h : m.slot (helpingSlot n) = none) :
    LoadClause cfg tls m f (.offerDebt n gen p)
      ⟨m.setSlot (helpingSlot n) (some ⟨cfg.kind f.storage, p⟩), tls.head,
        .load f (.closeControl n gen p), []⟩
  | offerFull {n gen p} (h : m.slot (helpingSlot n) ≠ none) :
    LoadClause cfg tls m f (.offerDebt n gen p) ⟨m, tls.head, .failed .helpingSlotNone, []⟩
  | closeControl {n gen p} (h : m.control n = genWord gen) :
    LoadClause cfg tls m f (.closeControl n gen p)
      ⟨m.setControl n idle, tls.head,
        .intoInner ⟨⟨cfg.kind f.storage, p⟩, some (helpingSlot n)⟩ .start,
        [.fallback f ⟨cfg.kind f.storage, p⟩]⟩
  | closeReplaced {n gen p} (hg : m.control n ≠ genWord gen)
      (h : tag (m.control n) = replacementTag) :
    LoadClause cfg tls m f (.closeControl n gen p)
      ⟨m.setControl n idle, tls.head, .load f (.takeEnvelope n gen p (clearTag (m.control n))), []⟩
  | closeInvalid {n gen p} (hg : m.control n ≠ genWord gen)
      (h : tag (m.control n) ≠ replacementTag) :
    LoadClause cfg tls m f (.closeControl n gen p)
      ⟨m.setControl n idle, tls.head, .failed .replacement, []⟩
  | takeEnvelope {n gen p e} :
    LoadClause cfg tls m f (.takeEnvelope n gen p e)
      ⟨m.takeOffer n, tls.head, .load f (.keepEnvelope n p e (m.envelope e)), []⟩
  | keepEnvelope {n p e q} :
    LoadClause cfg tls m f (.keepEnvelope n p e q)
      ⟨m.setSpaceOffer n e, tls.head, .load f (.payUnused n p q), []⟩
  | payUnused {n p q} (h : m.Owes (helpingSlot n) ⟨cfg.kind f.storage, p⟩) :
    LoadClause cfg tls m f (.payUnused n p q)
      ⟨m.setSlot (helpingSlot n) none, tls.head,
        .load f (.leave ⟨⟨cfg.kind f.storage, q⟩, none⟩), []⟩
  | payUnusedLate {n p q} (h : ¬ m.Owes (helpingSlot n) ⟨cfg.kind f.storage, p⟩) :
    LoadClause cfg tls m f (.payUnused n p q)
      ⟨m, tls.head, .dec ⟨cfg.kind f.storage, p⟩, [.unused f ⟨cfg.kind f.storage, q⟩]⟩
  | leave {g} (h : f.tmp.bind LocalNode.node = none) :
    LoadClause cfg tls m f (.leave g) ⟨m, tls.head, f.result g, []⟩
  | leaveTmp {g n} (h : f.tmp.bind LocalNode.node = some n) :
    LoadClause cfg tls m f (.leave g)
      ⟨m, tls.head, .cooldown n .reserve, [.loadLeft f.storage f.start g]⟩
  | noNode {pc} (hpc : pc.UsesNode) (h : (f.localNode tls.head).node = none) :
    LoadClause cfg tls m f pc ⟨m, tls.head, .failed .nodeSet, []⟩
  | notUsed {pc n} (hpc : pc.UsesNode) (h : (f.localNode tls.head).node = some n)
      (hu : m.inUse n ≠ .used) :
    LoadClause cfg tls m f pc ⟨m, tls.head, .failed .nodeInUse, []⟩

theorem LoadPc.exec_clause {f : LoadFrame} (pc : LoadPc) :
    LoadClause cfg tls m f pc (pc.exec cfg tls m f) := by
  cases pc <;> simp only [LoadPc.exec]
  case newFast | newHelping | confirmHelping =>
    split
    · exact .noNode trivial ‹_›
    · split
      · constructor; assumption
      · exact .notUsed trivial ‹_› ‹_›
  case enter =>
    split
    · rename_i h
      exact .enter h.1 h.2
    · rename_i h
      exact .enterGet fun ha => by simpa [ha] using h
  case attempt => exact .attempt
  case probe =>
    split
    · exact .probeFree rfl ‹_›
    · split
      · exact .probeNext ‹_›
      · exact .probeFull
  case confirm =>
    split
    · rename_i h
      simpa [← h] using .confirm h.symm
    · exact .confirmChanged (Ne.symm ‹_›)
  case publishAddr =>
    split
    · exact .publishAddr rfl ‹_›
    · exact .genTagged rfl ‹_›
  case publishGen =>
    split
    · split
      · rename_i h
        subst h
        exact .discard ‹_›
      · exact .publishGen ‹_› ‹_›
    · exact .publishFull ‹_›
  case closeControl =>
    split
    · exact .closeControl ‹_›
    · split
      · exact .closeReplaced ‹_› ‹_›
      · exact .closeInvalid ‹_› ‹_›
  case candidate => exact .candidate
  case takeEnvelope => exact .takeEnvelope
  case keepEnvelope => exact .keepEnvelope
  all_goals split <;> constructor <;> assumption

/-! ## Guards -/

/-- The outcomes of `HybridProtection::into_inner`. -/
inductive IntoInnerClause (head : LocalNode) (m : Mem) (g : Guard) : IntoInnerPc → Out → Prop
  | owned (h : g.debt = none) :
    IntoInnerClause head m g .start ⟨m, head, .ret (.is g.ref) (.value g.ref none), []⟩
  | start {d} (h : g.debt = some d) :
    IntoInnerClause head m g .start ⟨m.inc g.ref, head, .intoInner g (.pay d), []⟩
  | pay {d} (h : m.Owes d g.ref) :
    IntoInnerClause head m g (.pay d)
      ⟨m.setSlot d none, head, .ret (.is g.ref) (.value g.ref none), []⟩
  | payLate {d} (h : ¬ m.Owes d g.ref) :
    IntoInnerClause head m g (.pay d) ⟨m, head, .dec g.ref, [.intoInner g.ref]⟩

theorem IntoInnerPc.exec_clause {g : Guard} (pc : IntoInnerPc) :
    IntoInnerClause head m g pc (pc.exec head m g) := by
  cases pc <;> simp only [IntoInnerPc.exec] <;> split <;> constructor <;> assumption

/-- The outcomes of the drop of a guard. -/
inductive DropClause (head : LocalNode) (m : Mem) (g : Guard) : Out → Prop
  | owned (h : g.debt = none) : DropClause head m g ⟨m, head, .dec g.ref, []⟩
  | pay {d} (h : g.debt = some d) (ho : m.Owes d g.ref) :
    DropClause head m g ⟨m.setSlot d none, head, .ret .unit (.unit none), []⟩
  | payLate {d} (h : g.debt = some d) (ho : ¬ m.Owes d g.ref) :
    DropClause head m g ⟨m, head, .dec g.ref, []⟩

theorem Guard.execDrop_clause (g : Guard) : DropClause head m g (g.execDrop head m) := by
  simp only [Guard.execDrop]
  split
  · exact .owned ‹_›
  · split
    · exact .pay ‹_› ‹_›
    · exact .payLate ‹_› ‹_›

/-- The outcomes of `RefCnt::dec`. -/
inductive DecClause (head : LocalNode) (m : Mem) (r : Ref) : Out → Prop
  | last (hk : r.kind = .arc) (h : m.LastRef r) :
    DecClause head m r ⟨m.dec r, head, .user .destructor, [.destroyed]⟩
  | dec : DecClause head m r ⟨m.dec r, head, .ret .unit (.unit none), []⟩

theorem Ref.execDec_clause (r : Ref) : DecClause head m r (r.execDec head m) := by
  simp only [Ref.execDec]
  split
  · rename_i h
    exact .last h.1 h.2
  · exact .dec

/-! ## Paying -/

/-- Where the loop of `help` goes with a value of `who.control`. -/
inductive Dispatched (f : PayFrame) (me who : NodeId) (control : ℕ) : Active → Prop
  | pass (h : control = idle ∨ tag control = replacementTag) :
    Dispatched f me who control (.payAll f (.slot who 0))
  | gen (h : tag control = genTag) (hm : me ≠ who) :
    Dispatched f me who control (.payAll f (.helpAddr me who control))
  | myself (h : tag control = genTag) (hm : me = who) :
    Dispatched f me who control (.failed .notMyself)
  | invalid (h : control ≠ idle) (hr : tag control ≠ replacementTag)
      (hg : tag control ≠ genTag) : Dispatched f me who control (.failed .controlValid)

theorem PayFrame.dispatch_dispatched (f : PayFrame) (me who : NodeId) (control : ℕ) :
    Dispatched f me who control (f.dispatch me who control) := by
  simp only [PayFrame.dispatch]
  split
  · exact .pass (.inl ‹_›)
  · split
    · exact .pass (.inr ‹_›)
    · split
      · split
        · exact .myself ‹_› ‹_›
        · exact .gen ‹_› ‹_›
      · exact .invalid ‹_› ‹_› ‹_›

/-- The outcomes of `Debt::pay_all`. -/
inductive PayClause (tls : Tls) (m : Mem) (f : PayFrame) : PayPc → Out → Prop
  | enter (ha : tls.alive = true) (h : tls.head.node.isSome) :
    PayClause tls m f .enter ⟨m, tls.head, .payAll f .prepay, []⟩
  | enterGet (h : tls.alive = true → tls.head.node = none) :
    PayClause tls m f .enter ⟨m, tls.head, .get .head, [.payNode f]⟩
  | prepay : PayClause tls m f .prepay ⟨m.inc f.ref, tls.head, .payAll f .head, []⟩
  | headNone (h : m.listHead = none) :
    PayClause tls m f .head ⟨m, tls.head, .payAll f .dropVal, []⟩
  | head {n} (h : m.listHead = some n) :
    PayClause tls m f .head ⟨m, tls.head, .payAll f (.reserve n), []⟩
  | reserve {who} :
    PayClause tls m f (.reserve who)
      ⟨m.addWriter who, tls.head, .payAll { f with reserved := m.epoch who } (.helpInUse who), []⟩
  | helpInUse {who me} (h : (f.localNode tls.head).node = some me) :
    PayClause tls m f (.helpInUse who) ⟨m, tls.head, .payAll f (.helpIdle me who), []⟩
  | noNode {who} (h : (f.localNode tls.head).node = none) :
    PayClause tls m f (.helpInUse who) ⟨m, tls.head, .failed .nodeSet, []⟩
  | notUsed {who me} (h : (f.localNode tls.head).node = some me) (hu : m.inUse me ≠ .used) :
    PayClause tls m f (.helpInUse who) ⟨m, tls.head, .failed .nodeInUse, []⟩
  | helpIdle {me who} (h : m.control me = idle) :
    PayClause tls m f (.helpIdle me who) ⟨m, tls.head, .payAll f (.helpControl me who), []⟩
  | helperBusy {me who} (h : m.control me ≠ idle) :
    PayClause tls m f (.helpIdle me who) ⟨m, tls.head, .failed .helperIdle, []⟩
  | helpControl {me who a}
      (h : Dispatched { f with readAt := m.epoch who } me who (m.control who) a) :
    PayClause tls m f (.helpControl me who) ⟨m, tls.head, a, []⟩
  | helpAddr {me who control} (h : m.activeAddr who = f.storage) :
    PayClause tls m f (.helpAddr me who control)
      ⟨m, tls.head, .load ⟨f.storage, m.now f.storage, none, 0⟩ .enter,
        [.full f.storage (m.now f.storage),
          .helpReplacement { f with since := m.now f.storage } me who control]⟩
  | helpAddrOther {me who control} (h : m.activeAddr who ≠ f.storage) :
    PayClause tls m f (.helpAddr me who control)
      ⟨m, tls.head, .payAll f (.helpRecheck me who control), []⟩
  | helpRecheck {me who control} (h : m.control who = control) :
    PayClause tls m f (.helpRecheck me who control) ⟨m, tls.head, .payAll f (.slot who 0), []⟩
  | helpChanged {me who control a} (hc : m.control who ≠ control)
      (h : Dispatched { f with readAt := m.epoch who } me who (m.control who) a) :
    PayClause tls m f (.helpRecheck me who control) ⟨m, tls.head, a, []⟩
  | helpTheirs {me who control q} :
    PayClause tls m f (.helpTheirs me who control q)
      ⟨m, tls.head, .payAll f (.helpMine me who control q (m.spaceOffer who)), []⟩
  | helpMine {me who control q theirs} :
    PayClause tls m f (.helpMine me who control q theirs)
      ⟨m, tls.head, .payAll f (.helpWrite me who control q theirs (m.spaceOffer me)), []⟩
  | helpWrite {me who control q theirs mine} (h : tag mine = 0) :
    PayClause tls m f (.helpWrite me who control q theirs mine)
      ⟨m.setEnvelope mine q.addr, tls.head,
        .payAll f (.helpCas me who control q theirs mine), []⟩
  | misaligned {me who control q theirs mine} (h : tag mine ≠ 0) :
    PayClause tls m f (.helpWrite me who control q theirs mine)
      ⟨m, tls.head, .failed .spaceAligned, []⟩
  | helpCas {me who control q theirs mine} (h : m.control who = control) :
    PayClause tls m f (.helpCas me who control q theirs mine)
      ⟨m.handOver me who (replacementWord mine) ⟨control, f.storage, q, f.since⟩, tls.head,
        .payAll f (.helpTake me who theirs), []⟩
  | helpLate {me who control q theirs mine} (h : m.control who ≠ control) :
    PayClause tls m f (.helpCas me who control q theirs mine)
      ⟨m, tls.head, .dec q,
        [.helpRetry { f with readAt := m.epoch who } me who (m.control who)]⟩
  | helpTake {me who theirs} :
    PayClause tls m f (.helpTake me who theirs)
      ⟨m.setSpaceOffer me theirs, tls.head, .payAll f (.slot who 0), []⟩
  | slot {who i} (h : m.Owes ⟨who, i⟩ f.ref) :
    PayClause tls m f (.slot who i)
      ⟨m.setSlot ⟨who, i⟩ none, tls.head, .payAll f (.slotInc who i), []⟩
  | slotOther {who i} (h : ¬ m.Owes ⟨who, i⟩ f.ref) :
    PayClause tls m f (.slot who i) ⟨m, tls.head, f.nextSlot who i, []⟩
  | slotInc {who i} :
    PayClause tls m f (.slotInc who i) ⟨m.inc f.ref, tls.head, f.nextSlot who i, []⟩
  | unreserve {who} :
    PayClause tls m f (.unreserve who) ⟨m.subWriter who, tls.head, .payAll f (.next who), []⟩
  | nextNone {who} (h : m.next who = none) :
    PayClause tls m f (.next who) ⟨m, tls.head, .payAll f .dropVal, []⟩
  | next {who n} (h : m.next who = some n) :
    PayClause tls m f (.next who) ⟨m, tls.head, .payAll f (.reserve n), []⟩
  | dropVal : PayClause tls m f .dropVal ⟨m, tls.head, .dec f.ref, [.valDropped f]⟩
  | leave (h : f.tmp.bind LocalNode.node = none) :
    PayClause tls m f .leave ⟨m, tls.head, .ret (.paid f.ref) (.unit none), []⟩
  | leaveTmp {n} (h : f.tmp.bind LocalNode.node = some n) :
    PayClause tls m f .leave ⟨m, tls.head, .cooldown n .reserve, [.payLeft f.ref]⟩

theorem PayPc.exec_clause {f : PayFrame} (pc : PayPc) :
    PayClause tls m f pc (pc.exec tls m f) := by
  cases pc <;> simp only [PayPc.exec]
  case enter =>
    split
    · rename_i h
      exact .enter h.1 h.2
    · rename_i h
      exact .enterGet fun ha => by simpa [ha] using h
  case helpInUse =>
    split
    · exact .noNode ‹_›
    · split
      · exact .helpInUse ‹_›
      · exact .notUsed ‹_› ‹_›
  case helpControl => exact .helpControl (PayFrame.dispatch_dispatched _ _ _ _)
  case helpRecheck =>
    split
    · exact .helpRecheck ‹_›
    · exact .helpChanged ‹_› (PayFrame.dispatch_dispatched _ _ _ _)
  case prepay | reserve | helpTheirs | helpMine | helpTake | slotInc | unreserve | dropVal =>
    constructor
  all_goals split <;> constructor <;> assumption

/-! ## Writing -/

/-- The outcomes of the exchange in `compare_and_swap`. -/
inductive CasClause (head : LocalNode) (m : Mem) (f : CasFrame) (old : Guard) : Out → Prop
  | swapped (h : m.ptr f.storage = f.current) :
    CasClause head m f old
      ⟨m.setPtr f.storage f.new.addr f.call, head, .payAll (.start f.storage old.ref) .enter,
        [.casPaid f old (m.log f.storage).length]⟩
  | late : CasClause head m f old ⟨m, head, .dropGuard old, [.casRetry f]⟩

theorem CasFrame.exec_clause (f : CasFrame) (old : Guard) :
    CasClause head m f old (f.exec head m spurious old) := by
  simp only [CasFrame.exec]
  split
  · rename_i h
    exact .swapped h.1
  · exact .late

/-- The function is one of the library. -/
def Active.IsCode : Active → Prop
  | .user _ | .ret _ _ | .failed _ => False
  | _ => True

/-- The outcomes of a step of a function of the library. -/
inductive Clause (cfg : Config) (tls : Tls) (m : Mem) : Active → Out → Prop
  | get {pc o} (h : GetClause tls.head m pc o) : Clause cfg tls m (.get pc) o
  | cooldown {n pc o} (h : CooldownClause tls.head m n pc o) : Clause cfg tls m (.cooldown n pc) o
  | load {f pc o} (h : LoadClause cfg tls m f pc o) : Clause cfg tls m (.load f pc) o
  | intoInner {g pc o} (h : IntoInnerClause tls.head m g pc o) :
    Clause cfg tls m (.intoInner g pc) o
  | dropGuard {g o} (h : DropClause tls.head m g o) : Clause cfg tls m (.dropGuard g) o
  | dec {r o} (h : DecClause tls.head m r o) : Clause cfg tls m (.dec r) o
  | payAll {f pc o} (h : PayClause tls m f pc o) : Clause cfg tls m (.payAll f pc) o
  | swap {f} : Clause cfg tls m (.swap f) (f.exec cfg tls.head m)
  | cas {f old o} (h : CasClause tls.head m f old o) : Clause cfg tls m (.cas f old) o

theorem Active.exec_clause {a : Active} (h : a.IsCode) :
    Clause cfg tls m a (a.exec cfg tls m spurious) := by
  cases a with
  | user | ret | failed => exact absurd h (by simp [Active.IsCode])
  | get pc => exact .get pc.exec_clause
  | cooldown n pc => exact .cooldown pc.exec_clause
  | load f pc => exact .load pc.exec_clause
  | intoInner g pc => exact .intoInner pc.exec_clause
  | dropGuard g => exact .dropGuard g.execDrop_clause
  | dec r => exact .dec r.execDec_clause
  | payAll f pc => exact .payAll pc.exec_clause
  | swap f => exact .swap
  | cas f old => exact .cas (f.exec_clause old)

end ArcSwap
