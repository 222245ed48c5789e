import ArcSwap.Machine.Frames

/-!
# The code

One clause for each program point: the access to the shared memory that the code makes there, and
where it goes with the result. A clause makes at most one access to an atomic; what the source does
up to the next one on local variables alone happens in the same clause. Where an assertion of the
source compares a value, the clause goes to `Active.failed` if it does not hold.
-/

namespace ArcSwap

/-- What does not change during a run: the width of a `usize`, and the type parameters of the
storages. -/
structure Config where
  wordBits : ℕ
  wide : 2 ≤ wordBits
  /-- `T: RefCnt`. -/
  kind : StorageId → RefKind
  /-- `Cfg::USE_FAST`. -/
  useFast : StorageId → Bool

/-- The result of a clause: the memory, the thread-local node, where the code goes, and the callers
that are suspended if it calls a function. -/
structure Out where
  mem : Mem
  head : LocalNode
  active : Active
  calls : List Cont

/-! ## `debt/list.rs` -/

/-- `Node::get` -/
def GetPc.exec (head : LocalNode) (m : Mem) (spurious : Bool) : GetPc → Out
  | .head =>
    match m.listHead with
    | none => ⟨m, head, .get .create, []⟩
    | some n => ⟨m, head, .get (.check n), []⟩
  | .check n =>
    if m.inUse n = .cooldown then ⟨m, head, .get (.writers n), []⟩
    else ⟨m, head, .get (.claim n), []⟩
  | .writers n =>
    if m.activeWriters n = 0 then ⟨m, head, .get (.unuse n (m.epoch n)), []⟩
    else ⟨m, head, .get (.claim n), []⟩
  | .unuse n _ =>
    if m.inUse n = .cooldown then ⟨m.setInUse n .unused, head, .get (.claim n), []⟩
    else ⟨m, head, .get (.claim n), []⟩
  | .claim n =>
    if m.inUse n = .unused then ⟨m.setInUse n .used, head, .ret .node (.node n), []⟩
    else ⟨m, head, .get (.next n), []⟩
  | .next n =>
    match m.next n with
    | none => ⟨m, head, .get .create, []⟩
    | some n' => ⟨m, head, .get (.check n'), []⟩
  | .create => ⟨m.newNode, head, .get (.pushHead m.nodeCount), []⟩
  | .pushHead n => ⟨m, head, .get (.push n m.listHead), []⟩
  | .push n h =>
    if m.listHead = h ∧ spurious = false then
      ⟨(m.setNext n h).push n, head, .ret .node (.node n), []⟩
    else ⟨m.setNext n h, head, .get (.push n m.listHead), []⟩

/-- `Node::start_cooldown` -/
def CooldownPc.exec (head : LocalNode) (m : Mem) (n : NodeId) : CooldownPc → Out
  | .reserve => ⟨m.addWriter n, head, .cooldown n (.swap (m.epoch n)), []⟩
  | .swap e =>
    if m.inUse n = .used then ⟨m.startCooldown n, head, .cooldown n (.release e), []⟩
    else ⟨m.startCooldown n, head, .failed .cooldownUsed, []⟩
  | .release _ => ⟨m.subWriter n, head, .ret .unit (.unit none), []⟩

/-! ## `strategy/hybrid.rs`: loading -/

/-- The `LocalNode` in use. -/
def LoadFrame.localNode (f : LoadFrame) (head : LocalNode) : LocalNode := f.tmp.getD head

/-- Writing to the `LocalNode` in use: the temporary one, or the thread-local one. -/
def LoadFrame.setLocal (f : LoadFrame) (head l : LocalNode) : LoadFrame × LocalNode :=
  match f.tmp with
  | none => (f, l)
  | some _ => ({ f with tmp := some l }, head)

/-- `attempt` if `Cfg::USE_FAST`, else `fallback`. -/
def LoadFrame.begin (cfg : Config) (f : LoadFrame) : Active :=
  .load f (if cfg.useFast f.storage then .attempt else .newHelping)

/-- The guard that a `load` returns. -/
def LoadFrame.result (f : LoadFrame) (g : Guard) : Active :=
  .ret (.guard f.storage f.start) (.guard g none)

/-- `HybridStrategy::load` with `HybridProtection::attempt`, `HybridProtection::fallback`,
`LocalNode::new_fast`, `LocalNode::new_helping`, `LocalNode::confirm_helping` and the two
`get_debt` -/
def LoadPc.exec (cfg : Config) (tls : Tls) (m : Mem) (f : LoadFrame) : LoadPc → Out
  | .enter =>
    if tls.alive = true ∧ tls.head.node.isSome then ⟨m, tls.head, f.begin cfg, []⟩
    else ⟨m, tls.head, .get .head, [.loadNode f]⟩
  | .attempt =>
    let p := m.ptr f.storage
    ⟨m, tls.head, .load { f with seen := m.object p } (.newFast p), []⟩
  | .newFast p =>
    match (f.localNode tls.head).node with
    | none => ⟨m, tls.head, .failed .nodeSet, []⟩
    | some n =>
      if m.inUse n = .used then ⟨m, tls.head, .load f (.probe n p 0), []⟩
      else ⟨m, tls.head, .failed .nodeInUse, []⟩
  | .probe n p i =>
    -- the slots are tried from the saved offset on, around the array
    let j := (i + (f.localNode tls.head).offset) % debtSlotCnt
    if m.slot ⟨n, j⟩ = none then ⟨m, tls.head, .load f (.claim n p j), []⟩
    else if i + 1 < debtSlotCnt then ⟨m, tls.head, .load f (.probe n p (i + 1)), []⟩
    else ⟨m, tls.head, .load f .newHelping, []⟩
  | .claim n p j =>
    let l := f.localNode tls.head
    let fl := f.setLocal tls.head { l with offset := j + 1 }
    if m.slot ⟨n, j⟩ = none then
      ⟨m.setSlot ⟨n, j⟩ (some ⟨cfg.kind f.storage, p⟩), fl.2,
        .load fl.1 (.confirm p ⟨n, j⟩), []⟩
    else ⟨m, tls.head, .failed .fastSlotNone, []⟩
  | .confirm p d =>
    let c := m.ptr f.storage
    if p = c then ⟨m, tls.head, .load f (.leave ⟨⟨cfg.kind f.storage, c⟩, some d⟩), []⟩
    else ⟨m, tls.head, .load f (.unclaim p d), []⟩
  | .unclaim p d =>
    if m.Owes d ⟨cfg.kind f.storage, p⟩ then
      ⟨m.setSlot d none, tls.head, .load f .newHelping, []⟩
    else ⟨m, tls.head, .load f (.leave ⟨⟨cfg.kind f.storage, p⟩, none⟩), []⟩
  | .newHelping =>
    match (f.localNode tls.head).node with
    | none => ⟨m, tls.head, .failed .nodeSet, []⟩
    | some n =>
      if m.inUse n = .used then ⟨m, tls.head, .load f (.publishAddr n), []⟩
      else ⟨m, tls.head, .failed .nodeInUse, []⟩
  | .publishAddr n =>
    let l := f.localNode tls.head
    let gen := (l.generation + 4) % 2 ^ cfg.wordBits
    let fl := f.setLocal tls.head { l with generation := gen }
    if gen &&& genTag = 0 then
      ⟨m.setActiveAddr n f.storage, fl.2, .load fl.1 (.publishGen n gen), []⟩
    else ⟨m, tls.head, .failed .genTagFree, []⟩
  | .publishGen n gen =>
    if m.control n = idle then
      -- `discard`: the node is put into cooldown and taken out of the `LocalNode`
      if gen = 0 then
        let fl := f.setLocal tls.head { f.localNode tls.head with node := none }
        ⟨m.publish n (genWord gen), fl.2, .cooldown n .reserve, [.discard fl.1 n gen]⟩
      else ⟨m.publish n (genWord gen), tls.head, .load f (.candidate n gen), []⟩
    else ⟨m.publish n (genWord gen), tls.head, .failed .controlIdle, []⟩
  | .candidate n gen =>
    ⟨m, tls.head, .load f (.confirmHelping n gen (m.ptr f.storage)), []⟩
  | .confirmHelping _ gen p =>
    match (f.localNode tls.head).node with
    | none => ⟨m, tls.head, .failed .nodeSet, []⟩
    | some n =>
      if m.inUse n = .used then ⟨m, tls.head, .load f (.offerDebt n gen p), []⟩
      else ⟨m, tls.head, .failed .nodeInUse, []⟩
  | .offerDebt n gen p =>
    if m.slot (helpingSlot n) = none then
      ⟨m.setSlot (helpingSlot n) (some ⟨cfg.kind f.storage, p⟩), tls.head,
        .load f (.closeControl n gen p), []⟩
    else ⟨m, tls.head, .failed .helpingSlotNone, []⟩
  | .closeControl n gen p =>
    let control := m.control n
    if control = genWord gen then
      ⟨m.setControl n idle, tls.head,
        .intoInner ⟨⟨cfg.kind f.storage, p⟩, some (helpingSlot n)⟩ .start,
          [.fallback f ⟨cfg.kind f.storage, p⟩]⟩
    else if tag control = replacementTag then
      ⟨m.setControl n idle, tls.head, .load f (.takeEnvelope n gen p (clearTag control)), []⟩
    else ⟨m.setControl n idle, tls.head, .failed .replacement, []⟩
  | .takeEnvelope n _ p e =>
    ⟨m.takeOffer n, tls.head, .load f (.keepEnvelope n p e (m.envelope e)), []⟩
  | .keepEnvelope n p e q =>
    ⟨m.setSpaceOffer n e, tls.head, .load f (.payUnused n p q), []⟩
  | .payUnused n p q =>
    if m.Owes (helpingSlot n) ⟨cfg.kind f.storage, p⟩ then
      ⟨m.setSlot (helpingSlot n) none, tls.head,
        .load f (.leave ⟨⟨cfg.kind f.storage, q⟩, none⟩), []⟩
    else
      ⟨m, tls.head, .dec ⟨cfg.kind f.storage, p⟩,
        [.unused f ⟨cfg.kind f.storage, q⟩]⟩
  | .leave g =>
    match f.tmp.bind LocalNode.node with
    | none => ⟨m, tls.head, f.result g, []⟩
    | some n => ⟨m, tls.head, .cooldown n .reserve, [.loadLeft f.storage f.start g]⟩

/-! ## `strategy/hybrid.rs`: guards -/

/-- `HybridProtection::into_inner` -/
def IntoInnerPc.exec (head : LocalNode) (m : Mem) (g : Guard) : IntoInnerPc → Out
  | .start =>
    match g.debt with
    | none => ⟨m, head, .ret (.is g.ref) (.value g.ref none), []⟩
    | some d => ⟨m.inc g.ref, head, .intoInner g (.pay d), []⟩
  | .pay d =>
    if m.Owes d g.ref then
      ⟨m.setSlot d none, head, .ret (.is g.ref) (.value g.ref none), []⟩
    else ⟨m, head, .dec g.ref, [.intoInner g.ref]⟩

/-- `Drop for HybridProtection` -/
def Guard.execDrop (head : LocalNode) (m : Mem) (g : Guard) : Out :=
  match g.debt with
  | none => ⟨m, head, .dec g.ref, []⟩
  | some d =>
    if m.Owes d g.ref then ⟨m.setSlot d none, head, .ret .unit (.unit none), []⟩
    else ⟨m, head, .dec g.ref, []⟩

/-- `RefCnt::dec`: the destructor of an object is user code. -/
def Ref.execDec (head : LocalNode) (m : Mem) (r : Ref) : Out :=
  if r.kind = .arc ∧ m.LastRef r then ⟨m.dec r, head, .user .destructor, [.destroyed]⟩
  else ⟨m.dec r, head, .ret .unit (.unit none), []⟩

/-! ## `debt/mod.rs` and `debt/helping.rs`: paying -/

/-- The `LocalNode` in use. -/
def PayFrame.localNode (f : PayFrame) (head : LocalNode) : LocalNode := f.tmp.getD head

/-- The head of the loop of `help`, with the value of `who.control` it acts on. -/
def PayFrame.dispatch (f : PayFrame) (me who : NodeId) (control : ℕ) : Active :=
  if control = idle then .payAll f (.slot who 0)
  else if tag control = replacementTag then .payAll f (.slot who 0)
  else if tag control = genTag then
    if me = who then .failed .notMyself else .payAll f (.helpAddr me who control)
  else .failed .controlValid

/-- The slot after the `i`-th in `fast_slots().chain(once(helping_slot()))`. -/
def PayFrame.nextSlot (f : PayFrame) (who : NodeId) (i : ℕ) : Active :=
  if i < debtSlotCnt then .payAll f (.slot who (i + 1)) else .payAll f (.unreserve who)

/-- `Debt::pay_all`, with `LocalNode::help` and `helping::Slots::help` -/
def PayPc.exec (tls : Tls) (m : Mem) (f : PayFrame) : PayPc → Out
  | .enter =>
    if tls.alive = true ∧ tls.head.node.isSome then ⟨m, tls.head, .payAll f .prepay, []⟩
    else ⟨m, tls.head, .get .head, [.payNode f]⟩
  | .prepay => ⟨m.inc f.ref, tls.head, .payAll f .head, []⟩
  | .head =>
    match m.listHead with
    | none => ⟨m, tls.head, .payAll f .dropVal, []⟩
    | some n => ⟨m, tls.head, .payAll f (.reserve n), []⟩
  | .reserve who =>
    ⟨m.addWriter who, tls.head,
      .payAll { f with reserved := m.epoch who } (.helpInUse who), []⟩
  | .helpInUse who =>
    match (f.localNode tls.head).node with
    | none => ⟨m, tls.head, .failed .nodeSet, []⟩
    | some me =>
      if m.inUse me = .used then ⟨m, tls.head, .payAll f (.helpIdle me who), []⟩
      else ⟨m, tls.head, .failed .nodeInUse, []⟩
  | .helpIdle me who =>
    if m.control me = idle then ⟨m, tls.head, .payAll f (.helpControl me who), []⟩
    else ⟨m, tls.head, .failed .helperIdle, []⟩
  | .helpControl me who =>
    ⟨m, tls.head, { f with readAt := m.epoch who }.dispatch me who (m.control who), []⟩
  | .helpAddr me who control =>
    if m.activeAddr who = f.storage then
      let since := m.now f.storage
      ⟨m, tls.head, .load ⟨f.storage, since, none, 0⟩ .enter,
        [.full f.storage since, .helpReplacement { f with since := since } me who control]⟩
    else ⟨m, tls.head, .payAll f (.helpRecheck me who control), []⟩
  | .helpRecheck me who control =>
    if m.control who = control then ⟨m, tls.head, .payAll f (.slot who 0), []⟩
    else
      ⟨m, tls.head, { f with readAt := m.epoch who }.dispatch me who (m.control who), []⟩
  | .helpTheirs me who control q =>
    ⟨m, tls.head, .payAll f (.helpMine me who control q (m.spaceOffer who)), []⟩
  | .helpMine me who control q theirs =>
    ⟨m, tls.head, .payAll f (.helpWrite me who control q theirs (m.spaceOffer me)), []⟩
  | .helpWrite me who control q theirs mine =>
    if tag mine = 0 then
      ⟨m.setEnvelope mine q.addr, tls.head,
        .payAll f (.helpCas me who control q theirs mine), []⟩
    else ⟨m, tls.head, .failed .spaceAligned, []⟩
  | .helpCas me who control q theirs mine =>
    if m.control who = control then
      ⟨m.handOver me who (replacementWord mine) ⟨control, f.storage, q, f.since⟩, tls.head,
        .payAll f (.helpTake me who theirs), []⟩
    else
      ⟨m, tls.head, .dec q,
        [.helpRetry { f with readAt := m.epoch who } me who (m.control who)]⟩
  | .helpTake me who theirs =>
    ⟨m.setSpaceOffer me theirs, tls.head, .payAll f (.slot who 0), []⟩
  | .slot who i =>
    if m.Owes ⟨who, i⟩ f.ref then
      ⟨m.setSlot ⟨who, i⟩ none, tls.head, .payAll f (.slotInc who i), []⟩
    else ⟨m, tls.head, f.nextSlot who i, []⟩
  | .slotInc who i => ⟨m.inc f.ref, tls.head, f.nextSlot who i, []⟩
  | .unreserve who => ⟨m.subWriter who, tls.head, .payAll f (.next who), []⟩
  | .next who =>
    match m.next who with
    | none => ⟨m, tls.head, .payAll f .dropVal, []⟩
    | some n => ⟨m, tls.head, .payAll f (.reserve n), []⟩
  | .dropVal => ⟨m, tls.head, .dec f.ref, [.valDropped f]⟩
  | .leave =>
    match f.tmp.bind LocalNode.node with
    | none => ⟨m, tls.head, .ret (.paid f.ref) (.unit none), []⟩
    | some n => ⟨m, tls.head, .cooldown n .reserve, [.payLeft f.ref]⟩

/-! ## `lib.rs` and `strategy/hybrid.rs`: the operations -/

/-- `ArcSwapAny::swap`: the exchange -/
def SwapFrame.exec (cfg : Config) (head : LocalNode) (m : Mem) (f : SwapFrame) : Out :=
  let old : Ref := ⟨cfg.kind f.storage, m.ptr f.storage⟩
  ⟨m.setPtr f.storage f.new.addr f.call, head, .payAll (.start f.storage old) .enter,
    [.swapPaid f old (m.log f.storage).length]⟩

/-- `HybridStrategy::compare_and_swap`: the exchange after `old` was found equal to `current` -/
def CasFrame.exec (head : LocalNode) (m : Mem) (spurious : Bool) (f : CasFrame) (old : Guard) :
    Out :=
  if m.ptr f.storage = f.current ∧ spurious = false then
    ⟨m.setPtr f.storage f.new.addr f.call, head, .payAll (.start f.storage old.ref) .enter,
      [.casPaid f old (m.log f.storage).length]⟩
  else ⟨m, head, .dropGuard old, [.casRetry f]⟩

/-- The next step of a function. Nothing happens in user code, on a return and after a failed
assertion: these are steps of the thread as a whole. -/
def Active.exec (cfg : Config) (tls : Tls) (m : Mem) (spurious : Bool) : Active → Out
  | .get pc => pc.exec tls.head m spurious
  | .cooldown n pc => pc.exec tls.head m n
  | .load f pc => pc.exec cfg tls m f
  | .intoInner g pc => pc.exec tls.head m g
  | .dropGuard g => g.execDrop tls.head m
  | .dec r => r.execDec tls.head m
  | .payAll f pc => pc.exec tls m f
  | .swap f => f.exec cfg tls.head m
  | .cas f old => f.exec tls.head m spurious old
  | a => ⟨m, tls.head, a, []⟩

/-! ## Returning -/

/-- The call of `load` in `compare_and_swap`. -/
def CasFrame.load (f : CasFrame) : Active := .load ⟨f.storage, f.start, none, 0⟩ .enter

/-- The new value, with its object. -/
def CasFrame.content (f : CasFrame) : Content := ⟨f.new.addr, f.made⟩

/-- The arguments of the `compare_and_swap` in `rcu`, with the result of the closure. -/
def RcuFrame.casFrame (f : RcuFrame) (m : Mem) (cur : Guard) (new : Ref) : CasFrame :=
  ⟨f.storage, m.now f.storage, f.call, cur.ref.addr, new, m.object new.addr⟩

/-- Where a suspended caller goes on when its call returns. It is not defined on the calls that
user code makes, nor when the value is not of the type that the call returns. -/
def Cont.resume (cfg : Config) (tls : Tls) (m : Mem) : Cont → Ret → Option Out
  | .destroyed, .unit _ => some ⟨m, tls.head, .ret .unit (.unit none), []⟩
  | .loadNode f, .node n =>
    if tls.alive then some ⟨m, { tls.head with node := some n }, f.begin cfg, []⟩
    else some ⟨m, tls.head, { f with tmp := some (.fresh (some n)) }.begin cfg, []⟩
  | .discard f n gen, .unit _ => some ⟨m, tls.head, .load f (.candidate n gen), []⟩
  | .fallback f _, .value r _ => some ⟨m, tls.head, .load f (.leave ⟨r, none⟩), []⟩
  | .unused f q, .unit _ => some ⟨m, tls.head, .load f (.leave ⟨q, none⟩), []⟩
  | .loadLeft s start g, .unit _ => some ⟨m, tls.head, .ret (.guard s start) (.guard g none), []⟩
  | .full s start, .guard g _ =>
    some ⟨m, tls.head, .intoInner g .start, [.fullInner s start g.ref]⟩
  | .fullInner s start _, .value r _ =>
    some ⟨m, tls.head, .ret (.value s start) (.value r none), []⟩
  | .intoInner r, .unit _ => some ⟨m, tls.head, .ret (.is r) (.value r none), []⟩
  | .payNode f, .node n =>
    if tls.alive then some ⟨m, { tls.head with node := some n }, .payAll f .prepay, []⟩
    else some ⟨m, tls.head, .payAll { f with tmp := some (.fresh (some n)) } .prepay, []⟩
  | .helpReplacement f me who control, .value q _ =>
    some ⟨m, tls.head, .payAll f (.helpTheirs me who control q), []⟩
  | .helpRetry f me who control, .unit _ => some ⟨m, tls.head, f.dispatch me who control, []⟩
  | .valDropped f, .unit _ => some ⟨m, tls.head, .payAll f .leave, []⟩
  | .payLeft r, .unit _ => some ⟨m, tls.head, .ret (.paid r) (.unit none), []⟩
  | .swapPaid f old wrote, .unit _ =>
    if f.store then some ⟨m, tls.head, .dec old, [.stored f wrote]⟩
    else some ⟨m, tls.head, .ret (.swap f) (.value old (some wrote)), []⟩
  | .stored f wrote, .unit _ => some ⟨m, tls.head, .ret (.swap f) (.unit (some wrote)), []⟩
  | .consumed r, .unit _ => some ⟨m, tls.head, .ret (.is r) (.value r none), []⟩
  | .dropped r, .unit _ => some ⟨m, tls.head, .dec r, []⟩
  | .casLoaded f, .guard old _ =>
    if old.ref.addr = f.current then some ⟨m, tls.head, .cas f old, []⟩
    else some ⟨m, tls.head, .dec f.new, [.casRefused f old]⟩
  | .casRetry f, .unit _ => some ⟨m, tls.head, f.load, [.casLoaded f]⟩
  | .casRefused f old, .unit _ => some ⟨m, tls.head, .ret (.cas f) (.guard old none), []⟩
  | .casPaid f old wrote, .unit _ => some ⟨m, tls.head, .dec old.ref, [.casDec f old wrote]⟩
  | .casDec f old wrote, .unit _ =>
    some ⟨m, tls.head, .ret (.cas f) (.guard old (some wrote)), []⟩
  | .rcuLoaded f, .guard cur _ =>
    some ⟨m, tls.head, .user (.closure f.storage),
      [.rcuClosure f cur (m.content cur.ref.addr)]⟩
  | .rcuClosure f cur given, .value new _ =>
    let g := f.casFrame m cur new
    some ⟨m, tls.head, g.load, [.casLoaded g, .rcuSwapped f cur given g]⟩
  | .rcuClosure f cur _, .panicked => some ⟨m, tls.head, .dropGuard cur, [.rcuUnwind f]⟩
  | .rcuSwapped f cur given g, .guard prev wrote =>
    -- `ptr_eq(&*cur, &*prev)`
    if cur.ref.addr = prev.ref.addr then
      some ⟨m, tls.head, .intoInner prev .start,
        [.rcuInner f cur given g.content prev.ref wrote]⟩
    else some ⟨m, tls.head, .dropGuard cur, [.rcuAgain f prev]⟩
  | .rcuInner f cur given made _ wrote, .value r _ =>
    some ⟨m, tls.head, .dropGuard cur, [.rcuDone f given made r wrote]⟩
  | .rcuDone f _ _ r wrote, .unit _ => some ⟨m, tls.head, .ret (.rcu f) (.value r wrote), []⟩
  | .rcuAgain f prev, .unit _ =>
    some ⟨m, tls.head, .user (.closure f.storage),
      [.rcuClosure f prev (m.content prev.ref.addr)]⟩
  | .rcuUnwind f, .unit _ => some ⟨m, tls.head, .ret (.rcu f) .panicked, []⟩
  | _, _ => none

end ArcSwap
