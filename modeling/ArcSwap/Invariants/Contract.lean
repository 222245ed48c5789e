import ArcSwap.Machine.Step

/-!
# Contracts of the calls

A suspended caller expects a value of the type of the function it has called. `Linked` says that a
stack of callers fits together, and `Contract.Meets` what is known of a returned value from the
arguments of the call alone.
-/

namespace ArcSwap

/-! ## The types of the calls -/

/-- What user code returns. -/
def UserKind.contract : UserKind → Contract
  | .main => .never
  | .destructor => .unit
  | .closure s => .closure s

/-- What a function returns. -/
def Active.promise : Active → Contract
  | .user u => u.contract
  | .get _ => .node
  | .cooldown _ _ => .unit
  | .load f _ => .guard f.storage f.start
  | .intoInner g _ => .is g.ref
  | .dropGuard _ => .unit
  | .dec _ => .unit
  | .payAll f _ => .paid f.ref
  | .swap f => .swap f
  | .cas f _ => .cas f
  | .ret c _ => c
  | .failed _ => .never

/-- What a suspended caller returns in the end. -/
def Cont.promise : Cont → Contract
  | .user u _ => u.contract
  | .destroyed => .unit
  | .loadNode f | .discard f _ _ | .fallback f _ | .unused f _ => .guard f.storage f.start
  | .loadLeft s start _ => .guard s start
  | .full s start | .fullInner s start _ => .value s start
  | .intoInner r => .is r
  | .payNode f | .helpReplacement f _ _ _ | .helpRetry f _ _ _ | .valDropped f => .paid f.ref
  | .payLeft r => .paid r
  | .swapPaid f _ _ | .stored f _ => .swap f
  | .consumed r => .is r
  | .dropped _ => .unit
  | .casLoaded f | .casRetry f | .casRefused f _ | .casPaid f _ _ | .casDec f _ _ => .cas f
  | .rcuLoaded f | .rcuClosure f _ _ | .rcuSwapped f _ _ _ | .rcuInner f _ _ _ _ _
  | .rcuDone f _ _ _ _ | .rcuAgain f _ | .rcuUnwind f => .rcu f

/-- What a suspended caller waits for. -/
def Cont.expects : Cont → Contract
  | .user _ c => c
  | .destroyed => .unit
  | .loadNode _ => .node
  | .discard _ _ _ => .unit
  | .fallback _ r => .is r
  | .unused _ _ => .unit
  | .loadLeft _ _ _ => .unit
  | .full s start => .guard s start
  | .fullInner _ _ r => .is r
  | .intoInner _ => .unit
  | .payNode _ => .node
  | .helpReplacement f _ _ _ => .value f.storage f.since
  | .helpRetry _ _ _ _ => .unit
  | .valDropped _ => .unit
  | .payLeft _ => .unit
  | .swapPaid _ old _ => .paid old
  | .stored _ _ => .unit
  | .consumed r | .dropped r => .paid r
  | .casLoaded f => .guard f.storage f.start
  | .casRetry _ => .unit
  | .casRefused _ _ => .unit
  | .casPaid _ old _ => .paid old.ref
  | .casDec _ _ _ => .unit
  | .rcuLoaded f => .guard f.storage f.start
  | .rcuClosure f _ _ => .closure f.storage
  | .rcuSwapped _ _ _ g => .cas g
  | .rcuInner _ _ _ _ r _ => .is r
  | .rcuDone _ _ _ _ _ => .unit
  | .rcuAgain _ _ => .unit
  | .rcuUnwind _ => .unit

/-- The callers `ks` lead from a value of the type `c` to one of the type `c'`. -/
def Links : Contract → List Cont → Contract → Prop
  | c, [], c' => c = c'
  | c, k :: ks, c' => c = k.expects ∧ Links k.promise ks c'

@[simp] theorem links_nil (c c' : Contract) : Links c [] c' ↔ c = c' := Iff.rfl

@[simp] theorem links_cons (c : Contract) (k : Cont) (ks : List Cont) (c' : Contract) :
    Links c (k :: ks) c' ↔ c = k.expects ∧ Links k.promise ks c' := Iff.rfl

theorem Links.append {c c' c'' : Contract} {ks ks' : List Cont} (h : Links c ks c')
    (h' : Links c' ks' c'') : Links c (ks ++ ks') c'' := by
  induction ks generalizing c with
  | nil => simpa [show c = c' from h] using h'
  | cons k ks ih => exact ⟨h.1, ih h.2⟩

/-- A stack on which a function that returns a `c` may run. -/
abbrev Linked (c : Contract) (ks : List Cont) : Prop := Links c ks .never

/-! ## The values of a type -/

/-- The slot of the debt, if any, is a fast one. -/
def Guard.Fast (g : Guard) : Prop := ∀ d, g.debt = some d → d.idx < debtSlotCnt

/-- A value of the type `c`. -/
def Contract.Meets (cfg : Config) : Contract → Ret → Prop
  | .never, _ => False
  | .unit, r => r = .unit none
  | .node, r => ∃ n, r = .node n
  | .guard s _, r => ∃ g, r = .guard g none ∧ g.ref.kind = cfg.kind s ∧ g.Fast
  | .value s _, r => ∃ v, r = .value v none ∧ v.kind = cfg.kind s
  | .is v, r => r = .value v none
  | .paid _, r => r = .unit none
  | .swap f, r => ∃ w, if f.store then r = .unit (some w) else ∃ v, r = .value v (some w)
  | .cas f, r => ∃ g w, r = .guard g w ∧ g.ref.kind = cfg.kind f.storage ∧ g.Fast ∧
      (w.isSome ↔ g.ref.addr = f.current)
  | .rcu f, r => (∃ v w, r = .value v (some w) ∧ v.kind = cfg.kind f.storage) ∨ r = .panicked
  | .closure s, r => (∃ v, r = .value v none ∧ v.kind = cfg.kind s) ∨ r = .panicked

/-- A `LocalNode::with` is running: the `LocalNode` has a node. -/
def InScope (tls : Tls) (tmp : Option LocalNode) : Prop := (tmp.getD tls.head).node.isSome

/-- A `LocalNode::with` is running on the node `n`. -/
def ScopeIs (tls : Tls) (tmp : Option LocalNode) (n : NodeId) : Prop :=
  (tmp.getD tls.head).node = some n

/-- `Node::get` is running for a `LocalNode` without a node. -/
def Homeless (tls : Tls) (tmp : Option LocalNode) : Prop :=
  tmp = none ∧ (tls.alive = true → tls.head.node = none)

/-- A guard loaded from the storage. -/
def Guard.From (cfg : Config) (s : StorageId) (g : Guard) : Prop :=
  g.ref.kind = cfg.kind s ∧ g.Fast

/-- What is known at the program points of `load` from its local variables alone. -/
def LoadPc.Ok (cfg : Config) (tls : Tls) (f : LoadFrame) : LoadPc → Prop
  | .enter => f.tmp = none
  | .attempt | .newFast _ | .newHelping => InScope tls f.tmp
  | .probe n _ _ | .publishAddr n => ScopeIs tls f.tmp n
  | .claim n _ j => ScopeIs tls f.tmp n ∧ j < debtSlotCnt
  | .confirm _ d | .unclaim _ d => ScopeIs tls f.tmp d.node ∧ d.idx < debtSlotCnt
  | .publishGen n gen | .candidate n gen | .confirmHelping n gen _ | .offerDebt n gen _
  | .closeControl n gen _ => ScopeIs tls f.tmp n ∧ IsGen gen
  | .takeEnvelope n _ _ e | .keepEnvelope n _ e _ => ScopeIs tls f.tmp n ∧ IsEnvelope e
  | .payUnused n _ _ => ScopeIs tls f.tmp n
  | .leave g => InScope tls f.tmp ∧ g.From cfg f.storage

/-- What is known in the loop of `help`. -/
def HelpOk (tls : Tls) (f : PayFrame) (me who : NodeId) (control : ℕ) : Prop :=
  ScopeIs tls f.tmp me ∧ me ≠ who ∧ tag control = genTag

/-- What is known at the program points of `pay_all`. -/
def PayPc.Ok (cfg : Config) (tls : Tls) (f : PayFrame) : PayPc → Prop
  | .enter => f.tmp = none
  | .prepay | .head | .reserve _ | .helpInUse _ => InScope tls f.tmp
  | .helpIdle me _ | .helpControl me _ => ScopeIs tls f.tmp me
  | .helpAddr me who c | .helpRecheck me who c => HelpOk tls f me who c
  | .helpTheirs me who c q => HelpOk tls f me who c ∧ q.kind = cfg.kind f.storage
  | .helpMine me who c q theirs =>
    HelpOk tls f me who c ∧ q.kind = cfg.kind f.storage ∧ IsEnvelope theirs
  | .helpWrite me who c q theirs mine | .helpCas me who c q theirs mine =>
    HelpOk tls f me who c ∧ q.kind = cfg.kind f.storage ∧ IsEnvelope theirs ∧ IsEnvelope mine
  | .helpTake me who theirs => ScopeIs tls f.tmp me ∧ me ≠ who ∧ IsEnvelope theirs
  | .slot _ i | .slotInc _ i => InScope tls f.tmp ∧ i ≤ debtSlotCnt
  | .unreserve _ | .next _ | .dropVal | .leave => InScope tls f.tmp

/-- A `LocalNode` counts its generations in steps of four. -/
def LocalNode.Ok (l : LocalNode) : Prop := IsGen l.generation

/-- The temporary `LocalNode`, if any, is well-formed. -/
def TmpOk (tmp : Option LocalNode) : Prop := ∀ l, tmp = some l → l.Ok

/-- What is known of the local variables of the active function. -/
def Active.Ok (cfg : Config) (tls : Tls) : Active → Prop
  | .load f pc => TmpOk f.tmp ∧ pc.Ok cfg tls f
  | .intoInner g (.pay d) => g.debt = some d
  | .dropGuard g => g.Fast
  | .payAll f pc => f.ref.kind = cfg.kind f.storage ∧ pc.Ok cfg tls f
  | .swap f => f.new.kind = cfg.kind f.storage
  | .cas f old => f.new.kind = cfg.kind f.storage ∧ old.From cfg f.storage ∧
      old.ref.addr = f.current
  | .ret c r => c.Meets cfg r
  | _ => True

/-- What is known of the local variables of a suspended caller; user code calls no `pay_all`. -/
def Cont.Ok (cfg : Config) (tls : Tls) : Cont → Prop
  | .user _ c => ∀ r, c ≠ .paid r
  | .loadNode f => Homeless tls f.tmp
  | .discard _ _ _ => False
  | .fallback f r => TmpOk f.tmp ∧ InScope tls f.tmp ∧ r.kind = cfg.kind f.storage
  | .unused f q => TmpOk f.tmp ∧ InScope tls f.tmp ∧ q.kind = cfg.kind f.storage
  | .loadLeft s _ g => g.From cfg s
  | .fullInner s _ r => r.kind = cfg.kind s
  | .payNode f => Homeless tls f.tmp ∧ f.ref.kind = cfg.kind f.storage
  | .helpReplacement f me who c => f.ref.kind = cfg.kind f.storage ∧ HelpOk tls f me who c
  | .helpRetry f me who c =>
    f.ref.kind = cfg.kind f.storage ∧ ScopeIs tls f.tmp me ∧ me ≠ who ∧ ValidWord c
  | .valDropped f => f.ref.kind = cfg.kind f.storage ∧ InScope tls f.tmp
  | .swapPaid f old _ => old.kind = cfg.kind f.storage
  | .stored f _ => f.store = true
  | .casLoaded f | .casRetry f => f.new.kind = cfg.kind f.storage
  | .casRefused f old => old.From cfg f.storage ∧ old.ref.addr ≠ f.current
  | .casPaid f old _ | .casDec f old _ => old.From cfg f.storage ∧ old.ref.addr = f.current
  | .rcuClosure f cur _ => cur.From cfg f.storage
  | .rcuSwapped f cur _ g => cur.From cfg f.storage ∧ g.storage = f.storage ∧
      g.call = f.call ∧ g.current = cur.ref.addr
  | .rcuInner f cur _ _ r w => cur.From cfg f.storage ∧ cur.ref.addr = r.addr ∧
      r.kind = cfg.kind f.storage ∧ w.isSome
  | .rcuDone f _ _ r w => r.kind = cfg.kind f.storage ∧ w.isSome
  | .rcuAgain f prev => prev.From cfg f.storage
  | _ => True

end ArcSwap
