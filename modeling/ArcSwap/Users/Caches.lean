import ArcSwap.Foundations.Family
import ArcSwap.Machine.Runs
import Mathlib.Data.Fintype.Basic

/-!
# Caches

A `Cache` is user code of its storage: it holds a value next to a handle to the storage, and `load`
compares the pointer in the storage with the pointer of the value. Only when they differ it calls
`load_full`, and what it has held before is dropped.

The caches stand on top of the machine. Their state is a state of the machine, the caches that there
are, and for each thread the methods of caches that it is in. Each step is a step of the machine, or
it leaves the machine alone.
-/

namespace ArcSwap

/-- `Cache`: the storage behind `arc_swap`, and `cached`. The object of the value is auxiliary. -/
structure Cache where
  arcSwap : StorageId
  cached : Ref
  object : ℕ
  deriving DecidableEq, Repr

/-- How far a method of a cache has come. -/
inductive CacheCall
  /-- `Cache::new`: `load_full` -/
  | new (x : StorageId)
  /-- `Cache::revalidate`: `load_full`. Auxiliary are the storage and the last position in its log
  when the pointers were compared. -/
  | reload (x : StorageId) (since : ℕ)
  /-- the drop of the old value in the assignment to `cached` -/
  | release (old : Ref)
  /-- the old value is being dropped -/
  | released
  deriving DecidableEq, Repr

/-- A method that runs on a cache, with the callers below it. -/
structure CacheFrame (C : Type*) where
  cache : C
  call : CacheCall
  conts : List Cont
  deriving DecidableEq

/-- The machine and the caches. -/
structure Clients (T C : Type*) where
  base : State T
  cache : C → Option Cache
  frames : T → List (CacheFrame C)

/-- What a thread does: a step of the machine, or a step of a method of a cache. -/
inductive CacheAct (C : Type*)
  | base (c : Choice)
  /-- `Cache::new` -/
  | new (c : C) (x : StorageId)
  /-- `Cache::load` -/
  | load (c : C)
  /-- `Cache::clone` -/
  | clone (c c' : C)
  /-- the drop of a cache -/
  | drop (c : C)
  /-- the drop of the old value after a reload -/
  | release

variable {T C : Type*}

/-- There is no cache yet. -/
def Clients.init : Clients T C := ⟨.init, fun _ => none, fun _ => []⟩

/-! ## What the caches own -/

/-- The value of a cache. -/
def cacheRefs (k : Option Cache) : Multiset Ref := k.elim 0 fun k => {k.cached}

/-- A value that is about to be dropped. -/
def CacheCall.refs : CacheCall → Multiset Ref
  | .release old => {old}
  | _ => 0

/-- The storage that `Cache::new` has been given a handle to. -/
def CacheCall.handle? : CacheCall → Option StorageId
  | .new x => some x
  | _ => none

/-- The values that the methods in a thread are about to drop. -/
def frameRefs (fs : List (CacheFrame C)) : Multiset Ref := (fs.map fun f => f.call.refs).sum

namespace Clients

/-- The values that the caches own; null has no count. -/
def held [Fintype T] [Fintype C] (s : Clients T C) : Multiset Ref :=
  (Family.total cacheRefs s.cache + Family.total frameRefs s.frames).filter Ref.Counted

/-- A method of a cache is about to drop the old value, and user code waits for it. -/
def Inside (s : Clients T C) (t : T) : Prop :=
  (s.base.thread t).active.IsUser ∧
    (s.base.thread t).conts ∈ (s.frames t).head?.map CacheFrame.conts

instance (s : Clients T C) (t : T) : Decidable (s.Inside t) := inferInstanceAs (Decidable (_ ∧ _))

/-- User code may call a method of a cache. -/
def Free (s : Clients T C) (t : T) : Prop :=
  (s.base.thread t).active.IsUser ∧ ¬ s.Inside t

instance (s : Clients T C) (t : T) : Decidable (s.Free t) := inferInstanceAs (Decidable (_ ∧ _))

/-- A method runs on the cache: it has the only reference to it. -/
def Busy (s : Clients T C) (c : C) : Prop := ∃ t, c ∈ (s.frames t).map CacheFrame.cache

instance [Fintype T] [DecidableEq C] (s : Clients T C) (c : C) : Decidable (s.Busy c) :=
  inferInstanceAs (Decidable (∃ _, _))

/-- The name is free for another cache. -/
def Vacant (s : Clients T C) (c : C) : Prop := s.cache c = none ∧ ¬ s.Busy c

instance [Fintype T] [DecidableEq C] (s : Clients T C) (c : C) : Decidable (s.Vacant c) :=
  inferInstanceAs (Decidable (_ ∧ _))

/-- User code leaves to the caches what is theirs: their values, and the storages that they have
handles to. -/
structure Kept [Fintype T] [Fintype C] (s : Clients T C) : Prop where
  values : s.held ≤ s.base.owned
  storages : ∀ c, ∀ k ∈ s.cache c, k.arcSwap ∈ s.base.mem.live
  handles : ∀ t, ∀ f ∈ s.frames t, ∀ x ∈ f.call.handle?, x ∈ s.base.mem.live

instance [Fintype T] [Fintype C] (s : Clients T C) : Decidable s.Kept :=
  decidable_of_iff (s.held ≤ s.base.owned ∧ (∀ c, ∀ k ∈ s.cache c, k.arcSwap ∈ s.base.mem.live) ∧
      ∀ t, ∀ f ∈ s.frames t, ∀ x ∈ f.call.handle?, x ∈ s.base.mem.live)
    ⟨fun h => ⟨h.1, h.2.1, h.2.2⟩, fun h => ⟨h.values, h.storages, h.handles⟩⟩

/-! ## The steps -/

/-- The value that the innermost method of a cache in the thread is being given. -/
def given? (s : Clients T C) (t : T) : Option Ret :=
  match (s.base.thread t).active, (s.base.thread t).conts, s.frames t with
  | .ret _ v, .user _ _ :: ks, f :: _ => if f.conts = ks then some v else none
  | _, _, _ => none

variable [DecidableEq T] [DecidableEq C]

/-- A method goes on when the machine has come to the state `b`. -/
def become (s : Clients T C) (t : T) (b : State T) (fs : List (CacheFrame C)) : Clients T C :=
  ⟨b, s.cache, Function.update s.frames t fs⟩

/-- A method has made `k` of its cache. -/
def assign (s : Clients T C) (c : C) (k : Cache) : Clients T C :=
  { s with cache := Function.update s.cache c (some k) }

/-- The machine has taken a step to `b`: if it has returned to a method of a cache, this goes on. -/
def resume (s : Clients T C) (t : T) (b : State T) : Clients T C :=
  match s.given? t, s.frames t with
  | some (.value r _), ⟨c, .new x, _⟩ :: fs =>
    (s.become t b fs).assign c ⟨x, r, b.mem.object r.addr⟩
  | some (.value r _), ⟨c, .reload _ _, ks⟩ :: fs =>
    match s.cache c with
    | none => { s with base := b }
    | some k =>
      (s.become t b (⟨c, .release k.cached, ks⟩ :: fs)).assign c
        { k with cached := r, object := b.mem.object r.addr }
  | some _, ⟨_, .released, _⟩ :: fs => s.become t b fs
  | _, _ => { s with base := b }

/-- `Clone` of a value: nothing happens to null. -/
def cloneRef [Fintype T] (cfg : Config) (s : Clients T C) (t : T) (r : Ref) : Option (State T) :=
  if r.Counted then s.base.step cfg t (.op (.clone r)) else some s.base

/-- The drop of a value: nothing happens to null. -/
def dropRef [Fintype T] (cfg : Config) (s : Clients T C) (t : T) (r : Ref) : Option (State T) :=
  if r.Counted then s.base.step cfg t (.op (.drop r)) else some s.base

/-- A step of the thread `t`. -/
def step [Fintype T] [Fintype C] (cfg : Config) (s : Clients T C) (t : T) :
    CacheAct C → Option (Clients T C)
  | .base a =>
    if s.Inside t then none
    else (s.base.step cfg t a).bind fun b =>
      if (s.resume t b).Kept then some (s.resume t b) else none
  | .new c x =>
    if s.Free t ∧ s.Vacant c then
      (s.base.step cfg t (.op (.loadFull x))).map fun b =>
        s.become t b (⟨c, .new x, (s.base.thread t).conts⟩ :: s.frames t)
    else none
  | .load c =>
    match s.cache c with
    | none => none
    | some k =>
      if s.Free t ∧ ¬ s.Busy c then
        if k.cached.addr = s.base.mem.ptr k.arcSwap then some s
        else (s.base.step cfg t (.op (.loadFull k.arcSwap))).map fun b =>
          s.become t b (⟨c, .reload k.arcSwap (s.base.mem.now k.arcSwap),
            (s.base.thread t).conts⟩ :: s.frames t)
      else none
  | .clone c c' =>
    match s.cache c with
    | none => none
    | some k =>
      if s.Free t ∧ ¬ s.Busy c ∧ s.Vacant c' then
        (s.cloneRef cfg t k.cached).map fun b => { s with base := b }.assign c' k
      else none
  | .drop c =>
    match s.cache c with
    | none => none
    | some k =>
      if s.Free t ∧ ¬ s.Busy c then
        (s.dropRef cfg t k.cached).map fun b =>
          { s with base := b, cache := Function.update s.cache c none }
      else none
  | .release =>
    match s.frames t with
    | ⟨c, .release old, ks⟩ :: fs =>
      if s.Inside t then
        (s.dropRef cfg t old).map fun b =>
          s.become t b (if old.Counted then ⟨c, .released, ks⟩ :: fs else fs)
      else none
    | _ => none

/-! ## What a step can do -/

/-- The outcomes of a step of the thread `t`. -/
inductive CacheMove [Fintype T] [Fintype C] (cfg : Config) (s : Clients T C) (t : T) :
    CacheAct C → Clients T C → Prop
  | base {a b} (hi : ¬ s.Inside t) (hb : s.base.step cfg t a = some b) (hk : (s.resume t b).Kept) :
    CacheMove cfg s t (.base a) (s.resume t b)
  | new {c x b} (hf : s.Free t) (hc : s.Vacant c)
      (hb : s.base.step cfg t (.op (.loadFull x)) = some b) :
    CacheMove cfg s t (.new c x) (s.become t b (⟨c, .new x, (s.base.thread t).conts⟩ :: s.frames t))
  | hit {c k} (hk : s.cache c = some k) (hf : s.Free t) (hc : ¬ s.Busy c)
      (hp : k.cached.addr = s.base.mem.ptr k.arcSwap) : CacheMove cfg s t (.load c) s
  | miss {c k b} (hk : s.cache c = some k) (hf : s.Free t) (hc : ¬ s.Busy c)
      (hp : k.cached.addr ≠ s.base.mem.ptr k.arcSwap)
      (hb : s.base.step cfg t (.op (.loadFull k.arcSwap)) = some b) :
    CacheMove cfg s t (.load c) (s.become t b (⟨c, .reload k.arcSwap (s.base.mem.now k.arcSwap),
      (s.base.thread t).conts⟩ :: s.frames t))
  | clone {c c' k b} (hk : s.cache c = some k) (hf : s.Free t) (hc' : s.Vacant c')
      (hb : s.cloneRef cfg t k.cached = some b) :
    CacheMove cfg s t (.clone c c') (assign { s with base := b } c' k)
  | drop {c k b} (hk : s.cache c = some k) (hf : s.Free t) (hc : ¬ s.Busy c)
      (hb : s.dropRef cfg t k.cached = some b) :
    CacheMove cfg s t (.drop c) { s with base := b, cache := Function.update s.cache c none }
  | release {c old ks fs b} (hs : s.frames t = ⟨c, .release old, ks⟩ :: fs) (hi : s.Inside t)
      (hb : s.dropRef cfg t old = some b) :
    CacheMove cfg s t .release
      (s.become t b (if old.Counted then ⟨c, .released, ks⟩ :: fs else fs))

theorem step_move [Fintype T] [Fintype C] {cfg : Config} {s s' : Clients T C} {t : T}
    {a : CacheAct C} (h : s.step cfg t a = some s') : CacheMove cfg s t a s' := by
  cases a <;> simp only [step] at h
  case base a =>
    split at h
    · cases h
    · obtain ⟨b, hb, h⟩ := Option.bind_eq_some_iff.mp h
      split at h
      · obtain rfl := Option.some.inj h
        exact .base ‹_› hb ‹_›
      · cases h
  case new =>
    split at h
    · rename_i hc
      obtain ⟨b, hb, rfl⟩ := Option.map_eq_some_iff.mp h
      exact .new hc.1 hc.2 hb
    · cases h
  case load =>
    split at h
    · cases h
    · split at h
      · rename_i hc
        split at h
        · obtain rfl := Option.some.inj h
          exact .hit ‹_› hc.1 hc.2 ‹_›
        · obtain ⟨b, hb, rfl⟩ := Option.map_eq_some_iff.mp h
          exact .miss ‹_› hc.1 hc.2 ‹_› hb
      · cases h
  case clone =>
    split at h
    · cases h
    · split at h
      · rename_i hc
        obtain ⟨b, hb, rfl⟩ := Option.map_eq_some_iff.mp h
        exact .clone ‹_› hc.1 hc.2.2 hb
      · cases h
  case drop =>
    split at h
    · cases h
    · split at h
      · rename_i hc
        obtain ⟨b, hb, rfl⟩ := Option.map_eq_some_iff.mp h
        exact .drop ‹_› hc.1 hc.2 hb
      · cases h
  case release =>
    split at h
    · split at h
      · obtain ⟨b, hb, rfl⟩ := Option.map_eq_some_iff.mp h
        exact .release ‹_› ‹_› hb
      · cases h
    · cases h

/-! ## Runs -/

section Run

variable [Fintype T] [Fintype C] {cfg : Config} {s s' : Clients T C} {t : T}
  {P : State T → T → Prop}

/-- A run in which the steps of the machine meet a condition. -/
abbrev Run (cfg : Config) (P : State T → T → Prop) : Clients T C → Clients T C → Prop :=
  Guarded.Run (fun s a => s.step cfg a.1 a.2) (fun s (a : T × CacheAct C) => P s.base a.1)

/-- The states of such runs. -/
def Reachable (cfg : Config) (P : State T → T → Prop) : Clients T C → Prop :=
  Run cfg P init

omit [Fintype T] [Fintype C] in
theorem resume_base (s : Clients T C) (t : T) (b : State T) : (s.resume t b).base = b := by
  unfold resume
  split
  · rfl
  · split <;> rfl
  · rfl
  · rfl

omit [DecidableEq C] [Fintype C] in
theorem cloneRef_base {r : Ref} {b : State T} (h : s.cloneRef cfg t r = some b) :
    b = s.base ∨ s.base.step cfg t (.op (.clone r)) = some b := by
  unfold cloneRef at h
  split at h
  · exact .inr h
  · exact .inl (Option.some.inj h).symm

omit [DecidableEq C] [Fintype C] in
theorem dropRef_base {r : Ref} {b : State T} (h : s.dropRef cfg t r = some b) :
    b = s.base ∨ s.base.step cfg t (.op (.drop r)) = some b := by
  unfold dropRef at h
  split at h
  · exact .inr h
  · exact .inl (Option.some.inj h).symm

/-- A step leaves the machine alone, or it is a step of the machine. -/
theorem CacheMove.below {a : CacheAct C} (h : CacheMove cfg s t a s') :
    s'.base = s.base ∨ ∃ c, s.base.step cfg t c = some s'.base := by
  cases h with
  | base hi hb => exact .inr ⟨_, hb.trans (congrArg some (resume_base s t _).symm)⟩
  | new hf hc hb => exact .inr ⟨_, hb⟩
  | hit => exact .inl rfl
  | miss hk hf hc hp hb => exact .inr ⟨_, hb⟩
  | clone hk hf hc' hb => exact (cloneRef_base hb).imp_right fun h => ⟨_, h⟩
  | drop hk hf hc hb => exact (dropRef_base hb).imp_right fun h => ⟨_, h⟩
  | release hs hi hb => exact (dropRef_base hb).imp_right fun h => ⟨_, h⟩

/-- **What is below the caches is a run of the machine.** -/
theorem Run.below (h : Run cfg P s s') : State.Run cfg P s.base s'.base := by
  refine Guarded.Run.project Clients.base h fun u u' a hp hs => ?_
  rcases (step_move hs).below with he | ⟨c, hc⟩
  · exact .inl he
  · exact .inr ⟨(a.1, c), hp, hc⟩

theorem Reachable.below (h : s.Reachable cfg P) : s.base.Reachable cfg P := Run.below h

end Run

end Clients

end ArcSwap
