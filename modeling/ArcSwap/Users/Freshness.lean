import ArcSwap.Users.Caches
import ArcSwap.Values.Loads
import Mathlib.Tactic.Abel

/-!
# Caches are fresh

A cache owns the value that it holds, so that its address keeps its meaning: when the pointer in the
storage is equal to the cached one, the storage holds the cached object.
-/

namespace ArcSwap

variable {T C : Type*} {cfg : Config}

/-! ## Methods and the calls they wait for -/

/-- What a method waits for. -/
def CacheCall.Waits : CacheCall → Contract → Prop
  | .new x, c => ∃ i, c = .value x i
  | .reload x since, c => c = .value x since
  | .release _, _ => False
  | .released, c => c = .unit

/-- The method waits for a call, below the callers `ks`, or it goes on next. -/
def CacheFrame.Below (f : CacheFrame C) (ks : List Cont) : Prop :=
  (∃ l u c, f.call.Waits c ∧ ks = l ++ .user u c :: f.conts) ∨
    ∃ old, f.call = .release old ∧ ks = f.conts

/-- The methods of a thread are nested. -/
def Nested : List Cont → List (CacheFrame C) → Prop
  | _, [] => True
  | ks, f :: fs => f.Below ks ∧ Nested f.conts fs

theorem Nested.mono {ks ks' : List Cont} {fs : List (CacheFrame C)} (h : Nested ks fs)
    (hf : ∀ f ∈ fs.head?, f.Below ks') : Nested ks' fs := by
  cases fs with
  | nil => trivial
  | cons f fs => exact ⟨hf f rfl, h.2⟩

/-! ## Operations that the methods use -/

section Base

variable [Fintype T] [DecidableEq T] {s b : State T} {t t' : T} {r : Ref} {x : StorageId}

theorem Active.IsUser.eq {a : Active} (h : a.IsUser) : ∃ u, a = .user u := by
  cases a with
  | user u => exact ⟨u, rfl⟩
  | _ => exact h.elim

theorem State.step_other {a : Choice} (hb : s.step cfg t a = some b) (ht : t' ≠ t) :
    b.thread t' = s.thread t' := by
  obtain ⟨m', th', o', g', hm, rfl⟩ := State.step_move hb
  simp [State.moved, ht]

/-- A step of the library leaves the storages alone, and it takes nothing from user code. -/
theorem State.step_library {g : Bool} (hb : s.step cfg t (.go g) = some b) :
    b.mem.live = s.mem.live ∧ s.owned ≤ b.owned := by
  obtain ⟨m', th', o', g', hm, rfl⟩ := State.step_move hb
  cases hm with
  | code h => exact ⟨h.live, le_rfl⟩
  | resume _ _ h => exact ⟨congrArg Mem.live h.mem_eq, le_rfl⟩
  | @receive c v => cases v <;> first | exact ⟨rfl, le_rfl⟩ | exact ⟨rfl, Multiset.le_cons_self _ _⟩
  | @user u _ _ _ _ ha => cases u <;> simp [State.step, ha, State.userReturn] at hb

/-- The call of `load_full`. -/
theorem State.step_loadFull (hu : (s.thread t).active.IsUser)
    (hb : s.step cfg t (.op (.loadFull x)) = some b) : x ∈ s.mem.live ∧ b.mem = s.mem ∧
      b.owned = s.owned ∧ ∃ l u, (b.thread t).conts =
        l ++ .user u (.value x (s.mem.now x)) :: (s.thread t).conts := by
  obtain ⟨u, hu⟩ := hu.eq
  simp only [State.step, hu, State.userOp, Option.ite_none_right_eq_some, Option.some.injEq] at hb
  obtain ⟨hx, rfl⟩ := hb
  exact ⟨hx, rfl, rfl, [.full x (s.mem.now x)], u, by simp [State.call, State.set]⟩

/-- `Clone` of a value. -/
theorem State.step_clone (hu : (s.thread t).active.IsUser)
    (hb : s.step cfg t (.op (.clone r)) = some b) :
    b = { s with mem := s.mem.inc r, owned := r ::ₘ s.owned } := by
  obtain ⟨u, hu⟩ := hu.eq
  simp only [State.step, hu, State.userOp, Option.ite_none_right_eq_some, Option.some.injEq] at hb
  exact hb.2.symm

/-- The drop of a value. -/
theorem State.step_drop (hu : (s.thread t).active.IsUser)
    (hb : s.step cfg t (.op (.drop r)) = some b) : r ∈ s.owned ∧ b.mem = s.mem ∧
      b.owned = s.owned.erase r ∧
        ∃ u, (b.thread t).conts = .user u .unit :: (s.thread t).conts := by
  obtain ⟨u, hu⟩ := hu.eq
  simp only [State.step, hu, State.userOp, Option.ite_none_right_eq_some, Option.some.injEq] at hb
  obtain ⟨hr, rfl⟩ := hb
  exact ⟨hr, rfl, rfl, u, by simp [State.call, State.set]⟩

end Base

namespace Clients

variable {s s' : Clients T C} {t : T}

/-- A call of user code is below whatever it has called. -/
theorem Nested.call {ks l : List Cont} {f : CacheFrame C} {fs : List (CacheFrame C)} {u : UserKind}
    {c : Contract} (h : Nested ks fs) (hf : f.conts = ks) (hw : f.call.Waits c) :
    Nested (l ++ .user u c :: ks) (f :: fs) :=
  ⟨.inl ⟨l, u, c, hw, by rw [hf]⟩, hf ▸ h⟩

/-- What is known of the caches and of their methods. -/
structure Sound [Fintype T] [Fintype C] [DecidableEq C] (s : Clients T C) : Prop where
  kept : s.Kept
  /-- At most one method runs on a cache. -/
  single : (Family.total (fun fs => (fs.map CacheFrame.cache : Multiset C)) s.frames).Nodup
  nested : ∀ t, Nested (s.base.thread t).conts (s.frames t)
  inside : ∀ t, ∀ f ∈ (s.frames t).head?, ∀ old, f.call = .release old →
    (s.base.thread t).active.IsUser
  /-- A cache that is being made is not there yet. -/
  made : ∀ t, ∀ f ∈ s.frames t, ∀ x, f.call = .new x → s.cache f.cache = none
  /-- A cache that is being reloaded has a handle to the storage. -/
  reloads : ∀ t, ∀ f ∈ s.frames t, ∀ x i, f.call = .reload x i →
    ∃ k, s.cache f.cache = some k ∧ k.arcSwap = x
  /-- The cached value refers to the object that it has referred to from the beginning. -/
  objects : ∀ c, ∀ k ∈ s.cache c, s.base.mem.object k.cached.addr = k.object

theorem given?_eq_some {v : Ret} : s.given? t = some v ↔ ∃ c u c' f fs,
    (s.base.thread t).active = .ret c v ∧ s.frames t = f :: fs ∧
      (s.base.thread t).conts = .user u c' :: f.conts := by
  unfold given?
  split
  · rename_i c v' u c' ks f fs ha hk hf
    simp only [ha, hk, hf, Option.ite_none_right_eq_some, Option.some.injEq]
    constructor
    · rintro ⟨rfl, rfl⟩
      exact ⟨c, u, c', f, fs, rfl, rfl, rfl⟩
    · rintro ⟨c₁, u₁, c₂, f₁, fs₁, ha', hf', hk'⟩
      obtain ⟨rfl, rfl⟩ := List.cons.inj hf'
      exact ⟨(List.cons.inj hk').2.symm, (Active.ret.inj ha').2⟩
  · rename_i hne
    simp only [reduceCtorEq, false_iff]
    rintro ⟨c, u, c', f, fs, ha, hf, hk⟩
    exact hne c v u c' f.conts f fs ha hk hf

/-- Where the methods of the thread go on when the machine has taken a step of it to `b`. -/
inductive Resumes [DecidableEq T] [DecidableEq C] (s : Clients T C) (t : T) (b : State T) :
    Clients T C → Prop
  | pass (hg : s.given? t = none) (hn : Nested (b.thread t).conts (s.frames t))
      (hr : ∀ f ∈ (s.frames t).head?, ∀ old, f.call ≠ .release old) :
    Resumes s t b { s with base := b }
  | new {c x ks fs r i u} (hf : s.frames t = ⟨c, .new x, ks⟩ :: fs)
      (hg : s.given? t = some (.value r none))
      (ha : (s.base.thread t).active = .ret (.value x i) (.value r none))
      (hu : (b.thread t).active = .user u) (hk : (b.thread t).conts = ks)
      (hm : b.mem = s.base.mem) (ho : b.owned = r ::ₘ s.base.owned) :
    Resumes s t b ((s.become t b fs).assign c ⟨x, r, b.mem.object r.addr⟩)
  | reload {c x ks fs r i u k} (hf : s.frames t = ⟨c, .reload x i, ks⟩ :: fs)
      (hg : s.given? t = some (.value r none)) (hc : s.cache c = some k) (hx : k.arcSwap = x)
      (ha : (s.base.thread t).active = .ret (.value x i) (.value r none))
      (hu : (b.thread t).active = .user u) (hk : (b.thread t).conts = ks)
      (hm : b.mem = s.base.mem) (ho : b.owned = r ::ₘ s.base.owned) :
    Resumes s t b ((s.become t b (⟨c, .release k.cached, ks⟩ :: fs)).assign c
      { k with cached := r, object := b.mem.object r.addr })
  | released {c ks fs u} (hf : s.frames t = ⟨c, .released, ks⟩ :: fs)
      (hu : (b.thread t).active = .user u) (hk : (b.thread t).conts = ks)
      (hm : b.mem = s.base.mem) (ho : b.owned = s.base.owned) :
    Resumes s t b (s.become t b fs)

section Step

variable [Fintype T] [Fintype C] [DecidableEq T] [DecidableEq C] {b : State T} {a : Choice}

omit [DecidableEq T] in
/-- User code waits for a method that is about to drop the old value. -/
theorem Sound.releasing {f : CacheFrame C} {fs : List (CacheFrame C)} {old : Ref} (h : s.Sound)
    (hf : s.frames t = f :: fs) (hc : f.call = .release old) : s.Inside t := by
  refine ⟨h.inside t f (by rw [hf]; rfl) old hc, ?_⟩
  have hbelow := h.nested t
  rw [hf] at hbelow ⊢
  rcases hbelow.1 with ⟨l, u, c, hw, -⟩ | ⟨-, -, hk⟩
  · rw [hc] at hw
    exact hw.elim
  · rw [hk]
    rfl

/-- A step of the machine returns to the innermost method, or this goes on waiting. -/
theorem Sound.below_step (h : s.Sound) (hl : s.base.Linear cfg) (hi : ¬ s.Inside t)
    (hb : s.base.step cfg t a = some b) {f : CacheFrame C} {fs : List (CacheFrame C)}
    (hf : s.frames t = f :: fs) :
    (s.given? t = none ∧ f.Below (b.thread t).conts ∧ ∀ old, f.call ≠ .release old) ∨
    ∃ u c v, s.given? t = some v ∧ (s.base.thread t).active = .ret c v ∧ f.call.Waits c ∧
      (b.thread t).active = .user u ∧ (b.thread t).conts = f.conts ∧ b.mem = s.base.mem ∧
      b.owned = (s.base.receive v).owned := by
  have hbelow := h.nested t
  rw [hf] at hbelow
  rcases hbelow.1 with ⟨l, u, c, hw, hk⟩ | ⟨old, hc, hk⟩
  · cases hg : s.given? t with
    | none =>
      obtain ⟨m', th', o', g', hm, rfl⟩ := State.step_move hb
      rcases hm.user_stays hk with ⟨l', hl'⟩ | ⟨c', v, ha, hk', -⟩
      · refine .inl ⟨rfl, .inl ⟨l', u, c, hw, by simpa [State.moved] using hl'⟩, fun old ho => ?_⟩
        rw [ho] at hw
        exact hw
      · have := given?_eq_some.mpr ⟨c', u, c, f, fs, ha, hf, hk'⟩
        rw [hg] at this
        cases this
    | some v =>
      obtain ⟨c', u', c'', f', fs', ha, hf', hk'⟩ := given?_eq_some.mp hg
      obtain ⟨rfl, rfl⟩ := List.cons.inj (hf.symm.trans hf')
      have hstep : a = .go true ∨ a = .go false := by
        cases a with
        | go b => cases b <;> simp
        | _ => simp [State.step, ha] at hb
      have hb' : b = (s.base.receive v).set t s.base.mem
          { s.base.thread t with active := .user u', conts := f.conts } := by
        rcases hstep with rfl | rfl <;>
          simpa [State.step, ha, State.return, hk', eq_comm] using hb
      obtain rfl : l = [] := by
        have := congrArg List.length (hk.symm.trans hk')
        simp at this
        exact this
      obtain ⟨rfl, rfl⟩ : u' = u ∧ c'' = c := by
        rw [hk'] at hk
        simpa using hk
      have hcc : c' = c'' := by
        have := (hl.sound.typed t).linked
        rw [ha, hk'] at this
        exact this.1
      subst hcc hb'
      exact .inr ⟨u', c', v, rfl, ha, hw, by simp [State.set], by simp [State.set], rfl, rfl⟩
  · exact absurd (h.releasing hf hc) hi

theorem Sound.resumes (h : s.Sound) (hl : s.base.Linear cfg) (hi : ¬ s.Inside t)
    (hb : s.base.step cfg t a = some b) : Resumes s t b (s.resume t b) := by
  have hn := h.nested t
  cases hf : s.frames t with
  | nil =>
    have : s.resume t b = { s with base := b } := by
      unfold resume
      split <;> simp_all
    have hg : s.given? t = none := by
      by_contra hne
      obtain ⟨v, hv⟩ := Option.ne_none_iff_exists'.mp hne
      obtain ⟨-, -, -, f, fs, -, hf', -⟩ := given?_eq_some.mp hv
      rw [hf] at hf'
      cases hf'
    rw [this]
    exact .pass hg (by rw [hf]; trivial) (by simp [hf])
  | cons f fs =>
    rw [hf] at hn
    rcases h.below_step hl hi hb hf with ⟨hg, hbelow, hc⟩ | ⟨u, c, v, hg, ha, hw, hu, hk, hm, ho⟩
    · have : s.resume t b = { s with base := b } := by
        unfold resume
        split <;> simp_all
      rw [this]
      exact .pass hg (by rw [hf]; exact ⟨hbelow, hn.2⟩) (by simpa [hf] using hc)
    · have hmeets : c.Meets cfg v := by
        have := (hl.sound.typed t).active
        rwa [ha] at this
      obtain ⟨q, call, ks⟩ := f
      cases call with
      | new x =>
        obtain ⟨i, rfl⟩ := hw
        obtain ⟨r, rfl, -⟩ := hmeets
        simp only [resume, hg, hf]
        exact .new hf hg ha hu hk hm ho
      | reload x i =>
        obtain rfl := hw
        obtain ⟨r, rfl, -⟩ := hmeets
        obtain ⟨k, hc, hx⟩ := h.reloads t ⟨q, .reload x i, ks⟩ (by simp [hf]) x i rfl
        simp only [resume, hg, hf, hc]
        exact .reload hf hg hc hx ha hu hk hm ho
      | release old => exact hw.elim
      | released =>
        obtain rfl := hw
        obtain rfl := hmeets
        simp only [resume, hg, hf]
        exact .released hf hu hk hm ho

/-! ## What the caches hold -/

omit [DecidableEq C] in
theorem held_eq (s : Clients T C) (t : T) :
    s.held = (Family.total cacheRefs s.cache).filter Ref.Counted +
    ((frameRefs (s.frames t)).filter Ref.Counted +
      (Family.rest frameRefs s.frames t).filter Ref.Counted) := by
  rw [held, Family.total_eq frameRefs _ t, Multiset.filter_add, Multiset.filter_add]

omit [DecidableEq C] in
theorem held_become (s : Clients T C) (t : T) (b : State T) (fs : List (CacheFrame C)) :
    (s.become t b fs).held = (Family.total cacheRefs s.cache).filter Ref.Counted +
      ((frameRefs fs).filter Ref.Counted +
        (Family.rest frameRefs s.frames t).filter Ref.Counted) := by
  rw [held, become, Family.total_update, Multiset.filter_add, Multiset.filter_add]

omit [DecidableEq T] in
theorem held_assign (s : Clients T C) (c : C) (k : Cache) :
    (s.assign c k).held + (cacheRefs (s.cache c)).filter Ref.Counted =
      s.held + ({k.cached} : Multiset Ref).filter Ref.Counted := by
  have hk : cacheRefs (some k) = {k.cached} := rfl
  rw [held, assign, Family.total_update, held, Family.total_eq cacheRefs s.cache c, hk]
  simp only [Multiset.filter_add]
  abel

omit [Fintype C] [DecidableEq C] in
/-- `Clone` leaves everything as it is, and the machine owns one value more. -/
theorem cloneRef_eq {r : Ref} (hu : s.Free t) (hb : s.cloneRef cfg t r = some b) :
    b.thread = s.base.thread ∧ b.mem.live = s.base.mem.live ∧ b.mem.object = s.base.mem.object ∧
      b.owned = ({r} : Multiset Ref).filter Ref.Counted + s.base.owned := by
  unfold cloneRef at hb
  split at hb
  · rename_i hr
    rw [State.step_clone hu.1 hb, Multiset.filter_singleton, if_pos hr]
    exact ⟨rfl, rfl, rfl, (Multiset.singleton_add r _).symm⟩
  · rename_i hr
    rw [← Option.some.inj hb, Multiset.filter_singleton, if_neg hr]
    exact ⟨rfl, rfl, rfl, (zero_add _).symm⟩

omit [Fintype C] [DecidableEq C] in
/-- A drop leaves the memory as it is, and the machine owns one value less. -/
theorem dropRef_eq {r : Ref} (hu : (s.base.thread t).active.IsUser)
    (hb : s.dropRef cfg t r = some b) :
    b.mem = s.base.mem ∧ b.owned + ({r} : Multiset Ref).filter Ref.Counted = s.base.owned ∧
      (∀ t' ≠ t, b.thread t' = s.base.thread t') ∧
      ((r.Counted ∧ ∃ u, (b.thread t).conts = .user u .unit :: (s.base.thread t).conts) ∨
        (¬ r.Counted ∧ b = s.base)) := by
  unfold dropRef at hb
  split at hb
  · rename_i hr
    obtain ⟨hmem, hm, ho, hk⟩ := State.step_drop hu hb
    refine ⟨hm, ?_, fun t' ht => State.step_other hb ht, .inl ⟨hr, hk⟩⟩
    rw [ho, Multiset.filter_singleton, if_pos hr, add_comm, Multiset.singleton_add,
      Multiset.cons_erase hmem]
  · rename_i hr
    obtain rfl := Option.some.inj hb
    exact ⟨rfl, by rw [Multiset.filter_singleton, if_neg hr]; exact add_zero _, fun _ _ => rfl,
      .inr ⟨hr, rfl⟩⟩

/-! ## One step -/

/-- The caches that the methods of a thread run on. -/
def names (fs : List (CacheFrame C)) : Multiset C := fs.map CacheFrame.cache

omit [Fintype C] [DecidableEq T] [DecidableEq C] in
theorem names_cons (f : CacheFrame C) (fs : List (CacheFrame C)) :
    names (f :: fs) = f.cache ::ₘ names fs := rfl

theorem Sound.names_nodup (h : s.Sound) :
    (names (s.frames t) + Family.rest names s.frames t).Nodup :=
  Family.total_eq names s.frames t ▸ h.single

/-- The methods that run on other caches than the first one of the thread. -/
theorem Sound.other_cache (h : s.Sound) {f f' : CacheFrame C} {fs : List (CacheFrame C)} {t' : T}
    (hf : s.frames t = f :: fs) (ht : t' ≠ t) (hf' : f' ∈ s.frames t') : f'.cache ≠ f.cache := by
  have hn := h.names_nodup (t := t)
  rw [hf, names_cons, Multiset.cons_add, Multiset.nodup_cons] at hn
  intro he
  refine hn.1 (Multiset.mem_add.mpr (.inr (Family.mem_rest.mpr ⟨t', ht, ?_⟩)))
  exact he ▸ Multiset.mem_coe.mpr (List.mem_map_of_mem hf')

theorem Sound.next_cache (h : s.Sound) {f f' : CacheFrame C} {fs : List (CacheFrame C)}
    (hf : s.frames t = f :: fs) (hf' : f' ∈ fs) : f'.cache ≠ f.cache := by
  have hn := h.names_nodup (t := t)
  rw [hf, names_cons, Multiset.cons_add, Multiset.nodup_cons] at hn
  intro he
  refine hn.1 (Multiset.mem_add.mpr (.inl ?_))
  exact he ▸ Multiset.mem_coe.mpr (List.mem_map_of_mem hf')

/-- What is left to check when a thread has taken a step and the other threads have not. -/
theorem Sound.move {l : List (CacheFrame C)} (h : s.Sound)
    (hf : s'.frames = Function.update s.frames t l) (hk : s'.Kept)
    (hn : (names l + Family.rest names s.frames t).Nodup)
    (ht : ∀ t' ≠ t, s'.base.thread t' = s.base.thread t')
    (hc : ∀ t' ≠ t, ∀ f ∈ s.frames t', s'.cache f.cache = s.cache f.cache)
    (hnest : Nested (s'.base.thread t).conts l)
    (hin : ∀ f ∈ l.head?, ∀ old, f.call = .release old → (s'.base.thread t).active.IsUser)
    (hmade : ∀ f ∈ l, ∀ x, f.call = .new x → s'.cache f.cache = none)
    (hre : ∀ f ∈ l, ∀ x i, f.call = .reload x i → ∃ k, s'.cache f.cache = some k ∧ k.arcSwap = x)
    (ho : ∀ c, ∀ k ∈ s'.cache c, s'.base.mem.object k.cached.addr = k.object) : s'.Sound := by
  have hself : s'.frames t = l := by rw [hf, Function.update_self]
  have hother : ∀ t' ≠ t, s'.frames t' = s.frames t' := fun t' hne => by
    rw [hf, Function.update_of_ne hne]
  refine ⟨hk, ?_, fun t' => ?_, fun t' => ?_, fun t' => ?_, fun t' => ?_, ho⟩
  · show (Family.total names s'.frames).Nodup
    rwa [hf, Family.total_update]
  · rcases eq_or_ne t' t with rfl | hne
    · rwa [hself]
    · rw [hother t' hne, ht t' hne]
      exact h.nested t'
  · rcases eq_or_ne t' t with rfl | hne
    · rwa [hself]
    · rw [hother t' hne, ht t' hne]
      exact h.inside t'
  · rcases eq_or_ne t' t with rfl | hne
    · rwa [hself]
    · rw [hother t' hne]
      intro f hf x hx
      rw [hc t' hne f hf]
      exact h.made t' f hf x hx
  · rcases eq_or_ne t' t with rfl | hne
    · rwa [hself]
    · rw [hother t' hne]
      intro f hf x i hx
      rw [hc t' hne f hf]
      exact h.reloads t' f hf x i hx

omit [DecidableEq T] in
/-- What a cached value refers to has not been destroyed. -/
theorem Sound.pinned (h : s.Sound) (hsafe : s.base.Safe cfg) {c : C} {k : Cache}
    (hk : s.cache c = some k) : s.base.mem.Pinned k.cached.addr := by
  apply Mem.Pinned.of_count
  intro hr
  refine hsafe.owned _ (Multiset.mem_of_le h.kept.values ?_) hr
  rw [held, Multiset.mem_filter, Multiset.mem_add, Family.mem_total]
  exact ⟨.inl ⟨c, by rw [hk]; exact Multiset.mem_singleton_self _⟩, hr⟩

/-- Cached values keep their objects. -/
theorem Sound.object_step (h : s.Sound) (hsafe : s.base.Safe cfg)
    (hb : s.base.step cfg t a = some b)
    {c : C} {k : Cache} (hk : s.cache c = some k) : b.mem.object k.cached.addr = k.object := by
  obtain ⟨m', th', o', g', hm, rfl⟩ := State.step_move hb
  exact (hm.object (h.pinned hsafe hk)).trans (h.objects c k hk)

omit [Fintype T] [Fintype C] [DecidableEq T] in
/-- A cache has been made or reloaded, and the other ones are as they were. -/
theorem assigned {m : Mem} {c : C} {k₁ : Cache}
    (h : ∀ c k, s.cache c = some k → m.object k.cached.addr = k.object)
    (h₁ : m.object k₁.cached.addr = k₁.object) :
    ∀ c', ∀ k ∈ Function.update s.cache c (some k₁) c', m.object k.cached.addr = k.object := by
  intro c' k hk
  rw [Function.update_apply] at hk
  split at hk
  · obtain rfl := Option.some.inj hk
    exact h₁
  · exact h c' k hk

/-- Caches stay sound in a step of the machine, also when a method goes on after it. -/
theorem Sound.base (h : s.Sound) (hl : s.base.Linear cfg) (hsafe : s.base.Safe cfg)
    (hi : ¬ s.Inside t) (hb : s.base.step cfg t a = some b) (hk : (s.resume t b).Kept) :
    (s.resume t b).Sound := by
  have hother : ∀ t' ≠ t, b.thread t' = s.base.thread t' := fun t' ht => State.step_other hb ht
  have hobj := fun {c k} => h.object_step (c := c) (k := k) hsafe hb
  have hnames := h.names_nodup (t := t)
  have hnest := h.nested t
  generalize hs' : s.resume t b = s' at hk
  have hr := hs' ▸ h.resumes hl hi hb
  cases hr with
  | pass hg hn hc =>
    exact h.move (t := t) (l := s.frames t) (Function.update_eq_self _ _).symm hk hnames hother
      (fun _ _ _ _ => rfl) hn (fun f hf old ho => absurd ho (hc f hf old)) (h.made t) (h.reloads t)
      fun c k hk => hobj hk
  | @new c x ks fs r i u hf hg ha hu hks hm ho =>
    rw [hf] at hnest hnames
    refine h.move (t := t) (l := fs) rfl hk (Multiset.nodup_of_le (by
      rw [names_cons, Multiset.cons_add]
      exact Multiset.le_cons_self _ _) hnames) hother ?_ (hks ▸ hnest.2)
        (fun _ _ _ _ => ?_) ?_ ?_ ?_
    · intro t' ht f hf'
      exact Function.update_of_ne (h.other_cache hf ht hf') _ _
    · show (b.thread t).active.IsUser
      rw [hu]
      trivial
    · intro f hf' y hy
      refine (Function.update_of_ne (h.next_cache hf hf') _ _).trans ?_
      exact h.made t f (by simp [hf, hf']) y hy
    · intro f hf' y j hy
      obtain ⟨k, hk, hx⟩ := h.reloads t f (by simp [hf, hf']) y j hy
      exact ⟨k, (Function.update_of_ne (h.next_cache hf hf') _ _).trans hk, hx⟩
    · exact assigned (fun _ _ hk => hobj hk) rfl
  | @reload c x ks fs r i u k hf hg hc hx ha hu hks hm ho =>
    rw [hf] at hnest hnames
    refine h.move (t := t) (l := ⟨c, .release k.cached, ks⟩ :: fs) rfl hk hnames hother ?_
      ⟨.inr ⟨_, rfl, hks⟩, hnest.2⟩ (fun _ _ _ _ => ?_) ?_ ?_ ?_
    · intro t' ht f hf'
      exact Function.update_of_ne (h.other_cache hf ht hf') _ _
    · show (b.thread t).active.IsUser
      rw [hu]
      trivial
    · intro f hf' y hy
      rcases List.mem_cons.mp hf' with rfl | hf'
      · cases hy
      · refine (Function.update_of_ne (h.next_cache hf hf') _ _).trans ?_
        exact h.made t f (by simp [hf, hf']) y hy
    · intro f hf' y j hy
      rcases List.mem_cons.mp hf' with rfl | hf'
      · cases hy
      · obtain ⟨k, hk, hx⟩ := h.reloads t f (by simp [hf, hf']) y j hy
        exact ⟨k, (Function.update_of_ne (h.next_cache hf hf') _ _).trans hk, hx⟩
    · exact assigned (fun _ _ hk => hobj hk) rfl
  | @released c ks fs u hf hu hks hm ho =>
    rw [hf] at hnest hnames
    refine h.move (t := t) (l := fs) rfl hk (Multiset.nodup_of_le (by
      rw [names_cons, Multiset.cons_add]
      exact Multiset.le_cons_self _ _) hnames) hother (fun _ _ _ _ => rfl) (hks ▸ hnest.2)
      (fun _ _ _ _ => ?_) (fun f hf' => h.made t f (by simp [hf, hf']))
      (fun f hf' => h.reloads t f (by simp [hf, hf'])) fun c k hk => hobj hk
    show (b.thread t).active.IsUser
    rw [hu]
    trivial

/-- A method is called on a cache that no other method runs on. -/
theorem Sound.push {x : StorageId} {f : CacheFrame C} (h : s.Sound) (hsafe : s.base.Safe cfg)
    (hfree : s.Free t) (hb : s.base.step cfg t (.op (.loadFull x)) = some b)
    (hf : f.conts = (s.base.thread t).conts) (hw : f.call.Waits (.value x (s.base.mem.now x)))
    (hc : ¬ s.Busy f.cache) (hr : f.call.refs = 0) (hx : ∀ y ∈ f.call.handle?, y = x)
    (hmade : ∀ y, f.call = .new y → s.cache f.cache = none)
    (hre : ∀ y i, f.call = .reload y i → ∃ k, s.cache f.cache = some k ∧ k.arcSwap = y) :
    (s.become t b (f :: s.frames t)).Sound := by
  obtain ⟨hlive, hm, ho, l, u, hk⟩ := State.step_loadFull hfree.1 hb
  have hfr : frameRefs (f :: s.frames t) = frameRefs (s.frames t) := by
    rw [frameRefs, List.map_cons, List.sum_cons, hr]
    exact zero_add _
  refine h.move (t := t) (l := f :: s.frames t) rfl ⟨?_, ?_, ?_⟩ ?_
    (fun t' ht => State.step_other hb ht) (fun _ _ _ _ => rfl) ?_ ?_ ?_ ?_ ?_
  · rw [held_become, hfr, ← held_eq s t]
    exact ho ▸ h.kept.values
  · intro c k hc
    exact hm ▸ h.kept.storages c k hc
  · intro t' f' hf' y hy
    show y ∈ b.mem.live
    rw [hm]
    have hmem : f' = f ∨ f' ∈ s.frames t' := by
      have hf'' : f' ∈ Function.update s.frames t (f :: s.frames t) t' := hf'
      rcases eq_or_ne t' t with rfl | hne
      · rwa [Function.update_self, List.mem_cons] at hf''
      · rw [Function.update_of_ne hne] at hf''
        exact .inr hf''
    rcases hmem with rfl | hmem
    · exact hx y hy ▸ hlive
    · exact h.kept.handles t' f' hmem y hy
  · rw [names_cons, Multiset.cons_add, Multiset.nodup_cons]
    refine ⟨fun hmem => hc ?_, h.names_nodup⟩
    rcases Multiset.mem_add.mp hmem with hmem | hmem
    · exact ⟨t, Multiset.mem_coe.mp hmem⟩
    · obtain ⟨t', -, hmem⟩ := Family.mem_rest.mp hmem
      exact ⟨t', Multiset.mem_coe.mp hmem⟩
  · show Nested (b.thread t).conts _
    rw [hk]
    exact Nested.call (h.nested t) hf hw
  · intro f' hf' old ho'
    obtain rfl : f = f' := by simpa using hf'
    rw [ho'] at hw
    exact hw.elim
  · intro f' hf' y hy
    rcases List.mem_cons.mp hf' with rfl | hf'
    · exact hmade y hy
    · exact h.made t f' hf' y hy
  · intro f' hf' y i hy
    rcases List.mem_cons.mp hf' with rfl | hf'
    · exact hre y i hy
    · exact h.reloads t f' hf' y i hy
  · intro c k hk
    exact h.object_step hsafe hb hk

/-- No method runs on the caches that a thread may change. -/
theorem Sound.of_cache {c : C} {v : Option Cache} {b : State T} (h : s.Sound) (hc : ¬ s.Busy c)
    (hk : Kept (⟨b, Function.update s.cache c v, s.frames⟩ : Clients T C))
    (ht : ∀ t' ≠ t, b.thread t' = s.base.thread t') (hin : ¬ s.Inside t)
    (hn : ∃ l, (b.thread t).conts = l ++ (s.base.thread t).conts)
    (ho : ∀ c' k, Function.update s.cache c v c' = some k → b.mem.object k.cached.addr = k.object) :
    Sound (⟨b, Function.update s.cache c v, s.frames⟩ : Clients T C) := by
  have hne : ∀ t' f, f ∈ s.frames t' → Function.update s.cache c v f.cache = s.cache f.cache := by
    intro t' f hf
    refine Function.update_of_ne (fun he => hc ⟨t', ?_⟩) _ _
    rw [← he]
    exact List.mem_map_of_mem hf
  have hrel : ∀ f ∈ (s.frames t).head?, ∀ old, f.call ≠ .release old := by
    intro f hf old hold
    obtain ⟨fs, hfs⟩ := List.head?_eq_some_iff.mp hf
    exact hin (h.releasing hfs hold)
  refine h.move (t := t) (l := s.frames t) (Function.update_eq_self _ _).symm hk h.names_nodup ht
    (fun t' _ f hf => hne t' f hf) ?_ (fun f hf old ho => absurd ho (hrel f hf old))
    (fun f hf x hx => (hne t f hf).trans (h.made t f hf x hx)) (fun f hf x i hx => ?_) ho
  · obtain ⟨l, hl⟩ := hn
    refine (h.nested t).mono fun f hf => ?_
    obtain ⟨fs, hfs⟩ := List.head?_eq_some_iff.mp hf
    have hbelow := h.nested t
    rw [hfs] at hbelow
    rcases hbelow.1 with ⟨l', u, c, hw, hks⟩ | ⟨old, hold, -⟩
    · exact .inl ⟨l ++ l', u, c, hw, by rw [hl, hks, List.append_assoc]⟩
    · exact absurd hold (hrel f hf old)
  · obtain ⟨k, hk, hx⟩ := h.reloads t f hf x i hx
    exact ⟨k, (hne t f hf).trans hk, hx⟩

theorem Sound.clone {c c' : C} {k : Cache} (h : s.Sound) (hk : s.cache c = some k) (hf : s.Free t)
    (hc' : s.Vacant c') (hb : s.cloneRef cfg t k.cached = some b) :
    (assign { s with base := b } c' k).Sound := by
  obtain ⟨hthread, hlive, hobj, ho⟩ := cloneRef_eq hf hb
  refine h.of_cache (t := t) hc'.2 ⟨?_, ?_, ?_⟩ (fun t' _ => by rw [hthread]) hf.2
    ⟨[], by rw [hthread]; rfl⟩ ?_
  · have hheld := held_assign { s with base := b } c' k
    have hnone : cacheRefs (({ s with base := b } : Clients T C).cache c') = 0 := by
      rw [show ({ s with base := b } : Clients T C).cache c' = none from hc'.1]
      rfl
    rw [hnone, Multiset.filter_zero, add_zero] at hheld
    show (assign { s with base := b } c' k).held ≤ b.owned
    rw [hheld, ho, add_comm]
    exact add_le_add_right h.kept.values _
  · intro c₁ k₁ hk₁
    show k₁.arcSwap ∈ b.mem.live
    rw [hlive]
    have hk₁' : Function.update s.cache c' (some k) c₁ = some k₁ := hk₁
    rw [Function.update_apply] at hk₁'
    split at hk₁'
    · obtain rfl := Option.some.inj hk₁'
      exact h.kept.storages c k hk
    · exact h.kept.storages c₁ k₁ hk₁'
  · intro t' f hf' x hx
    exact hlive ▸ h.kept.handles t' f hf' x hx
  · have hold : ∀ c₁ k₁, s.cache c₁ = some k₁ → b.mem.object k₁.cached.addr = k₁.object :=
      fun c₁ k₁ hk₁ => by rw [hobj]; exact h.objects c₁ k₁ hk₁
    exact assigned hold (hold c k hk)

theorem Sound.drop {c : C} {k : Cache} (h : s.Sound) (hk : s.cache c = some k) (hf : s.Free t)
    (hc : ¬ s.Busy c) (hb : s.dropRef cfg t k.cached = some b) :
    Sound (⟨b, Function.update s.cache c none, s.frames⟩ : Clients T C) := by
  obtain ⟨hm, ho, ht, hconts⟩ := dropRef_eq hf.1 hb
  have hmem : ∀ c₁ k₁, Function.update s.cache c none c₁ = some k₁ → s.cache c₁ = some k₁ := by
    intro c₁ k₁ hk₁
    rw [Function.update_apply] at hk₁
    split at hk₁
    · cases hk₁
    · exact hk₁
  refine h.of_cache (t := t) hc ⟨?_, ?_, ?_⟩ ht hf.2 ?_ ?_
  · have hheld : held (⟨b, Function.update s.cache c none, s.frames⟩ : Clients T C) +
        ({k.cached} : Multiset Ref).filter Ref.Counted = s.held := by
      have hnone : cacheRefs none = 0 := rfl
      have hsome : cacheRefs (some k) = {k.cached} := rfl
      rw [held, held, Family.total_update, Family.total_eq cacheRefs s.cache c, hk, hnone, hsome]
      simp only [Multiset.filter_add, Multiset.filter_zero]
      abel
    have hle := h.kept.values
    rw [← hheld, ← ho] at hle
    exact le_of_add_le_add_right hle
  · intro c₁ k₁ hk₁
    exact hm ▸ h.kept.storages c₁ k₁ (hmem c₁ k₁ hk₁)
  · intro t' f hf' x hx
    exact hm ▸ h.kept.handles t' f hf' x hx
  · rcases hconts with ⟨-, u, hu⟩ | ⟨-, rfl⟩
    · exact ⟨[.user u .unit], hu⟩
    · exact ⟨[], rfl⟩
  · intro c₁ k₁ hk₁
    rw [hm]
    exact h.objects c₁ k₁ (hmem c₁ k₁ hk₁)

theorem Sound.release {c : C} {old : Ref} {ks : List Cont} {fs : List (CacheFrame C)} (h : s.Sound)
    (hs : s.frames t = ⟨c, .release old, ks⟩ :: fs) (hi : s.Inside t)
    (hb : s.dropRef cfg t old = some b) :
    (s.become t b (if old.Counted then ⟨c, .released, ks⟩ :: fs else fs)).Sound := by
  obtain ⟨hm, ho, ht, hconts⟩ := dropRef_eq hi.1 hb
  have hnest := h.nested t
  have hnames := h.names_nodup (t := t)
  rw [hs] at hnest hnames
  have hks : (s.base.thread t).conts = ks := by
    have := hi.2
    simpa [hs, eq_comm] using this
  have hsub : ∀ f ∈ if old.Counted then (⟨c, .released, ks⟩ :: fs : List (CacheFrame C)) else fs,
      f = ⟨c, .released, ks⟩ ∨ f ∈ fs := by
    intro f hf
    split at hf
    · exact List.mem_cons.mp hf
    · exact .inr hf
  have hrest : ∀ f ∈ fs, f ∈ s.frames t := fun f hf => by
    rw [hs]
    exact List.mem_cons_of_mem _ hf
  refine h.move (t := t) (l := if old.Counted then ⟨c, .released, ks⟩ :: fs else fs) rfl
    ⟨?_, ?_, ?_⟩ ?_ ht (fun _ _ _ _ => rfl) ?_ ?_ ?_ ?_ ?_
  · have hheld : (s.become t b (if old.Counted then ⟨c, .released, ks⟩ :: fs else fs)).held +
        ({old} : Multiset Ref).filter Ref.Counted = s.held := by
      have hfs : frameRefs (if old.Counted then
        (⟨c, .released, ks⟩ :: fs : List (CacheFrame C)) else fs) =
          frameRefs fs := by
        split
        · exact zero_add _
        · rfl
      have hold : frameRefs (s.frames t) = {old} + frameRefs fs := by
        rw [hs]
        rfl
      rw [held_become, hfs, held_eq s t, hold, Multiset.filter_add]
      abel
    have hle := h.kept.values
    rw [← hheld, ← ho] at hle
    exact le_of_add_le_add_right hle
  · intro c₁ k₁ hk₁
    exact hm ▸ h.kept.storages c₁ k₁ hk₁
  · intro t' f hf x hx
    show x ∈ b.mem.live
    rw [hm]
    have hf' : f ∈ Function.update s.frames t
        (if old.Counted then ⟨c, .released, ks⟩ :: fs else fs) t' := hf
    rcases eq_or_ne t' t with rfl | hne
    · rw [Function.update_self] at hf'
      rcases hsub f hf' with rfl | hf'
      · cases hx
      · exact h.kept.handles t' f (hrest f hf') x hx
    · rw [Function.update_of_ne hne] at hf'
      exact h.kept.handles t' f hf' x hx
  · split
    · exact hnames
    · rw [names_cons, Multiset.cons_add] at hnames
      exact hnames.of_cons
  · show Nested (b.thread t).conts _
    rcases hconts with ⟨hr, u, hu⟩ | ⟨hr, rfl⟩
    · rw [if_pos hr, hu, hks]
      exact ⟨.inl ⟨[], u, .unit, rfl, rfl⟩, hnest.2⟩
    · rw [if_neg hr, hks]
      exact hnest.2
  · intro f hf o hfo
    show (b.thread t).active.IsUser
    rcases hconts with ⟨hr, -⟩ | ⟨hr, rfl⟩
    · rw [if_pos hr] at hf
      obtain rfl : (⟨c, .released, ks⟩ : CacheFrame C) = f := by simpa using hf
      cases hfo
    · exact hi.1
  · intro f hf x hx
    rcases hsub f hf with rfl | hf
    · cases hx
    · exact h.made t f (hrest f hf) x hx
  · intro f hf x i hx
    rcases hsub f hf with rfl | hf
    · cases hx
    · exact h.reloads t f (hrest f hf) x i hx
  · intro c₁ k₁ hk₁
    show b.mem.object _ = _
    rw [hm]
    exact h.objects c₁ k₁ hk₁

/-- **Caches stay sound** in every step. -/
theorem Sound.step {a : CacheAct C} (h : s.Sound) (hl : s.base.Linear cfg) (hsafe : s.base.Safe cfg)
    (hs : s.step cfg t a = some s') : s'.Sound := by
  cases step_move hs with
  | base hi hb hk => exact h.base hl hsafe hi hb hk
  | new hf hc hb =>
    exact h.push hsafe hf hb rfl ⟨_, rfl⟩ hc.2 rfl (fun y hy => (Option.some.inj hy).symm)
      (fun _ _ => hc.1) (fun _ _ hy => by cases hy)
  | hit => exact h
  | @miss c k b hk hf hc hp hb =>
    exact h.push hsafe hf hb rfl rfl hc rfl (fun y hy => by cases hy) (fun _ hy => by cases hy)
      (fun y i hy => ⟨k, hk, by cases hy; rfl⟩)
  | clone hk hf hc' hb => exact h.clone hk hf hc' hb
  | drop hk hf hc hb => exact h.drop hk hf hc hb
  | release hf hi hb => exact h.release hf hi hb

/-! ## The library goes on -/

omit [DecidableEq C] in
/-- A method has ended that was not about to drop anything. -/
theorem held_pop {f : CacheFrame C} {fs : List (CacheFrame C)} (hf : s.frames t = f :: fs)
    (hr : f.call.refs = 0) : (s.become t b fs).held = s.held := by
  have : frameRefs (s.frames t) = frameRefs fs := by
    rw [hf, frameRefs, List.map_cons, List.sum_cons, hr]
    exact zero_add _
  rw [held_become, held_eq s t, this]

omit [DecidableEq C] in
/-- A method is about to drop a value. -/
theorem held_release {f : CacheFrame C} {fs : List (CacheFrame C)} {c : C} {old : Ref}
    {ks : List Cont} (hf : s.frames t = f :: fs) (hr : f.call.refs = 0) :
    (s.become t b (⟨c, .release old, ks⟩ :: fs)).held =
      s.held + ({old} : Multiset Ref).filter Ref.Counted := by
  have hfs : frameRefs (⟨c, .release old, ks⟩ :: fs) = {old} + frameRefs fs := rfl
  rw [← held_pop (b := b) hf hr, held_become, held_become, hfs, Multiset.filter_add]
  abel

omit [Fintype T] [Fintype C] [DecidableEq T] [DecidableEq C] in
/-- What is received is owned. -/
theorem received {o o' x : Multiset Ref} {r : Ref} (h : x ≤ o) (ho : o' = r ::ₘ o) :
    x + ({r} : Multiset Ref).filter Ref.Counted ≤ o' := by
  rw [ho, ← Multiset.singleton_add, add_comm]
  exact add_le_add (Multiset.filter_le _ _) h

/-- No new handle is needed. -/
theorem handles_pop {f : CacheFrame C} {fs fs' : List (CacheFrame C)} (h : s.Sound)
    (hlive : b.mem.live = s.base.mem.live) (hf : s.frames t = f :: fs)
    (hsub : ∀ f ∈ fs', f.call.handle? = none ∨ f ∈ fs) (t' : T) (f' : CacheFrame C)
    (hf' : f' ∈ Function.update s.frames t fs' t') : ∀ x ∈ f'.call.handle?, x ∈ b.mem.live := by
  intro x hx
  rw [hlive]
  rcases eq_or_ne t' t with rfl | hne
  · rw [Function.update_self] at hf'
    rcases hsub f' hf' with hn | hf'
    · rw [hn] at hx
      cases hx
    · exact h.kept.handles t' f' (by rw [hf]; exact List.mem_cons_of_mem _ hf') x hx
  · rw [Function.update_of_ne hne] at hf'
    exact h.kept.handles t' f' hf' x hx

/-- **What user code leaves to the caches, the library does not take away**: its steps are steps of
the caches. -/
theorem Sound.goes {g : Bool} (h : s.Sound) (hl : s.base.Linear cfg) (hi : ¬ s.Inside t)
    (hb : s.base.step cfg t (.go g) = some b) :
    s.step cfg t (.base (.go g)) = some (s.resume t b) := by
  obtain ⟨hlive, ho⟩ := State.step_library hb
  have hkept : (s.resume t b).Kept := by
    generalize hs' : s.resume t b = s'
    have hr := hs' ▸ h.resumes hl hi hb
    cases hr with
    | pass =>
      exact ⟨h.kept.values.trans ho, fun c k hk => hlive ▸ h.kept.storages c k hk,
        fun t' f hf x hx => hlive ▸ h.kept.handles t' f hf x hx⟩
    | @new c x ks fs r i u hf hg ha hu hks hm ho' =>
      have hc : s.cache c = none := h.made t ⟨c, .new x, ks⟩ (by rw [hf]; simp) x rfl
      have hheld := held_assign (s.become t b fs) c ⟨x, r, b.mem.object r.addr⟩
      rw [show cacheRefs ((s.become t b fs).cache c) = 0 by
          rw [show (s.become t b fs).cache c = none from hc]; rfl,
        held_pop hf rfl, Multiset.filter_zero, add_zero] at hheld
      refine ⟨?_, fun c' k' hk' => ?_, fun t' f hf' => ?_⟩
      · rw [hheld]
        exact received h.kept.values ho'
      · have hk'' : Function.update s.cache c (some ⟨x, r, b.mem.object r.addr⟩) c' = some k' := hk'
        show k'.arcSwap ∈ b.mem.live
        rw [hlive]
        rw [Function.update_apply] at hk''
        split at hk''
        · obtain rfl := Option.some.inj hk''
          exact h.kept.handles t ⟨c, .new x, ks⟩ (by rw [hf]; simp) x rfl
        · exact h.kept.storages c' k' hk''
      · exact handles_pop h hlive hf (fun f hf => .inr hf) t' f hf'
    | @reload c x ks fs r i u k hf hg hc hx ha hu hks hm ho' =>
      have hheld := held_assign (s.become t b (⟨c, .release k.cached, ks⟩ :: fs)) c
        { k with cached := r, object := b.mem.object r.addr }
      rw [show cacheRefs ((s.become t b (⟨c, .release k.cached, ks⟩ :: fs)).cache c) = {k.cached} by
        rw [show (s.become t b _).cache c = some k from hc]; rfl, held_release hf rfl,
        add_right_comm, add_left_inj] at hheld
      refine ⟨?_, fun c' k' hk' => ?_, fun t' f hf' => ?_⟩
      · rw [hheld]
        exact received h.kept.values ho'
      · have hk'' : Function.update s.cache c
            (some { k with cached := r, object := b.mem.object r.addr }) c' = some k' := hk'
        show k'.arcSwap ∈ b.mem.live
        rw [hlive]
        rw [Function.update_apply] at hk''
        split at hk''
        · obtain rfl := Option.some.inj hk''
          exact h.kept.storages c k hc
        · exact h.kept.storages c' k' hk''
      · refine handles_pop h hlive hf (fun f hf => ?_) t' f hf'
        exact (List.mem_cons.mp hf).imp_left fun he => by rw [he]; rfl
    | @released c ks fs u hf hu hks hm ho' =>
      refine ⟨?_, fun c' k' hk' => hlive ▸ h.kept.storages c' k' hk',
        handles_pop h hlive hf fun f hf => .inr hf⟩
      rw [held_pop hf rfl]
      exact h.kept.values.trans ho
  rw [Clients.step, if_neg hi, hb, Option.bind_some, if_pos hkept]

/-! ## Reachable states -/

omit [DecidableEq T] in
theorem init_sound : (init : Clients T C).Sound where
  kept := by
    refine ⟨?_, fun c k hk => (by cases hk), fun t f hf => (by cases hf)⟩
    have hc : Family.total cacheRefs (init : Clients T C).cache = 0 :=
      Family.total_eq_zero fun _ => rfl
    have hf : Family.total frameRefs (init : Clients T C).frames = 0 :=
      Family.total_eq_zero fun _ => rfl
    rw [held, hc, hf]
    exact le_rfl
  single := by
    have : Family.total names (init : Clients T C).frames = 0 := Family.total_eq_zero fun _ => rfl
    exact this ▸ Multiset.nodup_zero
  nested _ := trivial
  inside t f hf := by cases hf
  made t f hf := by cases hf
  reloads t f hf := by cases hf
  objects c k hk := by cases hk

theorem Reachable.sound (h : s.Reachable cfg (State.Calm cfg)) : s.Sound := by
  refine (Guarded.Run.invariant (I := fun s : Clients T C => s.Sound ∧
    s.base.Reachable cfg (State.Calm cfg)) h ⟨init_sound, .refl⟩ fun s s' a hi hp hs => ⟨?_, ?_⟩).1
  · exact hi.1.step (hi.2.mono fun _ _ hp => hp.1).linear hi.2.safe hs
  · rcases (step_move hs).below with he | ⟨c, hc⟩
    · exact he ▸ hi.2
    · exact hi.2.tail ⟨(a.1, c), hp, hc⟩

/-! ## What the caches own -/

/-- The caches own what they hold. -/
structure Owns (cfg : Config) (s : Clients T C) : Prop where
  /-- A reference for each cache that holds the value, and one for each value that is being given
  up. -/
  held : ∀ r : Ref, r.Counted → s.held.count r =
    (Finset.univ.filter fun c => (s.cache c).map Cache.cached = some r).card +
      ∑ t, (frameRefs (s.frames t)).count r
  /-- These references are counted, beside those of the storages. -/
  counted : ∀ r : Ref, r.Counted →
    s.held.count r + s.base.mem.storedIn cfg r ≤ s.base.mem.count r
  /-- A cached object is the one that has been cached, and it has not been destroyed. -/
  alive : ∀ c k, s.cache c = some k → s.base.mem.object k.cached.addr = k.object ∧
    (k.cached.Counted → 1 ≤ s.base.mem.count k.cached)
  /-- The storage behind a cache exists. -/
  storage : ∀ c k, s.cache c = some k → k.arcSwap ∈ s.base.mem.live

omit [DecidableEq T] [DecidableEq C] in
theorem count_held {r : Ref} (hr : r.Counted) : s.held.count r =
    (Finset.univ.filter fun c => (s.cache c).map Cache.cached = some r).card +
      ∑ t, (frameRefs (s.frames t)).count r := by
  rw [held, Multiset.count_filter_of_pos hr, Multiset.count_add, Family.total, Family.total,
    Multiset.count_sum', Multiset.count_sum', Finset.card_filter]
  congr 1
  refine Finset.sum_congr rfl fun c _ => ?_
  cases s.cache c with
  | none => rfl
  | some k => simp [cacheRefs, Multiset.count_singleton, eq_comm]

omit [DecidableEq T] [DecidableEq C] in
theorem mem_held {c : C} {k : Cache} (hk : s.cache c = some k) (hr : k.cached.Counted) :
    k.cached ∈ s.held := by
  rw [held, Multiset.mem_filter, Multiset.mem_add, Family.mem_total]
  exact ⟨.inl ⟨c, by rw [hk]; exact Multiset.mem_singleton_self _⟩, hr⟩

omit [DecidableEq T] in
theorem Sound.owns (h : s.Sound) (ha : s.base.Accounted cfg) (hsafe : s.base.Safe cfg) :
    s.Owns cfg := by
  refine ⟨fun r hr => count_held hr, fun r hr => ?_, fun c k hk => ⟨h.objects c k hk, fun hr => ?_⟩,
    h.kept.storages⟩
  · have hcount := ha.counted hr
    have hle := Multiset.count_le_of_le r h.kept.values
    omega
  · exact hsafe.owned _ (Multiset.mem_of_le h.kept.values (mem_held hk hr)) hr

/-- **Every cache owns one reference**, to the object that it holds, in every reachable state. -/
theorem Reachable.caches_own (h : s.Reachable cfg (State.Calm cfg)) : s.Owns cfg :=
  h.sound.owns (State.Reachable.accounted h.below) (State.Reachable.safe h.below)

/-- How a step of the thread may give a cache another value, or none. -/
inductive Assigns (s : Clients T C) (t : T) (c : C) : CacheAct C → Clients T C → Prop
  /-- `load_full` has returned to `Cache::new`. -/
  | new {x ks fs r} {a : Choice} {s' : Clients T C} (hf : s.frames t = ⟨c, .new x, ks⟩ :: fs)
      (hg : s.given? t = some (.value r none)) (hc : s.cache c = none)
      (hc' : s'.cache c = some ⟨x, r, s'.base.mem.object r.addr⟩) : Assigns s t c (.base a) s'
  /-- `load_full` has returned to `Cache::revalidate`, and the old value is dropped next. -/
  | reload {x i ks fs r k} {a : Choice} {s' : Clients T C}
      (hf : s.frames t = ⟨c, .reload x i, ks⟩ :: fs) (hg : s.given? t = some (.value r none))
      (hc : s.cache c = some k)
      (hc' : s'.cache c = some { k with cached := r, object := s'.base.mem.object r.addr })
      (hf' : s'.frames t = ⟨c, .release k.cached, ks⟩ :: fs) : Assigns s t c (.base a) s'
  | clone {c₀ k} {s' : Clients T C} (hc₀ : s.cache c₀ = some k) (hc : s.cache c = none)
      (hc' : s'.cache c = some k) : Assigns s t c (.clone c₀ c) s'
  | drop {s' : Clients T C} (hc' : s'.cache c = none) : Assigns s t c (.drop c) s'

/-- The caches hold on to their values. -/
structure Holds (cfg : Config) (s : Clients T C) : Prop where
  assigns : ∀ t a s', s.step cfg t a = some s' → ∀ c, s'.cache c = s.cache c ∨ s.Assigns t c a s'
  /-- What has been replaced is dropped before the thread does anything else. -/
  releases : ∀ t c old ks fs, s.frames t = ⟨c, .release old, ks⟩ :: fs → ∀ a s',
    s.step cfg t a = some s' → a = .release ∧
      (old.Counted → s.base.step cfg t (.op (.drop old)) = some s'.base)

theorem Sound.assigns {a : CacheAct C} (h : s.Sound) (hl : s.base.Linear cfg)
    (hs : s.step cfg t a = some s') (c : C) : s'.cache c = s.cache c ∨ s.Assigns t c a s' := by
  cases step_move hs with
  | base hi hb hk =>
    generalize hs' : s.resume t _ = s'
    have hr := hs' ▸ h.resumes hl hi hb
    cases hr with
    | pass | released => exact .inl rfl
    | @new c' x ks fs r i u hf hg =>
      rcases eq_or_ne c c' with rfl | hne
      · exact .inr (.new hf hg (h.made t _ (by rw [hf]; exact List.mem_cons_self) x rfl)
          (Function.update_self _ _ _))
      · exact .inl (Function.update_of_ne hne _ _)
    | @reload c' x ks fs r i u k hf hg hc =>
      rcases eq_or_ne c c' with rfl | hne
      · exact .inr (.reload hf hg hc (Function.update_self _ _ _) (Function.update_self _ _ _))
      · exact .inl (Function.update_of_ne hne _ _)
  | new | hit | miss | release => exact .inl rfl
  | @clone c₀ c' k b hk hf hc' =>
    rcases eq_or_ne c c' with rfl | hne
    · exact .inr (.clone hk hc'.1 (Function.update_self _ _ _))
    · exact .inl (Function.update_of_ne hne _ _)
  | @drop c' k b hk =>
    rcases eq_or_ne c c' with rfl | hne
    · exact .inr (.drop (Function.update_self _ _ _))
    · exact .inl (Function.update_of_ne hne _ _)

theorem Sound.releases {a : CacheAct C} {c : C} {old : Ref} {ks : List Cont}
    {fs : List (CacheFrame C)} (h : s.Sound) (hf : s.frames t = ⟨c, .release old, ks⟩ :: fs)
    (hs : s.step cfg t a = some s') :
    a = .release ∧ (old.Counted → s.base.step cfg t (.op (.drop old)) = some s'.base) := by
  have hin := h.releasing hf rfl
  cases step_move hs with
  | base hi => exact absurd hin hi
  | new hfree | hit _ hfree | miss _ hfree | clone _ hfree | drop _ hfree =>
    exact absurd hin hfree.2
  | @release _ old' _ _ b hf' _ hb =>
    rw [hf] at hf'
    obtain ⟨⟨-, ho, -⟩, -⟩ := hf'
    refine ⟨rfl, fun hr => ?_⟩
    rwa [dropRef, if_pos hr] at hb

theorem Sound.holds (h : s.Sound) (hl : s.base.Linear cfg) : s.Holds cfg :=
  ⟨fun _ _ _ hs => h.assigns hl hs, fun _ _ _ _ _ hf _ _ hs => h.releases hf hs⟩

/-! ## Loads of a cache -/

/-- A method that runs on a cache keeps all others from changing it. -/
theorem Sound.cache_stays {t' : T} {a : CacheAct C} {f : CacheFrame C} (h : s.Sound)
    (hl : s.base.Linear cfg) (hf : f ∈ s.frames t) (hs : s.step cfg t' a = some s') :
    s'.cache f.cache = s.cache f.cache ∨
      ∃ fs, s.frames t = f :: fs ∧ ¬ (f :: fs <:+ s'.frames t) := by
  -- the first method of the thread that takes the step is this one, or it runs on another cache
  have hfirst : ∀ f' fs, s.frames t' = f' :: fs → f.cache ≠ f'.cache ∨ (t' = t ∧ f' = f) := by
    intro f' fs hf'
    rcases eq_or_ne t' t with rfl | hne
    · rw [hf', List.mem_cons] at hf
      rcases hf with rfl | hf
      · exact .inr ⟨rfl, rfl⟩
      · exact .inl (h.next_cache hf' hf)
    · exact .inl (h.other_cache hf' hne.symm hf)
  have hbusy : s.Busy f.cache := ⟨t, List.mem_map_of_mem hf⟩
  cases step_move hs with
  | base hi hb hk =>
    generalize hs' : s.resume t' _ = s'
    have hr := hs' ▸ h.resumes hl hi hb
    cases hr with
    | pass | released => exact .inl rfl
    | @new c x ks fs r i u hf' =>
      rcases hfirst _ _ hf' with hne | ⟨rfl, rfl⟩
      · exact .inl (Function.update_of_ne hne _ _)
      · refine .inr ⟨fs, hf', fun hsuf => ?_⟩
        have hlen := hsuf.length_le
        simp [become, assign] at hlen
    | @reload c x ks fs r i u k hf' =>
      rcases hfirst _ _ hf' with hne | ⟨rfl, rfl⟩
      · exact .inl (Function.update_of_ne hne _ _)
      · refine .inr ⟨fs, hf', fun hsuf => ?_⟩
        have heq := hsuf.eq_of_length (by simp [become, assign])
        simp [become, assign] at heq
  | new | hit | miss | release => exact .inl rfl
  | @clone c c' k b hk hf' hc' =>
    have hne : f.cache ≠ c' := fun he => hc'.2 (he ▸ hbusy)
    exact .inl (Function.update_of_ne hne _ _)
  | @drop c k b hk hf' hc =>
    have hne : f.cache ≠ c := fun he => hc (he ▸ hbusy)
    exact .inl (Function.update_of_ne hne _ _)

/-- `load_full` returns to a cache that is being reloaded. -/
theorem Sound.reloaded {a : Choice} {c : C} {x : StorageId} {i : ℕ} {ks : List Cont}
    {fs : List (CacheFrame C)} (h : s.Sound) (hl : s.base.Linear cfg)
    (hf : s.frames t = ⟨c, .reload x i, ks⟩ :: fs) (hg : s.given? t ≠ none)
    (hs : s.step cfg t (.base a) = some s') :
    ∃ k r b, s.cache c = some k ∧ s.given? t = some (.value r none) ∧
      (s.base.thread t).active = .ret (.value x i) (.value r none) ∧
      s.base.step cfg t a = some b ∧ b.mem = s.base.mem ∧
      s' = (s.become t b (⟨c, .release k.cached, ks⟩ :: fs)).assign c
        { k with cached := r, object := b.mem.object r.addr } := by
  cases step_move hs with
  | @base _ b hi hb hk =>
    generalize hs' : s.resume t b = s' at hs
    have hr := hs' ▸ h.resumes hl hi hb
    cases hr with
    | pass hg' => exact absurd hg' hg
    | new hf' | released hf' =>
      rw [hf] at hf'
      cases hf'
    | @reload _ _ _ _ r _ _ k hf' hg' hc _ ha _ _ hm =>
      rw [hf] at hf'
      obtain ⟨⟨rfl, ⟨rfl, rfl⟩, rfl⟩, rfl⟩ := hf'
      exact ⟨k, r, b, hc, hg', ha, hb, hm, rfl⟩

/-- A run from the call of a method on, as long as the method runs. -/
def During (cfg : Config) (P : State T → T → Prop) (t : T) (s₁ s : Clients T C) : Prop :=
  Guarded.Run (fun s a => s.step cfg a.1 a.2) (fun s (a : T × CacheAct C) =>
    P s.base a.1 ∧ s₁.frames t <:+ s.frames t) s₁ s ∧ s₁.frames t <:+ s.frames t

/-- A `load` of the cache that the thread has called in the state `s₀` has got its value in `s₂`. -/
inductive Loads (cfg : Config) (P : State T → T → Prop) (t : T) (c : C) (s₀ : Clients T C) :
    Clients T C → Prop
  | hit {k s₂} (hk : s₀.cache c = some k) (hp : k.cached.addr = s₀.base.mem.ptr k.arcSwap)
      (hs : s₀.step cfg t (.load c) = some s₂) : Loads cfg P t c s₀ s₂
  /-- `load_full` is called, and it returns to the method. -/
  | miss {k s₁ s₂ s₃ a} (hk : s₀.cache c = some k)
      (hp : k.cached.addr ≠ s₀.base.mem.ptr k.arcSwap)
      (hs : s₀.step cfg t (.load c) = some s₁) (hr : During cfg P t s₁ s₂)
      (hf : s₂.frames t = s₁.frames t) (hg : s₂.given? t ≠ none) (hc : P s₂.base t)
      (hs' : s₂.step cfg t (.base a) = some s₃) : Loads cfg P t c s₀ s₃

/-- The cache gets what `load_full` returns. -/
structure Reloaded (cfg : Config) (P : State T → T → Prop) (t : T) (c : C) (s₀ s₁ s₂ : Clients T C)
    (k₀ k : Cache) : Prop where
  /-- It is called after the pointers have been compared. -/
  call : s₀.step cfg t (.load c) = some s₁ ∧
    s₁.frames t = ⟨c, .reload k₀.arcSwap (s₀.base.mem.now k₀.arcSwap),
      (s₀.base.thread t).conts⟩ :: s₀.frames t
  /-- Nobody changes the cache meanwhile. -/
  alone : ∀ s, During cfg P t s₁ s → s.cache c = some k₀
  /-- The value is returned to the method. -/
  returned : ∃ s a, During cfg P t s₁ s ∧ s.frames t = s₁.frames t ∧
    s.given? t = some (.value k.cached none) ∧ P s.base t ∧ s.step cfg t (.base a) = some s₂
  /-- The old value is released next. -/
  release : s₂.frames t = ⟨c, .release k₀.cached, (s₀.base.thread t).conts⟩ :: s₀.frames t

/-- The value that the cache holds in `s₂` is not stale. -/
structure Fresh (cfg : Config) (P : State T → T → Prop) (t : T) (c : C) (s₀ s₂ : Clients T C)
    (k₀ k : Cache) : Prop where
  before : s₀.cache c = some k₀
  after : s₂.cache c = some k
  storage : k.arcSwap = k₀.arcSwap
  /-- The storage has contained the pointer since the call. -/
  contained : State.Contained cfg s₀.base s₂.base k.arcSwap k.cached.addr
  /-- It refers to the object that the cache holds from now on. -/
  object : s₂.base.mem.object k.cached.addr = k.object
  /-- If the pointers are equal, the value stays, and the storage holds the very object. -/
  hit : k₀.cached.addr = s₀.base.mem.ptr k₀.arcSwap → s₂ = s₀ ∧
    ∃ e, (s₀.base.mem.log k₀.arcSwap)[s₀.base.mem.now k₀.arcSwap]? = some e ∧
      e.content = ⟨k₀.cached.addr, k₀.object⟩
  miss : k₀.cached.addr ≠ s₀.base.mem.ptr k₀.arcSwap → ∃ s₁, Reloaded cfg P t c s₀ s₁ s₂ k₀ k

theorem Loads.mono {P Q : State T → T → Prop} {s₀ : Clients T C} {c : C} (h : s₀.Loads cfg P t c s)
    (hpq : ∀ s t, P s t → Q s t) : s₀.Loads cfg Q t c s := by
  cases h with
  | hit hk hp hs => exact .hit hk hp hs
  | miss hk hp hs hr hf hg hc hs' =>
    exact .miss hk hp hs ⟨Guarded.Run.mono hr.1 fun _ _ hp => ⟨hpq _ _ hp.1, hp.2⟩, hr.2⟩ hf hg
      (hpq _ _ hc) hs'

/-- The condition keeps the counts right. -/
def Calms (cfg : Config) (P : State T → T → Prop) : Prop :=
  ∀ s t, s.Reachable cfg (State.Calm cfg) → P s t → s.Calm cfg t

section Loads

variable {P : State T → T → Prop} {s₀ s₁ s₂ : Clients T C} {c : C}

theorem Run.calm (hr : Run cfg P s₀ s) (hP : Calms cfg P)
    (h : s₀.base.Reachable cfg (State.Calm cfg)) : Run cfg (State.Calm cfg) s₀ s := by
  refine Guarded.Run.guard (I := fun s => s.base.Reachable cfg (State.Calm cfg)) hr h ?_
    fun s a hi hp => hP _ _ hi hp
  rintro s s' a hi hp hs
  rcases (step_move hs).below with he | ⟨c, hc⟩
  · exact he ▸ hi
  · exact hi.tail ⟨(a.1, c), hP _ _ hi hp, hc⟩

theorem Reachable.calm (h : s.Reachable cfg P) (hP : Calms cfg P) :
    s.Reachable cfg (State.Calm cfg) := Run.calm h hP .refl

theorem Reachable.linear (h : s.Reachable cfg (State.Calm cfg)) : s.base.Linear cfg :=
  (State.Reachable.mono h.below fun _ _ hp => hp.1).linear

/-- While `load_full` runs for a cache, nobody changes the cache. -/
theorem Reachable.alone {f : CacheFrame C} {fs : List (CacheFrame C)} (hP : Calms cfg P)
    (h : s₁.Reachable cfg (State.Calm cfg)) (hf : s₁.frames t = f :: fs)
    (hr : During cfg P t s₁ s) : s.cache f.cache = s₁.cache f.cache := by
  have hkeep : s.Reachable cfg (State.Calm cfg) ∧
      (s₁.frames t <:+ s.frames t → s.cache f.cache = s₁.cache f.cache) := by
    refine Guarded.Run.invariant (I := fun u => u.Reachable cfg (State.Calm cfg) ∧
      (s₁.frames t <:+ u.frames t → u.cache f.cache = s₁.cache f.cache)) hr.1 ⟨h, fun _ => rfl⟩ ?_
    rintro u u' a ⟨hu, hI⟩ ⟨hp, hsuf⟩ hstep
    refine ⟨hu.tail ⟨a, hP _ _ hu.below hp, hstep⟩, fun hsuf' => ?_⟩
    have hmem : f ∈ u.frames t := hsuf.subset (by rw [hf]; exact List.mem_cons_self)
    rcases hu.sound.cache_stays hu.linear hmem hstep with he | ⟨gs, hgs, hn⟩
    · exact he.trans (hI hsuf)
    · rw [hf] at hsuf hsuf'
      rw [hgs] at hsuf
      rcases List.suffix_cons_iff.mp hsuf with he | hsuf
      · exact absurd (he ▸ hsuf') hn
      · exact absurd rfl (hu.sound.next_cache hgs (hsuf.subset List.mem_cons_self))
  exact hkeep.2 hr.2

/-- A comparison that fails calls `load_full`. -/
theorem step_miss {k : Cache} (hk : s₀.cache c = some k)
    (hp : k.cached.addr ≠ s₀.base.mem.ptr k.arcSwap) (hs : s₀.step cfg t (.load c) = some s₁) :
    (∃ u, (s₀.base.thread t).active = .user u) ∧
      s₀.base.step cfg t (.op (.loadFull k.arcSwap)) = some s₁.base ∧
      s₁.cache = s₀.cache ∧ s₁.frames t = ⟨c, .reload k.arcSwap (s₀.base.mem.now k.arcSwap),
        (s₀.base.thread t).conts⟩ :: s₀.frames t := by
  cases step_move hs with
  | hit hk' _ _ hp' =>
    obtain rfl := Option.some.inj (hk'.symm.trans hk)
    exact absurd hp' hp
  | miss hk' hfree _ _ hb =>
    obtain rfl := Option.some.inj (hk'.symm.trans hk)
    exact ⟨hfree.1.eq, hb, rfl, Function.update_self _ _ _⟩

/-- **A load of a cache is never stale**: it returns the object that the storage holds, or what
`load_full` returns afterwards. -/
theorem Reachable.load_fresh (hP : Calms cfg P) (h : s₀.Reachable cfg (State.Calm cfg))
    (hl : s₀.Loads cfg P t c s₂) : ∃ k₀ k, Fresh cfg P t c s₀ s₂ k₀ k := by
  cases hl with
  | @hit k _ hk hp hs =>
    cases step_move hs with
    | @hit _ k' hk' =>
      obtain rfl : k' = k := Option.some.inj (hk'.symm.trans hk)
      obtain ⟨e, he, hE⟩ := (State.Reachable.current h.below) _ (h.sound.kept.storages c k' hk)
      refine ⟨k', k', hk, hk, rfl, ⟨s₀.base, .refl, .refl, hp.symm⟩, h.sound.objects c k' hk,
        fun _ => ⟨rfl, e, he, ?_⟩, fun hne => absurd hp hne⟩
      rw [← hE, Mem.content, ← hp, h.sound.objects c k' hk]
    | @miss _ k' _ hk' _ _ hp' =>
      obtain rfl : k' = k := Option.some.inj (hk'.symm.trans hk)
      exact absurd hp hp'
  | @miss k₀ s₁ s _ a hk hp hs hr hf hg hc hs' =>
    obtain ⟨⟨u, hu⟩, hb, hcache, hf₁⟩ := step_miss hk hp hs
    have hcalm : s₀.base.Calm cfg t := State.calm_of_user hu
    have h₁ : s₁.Reachable cfg (State.Calm cfg) := h.tail ⟨(t, .load c), hcalm, hs⟩
    have halone : ∀ s, During cfg P t s₁ s → s.cache c = some k₀ := fun s hr =>
      (h₁.alone hP hf₁ hr).trans ((congrFun hcache c).trans hk)
    have hr' : Run cfg (State.Calm cfg) s₁ s :=
      Run.calm (Guarded.Run.mono hr.1 fun _ _ hp => hp.1) hP h₁.below
    have hR : s.Reachable cfg (State.Calm cfg) := Relation.ReflTransGen.trans h₁ hr'
    obtain ⟨k, r, b, hk', hgiven, ha, hb', hm, rfl⟩ :=
      hR.sound.reloaded hR.linear (hf.trans hf₁) hg hs'
    obtain rfl : k₀ = k := Option.some.inj ((halone s hr).symm.trans hk')
    refine ⟨k₀, _, hk, Function.update_self _ _ _, rfl, ?_, rfl, fun hp' => absurd hp' hp, fun _ =>
      ⟨s₁, ⟨hs, hf₁⟩, halone, ⟨s, a, hr, hf, hgiven, hc, hs'⟩, Function.update_self _ _ _⟩⟩
    -- the pointer has been in the storage since the call, which is a run of the machine
    have hrun : State.Run cfg (State.Calm cfg) s₀.base b :=
      (Relation.ReflTransGen.head ⟨(t, .op (.loadFull k₀.arcSwap)), hcalm, hb⟩
        (Run.below hr')).tail ⟨(t, a), hP _ _ hR.below hc, hb'⟩
    have hwin := hR.linear.windows.active t
    rw [ha] at hwin
    refine h.linear.contained (P := fun e => e.addr = r.addr)
      (Guarded.Run.mono hrun fun _ _ hp => hp.1) ?_ fun _ he => he
    show b.mem.Within _ _ _
    rw [hm]
    exact hwin

/-- **A load of a cache returns an object of the storage**, also when addresses are used again. -/
theorem Reachable.load_genuine (h : s₀.Reachable cfg (State.Homely cfg))
    (hl : s₀.Loads cfg (State.Homely cfg) t c s₂) :
    ∃ k₀ k, Fresh cfg (State.Homely cfg) t c s₀ s₂ k₀ k ∧
      State.Held cfg s₀.base s₂.base k.arcSwap ⟨k.cached.addr, k.object⟩ := by
  have hP : Calms (T := T) cfg (State.Homely cfg) := fun _ _ _ hp => hp.1
  have hsound := (h.calm hP).sound
  obtain ⟨k₀, k, hfresh⟩ := (h.calm hP).load_fresh hP hl
  have hlive : k₀.arcSwap ∈ s₀.base.mem.live := hsound.kept.storages c k₀ hfresh.before
  refine ⟨k₀, k, hfresh, ?_⟩
  by_cases hp : k₀.cached.addr = s₀.base.mem.ptr k₀.arcSwap
  · obtain ⟨rfl, -⟩ := hfresh.hit hp
    obtain rfl := Option.some.inj (hfresh.before.symm.trans hfresh.after)
    exact ⟨s₂.base, .refl, .refl, hlive, by rw [Mem.content, ← hp, hfresh.object]⟩
  · obtain ⟨s₁, hre⟩ := hfresh.miss hp
    obtain ⟨s, a, hr, hf, hgiven, hc, hs⟩ := hre.returned
    obtain ⟨⟨u, hu⟩, hb, -⟩ := step_miss hfresh.before hp hre.call.1
    have hr' : Run cfg (State.Homely cfg) s₁ s := Guarded.Run.mono hr.1 fun _ _ hp => hp.1
    have hR : s.Reachable cfg (State.Homely cfg) :=
      Relation.ReflTransGen.trans (h.tail ⟨(t, .load c), State.homely_of_user hu, hre.call.1⟩) hr'
    obtain ⟨k₁, r, b, -, hgiven', ha, hb', hm, rfl⟩ := (hR.calm hP).sound.reloaded
      (hR.calm hP).linear (hf.trans hre.call.2) (by simp [hgiven]) hs
    obtain rfl : k.cached = r := by simpa [hgiven] using hgiven'
    -- what `load_full` has read is an object that the storage has held since the call
    have hrun : State.Run cfg (State.Homely cfg) s₀.base b :=
      (Relation.ReflTransGen.head ⟨(t, .op (.loadFull k₀.arcSwap)), State.homely_of_user hu, hb⟩
        (Run.below hr')).tail ⟨(t, a), hc, hb'⟩
    have hwin := (State.Reachable.genuine hR.below).1.active t
    rw [ha] at hwin
    rw [hfresh.storage, ← hfresh.object]
    refine State.Reachable.held h.below hrun hlive ?_
    show b.mem.Within _ _ (Eq (b.mem.content k.cached.addr))
    rw [hm]
    exact hwin

end Loads

end Step

/-! ## A sample run -/

/-- Steps of the machine below. -/
def below (as : List (Bool × Choice)) : List (Bool × CacheAct Unit) :=
  as.map fun a => (a.1, .base a.2)

/-- The thread `true` makes a cache of the storage `0`, the thread `false` stores another value
there, and the cache loads it. -/
def sampleSchedule : List (Bool × CacheAct Unit) := List.flatten
  [below [(false, .op (.alloc 1)), (false, .op (.new 0 1))], [(true, .new () 0)],
    below (goOn true 17 ++ [(false, .op (.alloc 2)), (false, .op (.store 0 2))] ++ goOn false 50),
    [(true, .load ())], below (goOn true 12)]

theorem play_isSome : (Guarded.play (fun (s : Clients Bool Unit) a => s.step .sample a.1 a.2)
    (fun s a => s.base.Homely .sample a.1) .init sampleSchedule).isSome := by
  decide +kernel

/-- The state after `k` steps of the schedule. -/
def sample (k : ℕ) : Clients Bool Unit := Guarded.after play_isSome k

theorem sample_reachable (k : ℕ) : (sample k).Reachable .sample (State.Homely .sample) :=
  Guarded.after_reachable play_isSome k

/-- The `k`-th step of the schedule. -/
theorem sample_step {k : ℕ} {t : Bool} {a : CacheAct Unit} (h : sampleSchedule[k]? = some (t, a)) :
    (sample k).step .sample t a = some (sample (k + 1)) :=
  Guarded.after_step play_isSome h

/-- The load that gets the value of the other thread. -/
theorem sample_loads : (sample 72).Loads .sample (State.Homely .sample) true () (sample 85) := by
  have hrun : During .sample (State.Homely .sample) true (sample 73) (sample 84) :=
    ⟨Guarded.after_run_of (k := 73) (l := 11) (fun _ _ h => h.1) play_isSome (by decide +kernel),
      by decide +kernel⟩
  exact .miss (k := ⟨0, ⟨.arc, 1⟩, 1⟩) (a := .go false) (by decide +kernel) (by decide +kernel)
    (sample_step rfl) hrun (by decide +kernel) (by decide +kernel) (by decide +kernel)
    (sample_step rfl)

/-- When the cache has been made. -/
theorem Reachable.caches_own_sample : (sample 20).Owns .sample ∧ (sample 20).cache () ≠ none := by
  have h : (sample 20).Reachable .sample (State.Calm .sample) :=
    Guarded.Run.mono (sample_reachable 20) fun _ _ hp => hp.1
  exact ⟨h.caches_own, by decide +kernel⟩

theorem Reachable.load_genuine_sample : ∃ k₀ k,
    Fresh .sample (State.Homely .sample) true () (sample 72) (sample 85) k₀ k ∧
      State.Held .sample (sample 72).base (sample 85).base k.arcSwap ⟨k.cached.addr, k.object⟩ :=
  (sample_reachable 72).load_genuine sample_loads

end Clients

end ArcSwap
