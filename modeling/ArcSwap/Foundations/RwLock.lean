import Mathlib.Algebra.Order.Group.Multiset
import Mathlib.Data.Multiset.Count
import Mathlib.Tactic.Common

/-!
# Readers–writer locks

A lock is shared by any number of readers, or it is held by one writer. Who cannot take a lock
waits, also for itself, and a waiting writer keeps no reader out. The members of a family hold
locks, each as often as it has taken them and not given back; the locks agree with them when each
lock knows its holders. Then a writer excludes everybody else.
-/

/-- A lock: the readers that share it, or the writer that holds it. -/
inductive RwLock (T : Type*)
  | shared (readers : Multiset T)
  | exclusive (writer : T)

namespace RwLock

variable {T X : Type*} [DecidableEq T] {l l' : RwLock T} {t t' : T}

/-- Nobody holds the lock. -/
def free : RwLock T := .shared 0

/-- `t` takes the lock as a reader, unless a writer holds it. -/
def read (t : T) : RwLock T → Option (RwLock T)
  | .shared ts => some (.shared (t ::ₘ ts))
  | .exclusive _ => none

/-- `t` takes the lock as the writer, unless somebody holds it. -/
def write (t : T) : RwLock T → Option (RwLock T)
  | .shared ts => if ts.card = 0 then some (.exclusive t) else none
  | .exclusive _ => none

/-- The reader `t` gives the lock back. -/
def unlockRead (t : T) : RwLock T → RwLock T
  | .shared ts => .shared (ts.erase t)
  | .exclusive t' => .exclusive t'

/-- The writer gives the lock back. -/
def unlockWrite : RwLock T → RwLock T
  | .shared ts => .shared ts
  | .exclusive _ => free

/-! ## The holders of a lock -/

/-- How often `t` holds the lock as a reader. -/
def readers (t : T) : RwLock T → ℕ
  | .shared ts => ts.count t
  | .exclusive _ => 0

/-- How often `t` holds the lock as the writer. -/
def writers (t : T) : RwLock T → ℕ
  | .shared _ => 0
  | .exclusive t' => if t = t' then 1 else 0

@[simp] theorem readers_free : (free : RwLock T).readers t = 0 := Multiset.count_zero t

@[simp] theorem writers_free : (free : RwLock T).writers t = 0 := rfl

/-- **A writer excludes the readers.** -/
theorem readers_eq_zero (h : 0 < l.writers t) (t' : T) : l.readers t' = 0 := by
  cases l with
  | shared ts => exact absurd h (lt_irrefl 0)
  | exclusive t₁ => rfl

/-- **There is one writer.** -/
theorem writer_unique (h : 0 < l.writers t) (h' : 0 < l.writers t') : t = t' := by
  cases l with
  | shared ts => exact absurd h (lt_irrefl 0)
  | exclusive t₁ =>
    have h₁ : t = t₁ := by
      by_contra hne
      simp [writers, hne] at h
    have h₂ : t' = t₁ := by
      by_contra hne
      simp [writers, hne] at h'
    exact h₁.trans h₂.symm

theorem writers_le_one : l.writers t ≤ 1 := by
  cases l with
  | shared ts => exact Nat.zero_le 1
  | exclusive t₁ =>
    simp only [writers]
    split <;> omega

theorem readers_read (h : l.read t = some l') (t' : T) :
    l'.readers t' = l.readers t' + if t' = t then 1 else 0 := by
  cases l with
  | shared ts =>
    obtain rfl := Option.some.inj h
    exact Multiset.count_cons t' t ts
  | exclusive t₁ => cases h

theorem writers_read (h : l.read t = some l') (t' : T) : l'.writers t' = l.writers t' := by
  cases l with
  | shared ts =>
    obtain rfl := Option.some.inj h
    rfl
  | exclusive t₁ => cases h

/-- Who takes a lock as the writer finds nobody there. -/
theorem write_vacant (h : l.write t = some l') (t' : T) : l.readers t' = 0 ∧ l.writers t' = 0 := by
  cases l with
  | shared ts =>
    simp only [write, Option.ite_none_right_eq_some] at h
    obtain rfl := Multiset.card_eq_zero.mp h.1
    exact ⟨Multiset.count_zero t', rfl⟩
  | exclusive t₁ => cases h

omit [DecidableEq T] in
theorem eq_of_write (h : l.write t = some l') : l' = .exclusive t := by
  cases l with
  | shared ts =>
    simp only [write, Option.ite_none_right_eq_some, Option.some.injEq] at h
    exact h.2.symm
  | exclusive t₁ => cases h

/-- A reader waits for a writer. -/
theorem exists_writer (h : l.read t = none) : ∃ t', 0 < l.writers t' := by
  cases l with
  | shared ts => cases h
  | exclusive t₁ => exact ⟨t₁, by simp [writers]⟩

/-- A writer waits for somebody who holds the lock. -/
theorem exists_holder (h : l.write t = none) : ∃ t', 0 < l.readers t' ∨ 0 < l.writers t' := by
  cases l with
  | shared ts =>
    simp only [write, ite_eq_right_iff, reduceCtorEq, imp_false, Multiset.card_eq_zero] at h
    obtain ⟨t', ht⟩ := Multiset.exists_mem_of_ne_zero h
    exact ⟨t', .inl (Multiset.count_pos.mpr ht)⟩
  | exclusive t₁ => exact ⟨t₁, .inr (by simp [writers])⟩

theorem readers_unlockRead (h : 0 < l.readers t) (t' : T) :
    (l.unlockRead t).readers t' + (if t' = t then 1 else 0) = l.readers t' := by
  cases l with
  | shared ts =>
    have hmem : t ∈ ts := Multiset.count_pos.mp h
    have hc := Multiset.count_cons t' t (ts.erase t)
    rw [Multiset.cons_erase hmem] at hc
    exact hc.symm
  | exclusive t₁ => exact absurd h (lt_irrefl 0)

theorem writers_unlockRead (t' : T) : (l.unlockRead t).writers t' = l.writers t' := by
  cases l <;> rfl

theorem readers_unlockWrite (h : 0 < l.writers t) (t' : T) : l.unlockWrite.readers t' = 0 := by
  cases l with
  | shared ts => exact absurd h (lt_irrefl 0)
  | exclusive t₁ => exact readers_free

theorem writers_unlockWrite (t' : T) : l.unlockWrite.writers t' = 0 := by
  cases l <;> rfl

/-! ## A family of locks -/

section Family

variable [DecidableEq X] {L L' : X → RwLock T} {x : X} {R W R' W' : T → Multiset X}

/-- Each lock knows its holders: `R` and `W` are the locks that the threads hold as readers and as
writers. -/
structure Agrees (L : X → RwLock T) (R W : T → Multiset X) : Prop where
  readers : ∀ x t, (L x).readers t = (R t).count x
  writers : ∀ x t, (L x).writers t = (W t).count x

/-- What a thread that holds the locks `r` and `w` does: the locks and what it holds afterwards. -/
inductive Move (t : T) (L : X → RwLock T) (r w : Multiset X) :
    (X → RwLock T) → Multiset X → Multiset X → Prop
  | keep : Move t L r w L r w
  | read {x : X} {l : RwLock T} (h : (L x).read t = some l) :
    Move t L r w (Function.update L x l) (r + {x}) w
  | write {x : X} {l : RwLock T} (h : (L x).write t = some l) :
    Move t L r w (Function.update L x l) r (w + {x})
  | unlockRead {x : X} {r'} (h : r = r' + {x}) :
    Move t L r w (Function.update L x ((L x).unlockRead t)) r' w
  | unlockWrite {x : X} {w'} (h : w = w' + {x}) :
    Move t L r w (Function.update L x (L x).unlockWrite) r w'
  /-- a lock that nobody holds is replaced by a new one -/
  | renew {x : X} (h : ∀ t', (L x).readers t' = 0 ∧ (L x).writers t' = 0) :
    Move t L r w (Function.update L x free) r w

theorem Move.frame {r w r' w' : Multiset X} (h : Move t L r w L' r' w') (r₀ w₀ : Multiset X) :
    Move t L (r + r₀) (w + w₀) L' (r' + r₀) (w' + w₀) := by
  cases h with
  | keep => exact .keep
  | read h =>
    rw [add_right_comm]
    exact .read h
  | write h =>
    rw [add_right_comm]
    exact .write h
  | unlockRead h => exact .unlockRead (by rw [h, add_right_comm])
  | unlockWrite h => exact .unlockWrite (by rw [h, add_right_comm])
  | renew h => exact .renew h

namespace Agrees

theorem reader (h : Agrees L R W) (hx : x ∈ R t) : 0 < (L x).readers t := by
  rw [h.readers]
  exact Multiset.count_pos.mpr hx

theorem writer (h : Agrees L R W) (hx : x ∈ W t) : 0 < (L x).writers t := by
  rw [h.writers]
  exact Multiset.count_pos.mpr hx

/-- While a thread holds a lock as the writer, nobody is a reader. -/
theorem not_reader (h : Agrees L R W) (hx : x ∈ W t) : x ∉ R t' := fun hr =>
  (h.reader hr).ne' (readers_eq_zero (h.writer hx) t')

/-- While a thread holds a lock as the writer, nobody else does. -/
theorem writer_eq (h : Agrees L R W) (hx : x ∈ W t) (hx' : x ∈ W t') : t = t' :=
  writer_unique (h.writer hx) (h.writer hx')

/-- While somebody holds a lock, nobody takes it as the writer. -/
theorem write_eq_none (h : Agrees L R W) (hx : x ∈ R t ∨ x ∈ W t) (t' : T) :
    (L x).write t' = none := by
  refine Option.eq_none_iff_forall_ne_some.mpr fun l hl => ?_
  obtain ⟨hr, hw⟩ := write_vacant hl t
  rcases hx with hx | hx
  · exact (h.reader hx).ne' hr
  · exact (h.writer hx).ne' hw

/-- One lock is replaced. -/
theorem update {l : RwLock T} (h : Agrees L R W)
    (hl : ∀ t, l.readers t = (R' t).count x ∧ l.writers t = (W' t).count x)
    (ho : ∀ y ≠ x, ∀ t, (R' t).count y = (R t).count y ∧ (W' t).count y = (W t).count y) :
    Agrees (Function.update L x l) R' W' where
  readers y t := by
    by_cases hy : y = x
    · rw [hy, Function.update_self, (hl t).1]
    · rw [Function.update_of_ne hy, h.readers, (ho y hy t).1]
  writers y t := by
    by_cases hy : y = x
    · rw [hy, Function.update_self, (hl t).2]
    · rw [Function.update_of_ne hy, h.writers, (ho y hy t).2]

/-- **The locks go on to know their holders.** -/
theorem move (h : Agrees L R W) (hm : Move t L (R t) (W t) L' (R' t) (W' t))
    (ho : ∀ t' ≠ t, R' t' = R t' ∧ W' t' = W t') : Agrees L' R' W' := by
  have hself : ∀ (z : Multiset X) (y : X), (z + {y}).count y = z.count y + 1 := fun z y => by
    rw [Multiset.count_add, Multiset.count_singleton_self]
  have hne : ∀ (z : Multiset X) {x y : X}, y ≠ x → (z + {x}).count y = z.count y :=
    fun z x y hy => by rw [Multiset.count_add, Multiset.count_singleton, if_neg hy, add_zero]
  -- what is said of each thread is said of the one that moves and of the others
  have hsplit : ∀ {P : T → Multiset X → Multiset X → Prop}, P t (R' t) (W' t) →
      (∀ t' ≠ t, P t' (R t') (W t')) → ∀ t', P t' (R' t') (W' t') := by
    intro P hP hP' t'
    by_cases ht : t' = t
    · exact ht ▸ hP
    · rw [(ho t' ht).1, (ho t' ht).2]
      exact hP' t' ht
  generalize hr : R' t = r', hw : W' t = w' at hm hsplit
  cases hm with
  | keep =>
    obtain rfl : R' = R := funext (hsplit (P := fun t' r _ => r = R t') rfl fun _ _ => rfl)
    obtain rfl : W' = W := funext (hsplit (P := fun t' _ w => w = W t') rfl fun _ _ => rfl)
    exact h
  | @read x l hl =>
    refine h.update (hsplit (P := fun t' r w => l.readers t' = r.count x ∧ l.writers t' = w.count x)
      ?_ fun t' ht => ?_) fun y hy => hsplit (P := fun t' r w => r.count y = (R t').count y ∧
        w.count y = (W t').count y) ⟨hne _ hy, rfl⟩ fun _ _ => ⟨rfl, rfl⟩
    · rw [readers_read hl, writers_read hl, h.readers, h.writers, if_pos rfl, hself]
      exact ⟨rfl, rfl⟩
    · rw [readers_read hl, writers_read hl, h.readers, h.writers, if_neg ht]
      exact ⟨rfl, rfl⟩
  | @write x l hl =>
    have hv := write_vacant hl
    simp only [h.readers, h.writers] at hv
    refine h.update (hsplit (P := fun t' r w => l.readers t' = r.count x ∧ l.writers t' = w.count x)
      ?_ fun t' ht => ?_) fun y hy => hsplit (P := fun t' r w => r.count y = (R t').count y ∧
        w.count y = (W t').count y) ⟨rfl, hne _ hy⟩ fun _ _ => ⟨rfl, rfl⟩
    · rw [eq_of_write hl, hself, (hv t).1, (hv t).2]
      exact ⟨rfl, by simp [RwLock.writers]⟩
    · rw [eq_of_write hl, (hv t').1, (hv t').2]
      exact ⟨rfl, by simp [RwLock.writers, ht]⟩
  | @unlockRead x _ he =>
    have hmem : x ∈ R t := he ▸ Multiset.mem_add.mpr (.inr (Multiset.mem_singleton_self x))
    have hc := readers_unlockRead (h.reader hmem)
    simp only [h.readers] at hc
    refine h.update (hsplit (P := fun t' r w => ((L x).unlockRead t).readers t' = r.count x ∧
        ((L x).unlockRead t).writers t' = w.count x) ?_ fun t' ht => ?_)
      fun y hy => hsplit (P := fun t' r w => r.count y = (R t').count y ∧
        w.count y = (W t').count y) ⟨(by rw [he, hne _ hy]), rfl⟩ fun _ _ => ⟨rfl, rfl⟩
    · have ht := hc t
      rw [if_pos rfl, he, hself] at ht
      exact ⟨Nat.succ_injective ht, by rw [writers_unlockRead, h.writers]⟩
    · have ht' := hc t'
      rw [if_neg ht, add_zero] at ht'
      exact ⟨ht', by rw [writers_unlockRead, h.writers]⟩
  | @unlockWrite x _ he =>
    have hmem : x ∈ W t := he ▸ Multiset.mem_add.mpr (.inr (Multiset.mem_singleton_self x))
    have hpos := h.writer hmem
    refine h.update (hsplit (P := fun t' r w => (L x).unlockWrite.readers t' = r.count x ∧
        (L x).unlockWrite.writers t' = w.count x) ?_ fun t' ht => ?_)
      fun y hy => hsplit (P := fun t' r w => r.count y = (R t').count y ∧
        w.count y = (W t').count y) ⟨rfl, by rw [he, hne _ hy]⟩ fun _ _ => ⟨rfl, rfl⟩
    · have hone := writers_le_one (l := L x) (t := t)
      rw [h.writers, he, hself] at hone
      rw [readers_unlockWrite hpos, writers_unlockWrite, ← h.readers, readers_eq_zero hpos]
      exact ⟨rfl, by omega⟩
    · rw [readers_unlockWrite hpos, writers_unlockWrite, ← h.readers, readers_eq_zero hpos]
      refine ⟨rfl, (Multiset.count_eq_zero.mpr fun hy => ht ?_).symm⟩
      exact h.writer_eq hy hmem
  | @renew x hv =>
    simp only [h.readers, h.writers] at hv
    refine h.update (hsplit (P := fun t' r w => (free : RwLock T).readers t' = r.count x ∧
        (free : RwLock T).writers t' = w.count x) ?_ fun t' _ => ?_)
      fun y _ => hsplit (P := fun t' r w => r.count y = (R t').count y ∧
        w.count y = (W t').count y) ⟨rfl, rfl⟩ fun _ _ => ⟨rfl, rfl⟩
    · exact ⟨readers_free.trans (hv t).1.symm, (hv t).2.symm⟩
    · exact ⟨readers_free.trans (hv t').1.symm, (hv t').2.symm⟩

end Agrees

end Family

end RwLock
