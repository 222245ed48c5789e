import Mathlib.Algebra.Order.Group.Multiset
import Mathlib.Data.Finset.Card
import Mathlib.Data.Multiset.Count
import Mathlib.Tactic.Common

/-!
# Counted references that may be owed

References are counted, but a reference may also be owed: a debt slot contains what it refers to,
and the count does not know of it. Everybody who holds a reference has a claim `(r, o)`, where `o`
is the slot in which the reference may be owed, if any. The books balance when the counts and the
debts make up for all claims, and every debt has a claim that knows its slot. Then a claim that is
not the one that is owed is backed by the count.

Some references are not counted at all: `real` are those that are.
-/

namespace Ledger

variable {ρ δ : Type*} [DecidableEq ρ]

/-! ## Balanced books -/

/-- Claims on references, with the slots in which they may be owed. -/
abbrev Claims (ρ δ : Type*) := Multiset (ρ × Option δ)

/-- The number of the slots in `D` that contain `r`. -/
def debts (D : Finset δ) (slot : δ → Option ρ) (r : ρ) : ℕ :=
  (D.filter fun d => slot d = some r).card

/-- The number of claims on `r`. -/
def claimsOn (x : Claims ρ δ) (r : ρ) : ℕ := x.countP fun c => c.1 = r

@[simp] theorem claimsOn_add (x y : Claims ρ δ) (r : ρ) :
    claimsOn (x + y) r = claimsOn x r + claimsOn y r := Multiset.countP_add _ _ _

@[simp] theorem claimsOn_singleton (r r' : ρ) (o : Option δ) :
    claimsOn {(r', o)} r = if r' = r then 1 else 0 := by
  simp [claimsOn, ← Multiset.cons_zero, Multiset.countP_cons]

/-- The counts and the debts make up for the claims, and every debt is referred to. -/
structure Balanced (real : ρ → Prop) (D : Finset δ) (count : ρ → ℕ) (slot : δ → Option ρ)
    (x : Claims ρ δ) : Prop where
  sum : ∀ r, real r → count r + debts D slot r = claimsOn x r
  inside : ∀ d r, slot d = some r → d ∈ D
  referred : ∀ d r, real r → slot d = some r → (r, some d) ∈ x

variable {real : ρ → Prop} {D : Finset δ} {count count' : ρ → ℕ} {slot slot' : δ → Option ρ}
  {x x' y : Claims ρ δ} {r : ρ} {d : δ} {o : Option δ}

/-! ## What is backed by the count -/

/-- The claims of the debts on `r`, one for each slot. -/
def owed (D : Finset δ) (slot : δ → Option ρ) (r : ρ) : Claims ρ δ :=
  (D.filter fun d => slot d = some r).val.map fun d => (r, some d)

theorem owed_nodup : (owed D slot r).Nodup := by
  refine Multiset.Nodup.map (fun d d' h => ?_) (Finset.nodup _)
  simpa using h

theorem mem_owed {c : ρ × Option δ} :
    c ∈ owed D slot r ↔ ∃ d ∈ D, slot d = some r ∧ (r, some d) = c := by
  simp [owed, and_assoc]

theorem claimsOn_owed : claimsOn (owed D slot r) r = debts D slot r := by
  simp only [claimsOn, owed, debts, Multiset.countP_map, Multiset.filter_true]
  rfl

theorem Balanced.owed_le (h : Balanced real D count slot x) (hr : real r) :
    owed D slot r ≤ x := by
  rw [Multiset.le_iff_subset owed_nodup]
  intro c hc
  obtain ⟨d, -, hs, rfl⟩ := mem_owed.mp hc
  exact h.referred d r hr hs

/-- A claim beside those of the debts is backed by the count. -/
theorem Balanced.pos_of_add_le (h : Balanced real D count slot x) (hr : real r)
    (hx : owed D slot r + {(r, o)} ≤ x) : 0 < count r := by
  have hle : claimsOn (owed D slot r + {(r, o)}) r ≤ claimsOn x r := Multiset.countP_le_of_le _ hx
  rw [claimsOn_add, claimsOn_owed, claimsOn_singleton, if_pos rfl, ← h.sum r hr] at hle
  omega

variable [DecidableEq δ]

/-- **A claim that is not owed is backed by the count.** -/
theorem Balanced.pos (h : Balanced real D count slot x) (hr : real r) (hx : (r, o) ∈ x)
    (ho : ∀ d, o = some d → slot d ≠ some r) : 0 < count r := by
  refine h.pos_of_add_le (o := o) hr (Multiset.le_iff_count.mpr fun c => ?_)
  rw [Multiset.count_add, Multiset.count_singleton]
  split
  · rename_i hc
    subst hc
    have hn : (r, o) ∉ owed D slot r := by
      intro hc
      obtain ⟨d, -, hs, he⟩ := mem_owed.mp hc
      exact ho d (by simpa using he.symm) hs
    rw [Multiset.count_eq_zero_of_notMem hn, zero_add]
    exact Multiset.one_le_count_iff_mem.mpr hx
  · exact Multiset.count_le_of_le c (h.owed_le hr)

/-- Of two claims that know the same slot, one is backed by the count. -/
theorem Balanced.pos_of_two (h : Balanced real D count slot x) (hr : real r)
    (hx : 2 ≤ x.count (r, o)) : 0 < count r := by
  refine h.pos_of_add_le (o := o) hr (Multiset.le_iff_count.mpr fun c => ?_)
  rw [Multiset.count_add, Multiset.count_singleton]
  split
  · rename_i hc
    subst hc
    have hnd : (owed D slot r).Nodup := owed_nodup
    have := Multiset.nodup_iff_count_le_one.mp hnd (r, o)
    omega
  · exact Multiset.count_le_of_le c (h.owed_le hr)

omit [DecidableEq δ] in
theorem none_notMem_owed : (r, none) ∉ owed D slot r := by
  intro hc
  obtain ⟨d, -, -, he⟩ := mem_owed.mp hc
  simp at he

/-- The claims that are not owed in any slot are all backed by the count. -/
theorem Balanced.count_none_le (h : Balanced real D count slot x) (hr : real r) :
    x.count (r, none) ≤ count r := by
  have hle : owed D slot r + Multiset.replicate (x.count (r, none)) (r, none) ≤ x := by
    refine Multiset.le_iff_count.mpr fun c => ?_
    rw [Multiset.count_add, Multiset.count_replicate]
    split
    · rename_i hc
      subst hc
      rw [Multiset.count_eq_zero_of_notMem none_notMem_owed, zero_add]
    · exact Multiset.count_le_of_le c (h.owed_le hr)
  have hclaims := Multiset.countP_le_of_le (fun c => c.1 = r) hle
  have hrep : claimsOn (Multiset.replicate (x.count (r, none)) (r, (none : Option δ))) r =
      x.count (r, none) := by
    rw [claimsOn, Multiset.countP_eq_card.mpr, Multiset.card_replicate]
    intro c hc
    rw [Multiset.eq_of_mem_replicate hc]
  have hsum := h.sum r hr
  change claimsOn _ r ≤ claimsOn x r at hclaims
  rw [claimsOn_add, claimsOn_owed, hrep] at hclaims
  omega

/-- **Claims beside one for each debt are backed by the count**: those in `y` and one more. -/
theorem Balanced.card_lt (h : Balanced real D count slot x) (hr : real r)
    (hy : ∀ c ∈ y, c.1 = r) (hle : y + {(r, none)} ≤ x)
    (hd : ∀ d, slot d = some r → y.count (r, some d) < x.count (r, some d)) :
    y.card < count r := by
  have hxy : owed D slot r + (y + {(r, none)}) ≤ x := by
    refine Multiset.le_iff_count.mpr fun c => ?_
    rw [Multiset.count_add]
    by_cases hc : c ∈ owed D slot r
    · obtain ⟨d, -, hs, rfl⟩ := mem_owed.mp hc
      have h₁ := Multiset.nodup_iff_count_le_one.mp (owed_nodup : (owed D slot r).Nodup)
        (r, some d)
      have h₂ := hd d hs
      rw [Multiset.count_add, Multiset.count_singleton, if_neg (by simp)]
      omega
    · rw [Multiset.count_eq_zero_of_notMem hc, zero_add]
      exact Multiset.count_le_of_le c hle
  have hclaims := Multiset.countP_le_of_le (fun c => c.1 = r) hxy
  have hcard : claimsOn y r = y.card := Multiset.countP_eq_card.mpr hy
  have hsum := h.sum r hr
  change claimsOn _ r ≤ claimsOn x r at hclaims
  rw [claimsOn_add, claimsOn_owed, claimsOn_add, claimsOn_singleton, if_pos rfl, hcard] at hclaims
  omega

/-! ## Entries -/

/-- The same claims, but for references that are not counted. -/
def Same (real : ρ → Prop) (x y : Claims ρ δ) : Prop :=
  ∀ c, real c.1 → x.count c = y.count c

theorem Same.refl (x : Claims ρ δ) : Same real x x := fun _ _ => rfl

theorem Same.of_eq (h : x = y) : Same real x y := h ▸ .refl x

theorem Same.symm (h : Same real x y) : Same real y x := fun c hc => (h c hc).symm

theorem Same.trans {z : Claims ρ δ} (h : Same real x y) (h' : Same real y z) : Same real x z :=
  fun c hc => (h c hc).trans (h' c hc)

/-- A claim on a reference that is not counted does not matter. -/
theorem Same.add_singleton (hr : ¬ real r) (x : Claims ρ δ) : Same real (x + {(r, o)}) x :=
  fun c hc => by
    have hne : c ≠ (r, o) := by
      rintro rfl
      exact hr hc
    rw [Multiset.count_add, Multiset.count_singleton, if_neg hne, add_zero]

theorem Same.add_right (h : Same real x y) (z : Claims ρ δ) :
    Same real (x + z) (y + z) := fun c hc => by
  rw [Multiset.count_add, Multiset.count_add, h c hc]

theorem Same.claimsOn (h : Same real x y) (hr : real r) : claimsOn x r = claimsOn y r := by
  have hf : x.filter (fun c => c.1 = r) = y.filter fun c => c.1 = r := by
    ext c
    rw [Multiset.count_filter, Multiset.count_filter]
    split
    · rename_i hc
      exact h c (hc ▸ hr)
    · rfl
  rw [Ledger.claimsOn, Ledger.claimsOn, Multiset.countP_eq_card_filter, hf,
    Multiset.countP_eq_card_filter]

theorem Same.mem (h : Same real x y) (hr : real r) (hx : (r, o) ∈ x) : (r, o) ∈ y := by
  rw [← Multiset.one_le_count_iff_mem] at hx ⊢
  rwa [← h (r, o) hr]

theorem debts_update_none (hd : d ∈ D) (hs : slot d = some r) (r' : ρ) :
    debts D (Function.update slot d none) r' + (if r = r' then 1 else 0) = debts D slot r' := by
  have he : (D.filter fun d' => Function.update slot d none d' = some r') =
      (D.filter fun d' => slot d' = some r').erase d := by
    ext d'
    by_cases hd' : d' = d
    · simp [hd']
    · simp [hd']
  rw [debts, he, debts]
  split
  · rename_i hr
    have hmem : d ∈ D.filter fun d' => slot d' = some r' := by simp [hd, hs, hr]
    have := Finset.card_pos.mpr ⟨d, hmem⟩
    rw [Finset.card_erase_of_mem hmem]
    omega
  · rename_i hr
    rw [Finset.erase_eq_of_notMem (by simp [hs, hr]), add_zero]

theorem debts_update_some (hd : d ∈ D) (hs : slot d = none) (r' : ρ) :
    debts D (Function.update slot d (some r)) r' = debts D slot r' + if r = r' then 1 else 0 := by
  have h := debts_update_none hd (Function.update_self d (some r) slot) r'
  rw [Function.update_idem, ← hs, Function.update_eq_self] at h
  exact h.symm

omit [DecidableEq ρ] in
theorem of_update_none {d' : δ} {r' : ρ}
    (hs : Function.update slot d none d' = some r') : d' ≠ d ∧ slot d' = some r' := by
  by_cases hd : d' = d
  · simp [hd] at hs
  · exact ⟨hd, by simpa [hd] using hs⟩

namespace Balanced

theorem same (h : Balanced real D count slot x) (hx : Same real x' x) :
    Balanced real D count slot x' where
  sum r hr := by rw [h.sum r hr, hx.claimsOn hr]
  inside := h.inside
  referred d r hr hs := hx.symm.mem hr (h.referred d r hr hs)

omit [DecidableEq δ] in
/-- A reference is cloned. -/
theorem inc (h : Balanced real D count slot x) :
    Balanced real D (Function.update count r (count r + 1)) slot (x + {(r, none)}) where
  sum r' hr := by
    have := h.sum r' hr
    by_cases hr' : r' = r
    · subst hr'
      simp only [Function.update_self, claimsOn_add, claimsOn_singleton, if_true]
      omega
    · simpa [hr', Ne.symm hr'] using this
  inside := h.inside
  referred d r' hr hs := Multiset.mem_add.mpr (.inl (h.referred d r' hr hs))

/-- A reference is dropped that is backed by the count. -/
theorem dec (h : Balanced real D count slot (x + {(r, none)})) (hr : real r) :
    Balanced real D (Function.update count r (count r - 1)) slot x where
  sum r' hr' := by
    have hpos := h.pos hr (Multiset.mem_add.mpr (.inr (Multiset.mem_singleton_self _))) (by simp)
    have := h.sum r' hr'
    by_cases he : r' = r
    · subst he
      simp only [claimsOn_add, claimsOn_singleton, if_true] at this
      simp only [Function.update_self]
      omega
    · simpa [he, Ne.symm he] using this
  inside := h.inside
  referred d r' hr' hs := by
    have := h.referred d r' hr' hs
    simpa using this

/-- A reference is owed. -/
theorem fill (h : Balanced real D count slot x) (hd : d ∈ D) (hs : slot d = none) :
    Balanced real D count (Function.update slot d (some r)) (x + {(r, some d)}) where
  sum r' hr := by
    rw [debts_update_some hd hs, ← add_assoc, h.sum r' hr]
    simp
  inside d' r' hs' := by
    by_cases hd' : d' = d
    · exact hd' ▸ hd
    · exact h.inside d' r' (by simpa [hd'] using hs')
  referred d' r' hr hs' := by
    by_cases hd' : d' = d
    · subst hd'
      obtain rfl : r = r' := by simpa using hs'
      simp
    · exact Multiset.mem_add.mpr (.inl (h.referred d' r' hr (by simpa [hd'] using hs')))

/-- What remains of the debts when a slot is emptied. -/
theorem update_none (h : Balanced real D count slot x) (hs : slot d = some r) (r' : ρ)
    (hr : real r') :
    count r' + debts D (Function.update slot d none) r' + (if r = r' then 1 else 0) =
      claimsOn x r' := by
  rw [add_assoc, debts_update_none (h.inside d r hs) hs, h.sum r' hr]

/-- A debt is given back together with its claim. -/
theorem settle (h : Balanced real D count slot (x + {(r, some d)})) (hs : slot d = some r) :
    Balanced real D count (Function.update slot d none) x where
  sum r' hr := by
    have := h.update_none hs r' hr
    simp only [claimsOn_add, claimsOn_singleton] at this
    omega
  inside d' r' hs' := h.inside d' r' (of_update_none hs').2
  referred d' r' hr hs' := by
    obtain ⟨hd, hs'⟩ := of_update_none hs'
    rcases Multiset.mem_add.mp (h.referred d' r' hr hs') with hx | hx
    · exact hx
    · simp [hd] at hx

/-- A debt is paid with another reference. -/
theorem payFor (h : Balanced real D count slot (x + {(r, none)})) (hs : slot d = some r) :
    Balanced real D count (Function.update slot d none) x where
  sum r' hr := by
    have := h.update_none hs r' hr
    simp only [claimsOn_add, claimsOn_singleton] at this
    omega
  inside d' r' hs' := h.inside d' r' (of_update_none hs').2
  referred d' r' hr hs' := by
    have := h.referred d' r' hr (of_update_none hs').2
    simpa using this

/-- A slot is emptied of a reference that is not counted. -/
theorem void (h : Balanced real D count slot x) (hr : ¬ real r) (hs : slot d = some r) :
    Balanced real D count (Function.update slot d none) x where
  sum r' hr' := by
    have hne : r ≠ r' := by
      rintro rfl
      exact hr hr'
    have := h.update_none hs r' hr'
    rwa [if_neg hne, add_zero] at this
  inside d' r' hs' := h.inside d' r' (of_update_none hs').2
  referred d' r' hr hs' := h.referred d' r' hr (of_update_none hs').2

omit [DecidableEq δ] in
/-- A claim forgets a slot in which it is not owed. -/
theorem forget (h : Balanced real D count slot (x + {(r, some d)})) (hs : slot d ≠ some r) :
    Balanced real D count slot (x + {(r, none)}) where
  sum r' hr := by simpa using h.sum r' hr
  inside := h.inside
  referred d' r' hr hs' := by
    rcases Multiset.mem_add.mp (h.referred d' r' hr hs') with hx | hx
    · exact Multiset.mem_add.mpr (.inl hx)
    · have : r' = r ∧ d' = d := by simpa using hx
      exact absurd (this.1 ▸ this.2 ▸ hs') hs

omit [DecidableEq δ] in
/-- There may be more slots. -/
theorem grow {D' : Finset δ} (h : Balanced real D count slot x) (hD : D ⊆ D') :
    Balanced real D' count slot x where
  sum r hr := by
    rw [← h.sum r hr, debts, debts]
    congr 2
    ext d
    simp only [Finset.mem_filter]
    exact ⟨fun hd => ⟨h.inside d r hd.2, hd.2⟩, fun hd => ⟨hD hd.1, hd.2⟩⟩
  inside d r hs := hD (h.inside d r hs)
  referred := h.referred

end Balanced

/-- What one of those who hold claims does: the counts, the slots and its claims before and
after. -/
inductive Move (real : ρ → Prop) (D : Finset δ) (count : ρ → ℕ) (slot : δ → Option ρ)
    (x : Claims ρ δ) : (ρ → ℕ) → (δ → Option ρ) → Claims ρ δ → Prop
  | keep {x' : Claims ρ δ} (hx : Same real x' x) : Move real D count slot x count slot x'
  | inc {r : ρ} {x' : Claims ρ δ} (hx : Same real x' (x + {(r, none)})) :
    Move real D count slot x (Function.update count r (count r + 1)) slot x'
  | dec {r : ρ} {x' : Claims ρ δ} (hr : real r) (hx : Same real (x' + {(r, none)}) x) :
    Move real D count slot x (Function.update count r (count r - 1)) slot x'
  | fill {r : ρ} {d : δ} {x' : Claims ρ δ} (hd : d ∈ D) (hs : slot d = none)
      (hx : Same real x' (x + {(r, some d)})) :
    Move real D count slot x count (Function.update slot d (some r)) x'
  | settle {r : ρ} {d : δ} {x' : Claims ρ δ} (hs : slot d = some r)
      (hx : Same real (x' + {(r, some d)}) x) :
    Move real D count slot x count (Function.update slot d none) x'
  | payFor {r : ρ} {d : δ} {x' : Claims ρ δ} (hs : slot d = some r)
      (hx : Same real (x' + {(r, none)}) x) :
    Move real D count slot x count (Function.update slot d none) x'
  | void {r : ρ} {d : δ} {x' : Claims ρ δ} (hr : ¬ real r) (hs : slot d = some r)
      (hx : Same real x' x) : Move real D count slot x count (Function.update slot d none) x'
  | forget {r : ρ} {d : δ} {x' z : Claims ρ δ} (hs : slot d ≠ some r)
      (hx : Same real (z + {(r, some d)}) x)
      (hx' : Same real x' (z + {(r, none)})) : Move real D count slot x count slot x'

theorem Move.frame (h : Move real D count slot x count' slot' x') (y : Claims ρ δ) :
    Move real D count slot (x + y) count' slot' (x' + y) := by
  cases h with
  | keep hx => exact .keep (hx.add_right y)
  | inc hx => exact .inc (by rw [add_right_comm]; exact hx.add_right y)
  | dec hr hx => exact .dec hr (by rw [add_right_comm]; exact hx.add_right y)
  | fill hd hs hx => exact .fill hd hs (by rw [add_right_comm]; exact hx.add_right y)
  | settle hs hx => exact .settle hs (by rw [add_right_comm]; exact hx.add_right y)
  | payFor hs hx => exact .payFor hs (by rw [add_right_comm]; exact hx.add_right y)
  | void hr hs hx => exact .void hr hs (hx.add_right y)
  | @forget _ _ _ z hs hx hx' =>
    exact .forget (z := z + y) hs (by rw [add_right_comm]; exact hx.add_right y)
      (by rw [add_right_comm]; exact hx'.add_right y)

/-- A debt that is there afterwards was there before, and its claims have not become fewer; or it is
new and has a claim of its own. -/
theorem Move.debt (h : Move real D count slot x count' slot' x') (hr : real r)
    (hs : slot' d = some r) :
    (slot d = some r ∧ x.count (r, some d) ≤ x'.count (r, some d)) ∨
      (slot d = none ∧ x.count (r, some d) < x'.count (r, some d)) := by
  have hnone : ∀ r₁ : ρ, Multiset.count (r, some d) ({(r₁, none)} : Claims ρ δ) = 0 := fun r₁ =>
    Multiset.count_eq_zero_of_notMem (by simp)
  cases h with
  | keep hx => exact .inl ⟨hs, (hx _ hr).ge⟩
  | inc hx =>
    refine .inl ⟨hs, ?_⟩
    rw [hx _ hr, Multiset.count_add, hnone, add_zero]
  | dec _ hx =>
    refine .inl ⟨hs, ?_⟩
    rw [← hx _ hr, Multiset.count_add, hnone, add_zero]
  | @fill r₁ d₁ _ _ hs₁ hx =>
    by_cases hd : d = d₁
    · subst hd
      obtain rfl : r₁ = r := by simpa using hs
      refine .inr ⟨hs₁, ?_⟩
      rw [hx _ hr, Multiset.count_add, Multiset.count_singleton_self]
      exact Nat.lt_succ_self _
    · refine .inl ⟨by simpa [hd] using hs, ?_⟩
      rw [hx _ hr, Multiset.count_add]
      exact Nat.le_add_right _ _
  | @settle r₁ d₁ _ _ hx =>
    obtain ⟨hd, hs⟩ := of_update_none hs
    refine .inl ⟨hs, ?_⟩
    rw [← hx _ hr, Multiset.count_add, Multiset.count_singleton, if_neg (by simp [hd]), add_zero]
  | payFor _ hx =>
    refine .inl ⟨(of_update_none hs).2, ?_⟩
    rw [← hx _ hr, Multiset.count_add, hnone, add_zero]
  | void _ _ hx => exact .inl ⟨(of_update_none hs).2, (hx _ hr).ge⟩
  | @forget r₁ d₁ _ z hs₁ hx hx' =>
    have hne : (r, some d) ≠ (r₁, some d₁) := by
      rintro ⟨⟩
      exact hs₁ hs
    refine .inl ⟨hs, ?_⟩
    rw [hx' _ hr, ← hx _ hr, Multiset.count_add, Multiset.count_add, hnone,
      Multiset.count_singleton, if_neg hne]

/-- **The books stay balanced.** -/
theorem Balanced.move (h : Balanced real D count slot x)
    (hm : Move real D count slot x count' slot' x') : Balanced real D count' slot' x' := by
  cases hm with
  | keep hx => exact h.same hx
  | inc hx => exact h.inc.same hx
  | dec hr hx => exact (h.same hx).dec hr
  | fill hd hs hx => exact (h.fill hd hs).same hx
  | settle hs hx => exact (h.same hx).settle hs
  | payFor hs hx => exact (h.same hx).payFor hs
  | void hr hs hx => exact (h.void hr hs).same hx
  | forget hs hx hx' => exact ((h.same hx).forget hs).same hx'

end Ledger
