import Mathlib.Data.Nat.Bitwise

/-!
# The words of `control`

A control word is `IDLE`, a generation with `GEN_TAG`, or the address of an envelope with
`REPLACEMENT_TAG`. The two lowest bits are the tag: generations grow in steps of four, and
envelopes are aligned to four bytes.
-/

namespace ArcSwap

/-- `IDLE`. -/
def idle : ℕ := 0

/-- `REPLACEMENT_TAG`. -/
def replacementTag : ℕ := 0b01

/-- `GEN_TAG`. -/
def genTag : ℕ := 0b10

/-- `TAG_MASK`. -/
def tagMask : ℕ := 0b11

/-- `control & TAG_MASK`. -/
def tag (w : ℕ) : ℕ := w &&& tagMask

/-- `control & !TAG_MASK`. -/
def clearTag (w : ℕ) : ℕ := w - tag w

/-- `gen | GEN_TAG`. -/
def genWord (g : ℕ) : ℕ := g ||| genTag

/-- `space | REPLACEMENT_TAG`. -/
def replacementWord (e : ℕ) : ℕ := e ||| replacementTag

/-- A generation without its tag. -/
def IsGen (g : ℕ) : Prop := g % 4 = 0

/-- The address of an envelope. -/
def IsEnvelope (e : ℕ) : Prop := e % 4 = 0

/-- The words that a helper finds in a control. -/
def ValidWord (w : ℕ) : Prop := w = idle ∨ tag w = genTag ∨ tag w = replacementTag

theorem tag_eq_mod (w : ℕ) : tag w = w % 4 := Nat.and_two_pow_sub_one_eq_mod w 2

@[simp] theorem tag_idle : tag idle = idle := rfl

theorem isGen_zero : IsGen 0 := rfl

theorem IsGen.next {g k : ℕ} (hk : 2 ≤ k) (h : IsGen g) : IsGen ((g + 4) % 2 ^ k) := by
  have h4 : 4 ∣ 2 ^ k := pow_dvd_pow 2 hk
  have : 4 ∣ g + 4 := Nat.dvd_add (Nat.dvd_of_mod_eq_zero h) (dvd_refl 4)
  exact Nat.mod_eq_zero_of_dvd ((Nat.dvd_mod_iff h4).mpr this)

theorem IsGen.and_genTag {g : ℕ} (h : IsGen g) : g &&& genTag = 0 := by
  have hle : g &&& genTag ≤ genTag := Nat.and_le_right
  have hmod : (g &&& genTag) % 2 ^ 2 = (g % 2 ^ 2) &&& (genTag % 2 ^ 2) := Nat.and_mod_two_pow
  rw [show g % 2 ^ 2 = 0 from h, Nat.zero_and] at hmod
  rwa [Nat.mod_eq_of_lt (lt_of_le_of_lt hle (by decide))] at hmod

theorem IsGen.genWord_eq {g : ℕ} (h : IsGen g) : genWord g = g + 2 := by
  obtain ⟨k, rfl⟩ := Nat.dvd_of_mod_eq_zero h
  exact (Nat.two_pow_add_eq_or_of_lt (i := 2) (b := 2) (by decide) k).symm

theorem IsGen.tag_genWord {g : ℕ} (h : IsGen g) : tag (genWord g) = genTag := by
  simp only [h.genWord_eq, tag_eq_mod, genTag, IsGen] at h ⊢
  omega

theorem IsEnvelope.replacementWord_eq {e : ℕ} (h : IsEnvelope e) : replacementWord e = e + 1 := by
  obtain ⟨k, rfl⟩ := Nat.dvd_of_mod_eq_zero h
  exact (Nat.two_pow_add_eq_or_of_lt (i := 2) (b := 1) (by decide) k).symm

theorem IsEnvelope.tag_replacementWord {e : ℕ} (h : IsEnvelope e) :
    tag (replacementWord e) = replacementTag := by
  simp only [h.replacementWord_eq, tag_eq_mod, replacementTag, IsEnvelope] at h ⊢
  omega

theorem IsEnvelope.clearTag_replacementWord {e : ℕ} (h : IsEnvelope e) :
    clearTag (replacementWord e) = e := by
  simp only [clearTag, h.replacementWord_eq, tag_eq_mod, IsEnvelope] at h ⊢
  omega

theorem isEnvelope_clearTag (w : ℕ) : IsEnvelope (clearTag w) := by
  simp only [clearTag, tag_eq_mod, IsEnvelope]
  omega

theorem IsEnvelope.tag_eq {e : ℕ} (h : IsEnvelope e) : tag e = 0 := by
  rw [tag_eq_mod]
  exact h

end ArcSwap
