import Mathlib.Algebra.Order.Ring.Int
import Mathlib.Tactic.Common
import Mathlib.Order.Defs.Unbundled

/-!
# Comparison functions

A comparison function in the manner of C returns a negative number, zero or a positive number. It
describes a total preorder (`IsCmpFn`) when exchanging its arguments exchanges the signs and being
at most zero is transitive. Elements that compare as zero are equal as far as the order can tell.
-/

namespace LibSrsBsns

variable {α : Type} {cmp : α → α → ℤ} {a b c : α}

/-- The function `cmp` describes a total preorder. -/
structure IsCmpFn (cmp : α → α → ℤ) : Prop where
  flip : ∀ a b, cmp a b < 0 ↔ 0 < cmp b a
  le_trans : ∀ {a b c}, cmp a b ≤ 0 → cmp b c ≤ 0 → cmp a c ≤ 0

/-- The order that a comparison function describes. -/
def CmpLe (cmp : α → α → ℤ) (a b : α) : Prop := cmp a b ≤ 0

namespace IsCmpFn

variable (h : IsCmpFn cmp)
include h

theorem self (a : α) : cmp a a = 0 := by
  have := h.flip a a
  omega

theorem not_lt : ¬ cmp a b < 0 ↔ cmp b a ≤ 0 := by
  rw [h.flip]
  omega

theorem eq_comm : cmp a b = 0 ↔ cmp b a = 0 := by
  have h₁ := h.flip a b
  have h₂ := h.flip b a
  omega

theorem lt_of_lt_of_le (hab : cmp a b < 0) (hbc : cmp b c ≤ 0) : cmp a c < 0 := by
  by_contra hac
  have hba := h.le_trans hbc (h.not_lt.1 hac)
  have := h.flip a b
  omega

theorem lt_of_le_of_lt (hab : cmp a b ≤ 0) (hbc : cmp b c < 0) : cmp a c < 0 := by
  by_contra hac
  have hcb := h.le_trans (h.not_lt.1 hac) hab
  have := h.flip b c
  omega

theorem lt_trans (hab : cmp a b < 0) (hbc : cmp b c < 0) : cmp a c < 0 :=
  h.lt_of_lt_of_le hab hbc.le

/-- Equal elements compare alike with any other. -/
theorem lt_congr_left (hab : cmp a b = 0) : cmp a c < 0 ↔ cmp b c < 0 :=
  ⟨h.lt_of_le_of_lt (h.eq_comm.1 hab).le, h.lt_of_le_of_lt hab.le⟩

theorem lt_congr_right (hab : cmp a b = 0) : cmp c a < 0 ↔ cmp c b < 0 :=
  ⟨fun hc => h.lt_of_lt_of_le hc hab.le, fun hc => h.lt_of_lt_of_le hc (h.eq_comm.1 hab).le⟩

theorem eq_congr_left (hab : cmp a b = 0) : cmp a c = 0 ↔ cmp b c = 0 := by
  have h₁ := h.lt_congr_left hab (c := c)
  have h₂ := h.lt_congr_right hab (c := c)
  have h₃ := h.flip c a
  have h₄ := h.flip c b
  omega

theorem eq_trans (hab : cmp a b = 0) (hbc : cmp b c = 0) : cmp a c = 0 :=
  (h.eq_congr_left hab).2 hbc

theorem isPreorder : IsPreorder α (CmpLe cmp) where
  refl a := (h.self a).le
  trans _ _ _ := h.le_trans

end IsCmpFn

end LibSrsBsns
