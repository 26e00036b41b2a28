import Mathlib.Algebra.Field.Rat
import Mathlib.Algebra.Order.Field.Basic
import Mathlib.Algebra.Order.Ring.Rat
import RuleFormula.Decimal.Basic

/-! Decimals as rational numbers. They are compared by these, so that the comparison is an
equivalence. -/
set_option autoImplicit false

namespace RuleFormula.Decimal

theorem tens_pos (k : Nat) : 0 < tens k := Nat.pow_pos (by decide)

/-- The number that a decimal is. -/
def value (d : Decimal) : Rat := d.coefficient / (tens d.scale : Nat)

theorem sameValue_iff {a b : Decimal} : a.sameValue b = true ↔ a.value = b.value := by
  have ha : ((tens a.scale : Nat) : Rat) ≠ 0 := Nat.cast_ne_zero.2 (tens_pos a.scale).ne'
  have hb : ((tens b.scale : Nat) : Rat) ≠ 0 := Nat.cast_ne_zero.2 (tens_pos b.scale).ne'
  rw [value, value, div_eq_div_iff ha hb, sameValue, beq_iff_eq]
  norm_cast

theorem sameValue_comm (a b : Decimal) : a.sameValue b = b.sameValue a := by
  rw [Bool.eq_iff_iff, sameValue_iff, sameValue_iff, eq_comm]

theorem value_nonneg_iff (d : Decimal) : 0 ≤ d.value ↔ 0 ≤ d.coefficient := by
  have hd : (0 : Rat) < (tens d.scale : Nat) := Nat.cast_pos.2 (tens_pos d.scale)
  rw [value, le_div_iff₀ hd, zero_mul, Int.cast_nonneg_iff]

theorem coefficient_nonneg_iff {a b : Decimal} (h : a.sameValue b = true) :
    0 ≤ a.coefficient ↔ 0 ≤ b.coefficient := by
  rw [← value_nonneg_iff, ← value_nonneg_iff, sameValue_iff.1 h]

end RuleFormula.Decimal
