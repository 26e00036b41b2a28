set_option autoImplicit false

namespace RuleFormula

def Decimal.bound : Nat := 0x1000000000000000000000000

/-- The number `coefficient / 10 ^ scale`. Trailing zeros are part of the scale, so `1.50` and
`1.5` are two decimals of one value. The coefficient has the sign, so that a negative zero has no
value of its own and is the zero of its scale. -/
structure Decimal where
  coefficient : Int
  scale : Nat
  coefficient_lt : coefficient.natAbs < Decimal.bound
  scale_le : scale ≤ 28
  deriving DecidableEq

namespace Decimal

def zero : Decimal := ⟨0, 0, by decide, by decide⟩

instance : Inhabited Decimal := ⟨zero⟩

def neg (d : Decimal) : Decimal :=
  ⟨-d.coefficient, d.scale, by rw [Int.natAbs_neg]; exact d.coefficient_lt, d.scale_le⟩

/-- Writes one more digit behind `d`, as a decimal place if `place` holds. -/
def push? (d : Decimal) (place : Bool) (digit : Nat) : Option Decimal :=
  if h : (d.coefficient * 10 + digit).natAbs < bound ∧ d.scale + place.toNat ≤ 28 then
    some ⟨d.coefficient * 10 + digit, d.scale + place.toNat, h.1, h.2⟩
  else none

def tens (k : Nat) : Nat := Nat.pow 10 k

theorem tens_zero : tens 0 = 1 := rfl

theorem tens_succ (k : Nat) : tens (k + 1) = 10 * tens k := Nat.mul_comm _ _

def sameValue (a b : Decimal) : Bool :=
  a.coefficient * tens b.scale == b.coefficient * tens a.scale

def lowDigits : Nat → Nat → List Char
  | 0, _ => []
  | k + 1, n => lowDigits k (n / 10) ++ [Nat.digitChar (n % 10)]

theorem length_lowDigits (k n : Nat) : (lowDigits k n).length = k := by
  induction k generalizing n with
  | zero => rfl
  | succ k ih => simp [lowDigits, ih]

/-- A sign for negative numbers only, the whole part, and exactly `scale` decimal places. -/
def toText (d : Decimal) : String :=
  let n := d.coefficient.natAbs
  (if d.coefficient < 0 then "-" else "") ++ (n / tens d.scale).repr ++
    (if d.scale = 0 then "" else "." ++ String.ofList (lowDigits d.scale n))

end Decimal

end RuleFormula
