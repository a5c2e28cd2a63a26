import TypedStore.Value

/-!
Numbers. The two integer widths are one kind of number; an integer and a double meet as doubles.
Integer arithmetic is exact or has no answer: `ofInt` is null for a number outside the 64-bit
range, so no operation wraps (`ofInt_toInt`, `ofInt_eq_null_iff`).
-/

namespace TypedStore

/-- A number, whatever the width it is held in. -/
inductive Number where
  | int (n : Int64)
  | float (x : Float)

namespace Number

/-- The double nearest to the number. -/
def toFloat : Number → Float
  | .int n => n.toFloat
  | .float x => x

/-- Integers are equal when they are the same; otherwise the doubles decide. -/
def equal : Number → Number → Bool
  | .int a, .int b => a == b
  | a, b => a.toFloat == b.toFloat

/-- The order of two doubles; a NaN is in no order with anything. -/
def compareFloats? (a b : Float) : Option Ordering :=
  if a < b then some .lt
  else if a == b then some .eq
  else if b < a then some .gt
  else none

/-- The order of integers is that of the integers; otherwise the doubles decide. -/
def compare? : Number → Number → Option Ordering
  | .int a, .int b => some (compare a b)
  | a, b => compareFloats? a.toFloat b.toFloat

end Number

namespace Value

/-- The number a value is, if it is one. -/
def number? : Value → Option Number
  | .int32 n => some (.int n.toInt64)
  | .int64 n => some (.int n)
  | .double x => some (.float x)
  | _ => none

/-- The integer a value is, of either width. -/
def integer? : Value → Option Int64
  | .int32 n => some n.toInt64
  | .int64 n => some n
  | _ => none

/-- The least integer that 64 bits hold. -/
def minInteger : Int := -9223372036854775808

/-- The greatest integer that 64 bits hold. -/
def maxInteger : Int := 9223372036854775807

/-- The integer as a value, or null when 64 bits do not hold it. -/
def ofInt (n : Int) : Value :=
  if minInteger ≤ n ∧ n ≤ maxInteger then .int64 (Int64.ofInt n) else .null

theorem ofInt_eq_null_iff {n : Int} : ofInt n = .null ↔ n < minInteger ∨ maxInteger < n := by
  unfold ofInt
  split
  next h => simp; omega
  next h => simp; omega

theorem ofInt_toInt (n : Int64) : ofInt n.toInt = .int64 n := by
  have h₁ : minInteger ≤ n.toInt := n.le_toInt
  have h₂ : n.toInt < maxInteger + 1 := n.toInt_lt
  unfold ofInt
  rw [if_pos ⟨h₁, by omega⟩, Int64.ofInt_toInt]

end Value

end TypedStore
