/-!
The shortest decimal of a double: among the decimals that read back as the double, one with the
fewest digits, and of those the nearest to it; of two equally near ones the larger. It is found in
exact arithmetic, on coarser to finer decimal grids.
-/

namespace TypedStore

/-- The number `digits · 10 ^ exponent`. -/
structure Decimal where
  digits : Nat
  exponent : Int
  deriving DecidableEq, Repr

/-- A positive number and the ends of the interval of numbers that round to it, all over one
denominator. -/
structure Rounding where
  low : Nat
  value : Nat
  high : Nat
  denominator : Nat
  /-- Whether the ends round to it, too. -/
  closed : Bool

namespace Rounding

/-- The interval of a positive finite double, from its bits. The interval below is half as long
where the double is a power of two, other than the smallest normal one. -/
def ofBits (bits : Nat) : Rounding :=
  let fraction : Nat := bits % Nat.pow 2 52
  let exponent : Nat := bits / Nat.pow 2 52 % 2048
  let mantissa := if exponent = 0 then fraction else Nat.pow 2 52 + fraction
  let power : Int := if exponent = 0 then -1076 else (exponent : Int) - 1077
  let below := if fraction = 0 ∧ 1 < exponent then 1 else 2
  let unit := Nat.pow 2 power.toNat
  { low := (4 * mantissa - below) * unit
    value := 4 * mantissa * unit
    high := (4 * mantissa + 2) * unit
    denominator := Nat.pow 2 (-power).toNat
    closed := mantissa % 2 == 0 }

/-- Whether the interval holds the point `n` of a grid: the ends times `scale` and the point times
`step` are over one denominator. -/
def holds (r : Rounding) (scale step n : Nat) : Bool :=
  if r.closed then r.low * scale ≤ n * step && n * step ≤ r.high * scale
  else r.low * scale < n * step && n * step < r.high * scale

/-- The multiple of `10 ^ exponent`, counted in that power, that lies in the interval. Only the two
next to the number can; where both do it is the nearer one, and the larger one of two equally
near. -/
def gridPoint? (r : Rounding) (exponent : Int) : Option Nat :=
  let scale := Nat.pow 10 (-exponent).toNat
  let step := r.denominator * Nat.pow 10 exponent.toNat
  let value := r.value * scale
  let n := value / step
  match r.holds scale step n, r.holds scale step (n + 1) with
  | true, true => if 2 * value < (2 * n + 1) * step then some n else some (n + 1)
  | true, false => some n
  | false, true => some (n + 1)
  | false, false => none

/-- The first hit on the grids from an exponent downwards. -/
def search (r : Rounding) : Nat → Int → Decimal
  | 0, exponent => ⟨0, exponent⟩
  | fuel + 1, exponent =>
    match r.gridPoint? exponent with
    | some n => ⟨n, exponent⟩
    | none => search r fuel (exponent - 1)

/-- The shortest decimal in the interval. The search begins above the number, and seventeen digits
always reach a double. -/
def shortest (r : Rounding) : Decimal :=
  let magnitude : Int := Nat.log2 r.value - Nat.log2 r.denominator + 1
  r.search 21 (magnitude * 30103 / 100000 + 1)

end Rounding

namespace Decimal

/-- The digits with the point in its place, and zeros where the point lies outside of them. -/
def positional (d : Decimal) : String :=
  let digits := (Nat.repr d.digits).toList
  match d.exponent with
  | .ofNat n => String.ofList (digits ++ List.replicate n '0')
  | .negSucc n =>
    let places := n + 1
    let padded := List.replicate (places + 1 - digits.length) '0' ++ digits
    let whole := padded.length - places
    String.ofList (padded.take whole ++ '.' :: padded.drop whole)

/-- A double in its shortest decimal digits, never with an exponent. -/
def ofFloat (x : Float) : String :=
  if x.isNaN then "NaN"
  else
    let bits := x.toBits.toNat
    let magnitude := bits % Nat.pow 2 63
    let text :=
      if magnitude = 0 then "0"
      else if x.isInf then "inf"
      else (Rounding.ofBits magnitude).shortest.positional
    if bits < Nat.pow 2 63 then text else "-" ++ text

end Decimal

end TypedStore
