import TypedStore.Decimal

/-!
Decimal floating-point numbers of 128 bits and how they are written: plainly where the exponent is
neither positive nor far below zero, else with one digit before the point and an exponent.
-/

namespace TypedStore

/-- A decimal floating-point number of 128 bits, as its bytes, the least significant one first. They
are told apart by their bytes. -/
structure Decimal128 where
  bytes : List UInt8
  length_eq : bytes.length = 16
  deriving DecidableEq, Repr

namespace Decimal128

/-- What the bits below the sign stand for. -/
inductive Magnitude where
  | nan
  | infinity
  | finite (d : Decimal)

/-- The bits as one number. -/
def bits (d : Decimal128) : Nat := d.bytes.foldr (fun b n => b.toNat + 256 * n) 0

/-- The magnitude, from the bits. A coefficient of more than 34 digits counts as zero, as do all
that begin with the longer prefix. -/
def magnitude (d : Decimal128) : Magnitude :=
  let prefixBits := d.bits / Nat.pow 2 122 % 32
  if prefixBits = 31 then .nan
  else if prefixBits = 30 then .infinity
  else if 24 ≤ prefixBits then .finite ⟨0, (d.bits / Nat.pow 2 111 % Nat.pow 2 14 : Nat) - 6176⟩
  else
    let coefficient := d.bits % Nat.pow 2 113
    .finite ⟨if coefficient < Nat.pow 10 34 then coefficient else 0,
      (d.bits / Nat.pow 2 113 % Nat.pow 2 14 : Nat) - 6176⟩

/-- One digit, the others after the point, and the exponent that makes up for that. -/
def scientific (d : Decimal) : String :=
  let digits := (Nat.repr d.digits).toList
  let exponent := d.exponent + (digits.length : Int) - 1
  let fraction := if digits.length ≤ 1 then [] else '.' :: digits.drop 1
  String.ofList (digits.take 1 ++ fraction) ++ "E" ++ (if 0 < exponent then "+" else "")
    ++ Int.repr exponent

/-- The number as it is written. A NaN has no sign. -/
def text (d : Decimal128) : String :=
  let sign := if d.bits < Nat.pow 2 127 then "" else "-"
  match d.magnitude with
  | .nan => "NaN"
  | .infinity => sign ++ "Infinity"
  | .finite n =>
    let leading := n.exponent + ((Nat.repr n.digits).length : Int) - 1
    sign ++ if n.exponent ≤ 0 ∧ -6 ≤ leading then n.positional else scientific n

end Decimal128

end TypedStore
