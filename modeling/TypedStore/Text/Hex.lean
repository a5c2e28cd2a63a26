/-!
Hexadecimal text: lower-case digits, the most significant first. `toNat?` and `toBytes?` read the
digits of both cases and nothing else.
-/

namespace TypedStore.Hex

/-- The digit of a number below sixteen. -/
def digit (n : Nat) : Char := if n < 10 then Char.ofNat (48 + n) else Char.ofNat (87 + n)

/-- The number of a digit. -/
def digitValue? (c : Char) : Option Nat :=
  if '0' ≤ c ∧ c ≤ '9' then some (c.toNat - 48)
  else if 'a' ≤ c ∧ c ≤ 'f' then some (c.toNat - 87)
  else if 'A' ≤ c ∧ c ≤ 'F' then some (c.toNat - 55)
  else none

/-- The last digits of a number, as many as asked for. -/
def ofNat : Nat → Nat → List Char
  | 0, _ => []
  | width + 1, n => ofNat width (n / 16) ++ [digit (n % 16)]

/-- Two digits for each byte. -/
def ofBytes (bytes : List UInt8) : String :=
  String.ofList (bytes.flatMap fun b => ofNat 2 b.toNat)

/-- The number that some digits spell. -/
def toNat? (digits : List Char) : Option Nat :=
  digits.foldlM (fun n c => (digitValue? c).map (16 * n + ·)) 0

/-- The bytes that pairs of digits spell. -/
def pairs? : List Char → Option (List UInt8)
  | [] => some []
  | [_] => none
  | c :: d :: rest => do
    let high ← digitValue? c
    let low ← digitValue? d
    let bytes ← pairs? rest
    some (UInt8.ofNat (16 * high + low) :: bytes)

/-- The bytes that a hexadecimal text spells. -/
def toBytes? (text : String) : Option (List UInt8) := pairs? text.toList

theorem digitValue?_digit : ∀ n : Fin 16, digitValue? (digit n) = some n.val := by decide

/-- Every list of bytes is read back from its text. -/
theorem toBytes?_ofBytes (bytes : List UInt8) : toBytes? (ofBytes bytes) = some bytes := by
  rw [toBytes?, ofBytes, String.toList_ofList]
  induction bytes with
  | nil => rfl
  | cons b rest ih =>
    have hb : b.toNat < 256 := b.toNat_lt
    have high := digitValue?_digit ⟨b.toNat / 16 % 16, by omega⟩
    have low := digitValue?_digit ⟨b.toNat % 16, by omega⟩
    have whole : UInt8.ofNat (16 * (b.toNat / 16 % 16) + b.toNat % 16) = b := by
      rw [show 16 * (b.toNat / 16 % 16) + b.toNat % 16 = b.toNat by omega, UInt8.ofNat_toNat]
    rw [List.flatMap_cons, show ofNat 2 b.toNat = [digit (b.toNat / 16 % 16), digit (b.toNat % 16)]
      from rfl, List.cons_append, List.singleton_append, pairs?]
    simp only at high low
    simp only [high, low, ih, Option.bind_eq_bind, Option.bind_some, whole]

end TypedStore.Hex
