/-!
Base64 text with the standard alphabet: four characters for three bytes, padded with `=` at the
end.
-/

namespace TypedStore.Base64

/-- The character of six bits. -/
def digit (n : Nat) : Char :=
  if n < 26 then Char.ofNat (65 + n)
  else if n < 52 then Char.ofNat (71 + n)
  else if n < 62 then Char.ofNat (n - 4)
  else if n = 62 then '+'
  else '/'

/-- The character of the six bits of `n` that begin at a place counted from the right. -/
def sextet (n place : Nat) : Char := digit (n >>> place % 64)

/-- The characters of some bytes. -/
def encode : List UInt8 → List Char
  | [] => []
  | [a] =>
    let n := a.toNat <<< 16
    [sextet n 18, sextet n 12, '=', '=']
  | [a, b] =>
    let n := a.toNat <<< 16 + b.toNat <<< 8
    [sextet n 18, sextet n 12, sextet n 6, '=']
  | a :: b :: c :: rest =>
    let n := a.toNat <<< 16 + b.toNat <<< 8 + c.toNat
    sextet n 18 :: sextet n 12 :: sextet n 6 :: sextet n 0 :: encode rest

/-- The base64 text of some bytes. -/
def ofBytes (bytes : List UInt8) : String := String.ofList (encode bytes)

end TypedStore.Base64
