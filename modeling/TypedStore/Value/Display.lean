import TypedStore.Value
import TypedStore.Decimal
import TypedStore.Text.Base64
import TypedStore.Text.Hex

/-!
Values as they are shown in expressions and in error texts. Texts stand in quotes without any
escaping; documents show their entries in insertion order; of code only its text is shown.
-/

namespace TypedStore

/-- A special value as it is shown. -/
def Special.display : Special → String
  | .undefined => "undefined"
  | .minKey => "MinKey"
  | .maxKey => "MaxKey"
  | .objectId id => "ObjectId(\"" ++ Hex.ofBytes id.bytes ++ "\")"
  | .binary subtype bytes =>
    "Binary(0x" ++ String.ofList (Nat.toDigits 16 subtype.toNat) ++ ", " ++ Base64.ofBytes bytes
      ++ ")"
  | .timestamp time increment =>
    "Timestamp(" ++ Nat.repr time.toNat ++ ", " ++ Nat.repr increment.toNat ++ ")"
  | .symbol text => "Symbol(\"" ++ text ++ "\")"
  | .code text => text
  | .regularExpression pattern options => "/" ++ pattern ++ "/" ++ options
  | .decimal128 d => d.text
  | .dbPointer collection id =>
    "DbPointer(" ++ collection ++ ", " ++ Hex.ofBytes id.bytes ++ ")"

namespace Value

mutual

/-- A value as it is shown. -/
def display : Value → String
  | .null => "null"
  | .bool true => "true"
  | .bool false => "false"
  | .int32 n => Int.repr n.toInt
  | .int64 n => Int.repr n.toInt
  | .double x => Decimal.ofFloat x
  | .dateTime millis => "DateTime(" ++ Int.repr millis.toInt ++ ")"
  | .string text => "\"" ++ text ++ "\""
  | .array items => "[" ++ String.intercalate ", " (displayItems items) ++ "]"
  | .document [] => "\x7b\x7d"
  | .document (e :: rest) =>
    "\x7b " ++ String.intercalate ", " (displayEntries (e :: rest)) ++ " \x7d"
  | .special s => s.display
  | .codeWithScope text _ => text

/-- The items of an array as they are shown. -/
def displayItems : List Value → List String
  | [] => []
  | v :: rest => display v :: displayItems rest

/-- The entries of a document as they are shown. -/
def displayEntries : List (String × Value) → List String
  | [] => []
  | (k, v) :: rest => ("\"" ++ k ++ "\": " ++ display v) :: displayEntries rest

end

end Value

end TypedStore
