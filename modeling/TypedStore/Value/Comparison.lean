import TypedStore.Value.Number

/-!
The two equalities, the order and the truth of values.

`identical` distinguishes every kind of value, integer widths included. `equal` compares numbers
as numbers, and so it does inside arrays and documents, but not in the scope of a piece of code.
Neither looks at the order of a document's keys, and to both a NaN differs from itself. `compare?`
orders booleans, numbers, dates and texts and nothing else. `truthy` is how a condition reads a
value.
-/

namespace TypedStore.Value

mutual

/-- Equality of kind and content, whatever the order of a document's keys. -/
def identical : Value → Value → Bool
  | .null, .null => true
  | .bool a, .bool b => a == b
  | .int32 a, .int32 b => a == b
  | .int64 a, .int64 b => a == b
  | .double a, .double b => a == b
  | .dateTime a, .dateTime b => a == b
  | .string a, .string b => a == b
  | .special a, .special b => a == b
  | .array a, .array b => identicalItems a b
  | .document a, .document b => a.length == b.length && identicalEntries a b
  | .codeWithScope s a, .codeWithScope t b =>
    s == t && (a.length == b.length && identicalEntries a b)
  | _, _ => false

/-- Arrays are identical place by place. -/
def identicalItems : List Value → List Value → Bool
  | [], [] => true
  | v :: a, w :: b => identical v w && identicalItems a b
  | _, _ => false

/-- Whether each entry of the first document has an identical one in the second. -/
def identicalEntries : List (String × Value) → List (String × Value) → Bool
  | [], _ => true
  | (k, v) :: a, b =>
    (match Keyed.get? b k with
      | some w => identical v w
      | none => false) && identicalEntries a b

end

/-- Equality of values that are numbers; of any others it is false. -/
def equalNumbers (v w : Value) : Bool :=
  match v.number?, w.number? with
  | some a, some b => a.equal b
  | _, _ => false

mutual

/-- Equality of content: numbers as numbers, documents whatever the order of their keys. What is
only compared as a whole must be identical. -/
def equal : Value → Value → Bool
  | .null, .null => true
  | .bool a, .bool b => a == b
  | .dateTime a, .dateTime b => a == b
  | .string a, .string b => a == b
  | .special a, .special b => a == b
  | .array a, .array b => equalItems a b
  | .document a, .document b => a.length == b.length && equalEntries a b
  | .codeWithScope s a, .codeWithScope t b =>
    s == t && (a.length == b.length && identicalEntries a b)
  | v, w => equalNumbers v w

/-- Arrays are equal place by place. -/
def equalItems : List Value → List Value → Bool
  | [], [] => true
  | v :: a, w :: b => equal v w && equalItems a b
  | _, _ => false

/-- Whether each entry of the first document has an equal one in the second. -/
def equalEntries : List (String × Value) → List (String × Value) → Bool
  | [], _ => true
  | (k, v) :: a, b =>
    (match Keyed.get? b k with
      | some w => equal v w
      | none => false) && equalEntries a b

end

/-- The order of two values, where they are of one orderable kind. -/
def compare? : Value → Value → Option Ordering
  | .bool a, .bool b => some (compare a b)
  | .dateTime a, .dateTime b => some (compare a b)
  | .string a, .string b => some (compare a b)
  | v, w =>
    match v.number?, w.number? with
    | some a, some b => a.compare? b
    | _, _ => none

/-- Whether a condition holds when it has this value: null, undefined, false, zero and whatever is
empty are the ways to fail. -/
def truthy : Value → Bool
  | .null => false
  | .special .undefined => false
  | .bool b => b
  | .int32 n => n != 0
  | .int64 n => n != 0
  | .double x => x != 0.0
  | .string s => !s.isEmpty
  | .array items => !items.isEmpty
  | .document entries => !entries.isEmpty
  | _ => true

end TypedStore.Value
