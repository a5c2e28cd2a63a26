import TypedStore.Value.Number
import TypedStore.Value.Sorted
import TypedStore.Text.Base64
import TypedStore.Text.Hex

/-!
JSON, and how values are written to it and read from it.

Writing keeps what JSON has a form for and spells the rest as objects with a `$` key. Reading goes
through the members of an object in the order of their keys, and takes one with a `$` key as it
comes. It knows two ways with integers: `wide` makes each one a 64-bit integer, `fitted` makes a
non-negative one a 32-bit integer where that holds it. A number too large for 64 bits cannot be
read.

Collections are exported and imported in a format that comes with the document type
(`JsonFormat`); `JsonFormat.extended` is the one made of these two.
-/

namespace TypedStore

/-- A JSON value. Numbers are integers or doubles; the members of an object have distinct keys. -/
inductive Json where
  | null
  | bool (b : Bool)
  | int (n : Int)
  | float (x : Float)
  | string (text : String)
  | array (items : List Json)
  | object (members : List (String × Json))
  deriving Inhabited

namespace Json

/-! ## Writing -/

/-- A double as a JSON number; there is none for a NaN or an infinity. -/
def ofFloat (x : Float) : Json := if x.isFinite then .float x else .null

/-- A special value as JSON. -/
def ofSpecial : Special → Json
  | .undefined => .object [("$undefined", .bool true)]
  | .minKey => .object [("$minKey", .int 1)]
  | .maxKey => .object [("$maxKey", .int 1)]
  | .objectId id => .object [("$oid", .string (Hex.ofBytes id.bytes))]
  | .binary subtype bytes =>
    if subtype = 0 then .array (bytes.map fun b => .int b.toNat)
    else .object [("$binary", .object [("base64", .string (Base64.ofBytes bytes)),
      ("subType", .string (Hex.ofBytes [subtype]))])]
  | .timestamp time increment =>
    .object [("$timestamp", .object [("t", .int time.toNat), ("i", .int increment.toNat)])]
  | .symbol text => .object [("$symbol", .string text)]
  | .code text => .object [("$code", .string text)]
  | .regularExpression pattern options =>
    .object [("$regularExpression",
      .object [("pattern", .string pattern), ("options", .string options)])]
  | .decimal128 d => .object [("$numberDecimal", .string d.text)]
  | .dbPointer collection id =>
    .object [("$dbPointer", .object [("$ref", .string collection),
      ("$id", .object [("$oid", .string (Hex.ofBytes id.bytes))])])]

mutual

/-- A value as JSON. -/
def ofValue : Value → Json
  | .null => .null
  | .bool b => .bool b
  | .int32 n => .int n.toInt
  | .int64 n => .int n.toInt
  | .double x => ofFloat x
  | .dateTime millis =>
    .object [("$date", .object [("$numberLong", .string (Int.repr millis.toInt))])]
  | .string text => .string text
  | .array items => .array (ofItems items)
  | .document entries => .object (ofEntries entries)
  | .special s => ofSpecial s
  | .codeWithScope text scope =>
    .object [("$code", .string text), ("$scope", .object (ofEntries scope))]

/-- The items of an array as JSON. -/
def ofItems : List Value → List Json
  | [] => []
  | v :: rest => ofValue v :: ofItems rest

/-- The entries of a document as the members of an object. -/
def ofEntries : List (String × Value) → List (String × Json)
  | [] => []
  | (k, v) :: rest => (k, ofValue v) :: ofEntries rest

end

/-- Whether a value, no document itself, has an object with a `$` key for its form. -/
def isTagged : Value → Bool
  | .dateTime _ => true
  | .special (.binary subtype _) => subtype != 0
  | .special _ => true
  | .codeWithScope _ _ => true
  | _ => false

theorem ofValue_of_isTagged {v : Value} (h : isTagged v = true) :
    ∃ key j rest, ofValue v = .object ((key, j) :: rest) := by
  cases v with
  | dateTime millis => exact ⟨_, _, _, rfl⟩
  | codeWithScope text scope => exact ⟨_, _, _, rfl⟩
  | special s => cases s <;> simp_all [isTagged, ofValue, ofSpecial]
  | _ => simp [isTagged] at h

/-! ## Reading -/

/-- How wide an integer is read. -/
inductive IntegerWidth where
  | wide
  | fitted
  deriving DecidableEq, Repr

/-- The greatest integer that 32 bits hold. -/
def maxInteger32 : Int := 2147483647

/-- The integer as a value, if 64 bits hold it. -/
def readInteger? (width : IntegerWidth) (n : Int) : Option Value :=
  if width = .fitted ∧ 0 ≤ n ∧ n ≤ maxInteger32 then some (.int32 (Int32.ofInt n))
  else if Value.minInteger ≤ n ∧ n ≤ Value.maxInteger then some (.int64 (Int64.ofInt n))
  else none

mutual

/-- The value that JSON is read as. -/
def read? (width : IntegerWidth) : Json → Option Value
  | .null => some .null
  | .bool b => some (.bool b)
  | .int n => readInteger? width n
  | .float x => some (.double x)
  | .string text => some (.string text)
  | .array items => (readItems? width items).map .array
  | .object members => (readMembers? width members).map fun es => .document (Keyed.sort es)

/-- The items of an array, if all of them can be read. -/
def readItems? (width : IntegerWidth) : List Json → Option (List Value)
  | [] => some []
  | j :: rest => do
    let v ← read? width j
    let vs ← readItems? width rest
    some (v :: vs)

/-- The members of an object, if all of them can be read. -/
def readMembers? (width : IntegerWidth) : List (String × Json) → Option (List (String × Value))
  | [] => some []
  | (k, j) :: rest => do
    let v ← read? width j
    let es ← readMembers? width rest
    some ((k, v) :: es)

end

/-- The double nearest to a JSON number. -/
def number? : Json → Option Float
  | .float x => some x
  | .int n =>
    if n < 0 then some (Int64.ofInt n).toFloat else some (UInt64.ofNat n.toNat).toFloat
  | _ => none

end Json

/-! ## Export and import -/

/-- How documents are exported as JSON, and how JSON is read that is to be imported. -/
structure JsonFormat where
  write : Value → Json
  read? : Json → Option Value

/-- Objects list their members in the order of keys, and every integer is read in 64 bits. -/
def JsonFormat.extended : JsonFormat where
  write v := .ofValue v.sorted
  read? := Json.read? .wide

end TypedStore
